/-
The ZCVE/1 encoder, the exact wire length, and limit validation (`zeno-fcis-value`).

An encoder returns the bytes it appends to `output`; its callers drop that buffer on an error.
-/
import ZenoFcis.Value.Basic

namespace ZenoFcis

namespace Zcve

def tagUnit : UInt8 := 0x00
def tagBoolFalse : UInt8 := 0x01
def tagBoolTrue : UInt8 := 0x02
def tagU128 : UInt8 := 0x03
def tagI128 : UInt8 := 0x04
def tagBytes : UInt8 := 0x05
def tagText : UInt8 := 0x06
def tagEnum : UInt8 := 0x07
def tagTuple : UInt8 := 0x08
def tagRecord : UInt8 := 0x09
def tagSum : UInt8 := 0x0a
def tagVector : UInt8 := 0x0b
def tagMap : UInt8 := 0x0c

end Zcve

open Zcve

/-! ## Words and byte order -/

/-- the low `width` bytes of `word`, most significant first -/
def appendWord (word : BitVec 128) : ℕ → Bytes
  | 0 => []
  | width + 1 => appendWord (word >>> 8) width ++ [UInt8.ofNat (word.toNat % 256)]

/-- the two's-complement bit pattern of a signed value -/
def signedToBits (word : I128) : BitVec 128 :=
  if word.val < 0 then BitVec.ofNat 128 (2 ^ 128 - 1 - (-(word.val + 1)).toNat) else BitVec.ofNat 128 word.val.toNat

/-- strict lexicographic order of byte strings -/
def bytesBefore : Bytes → Bytes → Bool
  | _, [] => false
  | [], _ :: _ => true
  | a :: left, b :: right => if a < b then true else if b < a then false else bytesBefore left right

def isAscii (bytes : Bytes) : Bool := bytes.all (· < 128)

def checkWireLength (length : ℕ) : Except ValueError Unit :=
  if length ≤ u32Max then .ok () else .error .arithmeticOverflow

def putZcveLength (length : ℕ) : Except ValueError Bytes :=
  if length ≤ u32Max then .ok (appendWord (BitVec.ofNat 128 length) 4) else .error .arithmeticOverflow

def putZcveBlob (bytes : Bytes) : Except ValueError Bytes := do
  let prefixed ← putZcveLength bytes.length
  return prefixed ++ bytes

/-! ## The encoder -/

mutual

def encodeZcveValue : Value → Except ValueError Bytes
  | .unit => .ok [tagUnit]
  | .bool false => .ok [tagBoolFalse]
  | .bool true => .ok [tagBoolTrue]
  | .u128 integer => .ok (tagU128 :: appendWord integer 16)
  | .i128 integer => .ok (tagI128 :: appendWord (signedToBits integer) 16)
  | .bytes bytes => do return tagBytes :: (← putZcveBlob bytes)
  | .text text => do return tagText :: (← putZcveBlob text)
  | .enum typeId variant =>
    .ok (tagEnum :: appendWord (BitVec.ofNat 128 typeId.toNat) 4 ++ appendWord (BitVec.ofNat 128 variant.toNat) 2)
  | .tuple items => do return tagTuple :: (← putZcveLength items.length) ++ (← encodeZcveItems items)
  | .record fields => do return tagRecord :: (← putZcveLength fields.length) ++ (← encodeZcveFields fields)
  | .sum typeId variant payload => do
    let head :=
      tagSum :: appendWord (BitVec.ofNat 128 typeId.toNat) 4 ++ appendWord (BitVec.ofNat 128 variant.toNat) 2
    match payload with
    | none => return head ++ [0]
    | some child => return head ++ [1] ++ (← encodeZcveValue child)
  | .vector items => do return tagVector :: (← putZcveLength items.length) ++ (← encodeZcveItems items)
  | .map entries => do return tagMap :: (← putZcveLength entries.length) ++ (← encodeZcveEntries entries)

/-- the loop of `encode_zcve_items` after its tag and length -/
def encodeZcveItems : List Value → Except ValueError Bytes
  | [] => .ok []
  | item :: items => do return (← encodeZcveValue item) ++ (← encodeZcveItems items)

def encodeZcveFields : List Field → Except ValueError Bytes
  | [] => .ok []
  | .mk id value :: fields => do
    return appendWord (BitVec.ofNat 128 id.toNat) 2 ++ (← encodeZcveValue value) ++ (← encodeZcveFields fields)

def encodeZcveEntries : List MapEntry → Except ValueError Bytes
  | [] => .ok []
  | .mk encodedKey _ value :: entries => do
    let keyBlob ← putZcveBlob encodedKey
    let encodedValue ← encodeZcveValue value
    let valueBlob ← putZcveBlob encodedValue
    return keyBlob ++ valueBlob ++ (← encodeZcveEntries entries)

end

/-! ## The exact wire length -/

def checkedEncodedLengthAdd (left right : ℕ) : Except ValueError ℕ :=
  checkedAdd usizeMax left right .arithmeticOverflow

mutual

def encodedLength : Value → Except ValueError ℕ
  | .unit | .bool _ => .ok 1
  | .u128 _ | .i128 _ => .ok 17
  | .bytes bytes => do
    checkWireLength bytes.length
    checkedEncodedLengthAdd 5 bytes.length
  | .text text => do
    checkWireLength text.length
    checkedEncodedLengthAdd 5 text.length
  | .enum _ _ => .ok 7
  | .tuple items | .vector items => do
    checkWireLength items.length
    encodedLengthItems items 5
  | .record fields => do
    checkWireLength fields.length
    encodedLengthFields fields 5
  | .sum _ _ none => .ok 8
  | .sum _ _ (some child) => do checkedEncodedLengthAdd 8 (← encodedLength child)
  | .map entries => do
    checkWireLength entries.length
    encodedLengthEntries entries 5

/-- the item loop, with the `length` accumulated so far -/
def encodedLengthItems : List Value → ℕ → Except ValueError ℕ
  | [], length => .ok length
  | child :: items, length => do
    let length ← checkedEncodedLengthAdd length (← encodedLength child)
    encodedLengthItems items length

def encodedLengthFields : List Field → ℕ → Except ValueError ℕ
  | [], length => .ok length
  | .mk _ value :: fields, length => do
    let length ← checkedEncodedLengthAdd (← checkedEncodedLengthAdd length 2) (← encodedLength value)
    encodedLengthFields fields length

def encodedLengthEntries : List MapEntry → ℕ → Except ValueError ℕ
  | [], length => .ok length
  | .mk encodedKey _ value :: entries, length => do
    let key := encodedKey.length
    let value ← encodedLength value
    checkWireLength key
    checkWireLength value
    let length ←
      checkedEncodedLengthAdd (← checkedEncodedLengthAdd (← checkedEncodedLengthAdd length 8) key) value
    encodedLengthEntries entries length

end

/-! ## Limit validation -/

def ensureStrictFields : List Field → Except ValueError Unit
  | previous :: current :: fields =>
    if previous.id ≥ current.id then .error (.recordFieldOrder previous.id current.id)
    else ensureStrictFields (current :: fields)
  | _ => .ok ()

def ensureStrictMapKeys : List MapEntry → Except ValueError Unit
  | previous :: current :: entries =>
    if !bytesBefore previous.encodedKey current.encodedKey then .error .mapKeyOrder
    else ensureStrictMapKeys (current :: entries)
  | _ => .ok ()

def validateCollectionLen (length : ℕ) (limits : ValueLimits) : Except ValueError Unit :=
  if u32Max < length then .error .arithmeticOverflow
  else if length > limits.maxCollectionLen.toNat then .error (.collectionLimit limits.maxCollectionLen.toNat length)
  else .ok ()

def addPayload (length : ℕ) (limits : ValueLimits) (metrics : ValueMetrics) : Except ValueError ValueMetrics := do
  let payloadBytes ← checkedAdd u64Max metrics.payloadBytes length .arithmeticOverflow
  if payloadBytes > limits.maxPayloadBytes.toNat then
    .error (.payloadLimit limits.maxPayloadBytes.toNat payloadBytes)
  else .ok { metrics with payloadBytes }

/-- the depth and node checks at the head of `validate_value` -/
def enterValue (depth : ℕ) (limits : ValueLimits) (metrics : ValueMetrics) : Except ValueError ValueMetrics := do
  if depth > limits.effectiveMaxDepth.toNat then
    .error (.depthLimit limits.effectiveMaxDepth.toNat depth)
  else
    let nodes ← checkedAdd u64Max metrics.nodes 1 .arithmeticOverflow
    if nodes > limits.maxNodes.toNat then .error (.nodeLimit limits.maxNodes.toNat nodes)
    else .ok { metrics with nodes, depth := max metrics.depth depth }

mutual

def validateValue : Value → ℕ → ValueLimits → ValueMetrics → Except ValueError ValueMetrics
  | .bytes bytes, depth, limits, metrics => do
    let metrics ← enterValue depth limits metrics
    addPayload bytes.length limits metrics
  | .text text, depth, limits, metrics => do
    let metrics ← enterValue depth limits metrics
    if !isAscii text then .error .nonAsciiText else addPayload text.length limits metrics
  | .tuple items, depth, limits, metrics | .vector items, depth, limits, metrics => do
    let metrics ← enterValue depth limits metrics
    validateCollectionLen items.length limits
    let depth ← checkedAdd u32Max depth 1 .arithmeticOverflow
    validateItems items depth limits metrics
  | .record fields, depth, limits, metrics => do
    let metrics ← enterValue depth limits metrics
    validateCollectionLen fields.length limits
    ensureStrictFields fields
    let depth ← checkedAdd u32Max depth 1 .arithmeticOverflow
    validateFields fields depth limits metrics
  | .sum _ _ none, depth, limits, metrics => enterValue depth limits metrics
  | .sum _ _ (some child), depth, limits, metrics => do
    let metrics ← enterValue depth limits metrics
    let depth ← checkedAdd u32Max depth 1 .arithmeticOverflow
    validateValue child depth limits metrics
  | .map entries, depth, limits, metrics => do
    let metrics ← enterValue depth limits metrics
    validateCollectionLen entries.length limits
    ensureStrictMapKeys entries
    let depth ← checkedAdd u32Max depth 1 .arithmeticOverflow
    validateEntries entries depth limits metrics
  | .unit, depth, limits, metrics | .bool _, depth, limits, metrics | .u128 _, depth, limits, metrics
  | .i128 _, depth, limits, metrics | .enum _ _, depth, limits, metrics => enterValue depth limits metrics

def validateItems : List Value → ℕ → ValueLimits → ValueMetrics → Except ValueError ValueMetrics
  | [], _, _, metrics => .ok metrics
  | item :: items, depth, limits, metrics => do
    let metrics ← validateValue item depth limits metrics
    validateItems items depth limits metrics

def validateFields : List Field → ℕ → ValueLimits → ValueMetrics → Except ValueError ValueMetrics
  | [], _, _, metrics => .ok metrics
  | .mk _ value :: fields, depth, limits, metrics => do
    let metrics ← validateValue value depth limits metrics
    validateFields fields depth limits metrics

def validateEntries : List MapEntry → ℕ → ValueLimits → ValueMetrics → Except ValueError ValueMetrics
  | [], _, _, metrics => .ok metrics
  | .mk encodedKey key value :: entries, depth, limits, metrics => do
    let metrics ← addPayload encodedKey.length limits metrics
    let metrics ← addPayload (← encodedLength value) limits metrics
    let metrics ← validateValue key depth limits metrics
    let metrics ← validateValue value depth limits metrics
    validateEntries entries depth limits metrics

end

namespace Value

def validateLimits (value : Value) (limits : ValueLimits) : Except ValueError ValueMetrics :=
  validateValue value 0 limits ⟨0, 0, 0⟩

/-- appends the bytes admitted under `limits` to `output`; every refusal returns `output` as it was -/
def encodeZcveToWithLimits (value : Value) (output : Bytes) (limits : ValueLimits) :
    Except ValueError Unit × Bytes :=
  match (do let _ ← value.validateLimits limits
            let encoded ← encodeZcveValue value
            let _ ← checkedAdd usizeMax output.length encoded.length ValueError.arithmeticOverflow
            return encoded : Except ValueError Bytes) with
  | .ok encoded => (.ok (), output ++ encoded)
  | .error error => (.error error, output)

def zcveBytesWithLimits (value : Value) (limits : ValueLimits) : Except ValueError Bytes :=
  match value.encodeZcveToWithLimits [] limits with
  | (.ok (), output) => .ok output
  | (.error error, _) => .error error

/-- `zcve_bytes`: the canonical bytes under the default limits -/
def zcveBytes (value : Value) : Except ValueError Bytes := value.zcveBytesWithLimits .default

end Value

end ZenoFcis
