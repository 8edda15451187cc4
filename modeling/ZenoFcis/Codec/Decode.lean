/-
The one-pass ZCVE/1 decoder (`zeno-fcis-codec`): a cursor over the input and a budget shared with every nested blob.

The cursor and the budget are passed explicitly. The depth limit bounds the recursion, so the recursive decoder is
structural in `room`, the levels left before `maxSupportedDepth` is passed; `decodeValueInner` supplies enough of them
and satisfies the source's recursive equation (`decodeValueInner_eq` of `Canonical`).
-/
import ZenoFcis.Value.Construct

namespace ZenoFcis

open Zcve

/-- a 32-byte hash -/
structure Hash32 where
  bytes : Bytes
  length_eq : bytes.length = 32
deriving DecidableEq

/-- the all-zero hash -/
def Hash32.zero : Hash32 := ⟨List.replicate 32 0, rfl⟩

inductive EncodeError where
  | lengthOverflow
  | nonAsciiText
  | nonCanonicalRecord
  | nonCanonicalMap
  | mapKeyMismatch
  | invalidDomain
  | envelopeInputLimit (limit attempted : ℕ)
  | invalidValue (error : ValueError)
  | unsupportedProtocolVariant (name : String)
deriving DecidableEq

inductive DecodeError where
  | inputLimit (limit actual : ℕ)
  | lengthOverflow
  | unexpectedEnd (offset requested : ℕ)
  | trailingBytes (offset : ℕ)
  | unknownTag (tag : UInt8)
  | utf8
  | nonAsciiText
  | invalidSumFlag
  | nonCanonicalRecord
  | nonCanonicalMap
  | nonCanonical
  | envelopeMagic
  | blobLimit (limit attempted : ℕ)
  | depthLimit (limit attempted : ℕ)
  | nodeLimit (limit attempted : ℕ)
  | payloadLimit (limit attempted : ℕ)
  | collectionLimit (limit attempted : ℕ)
  | invalidValue (error : ValueError)
  | encode (error : EncodeError)
deriving DecidableEq

def mapValueEncodeError : ValueError → EncodeError
  | .recordFieldOrder _ _ => .nonCanonicalRecord
  | .mapKeyOrder => .nonCanonicalMap
  | .nonAsciiText => .nonAsciiText
  | other => .invalidValue other

/-- canonical value bytes under exactly the supplied structural limits -/
def canonicalValueBytesWithLimits (value : Value) (limits : ValueLimits) : Except EncodeError Bytes :=
  (value.zcveBytesWithLimits limits).mapError mapValueEncodeError

/-- decoder limits: the complete input and the structure of the value -/
structure DecodeLimits where
  maxInputBytes : UInt64
  value : ValueLimits
deriving DecidableEq

def DecodeLimits.default : DecodeLimits := ⟨67108864, .default⟩

/-! ## Byte readers -/

/-- reads a byte slice, most significant byte first -/
def readWord (bytes : Bytes) : BitVec 128 :=
  bytes.foldl (fun word byte => word <<< 8 ||| BitVec.ofNat 128 byte.toNat) 0

/-- a 128-bit pattern as a two's-complement signed value -/
def bitsToSigned (bits : BitVec 128) : I128 :=
  if h : bits.toNat ≤ 2 ^ 127 - 1 then ⟨bits.toNat, by omega, by omega⟩
  else ⟨-((2 ^ 128 - 1 - bits.toNat : ℕ) : ℤ) - 1, by omega, by omega⟩

/-- a UTF-8 continuation byte -/
def isContinuation (byte : UInt8) : Bool := 0x80 ≤ byte && byte ≤ 0xbf

/-- well-formed UTF-8: no overlong form, no surrogate, nothing above U+10FFFF -/
def isUtf8 : Bytes → Bool
  | [] => true
  | a :: bytes =>
    if a < 0x80 then isUtf8 bytes
    else match bytes with
      | b :: bytes =>
        if 0xc2 ≤ a && a ≤ 0xdf then isContinuation b && isUtf8 bytes
        else match bytes with
          | c :: bytes =>
            if 0xe0 ≤ a && a ≤ 0xef then
              isContinuation b && (a ≠ 0xe0 || 0xa0 ≤ b) && (a ≠ 0xed || b ≤ 0x9f) && isContinuation c && isUtf8 bytes
            else match bytes with
              | d :: bytes =>
                0xf0 ≤ a && a ≤ 0xf4 && isContinuation b && (a ≠ 0xf0 || 0x90 ≤ b) && (a ≠ 0xf4 || b ≤ 0x8f) &&
                  isContinuation c && isContinuation d && isUtf8 bytes
              | [] => false
          | [] => false
      | [] => false

/-- `core::str::from_utf8`: the bytes of the string read -/
def fromUtf8 (bytes : Bytes) : Except DecodeError Bytes := if isUtf8 bytes then .ok bytes else .error .utf8

/-! ## The cursor -/

structure Cursor where
  bytes : Bytes
  offset : ℕ
  le : offset ≤ bytes.length
deriving DecidableEq

namespace Cursor

def new (bytes : Bytes) : Cursor := ⟨bytes, 0, Nat.zero_le _⟩

def remaining (cursor : Cursor) : ℕ := cursor.bytes.length - cursor.offset

def take (cursor : Cursor) (length : ℕ) : Except DecodeError (Bytes × Cursor) := do
  let limit ← checkedAdd usizeMax cursor.offset length .lengthOverflow
  if h : limit ≤ cursor.bytes.length then
    return ((cursor.bytes.drop cursor.offset).take length, ⟨cursor.bytes, limit, h⟩)
  else .error (.unexpectedEnd cursor.offset length)

def takeU8 (cursor : Cursor) : Except DecodeError (UInt8 × Cursor) := do
  let (bytes, cursor) ← cursor.take 1
  return (bytes.headD 0, cursor)

def takeU16 (cursor : Cursor) : Except DecodeError (UInt16 × Cursor) := do
  let (bytes, cursor) ← cursor.take 2
  return (UInt16.ofNat (readWord bytes).toNat, cursor)

def takeU32 (cursor : Cursor) : Except DecodeError (UInt32 × Cursor) := do
  let (bytes, cursor) ← cursor.take 4
  return (UInt32.ofNat (readWord bytes).toNat, cursor)

def takeBlob (cursor : Cursor) (maximum : ℕ) : Except DecodeError (Bytes × Cursor) := do
  let (length, cursor) ← cursor.takeU32
  if length.toNat > maximum then .error (.blobLimit maximum length.toNat) else cursor.take length.toNat

end Cursor

/-! ## The budget -/

/-- limits and the counters spent so far -/
structure DecodeState where
  limits : ValueLimits
  nodes : ℕ
  payloadBytes : ℕ
  depth : ℕ
deriving DecidableEq

/-- room to reserve for `count` children of at least `minimum` wire bytes each -/
def initialCollectionCapacity (count remaining minimum : ℕ) : Except DecodeError ℕ :=
  if minimum = 0 then .error .lengthOverflow else .ok (min count (remaining / minimum))

namespace DecodeState

def new (limits : ValueLimits) : DecodeState := ⟨limits, 0, 0, 0⟩

def enter (state : DecodeState) (depth : ℕ) : Except DecodeError DecodeState := do
  if depth > state.limits.effectiveMaxDepth.toNat then
    .error (.depthLimit state.limits.effectiveMaxDepth.toNat depth)
  else
    let nodes ← checkedAdd u64Max state.nodes 1 .lengthOverflow
    if nodes > state.limits.maxNodes.toNat then .error (.nodeLimit state.limits.maxNodes.toNat nodes)
    else .ok { state with depth := max state.depth depth, nodes }

def payload (state : DecodeState) (length : ℕ) : Except DecodeError DecodeState := do
  let payloadBytes ← checkedAdd u64Max state.payloadBytes length .lengthOverflow
  if payloadBytes > state.limits.maxPayloadBytes.toNat then
    .error (.payloadLimit state.limits.maxPayloadBytes.toNat payloadBytes)
  else .ok { state with payloadBytes }

def reservation (state : DecodeState) (count remaining minimum : ℕ) : Except DecodeError ℕ := do
  return min (← initialCollectionCapacity count remaining minimum) (state.limits.maxNodes.toNat - state.nodes)

def collection (state : DecodeState) (length : ℕ) : Except DecodeError Unit :=
  if length > state.limits.maxCollectionLen.toNat then
    .error (.collectionLimit state.limits.maxCollectionLen.toNat length)
  else .ok ()

end DecodeState

/-! ## The decoder

The loops and `decode_complete_value` are written over the decoder of one value one level deeper. -/

/-- a decoder of one value at a fixed depth -/
abbrev ValueDecoder := Cursor → DecodeState → Except DecodeError (Value × Cursor × DecodeState)

/-- decodes one complete framed value from exactly `bytes` -/
def decodeCompleteWith (inner : ValueDecoder) (bytes : Bytes) (state : DecodeState) :
    Except DecodeError (Value × DecodeState) := do
  let (value, cursor, state) ← inner (.new bytes) state
  if cursor.remaining ≠ 0 then .error (.trailingBytes cursor.offset)
  else
    let canonical ← (canonicalValueBytesWithLimits value state.limits).mapError .encode
    if canonical ≠ bytes then .error .nonCanonical else return (value, state)

def decodeItemsLoop (inner : ValueDecoder) :
    ℕ → Cursor → DecodeState → Except DecodeError (List Value × Cursor × DecodeState)
  | 0, cursor, state => .ok ([], cursor, state)
  | count + 1, cursor, state => do
    let (child, cursor, state) ← inner cursor state
    let (items, cursor, state) ← decodeItemsLoop inner count cursor state
    return (child :: items, cursor, state)

def decodeItems (inner : ValueDecoder) (cursor : Cursor) (state : DecodeState) (count : ℕ) :
    Except DecodeError (List Value × Cursor × DecodeState) := do
  let _ ← state.reservation count cursor.remaining 1
  decodeItemsLoop inner count cursor state

def decodeFieldsLoop (inner : ValueDecoder) :
    ℕ → Option UInt16 → Cursor → DecodeState → Except DecodeError (List Field × Cursor × DecodeState)
  | 0, _, cursor, state => .ok ([], cursor, state)
  | count + 1, previous, cursor, state => do
    let (id, cursor) ← cursor.takeU16
    if (match previous with | some value => decide (value ≥ id) | none => false) then .error .nonCanonicalRecord
    else
      let (child, cursor, state) ← inner cursor state
      let (fields, cursor, state) ← decodeFieldsLoop inner count (some id) cursor state
      return (.mk id child :: fields, cursor, state)

def decodeFields (inner : ValueDecoder) (cursor : Cursor) (state : DecodeState) (count : ℕ) :
    Except DecodeError (List Field × Cursor × DecodeState) := do
  let _ ← state.reservation count cursor.remaining 3
  decodeFieldsLoop inner count none cursor state

def decodeEntriesLoop (inner : ValueDecoder) :
    ℕ → Option Bytes → Cursor → DecodeState → Except DecodeError (List MapEntry × Cursor × DecodeState)
  | 0, _, cursor, state => .ok ([], cursor, state)
  | count + 1, previous, cursor, state => do
    let (encodedKey, cursor) ← cursor.takeBlob state.limits.maxPayloadBytes.toNat
    let state ← state.payload encodedKey.length
    if (match previous with | some value => !bytesBefore value encodedKey | none => false) then
      .error .nonCanonicalMap
    else
      let (encodedValue, cursor) ← cursor.takeBlob state.limits.maxPayloadBytes.toNat
      let state ← state.payload encodedValue.length
      let (key, state) ← decodeCompleteWith inner encodedKey state
      let (value, state) ← decodeCompleteWith inner encodedValue state
      let entry ← (MapEntry.tryNewWithLimits key value state.limits).mapError .invalidValue
      if entry.encodedKey ≠ encodedKey then .error .nonCanonical
      else
        let (entries, cursor, state) ← decodeEntriesLoop inner count (some encodedKey) cursor state
        return (entry :: entries, cursor, state)

def decodeEntries (inner : ValueDecoder) (cursor : Cursor) (state : DecodeState) (count : ℕ) :
    Except DecodeError (List MapEntry × Cursor × DecodeState) := do
  let _ ← state.reservation count cursor.remaining 10
  decodeEntriesLoop inner count none cursor state

/-- the match of `decode_value_inner` on the tag it has read, over the decoder of a child given the child's depth -/
def decodeTagged (child : ℕ → ValueDecoder) (depth : ℕ) (tag : UInt8) : ValueDecoder := fun cursor state => do
  match tag with
  | 0x00 => return (.unit, cursor, state)
  | 0x01 => return (.bool false, cursor, state)
  | 0x02 => return (.bool true, cursor, state)
  | 0x03 =>
    let (bytes, cursor) ← cursor.take 16
    return (.u128 (readWord bytes), cursor, state)
  | 0x04 =>
    let (bytes, cursor) ← cursor.take 16
    return (.i128 (bitsToSigned (readWord bytes)), cursor, state)
  | 0x05 =>
    let (bytes, cursor) ← cursor.takeBlob state.limits.maxPayloadBytes.toNat
    let state ← state.payload bytes.length
    let value ← (Value.bytesWithLimits bytes state.limits).mapError .invalidValue
    return (value, cursor, state)
  | 0x06 =>
    let (bytes, cursor) ← cursor.takeBlob state.limits.maxPayloadBytes.toNat
    let state ← state.payload bytes.length
    if !isAscii bytes then .error .nonAsciiText
    else
      let text ← fromUtf8 bytes
      let value ← (Value.textAsciiWithLimits text state.limits).mapError .invalidValue
      return (value, cursor, state)
  | 0x07 =>
    let (typeId, cursor) ← cursor.takeU32
    let (variant, cursor) ← cursor.takeU16
    return (.enum typeId variant, cursor, state)
  | 0x08 =>
    let (count, cursor) ← cursor.takeU32
    state.collection count.toNat
    let depth ← checkedAdd u32Max depth 1 .lengthOverflow
    let (items, cursor, state) ← decodeItems (child depth) cursor state count.toNat
    let value ← (Value.tupleOf items).mapError .invalidValue
    return (value, cursor, state)
  | 0x09 =>
    let (count, cursor) ← cursor.takeU32
    state.collection count.toNat
    let depth ← checkedAdd u32Max depth 1 .lengthOverflow
    let (fields, cursor, state) ← decodeFields (child depth) cursor state count.toNat
    let value ← (Value.recordCanonical fields).mapError .invalidValue
    return (value, cursor, state)
  | 0x0a =>
    let (typeId, cursor) ← cursor.takeU32
    let (variant, cursor) ← cursor.takeU16
    let (flag, cursor) ← cursor.takeU8
    match flag with
    | 0 => return (.sum typeId variant none, cursor, state)
    | 1 =>
      let depth ← checkedAdd u32Max depth 1 .lengthOverflow
      let (payload, cursor, state) ← child depth cursor state
      return (.sum typeId variant (some payload), cursor, state)
    | _ => .error .invalidSumFlag
  | 0x0b =>
    let (count, cursor) ← cursor.takeU32
    state.collection count.toNat
    let depth ← checkedAdd u32Max depth 1 .lengthOverflow
    let (items, cursor, state) ← decodeItems (child depth) cursor state count.toNat
    let value ← (Value.vectorOf items).mapError .invalidValue
    return (value, cursor, state)
  | 0x0c =>
    let (count, cursor) ← cursor.takeU32
    state.collection count.toNat
    let depth ← checkedAdd u32Max depth 1 .lengthOverflow
    let (entries, cursor, state) ← decodeEntries (child depth) cursor state count.toNat
    let value ← (Value.mapCanonical entries).mapError .invalidValue
    return (value, cursor, state)
  | other => .error (.unknownTag other)

/-- the body of `decode_value_inner` at `depth` -/
def decodeBody (child : ℕ → ValueDecoder) (depth : ℕ) : ValueDecoder := fun cursor state => do
  let state ← state.enter depth
  let (tag, cursor) ← cursor.takeU8
  decodeTagged child depth tag cursor state

/-- `decode_value_inner` with `room` levels to go; none are left only past the depth limit -/
def decodeRoom : ℕ → ℕ → ValueDecoder
  | 0, depth => fun _ state => .error (.depthLimit state.limits.effectiveMaxDepth.toNat depth)
  | room + 1, depth => decodeBody (decodeRoom room) depth

def decodeValueInner (depth : ℕ) : ValueDecoder := decodeRoom (1025 - depth) depth

def decodeCompleteValue (bytes : Bytes) (state : DecodeState) (depth : ℕ) : Except DecodeError (Value × DecodeState) :=
  decodeCompleteWith (decodeValueInner depth) bytes state

def enforceInputLimit (bytes : Bytes) (limits : DecodeLimits) : Except DecodeError Unit :=
  if u64Max < bytes.length then .error .lengthOverflow
  else if bytes.length > limits.maxInputBytes.toNat then
    .error (.inputLimit limits.maxInputBytes.toNat bytes.length)
  else .ok ()

/-- decodes a value with the counters the decoder observed -/
def decodeValueWithMetrics (bytes : Bytes) (limits : DecodeLimits) : Except DecodeError (Value × ValueMetrics) := do
  enforceInputLimit bytes limits
  let (value, state) ← decodeCompleteValue bytes (.new limits.value) 0
  return (value, ⟨state.nodes, state.payloadBytes, state.depth⟩)

/-- decodes one value and rejects trailing bytes and noncanonical aliases -/
def decodeValue (bytes : Bytes) (limits : DecodeLimits) : Except DecodeError Value :=
  match decodeValueWithMetrics bytes limits with
  | .ok (value, _) => .ok value
  | .error error => .error error

end ZenoFcis
