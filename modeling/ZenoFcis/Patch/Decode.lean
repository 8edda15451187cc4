/-
Strict decoding of canonical patches (`zeno-fcis-patch`): blobs nested four deep, and one budget of value nodes and
payload bytes that every decoded value is charged to, map keys of paths included.

The cursor is the codec's; its two failures are renamed (`PatchDecodeError.ofCursor`). The state of the budget is passed
explicitly. `decodeParts` reads the wire, `decodeCanonicalPatch` rebuilds the patch and compares.
-/
import ZenoFcis.Patch.Path
import ZenoFcis.Codec.Envelope

namespace ZenoFcis

open Lib Lib.Except Patch

/-- resource bounds of one decode -/
structure PatchDecodeLimits where
  maxInputBytes : UInt64
  maxOperations : UInt32
  maxPathSegments : UInt32
  maxMapKeyBytes : UInt64
  maxValueNodes : UInt64
  maxValuePayloadBytes : UInt64
  value : DecodeLimits
deriving DecidableEq

def PatchDecodeLimits.default : PatchDecodeLimits :=
  ⟨67108864, 4096, 256, 65536, 1000000, 67108864, .default⟩

inductive PatchDecodeError where
  | inputLimit (limit actual : ℕ)
  | operationLimit (limit actual : ℕ)
  | pathSegmentLimit (limit actual : ℕ)
  | mapKeyLimit (limit actual : ℕ)
  | valueNodeLimit (limit actual : ℕ)
  | valuePayloadLimit (limit actual : ℕ)
  | lengthOverflow
  | unexpectedEnd (offset requested : ℕ)
  | trailingBytes (offset : ℕ)
  | unknownPathTag (tag : UInt8)
  | unknownOperationTag (tag : UInt8)
  | invalidMapKeyFlag (flag : UInt8)
  | value (error : DecodeError)
  | patch (error : PatchError)
  | encode (error : EncodeError)
  | nonCanonical
deriving DecidableEq

/-- a failed cursor step: the input ends, or an offset overflows -/
def PatchDecodeError.ofCursor : DecodeError → PatchDecodeError
  | .unexpectedEnd offset requested => .unexpectedEnd offset requested
  | _ => .lengthOverflow

/-! ## The cursor -/

namespace PatchCursor

def take (cursor : Cursor) (count : ℕ) : Except PatchDecodeError (Bytes × Cursor) :=
  (cursor.take count).mapError .ofCursor

def takeU8 (cursor : Cursor) : Except PatchDecodeError (UInt8 × Cursor) := cursor.takeU8.mapError .ofCursor

def takeU16 (cursor : Cursor) : Except PatchDecodeError (UInt16 × Cursor) := cursor.takeU16.mapError .ofCursor

def takeU32 (cursor : Cursor) : Except PatchDecodeError (UInt32 × Cursor) := cursor.takeU32.mapError .ofCursor

def takeHash32 (cursor : Cursor) : Except PatchDecodeError (Hash32 × Cursor) := do
  let (bytes, cursor) ← take cursor 32
  return (.ofSlice bytes, cursor)

def takeBlob (cursor : Cursor) : Except PatchDecodeError (Bytes × Cursor) := do
  let (length, cursor) ← takeU32 cursor
  take cursor length.toNat

/-- room to reserve for `count` items -/
def capacity (count : UInt32) (cursor : Cursor) (minimum : ℕ) : Except PatchDecodeError ℕ :=
  (initialCollectionCapacity count.toNat cursor.remaining minimum).mapError .ofCursor

/-- nothing may be left to read -/
def finished (cursor : Cursor) : Except PatchDecodeError Unit :=
  ensure (cursor.remaining = 0) (.trailingBytes cursor.offset)

end PatchCursor

open PatchCursor

/-! ## Values -/

/-- what the values decoded so far amount to -/
structure PatchDecodeState where
  valueNodes : ℕ
  valuePayloadBytes : ℕ
deriving DecidableEq

/-- a decoder that threads the cursor and the budget -/
abbrev PatchReader (α : Type) := Cursor → PatchDecodeState → Except PatchDecodeError (α × Cursor × PatchDecodeState)

def decodePatchValue (bytes : Bytes) (limits : PatchDecodeLimits) (state : PatchDecodeState) :
    Except PatchDecodeError (Value × PatchDecodeState) := do
  let value ← (decodeValue bytes limits.value).mapError .value
  let metrics ← (value.validateLimits limits.value.value).mapError fun error => .value (.invalidValue error)
  let valueNodes ← checkedAdd u64Max state.valueNodes metrics.nodes .lengthOverflow
  ensure (valueNodes ≤ limits.maxValueNodes.toNat) (.valueNodeLimit limits.maxValueNodes.toNat valueNodes)
  let valuePayloadBytes ← checkedAdd u64Max state.valuePayloadBytes metrics.payloadBytes .lengthOverflow
  ensure (valuePayloadBytes ≤ limits.maxValuePayloadBytes.toNat)
    (.valuePayloadLimit limits.maxValuePayloadBytes.toNat valuePayloadBytes)
  return (value, ⟨valueNodes, valuePayloadBytes⟩)

/-! ## Paths -/

/-- one turn of the segment loop -/
def decodePathSegment (limits : PatchDecodeLimits) : PatchReader PathSegment := fun cursor state => do
  let (tag, cursor) ← takeU8 cursor
  if tag = pathTagField then
    let (id, cursor) ← takeU16 cursor
    return (.field id, cursor, state)
  else if tag = pathTagTuple then
    let (index, cursor) ← takeU32 cursor
    return (.tupleIndex index, cursor, state)
  else if tag = pathTagVector then
    let (index, cursor) ← takeU32 cursor
    return (.vectorIndex index, cursor, state)
  else if tag = pathTagSumPayload then return (.sumPayload, cursor, state)
  else if tag = pathTagMapKey then
    let (encodedKey, cursor) ← takeBlob cursor
    ensure (encodedKey.length ≤ u64Max) .lengthOverflow
    ensure (encodedKey.length ≤ limits.maxMapKeyBytes.toNat)
      (.mapKeyLimit limits.maxMapKeyBytes.toNat encodedKey.length)
    let (_, state) ← decodePatchValue encodedKey limits state
    return (.mapKey encodedKey, cursor, state)
  else .error (.unknownPathTag tag)

/-- the segment loop of `decode_value_path` -/
def decodePathSegments (limits : PatchDecodeLimits) : ℕ → PatchReader (List PathSegment)
  | 0, cursor, state => .ok ([], cursor, state)
  | count + 1, cursor, state => do
    let (segment, cursor, state) ← decodePathSegment limits cursor state
    let (segments, cursor, state) ← decodePathSegments limits count cursor state
    return (segment :: segments, cursor, state)

def decodeValuePath (bytes : Bytes) (limits : PatchDecodeLimits) (state : PatchDecodeState) :
    Except PatchDecodeError (ValuePath × PatchDecodeState) := do
  let (segmentCount, cursor) ← takeU32 (.new bytes)
  ensure (segmentCount ≤ limits.maxPathSegments)
    (.pathSegmentLimit limits.maxPathSegments.toNat segmentCount.toNat)
  let _ ← capacity segmentCount cursor 1
  let (segments, cursor, state) ← decodePathSegments limits segmentCount.toNat cursor state
  finished cursor
  return (⟨segments⟩, state)

/-! ## Operations -/

/-- the length-prefixed value of an insert or an update -/
def decodeCarried (limits : PatchDecodeLimits) : PatchReader Value := fun cursor state => do
  let (bytes, cursor) ← takeBlob cursor
  let (value, state) ← decodePatchValue bytes limits state
  return (value, cursor, state)

/-- the flag of an insert, and the key it announces -/
def decodeMapKey (limits : PatchDecodeLimits) : PatchReader (Option Value) := fun cursor state => do
  let (flag, cursor) ← takeU8 cursor
  match flag with
  | 0 => return (none, cursor, state)
  | 1 =>
    let (key, cursor, state) ← decodeCarried limits cursor state
    return (some key, cursor, state)
  | flag => .error (.invalidMapKeyFlag flag)

/-- what follows the path, by tag -/
def decodeOperationBody (limits : PatchDecodeLimits) (tag : UInt8) (path : ValuePath) : PatchReader PatchOp :=
  fun cursor state => do
  if tag = patchTagInsert then
    let (mapKey, cursor, state) ← decodeMapKey limits cursor state
    let (value, cursor, state) ← decodeCarried limits cursor state
    return (.insert path mapKey value, cursor, state)
  else if tag = patchTagUpdate then
    let (expectedOldHash, cursor) ← takeHash32 cursor
    let (value, cursor, state) ← decodeCarried limits cursor state
    return (.update path expectedOldHash value, cursor, state)
  else if tag = patchTagDelete then
    let (expectedOldHash, cursor) ← takeHash32 cursor
    return (.delete path expectedOldHash, cursor, state)
  else .error (.unknownOperationTag tag)

def decodePatchOperation (bytes : Bytes) (limits : PatchDecodeLimits) (state : PatchDecodeState) :
    Except PatchDecodeError (PatchOp × PatchDecodeState) := do
  let (tag, cursor) ← takeU8 (.new bytes)
  ensure (tag = patchTagInsert ∨ tag = patchTagUpdate ∨ tag = patchTagDelete) (.unknownOperationTag tag)
  let (encodedPath, cursor) ← takeBlob cursor
  let (path, state) ← decodeValuePath encodedPath limits state
  let (operation, cursor, state) ← decodeOperationBody limits tag path cursor state
  finished cursor
  return (operation, state)

/-- the operation loop of `decode_canonical_patch` -/
def decodePatchOperations (limits : PatchDecodeLimits) : ℕ → PatchReader (List PatchOp)
  | 0, cursor, state => .ok ([], cursor, state)
  | count + 1, cursor, state => do
    let (encoded, cursor) ← takeBlob cursor
    let (operation, state) ← decodePatchOperation encoded limits state
    let (operations, cursor, state) ← decodePatchOperations limits count cursor state
    return (operation :: operations, cursor, state)

/-! ## Patches -/

/-- what the wire says: the state type, the expected root and the operations in the order they stand there -/
def decodeParts (bytes : Bytes) (limits : PatchDecodeLimits) :
    Except PatchDecodeError (UInt32 × Hash32 × List PatchOp) := do
  ensure (bytes.length ≤ u64Max) .lengthOverflow
  ensure (bytes.length ≤ limits.maxInputBytes.toNat) (.inputLimit limits.maxInputBytes.toNat bytes.length)
  let (stateType, cursor) ← takeU32 (.new bytes)
  let (expectedPreRoot, cursor) ← takeHash32 cursor
  let (operationCount, cursor) ← takeU32 cursor
  ensure (operationCount ≤ limits.maxOperations) (.operationLimit limits.maxOperations.toNat operationCount.toNat)
  let _ ← capacity operationCount cursor 4
  let (operations, cursor, _) ← decodePatchOperations limits operationCount.toNat cursor ⟨0, 0⟩
  finished cursor
  return (stateType, expectedPreRoot, operations)

def decodeCanonicalPatch (bytes : Bytes) (limits : PatchDecodeLimits) : Except PatchDecodeError CanonicalPatch := do
  let (stateType, expectedPreRoot, operations) ← decodeParts bytes limits
  let patch ← (CanonicalPatch.tryNew stateType expectedPreRoot operations).mapError .patch
  let encoded ← patch.canonicalBytes.mapError .encode
  ensure (encoded = bytes) .nonCanonical
  return patch

end ZenoFcis
