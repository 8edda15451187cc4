/-
Strict decoding of canonical plans (`zeno-fcis-plan`): items in blobs, values in blobs inside the items, and one budget of
value nodes and payload bytes that every decoded value is charged to.

The cursor is the codec's; its two failures are renamed (`PlanDecodeError.ofCursor`). The state of the budget is passed
explicitly. `decodePlanItems` reads the wire of either plan, the two decoders rebuild the plan and compare.
-/
import ZenoFcis.Plan.Plan
import ZenoFcis.Codec.Envelope

namespace ZenoFcis

open Lib Lib.Except Patch

/-- resource bounds of one decode -/
structure PlanDecodeLimits where
  maxInputBytes : UInt64
  maxEffects : UInt32
  maxOutboxEntries : UInt32
  maxValueNodes : UInt64
  maxValuePayloadBytes : UInt64
  value : DecodeLimits
deriving DecidableEq

def PlanDecodeLimits.default : PlanDecodeLimits := ⟨67108864, 4096, 4096, 1000000, 67108864, .default⟩

inductive PlanDecodeError where
  | inputLimit (limit actual : ℕ)
  | effectLimit (limit actual : ℕ)
  | outboxEntryLimit (limit actual : ℕ)
  | valueNodeLimit (limit actual : ℕ)
  | valuePayloadLimit (limit actual : ℕ)
  | lengthOverflow
  | unexpectedEnd (offset requested : ℕ)
  | trailingBytes (offset : ℕ)
  | value (error : DecodeError)
  | plan (error : PlanError)
  | encode (error : EncodeError)
  | nonCanonical
deriving DecidableEq

/-- a failed cursor step: the input ends, or an offset overflows -/
def PlanDecodeError.ofCursor : DecodeError → PlanDecodeError
  | .unexpectedEnd offset requested => .unexpectedEnd offset requested
  | _ => .lengthOverflow

/-! ## The cursor -/

namespace PlanCursor

def take (cursor : Cursor) (count : ℕ) : Except PlanDecodeError (Bytes × Cursor) :=
  (cursor.take count).mapError .ofCursor

def takeU32 (cursor : Cursor) : Except PlanDecodeError (UInt32 × Cursor) := cursor.takeU32.mapError .ofCursor

def takeHash32 (cursor : Cursor) : Except PlanDecodeError (Hash32 × Cursor) := do
  let (bytes, cursor) ← take cursor 32
  return (.ofSlice bytes, cursor)

def takeBlob (cursor : Cursor) : Except PlanDecodeError (Bytes × Cursor) := do
  let (length, cursor) ← takeU32 cursor
  take cursor length.toNat

/-- room to reserve for `count` items -/
def capacity (count : UInt32) (cursor : Cursor) (minimum : ℕ) : Except PlanDecodeError ℕ :=
  (initialCollectionCapacity count.toNat cursor.remaining minimum).mapError .ofCursor

/-- `ensure_plan_consumed` -/
def finished (cursor : Cursor) : Except PlanDecodeError Unit :=
  ensure (cursor.remaining = 0) (.trailingBytes cursor.offset)

end PlanCursor

/-! ## Values -/

/-- what the values decoded so far amount to -/
structure PlanDecodeState where
  valueNodes : ℕ
  valuePayloadBytes : ℕ
deriving DecidableEq

def decodePlanValue (limits : PlanDecodeLimits) (bytes : Bytes) (state : PlanDecodeState) :
    Except PlanDecodeError (Value × PlanDecodeState) := do
  let value ← (decodeValue bytes limits.value).mapError .value
  let metrics ← (value.validateLimits limits.value.value).mapError fun error => .value (.invalidValue error)
  let valueNodes ← checkedAdd u64Max state.valueNodes metrics.nodes .lengthOverflow
  ensure (valueNodes ≤ limits.maxValueNodes.toNat) (.valueNodeLimit limits.maxValueNodes.toNat valueNodes)
  let valuePayloadBytes ← checkedAdd u64Max state.valuePayloadBytes metrics.payloadBytes .lengthOverflow
  ensure (valuePayloadBytes ≤ limits.maxValuePayloadBytes.toNat)
    (.valuePayloadLimit limits.maxValuePayloadBytes.toNat valuePayloadBytes)
  return (value, ⟨valueNodes, valuePayloadBytes⟩)

/-- `decode_plan_value` of the next blob -/
def decodePlanBlob (limits : PlanDecodeLimits) (cursor : Cursor) (state : PlanDecodeState) :
    Except PlanDecodeError (Value × Cursor × PlanDecodeState) := do
  let (bytes, cursor) ← PlanCursor.takeBlob cursor
  let (value, state) ← decodePlanValue limits bytes state
  return (value, cursor, state)

/-! ## Items -/

def decodeEffect (limits : PlanDecodeLimits) (bytes : Bytes) (state : PlanDecodeState) :
    Except PlanDecodeError (PlanEffect × PlanDecodeState) := do
  let (ordinal, cursor) ← PlanCursor.takeU32 (.new bytes)
  let (operation, cursor) ← PlanCursor.takeU32 cursor
  let (authority, cursor) ← PlanCursor.takeHash32 cursor
  let (subject, cursor) ← PlanCursor.takeHash32 cursor
  let (payload, cursor, state) ← decodePlanBlob limits cursor state
  PlanCursor.finished cursor
  return (⟨ordinal, operation, authority, subject, payload⟩, state)

def decodeOutboxEntry (limits : PlanDecodeLimits) (bytes : Bytes) (state : PlanDecodeState) :
    Except PlanDecodeError (OutboxEntry × PlanDecodeState) := do
  let (ordinal, cursor) ← PlanCursor.takeU32 (.new bytes)
  let (channel, cursor) ← PlanCursor.takeU32 cursor
  let (destination, cursor, state) ← decodePlanBlob limits cursor state
  let (payload, cursor, state) ← decodePlanBlob limits cursor state
  PlanCursor.finished cursor
  return (⟨ordinal, channel, destination, payload⟩, state)

/-! ## Plans -/

/-- a decoder of one item, which threads the budget -/
abbrev PlanItemDecoder (α : Type) :=
  PlanDecodeLimits → Bytes → PlanDecodeState → Except PlanDecodeError (α × PlanDecodeState)

section Items

variable {α : Type} (item : PlanItemDecoder α)

/-- the item loop -/
def decodePlanLoop (limits : PlanDecodeLimits) :
    ℕ → Cursor → PlanDecodeState → Except PlanDecodeError (List α × Cursor × PlanDecodeState)
  | 0, cursor, state => .ok ([], cursor, state)
  | count + 1, cursor, state => do
    let (encoded, cursor) ← PlanCursor.takeBlob cursor
    let (first, state) ← item limits encoded state
    let (items, cursor, state) ← decodePlanLoop limits count cursor state
    return (first :: items, cursor, state)

/-- what the wire says: the items in the order they stand there -/
def decodePlanItems (maximum : UInt32) (exceeded : ℕ → ℕ → PlanDecodeError) (bytes : Bytes) (limits : PlanDecodeLimits) :
    Except PlanDecodeError (List α) := do
  ensure (bytes.length ≤ u64Max) .lengthOverflow
  ensure (bytes.length ≤ limits.maxInputBytes.toNat) (.inputLimit limits.maxInputBytes.toNat bytes.length)
  let (count, cursor) ← PlanCursor.takeU32 (.new bytes)
  ensure (count ≤ maximum) (exceeded maximum.toNat count.toNat)
  let _ ← PlanCursor.capacity count cursor 4
  let (items, cursor, _) ← decodePlanLoop item limits count.toNat cursor ⟨0, 0⟩
  PlanCursor.finished cursor
  return items

end Items

def decodeEffects (bytes : Bytes) (limits : PlanDecodeLimits) : Except PlanDecodeError (List PlanEffect) :=
  decodePlanItems decodeEffect limits.maxEffects .effectLimit bytes limits

def decodeOutboxEntries (bytes : Bytes) (limits : PlanDecodeLimits) : Except PlanDecodeError (List OutboxEntry) :=
  decodePlanItems decodeOutboxEntry limits.maxOutboxEntries .outboxEntryLimit bytes limits

def ensureCanonicalPlan (input : Bytes) (plan : Except EncodeError Bytes) : Except PlanDecodeError Unit := do
  let encoded ← plan.mapError .encode
  ensure (encoded = input) .nonCanonical

def decodeCommitPlan (bytes : Bytes) (limits : PlanDecodeLimits) : Except PlanDecodeError CommitPlan := do
  let effects ← decodeEffects bytes limits
  let plan ← (CommitPlan.tryNew effects).mapError .plan
  ensureCanonicalPlan bytes plan.canonicalBytes
  return plan

def decodeOutboxPlan (bytes : Bytes) (limits : PlanDecodeLimits) : Except PlanDecodeError OutboxPlan := do
  let entries ← decodeOutboxEntries bytes limits
  let plan ← (OutboxPlan.tryNew entries).mapError .plan
  ensureCanonicalPlan bytes plan.canonicalBytes
  return plan

end ZenoFcis
