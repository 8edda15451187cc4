/-
Application of a canonical patch (`zeno-fcis-patch`): navigation, the three edits at a path, and the loop over the
operations. Rebuilding a parent around a changed child is one definition, shared by the edits as in the source.
-/
import ZenoFcis.Patch.Path

namespace ZenoFcis

open Lib

/-- computes the canonical value commitment under an explicit domain -/
def hashValue (hash : Bytes → Hash32) (domain : Domain) (value : Value) : Except PatchError Hash32 := do
  let bytes ← value.canonicalBytes.mapError PatchError.encode
  (commitment hash domain bytes).mapError .encode

/-- the old-value commitment of update and delete preconditions -/
def hashPreconditionValue (hash : Bytes → Hash32) (value : Value) : Except PatchError Hash32 :=
  hashValue hash .value value

/-- resolves a path -/
def lookup : Value → List PathSegment → Except PatchError Value
  | value, [] => .ok value
  | value, first :: rest =>
    match first, value with
    | .field id, .record fields =>
      match binarySearch Field.id id fields with
      | .error _ => .error .pathNotFound
      | .ok index => lookup fields[index].value rest
    | .tupleIndex index, .tuple items | .vectorIndex index, .vector items =>
      match items[index.toNat]? with
      | none => .error .pathNotFound
      | some child => lookup child rest
    | .sumPayload, .sum _ _ payload =>
      match payload with
      | none => .error .pathNotFound
      | some child => lookup child rest
    | .mapKey encodedKey, .map entries =>
      match binarySearch MapEntry.encodedKey encodedKey entries with
      | .error _ => .error .pathNotFound
      | .ok index => lookup entries[index].value rest
    | _, _ => .error .pathTypeMismatch

/-- rebuilds `value` with the child at `first` edited -/
def rebuildAt (value : Value) (first : PathSegment) (edit : Value → Except PatchError Value) :
    Except PatchError Value :=
  match first, value with
  | .field id, .record fields =>
    match binarySearch Field.id id fields with
    | .error _ => .error .pathNotFound
    | .ok index => do
      let child ← edit fields[index].value
      (Value.recordCanonical (fields.set index (.mk id child))).mapError .invalidValue
  | .tupleIndex index, .tuple items =>
    match items[index.toNat]? with
    | none => .error .pathNotFound
    | some current => do
      let child ← edit current
      (Value.tupleOf (items.set index.toNat child)).mapError .invalidValue
  | .vectorIndex index, .vector items =>
    match items[index.toNat]? with
    | none => .error .pathNotFound
    | some current => do
      let child ← edit current
      (Value.vectorOf (items.set index.toNat child)).mapError .invalidValue
  | .sumPayload, .sum typeId variant payload =>
    match payload with
    | none => .error .pathNotFound
    | some current => do
      let child ← edit current
      return .sum typeId variant (some child)
  | .mapKey encodedKey, .map entries =>
    match binarySearch MapEntry.encodedKey encodedKey entries with
    | .error _ => .error .pathNotFound
    | .ok index => do
      let child ← edit entries[index].value
      let entry ← (MapEntry.tryNew entries[index].key child).mapError PatchError.invalidValue
      (Value.mapCanonical (entries.set index entry)).mapError .invalidValue
  | _, _ => .error .pathTypeMismatch

def replaceAt (value : Value) (segments : List PathSegment) (replacement : Value) : Except PatchError Value :=
  match segments with
  | [] => .ok replacement
  | first :: rest => rebuildAt value first fun child => replaceAt child rest replacement

/-- the last step of `insert_at` -/
def insertChild (value : Value) (first : PathSegment) (mapKey : Option Value) (inserted : Value) :
    Except PatchError Value :=
  match first, value with
  | .field id, .record fields =>
    match binarySearch Field.id id fields with
    | .ok _ => .error .expectedAbsent
    | .error index =>
      (Value.recordCanonical (fields.insertIdx index (.mk id inserted))).mapError .invalidValue
  | .mapKey encodedKey, .map entries =>
    match mapKey with
    | none => .error .missingMapKey
    | some key =>
      match binarySearch MapEntry.encodedKey encodedKey entries with
      | .ok _ => .error .expectedAbsent
      | .error index => do
        let entry ← (MapEntry.tryNew key inserted).mapError PatchError.invalidValue
        if entry.encodedKey ≠ encodedKey then .error .mapKeyMismatch
        else (Value.mapCanonical (entries.insertIdx index entry)).mapError .invalidValue
  | _, _ => .error .unsupportedInsertTarget

def insertAt (value : Value) (segments : List PathSegment) (mapKey : Option Value) (inserted : Value) :
    Except PatchError Value :=
  match segments with
  | [] => .error .insertAtRoot
  | [first] => insertChild value first mapKey inserted
  | first :: second :: rest => rebuildAt value first fun child => insertAt child (second :: rest) mapKey inserted

/-- the last step of `delete_at` -/
def deleteChild (value : Value) (first : PathSegment) : Except PatchError Value :=
  match first, value with
  | .field id, .record fields =>
    match binarySearch Field.id id fields with
    | .error _ => .error .pathNotFound
    | .ok index => (Value.recordCanonical (fields.eraseIdx index)).mapError .invalidValue
  | .mapKey encodedKey, .map entries =>
    match binarySearch MapEntry.encodedKey encodedKey entries with
    | .error _ => .error .pathNotFound
    | .ok index => (Value.mapCanonical (entries.eraseIdx index)).mapError .invalidValue
  | _, _ => .error .unsupportedDeleteTarget

def deleteAt (value : Value) (segments : List PathSegment) : Except PatchError Value :=
  match segments with
  | [] => .error .deleteRoot
  | [first] => deleteChild value first
  | first :: second :: rest => rebuildAt value first fun child => deleteAt child (second :: rest)

/-! ## Application -/

/-- the precondition of an update or a delete: the old value has the expected hash -/
def checkOldValue (hash : Bytes → Hash32) (current : Value) (path : ValuePath) (expected : Hash32) :
    Except PatchError Unit := do
  let old ← lookup current path.segments
  let actual ← hashPreconditionValue hash old
  if actual ≠ expected then .error (.oldValueMismatch path expected actual) else .ok ()

/-- one round of the loop of `apply` -/
def applyOperation (hash : Bytes → Hash32) (current : Value) : PatchOp → Except PatchError Value
  | .insert path mapKey value => insertAt current path.segments mapKey value
  | .update path expectedOldHash value => do
    checkOldValue hash current path expectedOldHash
    replaceAt current path.segments value
  | .delete path expectedOldHash => do
    checkOldValue hash current path expectedOldHash
    deleteAt current path.segments

def applyOperations (hash : Bytes → Hash32) (current : Value) : List PatchOp → Except PatchError Value
  | [] => .ok current
  | operation :: operations => do
    let current ← applyOperation hash current operation
    applyOperations hash current operations

/-- a successor state with its root -/
structure AppliedPatch where
  state : Value
  postRoot : Hash32

/-- applies the complete patch or returns without a successor -/
def CanonicalPatch.apply (patch : CanonicalPatch) (hash : Bytes → Hash32) (state : Value) (stateDomain : Domain) :
    Except PatchError AppliedPatch := do
  let actualPreRoot ← hashValue hash stateDomain state
  if actualPreRoot ≠ patch.expectedPreRoot then
    .error (.preRootMismatch patch.expectedPreRoot actualPreRoot)
  else
    let current ← applyOperations hash state patch.operations
    let postRoot ← hashValue hash stateDomain current
    return ⟨current, postRoot⟩

end ZenoFcis
