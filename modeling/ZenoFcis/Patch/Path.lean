/-
Canonical patches (`zeno-fcis-patch`): value paths, preconditioned operations and the construction that orders them and
refuses overlapping targets.
-/
import ZenoFcis.Codec.Commitment
import ZenoFcis.Lib.SortedList

namespace ZenoFcis

open Lib Lib.Except

namespace Patch

def pathTagField : UInt8 := 0
def pathTagTuple : UInt8 := 1
def pathTagVector : UInt8 := 2
def pathTagSumPayload : UInt8 := 3
def pathTagMapKey : UInt8 := 4

def putLength (length : ℕ) : Except EncodeError Bytes :=
  if length ≤ u32Max then .ok (beBytes 4 length) else .error .lengthOverflow

def putBlob (bytes : Bytes) : Except EncodeError Bytes := do return (← putLength bytes.length) ++ bytes

theorem putLength_eq_ok {n : ℕ} {b : Bytes} : putLength n = .ok b ↔ n ≤ u32Max ∧ b = beBytes 4 n := by
  unfold putLength
  split_ifs with hn
  · simp [hn, eq_comm]
  · simp [hn]

theorem putBlob_eq_ok {bytes b : Bytes} : putBlob bytes = .ok b ↔ bytes.length ≤ u32Max ∧ b = blob 4 bytes := by
  simp only [putBlob, bind_eq_ok, putLength_eq_ok, pure_eq, Except.ok.injEq]
  constructor
  · rintro ⟨_, ⟨hn, rfl⟩, rfl⟩
    exact ⟨hn, rfl⟩
  · rintro ⟨hn, rfl⟩
    exact ⟨_, ⟨hn, rfl⟩, rfl⟩

end Patch

open Patch

/-! ## Paths -/

/-- one navigation step inside a value -/
inductive PathSegment where
  | field (id : UInt16)
  | tupleIndex (index : UInt32)
  | vectorIndex (index : UInt32)
  | sumPayload
  | mapKey (encodedKey : Bytes)
deriving DecidableEq

namespace PathSegment

/-- the derived order: the variant first, then its payload -/
def orderKey : PathSegment → ℕ ×ₗ ℕ ×ₗ Bytes
  | .field id => toLex (0, toLex (id.toNat, []))
  | .tupleIndex index => toLex (1, toLex (index.toNat, []))
  | .vectorIndex index => toLex (2, toLex (index.toNat, []))
  | .sumPayload => toLex (3, toLex (0, []))
  | .mapKey encodedKey => toLex (4, toLex (0, encodedKey))

theorem orderKey_inj : Function.Injective orderKey := by
  intro a b h
  cases a <;> cases b <;> simp_all [orderKey, UInt16.toNat_inj, UInt32.toNat_inj]

instance : LinearOrder PathSegment := LinearOrder.lift' orderKey orderKey_inj

def encode : PathSegment → Except EncodeError Bytes
  | .field id => .ok (pathTagField :: beBytes 2 id.toNat)
  | .tupleIndex index => .ok (pathTagTuple :: beBytes 4 index.toNat)
  | .vectorIndex index => .ok (pathTagVector :: beBytes 4 index.toNat)
  | .sumPayload => .ok [pathTagSumPayload]
  | .mapKey encodedKey => do return pathTagMapKey :: (← putBlob encodedKey)

end PathSegment

/-- a nested value path; the empty path addresses the whole state -/
structure ValuePath where
  segments : List PathSegment
deriving DecidableEq

namespace ValuePath

/-- the derived order: the segments, lexicographically -/
instance : LinearOrder ValuePath := LinearOrder.lift' segments fun a b h => by cases a; cases b; cases h; rfl

def isPrefixOf (path other : ValuePath) : Bool :=
  path.segments.length ≤ other.segments.length &&
    (path.segments.zip other.segments).all fun pair => pair.1 = pair.2

/-- the segment loop of `encode_to` -/
def encodeSegments : List PathSegment → Except EncodeError Bytes
  | [] => .ok []
  | segment :: segments => do return (← segment.encode) ++ (← encodeSegments segments)

def canonicalBytes (path : ValuePath) : Except EncodeError Bytes := do
  return (← putLength path.segments.length) ++ (← encodeSegments path.segments)

end ValuePath

/-! ## Operations -/

/-- one preconditioned state operation -/
inductive PatchOp where
  | insert (path : ValuePath) (mapKey : Option Value) (value : Value)
  | update (path : ValuePath) (expectedOldHash : Hash32) (value : Value)
  | delete (path : ValuePath) (expectedOldHash : Hash32)

def PatchOp.path : PatchOp → ValuePath
  | .insert path _ _ | .update path _ _ | .delete path _ => path

inductive PatchError where
  | encode (error : EncodeError)
  | invalidValue (error : ValueError)
  | overlappingPaths
  | insertAtRoot
  | deleteRoot
  | missingMapKey
  | unexpectedMapKey
  | mapKeyMismatch
  | unsupportedInsertTarget
  | unsupportedDeleteTarget
  | pathTypeMismatch
  | pathNotFound
  | expectedAbsent
  | preRootMismatch (expected actual : Hash32)
  | oldValueMismatch (path : ValuePath) (expected actual : Hash32)
deriving DecidableEq

def PatchOp.sortKey (operation : PatchOp) : Except PatchError Bytes :=
  operation.path.canonicalBytes.mapError .encode

def validateInsertShape : PatchOp → Except PatchError Unit
  | .insert path mapKey _ =>
    match path.segments.getLast? with
    | none => .error .insertAtRoot
    | some (.field _) => if mapKey.isSome then .error .unexpectedMapKey else .ok ()
    | some (.mapKey encodedKey) =>
      match mapKey with
      | none => .error .missingMapKey
      | some key => do
        let actual ← key.canonicalBytes.mapError PatchError.encode
        if actual ≠ encodedKey then .error .mapKeyMismatch else .ok ()
    | some (.tupleIndex _) | some (.vectorIndex _) | some .sumPayload => .error .unsupportedInsertTarget
  | .update _ _ _ | .delete _ _ => .ok ()

/-! ## Construction -/

/-- a pre-root-bound patch -/
structure CanonicalPatch where
  stateType : UInt32
  expectedPreRoot : Hash32
  operations : List PatchOp

/-- the shape loop of `try_new` -/
def validateInsertShapes : List PatchOp → Except PatchError Unit
  | [] => .ok ()
  | operation :: operations => do
    validateInsertShape operation
    validateInsertShapes operations

/-- the sort-key loop of `try_new` -/
def keyOperations : List PatchOp → Except PatchError (List (Bytes × PatchOp))
  | [] => .ok []
  | operation :: operations => do
    let key ← operation.sortKey
    return (key, operation) :: (← keyOperations operations)

/-- `paths.windows(2).any(|pair| pair[0].is_prefix_of(pair[1]))` -/
def neighboursOverlap : List ValuePath → Bool
  | first :: second :: paths => first.isPrefixOf second || neighboursOverlap (second :: paths)
  | _ => false

/-- orders operations by canonical path bytes and rejects overlap -/
def CanonicalPatch.tryNew (stateType : UInt32) (expectedPreRoot : Hash32) (operations : List PatchOp) :
    Except PatchError CanonicalPatch := do
  validateInsertShapes operations
  let keyed ← keyOperations operations
  let keyed := keyed.mergeSort fun left right => left.1 ≤ right.1
  let paths := (keyed.map fun entry => entry.2.path).mergeSort fun left right => left ≤ right
  if neighboursOverlap paths then .error .overlappingPaths
  else return ⟨stateType, expectedPreRoot, keyed.map Prod.snd⟩

/-! ## Canonical bytes -/

namespace Patch

def patchTagInsert : UInt8 := 0
def patchTagUpdate : UInt8 := 1
def patchTagDelete : UInt8 := 2

end Patch

def PatchOp.canonicalBytes : PatchOp → Except EncodeError Bytes
  | .insert path mapKey value => do
    let path ← putBlob (← path.canonicalBytes)
    let key ← match mapKey with
      | none => .ok [0]
      | some key => do pure (1 :: (← putBlob (← key.canonicalBytes)))
    return patchTagInsert :: path ++ key ++ (← putBlob (← value.canonicalBytes))
  | .update path expectedOldHash value => do
    let path ← putBlob (← path.canonicalBytes)
    return patchTagUpdate :: path ++ expectedOldHash.bytes ++ (← putBlob (← value.canonicalBytes))
  | .delete path expectedOldHash => do
    return patchTagDelete :: (← putBlob (← path.canonicalBytes)) ++ expectedOldHash.bytes

/-- the operation loop of `encode_to` -/
def encodeOperations : List PatchOp → Except EncodeError Bytes
  | [] => .ok []
  | operation :: operations => do
    return (← putBlob (← operation.canonicalBytes)) ++ (← encodeOperations operations)

def CanonicalPatch.canonicalBytes (patch : CanonicalPatch) : Except EncodeError Bytes := do
  return beBytes 4 patch.stateType.toNat ++ patch.expectedPreRoot.bytes ++ (← putLength patch.operations.length) ++
    (← encodeOperations patch.operations)

end ZenoFcis
