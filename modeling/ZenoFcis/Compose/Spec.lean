/-
Composition specifications (`zeno-fcis-compose`): access paths, footprints, component contracts, wirings and parallel
laws with their constructors and encodings, and the construction that sorts the lists of a specification and refuses
what they repeat.
-/
import ZenoFcis.Codec.Commitment
import ZenoFcis.Lib.PartialCode
import ZenoFcis.Lib.SortedList
import ZenoFcis.Lib.StableSort

namespace ZenoFcis.Compose

open Lib Lib.Except Lib.StableSort

def compositionFormatVersion : ℕ := 2
def maxPathAtoms : ℕ := 64
def maxPathsPerSet : ℕ := 4096
def maxComponents : ℕ := 4096
def maxClaims : ℕ := 16384
def maxParallelLaws : ℕ := 16384

inductive ContractError where
  | zeroIdentifier
  | zeroHash
  | pathTooDeep
  | nonTerminalWildcard
  | pathSetTooLarge
  | duplicatePath
  | componentCardinality
  | duplicateComponent
  | duplicateClaim
  | tooManyClaims
  | invalidMergeOrder
  | duplicateWiring
  | unknownComponent
  | tooManyParallelLaws
  | invalidParallelLaw
  | duplicateParallelLaw
  | encode (error : EncodeError)
deriving DecidableEq

def putU16Length (length : ℕ) : Except EncodeError Bytes :=
  if length ≤ 65535 then .ok (beBytes 2 length) else .error .lengthOverflow

def putU32Length (length : ℕ) : Except EncodeError Bytes :=
  if length ≤ u32Max then .ok (beBytes 4 length) else .error .lengthOverflow

def putBlob (bytes : Bytes) : Except EncodeError Bytes := concat [putU32Length bytes.length, .ok bytes]

/-- `put_blob` of the canonical bytes of a part -/
def nested (bytes : Except EncodeError Bytes) : Except EncodeError Bytes := bytes >>= putBlob

/-- sorting a list without adjacent repetitions gives increasing keys -/
theorem increasing_sortBy {α κ : Type} [LinearOrder κ] [DecidableEq κ] {key : α → κ} {l : List α}
    (h : adjacent (fun a b => decide (key a = key b)) (sortBy key l) = false) : Increasing key (sortBy key l) := by
  have hnodup := (adjacent_eq_false (sorted_sortBy key l)).1 h
  exact (List.pairwise_map.1 hnodup).imp₂ (fun _ _ hne hle => lt_of_le_of_ne hle hne) (sorted_sortBy key l)

/-! ## Paths -/

structure ComponentId where
  value : UInt32
deriving DecidableEq

namespace ComponentId

theorem value_inj : Function.Injective value := fun a b h => by cases a; cases b; cases h; rfl

instance : LinearOrder ComponentId := LinearOrder.lift' value value_inj

def encodeTo (id : ComponentId) : Except EncodeError Bytes := .ok (beBytes 4 id.value.toNat)

end ComponentId

inductive PathAtom where
  | field (id : UInt16)
  | tupleIndex (index : UInt32)
  | vectorIndex (index : UInt32)
  | sumPayload
  | mapKey (hash : Hash32)
  | anyDescendant
deriving DecidableEq

namespace PathAtom

/-- the derived order: the variant first, then its payload -/
def orderKey : PathAtom → ℕ ×ₗ ℕ ×ₗ Bytes
  | .field id => toLex (0, toLex (id.toNat, []))
  | .tupleIndex index => toLex (1, toLex (index.toNat, []))
  | .vectorIndex index => toLex (2, toLex (index.toNat, []))
  | .sumPayload => toLex (3, toLex (0, []))
  | .mapKey hash => toLex (4, toLex (0, hash.bytes))
  | .anyDescendant => toLex (5, toLex (0, []))

theorem orderKey_inj : Function.Injective orderKey := by
  intro a b h
  cases a <;> cases b <;> simp_all [orderKey, UInt16.toNat_inj, UInt32.toNat_inj, Hash32.bytes_inj.eq_iff]

instance : LinearOrder PathAtom := LinearOrder.lift' orderKey orderKey_inj

def encodeTo : PathAtom → Except EncodeError Bytes
  | .field id => .ok (0 :: beBytes 2 id.toNat)
  | .tupleIndex index => .ok (1 :: beBytes 4 index.toNat)
  | .vectorIndex index => .ok (2 :: beBytes 4 index.toNat)
  | .sumPayload => .ok [3]
  | .mapKey hash => .ok (4 :: hash.bytes)
  | .anyDescendant => .ok [5]

end PathAtom

/-- a hierarchical path inside one namespace; a wildcard stands last -/
structure AccessPath where
  namespaceId : UInt32
  atoms : List PathAtom
  nonzero : namespaceId ≠ 0
  depth : atoms.length ≤ maxPathAtoms
  terminal : .anyDescendant ∉ atoms.dropLast
deriving DecidableEq

namespace AccessPath

/-- the derived order: the namespace, then the atoms -/
def orderKey (path : AccessPath) : UInt32 ×ₗ List PathAtom := toLex (path.namespaceId, path.atoms)

theorem orderKey_inj : Function.Injective orderKey := by
  intro a b h
  cases a
  cases b
  cases h
  rfl

instance : LinearOrder AccessPath := LinearOrder.lift' orderKey orderKey_inj

def tryNew (namespaceId : UInt32) (atoms : List PathAtom) : Except ContractError AccessPath :=
  if hzero : namespaceId = 0 then .error .zeroIdentifier
  else if hdepth : maxPathAtoms < atoms.length then .error .pathTooDeep
  else if hterminal : .anyDescendant ∈ atoms.dropLast then .error .nonTerminalWildcard
  else .ok ⟨namespaceId, atoms, hzero, not_lt.1 hdepth, hterminal⟩

def encodeTo (path : AccessPath) : Except EncodeError Bytes :=
  concat [.ok (beBytes 4 path.namespaceId.toNat),
    concat (putU16Length path.atoms.length :: path.atoms.map PathAtom.encodeTo)]

end AccessPath

/-- a canonically ordered set of paths -/
structure PathSet where
  paths : List AccessPath
  increasing : Increasing (fun path => path) paths
  bounded : paths.length ≤ maxPathsPerSet

namespace PathSet

def tryNew (paths : List AccessPath) : Except ContractError PathSet :=
  if hlarge : maxPathsPerSet < paths.length then .error .pathSetTooLarge
  else if hsorted : adjacent (fun a b => decide (a = b)) (sortBy (fun path => path) paths) = false then
    .ok ⟨sortBy (fun path => path) paths, increasing_sortBy hsorted,
      (sortBy_perm _ paths).length_eq.le.trans (not_lt.1 hlarge)⟩
  else .error .duplicatePath

def encodeTo (set : PathSet) : Except EncodeError Bytes :=
  concat (putU32Length set.paths.length :: set.paths.map fun path => nested path.encodeTo)

end PathSet

structure Footprint where
  reads : PathSet
  writes : PathSet
  contexts : PathSet
  effects : PathSet

def Footprint.encodeTo (footprint : Footprint) : Except EncodeError Bytes :=
  concat [nested footprint.reads.encodeTo, nested footprint.writes.encodeTo, nested footprint.contexts.encodeTo,
    nested footprint.effects.encodeTo]

/-! ## Contracts -/

structure Assumption where
  claim : Hash32
  dependsOn : PathSet

def Assumption.encodeTo (assumption : Assumption) : Except EncodeError Bytes :=
  concat [.ok assumption.claim.bytes, nested assumption.dependsOn.encodeTo]

structure Guarantee where
  claim : Hash32
  dependsOn : PathSet

def Guarantee.encodeTo (guarantee : Guarantee) : Except EncodeError Bytes :=
  concat [.ok guarantee.claim.bytes, nested guarantee.dependsOn.encodeTo]

/-- a frame protecting a path from the writers that are not allowed -/
structure FrameRule where
  protectedPath : AccessPath
  allowedWriters : List ComponentId
  proofClaim : Hash32
  increasing : Increasing (fun id => id) allowedWriters
  named : ∀ id ∈ allowedWriters, id.value ≠ 0
  proved : proofClaim ≠ .zero

namespace FrameRule

def tryNew (protectedPath : AccessPath) (allowedWriters : List ComponentId) (proofClaim : Hash32) :
    Except ContractError FrameRule :=
  if hclaim : proofClaim = .zero then .error .zeroHash
  else if hwriters : (∀ id ∈ allowedWriters, id.value ≠ 0) ∧
      adjacent (fun a b => decide (a = b)) (sortBy (fun id => id) allowedWriters) = false then
    .ok ⟨protectedPath, sortBy (fun id => id) allowedWriters, proofClaim, increasing_sortBy hwriters.2,
      fun id hid => hwriters.1 id (mem_sortBy.1 hid), hclaim⟩
  else .error .duplicateComponent

def encodeTo (frame : FrameRule) : Except EncodeError Bytes :=
  concat [nested frame.protectedPath.encodeTo,
    concat (putU16Length frame.allowedWriters.length :: frame.allowedWriters.map ComponentId.encodeTo),
    .ok frame.proofClaim.bytes]

end FrameRule

structure ComponentContract where
  id : ComponentId
  profileHash : Hash32
  footprint : Footprint
  outbox : PathSet
  assumptions : List Assumption
  guarantees : List Guarantee
  frames : List FrameRule
  named : id.value ≠ 0
  profiled : profileHash ≠ .zero
  assumptionsIncreasing : Increasing Assumption.claim assumptions
  guaranteesIncreasing : Increasing Guarantee.claim guarantees
  framesIncreasing : Increasing FrameRule.protectedPath frames

namespace ComponentContract

def tryNewWithOutbox (id : ComponentId) (profileHash : Hash32) (footprint : Footprint) (outbox : PathSet)
    (assumptions : List Assumption) (guarantees : List Guarantee) (frames : List FrameRule) :
    Except ContractError ComponentContract :=
  if hid : id.value = 0 then .error .zeroIdentifier
  else if hprofile : profileHash = .zero then .error .zeroHash
  else if maxClaims < assumptions.length + guarantees.length + frames.length then .error .tooManyClaims
  else if (∃ item ∈ assumptions, item.claim = .zero) ∨ ∃ item ∈ guarantees, item.claim = .zero then .error .zeroHash
  else
    if h : adjacent (fun a b => decide (a.claim = b.claim)) (sortBy Assumption.claim assumptions) = false ∧
        adjacent (fun a b => decide (a.claim = b.claim)) (sortBy Guarantee.claim guarantees) = false ∧
        adjacent (fun a b => decide (a.protectedPath = b.protectedPath)) (sortBy FrameRule.protectedPath frames) = false
    then
      .ok ⟨id, profileHash, footprint, outbox, sortBy Assumption.claim assumptions, sortBy Guarantee.claim guarantees,
        sortBy FrameRule.protectedPath frames, hid, hprofile, increasing_sortBy h.1, increasing_sortBy h.2.1,
        increasing_sortBy h.2.2⟩
    else .error .duplicateClaim

def encodeTo (contract : ComponentContract) : Except EncodeError Bytes :=
  concat [contract.id.encodeTo, .ok contract.profileHash.bytes, nested contract.footprint.encodeTo,
    nested contract.outbox.encodeTo,
    concat (putU32Length contract.assumptions.length :: contract.assumptions.map fun item => nested item.encodeTo),
    concat (putU32Length contract.guarantees.length :: contract.guarantees.map fun item => nested item.encodeTo),
    concat (putU32Length contract.frames.length :: contract.frames.map fun item => nested item.encodeTo)]

end ComponentContract

/-! ## Wirings and laws -/

/-- a typed wiring from an effect of a component to a path of another -/
structure Wiring where
  sourceComponent : ComponentId
  sourceEffect : AccessPath
  destinationComponent : ComponentId
  destinationPath : AccessPath
  schemaHash : Hash32
deriving DecidableEq

namespace Wiring

/-- what wirings are sorted by: everything but the schema -/
def endpoints (wiring : Wiring) : ComponentId ×ₗ AccessPath ×ₗ ComponentId ×ₗ AccessPath :=
  toLex (wiring.sourceComponent,
    toLex (wiring.sourceEffect, toLex (wiring.destinationComponent, wiring.destinationPath)))

def encodeTo (wiring : Wiring) : Except EncodeError Bytes :=
  concat [wiring.sourceComponent.encodeTo, nested wiring.sourceEffect.encodeTo, wiring.destinationComponent.encodeTo,
    nested wiring.destinationPath.encodeTo, .ok wiring.schemaHash.bytes]

end Wiring

inductive ConflictKind where
  | writeWrite
  | leftWriteRightRead
  | rightWriteLeftRead
  | effectEffect
  | outboxOutbox
  | leftEffectRightOutbox
  | rightEffectLeftOutbox
deriving DecidableEq

namespace ConflictKind

/-- the discriminant -/
def code : ConflictKind → UInt8
  | .writeWrite => 0
  | .leftWriteRightRead => 1
  | .rightWriteLeftRead => 2
  | .effectEffect => 3
  | .outboxOutbox => 4
  | .leftEffectRightOutbox => 5
  | .rightEffectLeftOutbox => 6

theorem code_inj : Function.Injective code := fun a b h => by cases a <;> cases b <;> first | rfl | cases h

instance : LinearOrder ConflictKind := LinearOrder.lift' code code_inj

def encodeTo (kind : ConflictKind) : Except EncodeError Bytes := .ok [kind.code]

end ConflictKind

/-- a reviewed law that lets one conflict of a pair commute -/
structure ParallelConflictLaw where
  left : ComponentId
  right : ComponentId
  kind : ConflictKind
  claim : Hash32
  named : left.value ≠ 0 ∧ right.value ≠ 0
  ordered : left < right
  claimed : claim ≠ .zero
deriving DecidableEq

namespace ParallelConflictLaw

/-- the pair and the kind that a law covers -/
def coverage (law : ParallelConflictLaw) : ComponentId ×ₗ ComponentId ×ₗ ConflictKind :=
  toLex (law.left, toLex (law.right, law.kind))

/-- the derived order: the coverage, then the claim -/
def orderKey (law : ParallelConflictLaw) : (ComponentId ×ₗ ComponentId ×ₗ ConflictKind) ×ₗ Hash32 :=
  toLex (law.coverage, law.claim)

theorem orderKey_inj : Function.Injective orderKey := by
  intro a b h
  cases a
  cases b
  cases h
  rfl

instance : LinearOrder ParallelConflictLaw := LinearOrder.lift' orderKey orderKey_inj

def tryNew (first second : ComponentId) (kind : ConflictKind) (claim : Hash32) :
    Except ContractError ParallelConflictLaw :=
  if hpair : first.value = 0 ∨ second.value = 0 ∨ first = second then .error .invalidParallelLaw
  else if hclaim : claim = .zero then .error .zeroHash
  else if hlt : first < second then
    .ok ⟨first, second, kind, claim, by tauto, hlt, hclaim⟩
  else .ok ⟨second, first, kind, claim, by tauto, lt_of_le_of_ne (not_lt.1 hlt) (by tauto), hclaim⟩

def encodeTo (law : ParallelConflictLaw) : Except EncodeError Bytes :=
  concat [law.left.encodeTo, law.right.encodeTo, law.kind.encodeTo, .ok law.claim.bytes]

end ParallelConflictLaw

/-! ## Specifications -/

structure CompositionSpec where
  version : UInt16
  components : List ComponentContract
  wirings : List Wiring
  couplingClaims : List Hash32
  mergeOrder : List ComponentId
  parallelLaws : List ParallelConflictLaw

/-- whether a search of the sorted components finds an identifier -/
def known (components : List ComponentContract) (id : ComponentId) : Bool :=
  (binarySearch ComponentContract.id id components).isOk

namespace CompositionSpec

def tryNewWithParallelLaws (version : UInt16) (components : List ComponentContract) (wirings : List Wiring)
    (couplingClaims : List Hash32) (mergeOrder : List ComponentId) (parallelLaws : List ParallelConflictLaw) :
    Except ContractError CompositionSpec := do
  ensure (version ≠ 0) .zeroIdentifier
  ensure (components ≠ [] ∧ components.length ≤ maxComponents) .componentCardinality
  let components := sortBy ComponentContract.id components
  ensure (adjacent (fun a b => decide (a.id = b.id)) components = false) .duplicateComponent
  let canonicalIds := components.map ComponentContract.id
  let sortedMerge := sortBy (fun id => id) mergeOrder
  ensure (sortedMerge = canonicalIds) .invalidMergeOrder
  let wirings := sortBy Wiring.endpoints wirings
  ensure (adjacent (fun a b => decide (a = b)) wirings = false) .duplicateWiring
  ensure (∀ wiring ∈ wirings, wiring.schemaHash ≠ .zero ∧ known components wiring.sourceComponent ∧
    known components wiring.destinationComponent) .unknownComponent
  ensure (.zero ∉ couplingClaims) .zeroHash
  let couplingClaims := sortBy (fun claim => claim) couplingClaims
  ensure (adjacent (fun a b => decide (a = b)) couplingClaims = false) .duplicateClaim
  ensure (parallelLaws.length ≤ maxParallelLaws) .tooManyParallelLaws
  let parallelLaws := sortBy (fun law => law) parallelLaws
  ensure (adjacent (fun a b => decide (a.coverage = b.coverage)) parallelLaws = false) .duplicateParallelLaw
  ensure (∀ law ∈ parallelLaws, known components law.left ∧ known components law.right) .invalidParallelLaw
  return ⟨version, components, wirings, couplingClaims, mergeOrder, parallelLaws⟩

def encodeTo (spec : CompositionSpec) : Except EncodeError Bytes :=
  concat [.ok (literal "ZFCIS-COMPOSITION-SPEC" ++ [0]), .ok (beBytes 2 compositionFormatVersion),
    .ok (beBytes 2 spec.version.toNat),
    concat (putU32Length spec.components.length :: spec.components.map fun item => nested item.encodeTo),
    concat (putU32Length spec.wirings.length :: spec.wirings.map fun item => nested item.encodeTo),
    concat (putU32Length spec.couplingClaims.length :: spec.couplingClaims.map fun claim => .ok claim.bytes),
    concat (putU32Length spec.mergeOrder.length :: spec.mergeOrder.map ComponentId.encodeTo),
    concat (putU32Length spec.parallelLaws.length :: spec.parallelLaws.map fun item => nested item.encodeTo)]

def commitment (hash : Bytes → Hash32) (spec : CompositionSpec) : Except ContractError Hash32 := do
  let bytes ← spec.encodeTo.mapError ContractError.encode
  (ZenoFcis.commitment hash ⟨literal "zeno-fcis/composition-spec", 2⟩ bytes).mapError ContractError.encode

end CompositionSpec

end ZenoFcis.Compose
