/-
The manifest of a checked composition (`zeno-fcis-contract/src/checked_composition/manifest.rs`) and its refusals
(`refusal.rs`). Reading a manifest orders the leaves, the edges, the groups and the parts of each strictly by their ids;
the model keeps the orders that the checker relies on as fields.

What only other checks read (paths, source pins, declared writes, invariants, witnesses) is left out.
-/
import ZenoFcis.Compose.Spec

namespace ZenoFcis.Contract.Composition

/-! ## Refusals -/

/-- the stage of the checker that refused -/
inductive Stage where
  | manifest | binding | ownership | interface | hierarchy
deriving DecidableEq

/-- the obligation that failed -/
inductive Obligation where
  | closedManifestForm
  | programBinding
  | completeFootprint
  | disjointOwnership
  | completeLayout
  | providerBinding
  | typedView
  | providerClaim
  | groupTree
  | groupInterface
  | definedPredicate
deriving DecidableEq

/-- an explanation for a reader is a part of it, nothing decides on the texts -/
structure Refusal where
  stage : Stage
  obligation : Obligation
  place : String
  reason : String
deriving DecidableEq

/-! ## The manifest -/

inductive GuaranteeKind where
  | stateFact
  | transitionRelation
deriving DecidableEq

inductive Scope where
  | accept | reject | commit | any
deriving DecidableEq

structure Guarantee where
  id : UInt32
  kind : GuaranteeKind
  scope : Option Scope
  formula : String

/-- one state field that a leaf exports to its peers -/
structure View where
  id : UInt32
  field : UInt16

/-- one state field and the global slot it occupies -/
structure Owned where
  field : UInt16
  slot : UInt32

/-- one input that a leaf may read: a source and a field of it -/
structure ReadPath where
  source : UInt8
  field : UInt16

structure Leaf where
  id : UInt32
  name : String
  programSha256 : Hash32
  owns : List Owned
  reads : List ReadPath
  assumption : String
  guarantees : List Guarantee
  views : List View

/-- an interface field of a consumer, fed by a view of a provider with the facts that discharge the assumption -/
structure Edge where
  consumer : UInt32
  interface : UInt16
  provider : UInt32
  view : UInt32
  facts : List UInt32

/-- an environment input of a group -/
structure Input where
  id : UInt16
  leaf : UInt32
  field : UInt16

/-- a view of a leaf in a group -/
structure Export where
  id : UInt16
  leaf : UInt32
  view : UInt32

/-- one named conjunct of an outer assumption -/
structure Named where
  name : String
  formula : String

/-- one conjunct of an outer guarantee -/
structure GroupGuarantee where
  id : UInt32
  formula : String

/-- a group of leaves and groups -/
structure Group where
  id : UInt32
  name : String
  children : List UInt32
  inputs : List Input
  exports : List Export
  assumption : List Named
  guarantee : List GroupGuarantee

/-- groups in the order of their ids and a listed root -/
structure Hierarchy where
  groups : List Group
  root : UInt32
  increasing : groups.Pairwise fun a b => a.id < b.id
  root_listed : root ∈ groups.map Group.id

/-- leaves in the order of their ids; a flat manifest has no hierarchy -/
structure Manifest where
  leaves : List Leaf
  edges : List Edge
  hierarchy : Option Hierarchy
  increasing : leaves.Pairwise fun a b => a.id < b.id

def Leaf.view (leaf : Leaf) (id : UInt32) : Option View := leaf.views.find? fun view => view.id = id

namespace Manifest

variable (m : Manifest)

/-- the position of a listed leaf -/
def leafIndex (id : UInt32) : Option ℕ := m.leaves.findIdx? fun leaf => leaf.id = id

def leafIds : List UInt32 := m.leaves.map Leaf.id

/-- a leaf is found at the place where it is declared -/
theorem leafIndex_eq_some {id : UInt32} {p : ℕ} :
    m.leafIndex id = some p ↔ ∃ leaf, m.leaves[p]? = some leaf ∧ leaf.id = id := by
  constructor
  · intro h
    obtain ⟨hp, hid, -⟩ := List.findIdx?_eq_some_iff_getElem.1 h
    exact ⟨m.leaves[p], List.getElem?_eq_getElem hp, by simpa using hid⟩
  · intro ⟨leaf, hleaf, hid⟩
    obtain ⟨hp, hget⟩ := List.getElem?_eq_some_iff.1 hleaf
    refine List.findIdx?_eq_some_iff_getElem.2 ⟨hp, by simpa [hget] using hid, fun q hq => ?_⟩
    -- an earlier leaf has a smaller id
    have hlt := List.pairwise_iff_getElem.1 m.increasing q p (hq.trans hp) hp hq
    rw [hget, hid] at hlt
    simpa using ne_of_lt hlt

/-- a leaf is not found when it is not declared -/
theorem leafIndex_eq_none {id : UInt32} : m.leafIndex id = none ↔ id ∉ m.leafIds := by
  simp [leafIndex, leafIds, List.findIdx?_eq_none_iff]

end Manifest

namespace Hierarchy

variable (h : Hierarchy)

def groupIds : List UInt32 := h.groups.map Group.id

/-- a hierarchy names each group once -/
theorem nodup_groupIds : h.groupIds.Nodup :=
  (List.pairwise_map.2 h.increasing).imp fun {a b} (hlt : a < b) => ne_of_lt hlt

/-- the children of a listed group -/
def children (id : UInt32) : List UInt32 :=
  match h.groups.find? fun group => group.id = id with
  | some group => group.children
  | none => []

/-- the children of a group are the declared ones -/
theorem children_eq {group : Group} (hgroup : group ∈ h.groups) : h.children group.id = group.children := by
  have hfind : h.groups.find? (fun other => other.id = group.id) = some group := by
    cases hother : h.groups.find? fun other => other.id = group.id with
    | none => exact absurd (List.find?_eq_none.1 hother group hgroup) (by simp)
    | some other =>
      have hid : other.id = group.id := by simpa using List.find?_some hother
      rw [List.inj_on_of_nodup_map h.nodup_groupIds (List.mem_of_find?_eq_some hother) hgroup hid]
  rw [children, hfind]

end Hierarchy

end ZenoFcis.Contract.Composition
