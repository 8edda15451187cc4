/-
The group tree of a checked composition (`Tree::of` of `zeno-fcis-contract/src/checked_composition/hierarchy.rs`).

Three passes: every child is given its parent, every leaf and every group but the root must have one, and a walk from the
root with an explicit stack lists the groups, children before their parent. The walk marks nothing; that it ends rests on
the passes before it and on ids that no leaf shares with a group, which composition has refused before the tree is built.

Results: `treeOf_exact`. Over distinct ids the tree is accepted exactly when the groups are a tree over every leaf
(`Accepts`), and what is returned is that tree (`TreeOf`); two steps a group are enough.
-/
import ZenoFcis.Contract.Manifest
import ZenoFcis.Lib.Ends
import ZenoFcis.Lib.Postorder

namespace ZenoFcis.Contract.Composition

open Lib Lib.Except Relation

/-- the group that each leaf, by position, and each group is a child of -/
structure Parents where
  leaf : List (Option UInt32)
  group : UInt32 → Option UInt32

structure Tree where
  leafParent : List UInt32
  groupParent : UInt32 → Option UInt32
  /-- the positions of the leaves under each group -/
  subtree : UInt32 → Option (Finset ℕ)
  order : List UInt32
  root : UInt32

def treeRefusal (reason : String) : Refusal := ⟨.hierarchy, .groupTree, "groups", reason⟩

section TreeOf

variable (m : Manifest) (h : Hierarchy)

/-- one child of a group; a leaf is looked up first -/
def adopt (group : UInt32) (parents : Parents) (child : UInt32) : Except Refusal Parents :=
  match m.leafIndex child with
  | some position =>
    if (parents.leaf.getD position none).isSome then
      .error (treeRefusal ("leaf " ++ toString child ++ " is a child of two groups"))
    else .ok { parents with leaf := parents.leaf.set position (some group) }
  | none =>
    if child ∈ h.groupIds then
      if child = h.root then
        .error (treeRefusal ("the root group " ++ toString child ++ " is a child of group " ++ toString group))
      else if (parents.group child).isSome then
        .error (treeRefusal ("group " ++ toString child ++ " is a child of two groups"))
      else .ok { parents with group := Function.update parents.group child (some group) }
    else
      .error (treeRefusal
        ("group " ++ toString group ++ " names child " ++ toString child ++ ", which is neither a leaf nor a group"))

def parentsOf : Except Refusal Parents :=
  h.groups.foldlM (fun parents group => group.children.foldlM (adopt m h group.id) parents)
    ⟨m.leaves.map fun _ => none, fun _ => none⟩

def leafParents (parents : Parents) : Except Refusal (List UInt32) :=
  (m.leaves.zip parents.leaf).mapM fun entry =>
    match entry.2 with
    | some parent => .ok parent
    | none => .error (treeRefusal ("leaf " ++ toString entry.1.id ++ " is in no group"))

/-- the first group but the root without a parent -/
def groupsAdopted (parents : Parents) : Except Refusal Unit :=
  match h.groupIds.find? fun id => id ≠ h.root && (parents.group id).isNone with
  | some id => .error (treeRefusal ("group " ++ toString id ++ " is in no group"))
  | none => .ok ()

/-- the groups among the children of a group -/
def Hierarchy.kids (id : UInt32) : List UInt32 := (h.children id).filter (· ∈ h.groupIds)

/-- the leaves of an expanded group: its own and those of the groups below it -/
def leavesUnder (subtree : UInt32 → Option (Finset ℕ)) (children : List UInt32) : Finset ℕ :=
  children.foldl (fun leaves child =>
    match m.leafIndex child with
    | some position => insert position leaves
    | none =>
      match subtree child with
      | some below => leaves ∪ below
      | none => leaves) ∅

def visitGroup (subtree : UInt32 → Option (Finset ℕ)) (id : UInt32) : UInt32 → Option (Finset ℕ) :=
  Function.update subtree id (some (leavesUnder m subtree (h.children id)))

/-- the walk with its count at the end -/
def walk (fuel : ℕ) (parents : Parents) (leafParent : List UInt32) : Option (Except Refusal (Option Tree)) :=
  (Postorder.run h.kids (visitGroup m h) fuel (Postorder.start h.root fun _ => none)).map fun s =>
    if s.order.length = h.groups.length then .ok (some ⟨leafParent, parents.group, s.acc, s.order, h.root⟩)
    else
      .error (treeRefusal ("groups " ++
        ", ".intercalate ((h.groupIds.filter fun id => (s.acc id).isNone).map toString) ++
        " form a cycle outside the root's tree"))

/-- what the passes before the walk hand to it -/
def adopted : Except Refusal (Parents × List UInt32) := do
  let parents ← parentsOf m h
  let leafParent ← leafParents m parents
  groupsAdopted h parents
  pure (parents, leafParent)

end TreeOf

/-- `Tree::of` within a number of steps of its walk; `none` while it runs -/
def treeOf (fuel : ℕ) (m : Manifest) : Option (Except Refusal (Option Tree)) :=
  match m.hierarchy with
  | none => some (.ok none)
  | some h =>
    match adopted m h with
    | .error refusal => some (.error refusal)
    | .ok (parents, leafParent) => walk m h fuel parents leafParent

/-! ## What a tree is -/

section Specification

variable (m : Manifest) (h : Hierarchy)

/-- every child of every group, in order -/
def Hierarchy.listed : List UInt32 := h.groups.flatMap Group.children

/-- a group among the children of a group -/
def Hierarchy.Child (a b : UInt32) : Prop := b ∈ h.children a ∧ b ∈ h.groupIds

/-- the leaf at a position is reachable from a group -/
def Under (g : UInt32) (position : ℕ) : Prop :=
  ∃ below leaf, ReflTransGen h.Child g below ∧ m.leaves[position]? = some leaf ∧ leaf.id ∈ h.children below

/-- the groups are one tree over every leaf -/
structure Accepts : Prop where
  named : ∀ c ∈ h.listed, c ∈ m.leafIds ∨ c ∈ h.groupIds
  leaf_once : ∀ id ∈ m.leafIds, h.listed.count id = 1
  group_once : ∀ id ∈ h.groupIds, id ≠ h.root → h.listed.count id = 1
  root_free : h.root ∉ h.listed
  reachable : ∀ id ∈ h.groupIds, ReflTransGen h.Child h.root id

/-- every group once and after its children, the root last, and over each group exactly the leaves under it -/
structure TreeOf (t : Tree) : Prop where
  root : t.root = h.root
  order : t.order.Perm h.groupIds
  children_first : ∀ pre g post, t.order = pre ++ g :: post → ∀ c, h.Child g c → c ∈ pre
  root_last : t.order.getLast? = some h.root
  subtree : ∀ g ∈ h.groupIds, ∃ leaves, t.subtree g = some leaves ∧ ∀ p, p ∈ leaves ↔ Under m h g p

end Specification

/-! ## Parents -/

variable {m : Manifest} {h : Hierarchy}

/-- the groups with their children, in order -/
def pairs (groups : List Group) : List (UInt32 × UInt32) :=
  groups.flatMap fun group => group.children.map fun child => (group.id, child)

def parentOf (seen : List (UInt32 × UInt32)) (child : UInt32) : Option UInt32 :=
  (seen.find? fun pair => pair.2 = child).map Prod.fst

theorem parentOf_snoc (seen : List (UInt32 × UInt32)) (g c d : UInt32) :
    parentOf (seen ++ [(g, c)]) d = (parentOf seen d).or (if c = d then some g else none) := by
  rw [parentOf, List.find?_append, Option.map_or]
  by_cases hcd : c = d
  · simp [parentOf, hcd]
  · simp [parentOf, hcd]

variable {seen : List (UInt32 × UInt32)} {c g : UInt32} {parents : Parents} {subtree : UInt32 → Option (Finset ℕ)}

theorem parentOf_eq_none :
    parentOf seen c = none ↔ c ∉ seen.map Prod.snd := by
  rw [parentOf, Option.map_eq_none_iff, List.find?_eq_none]
  constructor
  · intro hnone hc
    obtain ⟨pair, hpair, heq⟩ := List.mem_map.1 hc
    exact hnone pair hpair (by simpa using heq)
  · intro hc pair hpair heq
    exact hc (List.mem_map.2 ⟨pair, hpair, by simpa using heq⟩)

theorem parentOf_isSome :
    (parentOf seen c).isSome = true ↔ c ∈ seen.map Prod.snd := by
  rw [← Option.ne_none_iff_isSome, ne_eq, parentOf_eq_none, not_not]

/-- children listed once each, no unknown id and no root group among them -/
structure Good (m : Manifest) (h : Hierarchy) (seen : List (UInt32 × UInt32)) : Prop where
  nodup : (seen.map Prod.snd).Nodup
  named : ∀ c ∈ seen.map Prod.snd, c ∈ m.leafIds ∨ c ∈ h.groupIds ∧ c ≠ h.root

theorem Good.left {rest : List (UInt32 × UInt32)} (hgood : Good m h (seen ++ rest)) : Good m h seen := by
  refine ⟨?_, ?_⟩
  · have hnodup := hgood.nodup
    rw [List.map_append] at hnodup
    exact hnodup.of_append_left
  · intro c hc
    exact hgood.named c (by rw [List.map_append]; exact List.mem_append_left _ hc)

/-- the parents that a prefix of the children has given -/
structure Adopted (m : Manifest) (h : Hierarchy) (seen : List (UInt32 × UInt32)) (parents : Parents) : Prop where
  good : Good m h seen
  leaf : ∀ (p : ℕ) (leaf : Leaf), m.leaves[p]? = some leaf → parents.leaf[p]? = some (parentOf seen leaf.id)
  length : parents.leaf.length = m.leaves.length
  group : ∀ c, c ∉ m.leafIds → parents.group c = parentOf seen c

theorem good_snoc (hgood : Good m h seen) (g : UInt32)
    (hnew : c ∉ seen.map Prod.snd) (hnamed : c ∈ m.leafIds ∨ c ∈ h.groupIds ∧ c ≠ h.root) :
    Good m h (seen ++ [(g, c)]) := by
  refine ⟨?_, ?_⟩
  · rw [List.map_append, List.map_singleton, List.nodup_append]
    refine ⟨hgood.nodup, List.nodup_singleton c, ?_⟩
    intro d hd e he heq
    rw [List.mem_singleton] at he
    rw [heq, he] at hd
    exact hnew hd
  · intro d hd
    rw [List.map_append, List.map_singleton] at hd
    rcases List.mem_append.1 hd with hd | hd
    · exact hgood.named d hd
    · rw [List.mem_singleton.1 hd]
      exact hnamed

theorem not_good_of_mem (hc : c ∈ seen.map Prod.snd) :
    ¬ Good m h (seen ++ [(g, c)]) := by
  intro hgood
  have hnodup := hgood.nodup
  rw [List.map_append, List.map_singleton, List.nodup_append] at hnodup
  exact hnodup.2.2 c hc c (List.mem_singleton_self c) rfl

theorem Good.last {seen : List (UInt32 × UInt32)} {g c : UInt32} (hgood : Good m h (seen ++ [(g, c)])) :
    c ∈ m.leafIds ∨ c ∈ h.groupIds ∧ c ≠ h.root :=
  hgood.named c (by rw [List.map_append]; exact List.mem_append_right _ (List.mem_singleton_self c))

theorem adopt_spec (hadopted : Adopted m h seen parents)
    (g c : UInt32) :
    Ends (Adopted m h (seen ++ [(g, c)])) (fun _ => ¬ Good m h (seen ++ [(g, c)])) (adopt m h g parents c) := by
  unfold adopt
  cases hindex : m.leafIndex c with
  | some p =>
    obtain ⟨leaf, hleaf, rfl⟩ := m.leafIndex_eq_some.1 hindex
    have hparent := hadopted.leaf p leaf hleaf
    have hmem : leaf.id ∈ m.leafIds := List.mem_map.2 ⟨leaf, List.mem_of_getElem? hleaf, rfl⟩
    simp only [List.getD_eq_getElem?_getD, hparent, Option.getD_some]
    split_ifs with hsome
    · exact not_good_of_mem (parentOf_isSome.1 hsome)
    · rw [parentOf_isSome] at hsome
      refine ⟨good_snoc hadopted.good g hsome (Or.inl hmem), ?_, by simpa using hadopted.length, ?_⟩
      · intro q other hother
        rw [parentOf_snoc]
        by_cases hqp : p = q
        · subst hqp
          obtain rfl := Option.some.inj (hleaf.symm.trans hother)
          have hlt : p < parents.leaf.length := (List.getElem?_eq_some_iff.1 hparent).1
          rw [List.getElem?_set_self hlt, parentOf_eq_none.2 hsome, if_pos rfl, Option.none_or]
        · have hne : leaf.id ≠ other.id := by
            intro heq
            have hother' := m.leafIndex_eq_some.2 ⟨other, hother, heq.symm⟩
            exact hqp (Option.some.inj (hindex.symm.trans hother'))
          rw [List.getElem?_set_ne hqp, if_neg hne, Option.or_none]
          exact hadopted.leaf q other hother
      · intro d hd
        have hne : leaf.id ≠ d := fun heq => hd (heq ▸ hmem)
        rw [parentOf_snoc, if_neg hne, Option.or_none]
        exact hadopted.group d hd
  | none =>
    have hleaf := m.leafIndex_eq_none.1 hindex
    have hparent := hadopted.group c hleaf
    simp only [hparent]
    split_ifs with hgroup hroot hsome
    · intro hgood
      rcases hgood.last with hlast | hlast
      · exact hleaf hlast
      · exact hlast.2 hroot
    · exact not_good_of_mem (parentOf_isSome.1 hsome)
    · rw [parentOf_isSome] at hsome
      refine ⟨good_snoc hadopted.good g hsome (Or.inr ⟨hgroup, hroot⟩), ?_, hadopted.length, ?_⟩
      · intro q other hother
        have hne : c ≠ other.id := by
          intro heq
          exact hleaf (heq ▸ List.mem_map.2 ⟨other, List.mem_of_getElem? hother, rfl⟩)
        rw [parentOf_snoc, if_neg hne, Option.or_none]
        exact hadopted.leaf q other hother
      · intro d hd
        dsimp only
        rw [parentOf_snoc]
        by_cases hcd : c = d
        · subst hcd
          rw [Function.update_self, parentOf_eq_none.2 hsome, if_pos rfl, Option.none_or]
        · rw [Function.update_of_ne (Ne.symm hcd), if_neg hcd, Option.or_none]
          exact hadopted.group d hd
    · intro hgood
      rcases hgood.last with hlast | hlast
      · exact hleaf hlast
      · exact hgroup hlast.1

theorem adopted_start : Adopted m h [] ⟨m.leaves.map fun _ => none, fun _ => none⟩ := by
  refine ⟨⟨List.nodup_nil, nofun⟩, ?_, List.length_map _, fun c _ => rfl⟩
  intro p leaf hleaf
  rw [List.getElem?_map, hleaf]
  rfl

theorem adopt_children (hadopted : Adopted m h seen parents)
    (g : UInt32) (children : List UInt32) :
    Ends (Adopted m h (seen ++ children.map fun child => (g, child)))
      (fun _ => ¬ Good m h (seen ++ children.map fun child => (g, child))) (children.foldlM (adopt m h g) parents) := by
  apply Ends.foldlM fun done => Adopted m h (seen ++ done.map fun child => (g, child))
  · intro done c rest parents hsplit hdone
    refine (adopt_spec hdone g c).mono ?_ ?_
    · intro parents hparents
      rwa [List.append_assoc, ← List.map_singleton (f := fun child => (g, child)), ← List.map_append] at hparents
    · intro _ hbad hgood
      rw [hsplit, List.map_append, List.map_cons, ← List.singleton_append, ← List.append_assoc,
        ← List.append_assoc] at hgood
      exact hbad (by simpa using hgood.left)
  · simpa using hadopted

theorem parentsOf_spec :
    Ends (Adopted m h (pairs h.groups)) (fun _ => ¬ Good m h (pairs h.groups)) (parentsOf m h) := by
  apply Ends.foldlM fun done => Adopted m h (pairs done)
  · intro done g rest parents hsplit hdone
    refine (adopt_children hdone g.id g.children).mono ?_ ?_
    · intro parents hparents
      simpa [pairs] using hparents
    · intro _ hbad hgood
      rw [hsplit, pairs, List.flatMap_append, List.flatMap_cons, ← List.append_assoc] at hgood
      exact hbad hgood.left
  · exact adopted_start

/-! ## The passes before the walk -/

theorem zip_parents (hadopted : Adopted m h seen parents) :
    m.leaves.zip parents.leaf = m.leaves.map fun leaf => (leaf, parentOf seen leaf.id) := by
  apply List.ext_getElem?
  intro p
  rw [List.getElem?_map]
  cases hleaf : m.leaves[p]? with
  | none =>
    rw [Option.map_none, List.getElem?_eq_none]
    rw [List.length_zip]
    exact (min_le_left _ _).trans (List.getElem?_eq_none_iff.1 hleaf)
  | some leaf =>
    exact List.getElem?_zip_eq_some.2 ⟨hleaf, hadopted.leaf p leaf hleaf⟩

theorem leafParents_spec (hadopted : Adopted m h seen parents) :
    Ends (List.Forall₂ (fun leaf parent => parentOf seen leaf.id = some parent) m.leaves)
      (fun _ => ∃ id ∈ m.leafIds, id ∉ seen.map Prod.snd) (leafParents m parents) := by
  rw [leafParents, zip_parents hadopted, List.mapM_map]
  apply Ends.mapM
  intro leaf hleaf
  simp only [Function.comp_apply]
  cases hparent : parentOf seen leaf.id with
  | some parent => rfl
  | none => exact ⟨leaf.id, List.mem_map.2 ⟨leaf, hleaf, rfl⟩, parentOf_eq_none.1 hparent⟩

theorem groupsAdopted_spec (hadopted : Adopted m h seen parents)
    (hdistinct : ∀ id ∈ h.groupIds, id ∉ m.leafIds) :
    Ends (fun _ => ∀ id ∈ h.groupIds, id ≠ h.root → id ∈ seen.map Prod.snd)
      (fun _ => ∃ id ∈ h.groupIds, id ≠ h.root ∧ id ∉ seen.map Prod.snd) (groupsAdopted h parents) := by
  unfold groupsAdopted
  cases hfind : h.groupIds.find? fun id => id ≠ h.root && (parents.group id).isNone with
  | none =>
    intro id hid hroot
    have hparent := List.find?_eq_none.1 hfind id hid
    rw [hadopted.group id (hdistinct id hid)] at hparent
    by_contra hmissing
    exact hparent (by simp [hroot, parentOf_eq_none.2 hmissing])
  | some id =>
    have hid := List.mem_of_find?_eq_some hfind
    have hparent := List.find?_some hfind
    rw [hadopted.group id (hdistinct id hid)] at hparent
    simp only [ne_eq, decide_not, Bool.and_eq_true, Bool.not_eq_eq_eq_not, Bool.not_true, decide_eq_false_iff_not,
      Option.isNone_iff_eq_none, parentOf_eq_none] at hparent
    exact ⟨id, hid, hparent⟩

/-- the children are good and nothing but the root is left over -/
structure Adoptable (m : Manifest) (h : Hierarchy) : Prop where
  good : Good m h (pairs h.groups)
  leaves : ∀ id ∈ m.leafIds, id ∈ h.listed
  groups : ∀ id ∈ h.groupIds, id ≠ h.root → id ∈ h.listed

theorem map_snd_pairs (h : Hierarchy) : (pairs h.groups).map Prod.snd = h.listed := by
  rw [pairs, Hierarchy.listed, List.map_flatMap]
  congr 1
  funext group
  rw [List.map_map]
  exact List.map_id' _

theorem adopted_spec (hdistinct : ∀ id ∈ h.groupIds, id ∉ m.leafIds) :
    Ends (fun _ => Adoptable m h) (fun _ => ¬ Adoptable m h) (adopted m h) := by
  unfold adopted
  refine (parentsOf_spec.mono (fun _ hparents => hparents) fun _ hbad hadoptable => hbad hadoptable.good).bind ?_
  intro parents hparents
  have hleaf := leafParents_spec hparents
  have hgroup := groupsAdopted_spec hparents hdistinct
  rw [map_snd_pairs] at hleaf hgroup
  refine (hleaf.mono (fun _ hleaf => hleaf) ?_).bind ?_
  · intro _ ⟨id, hid, hmissing⟩ hadoptable
    exact hmissing (hadoptable.leaves id hid)
  intro leafParent hleafParent
  refine (hgroup.mono (fun _ hgroup => hgroup) ?_).bind ?_
  · intro _ ⟨id, hid, hroot, hmissing⟩ hadoptable
    exact hmissing (hadoptable.groups id hid hroot)
  intro _ hgroups
  refine ⟨hparents.good, ?_, hgroups⟩
  have hlisted : ∀ (leaf : Leaf) parent, parentOf (pairs h.groups) leaf.id = some parent →
      leaf.id ∈ h.listed ∧ parentOf (pairs h.groups) leaf.id = some parent := by
    intro leaf parent hparent
    refine ⟨?_, hparent⟩
    rw [← map_snd_pairs]
    exact parentOf_isSome.1 (by rw [hparent]; rfl)
  intro id hid
  obtain ⟨leaf, hleaf, rfl⟩ := List.mem_map.1 hid
  exact ((List.forall₂_and_left _ _).1 (hleafParent.imp hlisted)).1 leaf hleaf

/-! ## The walk -/

theorem mem_listed : c ∈ h.listed ↔ ∃ a ∈ h.groupIds, c ∈ h.children a := by
  rw [Hierarchy.listed, List.mem_flatMap]
  constructor
  · intro ⟨group, hgroup, hc⟩
    exact ⟨group.id, List.mem_map.2 ⟨group, hgroup, rfl⟩, by rwa [h.children_eq hgroup]⟩
  · intro ⟨a, ha, hc⟩
    obtain ⟨group, hgroup, rfl⟩ := List.mem_map.1 ha
    exact ⟨group, hgroup, by rwa [h.children_eq hgroup] at hc⟩

theorem children_listed {a : UInt32} (hc : c ∈ h.children a) : c ∈ h.listed := by
  unfold Hierarchy.children at hc
  cases hfind : h.groups.find? fun group => group.id = a with
  | none =>
    rw [hfind] at hc
    cases hc
  | some group =>
    rw [hfind] at hc
    exact List.mem_flatMap.2 ⟨group, List.mem_of_find?_eq_some hfind, hc⟩

theorem child_eq : Postorder.Child h.kids = h.Child := by
  funext a b
  rw [Postorder.Child, Hierarchy.kids, List.mem_filter, decide_eq_true_eq, Hierarchy.Child]

theorem Good.forest (hgood : Good m h (pairs h.groups)) (hdistinct : ∀ id ∈ h.groupIds, id ∉ m.leafIds) :
    Postorder.Forest h.kids h.groupIds h.root := by
  have hnodup := hgood.nodup
  have hnamed := hgood.named
  rw [map_snd_pairs] at hnodup hnamed
  obtain ⟨hlists, hpairwise⟩ := List.nodup_flatMap.1 hnodup
  have hchildren : ∀ a ∈ h.groupIds, (h.children a).Nodup := by
    intro a ha
    obtain ⟨group, hgroup, rfl⟩ := List.mem_map.1 ha
    rw [h.children_eq hgroup]
    exact hlists group hgroup
  have hkid : ∀ {a k}, k ∈ h.kids a → k ∈ h.children a := fun hk => (List.mem_filter.1 hk).1
  refine ⟨h.root_listed, ?_, ?_, ?_, ?_⟩
  · intro a _ k hk
    simpa using (List.mem_filter.1 hk).2
  · intro a ha
    exact (hchildren a ha).filter _
  · intro a ha b hb k hka hkb
    obtain ⟨ga, hga, rfl⟩ := List.mem_map.1 ha
    obtain ⟨gb, hgb, rfl⟩ := List.mem_map.1 hb
    have hka' := hkid hka
    have hkb' := hkid hkb
    rw [h.children_eq hga] at hka'
    rw [h.children_eq hgb] at hkb'
    -- two groups share no child
    by_contra hne
    have hsymm : Std.Symm (Function.onFun List.Disjoint Group.children) := ⟨fun _ _ hxy => hxy.symm⟩
    exact hpairwise.forall hga hgb (fun heq => hne (congrArg Group.id heq)) hka' hkb'
  · intro a ha hroot
    have hlisted := mem_listed.2 ⟨a, ha, hkid hroot⟩
    rcases hnamed h.root hlisted with hleaf | hgroup
    · exact hdistinct h.root h.root_listed hleaf
    · exact hgroup.2 rfl

theorem mem_leavesUnder {children : List UInt32} {p : ℕ} :
    p ∈ leavesUnder m subtree children ↔ ∃ c ∈ children, m.leafIndex c = some p ∨
      m.leafIndex c = none ∧ ∃ below, subtree c = some below ∧ p ∈ below := by
  have hfold : ∀ leaves : Finset ℕ, p ∈ children.foldl (fun leaves child =>
      match m.leafIndex child with
      | some position => insert position leaves
      | none =>
        match subtree child with
        | some below => leaves ∪ below
        | none => leaves) leaves ↔ p ∈ leaves ∨ ∃ c ∈ children, m.leafIndex c = some p ∨
          m.leafIndex c = none ∧ ∃ below, subtree c = some below ∧ p ∈ below := by
    induction children with
    | nil => simp
    | cons c children ih =>
      intro leaves
      rw [List.foldl_cons, ih, List.exists_mem_cons_iff, ← or_assoc]
      apply or_congr_left
      cases hindex : m.leafIndex c with
      | some position =>
        simp only [Finset.mem_insert, Option.some.injEq, reduceCtorEq, false_and, or_false]
        rw [or_comm, eq_comm]
      | none =>
        cases hbelow : subtree c with
        | none => simp
        | some below => simp [Finset.mem_union]
  rw [leavesUnder, hfold ∅]
  simp

theorem under_iff {p : ℕ} : Under m h g p ↔
    (∃ c ∈ h.children g, m.leafIndex c = some p) ∨ ∃ k, h.Child g k ∧ Under m h k p := by
  constructor
  · intro ⟨below, leaf, hreach, hleaf, hmem⟩
    rcases hreach.cases_head with rfl | ⟨k, hchild, hreach⟩
    · exact Or.inl ⟨leaf.id, hmem, m.leafIndex_eq_some.2 ⟨leaf, hleaf, rfl⟩⟩
    · exact Or.inr ⟨k, hchild, below, leaf, hreach, hleaf, hmem⟩
  · intro hunder
    rcases hunder with ⟨c, hc, hindex⟩ | ⟨k, hchild, below, leaf, hreach, hleaf, hmem⟩
    · obtain ⟨leaf, hleaf, rfl⟩ := m.leafIndex_eq_some.1 hindex
      exact ⟨g, leaf, .refl, hleaf, hc⟩
    · exact ⟨below, leaf, .head hchild hreach, hleaf, hmem⟩

/-- after a prefix of the order the table has exactly the leaves under each of its groups -/
def Collected (m : Manifest) (h : Hierarchy) (done : List UInt32) (subtree : UInt32 → Option (Finset ℕ)) : Prop :=
  ∀ g ∈ done, ∃ leaves, subtree g = some leaves ∧ ∀ p, p ∈ leaves ↔ Under m h g p

theorem collected_visit (hdistinct : ∀ id ∈ h.groupIds, id ∉ m.leafIds)
    (hnamed : ∀ c ∈ h.listed, c ∈ m.leafIds ∨ c ∈ h.groupIds) {done : List UInt32}
    (hkids : ∀ k ∈ h.kids g, k ∈ done) (hnew : g ∉ done)
    (hdone : Collected m h done subtree) : Collected m h (done ++ [g]) (visitGroup m h subtree g) := by
  intro a ha
  rcases List.mem_append.1 ha with ha | ha
  · have hne : a ≠ g := fun heq => hnew (heq ▸ ha)
    rw [visitGroup, Function.update_of_ne hne]
    exact hdone a ha
  · rw [List.mem_singleton.1 ha]
    refine ⟨_, Function.update_self _ _ _, fun p => ?_⟩
    rw [mem_leavesUnder, under_iff]
    constructor
    · intro ⟨c, hc, hcase⟩
      rcases hcase with hindex | ⟨hindex, below, hbelow, hp⟩
      · exact Or.inl ⟨c, hc, hindex⟩
      · have hgroup : c ∈ h.groupIds :=
          (hnamed c (children_listed hc)).resolve_left (m.leafIndex_eq_none.1 hindex)
        have hchild : h.Child g c := ⟨hc, hgroup⟩
        obtain ⟨leaves, hleaves, hunder⟩ := hdone c (hkids c (List.mem_filter.2 ⟨hc, by simpa using hgroup⟩))
        rw [hleaves] at hbelow
        cases hbelow
        exact Or.inr ⟨c, hchild, (hunder p).1 hp⟩
    · intro hcase
      rcases hcase with ⟨c, hc, hindex⟩ | ⟨k, hchild, hunder⟩
      · exact ⟨c, hc, Or.inl hindex⟩
      · obtain ⟨leaves, hleaves, hmem⟩ := hdone k (hkids k (List.mem_filter.2 ⟨hchild.1, by simpa using hchild.2⟩))
        exact ⟨k, hchild.1, Or.inr ⟨m.leafIndex_eq_none.2 (hdistinct k hchild.2), leaves, hleaves, (hmem p).2 hunder⟩⟩

theorem accepts_adoptable (haccepts : Accepts m h) : Adoptable m h := by
  have hcount : ∀ c ∈ h.listed, h.listed.count c = 1 := by
    intro c hc
    rcases haccepts.named c hc with hleaf | hgroup
    · exact haccepts.leaf_once c hleaf
    · exact haccepts.group_once c hgroup fun hroot => haccepts.root_free (hroot ▸ hc)
  have hmem : ∀ id, h.listed.count id = 1 → id ∈ h.listed := by
    intro id hone
    exact List.count_pos_iff.1 (by omega)
  refine ⟨⟨?_, ?_⟩, fun id hid => hmem id (haccepts.leaf_once id hid),
    fun id hid hroot => hmem id (haccepts.group_once id hid hroot)⟩
  · rw [map_snd_pairs, List.nodup_iff_count_le_one]
    intro c
    by_cases hc : c ∈ h.listed
    · exact (hcount c hc).le
    · rw [List.count_eq_zero_of_not_mem hc]
      exact Nat.zero_le 1
  · intro c hc
    rw [map_snd_pairs] at hc
    exact (haccepts.named c hc).imp_right fun hgroup => ⟨hgroup, fun hroot => haccepts.root_free (hroot ▸ hc)⟩

theorem Adoptable.accepts (hadoptable : Adoptable m h) (hdistinct : ∀ id ∈ h.groupIds, id ∉ m.leafIds)
    (hreachable : ∀ id ∈ h.groupIds, ReflTransGen h.Child h.root id) : Accepts m h := by
  have hnodup := hadoptable.good.nodup
  have hnamed := hadoptable.good.named
  rw [map_snd_pairs] at hnodup hnamed
  refine ⟨fun c hc => (hnamed c hc).imp_right And.left, ?_, ?_, ?_, hreachable⟩
  · intro id hid
    exact List.count_eq_one_of_mem hnodup (hadoptable.leaves id hid)
  · intro id hid hroot
    exact List.count_eq_one_of_mem hnodup (hadoptable.groups id hid hroot)
  · intro hroot
    rcases hnamed h.root hroot with hleaf | hgroup
    · exact hdistinct h.root h.root_listed hleaf
    · exact hgroup.2 rfl

section Finished

variable {s : Postorder.State UInt32 (UInt32 → Option (Finset ℕ))} {init : UInt32 → Option (Finset ℕ)}

section

variable (hfinished : Postorder.Finished h.kids (visitGroup m h) h.root init s)

include hfinished

/-- the order lists what is reached from the root -/
theorem mem_order {id : UInt32} : id ∈ s.order ↔ ReflTransGen h.Child h.root id := by
  rw [hfinished.mem, child_eq]

theorem order_groups : ∀ id ∈ s.order, id ∈ h.groupIds := by
  intro id hid
  rcases ((mem_order hfinished).1 hid).cases_tail with heq | ⟨_, _, hchild⟩
  · rw [heq]
    exact h.root_listed
  · exact hchild.2

/-- the walk lists the reachable groups, so it lists as many as there are exactly when all of them are reachable -/
theorem all_listed_iff : s.order.length = h.groups.length ↔ ∀ id ∈ h.groupIds, ReflTransGen h.Child h.root id := by
  have hsubperm := hfinished.nodup.subperm (order_groups hfinished)
  have hlength : h.groups.length = h.groupIds.length := (List.length_map _).symm
  simp only [← mem_order hfinished, hlength]
  constructor
  · intro heq id hid
    exact (hsubperm.perm_of_length_le heq.ge).mem_iff.2 hid
  · intro hall
    exact hsubperm.length_le.antisymm (h.nodup_groupIds.subperm hall).length_le

end

end Finished

theorem walk_spec (hdistinct : ∀ id ∈ h.groupIds, id ∉ m.leafIds) (hadoptable : Adoptable m h) (parents : Parents)
    (leafParent : List UInt32) {fuel : ℕ} (hfuel : 2 * h.groups.length ≤ fuel) :
    ∃ r, walk m h fuel parents leafParent = some r ∧
      Ends (fun t => Accepts m h ∧ ∃ tree, t = some tree ∧ TreeOf m h tree) (fun _ => ¬ Accepts m h) r := by
  have hlength : h.groupIds.length = h.groups.length := List.length_map _
  obtain ⟨s, hrun, hfinished⟩ := (hadoptable.good.forest hdistinct).run_ends (visitGroup m h) (fun _ => none)
    (n := fuel) (by omega)
  have hall := all_listed_iff hfinished
  refine ⟨_, by rw [walk, hrun, Option.map_some], ?_⟩
  split_ifs with hcount
  · have haccepts := hadoptable.accepts hdistinct (hall.1 hcount)
    refine ⟨haccepts, _, rfl, rfl, ?_, ?_, hfinished.last, ?_⟩
    · apply (List.perm_ext_iff_of_nodup hfinished.nodup h.nodup_groupIds).2
      intro id
      exact ⟨order_groups hfinished id, fun hid => (mem_order hfinished).2 (hall.1 hcount id hid)⟩
    · intro pre g post horder c hchild
      exact hfinished.closed pre g post horder c (List.mem_filter.2 ⟨hchild.1, by simpa using hchild.2⟩)
    · intro g hg
      have hcollected : Collected m h s.order s.acc := by
        rw [hfinished.acc]
        apply Postorder.fold_induction nofun _ hfinished.nodup hfinished.closed
        intro pre a acc hkids hnew hpre
        exact collected_visit hdistinct haccepts.named hkids hnew hpre
      exact hcollected g ((mem_order hfinished).2 (hall.1 hcount g hg))
  · intro haccepts
    exact hcount (hall.2 haccepts.reachable)

/-- **The group tree.** Over ids that no leaf shares with a group the tree is built within two steps a group: it is
accepted exactly when the groups are one tree over every leaf, and it is that tree. -/
theorem treeOf_exact (m : Manifest) (h : Hierarchy) (hm : m.hierarchy = some h)
    (hdistinct : ∀ id ∈ h.groupIds, id ∉ m.leafIds) (fuel : ℕ) (hfuel : 2 * h.groups.length ≤ fuel) :
    ∃ r, treeOf fuel m = some r ∧ ((∃ t, r = .ok t) ↔ Accepts m h) ∧
      ∀ t, r = .ok t → ∃ tree, t = some tree ∧ TreeOf m h tree := by
  have hends : ∃ r, treeOf fuel m = some r ∧
      Ends (fun t => Accepts m h ∧ ∃ tree, t = some tree ∧ TreeOf m h tree) (fun _ => ¬ Accepts m h) r := by
    have hadopted := adopted_spec hdistinct
    rw [treeOf, hm]
    simp only
    cases hresult : adopted m h with
    | error refusal =>
      rw [hresult] at hadopted
      exact ⟨_, rfl, fun haccepts => hadopted (accepts_adoptable haccepts)⟩
    | ok out =>
      rw [hresult] at hadopted
      exact walk_spec hdistinct hadopted out.1 out.2 hfuel
  obtain ⟨r, hr, hends⟩ := hends
  refine ⟨r, hr, ?_, ?_⟩
  · cases r with
    | ok t => exact iff_of_true ⟨t, rfl⟩ hends.1
    | error refusal => exact iff_of_false (by simp) hends
  · intro t ht
    rw [ht] at hends
    exact hends.2

def sampleLeaf (id : UInt32) : Leaf := ⟨id, "leaf", .zero, [], [], "true", [], []⟩

def sampleGroup (id : UInt32) (children : List UInt32) : Group := ⟨id, "group", children, [], [], [], []⟩

/-- a group of two under the root -/
def nestedHierarchy : Hierarchy := ⟨[sampleGroup 4 [1, 5], sampleGroup 5 [2, 3]], 4, by decide, by decide⟩

def nestedManifest : Manifest := ⟨[sampleLeaf 1, sampleLeaf 2, sampleLeaf 3], [], some nestedHierarchy, by decide⟩

theorem nested_tree : ∃ r, treeOf 4 nestedManifest = some r ∧ ((∃ t, r = .ok t) ↔ Accepts nestedManifest nestedHierarchy) ∧
    ∀ t, r = .ok t → ∃ tree, t = some tree ∧ TreeOf nestedManifest nestedHierarchy tree :=
  treeOf_exact nestedManifest nestedHierarchy rfl
    (by simp [nestedHierarchy, nestedManifest, Hierarchy.groupIds, Manifest.leafIds, sampleGroup, sampleLeaf]) 4
    (by decide)

/-- the root group shares its id with the leaf that it lists -/
def sharedHierarchy : Hierarchy := ⟨[sampleGroup 1 [1]], 1, by decide, by decide⟩

def sharedManifest : Manifest := ⟨[sampleLeaf 1], [], some sharedHierarchy, by decide⟩

theorem run_shared (fuel : ℕ) (rest : List (UInt32 × Bool)) (order : List UInt32)
    (subtree : UInt32 → Option (Finset ℕ)) :
    Postorder.run sharedHierarchy.kids (visitGroup sharedManifest sharedHierarchy) fuel
      ⟨(1, false) :: rest, order, subtree⟩ =
      none := by
  induction fuel generalizing rest with
  | zero => rfl
  | succ fuel ih => exact ih ((1, true) :: rest)

/-- the child is adopted as the leaf, and the walk pushes it as the group again and again -/
theorem shared_never_ends : ¬ ∃ fuel, treeOf fuel sharedManifest ≠ none := by
  rintro ⟨fuel, hends⟩
  refine hends ?_
  change Option.map _ _ = _
  rw [Option.map_eq_none_iff]
  exact run_shared fuel [] [] _

end ZenoFcis.Contract.Composition
