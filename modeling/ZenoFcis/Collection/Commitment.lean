/-
Keyed collections and the trie they commit to.

Model: a collection is a finite map in key order (`KeyedMap`). What a reader finds at a prefix (`KeyedMap.summary`) and
the node rows of a map (`nodeTable`) are defined by the code's own `rebuild`.

Results: the code's `combine` makes a `BitTrie` (`trie`); `rebuild` computes its digests (`rebuildRoom_eq`), and the
summaries and rows of a map are the trie's (`summary_eq`, `nodeTable_eq`).
-/
import ZenoFcis.Collection.Key

namespace ZenoFcis.CollectionMerkle

open Lib

/-! ## Keyed maps -/

/-- a finite map from keys to records, listed in key order -/
structure KeyedMap where
  entries : List (Key × Bytes)
  sorted : entries.Pairwise fun x y => before x.1 y.1 = true

theorem before_irrefl (a : Key) : before a a = false := by
  rw [Bool.eq_false_iff, ne_eq, before_iff]
  exact Nat.lt_irrefl _

theorem before_trans {a b c : Key} (hab : before a b = true) (hbc : before b c = true) : before a c = true := by
  rw [before_iff] at *
  exact lt_trans hab hbc

theorem before_asymm {a b : Key} (hab : before a b = true) : before b a = false := by
  rw [Bool.eq_false_iff, ne_eq, before_iff]
  rw [before_iff] at hab
  omega

/-- no key stands before itself -/
theorem before_ne {a b : Key} (hab : before a b = true) : a ≠ b := by
  intro h
  rw [h, before_irrefl] at hab
  cases hab

/-- two keys are ordered one way or the other -/
theorem before_total {a b : Key} (h : a ≠ b) : before a b = true ∨ before b a = true := by
  rw [before_iff, before_iff]
  exact Nat.lt_or_gt_of_ne fun he => h (Key.value_inj he)

/-- strictly in key order -/
def Ordered {α : Type} (l : List (Key × α)) : Prop := l.Pairwise fun x y => before x.1 y.1 = true

/-- ordered entries have distinct keys -/
theorem Ordered.nodup_keys {α : Type} {l : List (Key × α)} (h : Ordered l) : (l.map Prod.fst).Nodup :=
  List.pairwise_map.2 (h.imp fun hxy => before_ne hxy)

/-- ordered lists with the same entries are equal -/
theorem Ordered.ext {α : Type} {l l' : List (Key × α)} (h : Ordered l) (h' : Ordered l') (hmem : ∀ x, x ∈ l ↔ x ∈ l') :
    l = l' := by
  have hperm : l.Perm l' :=
    (List.perm_ext_iff_of_nodup (List.Nodup.of_map _ h.nodup_keys) (List.Nodup.of_map _ h'.nodup_keys)).2 hmem
  refine hperm.eq_of_pairwise (fun x y _ _ hxy hyx => ?_) h h'
  rw [before_asymm hxy] at hyx
  cases hyx

namespace KeyedMap

variable (m : KeyedMap) (key : Key) (record : Option Bytes)

/-- an insert, an overwrite or (with no record) a removal -/
def update : KeyedMap where
  entries := m.entries.filter (fun x => before x.1 key) ++
    (record.toList.map (fun r => (key, r)) ++ m.entries.filter fun x => before key x.1)
  sorted := by
    have hmid : ∀ x ∈ record.toList.map (fun r => (key, r)), x.1 = key := by
      intro x hx
      obtain ⟨r, _, rfl⟩ := List.mem_map.1 hx
      rfl
    rw [List.pairwise_append, List.pairwise_append]
    refine ⟨m.sorted.filter _, ⟨?_, m.sorted.filter _, ?_⟩, ?_⟩
    · cases record <;> simp
    · intro x hx y hy
      rw [hmid x hx]
      simpa using (List.mem_filter.1 hy).2
    · intro x hx y hy
      have hxk : before x.1 key = true := by simpa using (List.mem_filter.1 hx).2
      rcases List.mem_append.1 hy with hy | hy
      · rw [hmid y hy]
        exact hxk
      · exact before_trans hxk (by simpa using (List.mem_filter.1 hy).2)

/-- an update holds the new record under its key, and what was there under all others -/
theorem mem_update {x : Key × Bytes} : x ∈ (m.update key record).entries ↔
    (x.1 = key ∧ record = some x.2) ∨ (x.1 ≠ key ∧ x ∈ m.entries) := by
  obtain ⟨k, r⟩ := x
  simp only [update, List.mem_append, List.mem_filter, List.mem_map, Option.mem_toList, Prod.mk.injEq]
  constructor
  · rintro (⟨hx, hlt⟩ | ⟨r', hr, rfl, rfl⟩ | ⟨hx, hlt⟩)
    · exact .inr ⟨before_ne hlt, hx⟩
    · exact .inl ⟨rfl, hr⟩
    · exact .inr ⟨(before_ne hlt).symm, hx⟩
  · rintro (⟨rfl, hr⟩ | ⟨hne, hx⟩)
    · exact .inr (.inl ⟨r, hr, rfl, rfl⟩)
    · rcases before_total hne with hlt | hlt
      · exact .inl ⟨hx, hlt⟩
      · exact .inr (.inr ⟨hx, hlt⟩)

/-- away from `key` an update changes nothing -/
theorem filter_update (p : Key × Bytes → Bool) (hp : ∀ r, p (key, r) = false) :
    (m.update key record).entries.filter p = m.entries.filter p := by
  refine Ordered.ext ((m.update key record).sorted.filter p) (m.sorted.filter p) fun x => ?_
  rw [List.mem_filter, List.mem_filter, mem_update]
  constructor
  · rintro ⟨⟨hkey, _⟩ | ⟨_, hx⟩, hpx⟩
    · obtain ⟨k, r⟩ := x
      obtain rfl : k = key := hkey
      rw [hp r] at hpx
      cases hpx
    · exact ⟨hx, hpx⟩
  · rintro ⟨hx, hpx⟩
    refine ⟨.inr ⟨fun hkey => ?_, hx⟩, hpx⟩
    obtain ⟨k, r⟩ := x
    obtain rfl : k = key := hkey
    rw [hp r] at hpx
    cases hpx

end KeyedMap

/-! ## The trie of a collection -/

section Trie

variable (hash : List Bytes → Digest)

/-- the leaf commitments of a map, in key order -/
def KeyedMap.leaves (m : KeyedMap) : List (Key × Digest) := m.entries.map fun x => (x.1, leafHash hash x.1 x.2)

def Subtree.count : Subtree → ℕ
  | .empty => 0
  | .leaf _ => 1
  | .branch _ => 2

/-- the collapsing fold of the source as a binary trie -/
def trie : BitTrie Key Digest Subtree where
  width := keyBits
  bit := bitSet
  empty := .empty
  leaf := .leaf
  combine := combine hash
  count := Subtree.count
  bit_ext _ _ := bitSet_ext
  combine_empty := rfl
  combine_leaf_empty _ := rfl
  combine_empty_leaf _ := rfl
  count_empty := rfl
  count_leaf _ := rfl
  count_combine x y := by cases x <;> cases y <;> rfl

/-- the smaller of two keys goes left where they first differ -/
theorem before_trie {a b : Key} (h : before a b = true) :
    ∃ e, (trie hash).Agree e a b ∧ (trie hash).bit a e = false ∧ (trie hash).bit b e = true := by
  obtain ⟨e, _, hsame, ha, hb⟩ := before_bits h
  exact ⟨e, hsame, ha, hb⟩

variable {hash}

theorem combine_branch {x y : Subtree} (h : 2 ≤ x.count + y.count) :
    combine hash x y = .branch (nodeHash hash (x.digest hash) (y.digest hash)) := by
  cases x <;> cases y <;> simp [Subtree.count] at h <;> rfl

theorem Subtree.branch_of_count {x : Subtree} (h : x.count = 2) : x = .branch (x.digest hash) := by
  cases x with
  | empty => cases h
  | leaf h => cases h
  | branch h => rfl

theorem Subtree.row_of_count {x : Subtree} (h : x.count < 2) : x.row = none := by
  cases x with
  | empty => rfl
  | leaf h => rfl
  | branch h => simp [Subtree.count] at h

variable {leaves : List (Key × Digest)} {room d : ℕ}

/-- the partition at a bit splits the leaves of a subtree into its two sides -/
theorem partitionPoint_split (hord : Ordered leaves) (h : (trie hash).Together d leaves) :
    leaves.take (partitionPoint leaves fun x => bit x.1 d = 0) = (trie hash).side false d leaves ∧
      leaves.drop (partitionPoint leaves fun x => bit x.1 d = 0) = (trie hash).side true d leaves := by
  have hpred : (fun x : Key × Digest => decide (bit x.1 d = 0)) = fun x => !(trie hash).bit x.1 d := by
    funext x
    rw [Bool.eq_iff_iff]
    simp [trie, bit_eq_zero]
  obtain ⟨htake, hdrop⟩ := BitTrie.takeWhile_side (fun a b => before_trie hash) hord h
  have hsplit := leaves.takeWhile_append_dropWhile (p := fun x => !(trie hash).bit x.1 d)
  rw [partitionPoint, hpred, ← htake, ← hdrop]
  constructor
  · nth_rewrite 2 [← hsplit]
    exact List.take_left
  · nth_rewrite 2 [← hsplit]
    exact List.drop_left

/-- `rebuild` computes the digest of the trie's summary -/
theorem rebuildRoom_eq (hroom : room + d = keyBits) (hord : Ordered leaves) (h : (trie hash).Together d leaves) :
    rebuildRoom hash room d leaves = some (((trie hash).fold room d leaves).digest hash) := by
  induction room generalizing d leaves with
  | zero =>
    match leaves, hord, h with
    | [], _, _ => rfl
    | [x], _, _ => rfl
    | x :: y :: rest, hord, h =>
      have hxy : x.1 = y.1 :=
        bitSet_ext fun i hi => h x List.mem_cons_self y (List.mem_cons_of_mem _ List.mem_cons_self) i (by omega)
      exact absurd hxy (before_ne (List.rel_of_pairwise_cons hord List.mem_cons_self))
  | succ room ih =>
    match leaves, hord, h with
    | [], _, _ => rw [BitTrie.fold_nil]; rfl
    | [x], _, _ => rw [BitTrie.fold_singleton]; rfl
    | x :: y :: rest, hord, h =>
      obtain ⟨htake, hdrop⟩ := partitionPoint_split hord h
      have hside : ∀ b, Ordered ((trie hash).side b d (x :: y :: rest)) := fun b => hord.filter _
      have hcount : ∀ b, ((trie hash).fold room (d + 1) ((trie hash).side b d (x :: y :: rest))).count =
          min 2 ((trie hash).side b d (x :: y :: rest)).length := fun b =>
        BitTrie.count_fold (t := trie hash) (by show _ = keyBits; omega) (hside b).nodup_keys h.side
      have hlen := BitTrie.length_sides (t := trie hash) d (x :: y :: rest)
      have hbranch : 2 ≤ ((trie hash).fold room (d + 1) ((trie hash).side false d (x :: y :: rest))).count +
          ((trie hash).fold room (d + 1) ((trie hash).side true d (x :: y :: rest))).count := by
        rw [hcount, hcount]
        simp only [List.length_cons] at hlen
        omega
      rw [rebuildRoom]
      · simp only [htake, hdrop, ih (by omega) (hside false) h.side, ih (by omega) (hside true) h.side]
        rw [BitTrie.fold]
        exact congrArg (fun s => some (Subtree.digest hash s)) (combine_branch hbranch).symm
      all_goals simp

/-- **Rebuilding.** `rebuild` computes the digest of the trie -/
theorem rebuild_eq (hd : d ≤ keyBits) (hord : Ordered leaves) (h : (trie hash).Together d leaves) :
    rebuild hash leaves d = some (((trie hash).summary d leaves).digest hash) :=
  rebuildRoom_eq (by omega) hord h

/-! ## Prefixes of a map -/

variable (hash)

/-- the leaves covered by a prefix of `depth` bits -/
def KeyedMap.covered (m : KeyedMap) (depth : ℕ) (p : Key) : List (Key × Digest) :=
  (m.leaves hash).filter fun x => keyPrefix x.1 depth = p

/-- the summary of the subtree at a prefix -/
def KeyedMap.summary (m : KeyedMap) (depth : ℕ) (p : Key) : Option Subtree :=
  match m.covered hash depth p with
  | [] => some .empty
  | [(_, h)] => some (.leaf h)
  | leaves => (rebuild hash leaves depth).map .branch

/-- the node rows of a map: one for every prefix that covers two keys or more, with its branch hash -/
def nodeTable (m : KeyedMap) (depth : ℕ) (p : Key) : Option Digest :=
  if depth < keyBits ∧ 2 ≤ (m.covered hash depth p).length then rebuild hash (m.covered hash depth p) depth else none

variable {hash} {m : KeyedMap} {p key : Key}

/-- the leaves of a collection stand in key order -/
theorem leaves_ordered : Ordered (m.leaves hash) := List.pairwise_map.2 m.sorted

theorem covered_ordered : Ordered (m.covered hash d p) := leaves_ordered.filter _

/-- two keys have one prefix of `d` bits exactly when they agree on them -/
theorem keyPrefix_eq_iff {x : Key} (hd : d ≤ keyBits) : keyPrefix x d = keyPrefix key d ↔ (trie hash).Agree d x key := by
  constructor
  · intro h i hi
    have hbit := congrArg (fun k => bitSet k i) h
    simp only [bitSet_keyPrefix (lt_of_lt_of_le hi hd), hi, decide_true, Bool.true_and] at hbit
    exact hbit
  · intro h
    refine bitSet_ext fun i hi => ?_
    rw [bitSet_keyPrefix hi, bitSet_keyPrefix hi]
    by_cases hid : i < d
    · rw [show bitSet x i = bitSet key i from h i hid]
    · simp [hid]

theorem siblingPrefix_eq_iff {x : Key} (h : siblingPrefix key d = some p) :
    keyPrefix x (d + 1) = p ↔ (trie hash).Agree d x key ∧ bitSet x d ≠ bitSet key d := by
  have hd : d < keyBits := by
    by_contra hcon
    rw [siblingPrefix, if_pos (not_lt.1 hcon)] at h
    cases h
  constructor
  · intro hx
    have hbit : ∀ i < keyBits, (decide (i < d + 1) && bitSet x i) =
        (decide (i < d + 1) && (bitSet key i ^^ decide (i = d))) := by
      intro i hi
      rw [← bitSet_keyPrefix hi, hx, bitSet_siblingPrefix h hi]
    refine ⟨fun i hi => ?_, ?_⟩
    · have h' : bitSet x i = bitSet key i := by
        simpa [show i < d + 1 by omega, show i ≠ d by omega] using hbit i (by omega)
      exact h'
    · have h' := hbit d hd
      simp only [Nat.lt_succ_self, decide_true, Bool.true_and, Bool.xor_true] at h'
      rw [h']
      cases bitSet key d <;> simp
  · rintro ⟨hagree, hne⟩
    refine bitSet_ext fun i hi => ?_
    rw [bitSet_keyPrefix hi, bitSet_siblingPrefix h hi]
    rcases Nat.lt_trichotomy i d with hid | hid | hid
    · have hx : bitSet x i = bitSet key i := hagree i hid
      simp [hx, show i ≠ d by omega]
    · subst hid
      revert hne
      cases bitSet x i <;> cases bitSet key i <;> simp
    · simp [show ¬ i < d + 1 by omega]

/-- a key's prefix covers the leaves below it -/
theorem covered_keyPrefix (hd : d ≤ keyBits) :
    m.covered hash d (keyPrefix key d) = (trie hash).below key d (m.leaves hash) :=
  List.filter_congr fun _ _ => decide_eq_decide.2 (keyPrefix_eq_iff hd)

/-- a sibling's prefix covers the leaves beside the key -/
theorem covered_siblingPrefix (h : siblingPrefix key d = some p) :
    m.covered hash (d + 1) p = (trie hash).beside key d (m.leaves hash) :=
  List.filter_congr fun _ _ => decide_eq_decide.2 (siblingPrefix_eq_iff h)

theorem covered_together (hd : d ≤ keyBits) : (trie hash).Together d (m.covered hash d p) := by
  intro x hx y hy
  simp only [KeyedMap.covered, List.mem_filter, decide_eq_true_eq] at hx hy
  exact (keyPrefix_eq_iff hd).1 (hx.2.trans hy.2.symm)

/-- `summary` is the summary of the trie over what a prefix covers -/
theorem summary_eq (hd : d ≤ keyBits) :
    m.summary hash d p = some ((trie hash).summary d (m.covered hash d p)) := by
  have hrebuild := rebuild_eq hd (@covered_ordered hash d m p) (covered_together (p := p) hd)
  have hcount := BitTrie.count_summary (t := trie hash) hd (@covered_ordered hash d m p).nodup_keys
    (covered_together (p := p) hd)
  unfold KeyedMap.summary
  match hcov : m.covered hash d p with
  | [] => exact congrArg some (BitTrie.fold_nil (t := trie hash) _ _).symm
  | [x] => exact congrArg some (BitTrie.fold_singleton (t := trie hash) _ _ _).symm
  | x :: y :: rest =>
    rw [hcov] at hrebuild hcount
    simp only [hrebuild, Option.map_some, Option.some.injEq]
    refine (Subtree.branch_of_count (hcount.trans ?_)).symm
    exact Nat.min_eq_left (Nat.le_add_left 2 rest.length)

/-- a stored node is the row of the trie's summary -/
theorem nodeTable_eq (hd : d < keyBits) :
    nodeTable hash m d p = ((trie hash).summary d (m.covered hash d p)).row := by
  have hrebuild := rebuild_eq hd.le (@covered_ordered hash d m p) (covered_together (p := p) hd.le)
  have hcount := BitTrie.count_summary (t := trie hash) hd.le (@covered_ordered hash d m p).nodup_keys
    (covered_together (p := p) hd.le)
  unfold nodeTable
  by_cases hlen : 2 ≤ (m.covered hash d p).length
  · rw [if_pos ⟨hd, hlen⟩, hrebuild]
    exact congrArg Subtree.row (Subtree.branch_of_count (hcount.trans (Nat.min_eq_left hlen))).symm
  · rw [if_neg fun h => hlen h.2]
    refine (Subtree.row_of_count ?_).symm
    rw [show Subtree.count _ = _ from hcount]
    omega

end Trie

end ZenoFcis.CollectionMerkle
