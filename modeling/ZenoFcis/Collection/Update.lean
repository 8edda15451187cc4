/-
The incremental commitment of a keyed collection is the rebuild's.

Model: `Stored` is a collection with the root and the node rows stored for it; `Step` is one update through
`update_path`, from the summaries that a reader finds beside the path of the key.

Result: `collection_commitment`. An update from the true sibling summaries yields the rebuilt root and the rows of the
updated map; so does every sequence of updates, whatever the order.
-/
import ZenoFcis.Collection.Commitment

namespace ZenoFcis.CollectionMerkle

open Lib

variable {hash : List Bytes → Digest} {m : KeyedMap} {key : Key} {record : Option Bytes}

/-! ## The length of a path -/

/-- two keys share at most all bits -/
theorem sharedBits_le (a b : Key) : sharedBits a b ≤ keyBits := by
  have h : _ ≤ (List.range keyBits).length := (List.takeWhile_prefix fun i => bit a i == bit b i).length_le
  rwa [List.length_range] at h

/-- keys that agree on `d` bits share at least `d` -/
theorem le_sharedBits {a b : Key} {d : ℕ} (hd : d ≤ keyBits) (h : (trie hash).Agree d a b) : d ≤ sharedBits a b := by
  obtain ⟨rest, hrest⟩ : ∃ rest, List.range keyBits = List.range d ++ rest :=
    ⟨_, by rw [← List.range_add (n := d) (m := keyBits - d), Nat.add_sub_cancel' hd]⟩
  have hfront : ∀ i ∈ List.range d, (bit a i == bit b i) = true := by
    intro i hi
    rw [bit_beq, beq_iff_eq]
    exact h i (List.mem_range.1 hi)
  rw [sharedBits, hrest, List.takeWhile_append_of_pos hfront, List.length_append, List.length_range]
  exact Nat.le_add_right _ _

theorem not_agree_sharedBits {a b : Key} (h : a ≠ b) : sharedBits a b < keyBits ∧
    ¬ (trie hash).Agree (sharedBits a b + 1) a b := by
  have hlt : sharedBits a b < keyBits := by
    rcases Nat.lt_or_ge (sharedBits a b) keyBits with hlt | hge
    · exact hlt
    · -- every bit is shared, so the keys are equal
      have hall : (List.range keyBits).takeWhile (fun i => bit a i == bit b i) = List.range keyBits := by
        refine (List.takeWhile_prefix _).eq_of_length ?_
        rw [List.length_range]
        exact Nat.le_antisymm (sharedBits_le a b) hge
      refine absurd (bitSet_ext fun i hi => ?_) h
      have hi' := List.all_eq_true.1 (List.all_takeWhile (l := List.range keyBits)) i (hall.symm ▸ List.mem_range.2 hi)
      rwa [bit_beq, beq_iff_eq] at hi'
  refine ⟨hlt, fun hagree => ?_⟩
  have hle := le_sharedBits hlt hagree
  omega

/-- the stored neighbours of a key: with any key on one side of it, they hold one that is as close on that side -/
structure Neighbours (m : KeyedMap) (key : Key) (neighbours : List Key) : Prop where
  mem : ∀ y ∈ neighbours, ∃ r, (y, r) ∈ m.entries
  below : ∀ x ∈ m.entries, before x.1 key = true →
    ∃ y ∈ neighbours, (x.1 = y ∨ before x.1 y = true) ∧ before y key = true
  above : ∀ x ∈ m.entries, before key x.1 = true →
    ∃ y ∈ neighbours, before key y = true ∧ (y = x.1 ∨ before y x.1 = true)

variable {neighbours : List Key}

theorem sharedPathLength_le : sharedPathLength key neighbours ≤ keyBits := by
  unfold sharedPathLength
  set lengths := (neighbours.filter (· ≠ key)).map fun other => sharedBits key other + 1 with hlengths
  rcases hmax : lengths.max? with _ | n
  · simp
  · have hn := List.max?_mem hmax
    rw [hlengths] at hn
    obtain ⟨y, hy, rfl⟩ := List.mem_map.1 hn
    have hne : key ≠ y := by
      intro heq
      have hfilter := (List.mem_filter.1 hy).2
      rw [heq] at hfilter
      simp at hfilter
    exact (@not_agree_sharedBits (fun _ => .zero) _ _ hne).1

theorem neighbour_leaves {y : Key} (hy : y ∈ neighbours) (hne : y ≠ key) :
    ¬ (trie hash).Agree (sharedPathLength key neighbours) y key := by
  intro hagree
  have hmem : sharedBits key y + 1 ∈ (neighbours.filter (· ≠ key)).map fun other => sharedBits key other + 1 :=
    List.mem_map.2 ⟨y, List.mem_filter.2 ⟨hy, by simpa using hne⟩, rfl⟩
  have hle : sharedBits key y + 1 ≤ sharedPathLength key neighbours := by
    unfold sharedPathLength
    rw [List.max?_eq_some_max (List.ne_nil_of_mem hmem), Option.getD_some]
    exact List.le_max_of_mem hmem
  exact (@not_agree_sharedBits hash _ _ hne.symm).2 (hagree.symm.mono hle)

theorem leaves_path (hn : Neighbours m key neighbours) {x : Key × Bytes} (hx : x ∈ m.entries) (hne : x.1 ≠ key) :
    ¬ (trie hash).Agree (sharedPathLength key neighbours) x.1 key := by
  intro hagree
  rcases before_total hne with hlt | hlt
  · obtain ⟨y, hy, hxy, hyk⟩ := hn.below x hx hlt
    refine @neighbour_leaves hash _ _ _ hy (before_ne hyk) ?_
    rcases hxy with rfl | hxy
    · exact hagree
    · exact (BitTrie.agree_between (fun a b => before_trie hash) hxy hyk hagree).2
  · obtain ⟨y, hy, hky, hyx⟩ := hn.above x hx hlt
    refine @neighbour_leaves hash _ _ _ hy (before_ne hky).symm ?_
    rcases hyx with rfl | hyx
    · exact hagree
    · exact ((BitTrie.agree_between (fun a b => before_trie hash) hky hyx hagree.symm).1).symm

/-! ## The loop of `update_path` -/

/-- the subtree that the loop starts from -/
def startOf (hash : List Bytes → Digest) (key : Key) (record : Option Bytes) : Subtree :=
  .ofLeaf (record.map (leafHash hash key))

/-- the writes of the loop from `depth` down, deepest first -/
def pathWrites (hash : List Bytes → Digest) (key : Key) (start : Subtree) : ℕ → List Subtree → List NodeWrite
  | _, [] => []
  | depth, other :: others => pathWrites hash key start (depth + 1) others ++
      [⟨depth, keyPrefix key depth, ((trie hash).climb key depth (other :: others) start).row⟩]

theorem updateLoop_eq {start : Subtree} {siblings : List Subtree} {depth : ℕ} :
    (siblings.zipIdx depth).foldr
        (fun (other, depth) (child, nodes) => updateStep hash key other depth child nodes) (start, []) =
      ((trie hash).climb key depth siblings start, pathWrites hash key start depth siblings) := by
  induction siblings generalizing depth with
  | nil => rfl
  | cons other others ih =>
    have hjoin : ∀ child, (if bit key depth = 0 then combine hash child other else combine hash other child) =
        (trie hash).join key depth child other := by
      intro child
      simp only [BitTrie.join, trie, bit_eq_zero]
      by_cases hb : bitSet key depth = true <;> simp [hb]
    rw [List.zipIdx_cons, List.foldr_cons, ih]
    simp only [updateStep, hjoin, pathWrites, BitTrie.climb]

theorem updatePath_eq {siblings : List Subtree} (hlen : siblings.length ≤ keyBits) :
    updatePath hash key record siblings = some ⟨record.map (leafHash hash key),
      ((trie hash).climb key 0 siblings (startOf hash key record)).digest hash,
      pathWrites hash key (startOf hash key record) 0 siblings⟩ := by
  have hloop := @updateLoop_eq hash key (startOf hash key record) siblings 0
  rw [startOf] at hloop
  rw [updatePath, if_neg (not_lt.2 hlen), startOf]
  simp only [hloop]

/-- applies node writes in order: an upsert with a hash, a removal without -/
def applyWrites (table : ℕ → Key → Option Digest) (nodes : List NodeWrite) : ℕ → Key → Option Digest :=
  nodes.foldl (fun table write depth p =>
    if depth = write.depth ∧ p = write.keyPrefix then write.hash else table depth p) table

theorem applyWrites_path {table : ℕ → Key → Option Digest} {start : Subtree} {siblings : List Subtree} {depth d : ℕ}
    {p : Key} : applyWrites table (pathWrites hash key start depth siblings) d p =
      if depth ≤ d ∧ d < depth + siblings.length ∧ p = keyPrefix key d then
        ((trie hash).climb key d (siblings.drop (d - depth)) start).row
      else table d p := by
  induction siblings generalizing depth with
  | nil =>
    rw [if_neg (by simp; omega)]
    rfl
  | cons other others ih =>
    have hlast : applyWrites table (pathWrites hash key start depth (other :: others)) d p =
        if d = depth ∧ p = keyPrefix key depth then ((trie hash).climb key depth (other :: others) start).row
        else applyWrites table (pathWrites hash key start (depth + 1) others) d p := by
      simp only [applyWrites, pathWrites, List.foldl_append, List.foldl_cons, List.foldl_nil]
    rw [hlast, ih, List.length_cons]
    by_cases hd : d = depth
    · subst hd
      have hskip : ¬ (d + 1 ≤ d) := by omega
      simp only [hskip, false_and, if_false, true_and, le_refl, Nat.sub_self, List.drop_zero]
      simp
    · have hdrop : ∀ h : depth + 1 ≤ d, (other :: others).drop (d - depth) = others.drop (d - (depth + 1)) := by
        intro h
        rw [show d - depth = d - (depth + 1) + 1 by omega, List.drop_succ_cons]
      rw [if_neg fun h => hd h.1]
      by_cases hpath : depth + 1 ≤ d ∧ d < depth + 1 + others.length ∧ p = keyPrefix key d
      · rw [if_pos hpath, if_pos ⟨by omega, by omega, hpath.2.2⟩, hdrop hpath.1]
      · rw [if_neg hpath, if_neg]
        intro h
        exact hpath ⟨by omega, by omega, h.2.2⟩

/-! ## `rebuild_root` of any listing -/

/-- an entry slice lists a map -/
def Lists (entries : List (Key × Bytes)) (m : KeyedMap) : Prop := ∀ x, x ∈ entries ↔ x ∈ m.entries

/-- of a sorted slice with one leaf per key, what is kept after `key` -/
theorem dedupAfter_spec {key : Key} {leaves : List (Key × Digest)}
    (hsorted : leaves.Pairwise fun x y => (!before y.1 x.1) = true) (hkey : ∀ x ∈ leaves, before x.1 key = false)
    (hone : ∀ x ∈ leaves, ∀ y ∈ leaves, x.1 = y.1 → x = y) :
    Ordered (dedupAfter key leaves) ∧ ∀ x, x ∈ dedupAfter key leaves ↔ x ∈ leaves ∧ x.1 ≠ key := by
  induction leaves generalizing key with
  | nil => exact ⟨List.Pairwise.nil, by simp [dedupAfter]⟩
  | cons y leaves ih =>
    rw [List.pairwise_cons] at hsorted
    have hone' : ∀ x ∈ leaves, ∀ z ∈ leaves, x.1 = z.1 → x = z := fun x hx z hz =>
      hone x (List.mem_cons_of_mem _ hx) z (List.mem_cons_of_mem _ hz)
    by_cases hy : y.1 = key
    · rw [dedupAfter, if_pos hy]
      obtain ⟨hord, hmem⟩ := ih hsorted.2 (fun x hx => hkey x (List.mem_cons_of_mem _ hx)) hone'
      refine ⟨hord, fun x => ?_⟩
      rw [hmem, List.mem_cons]
      constructor
      · intro h
        exact ⟨.inr h.1, h.2⟩
      · rintro ⟨rfl | hx, hne⟩
        · exact absurd hy hne
        · exact ⟨hx, hne⟩
    · rw [dedupAfter, if_neg hy]
      have hafter : ∀ x ∈ leaves, before x.1 y.1 = false := fun x hx => by simpa using hsorted.1 x hx
      obtain ⟨hord, hmem⟩ := ih hsorted.2 hafter hone'
      have hky : before key y.1 = true := by
        rcases before_total (Ne.symm hy) with h | h
        · exact h
        · rw [hkey y List.mem_cons_self] at h
          cases h
      refine ⟨List.pairwise_cons.2 ⟨fun x hx => ?_, hord⟩, fun x => ?_⟩
      · obtain ⟨hx, hne⟩ := (hmem x).1 hx
        rcases before_total hne with h | h
        · rw [hafter x hx] at h
          cases h
        · exact h
      · rw [List.mem_cons, hmem, List.mem_cons]
        constructor
        · rintro (rfl | ⟨hx, _⟩)
          · exact ⟨.inl rfl, hy⟩
          · refine ⟨.inr hx, fun hxk => ?_⟩
            have hxy := hafter x hx
            rw [hxk, hky] at hxy
            cases hxy
        · rintro ⟨rfl | hx, hne⟩
          · exact .inl rfl
          · by_cases hxy : x.1 = y.1
            · exact .inl (hone x (List.mem_cons_of_mem _ hx) y List.mem_cons_self hxy)
            · exact .inr ⟨hx, hxy⟩

theorem dedupByKey_spec {leaves : List (Key × Digest)} (hsorted : leaves.Pairwise fun x y => (!before y.1 x.1) = true)
    (hone : ∀ x ∈ leaves, ∀ y ∈ leaves, x.1 = y.1 → x = y) :
    Ordered (dedupByKey leaves) ∧ ∀ x, x ∈ dedupByKey leaves ↔ x ∈ leaves := by
  cases leaves with
  | nil => exact ⟨List.Pairwise.nil, fun x => Iff.rfl⟩
  | cons y leaves =>
    rw [List.pairwise_cons] at hsorted
    have hafter : ∀ x ∈ leaves, before x.1 y.1 = false := fun x hx => by simpa using hsorted.1 x hx
    obtain ⟨hord, hmem⟩ := dedupAfter_spec hsorted.2 hafter
      fun x hx z hz => hone x (List.mem_cons_of_mem _ hx) z (List.mem_cons_of_mem _ hz)
    refine ⟨List.pairwise_cons.2 ⟨fun x hx => ?_, hord⟩, fun x => ?_⟩
    · obtain ⟨hx, hne⟩ := (hmem x).1 hx
      rcases before_total hne with hlt | hlt
      · rw [hafter x hx] at hlt
        cases hlt
      · exact hlt
    · rw [dedupByKey, List.mem_cons, List.mem_cons, hmem]
      constructor
      · rintro (rfl | ⟨hx, _⟩)
        · exact .inl rfl
        · exact .inr hx
      · rintro (rfl | hx)
        · exact .inl rfl
        · by_cases hxy : x.1 = y.1
          · exact .inl (hone x (List.mem_cons_of_mem _ hx) y List.mem_cons_self hxy)
          · exact .inr ⟨hx, hxy⟩

theorem before_sort_trans (x y z : Key × Digest) (hxy : (!before y.1 x.1) = true) (hyz : (!before z.1 y.1) = true) :
    (!before z.1 x.1) = true := by
  simp only [Bool.not_eq_true', Bool.eq_false_iff, ne_eq, before_iff] at *
  omega

theorem before_sort_total (x y : Key × Digest) : ((!before y.1 x.1) || (!before x.1 y.1)) = true := by
  simp only [Bool.or_eq_true, Bool.not_eq_true', Bool.eq_false_iff, ne_eq, before_iff]
  omega

theorem sorted_leaves {entries : List (Key × Bytes)} (h : Lists entries m) :
    dedupByKey ((entries.map fun x => (x.1, leafHash hash x.1 x.2)).mergeSort fun x y => !before y.1 x.1) =
      m.leaves hash := by
  set sorted := (entries.map fun x => (x.1, leafHash hash x.1 x.2)).mergeSort fun x y => !before y.1 x.1 with hs
  have hsorted : sorted.Pairwise fun x y => (!before y.1 x.1) = true :=
    List.pairwise_mergeSort before_sort_trans before_sort_total _
  have hmem : ∀ x, x ∈ sorted ↔ x ∈ m.leaves hash := by
    intro x
    rw [hs, List.mem_mergeSort, List.mem_map, KeyedMap.leaves, List.mem_map]
    exact exists_congr fun y => and_congr_left fun _ => h y
  have hone : ∀ x ∈ sorted, ∀ y ∈ sorted, x.1 = y.1 → x = y := by
    intro x hx y hy hxy
    exact List.inj_on_of_nodup_map (@leaves_ordered hash m).nodup_keys ((hmem x).1 hx) ((hmem y).1 hy) hxy
  obtain ⟨hord, hkept⟩ := dedupByKey_spec hsorted hone
  exact hord.ext leaves_ordered fun x => (hkept x).trans (hmem x)

theorem rebuildRoot_eq {entries : List (Key × Bytes)} (h : Lists entries m) :
    rebuildRoot hash entries = some (((trie hash).summary 0 (m.leaves hash)).digest hash) := by
  rw [rebuildRoot, sorted_leaves h]
  exact rebuild_eq (Nat.zero_le _) leaves_ordered fun x _ y _ i hi => absurd hi (Nat.not_lt_zero i)

/-! ## One update -/

theorem Ordered.length_one {α : Type} {l : List (Key × α)} (h : Ordered l) (hkey : ∀ x ∈ l,
  x.1 = key) : l.length < 2 := by
  match l, h, hkey with
  | [], _, _ => simp
  | [x], _, _ => simp
  | x :: y :: l, h, hkey =>
    have hxy := List.rel_of_pairwise_cons h List.mem_cons_self
    rw [hkey x List.mem_cons_self, hkey y (List.mem_cons_of_mem _ List.mem_cons_self)] at hxy
    exact absurd rfl (before_ne hxy)

section Step

variable {siblings : List Subtree} {d : ℕ}

theorem leaves_update_filter (p : Key × Digest → Bool) (hp : ∀ h, p (key, h) = false) :
    ((m.update key record).leaves hash).filter p = (m.leaves hash).filter p := by
  simp only [KeyedMap.leaves, List.filter_map]
  rw [KeyedMap.filter_update]
  intro r
  exact hp _

theorem beside_update : (trie hash).beside key d ((m.update key record).leaves hash) =
    (trie hash).beside key d (m.leaves hash) :=
  leaves_update_filter _ fun _ => by simp

theorem covered_update {p : Key} (hp : p ≠ keyPrefix key d) :
    (m.update key record).covered hash d p = m.covered hash d p :=
  leaves_update_filter _ fun _ => decide_eq_false hp.symm

theorem below_path (hn : Neighbours m key neighbours) (hd : sharedPathLength key neighbours ≤ d) :
    ∀ x ∈ (trie hash).below key d (m.leaves hash), x.1 = key := by
  intro x hx
  obtain ⟨hx, hagree⟩ := List.mem_filter.1 hx
  obtain ⟨y, hy, rfl⟩ := List.mem_map.1 hx
  by_contra hne
  exact leaves_path hn hy hne ((of_decide_eq_true hagree).mono hd)

theorem below_path_update (hn : Neighbours m key neighbours) (hd : sharedPathLength key neighbours ≤ d) :
    (trie hash).below key d ((m.update key record).leaves hash) =
      (record.map (leafHash hash key)).toList.map fun h => (key, h) := by
  refine Ordered.ext (leaves_ordered.filter _) ?_ fun x => ?_
  · cases record <;> simp [Ordered]
  · rw [BitTrie.below, List.mem_filter, KeyedMap.leaves, List.mem_map, List.mem_map]
    constructor
    · rintro ⟨⟨y, hy, rfl⟩, hagree⟩
      rcases (KeyedMap.mem_update m key record).1 hy with ⟨hkey, hr⟩ | ⟨hne, hy⟩
      · obtain ⟨k, r⟩ := y
        obtain rfl : k = key := hkey
        obtain rfl : record = some r := hr
        exact ⟨leafHash hash k r, by simp, rfl⟩
      · exact absurd ((of_decide_eq_true hagree).mono hd) (leaves_path hn hy hne)
    · rintro ⟨h, hh, rfl⟩
      obtain ⟨r, hr, rfl⟩ := Option.map_eq_some_iff.1 (Option.mem_toList.1 hh)
      refine ⟨⟨(key, r), (KeyedMap.mem_update m key record).2 (.inl ⟨rfl, hr⟩), rfl⟩, ?_⟩
      exact decide_eq_true fun i _ => rfl

theorem summary_below_path (hn : Neighbours m key neighbours) (hd : sharedPathLength key neighbours ≤ d) :
    (trie hash).summary d ((trie hash).below key d ((m.update key record).leaves hash)) = startOf hash key record := by
  rw [below_path_update hn hd]
  cases record with
  | none => exact BitTrie.fold_nil (t := trie hash) _ _
  | some r => exact BitTrie.fold_singleton (t := trie hash) _ _ _

/-- the sibling summaries that a reader finds before the update -/
def Siblings (hash : List Bytes → Digest) (m : KeyedMap) (key : Key) (siblings : List Subtree) : Prop :=
  ∀ d sub, siblings[d]? = some sub → ∃ p, siblingPrefix key d = some p ∧ m.summary hash (d + 1) p = some sub

theorem summary_path (hn : Neighbours m key neighbours) (hlen : siblings.length = sharedPathLength key neighbours)
    (hs : Siblings hash m key siblings) (hd : d ≤ siblings.length) :
    (trie hash).summary d ((trie hash).below key d ((m.update key record).leaves hash)) =
      (trie hash).climb key d (siblings.drop d) (startOf hash key record) := by
  have hmax : siblings.length ≤ keyBits := hlen ▸ sharedPathLength_le
  have hend : d + (siblings.drop d).length = siblings.length := by
    rw [List.length_drop]
    omega
  rw [@BitTrie.summary_climb _ _ _ (trie hash) _ _ _ (siblings.drop d) (hend ▸ hmax) ?_, hend,
    summary_below_path hn hlen.ge]
  intro i sub hsub
  rw [List.getElem?_drop] at hsub
  obtain ⟨p, hp, hsum⟩ := hs (d + i) sub hsub
  have hle : d + i + 1 ≤ keyBits := by
    obtain ⟨hlt, _⟩ := List.getElem?_eq_some_iff.1 hsub
    omega
  rw [summary_eq hle, covered_siblingPrefix hp] at hsum
  rw [beside_update, Option.some.inj hsum]

theorem nodeTable_past {q : Key} (hpast : (m.covered hash d q).length < 2) : nodeTable hash m d q = none := by
  rw [nodeTable, if_neg fun h => absurd h.2 (not_le.2 hpast)]

/-- **One update.** From the true sibling summaries `update_path` returns the rebuilt root and the rows of the updated
map. -/
theorem update_step (hn : Neighbours m key neighbours) (hlen : siblings.length = sharedPathLength key neighbours)
    (hs : Siblings hash m key siblings) {entries : List (Key × Bytes)} (hl : Lists entries (m.update key record)) :
    ∃ update, updatePath hash key record siblings = some update ∧ rebuildRoot hash entries = some update.root ∧
      applyWrites (nodeTable hash m) update.nodes = nodeTable hash (m.update key record) := by
  have hmax : siblings.length ≤ keyBits := hlen ▸ sharedPathLength_le
  refine ⟨_, updatePath_eq hmax, ?_, ?_⟩
  · have hroot := @summary_path _ _ _ record _ _ _ hn hlen hs (Nat.zero_le _)
    rw [BitTrie.below_zero, List.drop_zero] at hroot
    rw [rebuildRoot_eq hl, hroot]
  · funext d p
    rw [applyWrites_path]
    by_cases hpath : 0 ≤ d ∧ d < 0 + siblings.length ∧ p = keyPrefix key d
    · rw [if_pos hpath]
      obtain ⟨_, hd, rfl⟩ := hpath
      rw [nodeTable_eq (by omega), covered_keyPrefix (by omega), summary_path hn hlen hs (by omega), Nat.sub_zero]
    · rw [if_neg hpath]
      by_cases hp : p = keyPrefix key d
      · -- past the path no prefix of the key covers two entries, before or after
        have hd : siblings.length ≤ d := by
          by_contra hcon
          exact hpath ⟨Nat.zero_le _, by omega, hp⟩
        by_cases hd' : d < keyBits
        · rw [nodeTable_past ?_, nodeTable_past ?_]
          · rw [hp, covered_keyPrefix hd'.le, below_path_update hn (hlen ▸ hd)]
            cases record <;> simp
          · rw [hp, covered_keyPrefix hd'.le]
            exact Ordered.length_one (leaves_ordered.filter _) (below_path hn (hlen ▸ hd))
        · rw [nodeTable, nodeTable, if_neg fun h => hd' h.1, if_neg fun h => hd' h.1]
      · rw [nodeTable, nodeTable, covered_update hp]

end Step

/-! ## Histories -/

/-- a collection with what is stored for it -/
structure Stored where
  map : KeyedMap
  root : Digest
  nodes : ℕ → Key → Option Digest

/-- the stored root is the rebuild of the map and the stored rows are the rows of the map -/
structure Consistent (hash : List Bytes → Digest) (s : Stored) : Prop where
  root : ∀ entries, Lists entries s.map → rebuildRoot hash entries = some s.root
  nodes : s.nodes = nodeTable hash s.map

/-- one update through `update_path` -/
structure Step (hash : List Bytes → Digest) (key : Key) (record : Option Bytes) (s s' : Stored) : Prop where
  path : ∃ neighbours siblings update, Neighbours s.map key neighbours ∧
    siblings.length = sharedPathLength key neighbours ∧ Siblings hash s.map key siblings ∧
    updatePath hash key record siblings = some update ∧ s'.root = update.root ∧
    s'.nodes = applyWrites s.nodes update.nodes
  map : s'.map = s.map.update key record

/-- a sequence of updates -/
inductive Run (hash : List Bytes → Digest) : List (Key × Option Bytes) → Stored → Stored → Prop where
  | nil (s : Stored) : Run hash [] s s
  | cons {key record updates s s' s''} (h : Step hash key record s s') (rest : Run hash updates s' s'') :
      Run hash ((key, record) :: updates) s s''

variable {s s' : Stored} {updates : List (Key × Option Bytes)}

theorem step_consistent (hs : Consistent hash s) (h : Step hash key record s s') : Consistent hash s' := by
  obtain ⟨neighbours, siblings, update, hn, hlen, hsib, hupdate, hroot, hnodes⟩ := h.path
  have hstep : ∀ entries, Lists entries s'.map → rebuildRoot hash entries = some s'.root ∧
      s'.nodes = nodeTable hash s'.map := by
    intro entries hl
    rw [h.map] at hl ⊢
    obtain ⟨update', hupdate', hroot', hnodes'⟩ := @update_step _ _ _ record _ _ hn hlen hsib _ hl
    obtain rfl := Option.some.inj (hupdate'.symm.trans hupdate)
    rw [hroot, hnodes, hs.nodes]
    exact ⟨hroot', hnodes'⟩
  exact ⟨fun entries hl => (hstep entries hl).1, (hstep s'.map.entries fun _ => Iff.rfl).2⟩

theorem run_consistent (hs : Consistent hash s)
    (h : Run hash updates s s') : Consistent hash s' := by
  induction h with
  | nil => exact hs
  | cons h _ ih => exact ih (step_consistent hs h)

theorem run_map (h : Run hash updates s s') :
    s'.map = updates.foldl (fun m x => m.update x.1 x.2) s.map := by
  induction h with
  | nil => rfl
  | cons h _ ih => rw [ih, h.map, List.foldl_cons]

theorem step_exists (s : Stored) (key : Key) (record : Option Bytes) : ∃ s', Step hash key record s s' := by
  set neighbours := s.map.entries.map Prod.fst with hneighbours
  set siblings := (List.range (sharedPathLength key neighbours)).map fun d =>
    (trie hash).summary (d + 1) ((trie hash).beside key d (s.map.leaves hash)) with hsiblings
  have hlen : siblings.length = sharedPathLength key neighbours := by rw [hsiblings, List.length_map, List.length_range]
  have hn : Neighbours s.map key neighbours := by
    refine ⟨fun y hy => ?_, fun x hx hlt => ?_, fun x hx hlt => ?_⟩
    · obtain ⟨x, hx, rfl⟩ := List.mem_map.1 hy
      exact ⟨x.2, hx⟩
    · exact ⟨x.1, List.mem_map_of_mem hx, .inl rfl, hlt⟩
    · exact ⟨x.1, List.mem_map_of_mem hx, hlt, .inl rfl⟩
  have hsib : Siblings hash s.map key siblings := by
    intro d sub hsub
    rw [hsiblings, List.getElem?_map, Option.map_eq_some_iff] at hsub
    obtain ⟨e, he, rfl⟩ := hsub
    obtain ⟨hd, heq⟩ := List.getElem?_eq_some_iff.1 he
    rw [List.length_range] at hd
    rw [List.getElem_range] at heq
    subst heq
    have hlt : d < keyBits := lt_of_lt_of_le hd sharedPathLength_le
    refine ⟨_, by rw [siblingPrefix, if_neg (not_le.2 hlt)], ?_⟩
    rw [summary_eq hlt, @covered_siblingPrefix _ _ _ _ key (by rw [siblingPrefix, if_neg (not_le.2 hlt)])]
  obtain ⟨update, hupdate, _⟩ := @update_step _ _ _ record _ _ hn hlen hsib _ (fun _ => Iff.rfl)
  exact ⟨⟨s.map.update key record, update.root, applyWrites s.nodes update.nodes⟩,
    ⟨neighbours, siblings, update, hn, hlen, hsib, hupdate, rfl, rfl⟩, rfl⟩

theorem run_exists (updates : List (Key × Option Bytes)) (s : Stored) : ∃ s', Run hash updates s s' := by
  induction updates generalizing s with
  | nil => exact ⟨s, .nil s⟩
  | cons x updates ih =>
    obtain ⟨s', hs'⟩ := step_exists s x.1 x.2
    obtain ⟨s'', hs''⟩ := ih s'
    exact ⟨s'', .cons hs' hs''⟩

theorem Consistent.determined (hs : Consistent hash s) (hs' : Consistent hash s') (h : s.map = s'.map) :
    s.root = s'.root ∧ s.nodes = s'.nodes := by
  have hroot := hs.root s.map.entries fun _ => Iff.rfl
  have hroot' := hs'.root s.map.entries fun _ => by rw [h]
  exact ⟨Option.some.inj (hroot.symm.trans hroot'), by rw [hs.nodes, hs'.nodes, h]⟩

/-- **Incremental commitment.** One update from the true sibling summaries returns the root that `rebuild_root` computes
of the updated map, however listed, and its writes turn the node table of the map into that of the updated map. Every
sequence of updates can be taken and keeps root and rows those of the current map, so they depend only on the map that
is reached. -/
theorem collection_commitment (hash : List Bytes → Digest) :
    (∀ m key record neighbours siblings entries, Neighbours m key neighbours →
      siblings.length = sharedPathLength key neighbours → Siblings hash m key siblings →
      Lists entries (m.update key record) →
      ∃ update, updatePath hash key record siblings = some update ∧ rebuildRoot hash entries = some update.root ∧
        applyWrites (nodeTable hash m) update.nodes = nodeTable hash (m.update key record)) ∧
    (∀ updates s, Consistent hash s → (∃ s', Run hash updates s s') ∧ ∀ s', Run hash updates s s' →
      Consistent hash s' ∧ s'.map = updates.foldl (fun m x => m.update x.1 x.2) s.map) ∧
    (∀ updates updates' s t s' t', Consistent hash s → Consistent hash t → Run hash updates s s' →
      Run hash updates' t t' → s'.map = t'.map → s'.root = t'.root ∧ s'.nodes = t'.nodes) := by
  refine ⟨?_, ?_, ?_⟩
  · intro m key record neighbours siblings entries hn hlen hs hl
    exact update_step hn hlen hs hl
  · intro updates s hs
    exact ⟨run_exists updates s, fun s' h => ⟨run_consistent hs h, run_map h⟩⟩
  · intro updates updates' s t s' t' hs ht h h' hmap
    exact (run_consistent hs h).determined (run_consistent ht h') hmap

end ZenoFcis.CollectionMerkle
