/-
Plans as exact deltas: what a node batch does to the leaves, what it marks stale, and which trees take it.
-/
import ZenoFcis.Authenticated.Plan
import ZenoFcis.Authenticated.Proof

namespace ZenoFcis.Authenticated

open Lib Lib.Except Patch

variable {hash : Bytes → Hash32}

/-- what a write leaves under its key -/
def LeafWrite.left : LeafWrite → Option Value
  | .put _ value => some value
  | .delete _ => none

/-! ## Leaf maps -/

namespace LeafMap

variable {m m' : LeafMap} {key : Hash32}

/-- a map holds a value under a key exactly when it has that entry -/
theorem get_eq_some {value : Value} : m.get key = some value ↔ (key, value) ∈ m.entries := by
  rw [get, Option.map_eq_some_iff]
  constructor
  · rintro ⟨x, hx, rfl⟩
    have hmem := slot_mem hx
    rwa [← slot_key hx]
  · intro h
    exact ⟨(key, value), (slot_eq_some m.sorted).2 ⟨h, rfl⟩, rfl⟩

theorem get_isSome : (m.get key).isSome ↔ key ∈ m.entries.map Prod.fst := by
  rw [Option.isSome_iff_exists]
  simp only [get_eq_some, List.mem_map, Prod.exists]
  constructor
  · rintro ⟨v, h⟩
    exact ⟨key, v, h, rfl⟩
  · rintro ⟨k, v, h, rfl⟩
    exact ⟨v, h⟩

theorem entries_nodup : (m.entries.map Prod.fst).Nodup := List.pairwise_map.2 (m.sorted.imp fun hlt => hlt.ne)

/-- one write of a batch -/
def write (m : LeafMap) : LeafWrite → LeafMap
  | .put key value => m.insert key value
  | .delete key => ⟨put Prod.fst key none m.entries, m.sorted.put fun y hy => by cases hy⟩

/-- the whole batch -/
def writeBatch (m : LeafMap) (batch : NodeBatch) : LeafMap := batch.writes.foldl write m

theorem get_write_self (m : LeafMap) (w : LeafWrite) : (m.write w).get w.key = w.left := by
  cases w with
  | put key value =>
    have hslot := slot_put_self (x := some (key, value)) m.sorted fun y hy => by cases hy; rfl
    exact congrArg (Option.map Prod.snd) hslot
  | delete key =>
    have hslot := slot_put_self (k := key) (x := none) m.sorted fun y hy => by cases hy
    exact congrArg (Option.map Prod.snd) hslot

theorem get_write_ne (m : LeafMap) {w : LeafWrite} (h : key ≠ w.key) : (m.write w).get key = m.get key := by
  cases w with
  | put key' value =>
    exact congrArg (Option.map Prod.snd) (slot_put_ne (x := some (key', value)) (fun y hy => by cases hy; rfl) h)
  | delete key' =>
    exact congrArg (Option.map Prod.snd) (slot_put_ne (x := none) (fun y hy => by cases hy) h)

theorem get_writeBatch {writes : List LeafWrite} (hord : Increasing LeafWrite.key writes) (m : LeafMap) (key : Hash32) :
    (writes.foldl write m).get key = ((slot LeafWrite.key key writes).map LeafWrite.left).getD (m.get key) := by
  induction writes generalizing m with
  | nil => rfl
  | cons w writes ih =>
    rw [List.foldl_cons, ih hord.tail]
    by_cases hw : w.key = key
    · subst hw
      have hrest : slot LeafWrite.key w.key writes = none :=
        slot_eq_none.2 fun y hy => (hord.head_lt hy).ne'
      rw [hrest, Option.map_none, Option.getD_none, get_write_self]
      simp [slot]
    · rw [get_write_ne m (Ne.symm hw)]
      simp [slot, hw]

end LeafMap

/-! ## The batch -/

namespace NodeBatch

variable {before after : LeafMap}

/-- a batch writes a key exactly when its value changes, and writes the new one -/
theorem mem_fromMaps {w : LeafWrite} :
    w ∈ (fromMaps before after).writes ↔ before.get w.key ≠ after.get w.key ∧ w.left = after.get w.key := by
  simp only [fromMaps, List.mem_mergeSort, List.mem_append, List.mem_filterMap]
  constructor
  · rintro (⟨⟨key, old⟩, hx, hw⟩ | ⟨⟨key, new⟩, hx, hw⟩)
    · have hbefore := LeafMap.get_eq_some.2 hx
      unfold replaced at hw
      cases hafter : after.get key with
      | none =>
        simp only [hafter, Option.some.injEq] at hw
        subst hw
        simp [LeafWrite.key, LeafWrite.left, hbefore, hafter]
      | some new =>
        simp only [hafter] at hw
        split_ifs at hw with hne
        cases hw
        refine ⟨?_, hafter.symm⟩
        simp only [LeafWrite.key, hbefore, hafter, ne_eq, Option.some.injEq]
        exact fun h => hne h.symm
    · have hafter := LeafMap.get_eq_some.2 hx
      unfold inserted at hw
      split_ifs at hw with hpresent
      cases hw
      refine ⟨?_, hafter.symm⟩
      rw [Option.not_isSome_iff_eq_none] at hpresent
      simp [LeafWrite.key, hpresent, hafter]
  · rintro ⟨hne, hleft⟩
    cases hbefore : before.get w.key with
    | some old =>
      refine Or.inl ⟨(w.key, old), LeafMap.get_eq_some.1 hbefore, ?_⟩
      rw [hbefore] at hne
      cases w with
      | put key new =>
        simp only [LeafWrite.left, LeafWrite.key] at hleft hne ⊢
        rw [← hleft] at hne
        simp only [replaced, ← hleft]
        rw [if_pos fun h => hne (by rw [h])]
      | delete key =>
        simp only [LeafWrite.left, LeafWrite.key] at hleft ⊢
        simp only [replaced, ← hleft]
    | none =>
      rw [hbefore] at hne
      cases w with
      | put key new =>
        simp only [LeafWrite.left, LeafWrite.key] at hleft hbefore
        refine Or.inr ⟨(key, new), LeafMap.get_eq_some.1 hleft.symm, ?_⟩
        simp [inserted, hbefore]
      | delete key => exact absurd hleft hne

theorem filterMap_keys_sublist {f : Hash32 × Value → Option LeafWrite} (hf : ∀ x w, f x = some w → w.key = x.1)
    (leaves : List (Hash32 × Value)) : ((leaves.filterMap f).map LeafWrite.key).Sublist (leaves.map Prod.fst) := by
  induction leaves with
  | nil => exact .slnil
  | cons x leaves ih =>
    cases hx : f x with
    | none =>
      rw [List.filterMap_cons_none hx]
      exact ih.cons _
    | some w =>
      rw [List.filterMap_cons_some hx, List.map_cons, List.map_cons, hf x w hx]
      exact ih.cons_cons _

theorem replaced_key {x : Hash32 × Value} {w : LeafWrite} (h : replaced after x = some w) : w.key = x.1 := by
  unfold replaced at h
  split at h
  · cases h
    rfl
  · split_ifs at h
    cases h
    rfl

theorem inserted_key {x : Hash32 × Value} {w : LeafWrite} (h : inserted before x = some w) :
    w.key = x.1 ∧ before.get x.1 = none := by
  unfold inserted at h
  split_ifs at h with hpresent
  cases h
  exact ⟨rfl, Option.not_isSome_iff_eq_none.1 hpresent⟩

/-- a batch writes each key once, in key order -/
theorem fromMaps_increasing : Increasing LeafWrite.key (fromMaps before after).writes := by
  refine Increasing.mergeSort ?_
  rw [List.map_append, List.nodup_append]
  refine ⟨?_, ?_, ?_⟩
  · exact LeafMap.entries_nodup.sublist (filterMap_keys_sublist (fun _ _ => replaced_key) _)
  · exact LeafMap.entries_nodup.sublist (filterMap_keys_sublist (fun _ _ h => (inserted_key h).1) _)
  · intro a ha b hb hab
    obtain ⟨w, hw, rfl⟩ := List.mem_map.1 hb
    obtain ⟨x, _, hx⟩ := List.mem_filterMap.1 hw
    obtain ⟨hkey, habsent⟩ := inserted_key hx
    have hbefore := (filterMap_keys_sublist (fun _ _ => replaced_key) _).subset ha
    have hsome := LeafMap.get_isSome.2 hbefore
    rw [hab, hkey, habsent] at hsome
    cases hsome

/-- **Exactness.** The batch turns the leaves before into the leaves after. -/
theorem writeBatch_fromMaps : before.writeBatch (fromMaps before after) = after := by
  refine LeafMap.ext_get fun key => ?_
  rw [LeafMap.writeBatch, LeafMap.get_writeBatch fromMaps_increasing]
  cases hslot : slot LeafWrite.key key (fromMaps before after).writes with
  | some w =>
    obtain ⟨hmem, rfl⟩ := (slot_eq_some fromMaps_increasing).1 hslot
    rw [Option.map_some, Option.getD_some]
    exact (mem_fromMaps.1 hmem).2
  | none =>
    rw [Option.map_none, Option.getD_none]
    by_contra hne
    have hw : ∃ w : LeafWrite, w.key = key ∧ w.left = after.get key := by
      cases hafter : after.get key with
      | none => exact ⟨.delete key, rfl, rfl⟩
      | some new => exact ⟨.put key new, rfl, rfl⟩
    obtain ⟨w, rfl, hleft⟩ := hw
    exact slot_eq_none.1 hslot w (mem_fromMaps.2 ⟨hne, hleft⟩) rfl

end NodeBatch

/-! ## Stale nodes -/

/-- stale nodes are the keys that are written and had a value, with the hashes of their old leaves -/
theorem staleNodesOf_ok {before : LeafMap} {version : UInt64} {writes : List LeafWrite} {stale : List StaleNodeCandidate}
    (h : staleNodesOf hash before version writes = .ok stale) :
    (stale.map StaleNodeCandidate.key).Sublist (writes.map LeafWrite.key) ∧
      ∀ c, c ∈ stale ↔ c.staleSinceVersion = version ∧ (∃ w ∈ writes, w.key = c.key) ∧
        ∃ old, before.get c.key = some old ∧ leafHash hash c.key old = .ok c.oldLeafHash := by
  induction writes generalizing stale with
  | nil =>
    cases h
    exact ⟨.slnil, fun c => by simp⟩
  | cons w writes ih =>
    unfold staleNodesOf at h
    cases hget : before.get w.key with
    | none =>
      rw [hget] at h
      obtain ⟨hsub, hmem⟩ := ih h
      refine ⟨hsub.cons _, fun c => (hmem c).trans (and_congr_right fun _ => ?_)⟩
      rw [List.exists_mem_cons_iff]
      constructor
      · rintro ⟨hw, hold⟩
        exact ⟨Or.inr hw, hold⟩
      · rintro ⟨hw | hw, old, hold, hleaf⟩
        · rw [← hw, hget] at hold
          cases hold
        · exact ⟨hw, old, hold, hleaf⟩
    | some old =>
      rw [hget] at h
      simp only [bind_eq_ok] at h
      obtain ⟨leaf, hleaf, rest, hrest, hstale⟩ := h
      cases hstale
      obtain ⟨hsub, hmem⟩ := ih hrest
      refine ⟨hsub.cons_cons _, fun c => ?_⟩
      rw [List.mem_cons, hmem, List.exists_mem_cons_iff]
      constructor
      · rintro (rfl | ⟨hv, hw, hold⟩)
        · exact ⟨rfl, Or.inl rfl, old, hget, hleaf⟩
        · exact ⟨hv, Or.inr hw, hold⟩
      · rintro ⟨hv, hw | hw, old', hold, hleaf'⟩
        · left
          rw [← hw, hget] at hold
          cases hold
          rw [← hw, hleaf] at hleaf'
          cases c
          simp only at hv hw hleaf'
          rw [hv, ← hw, Except.ok.inj hleaf']
        · exact Or.inr ⟨hv, hw, old', hold, hleaf'⟩

end ZenoFcis.Authenticated
