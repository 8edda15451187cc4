/-
The stable order of a list without repetitions by a key: a permutation, sorted, in which members with one key keep the
order in which they are listed.

Results:
- `Stable.unique`: there is at most one;
- `stable_insertAfter`: inserting each member after the members whose keys are not greater computes it;
- `stable_iff_pairs`: a test of all pairs of the listing decides it.
-/
import Mathlib.Data.List.TakeWhile
import ZenoFcis.Lib.StableSort

namespace ZenoFcis.Lib.StableSort

variable {α κ : Type} [LinearOrder κ] {key : α → κ} {l l₁ l₂ order : List α} {a b : α}

/-! ## Two members of a list -/

theorem pair_asymm (hnodup : l.Nodup) (h : [a, b].Sublist l) : ¬ [b, a].Sublist l := by
  induction l with
  | nil => cases h
  | cons c l ih =>
    rw [List.nodup_cons] at hnodup
    intro h'
    rcases List.sublist_cons_iff.1 h with hab | ⟨r, hr, hb⟩
    · rcases List.sublist_cons_iff.1 h' with hba | ⟨r', hr', _⟩
      · exact ih hnodup.2 hab hba
      · cases hr'
        exact hnodup.1 (hab.subset (List.mem_cons_of_mem _ List.mem_cons_self))
    · cases hr
      rcases List.sublist_cons_iff.1 h' with hba | ⟨r', hr', _⟩
      · exact hnodup.1 (hba.subset (List.mem_cons_of_mem _ List.mem_cons_self))
      · cases hr'
        exact hnodup.1 (hb.subset List.mem_cons_self)

theorem pair_total (ha : a ∈ l) (hb : b ∈ l) (hne : a ≠ b) : [a, b].Sublist l ∨ [b, a].Sublist l := by
  induction l with
  | nil => cases ha
  | cons c l ih =>
    rcases List.mem_cons.1 ha with rfl | hal
    · have hbl := (List.mem_cons.1 hb).resolve_left hne.symm
      exact Or.inl (List.Sublist.cons_cons _ (List.singleton_sublist.2 hbl))
    · rcases List.mem_cons.1 hb with rfl | hbl
      · exact Or.inr (List.Sublist.cons_cons _ (List.singleton_sublist.2 hal))
      · exact (ih hal hbl).imp (List.Sublist.cons _) (List.Sublist.cons _)

theorem pair_ne (hnodup : l.Nodup) (h : [a, b].Sublist l) : a ≠ b := by
  rintro rfl
  exact pair_asymm hnodup h h

theorem pair_of_lt {i j : ℕ} (hi : l[i]? = some a) (hj : l[j]? = some b) (hij : i < j) : [a, b].Sublist l := by
  have hsplit := List.take_append_drop j l
  have ha : a ∈ l.take j := by
    rw [List.mem_iff_getElem?]
    exact ⟨i, by rw [List.getElem?_take_of_lt hij, hi]⟩
  have hb : b ∈ l.drop j := by
    rw [List.mem_iff_getElem?]
    exact ⟨0, by rw [List.getElem?_drop, Nat.add_zero, hj]⟩
  rw [← hsplit]
  exact List.Sublist.append (List.singleton_sublist.2 ha) (List.singleton_sublist.2 hb)

/-- a pair stands in the order of its places -/
theorem pair_iff_lt (hnodup : l.Nodup) {i j : ℕ} (hi : l[i]? = some a) (hj : l[j]? = some b) :
    [a, b].Sublist l ↔ i < j := by
  refine ⟨fun hpair => ?_, pair_of_lt hi hj⟩
  rcases lt_trichotomy i j with hlt | rfl | hgt
  · exact hlt
  · obtain rfl := Option.some.inj (hi.symm.trans hj)
    exact absurd rfl (pair_ne hnodup hpair)
  · exact absurd (pair_of_lt hj hi hgt) (pair_asymm hnodup hpair)

/-! ## The stable order -/

/-- sorted by the key, and as listed within a key -/
structure Stable (key : α → κ) (l order : List α) : Prop where
  perm : order.Perm l
  sorted : order.Pairwise fun a b => key a ≤ key b
  kept : ∀ a b, key a = key b → [a, b].Sublist l → [a, b].Sublist order

theorem Stable.pair (h : Stable key l order) (hnodup : l.Nodup) (hpair : [a, b].Sublist order) :
    key a < key b ∨ key a = key b ∧ [a, b].Sublist l := by
  have hle := List.pairwise_iff_forall_sublist.1 h.sorted hpair
  rcases hle.lt_or_eq with hlt | heq
  · exact Or.inl hlt
  · refine Or.inr ⟨heq, ?_⟩
    have hnodup' := h.perm.nodup_iff.2 hnodup
    have ha := h.perm.mem_iff.1 (hpair.subset List.mem_cons_self)
    have hb := h.perm.mem_iff.1 (hpair.subset (List.mem_cons_of_mem _ List.mem_cons_self))
    rcases pair_total ha hb (pair_ne hnodup' hpair) with hl | hl
    · exact hl
    · exact absurd (h.kept b a heq.symm hl) (pair_asymm hnodup' hpair)

/-- **One stable order.** -/
theorem Stable.unique (hnodup : l.Nodup) (h₁ : Stable key l l₁) (h₂ : Stable key l l₂) : l₁ = l₂ := by
  have hpairs : ∀ {order}, Stable key l order →
      order.Pairwise fun a b => key a < key b ∨ key a = key b ∧ [a, b].Sublist l := by
    intro order h
    exact List.pairwise_iff_forall_sublist.2 fun hpair => h.pair hnodup hpair
  refine List.Perm.eq_of_pairwise ?_ (hpairs h₁) (hpairs h₂) (h₁.perm.trans h₂.perm.symm)
  intro a b _ _ hab hba
  rcases hab with hlt | ⟨heq, hab⟩
  · rcases hba with hgt | ⟨heq, _⟩
    · exact absurd hlt hgt.not_gt
    · exact absurd heq.symm hlt.ne
  · rcases hba with hgt | ⟨_, hba⟩
    · exact absurd heq hgt.ne'
    · exact absurd hba (pair_asymm hnodup hab)

/-- **Deciding stability.** All pairs of the listing decide it -/
theorem stable_iff_pairs (hnodup : l.Nodup) (hperm : order.Perm l) : Stable key l order ↔
    ∀ a b, [a, b].Sublist l → ([a, b].Sublist order ↔ key a ≤ key b) := by
  have hnodup' := hperm.nodup_iff.2 hnodup
  have htotal : ∀ {a b}, [a, b].Sublist l → [a, b].Sublist order ∨ [b, a].Sublist order := by
    intro a b hab
    refine pair_total (hperm.mem_iff.2 (hab.subset ?_)) (hperm.mem_iff.2 (hab.subset ?_)) (pair_ne hnodup hab)
    · exact List.mem_cons_self
    · exact List.mem_cons_of_mem _ List.mem_cons_self
  constructor
  · intro h a b hab
    refine ⟨fun hpair => List.pairwise_iff_forall_sublist.1 h.sorted hpair, fun hle => ?_⟩
    rcases hle.lt_or_eq with hlt | heq
    · rcases htotal hab with hpair | hpair
      · exact hpair
      · exact absurd (List.pairwise_iff_forall_sublist.1 h.sorted hpair) hlt.not_ge
    · exact h.kept a b heq hab
  · intro h
    refine ⟨hperm, ?_, fun a b heq hab => (h a b hab).2 heq.le⟩
    rw [List.pairwise_iff_forall_sublist]
    intro a b hpair
    have ha := hperm.mem_iff.1 (hpair.subset List.mem_cons_self)
    have hb := hperm.mem_iff.1 (hpair.subset (List.mem_cons_of_mem _ List.mem_cons_self))
    rcases pair_total ha hb (pair_ne hnodup' hpair) with hab | hba
    · exact (h a b hab).1 hpair
    · by_contra hlt
      exact pair_asymm hnodup' hpair ((h b a hba).2 (not_le.1 hlt).le)

/-! ## Insertion -/

/-- after the members whose keys are not greater -/
def insertAfter (key : α → κ) (order : List α) (a : α) : List α :=
  order.takeWhile (fun b => decide (key b ≤ key a)) ++ a :: order.dropWhile fun b => decide (key b ≤ key a)

theorem insertAfter_perm (key : α → κ) (order : List α) (a : α) : (insertAfter key order a).Perm (a :: order) := by
  have hsplit := List.takeWhile_append_dropWhile (p := fun b => decide (key b ≤ key a)) (l := order)
  have hmiddle : (insertAfter key order a).Perm
      (a :: (order.takeWhile (fun b => decide (key b ≤ key a)) ++ order.dropWhile fun b => decide (key b ≤ key a))) :=
    List.perm_middle
  rwa [hsplit] at hmiddle

/-- what is left after the keys up to one is greater -/
theorem lt_of_mem_dropWhile (hsorted : order.Pairwise fun a b => key a ≤ key b)
    (hb : b ∈ order.dropWhile fun b => decide (key b ≤ key a)) : key a < key b := by
  induction order with
  | nil => cases hb
  | cons c order ih =>
    rw [List.pairwise_cons] at hsorted
    by_cases hc : key c ≤ key a
    · rw [List.dropWhile_cons_of_pos (by simpa using hc)] at hb
      exact ih hsorted.2 hb
    · rw [List.dropWhile_cons_of_neg (by simpa using hc)] at hb
      rw [not_le] at hc
      rcases List.mem_cons.1 hb with rfl | hb
      · exact hc
      · exact hc.trans_le (hsorted.1 b hb)

theorem sorted_insertAfter (hsorted : order.Pairwise fun a b => key a ≤ key b) (a : α) :
    (insertAfter key order a).Pairwise fun a b => key a ≤ key b := by
  rw [insertAfter, List.pairwise_append, List.pairwise_cons]
  have htake : ∀ b ∈ order.takeWhile (fun b => decide (key b ≤ key a)), key b ≤ key a :=
    fun b hb => of_decide_eq_true (List.mem_takeWhile_imp (p := fun b => decide (key b ≤ key a)) hb)
  refine ⟨hsorted.sublist (List.takeWhile_sublist _), ⟨?_, hsorted.sublist (List.dropWhile_sublist _)⟩, ?_⟩
  · intro b hb
    exact (lt_of_mem_dropWhile hsorted hb).le
  · intro b hb c hc
    rcases List.mem_cons.1 hc with rfl | hc
    · exact htake b hb
    · exact (htake b hb).trans (lt_of_mem_dropWhile hsorted hc).le

/-- **Insertion.** A new member goes behind the keys that are not greater -/
theorem stable_insertAfter (h : Stable key l order) (hnew : a ∉ l) :
    Stable key (l ++ [a]) (insertAfter key order a) where
  perm := (insertAfter_perm key order a).trans ((h.perm.cons a).trans (List.perm_append_singleton a l).symm)
  sorted := sorted_insertAfter h.sorted a
  kept x y hkey hxy := by
    have hsplit := List.takeWhile_append_dropWhile (p := fun b => decide (key b ≤ key a)) (l := order)
    have hsub : order.Sublist (insertAfter key order a) := by
      conv_lhs => rw [← hsplit]
      exact List.Sublist.append_left (List.sublist_cons_self _ _) _
    obtain ⟨r, s, hrs, hr, hs⟩ := List.sublist_append_iff.1 hxy
    rcases List.sublist_singleton.1 hs with rfl | rfl
    · rw [List.append_nil] at hrs
      exact (h.kept x y hkey (hrs ▸ hr)).trans hsub
    · -- the second one is the new member, and the first one stands before the cut
      obtain ⟨rfl, hlast⟩ := List.append_inj' (show [x] ++ [y] = r ++ [a] from hrs) rfl
      obtain rfl := List.singleton_inj.1 hlast
      have hx : x ∈ order := h.perm.mem_iff.2 (List.singleton_sublist.1 hr)
      rw [← hsplit, List.mem_append] at hx
      rcases hx with hx | hx
      · exact List.Sublist.append (List.singleton_sublist.2 hx) (List.singleton_sublist.2 List.mem_cons_self)
      · exact absurd hkey (lt_of_mem_dropWhile h.sorted hx).ne'

/-- nothing is in its stable order -/
theorem stable_nil : Stable key ([] : List α) [] := ⟨.refl _, .nil, fun _ _ _ h => h⟩

/-- stability depends on the keys of the members -/
theorem Stable.congr {key' : α → κ} (hkey : ∀ a ∈ l, key a = key' a) (h : Stable key l order) : Stable key' l order where
  perm := h.perm
  sorted := by
    refine h.sorted.imp_of_mem fun {a b} ha hb hle => ?_
    rw [← hkey a (h.perm.mem_iff.1 ha), ← hkey b (h.perm.mem_iff.1 hb)]
    exact hle
  kept a b heq hpair := by
    refine h.kept a b ?_ hpair
    rw [hkey a (hpair.subset List.mem_cons_self), hkey b (hpair.subset (List.mem_cons_of_mem _ List.mem_cons_self))]
    exact heq

end ZenoFcis.Lib.StableSort
