/-
Stable sorts by a key and their tests of neighbours. A stable sort forgets the listing exactly where its key tells the
members apart; a test of neighbours in a sorted list finds every repetition of what the order groups together.
-/
import Mathlib.Data.List.Duplicate
import Mathlib.Data.List.Sort
import Mathlib.Order.Lattice

namespace ZenoFcis.Lib.StableSort

variable {α κ : Type} [LinearOrder κ]

/-- a stable sort by a key -/
def sortBy (key : α → κ) (l : List α) : List α := l.mergeSort fun a b => decide (key a ≤ key b)

/-- whether two neighbours are related -/
def adjacent (p : α → α → Bool) : List α → Bool
  | a :: b :: l => p a b || adjacent p (b :: l)
  | _ => false

section Sorts

variable {key : α → κ} {l l' : List α}

theorem before_trans (a b c : α) (hab : decide (key a ≤ key b) = true) (hbc : decide (key b ≤ key c) = true) :
    decide (key a ≤ key c) = true := by
  rw [decide_eq_true_eq] at *
  exact hab.trans hbc

theorem before_total (a b : α) : (decide (key a ≤ key b) || decide (key b ≤ key a)) = true := by
  rw [Bool.or_eq_true, decide_eq_true_eq, decide_eq_true_eq]
  exact le_total _ _

/-- sorting permutes -/
theorem sortBy_perm (key : α → κ) (l : List α) : (sortBy key l).Perm l := List.mergeSort_perm _ _

theorem mem_sortBy {a : α} : a ∈ sortBy key l ↔ a ∈ l := (sortBy_perm key l).mem_iff

/-- sorting sorts -/
theorem sorted_sortBy (key : α → κ) (l : List α) : (sortBy key l).Pairwise fun a b => key a ≤ key b := by
  exact (List.pairwise_mergeSort before_trans before_total l).imp fun h => of_decide_eq_true h

/-- sorting leaves a sorted list -/
theorem sortBy_of_sorted (h : l.Pairwise fun a b => key a ≤ key b) : sortBy key l = l :=
  List.mergeSort_of_pairwise (h.imp fun hle => decide_eq_true hle)

/-- sorting forgets the order of a listing with distinct keys -/
theorem sortBy_eq_of_perm (key : α → κ) (hkey : ∀ a ∈ l, ∀ b ∈ l, key a = key b → a = b) (h : l'.Perm l) :
    sortBy key l' = sortBy key l := by
  refine List.Perm.eq_of_pairwise (fun a b ha hb hab hba => ?_) (sorted_sortBy key l') (sorted_sortBy key l)
    ((sortBy_perm key l').trans (h.trans (sortBy_perm key l).symm))
  exact hkey a (h.mem_iff.1 (mem_sortBy.1 ha)) b (mem_sortBy.1 hb) (le_antisymm hab hba)

/-- two members with one key give neighbours with one key -/
theorem exists_neighbours {a b : α} (hsorted : l.Pairwise fun a b => key a ≤ key b) (ha : a ∈ l) (hb : b ∈ l)
    (hkey : key a = key b) (hne : a ≠ b) : ∃ l₁ u v l₂, l = l₁ ++ u :: v :: l₂ ∧ key u = key v ∧ u ≠ v := by
  induction l with
  | nil => exact absurd ha List.not_mem_nil
  | cons c t ih =>
    rw [List.pairwise_cons] at hsorted
    have hrest (ha : a ∈ t) (hb : b ∈ t) :
        ∃ l₁ u v l₂, c :: t = l₁ ++ u :: v :: l₂ ∧ key u = key v ∧ u ≠ v := by
      obtain ⟨l₁, u, v, l₂, heq, huv, hdiffer⟩ := ih hsorted.2 ha hb
      exact ⟨c :: l₁, u, v, l₂, by rw [heq, List.cons_append], huv, hdiffer⟩
    -- the first member meets its successor, which has the same key
    have hfirst {x : α} (hx : x ∈ t) (hkeys : key c = key x) (hdiffer : c ≠ x) (hagain : c ∈ t →
        ∃ l₁ u v l₂, c :: t = l₁ ++ u :: v :: l₂ ∧ key u = key v ∧ u ≠ v) :
        ∃ l₁ u v l₂, c :: t = l₁ ++ u :: v :: l₂ ∧ key u = key v ∧ u ≠ v := by
      obtain ⟨d, t', rfl⟩ := List.exists_cons_of_ne_nil (List.ne_nil_of_mem hx)
      have hcd : key c = key d := by
        refine le_antisymm (hsorted.1 d List.mem_cons_self) ?_
        rw [hkeys]
        rcases List.mem_cons.1 hx with rfl | hx
        · exact le_rfl
        · exact (List.pairwise_cons.1 hsorted.2).1 x hx
      by_cases hsame : c = d
      · exact hagain (hsame ▸ List.mem_cons_self)
      · exact ⟨[], c, d, t', rfl, hcd, hsame⟩
    rcases List.mem_cons.1 ha with rfl | ha'
    · rcases List.mem_cons.1 hb with rfl | hb'
      · exact absurd rfl hne
      · exact hfirst hb' hkey hne fun hmem => hrest hmem hb'
    · rcases List.mem_cons.1 hb with rfl | hb'
      · exact hfirst ha' hkey.symm hne.symm fun hmem => hrest ha' hmem
      · exact hrest ha' hb'

/-- in a list sorted by `f` a test of neighbours finds every repetition of `f` -/
theorem adjacent_eq_false [DecidableEq κ] {f : α → κ} (hsorted : l.Pairwise fun a b => f a ≤ f b) :
    adjacent (fun a b => decide (f a = f b)) l = false ↔ (l.map f).Nodup := by
  induction l with
  | nil => exact iff_of_true rfl List.nodup_nil
  | cons a l ih =>
    rw [List.pairwise_cons] at hsorted
    rw [List.map_cons, List.nodup_cons, ← ih hsorted.2]
    cases l with
    | nil => exact iff_of_true rfl ⟨List.not_mem_nil, rfl⟩
    | cons b l =>
      rw [adjacent, Bool.or_eq_false_iff, decide_eq_false_iff_not]
      refine and_congr_left fun _ => not_congr ⟨fun h => ?_, fun h => ?_⟩
      · rw [h]
        exact List.mem_cons_self
      · obtain ⟨c, hc, heq⟩ := List.mem_map.1 h
        refine le_antisymm (hsorted.1 b List.mem_cons_self) ?_
        rw [← heq]
        rcases List.mem_cons.1 hc with rfl | hc
        · exact le_rfl
        · exact (List.pairwise_cons.1 hsorted.2).1 c hc

/-- ... and after a sort by a key that refines `f` -/
theorem adjacent_sortBy {κ' : Type} [LinearOrder κ'] [DecidableEq κ'] {f : α → κ'}
    (hmono : ∀ a b, key a ≤ key b → f a ≤ f b) :
    adjacent (fun a b => decide (f a = f b)) (sortBy key l) = false ↔ (l.map f).Nodup := by
  rw [adjacent_eq_false ((sorted_sortBy key l).imp fun {a b} h => hmono a b h)]
  exact ((sortBy_perm key l).map f).nodup_iff

theorem adjacent_eq_true [DecidableEq α] :
    adjacent (fun a b => decide (a = b)) l = true ↔ ∃ a, [a, a] <:+: l := by
  induction l with
  | nil =>
    refine iff_of_false Bool.false_ne_true fun ⟨a, ha⟩ => ?_
    exact absurd ha.length_le (by simp)
  | cons b l ih =>
    cases l with
    | nil =>
      refine iff_of_false Bool.false_ne_true fun ⟨a, ha⟩ => ?_
      exact absurd ha.length_le (by simp)
    | cons c l =>
      rw [adjacent, Bool.or_eq_true, decide_eq_true_eq, ih]
      constructor
      · rintro (rfl | ⟨a, ha⟩)
        · exact ⟨b, [], l, rfl⟩
        · exact ⟨a, ha.trans (List.suffix_cons b _).isInfix⟩
      · rintro ⟨a, ha⟩
        rcases List.infix_cons_iff.1 ha with ha | ha
        · obtain ⟨hab, ha⟩ := List.cons_prefix_cons.1 ha
          exact Or.inl (hab.symm.trans (List.cons_prefix_cons.1 ha).1)
        · exact Or.inr ⟨a, ha⟩

theorem filter_sortBy [DecidableEq κ] (k : κ) :
    (sortBy key l).filter (fun a => decide (key a = k)) = l.filter fun a => decide (key a = k) := by
  have hpair : (l.filter fun a => decide (key a = k)).Pairwise fun a b => decide (key a ≤ key b) = true := by
    refine List.pairwise_of_forall_mem_list fun a ha b hb => ?_
    have hka := of_decide_eq_true (List.mem_filter.1 ha).2
    have hkb := of_decide_eq_true (List.mem_filter.1 hb).2
    rw [decide_eq_true_eq, hka, hkb]
  have hsub := (List.sublist_mergeSort before_trans before_total hpair List.filter_sublist).filter
    fun a => decide (key a = k)
  rw [List.filter_filter, List.filter_congr fun a _ => Bool.and_self _] at hsub
  exact (hsub.eq_of_length ((sortBy_perm key l).filter _).length_eq.symm).symm

theorem filter_together [DecidableEq κ] (hsorted : l.Pairwise fun a b => key a ≤ key b) (k : κ) :
    l.filter (fun a => decide (key a = k)) <:+: l := by
  have hprefix : ∀ t : List α, (t.Pairwise fun a b => key a ≤ key b) → (∀ a ∈ t, k ≤ key a) →
      t.filter (fun a => decide (key a = k)) <+: t := by
    intro t ht hle
    induction t with
    | nil => exact List.prefix_refl _
    | cons a t ih =>
      rw [List.pairwise_cons] at ht
      by_cases ha : key a = k
      · rw [List.filter_cons_of_pos (by simpa using ha)]
        exact List.cons_prefix_cons.2 ⟨rfl, ih ht.2 fun b hb => hle b (List.mem_cons_of_mem _ hb)⟩
      · rw [List.filter_eq_nil_iff.2 fun b hb => ?_]
        · exact List.nil_prefix
        · have hlt : k < key a := lt_of_le_of_ne (hle a List.mem_cons_self) (Ne.symm ha)
          rcases List.mem_cons.1 hb with rfl | hb
          · simpa using hlt.ne'
          · simpa using (hlt.trans_le (ht.1 b hb)).ne'
  induction l with
  | nil => exact List.infix_refl _
  | cons a t ih =>
    rw [List.pairwise_cons] at hsorted
    by_cases ha : key a = k
    · rw [List.filter_cons_of_pos (by simpa using ha)]
      exact (List.cons_prefix_cons.2 ⟨rfl, hprefix t hsorted.2 fun b hb => ha ▸ hsorted.1 b hb⟩).isInfix
    · rw [List.filter_cons_of_neg (by simpa using ha)]
      exact (ih hsorted.2).trans (List.suffix_cons a t).isInfix

/-- **What the test of equal neighbours finds.** After a stable sort it finds a member that is listed twice with no
other member of its key listed in between. -/
theorem adjacent_sortBy_eq [DecidableEq α] [DecidableEq κ] :
    adjacent (fun a b => decide (a = b)) (sortBy key l) = true ↔
      ∃ a, [a, a] <:+: l.filter fun b => decide (key b = key a) := by
  rw [adjacent_eq_true]
  refine exists_congr fun a => ⟨fun h => ?_, fun h => ?_⟩
  · rw [← filter_sortBy]
    have hfilter := h.filter fun b => decide (key b = key a)
    rwa [List.filter_eq_self.2 (by simp)] at hfilter
  · rw [← filter_sortBy] at h
    exact h.trans (filter_together (sorted_sortBy key l) (key a))

/-- a repeated member stands twice in its group -/
theorem exists_repeated {κ' : Type} [DecidableEq α] [DecidableEq κ'] {key : α → κ'}
    (hkey : ∀ a ∈ l, ∀ b ∈ l, key a = key b → a = b) (h : ¬l.Nodup) :
    ∃ a, [a, a] <:+: l.filter fun b => decide (key b = key a) := by
  obtain ⟨a, ha⟩ := List.exists_duplicate_iff_not_nodup.2 h
  have hsub : [a, a].Sublist (l.filter fun b => decide (key b = key a)) := by
    have hfilter := (List.duplicate_iff_sublist.1 ha).filter fun b => decide (key b = key a)
    rwa [List.filter_eq_self.2 (by simp)] at hfilter
  have hall : ∀ b ∈ l.filter (fun b => decide (key b = key a)), b = a := by
    intro b hb
    obtain ⟨hmem, heq⟩ := List.mem_filter.1 hb
    exact hkey b hmem a ha.mem (of_decide_eq_true heq)
  refine ⟨a, ?_⟩
  rw [List.eq_replicate_of_mem hall] at hsub ⊢
  obtain ⟨n, hn⟩ := Nat.exists_eq_add_of_le' hsub.length_le
  rw [List.length_replicate] at hn
  rw [hn]
  exact ⟨[], List.replicate n a, by simp [List.replicate_succ]⟩

end Sorts

end ZenoFcis.Lib.StableSort
