/-
Binary tries over keyed leaves, folded bottom-up into one summary.

A `BitTrie` reads keys bit by bit and combines the summaries of the two halves of every split, all the way down to the
last bit. Its laws say that empty halves and lone leaves pass through unchanged and that a summary still tells an empty
subtree, a lone leaf and a crowd apart; a trie that stores no node for a crowd of fewer than two is therefore a fold.

- `count_summary`: the summary counts its leaves up to two.
- `summary_climb`: the summary above a key is computed from the summaries beside its path.
- `agree_between`, `takeWhile_side`: how an order that compares the first differing bit sees the trie.
-/
import Mathlib.Tactic

namespace ZenoFcis.Lib

/-- how keys are read and how summaries are combined -/
structure BitTrie (κ α β : Type) where
  width : ℕ
  bit : κ → ℕ → Bool
  empty : β
  leaf : α → β
  combine : β → β → β
  /-- the number of leaves, counted up to two -/
  count : β → ℕ
  bit_ext : ∀ a b, (∀ i < width, bit a i = bit b i) → a = b
  combine_empty : combine empty empty = empty
  combine_leaf_empty : ∀ a, combine (leaf a) empty = leaf a
  combine_empty_leaf : ∀ a, combine empty (leaf a) = leaf a
  count_empty : count empty = 0
  count_leaf : ∀ a, count (leaf a) = 1
  count_combine : ∀ x y, count (combine x y) = min 2 (count x + count y)

namespace BitTrie

variable {κ α β : Type} (t : BitTrie κ α β)

/-- `a` and `b` agree on their first `d` bits -/
def Agree (d : ℕ) (a b : κ) : Prop := ∀ i < d, t.bit a i = t.bit b i

instance (d : ℕ) (a b : κ) : Decidable (t.Agree d a b) := inferInstanceAs (Decidable (∀ i < d, _))

/-- the leaves on one side of the split at depth `d` -/
def side (b : Bool) (d : ℕ) (leaves : List (κ × α)) : List (κ × α) := leaves.filter fun x => t.bit x.1 d == b

/-- the summary of `leaves` below depth `d`, with `room` bits left -/
def fold : ℕ → ℕ → List (κ × α) → β
  | 0, _, [] => t.empty
  | 0, _, x :: _ => t.leaf x.2
  | room + 1, d, leaves => t.combine (fold room (d + 1) (t.side false d leaves)) (fold room (d + 1) (t.side true d leaves))

/-- the summary of `leaves` below depth `d` -/
def summary (d : ℕ) (leaves : List (κ × α)) : β := t.fold (t.width - d) d leaves

/-- the leaves that agree with each other on their first `d` bits -/
def Together (d : ℕ) (leaves : List (κ × α)) : Prop := ∀ x ∈ leaves, ∀ y ∈ leaves, t.Agree d x.1 y.1

variable {t} {d room : ℕ} {leaves : List (κ × α)}

theorem Agree.mono {e : ℕ} {a b : κ} (h : t.Agree d a b) (he : e ≤ d) : t.Agree e a b :=
  fun i hi => h i (lt_of_lt_of_le hi he)

theorem Agree.symm {a b : κ} (h : t.Agree d a b) : t.Agree d b a := fun i hi => (h i hi).symm

theorem Agree.trans {a b c : κ} (h : t.Agree d a b) (h' : t.Agree d b c) : t.Agree d a c :=
  fun i hi => (h i hi).trans (h' i hi)

theorem agree_succ {a b : κ} : t.Agree (d + 1) a b ↔ t.Agree d a b ∧ t.bit a d = t.bit b d := by
  constructor
  · intro h
    exact ⟨h.mono (Nat.le_succ d), h d (Nat.lt_succ_self d)⟩
  · intro h i hi
    rcases Nat.lt_succ_iff_lt_or_eq.1 hi with hlt | heq
    · exact h.1 i hlt
    · rw [heq]
      exact h.2

theorem mem_side {b : Bool} {x : κ × α} : x ∈ t.side b d leaves ↔ x ∈ leaves ∧ t.bit x.1 d = b := by
  simp [side]

/-- a side of a subtree shares one more bit -/
theorem Together.side {b : Bool} (h : t.Together d leaves) : t.Together (d + 1) (t.side b d leaves) := by
  intro x hx y hy
  rw [mem_side] at hx hy
  exact agree_succ.2 ⟨h x hx.1 y hy.1, hx.2.trans hy.2.symm⟩

/-- the two sides share out the leaves -/
theorem length_sides (d : ℕ) (leaves : List (κ × α)) :
    (t.side false d leaves).length + (t.side true d leaves).length = leaves.length := by
  have hfalse : t.side false d leaves = leaves.filter fun x => !t.bit x.1 d := by simp [BitTrie.side]
  have htrue : t.side true d leaves = leaves.filter fun x => t.bit x.1 d := by simp [BitTrie.side]
  rw [hfalse, htrue, Nat.add_comm]
  exact (List.length_eq_length_filter_add _).symm

/-- the fold of no leaves is empty -/
theorem fold_nil (room d : ℕ) : t.fold room d [] = t.empty := by
  induction room generalizing d with
  | zero => rfl
  | succ room ih =>
    rw [fold]
    simp only [side, List.filter_nil]
    rw [ih, t.combine_empty]

/-- the fold of one leaf is that leaf -/
theorem fold_singleton (room d : ℕ) (x : κ × α) : t.fold room d [x] = t.leaf x.2 := by
  induction room generalizing d with
  | zero => rfl
  | succ room ih =>
    rw [fold]
    cases hb : t.bit x.1 d
    · simp only [side, List.filter_cons, hb, List.filter_nil]
      exact (congrArg₂ t.combine (ih _) (fold_nil _ _)).trans (t.combine_leaf_empty _)
    · simp only [side, List.filter_cons, hb, List.filter_nil]
      exact (congrArg₂ t.combine (fold_nil _ _) (ih _)).trans (t.combine_empty_leaf _)

/-- a fold counts its leaves up to two -/
theorem count_fold (hroom : room + d = t.width) (hnodup : (leaves.map Prod.fst).Nodup) (h : t.Together d leaves) :
    t.count (t.fold room d leaves) = min 2 leaves.length := by
  induction room generalizing d leaves with
  | zero =>
    match leaves, hnodup, h with
    | [], _, _ => exact t.count_empty
    | [x], _, _ => exact t.count_leaf _
    | x :: y :: rest, hnodup, h =>
      -- two leaves that agree on every bit have one key
      have hxy : x.1 = y.1 := by
        refine t.bit_ext _ _ fun i hi => ?_
        exact h x List.mem_cons_self y (List.mem_cons_of_mem _ List.mem_cons_self) i (by omega)
      simp [hxy] at hnodup
  | succ room ih =>
    have hside : ∀ b, ((t.side b d leaves).map Prod.fst).Nodup := fun b =>
      hnodup.sublist (List.filter_sublist.map Prod.fst)
    rw [fold, t.count_combine, ih (by omega) (hside false) h.side, ih (by omega) (hside true) h.side,
      ← length_sides (t := t) d leaves]
    omega

/-- a summary counts its leaves up to two -/
theorem count_summary (hd : d ≤ t.width) (hnodup : (leaves.map Prod.fst).Nodup) (h : t.Together d leaves) :
    t.count (t.summary d leaves) = min 2 leaves.length :=
  count_fold (by omega) hnodup h

/-! ## The path of a key -/

variable (t) (k : κ)

/-- the leaves below the prefix of `k` of length `d` -/
def below (d : ℕ) (leaves : List (κ × α)) : List (κ × α) := leaves.filter fun x => decide (t.Agree d x.1 k)

/-- the leaves that leave the path of `k` at depth `d` -/
def beside (d : ℕ) (leaves : List (κ × α)) : List (κ × α) :=
  leaves.filter fun x => decide (t.Agree d x.1 k ∧ t.bit x.1 d ≠ t.bit k d)

/-- the summary on the side of `k`, at depth `d`, with the summary of the other side -/
def join (d : ℕ) (child other : β) : β := if t.bit k d then t.combine other child else t.combine child other

/-- climbs from `child` to depth `d` along `k`, past the summaries beside the path, topmost first -/
def climb : ℕ → List β → β → β
  | _, [], child => child
  | d, other :: others, child => t.join k d (climb (d + 1) others child) other

variable {t} {k}

/-- all leaves are below the root -/
theorem below_zero : t.below k 0 leaves = leaves := by
  simp [below, Agree]

/-- the leaves below a path share its bits -/
theorem below_together : t.Together d (t.below k d leaves) := by
  intro x hx y hy
  simp only [below, List.mem_filter, decide_eq_true_eq] at hx hy
  exact hx.2.trans hy.2.symm

/-- the leaves beside a path share one bit more -/
theorem below_together_beside : t.Together (d + 1) (t.beside k d leaves) := by
  intro x hx y hy
  simp only [beside, List.mem_filter, decide_eq_true_eq] at hx hy
  refine agree_succ.2 ⟨hx.2.1.trans hy.2.1.symm, ?_⟩
  have hx' := hx.2.2
  have hy' := hy.2.2
  revert hx' hy'
  cases t.bit x.1 d <;> cases t.bit y.1 d <;> cases t.bit k d <;> simp

/-- the side of the key is below the next bit of its path -/
theorem side_below : t.side (t.bit k d) d (t.below k d leaves) = t.below k (d + 1) leaves := by
  simp only [side, below, List.filter_filter]
  refine List.filter_congr fun x _ => ?_
  rw [Bool.eq_iff_iff]
  simp only [Bool.and_eq_true, beq_iff_eq, decide_eq_true_eq, agree_succ]
  exact and_comm

/-- the other side is beside the path -/
theorem side_beside : t.side (!t.bit k d) d (t.below k d leaves) = t.beside k d leaves := by
  simp only [side, below, beside, List.filter_filter]
  refine List.filter_congr fun x _ => ?_
  rw [Bool.eq_iff_iff]
  simp only [Bool.and_eq_true, beq_iff_eq, decide_eq_true_eq]
  rw [and_comm]
  exact and_congr_right fun _ => by cases t.bit x.1 d <;> cases t.bit k d <;> simp

theorem summary_below (hd : d < t.width) : t.summary d (t.below k d leaves) =
    t.join k d (t.summary (d + 1) (t.below k (d + 1) leaves)) (t.summary (d + 1) (t.beside k d leaves)) := by
  obtain ⟨room, hroom⟩ : ∃ room, t.width - d = room + 1 := ⟨t.width - d - 1, by omega⟩
  have hnext : t.width - (d + 1) = room := by omega
  rw [summary, hroom, fold, join, summary, summary, hnext, ← side_below, ← side_beside]
  cases t.bit k d <;> rfl

/-- climbing with the siblings gives the summary of the root -/
theorem summary_climb {others : List β} (hd : d + others.length ≤ t.width)
    (hothers : ∀ i s, others[i]? = some s → s = t.summary (d + i + 1) (t.beside k (d + i) leaves)) :
    t.summary d (t.below k d leaves) =
      t.climb k d others (t.summary (d + others.length) (t.below k (d + others.length) leaves)) := by
  induction others generalizing d with
  | nil => rfl
  | cons other others ih =>
    rw [List.length_cons] at hd
    have hhead : other = t.summary (d + 1) (t.beside k d leaves) := hothers 0 other rfl
    have htail : ∀ i s, others[i]? = some s → s = t.summary (d + 1 + i + 1) (t.beside k (d + 1 + i) leaves) := by
      intro i s hi
      have h := hothers (i + 1) s (by simpa using hi)
      rwa [show d + (i + 1) = d + 1 + i by omega] at h
    rw [summary_below (by omega), ih (by omega) htail, climb, ← hhead, List.length_cons,
      show d + (others.length + 1) = d + 1 + others.length by omega]

/-! ## An order on keys -/

section Order

variable {lt : κ → κ → Prop} (hlt : ∀ a b, lt a b → ∃ e, t.Agree e a b ∧ t.bit a e = false ∧ t.bit b e = true)
include hlt

/-- what lies between two keys shares their common bits -/
theorem agree_between {a b c : κ} (hab : lt a b) (hbc : lt b c) (h : t.Agree d a c) :
    t.Agree d a b ∧ t.Agree d b c := by
  obtain ⟨e, he, hae, hbe⟩ := hlt a b hab
  obtain ⟨e', he', hbe', hce'⟩ := hlt b c hbc
  have hd : d ≤ e := by
    by_contra hcon
    have hce : t.bit c e = false := (h e (by omega)).symm.trans hae
    rcases Nat.lt_trichotomy e e' with hee | hee | hee
    · exact absurd ((he' e hee).symm.trans hbe) (by simp [hce])
    · rw [hee] at hbe
      simp [hbe] at hbe'
    · have hca := (h e' (by omega)).symm.trans (he e' hee)
      rw [hce', hbe'] at hca
      cases hca
  have hab' := he.mono hd
  exact ⟨hab', hab'.symm.trans h⟩

/-- ordered leaves split at the first that goes right -/
theorem takeWhile_side (hsorted : leaves.Pairwise fun x y => lt x.1 y.1) (h : t.Together d leaves) :
    leaves.takeWhile (fun x => !t.bit x.1 d) = t.side false d leaves ∧
      leaves.dropWhile (fun x => !t.bit x.1 d) = t.side true d leaves := by
  induction leaves with
  | nil => exact ⟨rfl, rfl⟩
  | cons x leaves ih =>
    have htail : t.Together d leaves := fun y hy z hz =>
      h y (List.mem_cons_of_mem _ hy) z (List.mem_cons_of_mem _ hz)
    rw [List.pairwise_cons] at hsorted
    obtain ⟨htake, hdrop⟩ := ih hsorted.2 htail
    cases hb : t.bit x.1 d
    · simp only [List.takeWhile_cons, List.dropWhile_cons, hb, Bool.not_false, if_true, htake, hdrop]
      simp [side, hb]
    · -- every later leaf is past the split too
      have hall : ∀ y ∈ leaves, t.bit y.1 d = true := by
        intro y hy
        obtain ⟨e, he, hxe, hye⟩ := hlt x.1 y.1 (hsorted.1 y hy)
        have hagree := h x List.mem_cons_self y (List.mem_cons_of_mem _ hy)
        rcases Nat.lt_trichotomy d e with hde | hde | hde
        · exact (he d hde).symm.trans hb
        · rw [hde]
          exact hye
        · have hxy := hagree e hde
          rw [hxe, hye] at hxy
          cases hxy
      simp only [List.takeWhile_cons, List.dropWhile_cons, hb, Bool.not_true, Bool.false_eq_true, if_false]
      constructor
      · symm
        simpa [side, hb] using hall
      · symm
        simp only [side, List.filter_cons, hb, beq_self_eq_true, if_true, List.cons.injEq, true_and]
        exact List.filter_eq_self.2 (by simpa using hall)

end Order

end BitTrie

end ZenoFcis.Lib
