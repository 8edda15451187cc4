/-
Funds that are shared out by an accumulator. A claim is a share and the accumulator at its last settlement; it is owed its
share of the growth since, over a scale `q`, and paid the floor of that.

`Backed q f aside custody l`: the custody covers what is set aside and what the claims are owed, before any floor. Fees,
payments, and claims that join or leave keep it; `Backed.floors` is what it says of the payments.
-/
import Mathlib.Tactic

namespace ZenoFcis.Lib

/-- a share with the accumulator at its last settlement -/
abbrev Claim := ℕ × ℕ

/-- what a claim is owed, times the scale -/
def owed (f : ℕ) (c : Claim) : ℕ := c.1 * (f - c.2)

structure Backed (q f aside custody : ℕ) (l : List Claim) : Prop where
  seen : ∀ c ∈ l, c.2 ≤ f
  covered : aside * q + (l.map (owed f)).sum ≤ custody * q

namespace Backed

variable {q f aside custody : ℕ} {l : List Claim}

/-- the order of the claims does not matter -/
theorem perm {l' : List Claim} (hl : l.Perm l') (h : Backed q f aside custody l) : Backed q f aside custody l' := by
  refine ⟨fun c hc => h.seen c (hl.mem_iff.2 hc), ?_⟩
  rw [← (hl.map (owed f)).sum_eq]
  exact h.covered

theorem owed_add {d : ℕ} {c : Claim} (hc : c.2 ≤ f) : owed (f + d) c = owed f c + c.1 * d := by
  unfold owed
  rw [Nat.sub_add_comm hc, Nat.mul_add]

theorem sum_owed_add {d : ℕ} (hl : ∀ c ∈ l, c.2 ≤ f) :
    (l.map (owed (f + d))).sum = (l.map (owed f)).sum + (l.map Prod.fst).sum * d := by
  induction l with
  | nil => simp
  | cons c l ih =>
    rw [List.forall_mem_cons] at hl
    simp only [List.map_cons, List.sum_cons, ih hl.2, owed_add hl.1, Nat.add_mul]
    omega

/-- **Fees.** Growth that is worth no more than the fee keeps the cover. -/
theorem fee {d amount : ℕ} (h : Backed q f aside custody l) (hd : (l.map Prod.fst).sum * d ≤ amount * q) :
    Backed q (f + d) aside (custody + amount) l := by
  refine ⟨fun c hc => (h.seen c hc).trans (Nat.le_add_right f d), ?_⟩
  have hcovered := h.covered
  rw [sum_owed_add h.seen, Nat.add_mul]
  omega

/-- without claims a fee is set aside -/
theorem idle {amount : ℕ} (h : Backed q f aside custody l) : Backed q f (aside + amount) (custody + amount) l := by
  have hcovered := h.covered
  refine ⟨h.seen, ?_⟩
  rw [Nat.add_mul, Nat.add_mul]
  omega

/-- a claim that is settled now is owed nothing -/
theorem join {share : ℕ} (h : Backed q f aside custody l) : Backed q f aside custody ((share, f) :: l) := by
  refine ⟨List.forall_mem_cons.2 ⟨le_rfl, h.seen⟩, ?_⟩
  rw [List.map_cons, List.sum_cons, owed, Nat.sub_self, Nat.mul_zero, Nat.zero_add]
  exact h.covered

/-- **Payments.** Each claim can be paid its floor. -/
theorem payable {c : Claim} (h : Backed q f aside custody (c :: l)) : owed f c / q ≤ custody := by
  have hcovered := h.covered
  rw [List.map_cons, List.sum_cons] at hcovered
  refine Nat.div_le_of_le_mul ?_
  rw [Nat.mul_comm]
  omega

/-- a claim that is paid its floor leaves the rest covered -/
theorem leave {c : Claim} (h : Backed q f aside custody (c :: l)) : Backed q f aside (custody - owed f c / q) l := by
  refine ⟨(List.forall_mem_cons.1 h.seen).2, ?_⟩
  have hcovered := h.covered
  have hfloor := Nat.div_mul_le_self (owed f c) q
  rw [List.map_cons, List.sum_cons] at hcovered
  rw [Nat.sub_mul]
  omega

theorem sum_floor_mul_le (q f : ℕ) (l : List Claim) :
    (l.map fun c => owed f c / q).sum * q ≤ (l.map (owed f)).sum := by
  induction l with
  | nil => simp
  | cons c l ih =>
    have hfloor := Nat.div_mul_le_self (owed f c) q
    rw [List.map_cons, List.sum_cons, List.map_cons, List.sum_cons, Nat.add_mul]
    omega

/-- the custody covers all floors together -/
theorem floors (hq : 0 < q) (h : Backed q f aside custody l) : aside + (l.map fun c => owed f c / q).sum ≤ custody := by
  have hcovered := h.covered
  have hsum := sum_floor_mul_le q f l
  refine Nat.le_of_mul_le_mul_right ?_ hq
  rw [Nat.add_mul]
  omega

/-- the cover in exact fractions -/
theorem rational (hq : 0 < q) (h : Backed q f aside custody l) :
    (aside : ℚ) + (l.map fun c => (c.1 : ℚ) * ((f : ℚ) - c.2) / q).sum ≤ custody := by
  have hsum : (l.map fun c => (c.1 : ℚ) * ((f : ℚ) - c.2) / q).sum = ((l.map (owed f)).sum : ℕ) / (q : ℚ) := by
    have hseen := h.seen
    clear h
    induction l with
    | nil => simp
    | cons c l ih =>
      rw [List.forall_mem_cons] at hseen
      rw [List.map_cons, List.sum_cons, List.map_cons, List.sum_cons, ih hseen.2, Nat.cast_add, add_div, owed,
        Nat.cast_mul, Nat.cast_sub hseen.1]
  have hpos : (0 : ℚ) < q := by exact_mod_cast hq
  have hcovered : ((aside * q + (l.map (owed f)).sum : ℕ) : ℚ) ≤ ((custody * q : ℕ) : ℚ) := by exact_mod_cast h.covered
  rw [hsum]
  generalize (l.map (owed f)).sum = total at hcovered ⊢
  push_cast at hcovered
  rw [← mul_le_mul_iff_of_pos_right hpos, add_mul, div_mul_cancel₀ _ hpos.ne']
  exact hcovered

end Backed

end ZenoFcis.Lib
