/-
Numbers as limbs, least significant first: addition with carry, subtraction with borrow and comparison from the most
significant limb, each with the value it computes.
-/
import Mathlib.Tactic

namespace ZenoFcis.Lib

namespace Limbs

variable {w : ℕ}

/-- the number that limbs stand for -/
def value : List (BitVec w) → ℕ
  | [] => 0
  | x :: xs => x.toNat + 2 ^ w * value xs

/-- one word of a carry or a borrow -/
def bit (b : Bool) : BitVec w := if b then 1 else 0

/-- `x.overflowing_add(y)` -/
def overflowingAdd (x y : BitVec w) : BitVec w × Bool := (x + y, decide (2 ^ w ≤ x.toNat + y.toNat))

/-- `x.overflowing_sub(y)` -/
def overflowingSub (x y : BitVec w) : BitVec w × Bool := (x - y, decide (x.toNat < y.toNat))

/-- the limbs of a sum and the carry out of the last one -/
def add : List (BitVec w) → List (BitVec w) → Bool → List (BitVec w) × Bool
  | x :: xs, y :: ys, carry =>
    let low := overflowingAdd x y
    let total := overflowingAdd low.1 (bit carry)
    let rest := add xs ys (low.2 || total.2)
    (total.1 :: rest.1, rest.2)
  | _, _, carry => ([], carry)

/-- the limbs of a difference and the borrow out of the last one -/
def sub : List (BitVec w) → List (BitVec w) → Bool → List (BitVec w) × Bool
  | x :: xs, y :: ys, borrow =>
    let low := overflowingSub x y
    let difference := overflowingSub low.1 (bit borrow)
    let rest := sub xs ys (low.2 || difference.2)
    (difference.1 :: rest.1, rest.2)
  | _, _, borrow => ([], borrow)

/-- the lexicographic comparison, most significant limb first -/
def compareTop : List (BitVec w) → List (BitVec w) → Ordering
  | x :: xs, y :: ys => (compareTop xs ys).then (compare x.toNat y.toNat)
  | _, _ => .eq

theorem toNat_bit (hw : 0 < w) (b : Bool) : (bit b : BitVec w).toNat = b.toNat := by
  have h : 1 < 2 ^ w := Nat.one_lt_two_pow hw.ne'
  cases b
  · simp [bit]
  · simp [bit, Nat.mod_eq_of_lt h]

/-- an overflowing sum with its carry is exact -/
theorem overflowingAdd_value (x y : BitVec w) :
    (overflowingAdd x y).1.toNat + 2 ^ w * (overflowingAdd x y).2.toNat = x.toNat + y.toNat := by
  have hx := x.isLt
  have hy := y.isLt
  unfold overflowingAdd
  by_cases h : 2 ^ w ≤ x.toNat + y.toNat
  · rw [BitVec.toNat_add, Nat.mod_eq_sub_mod h, Nat.mod_eq_of_lt (by omega)]
    simp [h]
  · rw [BitVec.toNat_add, Nat.mod_eq_of_lt (not_le.1 h)]
    simp [h]

theorem overflowingSub_value (x y : BitVec w) :
    (overflowingSub x y).1.toNat + y.toNat = x.toNat + 2 ^ w * (overflowingSub x y).2.toNat := by
  have hx := x.isLt
  have hy := y.isLt
  unfold overflowingSub
  by_cases h : x.toNat < y.toNat
  · rw [BitVec.toNat_sub, Nat.mod_eq_of_lt (by omega)]
    simp [h]
    omega
  · have hback : 2 ^ w - y.toNat + x.toNat = x.toNat - y.toNat + 2 ^ w := by omega
    rw [BitVec.toNat_sub, hback, Nat.add_mod_right, Nat.mod_eq_of_lt (by omega)]
    simp [h]
    omega

/-- **Carry.** The limbs and the last carry are the sum. -/
theorem add_value (hw : 0 < w) {xs ys : List (BitVec w)} (h : xs.length = ys.length) (carry : Bool) :
    value (add xs ys carry).1 + (2 ^ w) ^ xs.length * (add xs ys carry).2.toNat =
      value xs + value ys + carry.toNat := by
  induction xs generalizing ys carry with
  | nil =>
    cases ys with
    | nil => simp [add, value]
    | cons y ys => cases h
  | cons x xs ih =>
    cases ys with
    | nil => cases h
    | cons y ys =>
      have hlow := overflowingAdd_value x y
      have htotal := overflowingAdd_value (overflowingAdd x y).1 (bit carry)
      have hrest := ih (Nat.succ.inj h) ((overflowingAdd x y).2 || (overflowingAdd (overflowingAdd x y).1 (bit carry)).2)
      have hx := x.isLt
      have hy := y.isLt
      rw [toNat_bit hw] at htotal
      -- only one of the two additions of a limb can overflow
      have hor : ((overflowingAdd x y).2 || (overflowingAdd (overflowingAdd x y).1 (bit carry)).2).toNat =
          (overflowingAdd x y).2.toNat + (overflowingAdd (overflowingAdd x y).1 (bit carry)).2.toNat := by
        have hbit : carry.toNat ≤ 1 := Bool.toNat_le carry
        cases hl : (overflowingAdd x y).2 <;>
          cases ht : (overflowingAdd (overflowingAdd x y).1 (bit carry)).2 <;>
            simp only [hl, ht, Bool.toNat_true, Bool.toNat_false] at hlow htotal ⊢ <;> first | rfl | omega
      rw [hor] at hrest
      simp only [add, value, List.length_cons, pow_succ]
      generalize value (add xs ys _).1 = rest at hrest ⊢
      generalize (add xs ys _).2.toNat = out at hrest ⊢
      generalize (2 ^ w) ^ xs.length = scale at hrest ⊢
      generalize 2 ^ w = base at hlow htotal hrest ⊢
      calc (overflowingAdd (overflowingAdd x y).1 (bit carry)).1.toNat + base * rest + scale * base * out
          = (overflowingAdd (overflowingAdd x y).1 (bit carry)).1.toNat + base * (rest + scale * out) := by ring
        _ = x.toNat + base * value xs + (y.toNat + base * value ys) + carry.toNat := by
          rw [hrest]
          linarith

/-- **Borrow.** The limbs are the difference, up to the last borrow. -/
theorem sub_value (hw : 0 < w) {xs ys : List (BitVec w)} (h : xs.length = ys.length) (borrow : Bool) :
    value (sub xs ys borrow).1 + value ys + borrow.toNat =
      value xs + (2 ^ w) ^ xs.length * (sub xs ys borrow).2.toNat := by
  induction xs generalizing ys borrow with
  | nil =>
    cases ys with
    | nil => simp [sub, value]
    | cons y ys => cases h
  | cons x xs ih =>
    cases ys with
    | nil => cases h
    | cons y ys =>
      have hlow := overflowingSub_value x y
      have htotal := overflowingSub_value (overflowingSub x y).1 (bit borrow)
      have hrest := ih (Nat.succ.inj h)
        ((overflowingSub x y).2 || (overflowingSub (overflowingSub x y).1 (bit borrow)).2)
      have hx := x.isLt
      have hy := y.isLt
      have hd := (overflowingSub (overflowingSub x y).1 (bit borrow)).1.isLt
      rw [toNat_bit hw] at htotal
      have hor : ((overflowingSub x y).2 || (overflowingSub (overflowingSub x y).1 (bit borrow)).2).toNat =
          (overflowingSub x y).2.toNat + (overflowingSub (overflowingSub x y).1 (bit borrow)).2.toNat := by
        have hbit : borrow.toNat ≤ 1 := Bool.toNat_le borrow
        cases hl : (overflowingSub x y).2 <;>
          cases ht : (overflowingSub (overflowingSub x y).1 (bit borrow)).2 <;>
            simp only [hl, ht, Bool.toNat_true, Bool.toNat_false] at hlow htotal ⊢ <;> first | rfl | omega
      rw [hor] at hrest
      simp only [sub, value, List.length_cons, pow_succ]
      generalize value (sub xs ys _).1 = rest at hrest ⊢
      generalize (sub xs ys _).2.toNat = out at hrest ⊢
      generalize (2 ^ w) ^ xs.length = scale at hrest ⊢
      generalize 2 ^ w = base at hlow htotal hrest ⊢
      calc (overflowingSub (overflowingSub x y).1 (bit borrow)).1.toNat + base * rest + (y.toNat + base * value ys) +
            borrow.toNat
          = (overflowingSub (overflowingSub x y).1 (bit borrow)).1.toNat + borrow.toNat + y.toNat +
              base * (rest + value ys) := by ring
        _ = x.toNat + base * value xs + scale * base * out := by linarith [congrArg (base * ·) hrest]

theorem compare_digit {b a a' c c' : ℕ} (hc : c < b) (hc' : c' < b) :
    compare (c + b * a) (c' + b * a') = (compare a a').then (compare c c') := by
  rcases lt_trichotomy a a' with h | h | h
  · have hlt : c + b * a < c' + b * a' := by nlinarith
    rw [compare_lt_iff_lt.2 h, compare_lt_iff_lt.2 hlt]
    rfl
  · subst h
    rw [compare_eq_iff_eq.2 rfl, Ordering.eq_then]
    rcases lt_trichotomy c c' with h | h | h
    · rw [compare_lt_iff_lt.2 h, compare_lt_iff_lt.2 (by omega)]
    · rw [h, compare_eq_iff_eq.2 rfl, compare_eq_iff_eq.2 rfl]
    · rw [compare_gt_iff_gt.2 h, compare_gt_iff_gt.2 (by omega)]
  · have hgt : c' + b * a' < c + b * a := by nlinarith
    rw [compare_gt_iff_gt.2 h, compare_gt_iff_gt.2 hgt]
    rfl

/-- **Comparison.** Limbs compare as the numbers they stand for. -/
theorem compareTop_eq {xs ys : List (BitVec w)} (h : xs.length = ys.length) :
    compareTop xs ys = compare (value xs) (value ys) := by
  induction xs generalizing ys with
  | nil =>
    cases ys with
    | nil => exact (compare_eq_iff_eq.2 rfl).symm
    | cons y ys => cases h
  | cons x xs ih =>
    cases ys with
    | nil => cases h
    | cons y ys =>
      rw [compareTop, ih (Nat.succ.inj h)]
      exact (compare_digit x.isLt y.isLt).symm

/-- limbs hold less than their range -/
theorem value_lt (xs : List (BitVec w)) : value xs < (2 ^ w) ^ xs.length := by
  induction xs with
  | nil => simp [value]
  | cons x xs ih =>
    have hx := x.isLt
    rw [value, List.length_cons, pow_succ]
    nlinarith

end Limbs

end ZenoFcis.Lib
