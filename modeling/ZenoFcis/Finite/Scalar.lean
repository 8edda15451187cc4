/-
Checked signed arithmetic of the finite profiles (`zeno-fcis-synthesis/src/finite/value/scalar.rs`).

Each operation of the source is given first, on magnitudes and fixed-width intermediates. Over it stands the exact
result: the rational quotient rounded to an integer, and `narrow`, which refuses what does not fit an `i128`.
-/
import ZenoFcis.Finite.Wide
import ZenoFcis.Value.Basic

namespace ZenoFcis.I128

theorem lo_zero : (-2 ^ 127 : ℤ) ≤ 0 := by norm_num

theorem hi_zero : (0 : ℤ) < 2 ^ 127 := by norm_num

theorem lo_one : (-2 ^ 127 : ℤ) ≤ 1 := by norm_num

theorem hi_one : (1 : ℤ) < 2 ^ 127 := by norm_num

theorem hi_min : (-2 ^ 127 : ℤ) < 2 ^ 127 := by norm_num

theorem lo_min : (-2 ^ 127 : ℤ) ≤ -2 ^ 127 := le_rfl

end ZenoFcis.I128

namespace ZenoFcis.Finite

/-- a mathematical result as an `i128`, refused when it does not fit -/
def narrow (z : ℤ) : Option I128 :=
  if h : -2 ^ 127 ≤ z ∧ z < 2 ^ 127 then some ⟨z, h.1, h.2⟩ else none

/-- `i128::checked_add` -/
def checkedAdd (a b : I128) : Option I128 := narrow (a.val + b.val)

/-- `i128::checked_sub` -/
def checkedSub (a b : I128) : Option I128 := narrow (a.val - b.val)

namespace Scalar

/-- `value as u128` for an `i128` that is not negative -/
def asU128 (value : ℤ) : U128 := BitVec.ofInt 128 value

def unsignedMagnitude (value : I128) : U128 :=
  if value.val < 0 then asU128 (-(value.val + 1)) + 1 else asU128 value.val

def signedMagnitude (value : U128) (negative : Bool) : Option I128 :=
  if negative = true ∧ value.toNat = 2 ^ 127 then some ⟨-2 ^ 127, le_rfl, by norm_num⟩
  else if h : 2 ^ 127 - 1 < value.toNat then none
  else if negative then some ⟨-value.toNat, by omega, by omega⟩
  else some ⟨value.toNat, by omega, by omega⟩

/-- `i128::checked_mul` -/
def multiply (a b : I128) : Option I128 := narrow (a.val * b.val)

def divide (up : Bool) (a b : I128) : Option I128 :=
  if b.val = 0 then none
  else
    let x := unsignedMagnitude a
    let y := unsignedMagnitude b
    let negative := decide (a.val < 0) != decide (b.val < 0)
    let q := x / y
    let r := x % y
    (if r ≠ 0 ∧ up ≠ negative then Wide.checkedAdd q 1 else some q).bind fun rounded =>
      signedMagnitude rounded negative

def mulDiv (up : Bool) (a b den : I128) : Option I128 :=
  if a.val < 0 ∨ b.val < 0 ∨ den.val ≤ 0 then none
  else
    (if up then Wide.mulDivCeil (asU128 a.val) (asU128 b.val) (asU128 den.val)
      else Wide.mulDivFloor (asU128 a.val) (asU128 b.val) (asU128 den.val)).bind fun q => signedMagnitude q false

def signedMulDivFloor (a b den : I128) : Option I128 :=
  if den.val ≤ 0 then none
  else
    let negative := decide (a.val < 0) != decide (b.val < 0)
    let x := unsignedMagnitude a
    let y := unsignedMagnitude b
    -- the floor of a negative product is the ceiling of its magnitude
    (if negative then Wide.mulDivCeil x y (asU128 den.val) else Wide.mulDivFloor x y (asU128 den.val)).bind fun q =>
      signedMagnitude q negative

def productsGe (a b c d e f : I128) : Option Bool :=
  if a.val < 0 ∨ b.val < 0 ∨ c.val < 0 ∨ d.val < 0 ∨ e.val < 0 ∨ f.val < 0 then none
  else some (Wide.productsGe (asU128 a.val) (asU128 b.val) (asU128 c.val) (asU128 d.val) (asU128 e.val) (asU128 f.val))

end Scalar

/-! ## Narrowing -/

theorem val_inj {a b : I128} : a.val = b.val ↔ a = b := by
  obtain ⟨x, _, _⟩ := a
  obtain ⟨y, _, _⟩ := b
  rw [I128.mk.injEq]

/-- a number is narrowed to the word of its value -/
theorem narrow_eq_some {z : ℤ} {v : I128} : narrow z = some v ↔ v.val = z := by
  unfold narrow
  split_ifs with h
  · obtain ⟨val, lo, hi⟩ := v
    simp only [Option.some_inj, I128.mk.injEq]
    exact eq_comm
  · refine iff_of_false nofun fun heq => h ?_
    rw [← heq]
    exact ⟨v.lo, v.hi⟩

/-- a number is not narrowed when it is outside the range -/
theorem narrow_eq_none {z : ℤ} : narrow z = none ↔ ¬(-2 ^ 127 ≤ z ∧ z < 2 ^ 127) := by
  unfold narrow
  split_ifs with h
  · exact iff_of_false nofun (not_not.2 h)
  · exact iff_of_true rfl h

/-! ## Exact quotients -/

/-- the exact quotient rounded up or down -/
def roundDiv (up : Bool) (n d : ℤ) : ℤ := if up then ⌈(n : ℚ) / d⌉ else ⌊(n : ℚ) / d⌋

theorem roundDiv_neg_left (up : Bool) (n d : ℤ) : roundDiv up (-n) d = -roundDiv (!up) n d := by
  cases up
  · simp [roundDiv, neg_div, Int.floor_neg]
  · simp [roundDiv, neg_div, Int.ceil_neg]

theorem roundDiv_neg_right (up : Bool) (n d : ℤ) : roundDiv up n (-d) = -roundDiv (!up) n d := by
  cases up
  · simp [roundDiv, div_neg, Int.floor_neg]
  · simp [roundDiv, div_neg, Int.ceil_neg]

theorem roundDiv_natCast (up : Bool) (m : ℕ) {n : ℕ} (hn : 0 < n) :
    roundDiv up m n = ((m / n + if up = true ∧ m % n ≠ 0 then 1 else 0 : ℕ) : ℤ) := by
  cases up with
  | false =>
    rw [roundDiv, if_neg Bool.false_ne_true, if_neg fun h => Bool.false_ne_true h.1]
    exact Rat.floor_natCast_div_natCast m n
  | true =>
    have hceil : roundDiv true m n = -(-(m : ℤ) / n) := Rat.ceil_natCast_div_natCast m n
    rw [hceil, Int.neg_ediv, Int.sign_eq_one_of_pos (Int.natCast_pos.2 hn), neg_sub, sub_neg_eq_add, add_comm]
    by_cases hmod : m % n = 0
    · rw [if_pos (Int.natCast_dvd_natCast.2 (Nat.dvd_of_mod_eq_zero hmod)), if_neg fun h => h.2 hmod]
      rfl
    · rw [if_neg fun h => hmod (Nat.mod_eq_zero_of_dvd (Int.natCast_dvd_natCast.1 h)), if_pos ⟨rfl, hmod⟩]
      rfl

theorem roundDiv_natAbs (up : Bool) (a b : ℤ) :
    roundDiv up a b = if (decide (a < 0) != decide (b < 0)) then -roundDiv (!up) a.natAbs b.natAbs
      else roundDiv up a.natAbs b.natAbs := by
  have habs (x : ℤ) (h : x < 0) : x = -(x.natAbs : ℤ) := by omega
  have hpos (x : ℤ) (h : ¬x < 0) : x = (x.natAbs : ℤ) := by omega
  by_cases ha : a < 0 <;> by_cases hb : b < 0
  · have hsign : (decide (a < 0) != decide (b < 0)) = false := by simp [ha, hb]
    rw [hsign, if_neg Bool.false_ne_true]
    conv_lhs => rw [habs a ha, habs b hb]
    rw [roundDiv_neg_left, roundDiv_neg_right, neg_neg, Bool.not_not]
  · have hsign : (decide (a < 0) != decide (b < 0)) = true := by simp [ha, hb]
    rw [hsign, if_pos rfl]
    conv_lhs => rw [habs a ha, hpos b hb]
    rw [roundDiv_neg_left]
  · have hsign : (decide (a < 0) != decide (b < 0)) = true := by simp [ha, hb]
    rw [hsign, if_pos rfl]
    conv_lhs => rw [hpos a ha, habs b hb]
    rw [roundDiv_neg_right]
  · have hsign : (decide (a < 0) != decide (b < 0)) = false := by simp [ha, hb]
    rw [hsign, if_neg Bool.false_ne_true]
    conv_lhs => rw [hpos a ha, hpos b hb]

/-! ## The operations are exact -/

namespace Scalar

theorem toNat_asU128 {z : ℤ} (hlo : 0 ≤ z) (hhi : z < 2 ^ 127) : (asU128 z).toNat = z.toNat := by
  rw [asU128, BitVec.toNat_ofInt, Int.emod_eq_of_lt hlo (by push_cast; omega)]

theorem toNat_unsignedMagnitude (v : I128) : (unsignedMagnitude v).toNat = v.val.natAbs := by
  have hlo := v.lo
  have hhi := v.hi
  unfold unsignedMagnitude
  split_ifs with h
  · have hsmall : (asU128 (-(v.val + 1))).toNat = (-(v.val + 1)).toNat := toNat_asU128 (by omega) (by omega)
    have hone : (1 : U128).toNat = 1 := rfl
    rw [BitVec.toNat_add_of_lt (by rw [hsmall, hone]; omega), hsmall, hone]
    omega
  · rw [toNat_asU128 (not_lt.1 h) hhi]
    omega

theorem signedMagnitude_eq (value : U128) (negative : Bool) :
    signedMagnitude value negative = narrow (if negative then -(value.toNat : ℤ) else value.toNat) := by
  symm
  unfold signedMagnitude
  cases negative with
  | false =>
    simp only [Bool.false_eq_true, false_and, if_false]
    split_ifs with hlarge
    · exact narrow_eq_none.2 fun h => by omega
    · exact narrow_eq_some.2 rfl
  | true =>
    rw [if_pos rfl]
    split_ifs with hmin hlarge
    · rw [narrow_eq_some, hmin.2]
      rfl
    · exact narrow_eq_none.2 fun h => hmin ⟨rfl, by omega⟩
    · exact narrow_eq_some.2 rfl
    · exact absurd rfl ‹¬true = true›

theorem signed_fit (n : ℕ) (negative : Bool) :
    ((Wide.fit n).bind fun q => signedMagnitude q negative) = narrow (if negative then -(n : ℤ) else n) := by
  cases hfit : Wide.fit n with
  | none =>
    have hle := Wide.fit_eq_none.1 hfit
    rw [Option.bind_none, eq_comm, narrow_eq_none]
    split_ifs <;> omega
  | some q =>
    rw [Option.bind_some, signedMagnitude_eq, Wide.fit_eq_some.1 hfit]

/-- **Exact division.** -/
theorem divide_eq (up : Bool) (a b : I128) :
    divide up a b = if b.val = 0 then none else narrow (roundDiv up a.val b.val) := by
  unfold divide
  by_cases hb : b.val = 0
  · rw [if_pos hb, if_pos hb]
  rw [if_neg hb, if_neg hb, roundDiv_natAbs]
  have hpos : 0 < b.val.natAbs := Int.natAbs_pos.2 hb
  have hx := toNat_unsignedMagnitude a
  have hy := toNat_unsignedMagnitude b
  have hq : (unsignedMagnitude a / unsignedMagnitude b).toNat = a.val.natAbs / b.val.natAbs := by
    rw [BitVec.toNat_udiv, hx, hy]
  have hr : unsignedMagnitude a % unsignedMagnitude b ≠ 0 ↔ a.val.natAbs % b.val.natAbs ≠ 0 := by
    rw [← hx, ← hy, ← BitVec.toNat_umod, not_iff_not]
    exact ⟨fun h => congrArg BitVec.toNat h, fun h => BitVec.eq_of_toNat_eq h⟩
  -- the magnitude is rounded away from zero exactly when the quotient is rounded away from zero
  have hrounded (negative : Bool) : (if unsignedMagnitude a % unsignedMagnitude b ≠ 0 ∧ up ≠ negative
        then Wide.checkedAdd (unsignedMagnitude a / unsignedMagnitude b) 1
        else some (unsignedMagnitude a / unsignedMagnitude b)) =
      Wide.fit (a.val.natAbs / b.val.natAbs +
        if (up != negative) = true ∧ a.val.natAbs % b.val.natAbs ≠ 0 then 1 else 0) := by
    have hone : (1 : U128).toNat = 1 := rfl
    by_cases hround : unsignedMagnitude a % unsignedMagnitude b ≠ 0 ∧ up ≠ negative
    · rw [if_pos hround, if_pos ⟨bne_iff_ne.2 hround.2, hr.1 hround.1⟩, Wide.checkedAdd_eq, hq, hone]
    · rw [if_neg hround, if_neg fun h => hround ⟨hr.2 h.2, bne_iff_ne.1 h.1⟩, Nat.add_zero, eq_comm, Wide.fit_eq_some,
      hq]
  dsimp only
  rw [hrounded, signed_fit]
  generalize (decide (a.val < 0) != decide (b.val < 0)) = negative
  cases negative
  · rw [Bool.bne_false, if_neg Bool.false_ne_true, if_neg Bool.false_ne_true, roundDiv_natCast up _ hpos]
  · rw [Bool.bne_true, if_pos rfl, if_pos rfl, roundDiv_natCast (!up) _ hpos]

theorem ite_fit (up : Bool) {x y d : U128} (hd : d ≠ 0) :
    (if up then Wide.mulDivCeil x y d else Wide.mulDivFloor x y d) =
      Wide.fit (x.toNat * y.toNat / d.toNat + if up = true ∧ x.toNat * y.toNat % d.toNat ≠ 0 then 1 else 0) := by
  cases up
  · rw [if_neg Bool.false_ne_true, if_neg fun h => Bool.false_ne_true h.1, Wide.mulDivFloor_eq hd, Nat.add_zero]
  · rw [if_pos rfl, Wide.mulDivCeil_eq hd]
    simp only [true_and, ite_not]

theorem asU128_ne_zero {z : ℤ} (hlo : 0 < z) (hhi : z < 2 ^ 127) : asU128 z ≠ 0 := fun h => by
  have hzero : (asU128 z).toNat = 0 := congrArg BitVec.toNat h
  rw [toNat_asU128 hlo.le hhi] at hzero
  omega

/-- **Exact scaling.** -/
theorem mulDiv_eq (up : Bool) (a b den : I128) :
    mulDiv up a b den = if a.val < 0 ∨ b.val < 0 ∨ den.val ≤ 0 then none
      else narrow (roundDiv up (a.val * b.val) den.val) := by
  unfold mulDiv
  by_cases hsigns : a.val < 0 ∨ b.val < 0 ∨ den.val ≤ 0
  · rw [if_pos hsigns, if_pos hsigns]
  rw [if_neg hsigns, if_neg hsigns]
  obtain ⟨ha, hb, hden⟩ : 0 ≤ a.val ∧ 0 ≤ b.val ∧ 0 < den.val := by omega
  rw [ite_fit up (asU128_ne_zero hden den.hi), toNat_asU128 ha a.hi, toNat_asU128 hb b.hi, toNat_asU128 hden.le den.hi,
    signed_fit, if_neg Bool.false_ne_true, ← roundDiv_natCast up _ (by omega)]
  push_cast
  rw [Int.toNat_of_nonneg ha, Int.toNat_of_nonneg hb, Int.toNat_of_nonneg hden.le]

/-- **Exact signed scaling.** -/
theorem signedMulDivFloor_eq (a b den : I128) :
    signedMulDivFloor a b den = if den.val ≤ 0 then none else narrow (roundDiv false (a.val * b.val) den.val) := by
  unfold signedMulDivFloor
  by_cases hden : den.val ≤ 0
  · rw [if_pos hden, if_pos hden]
  rw [if_neg hden, if_neg hden]
  have hpos : 0 < den.val := not_le.1 hden
  have hd := toNat_asU128 hpos.le den.hi
  have hcast : (den.val.toNat : ℤ) = den.val := Int.toNat_of_nonneg hpos.le
  have hproduct : a.val * b.val = if (decide (a.val < 0) != decide (b.val < 0)) then
      -((a.val.natAbs * b.val.natAbs : ℕ) : ℤ) else ((a.val.natAbs * b.val.natAbs : ℕ) : ℤ) := by
    push_cast
    by_cases ha : a.val < 0 <;> by_cases hb : b.val < 0 <;>
      simp [ha, hb, abs_of_neg, abs_of_nonneg, not_lt.1]
  dsimp only
  rw [hproduct, ite_fit _ (asU128_ne_zero hpos den.hi), toNat_unsignedMagnitude, toNat_unsignedMagnitude, hd,
    signed_fit]
  generalize (decide (a.val < 0) != decide (b.val < 0)) = negative
  cases negative
  · rw [if_neg Bool.false_ne_true, if_neg Bool.false_ne_true, ← roundDiv_natCast false _ (by omega), hcast]
  · rw [if_pos rfl, if_pos rfl, ← roundDiv_natCast true _ (by omega), hcast, roundDiv_neg_left, Bool.not_false]

/-- **Exact comparison.** -/
theorem productsGe_eq (a b c d e f : I128) :
    productsGe a b c d e f =
      if a.val < 0 ∨ b.val < 0 ∨ c.val < 0 ∨ d.val < 0 ∨ e.val < 0 ∨ f.val < 0 then none
      else some (decide (d.val * e.val * f.val ≤ a.val * b.val * c.val)) := by
  unfold productsGe
  refine ite_congr rfl (fun _ => rfl) fun h => congrArg some ?_
  obtain ⟨ha, hb, hc, hd, he, hf⟩ :
      0 ≤ a.val ∧ 0 ≤ b.val ∧ 0 ≤ c.val ∧ 0 ≤ d.val ∧ 0 ≤ e.val ∧ 0 ≤ f.val := by omega
  rw [Bool.eq_iff_iff, Wide.productsGe_iff, decide_eq_true_eq, toNat_asU128 ha a.hi, toNat_asU128 hb b.hi,
    toNat_asU128 hc c.hi, toNat_asU128 hd d.hi, toNat_asU128 he e.hi, toNat_asU128 hf f.hi, ← Int.ofNat_le]
  push_cast
  rw [Int.toNat_of_nonneg ha, Int.toNat_of_nonneg hb, Int.toNat_of_nonneg hc, Int.toNat_of_nonneg hd,
    Int.toNat_of_nonneg he, Int.toNat_of_nonneg hf]

end Scalar

end ZenoFcis.Finite
