/-
Exact fixed-width intermediates of the finite profiles (`zeno-fcis-synthesis/src/finite/value/wide.rs`): two-limb and
three-limb products of `u128` operands, and the quotient search over them.

`multiply` and `multiplyThree` lose no bit, so `productsGe` compares the products as natural numbers and
`mulDivFloor` and `mulDivCeil` are the quotients of the whole product, refused exactly when they do not fit.
-/
import Mathlib.Tactic

namespace ZenoFcis.Finite

/-- `u128` -/
abbrev U128 := BitVec 128

namespace Wide

def radix : U128 := 18446744073709551616

/-- the product of two operands, least significant limb first -/
def multiply (a b : U128) : U128 × U128 :=
  let a0 := a % radix
  let a1 := a / radix
  let b0 := b % radix
  let b1 := b / radix
  let p00 := a0 * b0
  let p01 := a0 * b1
  let p10 := a1 * b0
  let p11 := a1 * b1
  let middle := p00 / radix + p01 % radix + p10 % radix
  let high := p11 + p01 / radix + p10 / radix + middle / radix
  let low := p00 % radix + (middle % radix) * radix
  (low, high)

/-- the middle limb of `multiplyThree` and its carry -/
def middleCarry (low high : U128) : U128 × U128 :=
  let room := BitVec.allOnes 128 - high
  if low > room then (low - room - 1, 1) else (low + high, 0)

/-- the product of three operands, least significant limb first -/
def multiplyThree (a b c : U128) : U128 × U128 × U128 :=
  let first := multiply a b
  let low := multiply first.1 c
  let high := multiply first.2 c
  let middle := middleCarry low.2 high.1
  (low.1, middle.1, high.2 + middle.2)

def lessEqual (left right : U128 × U128) : Bool :=
  if left.2 = right.2 then decide (left.1 ≤ right.1) else decide (left.2 < right.2)

def productsGe (a b c d e f : U128) : Bool :=
  let left := multiplyThree a b c
  let right := multiplyThree d e f
  if left.2.2 ≠ right.2.2 then decide (left.2.2 > right.2.2)
  else if left.2.1 ≠ right.2.1 then decide (left.2.1 > right.2.1)
  else decide (left.1 ≥ right.1)

/-- the rounds of the quotient search, from the highest bit down -/
def floorLoop (product : U128 × U128) (den : U128) : ℕ → U128 → U128 → U128
  | 0, quotient, _ => quotient
  | remaining + 1, quotient, bit =>
    let trial := quotient + bit
    floorLoop product den remaining (if lessEqual (multiply trial den) product then trial else quotient)
      (if remaining > 0 then bit / 2 else bit)

def mulDivFloor (a b den : U128) : Option U128 :=
  if den = 0 then none
  else
    let product := multiply a b
    if product.2 ≥ den then none
    else some (floorLoop product den 128 0 170141183460469231731687303715884105728)

/-- `u128::checked_add` -/
def checkedAdd (a b : U128) : Option U128 :=
  if a.toNat + b.toNat < 2 ^ 128 then some (a + b) else none

def mulDivCeil (a b den : U128) : Option U128 := do
  let quotient ← mulDivFloor a b den
  let product := multiply a b
  let floorProduct := multiply quotient den
  if product.1 = floorProduct.1 ∧ product.2 = floorProduct.2 then some quotient else checkedAdd quotient 1

/-! ## Limbs -/

/-- the number that two limbs stand for -/
def number2 (v : U128 × U128) : ℕ := v.2.toNat * 2 ^ 128 + v.1.toNat

/-- the number that three limbs stand for -/
def number3 (v : U128 × U128 × U128) : ℕ := v.2.2.toNat * 2 ^ 256 + v.2.1.toNat * 2 ^ 128 + v.1.toNat

theorem number2_inj {v w : U128 × U128} (h : number2 v = number2 w) : v = w := by
  have hv := v.1.isLt
  have hw := w.1.isLt
  unfold number2 at h
  exact Prod.ext (BitVec.eq_of_toNat_eq (by omega)) (BitVec.eq_of_toNat_eq (by omega))

/-- the digits of an operand to the base `2 ^ 64` -/
theorem limbs (a : U128) : (a % radix).toNat < 2 ^ 64 ∧ (a / radix).toNat < 2 ^ 64 ∧
    a.toNat = (a / radix).toNat * 2 ^ 64 + (a % radix).toNat := by
  have hlt := a.isLt
  have hr : radix.toNat = 2 ^ 64 := rfl
  rw [BitVec.toNat_umod, BitVec.toNat_udiv, hr]
  omega

theorem digit_mul {x y : U128} (hx : x.toNat < 2 ^ 64) (hy : y.toNat < 2 ^ 64) :
    (x * y).toNat = x.toNat * y.toNat ∧ (x * y).toNat ≤ (2 ^ 64 - 1) * (2 ^ 64 - 1) := by
  have hle : x.toNat * y.toNat ≤ (2 ^ 64 - 1) * (2 ^ 64 - 1) := Nat.mul_le_mul (by omega) (by omega)
  have heq : (x * y).toNat = x.toNat * y.toNat := BitVec.toNat_mul_of_lt (lt_of_le_of_lt hle (by norm_num))
  exact ⟨heq, heq ▸ hle⟩

theorem columns {p00 p01 p10 p11 : U128} (h00 : p00.toNat ≤ (2 ^ 64 - 1) * (2 ^ 64 - 1))
    (h01 : p01.toNat ≤ (2 ^ 64 - 1) * (2 ^ 64 - 1)) (h10 : p10.toNat ≤ (2 ^ 64 - 1) * (2 ^ 64 - 1))
    (h11 : p11.toNat ≤ (2 ^ 64 - 1) * (2 ^ 64 - 1)) :
    let middle := p00 / radix + p01 % radix + p10 % radix
    number2 (p00 % radix + (middle % radix) * radix, p11 + p01 / radix + p10 / radix + middle / radix) =
      p11.toNat * 2 ^ 128 + (p01.toNat + p10.toNat) * 2 ^ 64 + p00.toNat := by
  intro middle
  have hd (p : U128) : (p / radix).toNat = p.toNat / 2 ^ 64 := BitVec.toNat_udiv
  have hm (p : U128) : (p % radix).toNat = p.toNat % 2 ^ 64 := BitVec.toNat_umod
  have hpair : (p00 / radix + p01 % radix).toNat = p00.toNat / 2 ^ 64 + p01.toNat % 2 ^ 64 := by
    rw [BitVec.toNat_add_of_lt (by rw [hd, hm]; omega), hd, hm]
  have hmiddle : middle.toNat = p00.toNat / 2 ^ 64 + p01.toNat % 2 ^ 64 + p10.toNat % 2 ^ 64 := by
    rw [BitVec.toNat_add_of_lt (by rw [hpair, hm]; omega), hpair, hm]
  have h₁ : (p11 + p01 / radix).toNat = p11.toNat + p01.toNat / 2 ^ 64 := by
    rw [BitVec.toNat_add_of_lt (by rw [hd]; omega), hd]
  have h₂ : (p11 + p01 / radix + p10 / radix).toNat = p11.toNat + p01.toNat / 2 ^ 64 + p10.toNat / 2 ^ 64 := by
    rw [BitVec.toNat_add_of_lt (by rw [h₁, hd]; omega), h₁, hd]
  have hhigh : (p11 + p01 / radix + p10 / radix + middle / radix).toNat =
      p11.toNat + p01.toNat / 2 ^ 64 + p10.toNat / 2 ^ 64 + middle.toNat / 2 ^ 64 := by
    rw [BitVec.toNat_add_of_lt (by rw [h₂, hd]; omega), h₂, hd]
  have hshift : (middle % radix * radix).toNat = middle.toNat % 2 ^ 64 * 2 ^ 64 := by
    have hr : radix.toNat = 2 ^ 64 := rfl
    rw [BitVec.toNat_mul_of_lt (by rw [hm, hr]; omega), hm, hr]
  have hlow : (p00 % radix + middle % radix * radix).toNat =
      p00.toNat % 2 ^ 64 + middle.toNat % 2 ^ 64 * 2 ^ 64 := by
    rw [BitVec.toNat_add_of_lt (by rw [hshift, hm]; omega), hshift, hm]
  rw [number2, hhigh, hlow]
  omega

/-- **Exact products.** Two limbs hold the whole product. -/
theorem number2_multiply (a b : U128) : number2 (multiply a b) = a.toNat * b.toNat := by
  obtain ⟨ha0, ha1, ha⟩ := limbs a
  obtain ⟨hb0, hb1, hb⟩ := limbs b
  obtain ⟨h00, hle00⟩ := digit_mul ha0 hb0
  obtain ⟨h01, hle01⟩ := digit_mul ha0 hb1
  obtain ⟨h10, hle10⟩ := digit_mul ha1 hb0
  obtain ⟨h11, hle11⟩ := digit_mul ha1 hb1
  rw [multiply, columns hle00 hle01 hle10 hle11, h00, h01, h10, h11, ha, hb]
  ring

theorem middleCarry_pos {x y : U128} (h : x > BitVec.allOnes 128 - y) :
    middleCarry x y = (x - (BitVec.allOnes 128 - y) - 1, 1) := if_pos h
theorem middleCarry_neg {x y : U128} (h : ¬ x > BitVec.allOnes 128 - y) :
    middleCarry x y = (x + y, 0) := if_neg h
theorem middleCarry_spec (x y : U128) :
    (middleCarry x y).2.toNat ≤ 1 ∧
      (middleCarry x y).2.toNat * 2 ^ 128 + (middleCarry x y).1.toNat = x.toNat + y.toNat := by
  have hx := x.isLt
  have hy := y.isLt
  have hones : (BitVec.allOnes 128).toNat = 2 ^ 128 - 1 := BitVec.toNat_allOnes
  have hroom : (BitVec.allOnes 128 - y).toNat + y.toNat = 2 ^ 128 - 1 := by
    rw [BitVec.toNat_sub_of_le (BitVec.le_def.2 (by omega)), hones]
    omega
  by_cases hcarry : x > BitVec.allOnes 128 - y
  · have hlt := BitVec.lt_def.1 hcarry
    have hone : (1 : U128).toNat = 1 := rfl
    have hsub : (x - (BitVec.allOnes 128 - y)).toNat = x.toNat - (BitVec.allOnes 128 - y).toNat :=
      BitVec.toNat_sub_of_le (BitVec.le_def.2 hlt.le)
    have hmiddle : (x - (BitVec.allOnes 128 - y) - 1).toNat = x.toNat - (BitVec.allOnes 128 - y).toNat - 1 := by
      rw [BitVec.toNat_sub_of_le (BitVec.le_def.2 (by rw [hsub, hone]; omega)), hsub, hone]
    rw [middleCarry_pos hcarry, hmiddle, hone]
    omega
  · have hle : x.toNat ≤ (BitVec.allOnes 128 - y).toNat := not_lt.1 fun h => hcarry (BitVec.lt_def.2 h)
    have hadd : (x + y).toNat = x.toNat + y.toNat := BitVec.toNat_add_of_lt (by omega)
    have hzero : (0 : U128).toNat = 0 := rfl
    rw [middleCarry_neg hcarry, hadd, hzero]
    omega

theorem number3_columns {first low high pair : U128 × U128} {c : U128}
    (hlow : number2 low = first.1.toNat * c.toNat) (hhigh : number2 high = first.2.toNat * c.toNat)
    (hcarry : pair.2.toNat ≤ 1) (hsum : pair.2.toNat * 2 ^ 128 + pair.1.toNat = low.2.toNat + high.1.toNat) :
    number3 (low.1, pair.1, high.2 + pair.2) = number2 first * c.toNat := by
  -- the top limb is below its maximum, so that it takes the carry
  have htop : high.2.toNat + 1 < 2 ^ 128 := by
    have hle : first.2.toNat * c.toNat ≤ (2 ^ 128 - 1) * (2 ^ 128 - 1) :=
      Nat.mul_le_mul (Nat.le_pred_of_lt first.2.isLt) (Nat.le_pred_of_lt c.isLt)
    rw [← hhigh, number2] at hle
    omega
  have hadd : (high.2 + pair.2).toNat = high.2.toNat + pair.2.toNat := BitVec.toNat_add_of_lt (by omega)
  rw [number3, hadd]
  calc (high.2.toNat + pair.2.toNat) * 2 ^ 256 + pair.1.toNat * 2 ^ 128 + low.1.toNat
      = high.2.toNat * 2 ^ 256 + (pair.2.toNat * 2 ^ 128 + pair.1.toNat) * 2 ^ 128 + low.1.toNat := by ring
    _ = number2 high * 2 ^ 128 + number2 low := by rw [hsum, number2, number2]; ring
    _ = number2 first * c.toNat := by rw [hhigh, hlow, number2]; ring

/-- a product of three words is exact -/
theorem number3_multiplyThree (a b c : U128) : number3 (multiplyThree a b c) = a.toNat * b.toNat * c.toNat := by
  obtain ⟨hcarry, hsum⟩ := middleCarry_spec (multiply (multiply a b).1 c).2 (multiply (multiply a b).2 c).1
  calc number3 (multiplyThree a b c)
      = number2 (multiply a b) * c.toNat :=
        number3_columns (number2_multiply _ _) (number2_multiply _ _) hcarry hsum
    _ = a.toNat * b.toNat * c.toNat := by rw [number2_multiply]

/-! ## Comparisons -/

theorem lessEqual_iff (v w : U128 × U128) : lessEqual v w = true ↔ number2 v ≤ number2 w := by
  have hv := v.1.isLt
  have hw := w.1.isLt
  unfold lessEqual number2
  split_ifs with h
  · rw [h, decide_eq_true_eq, BitVec.le_def]
    omega
  · have hne : v.2.toNat ≠ w.2.toNat := fun heq => h (BitVec.eq_of_toNat_eq heq)
    rw [decide_eq_true_eq, BitVec.lt_def]
    omega

/-- **Exact comparison.** `productsGe` compares the whole products. -/
theorem productsGe_iff (a b c d e f : U128) :
    productsGe a b c d e f = true ↔ d.toNat * e.toNat * f.toNat ≤ a.toNat * b.toNat * c.toNat := by
  rw [← number3_multiplyThree a b c, ← number3_multiplyThree d e f]
  unfold productsGe
  generalize multiplyThree a b c = v
  generalize multiplyThree d e f = w
  have hv := v.1.isLt
  have hv' := v.2.1.isLt
  have hw := w.1.isLt
  have hw' := w.2.1.isLt
  simp only [number3]
  split_ifs with htop hmiddle
  · have hne : v.2.2.toNat ≠ w.2.2.toNat := fun heq => htop (BitVec.eq_of_toNat_eq heq)
    rw [decide_eq_true_eq, gt_iff_lt, BitVec.lt_def]
    omega
  · have hne : v.2.1.toNat ≠ w.2.1.toNat := fun heq => hmiddle (BitVec.eq_of_toNat_eq heq)
    rw [not_not] at htop
    rw [htop, decide_eq_true_eq, gt_iff_lt, BitVec.lt_def]
    omega
  · rw [not_not] at htop hmiddle
    rw [htop, hmiddle, decide_eq_true_eq, ge_iff_le, BitVec.le_def]
    omega

/-! ## Quotients -/

theorem floorLoop_spec {product : U128 × U128} {den : U128} {remaining : ℕ} {quotient bit : U128}
    (hbit : ∀ n, remaining = n + 1 → bit.toNat = 2 ^ n) (hfits : quotient.toNat + 2 ^ remaining ≤ 2 ^ 128)
    (hlow : quotient.toNat * den.toNat ≤ number2 product)
    (hhigh : number2 product < (quotient.toNat + 2 ^ remaining) * den.toNat) :
    (floorLoop product den remaining quotient bit).toNat = number2 product / den.toNat := by
  induction remaining generalizing quotient bit with
  | zero => exact (Nat.div_eq_of_lt_le hlow (by simpa using hhigh)).symm
  | succ n ih =>
    have hbit := hbit n rfl
    have hpow : 0 < 2 ^ n := Nat.two_pow_pos n
    rw [pow_succ] at hfits hhigh
    have htrial : (quotient + bit).toNat = quotient.toNat + 2 ^ n := by
      rw [BitVec.toNat_add_of_lt (by omega), hbit]
    have hnext (m : ℕ) (h : n = m + 1) : (if n > 0 then bit / 2 else bit).toNat = 2 ^ m := by
      rw [if_pos (by omega), BitVec.toNat_udiv, hbit, h, pow_succ]
      exact Nat.mul_div_cancel _ (by decide)
    rw [floorLoop]
    by_cases hle : lessEqual (multiply (quotient + bit) den) product = true
    · have hle' := (lessEqual_iff _ _).1 hle
      rw [number2_multiply, htrial] at hle'
      rw [if_pos hle]
      refine ih hnext (by omega) (htrial ▸ hle') ?_
      rw [htrial]
      exact lt_of_lt_of_eq hhigh (by ring)
    · have hlt := not_le.1 fun h => hle ((lessEqual_iff _ _).2 h)
      rw [number2_multiply, htrial] at hlt
      rw [if_neg hle]
      exact ih hnext (by omega) hlow hlt

/-- a natural number as an operand, refused when it does not fit -/
def fit (n : ℕ) : Option U128 :=
  if n < 2 ^ 128 then some (BitVec.ofNat 128 n) else none

/-- a number fits the word of its value -/
theorem fit_eq_some {n : ℕ} {q : U128} : fit n = some q ↔ q.toNat = n := by
  unfold fit
  split_ifs with h
  · rw [Option.some_inj, BitVec.toNat_eq, BitVec.toNat_ofNat, Nat.mod_eq_of_lt h, eq_comm]
  · have hq := q.isLt
    refine iff_of_false nofun fun heq => h ?_
    rwa [← heq]

/-- a number that does not fit is 2 ^ 128 or more -/
theorem fit_eq_none {n : ℕ} : fit n = none ↔ 2 ^ 128 ≤ n := by
  unfold fit
  split_ifs with h
  · exact iff_of_false nofun (not_le.2 h)
  · exact iff_of_true rfl (not_lt.1 h)

/-- a checked sum is the sum that fits -/
theorem checkedAdd_eq (a b : U128) : checkedAdd a b = fit (a.toNat + b.toNat) := by
  unfold checkedAdd fit
  refine if_congr Iff.rfl (congrArg some (BitVec.eq_of_toNat_eq ?_)) rfl
  rw [BitVec.toNat_add, BitVec.toNat_ofNat]

theorem search_eq {product : U128 × U128} {den : U128} (hden : den ≠ 0) :
    (if product.2 ≥ den then none else some (floorLoop product den 128 0 170141183460469231731687303715884105728)) =
      fit (number2 product / den.toNat) := by
  have hpos : 0 < den.toNat := Nat.pos_of_ne_zero fun h => hden (BitVec.eq_of_toNat_eq h)
  have hlow := product.1.isLt
  by_cases hhigh : product.2 ≥ den
  · -- the high limb alone is as large as the denominator
    have hle : den.toNat * 2 ^ 128 ≤ number2 product :=
      le_trans (Nat.mul_le_mul_right _ (BitVec.le_def.1 hhigh)) (Nat.le_add_right _ _)
    rw [if_pos hhigh, eq_comm, fit_eq_none, Nat.le_div_iff_mul_le hpos, mul_comm]
    exact hle
  · have hlt : number2 product < 2 ^ 128 * den.toNat := by
      have hsucc : product.2.toNat + 1 ≤ den.toNat := BitVec.lt_def.1 (BitVec.not_le.1 hhigh)
      calc product.2.toNat * 2 ^ 128 + product.1.toNat
          < (product.2.toNat + 1) * 2 ^ 128 := by rw [Nat.succ_mul]; exact Nat.add_lt_add_left hlow _
        _ ≤ den.toNat * 2 ^ 128 := Nat.mul_le_mul_right _ hsucc
        _ = 2 ^ 128 * den.toNat := mul_comm _ _
    have hbit (n : ℕ) (h : 128 = n + 1) : (170141183460469231731687303715884105728 : U128).toNat = 2 ^ n := by
      have hn : n = 127 := by omega
      rw [hn]
      rfl
    have hzero : (0 : U128).toNat = 0 := rfl
    rw [if_neg hhigh, eq_comm, fit_eq_some]
    exact @floorLoop_spec product den 128 0 _ hbit (by rw [hzero, Nat.zero_add])
      (by rw [hzero, Nat.zero_mul]; exact Nat.zero_le _) (by rwa [hzero, Nat.zero_add])

/-- **Exact floor.** The floor of the whole product over the denominator, refused when it does not fit. -/
theorem mulDivFloor_eq {a b den : U128} (hden : den ≠ 0) :
    mulDivFloor a b den = fit (a.toNat * b.toNat / den.toNat) := by
  rw [mulDivFloor, if_neg hden, ← number2_multiply]
  exact search_eq hden

/-- **Exact ceiling.** The ceiling of the whole product over the denominator, refused when it does not fit. -/
theorem mulDivCeil_eq {a b den : U128} (hden : den ≠ 0) :
    mulDivCeil a b den =
      fit (a.toNat * b.toNat / den.toNat + if a.toNat * b.toNat % den.toNat = 0 then 0 else 1) := by
  have hproduct := number2_multiply a b
  rw [mulDivCeil, mulDivFloor_eq hden]
  cases hfloor : fit (a.toNat * b.toNat / den.toNat) with
  | none =>
    have hle := fit_eq_none.1 hfloor
    rw [eq_comm, Option.bind_eq_bind, Option.bind_none, fit_eq_none]
    exact le_trans hle (Nat.le_add_right _ _)
  | some quotient =>
    have hquotient : quotient.toNat = a.toNat * b.toNat / den.toNat := fit_eq_some.1 hfloor
    have hback := number2_multiply quotient den
    have hdivision := Nat.div_add_mod (a.toNat * b.toNat) den.toNat
    rw [← hquotient, Nat.mul_comm] at hdivision
    -- the two limbs agree exactly when nothing remains
    have hexact : (multiply a b).1 = (multiply quotient den).1 ∧ (multiply a b).2 = (multiply quotient den).2 ↔
        a.toNat * b.toNat % den.toNat = 0 := by
      rw [← Prod.ext_iff]
      constructor
      · intro heq
        rw [← heq, hproduct] at hback
        omega
      · intro hmod
        refine number2_inj ?_
        rw [hproduct, hback]
        omega
    rw [Option.bind_eq_bind, Option.bind_some, ← hquotient]
    dsimp only
    by_cases hmod : a.toNat * b.toNat % den.toNat = 0
    · rw [if_pos (hexact.2 hmod), if_pos hmod, Nat.add_zero, eq_comm, fit_eq_some]
    · have hone : (1 : U128).toNat = 1 := rfl
      rw [if_neg (mt hexact.1 hmod), if_neg hmod, checkedAdd_eq, hone]

end Wide

end ZenoFcis.Finite
