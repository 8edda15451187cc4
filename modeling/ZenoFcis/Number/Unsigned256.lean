/-
Unsigned 256-bit division with one final rounding (`profile2/arithmetic256.rs`). `fit` is the exact rational quotient,
rounded once and then narrowed; every operation is compared with it.
- `checkedDiv_eq`, `mulDiv_eq`, `mul3Div_eq`: the rounded quotient of the whole product;
- `mulAddDivRem_eq`, `mulDivHalfUp_eq`: quotient and remainder with an offset, and the nearest quotient.
-/
import ZenoFcis.Number.Words

namespace ZenoFcis.Number

open Lib Lib.Except

/-- a rational quotient rounded once; `exact` refuses what is no integer -/
def Rounding.round (mode : Rounding) (x : ℚ) : Except Failure ℤ :=
  match mode with
  | .floor => .ok ⌊x⌋
  | .ceil => .ok ⌈x⌉
  | .exact => if (⌊x⌋ : ℚ) = x then .ok ⌊x⌋ else .error .inexact

/-- the rounded quotient when it lies in a range; a quotient of 257 bits is refused before it is rounded -/
def fit (low high : ℤ) (mode : Rounding) (x : ℚ) : Except Failure ℤ :=
  if 2 ^ 256 ≤ |x| then .error .overflow
  else do
    let q ← mode.round x
    ensure (low ≤ q ∧ q < high) .overflow
    return q

/-- a quotient of natural numbers as an unsigned 256-bit integer -/
def unsignedQuotient (mode : Rounding) (n d : ℕ) : Except Failure ℤ :=
  if d = 0 then .error .zeroDivisor else fit 0 (2 ^ 256) mode (n / d)

/-! ## The operations -/

/-- `narrow`: the words above the second one must be zero -/
def narrow {n : ℕ} (a : Words (2 + n)) : Except Failure U256 := do
  ensure (∀ x ∈ a.words.drop 2, x = 0) .overflow
  return ⟨a.words.take 2, by
    rw [List.length_take, a.length_eq]
    omega⟩

/-- `from_u256` -/
def fromU256 (n : ℕ) (x : U256) : Words (2 + n) :=
  ⟨x.words ++ List.replicate n 0, by rw [List.length_append, x.length_eq, List.length_replicate]⟩

namespace U256

def zero : U256 := Words.zero 2

def one : U256 := ⟨[1, 0], rfl⟩

def checkedSub (a b : U256) : Except Failure U256 :=
  if (Words.subtract a b).2 = true then .error .overflow else .ok (Words.subtract a b).1

def checkedAdd (a b : U256) : Except Failure U256 :=
  if (Words.add a b).2 = true then .error .overflow else .ok (Words.add a b).1

def fullProduct (a b : U256) : Except Failure U512 := Words.multiply 4 a b

def rounded (q : U256) (remainder : Bool) (mode : Rounding) : Except Failure U256 :=
  match mode, remainder with
  | .exact, true => .error .inexact
  | .ceil, true => checkedAdd q one
  | _, _ => .ok q

def divRem (a den : U256) : Except Failure (U256 × U256) := Words.divide a den

def checkedDiv (a den : U256) (mode : Rounding) : Except Failure U256 := do
  let out ← divRem a den
  rounded out.1 (decide (out.2 ≠ zero)) mode

end U256

/-- `U512::checked_add` -/
def U512.checkedAdd (a b : U512) : Except Failure U512 :=
  if (Words.add a b).2 = true then .error .overflow else .ok (Words.add a b).1

/-- `U512::multiply_u256` -/
def U512.multiplyU256 (a : U512) (b : U256) : Except Failure U768 := Words.multiply 6 a b

namespace U256

def mulAddDivRem (a b offset den : U256) : Except Failure (U256 × U256) := do
  ensure (den ≠ zero) .zeroDivisor
  let product ← fullProduct a b
  let numerator ← U512.checkedAdd product (fromU256 2 offset)
  let out ← Words.divide numerator (fromU256 2 den)
  return (← narrow (n := 2) out.1, ← narrow (n := 2) out.2)

def mulDiv (a b den : U256) (mode : Rounding) : Except Failure U256 := do
  let out ← mulAddDivRem a b zero den
  rounded out.1 (decide (out.2 ≠ zero)) mode

/-- `[den[0] >> 1 | (den[1] << 127), den[1] >> 1]` -/
def half (den : U256) : U256 :=
  ⟨[den.words.getD 0 0 >>> 1 ||| den.words.getD 1 0 <<< 127, den.words.getD 1 0 >>> 1], rfl⟩

def mulDivHalfUp (a b den : U256) : Except Failure U256 := do
  let out ← mulAddDivRem a b (half den) den
  return out.1

def mul3Div (a b c den : U256) (mode : Rounding) : Except Failure U256 := do
  ensure (den ≠ zero) .zeroDivisor
  let product ← fullProduct a b
  let numerator ← U512.multiplyU256 product c
  let out ← Words.divide numerator (fromU256 4 den)
  let q ← narrow (n := 4) out.1
  rounded q (decide (out.2 ≠ Words.zero 6)) mode

end U256

/-! ## Numbers of an operation -/

theorem bound_two : Words.bound 2 = 2 ^ 256 := by decide

/-- a wide number is narrowed where it fits -/
theorem narrow_eq {n : ℕ} (a : Words (2 + n)) :
    narrow a = if a.val < 2 ^ 256 then .ok (Words.ofNat 2 a.val) else .error .overflow := by
  have happend := Limbs.value_append (a.words.take 2) (a.words.drop 2)
  have htake : (a.words.take 2).length = 2 := by
    rw [List.length_take, a.length_eq]
    omega
  have hlow := Limbs.value_lt (a.words.take 2)
  rw [List.take_append_drop, htake] at happend
  rw [htake] at hlow
  change a.val = _ at happend
  have hpow : ((2 : ℕ) ^ 128) ^ 2 = 2 ^ 256 := by decide
  rw [hpow] at hlow happend
  unfold narrow
  by_cases hzero : Limbs.value (a.words.drop 2) = 0
  · rw [hzero, mul_zero, add_zero] at happend
    rw [ensure_bind (Limbs.value_eq_zero.1 hzero), if_pos (happend ▸ hlow)]
    refine congrArg Except.ok (Words.val_inj ?_)
    rw [Words.val_ofNat (bound_two ▸ happend ▸ hlow)]
    exact happend.symm
  · have hone := Nat.mul_le_mul_left (2 ^ 256) (Nat.pos_of_ne_zero hzero)
    rw [ensure, if_neg (mt Limbs.value_eq_zero.2 hzero), if_neg (by omega)]
    rfl

theorem fromU256_val (n : ℕ) (x : U256) : (fromU256 n x).val = x.val := by
  have happend := Limbs.value_append x.words (List.replicate n 0)
  rw [Limbs.value_zeros, mul_zero, add_zero] at happend
  exact happend

namespace U256

theorem val_lt (x : U256) : x.val < 2 ^ 256 := bound_two ▸ Words.val_lt x

@[simp] theorem zero_val : Words.val zero = 0 := Words.val_zero 2

theorem one_val : Words.val one = 1 := by decide

theorem ne_zero_iff {x : U256} : x ≠ zero ↔ x.val ≠ 0 := not_congr Words.eq_zero_iff

/-- **Addition.** A checked sum is exact or overflows -/
theorem checkedAdd_eq (a b : U256) :
    checkedAdd a b = if a.val + b.val < 2 ^ 256 then .ok (Words.ofNat 2 (a.val + b.val)) else .error .overflow := by
  have h := Words.add_val a b
  have hlt := Words.val_lt (Words.add a b).1
  rw [bound_two] at h hlt
  unfold checkedAdd
  cases hcarry : (Words.add a b).2 with
  | true =>
    rw [hcarry, Bool.toNat_true, mul_one] at h
    rw [if_pos rfl, if_neg (by omega)]
  | false =>
    rw [hcarry, Bool.toNat_false, mul_zero, add_zero] at h
    rw [if_neg (by decide), if_pos (by omega)]
    exact congrArg Except.ok (Words.val_inj (h.trans (Words.val_ofNat (by rw [bound_two]; omega)).symm))

theorem half_val (den : U256) : (half den).val = den.val / 2 := by
  obtain ⟨low, high, hwords⟩ := List.length_eq_two.1 den.length_eq
  have hlow := low.isLt
  have hhigh := high.isLt
  have hval : den.val = low.toNat + 2 ^ 128 * high.toNat := by
    rw [Words.val, hwords]
    simp [Limbs.value]
  have hright : (low >>> 1).toNat = low.toNat / 2 := by
    rw [BitVec.toNat_ushiftRight, Nat.shiftRight_eq_div_pow, pow_one]
  have hleft : (high <<< 127).toNat = 2 ^ 127 * (high.toNat % 2) := by
    have htop : (2 : ℕ) ^ 128 = 2 ^ 127 * 2 := pow_succ 2 127
    rw [BitVec.toNat_shiftLeft, Nat.shiftLeft_eq, Nat.mul_comm, htop, Nat.mul_mod_mul_left]
  have hor : (low >>> 1 ||| high <<< 127).toNat = low.toNat / 2 + 2 ^ 127 * (high.toNat % 2) := by
    rw [BitVec.toNat_or, hright, hleft, Nat.or_comm, ← Nat.two_pow_add_eq_or_of_lt (by omega), add_comm]
  have htop : (high >>> 1).toNat = high.toNat / 2 := by
    rw [BitVec.toNat_ushiftRight, Nat.shiftRight_eq_div_pow, pow_one]
  have hfirst : den.words.getD 0 0 = low := by rw [hwords, List.getD_cons_zero]
  have hsecond : den.words.getD 1 0 = high := by rw [hwords, List.getD_cons_succ, List.getD_cons_zero]
  have hhalf : (half den).val = (low >>> 1 ||| high <<< 127).toNat + 2 ^ 128 * (high >>> 1).toNat := by
    rw [half, Words.val, Limbs.value, Limbs.value, Limbs.value, hfirst, hsecond, Nat.mul_zero, Nat.add_zero]
  rw [hhalf, hor, htop, hval]
  omega

end U256

/-! ## Rounded quotients -/

section Quotient

variable {n d : ℕ}

theorem quotient_split (hd : 0 < d) : (n / d : ℚ) = (n / d : ℕ) + (n % d : ℕ) / d := by
  have hne : (d : ℚ) ≠ 0 := Nat.cast_ne_zero.2 hd.ne'
  have hsplit : (n : ℚ) = (d : ℚ) * (n / d : ℕ) + (n % d : ℕ) := by
    exact_mod_cast (Nat.div_add_mod n d).symm
  rw [div_eq_iff hne]
  conv_lhs => rw [hsplit]
  field_simp

theorem fraction_lt (hd : 0 < d) : ((n % d : ℕ) : ℚ) / d < 1 := by
  rw [div_lt_one (Nat.cast_pos.2 hd)]
  exact_mod_cast Nat.mod_lt n hd

theorem fraction_pos (hd : 0 < d) (h : n % d ≠ 0) : 0 < ((n % d : ℕ) : ℚ) / d :=
  div_pos (Nat.cast_pos.2 (Nat.pos_of_ne_zero h)) (Nat.cast_pos.2 hd)

theorem floor_quotient (n d : ℕ) : ⌊(n / d : ℚ)⌋ = ((n / d : ℕ) : ℤ) := by
  rw [Rat.floor_natCast_div_natCast, Int.natCast_div]

theorem ceil_whole (hd : 0 < d) (h : n % d = 0) : ⌈(n / d : ℚ)⌉ = ((n / d : ℕ) : ℤ) := by
  rw [quotient_split hd, h, Nat.cast_zero, zero_div, add_zero, Int.ceil_natCast]

theorem ceil_above (hd : 0 < d) (h : n % d ≠ 0) : ⌈(n / d : ℚ)⌉ = ((n / d : ℕ) : ℤ) + 1 := by
  have hlt := fraction_lt (n := n) hd
  have hpos := fraction_pos hd h
  rw [quotient_split hd, Int.ceil_eq_iff, Int.cast_add, Int.cast_natCast, Int.cast_one]
  constructor
  · linarith
  · linarith

theorem whole_iff (hd : 0 < d) : ((⌊(n / d : ℚ)⌋ : ℤ) : ℚ) = n / d ↔ n % d = 0 := by
  rw [floor_quotient, quotient_split hd, Int.cast_natCast]
  constructor
  · intro h
    by_contra hne
    have hpos := fraction_pos hd hne
    linarith
  · intro h
    rw [h, Nat.cast_zero, zero_div, add_zero]

theorem large_iff (hd : 0 < d) (b : ℕ) : (b : ℚ) ≤ |(n / d : ℚ)| ↔ b ≤ n / d := by
  have hnonneg : (0 : ℚ) ≤ n / d := div_nonneg (Nat.cast_nonneg n) (Nat.cast_nonneg d)
  rw [abs_of_nonneg hnonneg, le_div_iff₀ (Nat.cast_pos.2 hd), Nat.le_div_iff_mul_le hd]
  exact_mod_cast Iff.rfl

theorem fit_large (hd : 0 < d) {low high : ℤ} {mode : Rounding} (h : 2 ^ 256 ≤ n / d) :
    fit low high mode (n / d) = .error .overflow := by
  have hlarge := (large_iff hd (2 ^ 256)).2 h
  push_cast at hlarge
  exact if_pos hlarge

theorem fit_small (hd : 0 < d) {low high : ℤ} {mode : Rounding} (h : n / d < 2 ^ 256) :
    fit low high mode (n / d) = (do
      let q ← mode.round (n / d)
      ensure (low ≤ q ∧ q < high) .overflow
      return q) := by
  have hlarge := mt (large_iff hd (2 ^ 256)).1 (not_le.2 h)
  push_cast at hlarge
  exact if_neg hlarge

end Quotient

namespace U256

/-- the number of a result -/
def numbers (x : Except Failure U256) : Except Failure ℤ := x.map fun q => (q.val : ℤ)

/-- **One rounding.** A quotient rounded by its remainder is the rational quotient rounded once. -/
theorem rounded_fit {q : U256} {n d : ℕ} {remainder : Bool} (mode : Rounding) (hd : 0 < d) (hq : q.val = n / d)
    (hremainder : remainder = decide (n % d ≠ 0)) : numbers (rounded q remainder mode) = fit 0 (2 ^ 256) mode (n / d) := by
  have hlt := val_lt q
  rw [hq] at hlt
  have hrange : (0 : ℤ) ≤ ((n / d : ℕ) : ℤ) ∧ ((n / d : ℕ) : ℤ) < 2 ^ 256 :=
    ⟨Int.natCast_nonneg _, by exact_mod_cast hlt⟩
  have hkeep : numbers (.ok q) = (ensure ((0 : ℤ) ≤ ((n / d : ℕ) : ℤ) ∧ ((n / d : ℕ) : ℤ) < 2 ^ 256) .overflow >>=
      fun _ => .ok ((n / d : ℕ) : ℤ)) := by
    rw [ensure_bind hrange]
    exact congrArg (fun k : ℕ => (Except.ok (k : ℤ) : Except Failure ℤ)) hq
  rw [fit_small hd hlt, hremainder]
  by_cases hzero : n % d = 0
  · rw [decide_eq_false (not_not.2 hzero)]
    cases mode with
    | floor => rw [Rounding.round, floor_quotient, ok_bind]; exact hkeep
    | ceil => rw [Rounding.round, ceil_whole hd hzero, ok_bind]; exact hkeep
    | exact => rw [Rounding.round, if_pos ((whole_iff hd).2 hzero), floor_quotient, ok_bind]; exact hkeep
  · rw [decide_eq_true hzero]
    cases mode with
    | floor => rw [Rounding.round, floor_quotient, ok_bind]; exact hkeep
    | ceil =>
      rw [Rounding.round, ceil_above hd hzero, ok_bind, rounded, checkedAdd_eq, one_val, hq]
      by_cases hroom : n / d + 1 < 2 ^ 256
      · have hrange' : (0 : ℤ) ≤ ((n / d : ℕ) : ℤ) + 1 ∧ ((n / d : ℕ) : ℤ) + 1 < 2 ^ 256 :=
          ⟨by omega, by exact_mod_cast hroom⟩
        rw [if_pos hroom, ensure_bind hrange']
        have hval := Words.val_ofNat (n := 2) (bound_two ▸ hroom)
        exact congrArg Except.ok (by push_cast [hval]; rfl)
      · have hrange' : ¬ ((0 : ℤ) ≤ ((n / d : ℕ) : ℤ) + 1 ∧ ((n / d : ℕ) : ℤ) + 1 < 2 ^ 256) := by
          intro h
          exact hroom (by exact_mod_cast h.2)
        rw [if_neg hroom, ensure, if_neg hrange']
        rfl
    | exact =>
      rw [Rounding.round, if_neg (mt (whole_iff hd).1 hzero)]
      rfl

/-! ## The operations -/

/-- **Division.** -/
theorem checkedDiv_eq (a den : U256) (mode : Rounding) :
    numbers (checkedDiv a den mode) = unsignedQuotient mode a.val den.val := by
  unfold checkedDiv divRem unsignedQuotient
  rw [Words.divide_eq]
  by_cases hd : den.val = 0
  · rw [if_pos hd, if_pos hd]
    rfl
  · have hquotient : (Words.ofNat 2 (a.val / den.val)).val = a.val / den.val :=
      Words.val_ofNat ((Nat.div_le_self _ _).trans_lt a.val_lt)
    have hremainder : (Words.ofNat 2 (a.val % den.val)).val = a.val % den.val :=
      Words.val_ofNat ((Nat.mod_le _ _).trans_lt a.val_lt)
    rw [if_neg hd, if_neg hd, ok_bind]
    refine rounded_fit mode (Nat.pos_of_ne_zero hd) hquotient ?_
    exact decide_eq_decide.2 (ne_zero_iff.trans (by rw [hremainder]))

/-- a full product is exact -/
theorem fullProduct_eq (a b : U256) : fullProduct a b = .ok (Words.ofNat 4 (a.val * b.val)) :=
  Words.multiply_eq (by decide) a b

theorem product_lt (a b : U256) : a.val * b.val < Words.bound 4 :=
  (Nat.mul_lt_mul'' (val_lt a) (val_lt b)).trans_eq (by decide)

/-- **Quotient and remainder with an offset.** -/
theorem mulAddDivRem_eq (a b offset den : U256) : mulAddDivRem a b offset den =
    if den.val = 0 then .error .zeroDivisor
    else if (a.val * b.val + offset.val) / den.val < 2 ^ 256 then
      .ok (Words.ofNat 2 ((a.val * b.val + offset.val) / den.val),
        Words.ofNat 2 ((a.val * b.val + offset.val) % den.val))
    else .error .overflow := by
  have hproduct := product_lt a b
  have hnumerator : a.val * b.val + offset.val < Words.bound 4 := by
    have ha := val_lt a
    have hb := val_lt b
    have ho := val_lt offset
    have hle : a.val * b.val ≤ (2 ^ 256 - 1) * (2 ^ 256 - 1) := Nat.mul_le_mul (by omega) (by omega)
    have hroom : (2 ^ 256 - 1) * (2 ^ 256 - 1) + 2 ^ 256 ≤ Words.bound 4 := by decide
    omega
  have hadd : U512.checkedAdd (Words.ofNat 4 (a.val * b.val)) (fromU256 2 offset) =
      .ok (Words.ofNat 4 (a.val * b.val + offset.val)) := by
    have h := Words.add_val (Words.ofNat 4 (a.val * b.val)) (fromU256 2 offset)
    rw [Words.val_ofNat hproduct, fromU256_val] at h
    unfold U512.checkedAdd
    cases hcarry : (Words.add (Words.ofNat 4 (a.val * b.val)) (fromU256 2 offset)).2 with
    | true =>
      rw [hcarry, Bool.toNat_true, mul_one] at h
      have hfull : Words.bound 4 ≤ a.val * b.val + offset.val := h ▸ Nat.le_add_left _ _
      exact absurd hfull (not_le.2 hnumerator)
    | false =>
      rw [hcarry, Bool.toNat_false, mul_zero, add_zero] at h
      rw [if_neg (by decide)]
      exact congrArg Except.ok (Words.val_inj (h.trans (Words.val_ofNat hnumerator).symm))
  unfold mulAddDivRem
  by_cases hd : den.val = 0
  · rw [if_pos hd, ensure, if_neg (mt ne_zero_iff.1 (not_not.2 hd))]
    rfl
  · have hpos := Nat.pos_of_ne_zero hd
    set numerator := a.val * b.val + offset.val
    have hquotient : (Words.ofNat 4 (numerator / den.val)).val = numerator / den.val :=
      Words.val_ofNat ((Nat.div_le_self _ _).trans_lt hnumerator)
    have hremainder : (Words.ofNat 4 (numerator % den.val)).val = numerator % den.val :=
      Words.val_ofNat ((Nat.mod_le _ _).trans_lt hnumerator)
    have hsmall : numerator % den.val < 2 ^ 256 := (Nat.mod_lt _ hpos).trans (val_lt den)
    have hdivide := Words.divide_eq (Words.ofNat 4 numerator) (fromU256 2 den)
    rw [Words.val_ofNat hnumerator, fromU256_val, if_neg hd] at hdivide
    rw [if_neg hd, ensure_bind (ne_zero_iff.2 hd), fullProduct_eq, ok_bind, hadd, ok_bind, hdivide, ok_bind,
      narrow_eq (n := 2), narrow_eq (n := 2), hquotient, hremainder, if_pos hsmall]
    by_cases hfits : numerator / den.val < 2 ^ 256
    · rw [if_pos hfits, if_pos hfits]
      rfl
    · rw [if_neg hfits, if_neg hfits]
      rfl

/-- **Product and quotient.** -/
theorem mulDiv_eq (a b den : U256) (mode : Rounding) :
    numbers (mulDiv a b den mode) = unsignedQuotient mode (a.val * b.val) den.val := by
  unfold mulDiv unsignedQuotient
  rw [mulAddDivRem_eq, zero_val, add_zero]
  by_cases hd : den.val = 0
  · rw [if_pos hd, if_pos hd]
    rfl
  · have hpos := Nat.pos_of_ne_zero hd
    rw [if_neg hd, if_neg hd]
    by_cases hfits : a.val * b.val / den.val < 2 ^ 256
    · have hsmall : a.val * b.val % den.val < 2 ^ 256 := (Nat.mod_lt _ hpos).trans (val_lt den)
      rw [if_pos hfits, ok_bind]
      refine rounded_fit mode hpos (Words.val_ofNat (bound_two ▸ hfits)) ?_
      refine decide_eq_decide.2 (ne_zero_iff.trans ?_)
      rw [Words.val_ofNat (bound_two ▸ hsmall)]
    · rw [if_neg hfits, fit_large hpos (not_lt.1 hfits)]
      rfl

/-- **Three factors.** -/
theorem mul3Div_eq (a b c den : U256) (mode : Rounding) :
    numbers (mul3Div a b c den mode) = unsignedQuotient mode (a.val * b.val * c.val) den.val := by
  have hproduct := product_lt a b
  have hnumerator : a.val * b.val * c.val < Words.bound 6 :=
    (Nat.mul_lt_mul'' hproduct (val_lt c)).trans_eq (by decide)
  unfold mul3Div unsignedQuotient
  by_cases hd : den.val = 0
  · rw [if_pos hd, ensure, if_neg (mt ne_zero_iff.1 (not_not.2 hd))]
    rfl
  · have hpos := Nat.pos_of_ne_zero hd
    have htriple : U512.multiplyU256 (Words.ofNat 4 (a.val * b.val)) c = .ok (Words.ofNat 6 (a.val * b.val * c.val)) := by
      have h := @Words.multiply_eq 4 2 6 (by decide) (Words.ofNat 4 (a.val * b.val)) c
      rw [Words.val_ofNat hproduct] at h
      exact h
    have hdivide := Words.divide_eq (Words.ofNat 6 (a.val * b.val * c.val)) (fromU256 4 den)
    rw [Words.val_ofNat hnumerator, fromU256_val, if_neg hd] at hdivide
    set numerator := a.val * b.val * c.val
    have hquotient : (Words.ofNat 6 (numerator / den.val)).val = numerator / den.val :=
      Words.val_ofNat ((Nat.div_le_self _ _).trans_lt hnumerator)
    have hremainder : (Words.ofNat 6 (numerator % den.val)).val = numerator % den.val :=
      Words.val_ofNat ((Nat.mod_le _ _).trans_lt hnumerator)
    rw [if_neg hd, ensure_bind (ne_zero_iff.2 hd), fullProduct_eq, ok_bind, htriple, ok_bind, hdivide, ok_bind,
      narrow_eq (n := 4), hquotient]
    by_cases hfits : numerator / den.val < 2 ^ 256
    · rw [if_pos hfits, ok_bind]
      refine rounded_fit mode hpos (Words.val_ofNat (bound_two ▸ hfits)) ?_
      refine decide_eq_decide.2 ((not_congr Words.eq_zero_iff).trans ?_)
      rw [hremainder]
    · rw [if_neg hfits, fit_large hpos (not_lt.1 hfits)]
      rfl

theorem floor_half (n : ℕ) {d : ℕ} (hd : 0 < d) : ⌊(n / d : ℚ) + 1 / 2⌋ = (((n + d / 2) / d : ℕ) : ℤ) := by
  have hne : (d : ℚ) ≠ 0 := Nat.cast_ne_zero.2 hd.ne'
  have hsum : (n / d : ℚ) + 1 / 2 = ((2 * n + d : ℕ) : ℚ) / ((2 * d : ℕ) : ℚ) := by
    push_cast
    field_simp
  have hhalf : (2 * n + d) / (2 * d) = (n + d / 2) / d := by
    rw [← Nat.div_div_eq_div_mul]
    congr 1
    omega
  rw [hsum, floor_quotient, hhalf]

/-- **Half up.** -/
theorem mulDivHalfUp_eq (a b den : U256) : numbers (mulDivHalfUp a b den) =
    if den.val = 0 then .error .zeroDivisor
    else if ⌊((a.val * b.val : ℕ) / den.val : ℚ) + 1 / 2⌋ < 2 ^ 256 then
      .ok ⌊((a.val * b.val : ℕ) / den.val : ℚ) + 1 / 2⌋
    else .error .overflow := by
  unfold mulDivHalfUp
  rw [mulAddDivRem_eq, half_val]
  by_cases hd : den.val = 0
  · rw [if_pos hd, if_pos hd]
    rfl
  · rw [if_neg hd, if_neg hd, floor_half _ (Nat.pos_of_ne_zero hd)]
    by_cases hfits : (a.val * b.val + den.val / 2) / den.val < 2 ^ 256
    · rw [if_pos hfits, if_pos (by exact_mod_cast hfits), ok_bind]
      have hval := Words.val_ofNat (n := 2) (bound_two ▸ hfits)
      exact congrArg (fun k : ℕ => (Except.ok (k : ℤ) : Except Failure ℤ)) hval
    · rw [if_neg hfits, if_neg (by exact_mod_cast hfits)]
      rfl

end U256

end ZenoFcis.Number
