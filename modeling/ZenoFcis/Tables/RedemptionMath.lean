/-
The arithmetic of the redemption tables (`tables/redemption.rs`): the floor of a three-factor product over a
denominator, and the decay of the base rate by repeated squaring with products that round to nearest. Results:
- `result_mul3div`: the exact floor, refused exactly when the denominator is zero or the floor has no place;
- `result_decay`: the decay of a rate is the floor of its product with the rounded power of the decay factor;
- `redemption_arithmetic_exact`: both, with the bound and the monotonicity of the decay.
-/
import ZenoFcis.Lib.RoundedPower
import ZenoFcis.Tables.Redemption

namespace ZenoFcis.Tables

open Lib Lib.Except Lib.Metered ZenoFcis.Finite
open Oracle (Resource failIf failIf_eq)

/-! ## The three-factor quotient -/

/-- the lower middle of an interval -/
def lowerMiddle (lo hi : U128) : U128 := lo + (hi - lo) / 2

/-- the upper middle of an interval -/
def upperMiddle (lo hi : U128) : U128 := lo + (hi - lo) / 2 + (hi - lo) % 2

variable {lo hi a b c d : U128}

theorem lowerMiddle_toNat (h : lo ≤ hi) : (lowerMiddle lo hi).toNat = (lo.toNat + hi.toNat) / 2 := by
  have hle := BitVec.le_def.1 h
  have hlo := lo.isLt
  have hhi := hi.isLt
  have htwo : (2 : U128).toNat = 2 := rfl
  have hdelta : (hi - lo).toNat = hi.toNat - lo.toNat := BitVec.toNat_sub_of_le h
  have hhalf : ((hi - lo) / 2).toNat = (hi.toNat - lo.toNat) / 2 := by
    rw [BitVec.toNat_udiv, hdelta, htwo]
  unfold lowerMiddle
  rw [BitVec.toNat_add_of_lt (by rw [hhalf]; omega), hhalf]
  omega

theorem upperMiddle_toNat (h : lo ≤ hi) : (upperMiddle lo hi).toNat = (lo.toNat + hi.toNat + 1) / 2 := by
  have hle := BitVec.le_def.1 h
  have hlo := lo.isLt
  have hhi := hi.isLt
  have htwo : (2 : U128).toNat = 2 := rfl
  have hdelta : (hi - lo).toNat = hi.toNat - lo.toNat := BitVec.toNat_sub_of_le h
  have hlower := lowerMiddle_toNat h
  have hparity : ((hi - lo) % 2).toNat = (hi.toNat - lo.toNat) % 2 := by
    rw [BitVec.toNat_umod, hdelta, htwo]
  change (lowerMiddle lo hi + (hi - lo) % 2).toNat = _
  rw [BitVec.toNat_add_of_lt (by rw [hlower, hparity]; omega), hlower, hparity]
  omega

/-- `2 ^ 127` -/
def HALF_RANGE : U128 := 170141183460469231731687303715884105728

/-- the search of the upper half, which keeps `lo` a lower bound -/
def searchUpper (a b c d lo hi : U128) : Work U128 :=
  if h : lo < hi then do
    charge .step 128
    if Wide.productsGe a b c d (upperMiddle lo hi) 1 then searchUpper a b c d (upperMiddle lo hi) hi
    else searchUpper a b c d lo (upperMiddle lo hi - 1)
  else pure lo
termination_by hi.toNat - lo.toNat
decreasing_by
  · have hmiddle := upperMiddle_toNat (BitVec.le_of_lt h)
    have hlt := BitVec.lt_def.1 h
    omega
  · have hmiddle := upperMiddle_toNat (BitVec.le_of_lt h)
    have hlt := BitVec.lt_def.1 h
    have hone : (1 : U128).toNat = 1 := rfl
    rw [BitVec.toNat_sub_of_le (BitVec.le_def.2 (by rw [hone]; omega)), hone]
    omega

/-- the search of the lower half, which keeps `hi` too large -/
def searchLower (a b c d lo hi : U128) : Work U128 :=
  if h : lo ≤ hi ∧ 1 < hi - lo then do
    charge .step 128
    if Wide.productsGe a b c d (lowerMiddle lo hi) 1 then searchLower a b c d (lowerMiddle lo hi) hi
    else searchLower a b c d lo (lowerMiddle lo hi)
  else pure lo
termination_by hi.toNat - lo.toNat
decreasing_by
  · have hmiddle := lowerMiddle_toNat h.1
    have hlt := BitVec.lt_def.1 h.2
    have hone : (1 : U128).toNat = 1 := rfl
    rw [BitVec.toNat_sub_of_le h.1] at hlt
    omega
  · have hmiddle := lowerMiddle_toNat h.1
    have hlt := BitVec.lt_def.1 h.2
    have hone : (1 : U128).toNat = 1 := rfl
    rw [BitVec.toNat_sub_of_le h.1] at hlt
    omega

def mul3div (a b c d : U128) : Work U128 := do
  failIf (d = 0) .arithmetic
  charge .step 128
  charge .byte 68
  if Wide.productsGe a b c d HALF_RANGE 1 then
    charge .step 128
    let product := Wide.multiplyThree a b c
    failIf (product.2.2 ≠ 0 ∨ d ≤ product.2.1) .arithmetic
    searchUpper a b c d HALF_RANGE (BitVec.allOnes 128)
  else searchLower a b c d 0 HALF_RANGE

/-! ## The decay -/

def DECAY : U128 := 999037758833783000

/-- `x / 2` of the unit, where rounding turns up -/
def HALF : U128 := 500000000000000000

/-- the product rounded to nearest, half up -/
def decmul (a b : U128) : Work U128 := do
  let floor ← muldiv a b Q
  charge .step 128
  charge .byte 34
  let product := Wide.multiply a b
  failIf (product.2 ≠ 0) .arithmetic
  add floor (if HALF ≤ product.1 % Q then 1 else 0)

/-- the loop of repeated squaring -/
def decayLoop (n : ℕ) (x y : U128) : Work (U128 × U128) :=
  if h : 1 < n then do
    step
    if n % 2 = 0 then
      let x ← decmul x x
      decayLoop (n / 2) x y
    else
      let y ← decmul x y
      let x ← decmul x x
      decayLoop ((n - 1) / 2) x y
  else pure (x, y)
termination_by n
decreasing_by all_goals omega

def decay (base : U128) (minutes : UInt64) : Work U128 := do
  let n := min minutes.toNat 525600000
  if n = 0 then pure base
  else
    let (x, y) ← decayLoop n DECAY Q
    let factor ← decmul x y
    muldiv base factor Q

/-! ## The quotient is exact -/

theorem productsGe_one (a b c d mid : U128) :
    Wide.productsGe a b c d mid 1 = true ↔ d.toNat * mid.toNat ≤ a.toNat * b.toNat * c.toNat := by
  have hone : (1 : U128).toNat = 1 := rfl
  rw [Wide.productsGe_iff, hone, mul_one]

theorem searchUpper_spec {k : ℕ}
    (hk : ∀ mid : U128, d.toNat * mid.toNat ≤ a.toNat * b.toNat * c.toNat ↔ mid.toNat ≤ k)
    (hlo : lo.toNat ≤ k) (hhi : k ≤ hi.toNat) : ∃ q, (searchUpper a b c d lo hi).result = .ok q ∧ q.toNat = k := by
  induction hn : hi.toNat - lo.toNat using Nat.strong_induction_on generalizing lo hi with
  | h n ih =>
    subst hn
    rw [searchUpper]
    by_cases h : lo < hi
    · have hmiddle := upperMiddle_toNat (BitVec.le_of_lt h)
      have hlt := BitVec.lt_def.1 h
      simp only [dif_pos h, result_bind, result_charge, ok_bind, result_ite, productsGe_one, hk]
      by_cases hmid : (upperMiddle lo hi).toNat ≤ k
      · rw [if_pos hmid]
        exact ih _ (by omega) hmid hhi rfl
      · have hone : (1 : U128).toNat = 1 := rfl
        have hpred : (upperMiddle lo hi - 1).toNat = (upperMiddle lo hi).toNat - 1 := by
          rw [BitVec.toNat_sub_of_le (BitVec.le_def.2 (by rw [hone]; omega)), hone]
        rw [if_neg hmid]
        exact ih _ (by omega) hlo (by omega) rfl
    · have hle : hi.toNat ≤ lo.toNat := BitVec.le_def.1 (BitVec.not_lt.1 h)
      rw [dif_neg h]
      exact ⟨lo, rfl, by omega⟩

theorem searchLower_spec {k : ℕ}
    (hk : ∀ mid : U128, d.toNat * mid.toNat ≤ a.toNat * b.toNat * c.toNat ↔ mid.toNat ≤ k)
    (hlo : lo.toNat ≤ k) (hhi : k < hi.toNat) : ∃ q, (searchLower a b c d lo hi).result = .ok q ∧ q.toNat = k := by
  induction hn : hi.toNat - lo.toNat using Nat.strong_induction_on generalizing lo hi with
  | h n ih =>
    subst hn
    have hle : lo ≤ hi := BitVec.le_def.2 (by omega)
    have hdelta : (hi - lo).toNat = hi.toNat - lo.toNat := BitVec.toNat_sub_of_le hle
    have hmiddle := lowerMiddle_toNat hle
    have hone : (1 : U128).toNat = 1 := rfl
    rw [searchLower]
    by_cases h : lo ≤ hi ∧ 1 < hi - lo
    · have hlt := BitVec.lt_def.1 h.2
      simp only [dif_pos h, result_bind, result_charge, ok_bind, result_ite, productsGe_one, hk]
      by_cases hmid : (lowerMiddle lo hi).toNat ≤ k
      · rw [if_pos hmid]
        exact ih _ (by omega) hmid hhi rfl
      · rw [if_neg hmid]
        exact ih _ (by omega) hlo (not_le.1 hmid) rfl
    · have hstop : ¬ (1 : U128) < hi - lo := fun hlt => h ⟨hle, hlt⟩
      rw [BitVec.lt_def, hdelta, hone] at hstop
      rw [dif_neg h]
      exact ⟨lo, rfl, by omega⟩

/-- a floor that has to fit -/
def floorOf (n d : ℕ) : Except Failure U128 :=
  if d ≠ 0 ∧ n / d < 2 ^ 128 then .ok (BitVec.ofNat 128 (n / d)) else .error .arithmetic

theorem floorOf_ok {n d : ℕ} {q : U128} (hd : d ≠ 0) (hq : q.toNat = n / d) : floorOf n d = .ok q := by
  have hlt := q.isLt
  rw [floorOf, if_pos ⟨hd, by omega⟩]
  refine congrArg Except.ok (BitVec.eq_of_toNat_eq ?_)
  rw [BitVec.toNat_ofNat, ← hq, Nat.mod_eq_of_lt hlt]

theorem overflow_iff (v : U128 × U128 × U128) (hd : 0 < d.toNat) :
    v.2.2 ≠ 0 ∨ d ≤ v.2.1 ↔ 2 ^ 128 ≤ Wide.number3 v / d.toNat := by
  have hlow := v.1.isLt
  have hmid := v.2.1.isLt
  have hdlt := d.isLt
  have hzero : v.2.2 = 0 ↔ v.2.2.toNat = 0 := by
    rw [← BitVec.toNat_inj]
    rfl
  rw [Nat.le_div_iff_mul_le hd, Wide.number3, BitVec.le_def, Ne, hzero]
  constructor
  · intro h
    rcases h with htop | hle
    · have hone := Nat.mul_le_mul_right (2 ^ 256) (Nat.pos_of_ne_zero htop)
      have hprod := Nat.mul_le_mul_left (2 ^ 128) hdlt.le
      have hpow : (2 : ℕ) ^ 128 * 2 ^ 128 = 2 ^ 256 := by decide
      omega
    · omega
  · intro h
    by_contra hnone
    rw [not_or, not_not, not_le] at hnone
    rw [hnone.1] at h
    omega

/-- **The three-factor quotient.** The floor of the whole product, refused when there is none in 128 bits. -/
theorem result_mul3div (a b c d : U128) :
    (mul3div a b c d).result = floorOf (a.toNat * b.toNat * c.toNat) d.toNat := by
  rw [mul3div, result_bind, failIf_eq]
  by_cases hd : d = 0
  · have hzero : d.toNat = 0 := congrArg BitVec.toNat hd
    rw [floorOf, if_neg (fun h : d.toNat ≠ 0 ∧ _ => h.1 hzero), ensure, if_neg (not_not.2 hd), error_bind]
  · have hne : d.toNat ≠ 0 := fun h => hd (BitVec.eq_of_toNat_eq h)
    have hpos := Nat.pos_of_ne_zero hne
    have hmid (mid : U128) : d.toNat * mid.toNat ≤ a.toNat * b.toNat * c.toNat ↔
        mid.toNat ≤ a.toNat * b.toNat * c.toNat / d.toNat := by
      rw [mul_comm, Nat.le_div_iff_mul_le hpos]
    rw [ensure_bind hd, result_bind, result_charge, ok_bind, result_bind, result_charge, ok_bind]
    by_cases hupper : Wide.productsGe a b c d HALF_RANGE 1 = true
    · rw [if_pos hupper, result_bind, result_charge, ok_bind, result_bind, failIf_eq]
      have hover := overflow_iff (Wide.multiplyThree a b c) hpos
      rw [Wide.number3_multiplyThree] at hover
      by_cases hfits : (Wide.multiplyThree a b c).2.2 ≠ 0 ∨ d ≤ (Wide.multiplyThree a b c).2.1
      · rw [floorOf, if_neg (fun h => absurd (hover.1 hfits) (not_le.2 h.2)), ensure, if_neg (not_not.2 hfits),
          error_bind]
      · rw [ensure_bind hfits]
        have hmax : (BitVec.allOnes 128).toNat = 2 ^ 128 - 1 := rfl
        have hlt := not_le.1 (mt hover.2 hfits)
        have hhigh : a.toNat * b.toNat * c.toNat / d.toNat ≤ (BitVec.allOnes 128).toNat := by
          rw [hmax]
          omega
        obtain ⟨q, hq, hval⟩ := searchUpper_spec hmid ((hmid _).1 ((productsGe_one _ _ _ _ _).1 hupper)) hhigh
        rw [hq, floorOf_ok hne hval]
    · have hlt : ¬ HALF_RANGE.toNat ≤ a.toNat * b.toNat * c.toNat / d.toNat :=
        fun h => hupper ((productsGe_one _ _ _ _ _).2 ((hmid _).2 h))
      have hlow : (0 : U128).toNat ≤ a.toNat * b.toNat * c.toNat / d.toNat := Nat.zero_le _
      obtain ⟨q, hq, hval⟩ := searchLower_spec hmid hlow (not_le.1 hlt)
      rw [if_neg hupper, hq, floorOf_ok hne hval]

/-! ## The decay is a rounded power -/

theorem HALF_pos : 0 < HALF.toNat := by decide

theorem Q_toNat : Q.toNat = 2 * HALF.toNat := rfl

/-- rates at most the unit, multiplied with rounding to nearest -/
def rates : RoundedProduct ℕ := .nearest HALF.toNat HALF_pos

theorem rates_one : rates.one = Q.toNat := Q_toNat.symm

theorem rates_mul_le {a b : ℕ} (ha : a ≤ Q.toNat) (hb : b ≤ Q.toNat) : rates.mul a b ≤ Q.toNat := by
  rw [Q_toNat] at *
  exact RoundedProduct.nearest_mul_le ha hb

theorem rates_mul (a b : ℕ) :
    a * b / Q.toNat + (if HALF.toNat ≤ a * b % Q.toNat then 1 else 0) = rates.mul a b := by
  rw [Q_toNat]
  exact (RoundedProduct.nearest_mul a b).symm

theorem add_fit (h : a.toNat + b.toNat < 2 ^ 128) :
    (add a b).result = .ok (BitVec.ofNat 128 (a.toNat + b.toNat)) := by
  rw [add, result_bind, result_step, ok_bind, Wide.checkedAdd_eq, Wide.fit, if_pos h, result_okOr_some]

theorem muldiv_rate (ha : a.toNat * b.toNat / Q.toNat < 2 ^ 128) :
    (muldiv a b Q).result = .ok (BitVec.ofNat 128 (a.toNat * b.toNat / Q.toNat)) := by
  have hQ : Q ≠ 0 := by decide
  rw [muldiv, result_bind, result_charge, ok_bind, result_bind, result_charge, ok_bind, result_bind, failIf_eq,
    ensure_bind hQ, Wide.mulDivFloor_eq hQ, Wide.fit, if_pos ha, result_okOr_some]

theorem multiply_rates (ha : a.toNat ≤ Q.toNat) (hb : b.toNat ≤ Q.toNat) :
    (Wide.multiply a b).2 = 0 ∧ (Wide.multiply a b).1.toNat = a.toNat * b.toNat := by
  have hproduct := Wide.number2_multiply a b
  have hlow := (Wide.multiply a b).1.isLt
  have hsmall : a.toNat * b.toNat < 2 ^ 128 := (Nat.mul_le_mul ha hb).trans_lt (by decide)
  rw [Wide.number2] at hproduct
  have hhigh : (Wide.multiply a b).2.toNat = 0 := by omega
  exact ⟨BitVec.eq_of_toNat_eq hhigh, by omega⟩

/-- **Rounded products.** A product of rates is rounded to nearest and is a rate. -/
theorem result_decmul (ha : a.toNat ≤ Q.toNat) (hb : b.toNat ≤ Q.toNat) :
    ∃ c : U128, (decmul a b).result = .ok c ∧ c.toNat = rates.mul a.toNat b.toNat := by
  obtain ⟨hhigh, hlow⟩ := multiply_rates ha hb
  have hsmall : a.toNat * b.toNat ≤ Q.toNat * Q.toNat := Nat.mul_le_mul ha hb
  have hfloor : a.toNat * b.toNat / Q.toNat < 2 ^ 128 := (Nat.div_le_of_le_mul hsmall).trans_lt Q.isLt
  have hround : (if HALF ≤ (Wide.multiply a b).1 % Q then (1 : U128) else 0).toNat =
      if HALF.toNat ≤ a.toNat * b.toNat % Q.toNat then 1 else 0 := by
    have hiff : HALF ≤ (Wide.multiply a b).1 % Q ↔ HALF.toNat ≤ a.toNat * b.toNat % Q.toNat := by
      rw [BitVec.le_def, BitVec.toNat_umod, hlow]
    simp only [hiff]
    split_ifs <;> rfl
  have hfloorNat : (BitVec.ofNat 128 (a.toNat * b.toNat / Q.toNat)).toNat = a.toNat * b.toNat / Q.toNat := by
    rw [BitVec.toNat_ofNat, Nat.mod_eq_of_lt hfloor]
  have hplace : rates.mul a.toNat b.toNat < 2 ^ 128 := (rates_mul_le ha hb).trans_lt Q.isLt
  have hsum : (BitVec.ofNat 128 (a.toNat * b.toNat / Q.toNat)).toNat +
      (if HALF ≤ (Wide.multiply a b).1 % Q then (1 : U128) else 0).toNat = rates.mul a.toNat b.toNat := by
    rw [hfloorNat, hround, rates_mul]
  refine ⟨BitVec.ofNat 128 (rates.mul a.toNat b.toNat), ?_, ?_⟩
  · rw [decmul, result_bind, muldiv_rate hfloor, ok_bind, result_bind, result_charge, ok_bind, result_bind, result_charge,
      ok_bind, result_bind, failIf_eq, ensure_bind (not_not.2 hhigh), add_fit (by rw [hsum]; exact hplace), hsum]
  · rw [BitVec.toNat_ofNat, Nat.mod_eq_of_lt hplace]

theorem decayLoop_spec {n : ℕ} (hn : n ≠ 0) {x y : U128} (hx : x.toNat ≤ Q.toNat) (hy : y.toNat ≤ Q.toNat) :
    ∃ x' y', (decayLoop n x y).result = .ok (x', y') ∧ x'.toNat ≤ Q.toNat ∧ y'.toNat ≤ Q.toNat ∧
      rates.mul x'.toNat y'.toNat = rates.power x.toNat n y.toNat := by
  induction n using Nat.strong_induction_on generalizing x y with
  | h n ih =>
    rw [decayLoop]
    by_cases h : 1 < n
    · obtain ⟨square, hsquare, hsquareNat⟩ := result_decmul hx hx
      have hsquareLe : square.toNat ≤ Q.toNat := hsquareNat ▸ rates_mul_le hx hx
      rw [dif_pos h, result_bind, result_step, ok_bind, rates.power_half, rates.sq_eq]
      by_cases heven : n % 2 = 0
      · obtain ⟨x', y', hloop, hrest⟩ := ih (n / 2) (by omega) (by omega) hsquareLe hy
        rw [if_pos heven, if_pos heven, result_bind, hsquare, ok_bind]
        refine ⟨x', y', hloop, ?_⟩
        rw [hsquareNat] at hrest
        exact hrest
      · obtain ⟨product, hproduct, hproductNat⟩ := result_decmul hx hy
        have hhalf : (n - 1) / 2 = n / 2 := by omega
        obtain ⟨x', y', hloop, hrest⟩ := ih (n / 2) (by omega) (by omega) hsquareLe
          (hproductNat ▸ rates_mul_le hx hy : product.toNat ≤ Q.toNat)
        rw [if_neg heven, if_neg heven, result_bind, hproduct, ok_bind, result_bind, hsquare, ok_bind, hhalf]
        refine ⟨x', y', hloop, ?_⟩
        rw [hsquareNat, hproductNat] at hrest
        exact hrest
    · obtain rfl : n = 1 := by omega
      rw [dif_neg h, rates.power_one]
      exact ⟨x, y, result_pure _, hx, hy, rfl⟩

/-- the factor of so many minutes -/
def decayFactor (minutes : UInt64) : ℕ := rates.power DECAY.toNat (min minutes.toNat 525600000) Q.toNat

/-- the rate after so many minutes -/
def decayed (base : U128) (minutes : UInt64) : ℕ := base.toNat * decayFactor minutes / Q.toNat

theorem DECAY_le : DECAY.toNat ≤ rates.one := by
  rw [rates_one]
  decide

theorem decayFactor_le (minutes : UInt64) : decayFactor minutes ≤ Q.toNat := rates.power_le DECAY_le _

theorem decayed_le (base : U128) (minutes : UInt64) : decayed base minutes ≤ base.toNat :=
  Nat.div_le_of_le_mul ((Nat.mul_le_mul_left _ (decayFactor_le minutes)).trans_eq (Nat.mul_comm _ _))

theorem decayed_antitone (base : U128) {minutes minutes' : UInt64} (h : minutes ≤ minutes') :
    decayed base minutes' ≤ decayed base minutes := by
  refine Nat.div_le_div_right (Nat.mul_le_mul_left _ ?_)
  exact rates.power_antitone DECAY_le (min_le_min_right _ (UInt64.le_iff_toNat_le.1 h))

/-- **The decay.** It is the floor of the base rate times the rounded power of the decay factor. -/
theorem result_decay {base : U128} (minutes : UInt64) :
    ∃ rate : U128, (decay base minutes).result = .ok rate ∧ rate.toNat = decayed base minutes := by
  rw [decay]
  by_cases hn : min minutes.toNat 525600000 = 0
  · refine ⟨base, ?_, ?_⟩
    · rw [if_pos hn, result_pure]
    · rw [decayed, decayFactor, hn, rates.power_zero, Nat.mul_div_cancel _ (by decide)]
  · obtain ⟨x, y, hloop, hx, hy, hpower⟩ := decayLoop_spec hn (x := DECAY) (y := Q) (by decide) le_rfl
    obtain ⟨factor, hfactor, hfactorNat⟩ := result_decmul hx hy
    have hvalue : factor.toNat = decayFactor minutes := hfactorNat.trans hpower
    have hle := decayed_le base minutes
    have hbase := base.isLt
    rw [decayed, ← hvalue] at hle
    refine ⟨BitVec.ofNat 128 (base.toNat * factor.toNat / Q.toNat), ?_, ?_⟩
    · rw [if_neg hn, result_bind, hloop, ok_bind, result_bind, hfactor, ok_bind, muldiv_rate (hle.trans_lt hbase)]
    · rw [BitVec.toNat_ofNat, Nat.mod_eq_of_lt (hle.trans_lt hbase), hvalue, decayed]

/-- **The arithmetic of a redemption.** The three-factor quotient is the exact floor, refused exactly when there is none in
128 bits. The decay of every base rate, also of one above the unit, gives a rate no larger, and less with time or the
same. -/
theorem redemption_arithmetic_exact :
    (∀ a b c d : U128, ((mul3div a b c d).result = .error .arithmetic ↔
        d = 0 ∨ 2 ^ 128 ≤ a.toNat * b.toNat * c.toNat / d.toNat) ∧
      ∀ q : U128, (mul3div a b c d).result = .ok q ↔ d ≠ 0 ∧ q.toNat = a.toNat * b.toNat * c.toNat / d.toNat) ∧
    ∀ base : U128, ∃ rate : UInt64 → U128,
      (∀ minutes, (decay base minutes).result = .ok (rate minutes) ∧ rate minutes ≤ base) ∧
      ∀ minutes minutes', minutes ≤ minutes' → rate minutes' ≤ rate minutes := by
  refine ⟨fun a b c d => ?_, fun base => ?_⟩
  · have hzero : d = 0 ↔ d.toNat = 0 := by
      rw [← BitVec.toNat_inj]
      rfl
    rw [result_mul3div, hzero, floorOf]
    refine ⟨?_, fun q => ?_⟩
    · split_ifs with h
      · refine iff_of_false (fun heq => nomatch heq) ?_
        rw [not_or, not_le]
        exact h
      · refine iff_of_true rfl ?_
        by_contra hnone
        rw [not_or, not_le] at hnone
        exact h hnone
    · rw [← floorOf]
      constructor
      · intro heq
        unfold floorOf at heq
        split_ifs at heq with h
        cases heq
        exact ⟨mt hzero.1 h.1, by rw [BitVec.toNat_ofNat, Nat.mod_eq_of_lt h.2]⟩
      · intro ⟨hne, heq⟩
        exact floorOf_ok (mt hzero.2 hne) heq
  · choose rate hrate hvalue using fun minutes => @result_decay base minutes
    refine ⟨rate, fun minutes => ⟨hrate minutes, ?_⟩, fun minutes minutes' h => ?_⟩
    · rw [BitVec.le_def, hvalue]
      exact decayed_le base minutes
    · rw [BitVec.le_def, hvalue, hvalue]
      exact decayed_antitone base h

end ZenoFcis.Tables
