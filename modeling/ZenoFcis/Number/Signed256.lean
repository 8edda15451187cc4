/-
Signed 256-bit division (`profile2/arithmetic256.rs`): two's complement through magnitudes, with the rounding direction
flipped below zero.
- `magnitude_val`, `fromMagnitude_eq`: the sign is taken off and put back exactly;
- `signed_fit`: a magnitude rounded in the flipped direction is the signed quotient rounded once;
- `money_arithmetic`: every rounded operation of 256 bits, unsigned and signed.
-/
import ZenoFcis.Number.Unsigned256

namespace ZenoFcis.Number

open Lib Lib.Except

/-- a signed 256-bit integer by its bits -/
structure I256 where
  bits : U256
deriving DecidableEq

namespace I256

def isNegative (x : I256) : Bool := decide (x.bits.words.getD 1 0 >>> 127 ≠ 0)

/-- the number that the bits stand for -/
def val (x : I256) : ℤ := if x.isNegative = true then (x.bits.val : ℤ) - 2 ^ 256 else x.bits.val

def minBits : U256 := ⟨[0, 1 <<< 127], rfl⟩

def maxBits : U256 := ⟨[BitVec.allOnes 128, 1 <<< 127 - 1], rfl⟩

def negativeBits (x : U256) : U256 :=
  (Words.add ⟨[~~~ x.words.getD 0 0, ~~~ x.words.getD 1 0], rfl⟩ U256.one).1

def magnitude (x : I256) : U256 := if x.isNegative = true then negativeBits x.bits else x.bits

def fromMagnitude (x : U256) (negative : Bool) : Except Failure I256 :=
  if Words.compare x (if negative = true then minBits else maxBits) = .gt then .error .overflow
  else .ok ⟨if negative = true then negativeBits x else x⟩

def magnitudeRound (mode : Rounding) (negative : Bool) : Rounding :=
  match mode, negative with
  | .floor, true => .ceil
  | .ceil, false => .ceil
  | .exact, _ => .exact
  | _, _ => .floor

def checkedDiv (a den : I256) (mode : Rounding) : Except Failure I256 := do
  let negative := a.isNegative != den.isNegative
  let q ← a.magnitude.checkedDiv den.magnitude (magnitudeRound mode negative)
  fromMagnitude q negative

def mulDivPositive (a b den : I256) (mode : Rounding) : Except Failure I256 := do
  ensure (¬ (den.isNegative = true ∨ den.bits = U256.zero)) .domain
  let negative := a.isNegative != b.isNegative
  let q ← a.magnitude.mulDiv b.magnitude den.magnitude (magnitudeRound mode negative)
  fromMagnitude q negative

def mulUnsignedSignedDiv (a : I256) (b : U256) (c : I256) (den : U256) (mode : Rounding) : Except Failure I256 := do
  let negative := a.isNegative != c.isNegative
  let q ← a.magnitude.mul3Div b c.magnitude den (magnitudeRound mode negative)
  fromMagnitude q negative

/-! ## Signs and magnitudes -/

/-- a negative number has its highest bit -/
theorem isNegative_iff (x : I256) : x.isNegative = true ↔ 2 ^ 255 ≤ x.bits.val := by
  obtain ⟨low, high, hwords⟩ := List.length_eq_two.1 x.bits.length_eq
  have hlow := low.isLt
  have hhigh := high.isLt
  have hval : x.bits.val = low.toNat + 2 ^ 128 * high.toNat := by
    rw [Words.val, hwords]
    simp [Limbs.value]
  have hshift : (high >>> 127).toNat = high.toNat / 2 ^ 127 := by
    rw [BitVec.toNat_ushiftRight, Nat.shiftRight_eq_div_pow]
  have hzero : high >>> 127 ≠ 0 ↔ (high >>> 127).toNat ≠ 0 := by
    rw [Ne, Ne, ← BitVec.toNat_inj]
    rfl
  rw [isNegative, decide_eq_true_eq, hwords, hval]
  refine hzero.trans ?_
  rw [hshift]
  omega

theorem negativeBits_val (x : U256) : (negativeBits x).val = if x.val = 0 then 0 else 2 ^ 256 - x.val := by
  obtain ⟨low, high, hwords⟩ := List.length_eq_two.1 x.length_eq
  have hlow := low.isLt
  have hhigh := high.isLt
  have hval : x.val = low.toNat + 2 ^ 128 * high.toNat := by
    rw [Words.val, hwords]
    simp [Limbs.value]
  set flipped : U256 := ⟨[~~~ low, ~~~ high], rfl⟩ with hflipped
  have hflip : flipped.val = (2 ^ 128 - 1 - low.toNat) + 2 ^ 128 * (2 ^ 128 - 1 - high.toNat) := by
    rw [Words.val, hflipped]
    simp only [Limbs.value, BitVec.toNat_not, mul_zero, add_zero]
  have hbits : negativeBits x = (Words.add flipped U256.one).1 := by
    rw [negativeBits, hwords]
    rfl
  have hsum := Words.add_val flipped U256.one
  have hless := U256.val_lt (Words.add flipped U256.one).1
  rw [bound_two, U256.one_val] at hsum
  rw [hbits]
  have hcarry := Bool.toNat_le (Words.add flipped U256.one).2
  split_ifs with hzero
  · omega
  · have hnone : (Words.add flipped U256.one).2.toNat = 0 := by
      by_contra hone
      have h1 : (Words.add flipped U256.one).2.toNat = 1 := by omega
      rw [h1] at hsum
      omega
    rw [hnone] at hsum
    omega

theorem val_eq (x : I256) : x.val = if x.isNegative = true then -(x.magnitude.val : ℤ) else x.magnitude.val := by
  have hlt := U256.val_lt x.bits
  unfold val magnitude
  by_cases h : x.isNegative = true
  · have hle := (isNegative_iff x).1 h
    rw [if_pos h, if_pos h, if_pos h, negativeBits_val, if_neg (by omega)]
    omega
  · rw [if_neg h, if_neg h, if_neg h]

/-- **Magnitudes.** -/
theorem magnitude_val (x : I256) : x.magnitude.val = x.val.natAbs := by
  rw [val_eq]
  split_ifs
  · rw [Int.natAbs_neg, Int.natAbs_natCast]
  · rw [Int.natAbs_natCast]

/-- a magnitude under a sign -/
def signed (negative : Bool) (k : ℤ) : ℤ := if negative = true then -k else k

/-- the number of a result -/
def integers (x : Except Failure I256) : Except Failure ℤ := x.map val

/-- **Signs.** A magnitude with a sign is the number, where that is in the range -/
theorem fromMagnitude_eq (x : U256) (negative : Bool) : integers (fromMagnitude x negative) =
    if -2 ^ 255 ≤ signed negative x.val ∧ signed negative x.val < 2 ^ 255 then .ok (signed negative x.val)
    else .error .overflow := by
  have hmin : minBits.val = 2 ^ 255 := by decide
  have hmax : maxBits.val = 2 ^ 255 - 1 := by decide
  have hover : Words.compare x minBits = .gt ↔ 2 ^ 255 < x.val := by rw [Words.compare_eq, hmin, Nat.compare_eq_gt]
  have hover' : Words.compare x maxBits = .gt ↔ 2 ^ 255 - 1 < x.val := by
    rw [Words.compare_eq, hmax, Nat.compare_eq_gt]
  cases negative with
  | true =>
    change integers (if Words.compare x minBits = .gt then .error .overflow else .ok ⟨negativeBits x⟩) =
      if -2 ^ 255 ≤ -(x.val : ℤ) ∧ -(x.val : ℤ) < 2 ^ 255 then .ok (-(x.val : ℤ)) else .error .overflow
    by_cases hlarge : 2 ^ 255 < x.val
    · rw [if_pos (hover.2 hlarge), if_neg (by omega)]
      rfl
    · rw [if_neg (mt hover.1 hlarge), if_pos (by omega)]
      refine congrArg Except.ok ?_
      have hbits := negativeBits_val x
      have hneg := isNegative_iff ⟨negativeBits x⟩
      by_cases hzero : x.val = 0
      · rw [if_pos hzero] at hbits
        have hpositive : ¬ (⟨negativeBits x⟩ : I256).isNegative = true := fun h => by
          have hle := hneg.1 h
          simp only at hle
          omega
        rw [val, if_neg hpositive]
        simp only
        omega
      · rw [if_neg hzero] at hbits
        have hnegative : (⟨negativeBits x⟩ : I256).isNegative = true := hneg.2 (by simp only; omega)
        rw [val, if_pos hnegative]
        simp only
        omega
  | false =>
    change integers (if Words.compare x maxBits = .gt then .error .overflow else .ok ⟨x⟩) =
      if -2 ^ 255 ≤ (x.val : ℤ) ∧ (x.val : ℤ) < 2 ^ 255 then .ok (x.val : ℤ) else .error .overflow
    by_cases hlarge : 2 ^ 255 - 1 < x.val
    · rw [if_pos (hover'.2 hlarge), if_neg (by omega)]
      rfl
    · rw [if_neg (mt hover'.1 hlarge), if_pos (by omega)]
      refine congrArg Except.ok ?_
      have hpositive : ¬ (⟨x⟩ : I256).isNegative = true := fun h => by
        have hle := (isNegative_iff ⟨x⟩).1 h
        simp only at hle
        omega
      rw [val, if_neg hpositive]

/-! ## Rounding under a sign -/

/-- a rational magnitude under a sign -/
def signedRatio (negative : Bool) (x : ℚ) : ℚ := if negative = true then -x else x

theorem round_signed (mode : Rounding) (negative : Bool) (x : ℚ) :
    mode.round (signedRatio negative x) = ((magnitudeRound mode negative).round x).map (signed negative) := by
  cases negative with
  | false =>
    have hid (y : Except Failure ℤ) : y.map (signed false) = y := by cases y <;> rfl
    rw [hid]
    cases mode <;> rfl
  | true =>
    cases mode with
    | floor => simp [Rounding.round, magnitudeRound, signedRatio, signed, Except.map, Int.floor_neg]
    | ceil => simp [Rounding.round, magnitudeRound, signedRatio, signed, Except.map, Int.ceil_neg]
    | exact =>
      have hwhole : ((⌊-x⌋ : ℤ) : ℚ) = -x ↔ ((⌊x⌋ : ℤ) : ℚ) = x := by
        constructor
        · intro h
          have hx : x = ((-⌊-x⌋ : ℤ) : ℚ) := by
            push_cast
            linarith
          rw [hx, Int.floor_intCast]
        · intro h
          rw [← h, ← Int.cast_neg, Int.floor_intCast]
      simp only [Rounding.round, magnitudeRound, signedRatio, if_true, hwhole]
      by_cases h : ((⌊x⌋ : ℤ) : ℚ) = x
      · rw [if_pos h, if_pos h]
        refine congrArg Except.ok ?_
        rw [signed, if_pos rfl]
        conv_lhs => rw [← h]
        rw [← Int.cast_neg, Int.floor_intCast]
      · rw [if_neg h, if_neg h]
        rfl

theorem round_nonneg {mode : Rounding} {x : ℚ} {k : ℤ} (hx : 0 ≤ x) (h : mode.round x = .ok k) : 0 ≤ k := by
  cases mode with
  | floor => exact Except.ok.inj h ▸ Int.floor_nonneg.2 hx
  | ceil => exact Except.ok.inj h ▸ Int.ceil_nonneg hx
  | exact =>
    rw [Rounding.round] at h
    split_ifs at h
    exact Except.ok.inj h ▸ Int.floor_nonneg.2 hx

/-- **Signed rounding.** -/
theorem signed_fit {x : Except Failure U256} {mode : Rounding} {negative : Bool} {n d : ℕ} (hd : d ≠ 0)
    (h : U256.numbers x = unsignedQuotient (magnitudeRound mode negative) n d) :
    integers (x >>= fun q => fromMagnitude q negative) =
      fit (-2 ^ 255) (2 ^ 255) mode (signedRatio negative (n / d)) := by
  have hnonneg : (0 : ℚ) ≤ n / d := div_nonneg (Nat.cast_nonneg n) (Nat.cast_nonneg d)
  have habs : |signedRatio negative (n / d)| = |(n / d : ℚ)| := by
    unfold signedRatio
    split_ifs
    · exact abs_neg _
    · rfl
  rw [unsignedQuotient, if_neg hd] at h
  unfold fit at h ⊢
  rw [habs, round_signed]
  by_cases hlarge : (2 : ℚ) ^ 256 ≤ |(n / d : ℚ)|
  · rw [if_pos hlarge] at h ⊢
    cases x with
    | error e =>
      cases h
      rfl
    | ok q => cases h
  · rw [if_neg hlarge] at h ⊢
    cases hround : (magnitudeRound mode negative).round (n / d : ℚ) with
    | error e =>
      rw [hround, error_bind] at h
      cases x with
      | error e' =>
        cases h
        rfl
      | ok q => cases h
    | ok k =>
      have hk := round_nonneg hnonneg hround
      rw [hround, ok_bind] at h
      change _ = (ensure (_ ≤ signed negative k ∧ signed negative k < _) _ >>= fun _ => .ok (signed negative k))
      by_cases hfits : k < 2 ^ 256
      · rw [ensure_bind ⟨hk, hfits⟩] at h
        cases x with
        | error e => cases h
        | ok q =>
          have hq : (q.val : ℤ) = k := Except.ok.inj h
          rw [ok_bind, fromMagnitude_eq, hq]
          by_cases hrange : -2 ^ 255 ≤ signed negative k ∧ signed negative k < 2 ^ 255
          · rw [if_pos hrange, ensure_bind hrange]
          · rw [if_neg hrange, ensure, if_neg hrange]
            rfl
      · rw [ensure, if_neg (fun h => hfits h.2)] at h
        have hrange : ¬ (-2 ^ 255 ≤ signed negative k ∧ signed negative k < 2 ^ 255) := by
          unfold signed
          split_ifs
          · omega
          · omega
        rw [ensure, if_neg hrange]
        cases x with
        | error e =>
          cases h
          rfl
        | ok q => cases h

/-! ## The operations -/

theorem signs_eq (a b : I256) : (a.val : ℚ) * b.val =
    signedRatio (a.isNegative != b.isNegative) ((a.magnitude.val * b.magnitude.val : ℕ) : ℚ) := by
  rw [val_eq, val_eq]
  unfold signedRatio
  cases a.isNegative <;> cases b.isNegative <;> simp

theorem numbers_error {x : Except Failure U256} {e : Failure} (h : U256.numbers x = .error e) : x = .error e := by
  cases x with
  | error e' =>
    cases h
    rfl
  | ok q => cases h

theorem magnitude_eq_zero {x : I256} : x.magnitude.val = 0 ↔ x.val = 0 := by
  rw [magnitude_val, Int.natAbs_eq_zero]

/-- **Signed division.** -/
theorem checkedDiv_eq (a den : I256) (mode : Rounding) : integers (checkedDiv a den mode) =
    if den.val = 0 then .error .zeroDivisor else fit (-2 ^ 255) (2 ^ 255) mode (a.val / den.val) := by
  have hdiv := U256.checkedDiv_eq a.magnitude den.magnitude (magnitudeRound mode (a.isNegative != den.isNegative))
  unfold checkedDiv
  by_cases hd : den.val = 0
  · rw [unsignedQuotient, if_pos (magnitude_eq_zero.2 hd)] at hdiv
    rw [if_pos hd]
    simp only [numbers_error hdiv]
    rfl
  · have hd' := mt magnitude_eq_zero.1 hd
    rw [if_neg hd]
    refine (signed_fit hd' hdiv).trans (congrArg (fit _ _ mode) ?_)
    have hne : (den.magnitude.val : ℚ) ≠ 0 := Nat.cast_ne_zero.2 hd'
    rw [val_eq a, val_eq den]
    unfold signedRatio
    cases a.isNegative <;> cases den.isNegative <;> simp [neg_div, div_neg]

/-- **Signed product and quotient.** -/
theorem mulDivPositive_eq (a b den : I256) (mode : Rounding) : integers (mulDivPositive a b den mode) =
    if den.val ≤ 0 then .error .domain else fit (-2 ^ 255) (2 ^ 255) mode (a.val * b.val / den.val) := by
  have hdiv := U256.mulDiv_eq a.magnitude b.magnitude den.magnitude
    (magnitudeRound mode (a.isNegative != b.isNegative))
  have hdomain : den.isNegative = true ∨ den.bits = U256.zero ↔ den.val ≤ 0 := by
    have hzero : den.bits = U256.zero ↔ den.bits.val = 0 := Words.eq_zero_iff
    have hlt := U256.val_lt den.bits
    rw [hzero, val]
    split_ifs with h
    · exact iff_of_true (Or.inl h) (by omega)
    · rw [or_iff_right h]
      omega
  unfold mulDivPositive
  by_cases hd : den.val ≤ 0
  · rw [if_pos hd, ensure, if_neg (not_not.2 (hdomain.2 hd))]
    rfl
  · have hd' : den.magnitude.val ≠ 0 := mt magnitude_eq_zero.1 (by omega)
    have hpositive : ¬ den.isNegative = true := fun h => hd (hdomain.1 (Or.inl h))
    rw [if_neg hd, ensure_bind (mt hdomain.1 hd)]
    refine (signed_fit hd' hdiv).trans ?_
    rw [signs_eq, val_eq den, if_neg hpositive, Int.cast_natCast]
    unfold signedRatio
    split_ifs
    · rw [neg_div]
    · rfl

/-- **Signed product of three.** -/
theorem mulUnsignedSignedDiv_eq (a : I256) (b : U256) (c : I256) (den : U256) (mode : Rounding) :
    integers (mulUnsignedSignedDiv a b c den mode) =
      if den.val = 0 then .error .zeroDivisor
      else fit (-2 ^ 255) (2 ^ 255) mode (a.val * b.val * c.val / den.val) := by
  have hdiv := U256.mul3Div_eq a.magnitude b c.magnitude den (magnitudeRound mode (a.isNegative != c.isNegative))
  unfold mulUnsignedSignedDiv
  by_cases hd : den.val = 0
  · rw [unsignedQuotient, if_pos hd] at hdiv
    rw [if_pos hd]
    simp only [numbers_error hdiv]
    rfl
  · rw [if_neg hd]
    refine (signed_fit hd hdiv).trans ?_
    have hsigns : (a.val : ℚ) * b.val * c.val = (a.val * c.val : ℚ) * b.val := by ring
    rw [hsigns, signs_eq]
    refine congrArg (fit _ _ mode) ?_
    unfold signedRatio
    split_ifs
    · push_cast
      ring
    · push_cast
      ring

end I256

/-! ## Money -/

theorem fit_sound {low high : ℤ} {mode : Rounding} {x : ℚ} : fit low high mode x ≠ .error .invariant := by
  unfold fit
  split_ifs
  · intro h
    cases h
  · intro h
    rcases bind_eq_error.1 h with h | ⟨q, _, h⟩
    · cases mode with
      | floor => cases h
      | ceil => cases h
      | exact =>
        rw [Rounding.round] at h
        split_ifs at h
        cases h
    · rcases bind_eq_error.1 h with h | ⟨_, _, h⟩
      · unfold ensure at h
        split_ifs at h
        cases h
      · cases h

/-- no refusal of a result says that the arithmetic is inconsistent -/
def Consistent {α : Type} (x : Except Failure α) : Prop := x ≠ .error .invariant

theorem consistent_of_map {α β : Type} {x : Except Failure α} {f : α → β} (h : x.map f ≠ .error .invariant) :
    Consistent x := by
  rintro rfl
  exact h rfl

theorem unsignedQuotient_sound {mode : Rounding} {n d : ℕ} : unsignedQuotient mode n d ≠ .error .invariant := by
  unfold unsignedQuotient
  split_ifs
  · exact fun h => nomatch h
  · exact fit_sound

/-- **Money arithmetic.** Every operation of 256 bits is the exact rational quotient rounded once and then narrowed; none
ever reports an inconsistency. -/
theorem money_arithmetic :
    (∀ (a b den : U256) (mode : Rounding),
      U256.numbers (U256.mulDiv a b den mode) = unsignedQuotient mode (a.val * b.val) den.val ∧
        Consistent (U256.mulDiv a b den mode)) ∧
    (∀ (a b c den : U256) (mode : Rounding),
      U256.numbers (U256.mul3Div a b c den mode) = unsignedQuotient mode (a.val * b.val * c.val) den.val ∧
        Consistent (U256.mul3Div a b c den mode)) ∧
    (∀ (a den : U256) (mode : Rounding),
      U256.numbers (U256.checkedDiv a den mode) = unsignedQuotient mode a.val den.val ∧
        Consistent (U256.checkedDiv a den mode)) ∧
    (∀ a b offset den : U256,
      (U256.mulAddDivRem a b offset den).map (fun out => (out.1.val, out.2.val)) =
          (if den.val = 0 then .error .zeroDivisor
          else if (a.val * b.val + offset.val) / den.val < 2 ^ 256 then
            .ok ((a.val * b.val + offset.val) / den.val, (a.val * b.val + offset.val) % den.val)
          else .error .overflow) ∧
        Consistent (U256.mulAddDivRem a b offset den)) ∧
    (∀ a b den : U256,
      U256.numbers (U256.mulDivHalfUp a b den) =
          (if den.val = 0 then .error .zeroDivisor
          else if ⌊((a.val * b.val : ℕ) / den.val : ℚ) + 1 / 2⌋ < 2 ^ 256 then
            .ok ⌊((a.val * b.val : ℕ) / den.val : ℚ) + 1 / 2⌋
          else .error .overflow) ∧
        Consistent (U256.mulDivHalfUp a b den)) ∧
    (∀ (a den : I256) (mode : Rounding),
      I256.integers (I256.checkedDiv a den mode) =
          (if den.val = 0 then .error .zeroDivisor else fit (-2 ^ 255) (2 ^ 255) mode (a.val / den.val)) ∧
        Consistent (I256.checkedDiv a den mode)) ∧
    (∀ (a b den : I256) (mode : Rounding),
      I256.integers (I256.mulDivPositive a b den mode) =
          (if den.val ≤ 0 then .error .domain else fit (-2 ^ 255) (2 ^ 255) mode (a.val * b.val / den.val)) ∧
        Consistent (I256.mulDivPositive a b den mode)) ∧
    (∀ (a : I256) (b : U256) (c : I256) (den : U256) (mode : Rounding),
      I256.integers (I256.mulUnsignedSignedDiv a b c den mode) =
          (if den.val = 0 then .error .zeroDivisor
          else fit (-2 ^ 255) (2 ^ 255) mode (a.val * b.val * c.val / den.val)) ∧
        Consistent (I256.mulUnsignedSignedDiv a b c den mode)) := by
  have hquotient {x : Except Failure U256} {mode : Rounding} {n d : ℕ}
      (h : U256.numbers x = unsignedQuotient mode n d) : Consistent x :=
    consistent_of_map (f := fun q => (q.val : ℤ)) (h.trans_ne unsignedQuotient_sound)
  have hsigned {x : Except Failure I256} {p : Prop} [Decidable p] {e : Failure} {low high : ℤ} {mode : Rounding} {y : ℚ}
      (he : e ≠ .invariant) (h : I256.integers x = if p then .error e else fit low high mode y) : Consistent x := by
    refine consistent_of_map (f := I256.val) (h.trans_ne ?_)
    split_ifs
    · exact fun h => he (Except.error.inj h)
    · exact fit_sound
  refine ⟨?_, ?_, ?_, ?_, ?_, ?_, ?_, ?_⟩
  · intro a b den mode
    exact ⟨U256.mulDiv_eq a b den mode, hquotient (U256.mulDiv_eq a b den mode)⟩
  · intro a b c den mode
    exact ⟨U256.mul3Div_eq a b c den mode, hquotient (U256.mul3Div_eq a b c den mode)⟩
  · intro a den mode
    exact ⟨U256.checkedDiv_eq a den mode, hquotient (U256.checkedDiv_eq a den mode)⟩
  · intro a b offset den
    rw [U256.mulAddDivRem_eq]
    unfold Consistent
    by_cases hd : den.val = 0
    · rw [if_pos hd, if_pos hd]
      exact ⟨rfl, fun h => nomatch h⟩
    · rw [if_neg hd, if_neg hd]
      split_ifs with hfits
      · have hsmall : (a.val * b.val + offset.val) % den.val < 2 ^ 256 :=
          (Nat.mod_lt _ (Nat.pos_of_ne_zero hd)).trans (U256.val_lt den)
        refine ⟨congrArg Except.ok (Prod.ext ?_ ?_), fun h => nomatch h⟩
        · exact Words.val_ofNat (bound_two ▸ hfits)
        · exact Words.val_ofNat (bound_two ▸ hsmall)
      · exact ⟨rfl, fun h => nomatch h⟩
  · intro a b den
    have h := U256.mulDivHalfUp_eq a b den
    refine ⟨h, consistent_of_map (f := fun q => (q.val : ℤ)) (h.trans_ne ?_)⟩
    split_ifs
    · exact fun h => nomatch h
    · exact fun h => nomatch h
    · exact fun h => nomatch h
  · intro a den mode
    exact ⟨I256.checkedDiv_eq a den mode, hsigned (by decide) (I256.checkedDiv_eq a den mode)⟩
  · intro a b den mode
    exact ⟨I256.mulDivPositive_eq a b den mode, hsigned (by decide) (I256.mulDivPositive_eq a b den mode)⟩
  · intro a b c den mode
    exact ⟨I256.mulUnsignedSignedDiv_eq a b c den mode, hsigned (by decide) (I256.mulUnsignedSignedDiv_eq a b c den mode)⟩

end ZenoFcis.Number
