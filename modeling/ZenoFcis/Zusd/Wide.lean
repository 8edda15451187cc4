/-
The 384-bit scratch arithmetic of zUSD (`wide.rs`, `accumulator.rs` and the checked helpers of `lib.rs`). Results:
- `result_add`, `result_sub`, `result_mul`: exact, or `Arithmetic` exactly when the result does not fit or is negative;
- `result_quotientWide`: the quotient and the remainder of every non-zero divisor;
- `result_quotient`: the same quotient exactly when it fits 128 bits.
-/
import ZenoFcis.Lib.LimbWork
import ZenoFcis.Zusd.Work

namespace ZenoFcis.Zusd

open Lib Lib.Except
open Lib.Metered (result_bind result_pure)

/-- six limbs of 64 bits, least significant first -/
structure Wide where
  limbs : List (BitVec 64)
  length_eq : limbs.length = 6
deriving DecidableEq

/-- canonical high and low words -/
structure Accumulator256 where
  high : U128
  low : U128
deriving DecidableEq

namespace Accumulator256

def zero : Accumulator256 := ⟨.zero, .zero⟩

def val (x : Accumulator256) : ℕ := x.low.val + 2 ^ 128 * x.high.val

theorem val_lt (x : Accumulator256) : x.val < 2 ^ 256 := by
  have hlow := x.low.fits
  have hhigh := x.high.fits
  unfold val
  omega

/-- accumulators with one value are equal -/
theorem val_inj {x y : Accumulator256} (h : x.val = y.val) : x = y := by
  have hx := x.low.fits
  have hy := y.low.fits
  unfold val at h
  cases x
  cases y
  congr 1
  · exact Unsigned.ext (by simp only at *; omega)
  · exact Unsigned.ext (by simp only at *; omega)

end Accumulator256

namespace Wide

/-- the number that the limbs stand for -/
def val (a : Wide) : ℕ := Limbs.value a.limbs

def ofNat (n : ℕ) : Wide := ⟨Limbs.ofNat 64 6 n, Limbs.ofNat_length 6 n⟩

/-- `Wide::from(u128)`: the two low limbs -/
def ofU128 (x : U128) : Wide := ofNat x.val

/-- `Wide::from(Accumulator256)`: the four low limbs -/
def ofAccumulator (x : Accumulator256) : Wide := ofNat x.val

/-- `2 ^ 384` -/
def bound : ℕ := (2 ^ 64) ^ 6

theorem val_lt (a : Wide) : a.val < bound := by
  have h := Limbs.value_lt a.limbs
  rw [a.length_eq] at h
  exact h

/-- numbers with one value are equal -/
theorem val_inj {a b : Wide} (h : a.val = b.val) : a = b := by
  have hlimbs := Limbs.value_inj (a.length_eq.trans b.length_eq.symm) h
  cases a
  cases b
  cases hlimbs
  rfl

/-- a number within the bound is read back -/
theorem val_ofNat {n : ℕ} (h : n < bound) : (ofNat n).val = n := Limbs.value_ofNat h

@[simp] theorem val_ofU128 (x : U128) : (ofU128 x).val = x.val := val_ofNat (x.fits.trans (by decide))

@[simp] theorem val_ofAccumulator (x : Accumulator256) : (ofAccumulator x).val = x.val :=
  val_ofNat (x.val_lt.trans (by decide))

/-- a number that has to fit -/
def exact (n : ℕ) : Except Failure Wide := if n < bound then .ok (ofNat n) else .error .arithmetic

theorem exact_val {a : Wide} {n : ℕ} (h : a.val = n) : exact n = .ok a := by
  have hn : n < bound := h ▸ a.val_lt
  rw [exact, if_pos hn]
  exact congrArg Except.ok (val_inj ((val_ofNat hn).trans h.symm))

/-- a number beyond the bound fails -/
theorem exact_large {n : ℕ} (h : bound ≤ n) : exact n = .error .arithmetic := if_neg (not_lt.2 h)

/-! ## The operations -/

/-- `u128::from(x[0]) | (u128::from(x[1]) << 64)` -/
def word (xs : List (BitVec 64)) : U128 := ⟨Limbs.value (xs.take 2), by
  refine (Limbs.value_lt (xs.take 2)).trans_le ?_
  calc (2 ^ 64) ^ (xs.take 2).length ≤ (2 ^ 64) ^ 2 := by
        refine Nat.pow_le_pow_right (by decide) ?_
        rw [List.length_take]
        exact min_le_left _ _
    _ = 2 ^ 128 := by decide⟩

/-- `iter().any(|v| *v != 0)` -/
def anyNonzero (xs : List (BitVec 64)) : Bool := xs.any (· ≠ 0)

theorem anyNonzero_iff {xs : List (BitVec 64)} : anyNonzero xs = true ↔ Limbs.value xs ≠ 0 := by
  rw [Ne, Limbs.value_eq_zero, anyNonzero, List.any_eq_true]
  push Not
  simp only [decide_eq_true_eq]

def accumulator (a : Wide) : Except Failure Accumulator256 := do
  ensure (¬ anyNonzero (a.limbs.drop 4)) .arithmetic
  return ⟨word (a.limbs.drop 2), word a.limbs⟩

def narrow (a : Wide) : Except Failure U128 := do
  ensure (¬ anyNonzero (a.limbs.drop 2)) .arithmetic
  return word a.limbs

/-- the sum of a limb is the row `x * 1 + y + carry` -/
def add (a b : Wide) : Work Wide := do
  charge 6 0 0
  let out := Limbs.mulAdd 1 a.limbs b.limbs 0
  failIf (out.2 ≠ 0) .arithmetic
  pure ⟨out.1, (Limbs.mulAdd_length 1 (a.length_eq.trans b.length_eq.symm) 0).trans a.length_eq⟩

def sub (a b : Wide) : Work Wide := do
  charge 6 0 0
  let out := Limbs.sub a.limbs b.limbs false
  failIf (out.2 = true) .arithmetic
  pure ⟨out.1, (Limbs.sub_length (a.length_eq.trans b.length_eq.symm) false).trans a.length_eq⟩

/-- six zero limbs -/
def zeros : List (BitVec 64) := List.replicate 6 0

/-- the low half of a factor -/
def lowHalf (b : U128) : BitVec 64 := BitVec.ofNat 64 b.val

/-- the high half of a factor -/
def highHalf (b : U128) : BitVec 64 := BitVec.ofNat 64 (b.val / 2 ^ 64)

/-- the second row of a product starts at the second limb and has no place for the last limb of the first factor -/
def mul (a : Wide) (b : U128) : Work Wide := do
  charge 12 0 0
  let first := Limbs.mulAdd (lowHalf b) a.limbs zeros 0
  failIf (first.2 ≠ 0) .arithmetic
  let second := Limbs.mulAdd (highHalf b) (a.limbs.take 5) (first.1.drop 1) 0
  failIf (anyNonzero (a.limbs.drop 5) ∧ highHalf b ≠ 0) .arithmetic
  failIf (second.2 ≠ 0) .arithmetic
  pure ⟨first.1.take 1 ++ second.1, by
    have hfirst : first.1.length = 6 := (Limbs.mulAdd_length _ a.length_eq 0).trans a.length_eq
    have hsecond : second.1.length = 5 := by
      refine (Limbs.mulAdd_length _ ?_ 0).trans ?_
      · rw [List.length_take, List.length_drop, hfirst, a.length_eq]
        rfl
      · rw [List.length_take, a.length_eq]
        rfl
    rw [List.length_append, List.length_take, hfirst, hsecond]
    rfl⟩

/-- `self.cmp(b)` -/
def cmp (a b : Wide) : Ordering := Limbs.compareTop a.limbs b.limbs

/-- binary long division over the bits that remain, from the highest one down -/
def divide (a d : Wide) : ℕ → List (BitVec 64) → List (BitVec 64) → Work (List (BitVec 64) × List (BitVec 64))
  | 0, q, r => pure (q, r)
  | bit + 1, q, r => do
    charge 19 0 0
    let (r, fits) ← .okOr (Limbs.restore d.limbs r (Limbs.bitAt a.limbs bit)) .arithmetic
    divide a d bit (if fits then Limbs.setBit q bit else q) r

def quotientWide (a d : Wide) : Work (Wide × Wide) := do
  charge 1 0 0
  failIf (d = ofU128 .zero) .arithmetic
  let out ← divide a d 384 (ofU128 .zero).limbs (ofU128 .zero).limbs
  if h : out.1.length = 6 ∧ out.2.length = 6 then pure (⟨out.1, h.1⟩, ⟨out.2, h.2⟩) else .fail .arithmetic

/-- `q | (1 << shift)` -/
def trialBit (q : U128) (shift : Fin 128) : U128 :=
  ⟨q.val ||| 2 ^ shift.val, Nat.or_lt_two_pow q.fits (Nat.pow_lt_pow_right (by decide) shift.isLt)⟩

/-- the rounds of the bounded search, from the highest shift down; a trial product that overflows is too large -/
def search (a d : Wide) : (n : ℕ) → n ≤ 128 → U128 → Work U128
  | 0, _, q => pure q
  | n + 1, h, q => do
    let trial := trialBit q ⟨n, h⟩
    match ← attempt (mul d trial) with
    | .ok product => search a d n (Nat.le_of_succ_le h) (if cmp product a ≠ .gt then trial else q)
    | .error .arithmetic => search a d n (Nat.le_of_succ_le h) q
    | .error e => .fail e

def quotient (a d : Wide) : Work (U128 × Wide) := do
  charge 1 0 0
  failIf (d = ofU128 .zero) .arithmetic
  let q ← search a d 128 le_rfl .zero
  let remainder ← sub a (← mul d q)
  failIf (cmp remainder d ≠ .lt) .arithmetic
  pure (q, remainder)

/-! ## Exactness -/

/-- numbers are compared by value -/
theorem cmp_eq (a b : Wide) : cmp a b = compare a.val b.val :=
  Limbs.compareTop_eq (a.length_eq.trans b.length_eq.symm)

theorem eq_zero_iff {d : Wide} : d = ofU128 .zero ↔ d.val = 0 := by
  constructor
  · intro h
    rw [h, val_ofU128, Unsigned.val_zero]
  · intro h
    exact val_inj (h.trans (by rw [val_ofU128, Unsigned.val_zero]))

/-- **Addition.** -/
theorem result_add (a b : Wide) : (add a b).result = exact (a.val + b.val) := by
  have hvalue := Limbs.mulAdd_value 1 (a.length_eq.trans b.length_eq.symm) 0
  have hone : (1 : BitVec 64).toNat = 1 := rfl
  rw [a.length_eq, hone, mul_one, add_zero] at hvalue
  simp only [add, result_bind, result_charge, ok_bind, result_failIf, result_pure]
  have hlow := Limbs.value_lt (Limbs.mulAdd 1 a.limbs b.limbs 0).1
  rw [Limbs.mulAdd_length 1 (a.length_eq.trans b.length_eq.symm), a.length_eq] at hlow
  by_cases hcarry : (Limbs.mulAdd 1 a.limbs b.limbs 0).2 = 0
  · rw [ensure_bind (not_not.2 hcarry)]
    refine (exact_val ?_).symm
    rw [hcarry, mul_zero, add_zero] at hvalue
    exact hvalue
  · have hlarge : bound ≤ a.val + b.val := by
      have hpos := Nat.pos_of_ne_zero hcarry
      unfold val
      rw [← hvalue]
      unfold bound
      nlinarith
    rw [exact_large hlarge, ensure, if_neg (not_not.2 hcarry)]
    rfl

/-- **Subtraction.** -/
theorem result_sub (a b : Wide) :
    (sub a b).result = if b.val ≤ a.val then .ok (ofNat (a.val - b.val)) else .error .arithmetic := by
  have hlen := a.length_eq.trans b.length_eq.symm
  have hvalue := Limbs.sub_value (by decide) hlen false
  have hlow := Limbs.value_lt (Limbs.sub a.limbs b.limbs false).1
  rw [Limbs.sub_length hlen, a.length_eq] at hlow
  rw [a.length_eq] at hvalue
  have hb := b.val_lt
  unfold bound at hb
  simp only [sub, result_bind, result_charge, ok_bind, result_failIf, result_pure]
  unfold val at hb ⊢
  cases hborrow : (Limbs.sub a.limbs b.limbs false).2 with
  | true =>
    rw [hborrow] at hvalue
    simp only [Bool.toNat_true, Bool.toNat_false, mul_one, add_zero] at hvalue
    rw [if_neg (by omega)]
    rfl
  | false =>
    rw [hborrow] at hvalue
    simp only [Bool.toNat_false, mul_zero, add_zero] at hvalue
    rw [if_pos (by omega)]
    refine congrArg Except.ok (val_inj ?_)
    rw [val_ofNat (by unfold bound; omega)]
    change Limbs.value (Limbs.sub a.limbs b.limbs false).1 = _
    omega

theorem halves (b : U128) : b.val = (lowHalf b).toNat + 2 ^ 64 * (highHalf b).toNat := by
  have hb := b.fits
  rw [lowHalf, highHalf, BitVec.toNat_ofNat, BitVec.toNat_ofNat, Nat.mod_eq_of_lt (by omega : b.val / 2 ^ 64 < 2 ^ 64)]
  exact (Nat.mod_add_div _ _).symm

/-- **Multiplication.** -/
theorem result_mul (a : Wide) (b : U128) : (mul a b).result = exact (a.val * b.val) := by
  have hzeros : Limbs.value zeros = 0 := by decide
  have hfirst := Limbs.mulAdd_value (lowHalf b) (show a.limbs.length = zeros.length from a.length_eq) 0
  have hlength : (Limbs.mulAdd (lowHalf b) a.limbs zeros 0).1.length = 6 :=
    (Limbs.mulAdd_length _ a.length_eq 0).trans a.length_eq
  rw [hzeros, add_zero, add_zero, a.length_eq] at hfirst
  have hb := halves b
  simp only [mul, result_bind, result_charge, ok_bind, result_failIf, result_pure]
  set first := Limbs.mulAdd (lowHalf b) a.limbs zeros 0
  have htake : (a.limbs.take 5).length = (first.1.drop 1).length := by
    rw [List.length_take, List.length_drop, hlength, a.length_eq]
    rfl
  have htake' : (a.limbs.take 5).length = 5 := by
    rw [List.length_take, a.length_eq]
    rfl
  have hsecond := Limbs.mulAdd_value (highHalf b) htake 0
  rw [add_zero, htake'] at hsecond
  have hsplit : a.val = Limbs.value (a.limbs.take 5) + (2 ^ 64) ^ 5 * Limbs.value (a.limbs.drop 5) := by
    have happend := Limbs.value_append (a.limbs.take 5) (a.limbs.drop 5)
    rw [List.take_append_drop, htake'] at happend
    exact happend
  have hrow : Limbs.value first.1 = Limbs.value (first.1.take 1) + 2 ^ 64 * Limbs.value (first.1.drop 1) := by
    have happend := Limbs.value_append (first.1.take 1) (first.1.drop 1)
    rw [List.take_append_drop, List.length_take, hlength] at happend
    simpa using happend
  have hhigh : highHalf b ≠ 0 ↔ (highHalf b).toNat ≠ 0 := by
    rw [Ne, Ne, ← BitVec.toNat_inj]
    rfl
  set second := Limbs.mulAdd (highHalf b) (a.limbs.take 5) (first.1.drop 1) 0
  have hproduct : a.val * b.val = a.val * (lowHalf b).toNat + 2 ^ 64 * (a.val * (highHalf b).toNat) := by
    rw [hb]
    ring
  have ha : a.val = Limbs.value a.limbs := rfl
  rw [← ha] at hfirst
  by_cases hcarry : first.2 = 0
  · rw [ensure_bind (not_not.2 hcarry)]
    rw [hcarry, mul_zero, add_zero] at hfirst
    by_cases hover : anyNonzero (a.limbs.drop 5) ∧ highHalf b ≠ 0
    · -- the last limb and the high half are both at least one
      have hlarge : bound ≤ a.val * b.val := by
        have hone := Nat.pos_of_ne_zero (anyNonzero_iff.1 hover.1)
        have htwo := Nat.pos_of_ne_zero (hhigh.1 hover.2)
        have hpart : (2 ^ 64) ^ 5 * 1 ≤ a.val := by
          rw [hsplit]
          exact (Nat.mul_le_mul_left _ hone).trans (Nat.le_add_left _ _)
        have hfactor : 2 ^ 64 * 1 ≤ b.val := by
          rw [hb]
          exact (Nat.mul_le_mul_left _ htwo).trans (Nat.le_add_left _ _)
        exact Nat.mul_le_mul hpart hfactor
      rw [exact_large hlarge, ensure, if_neg (not_not.2 hover)]
      rfl
    · rw [ensure_bind hover]
      have hnone : Limbs.value (a.limbs.drop 5) * (highHalf b).toNat = 0 := by
        rw [Nat.mul_eq_zero]
        by_contra hboth
        rw [not_or] at hboth
        exact hover ⟨anyNonzero_iff.2 hboth.1, hhigh.2 hboth.2⟩
      have htotal : a.val * b.val = Limbs.value (first.1.take 1) + 2 ^ 64 * Limbs.value second.1 +
          (2 ^ 64) ^ 6 * second.2 := by
        have hrest : a.val * (highHalf b).toNat = Limbs.value (a.limbs.take 5) * (highHalf b).toNat := by
          rw [hsplit, Nat.add_mul, Nat.mul_assoc, hnone, Nat.mul_zero, Nat.add_zero]
        rw [hproduct, ← hfirst, hrow, hrest]
        calc Limbs.value (first.1.take 1) + 2 ^ 64 * Limbs.value (first.1.drop 1) +
              2 ^ 64 * (Limbs.value (a.limbs.take 5) * (highHalf b).toNat)
            = Limbs.value (first.1.take 1) + 2 ^ 64 * (Limbs.value (a.limbs.take 5) * (highHalf b).toNat +
                Limbs.value (first.1.drop 1)) := by ring
          _ = _ := by
            rw [← hsecond]
            ring
      by_cases hcarry' : second.2 = 0
      · rw [ensure_bind (not_not.2 hcarry')]
        refine (exact_val ?_).symm
        have happend := Limbs.value_append (first.1.take 1) second.1
        have hpow : (2 ^ 64) ^ min 1 6 = 2 ^ 64 := rfl
        rw [List.length_take, hlength, hpow] at happend
        rw [htotal, hcarry', mul_zero, add_zero]
        exact happend
      · have hlarge : bound ≤ a.val * b.val := by
          have hpos := Nat.pos_of_ne_zero hcarry'
          rw [htotal]
          exact (Nat.le_mul_of_pos_right bound hpos).trans (Nat.le_add_left _ _)
        rw [exact_large hlarge, ensure, if_neg (not_not.2 hcarry')]
        rfl
  · have hlarge : bound ≤ a.val * b.val := by
      have hpos := Nat.pos_of_ne_zero hcarry
      rw [hproduct, ← hfirst]
      have hle : bound ≤ (2 ^ 64) ^ 6 * first.2 := Nat.le_mul_of_pos_right bound hpos
      omega
    rw [exact_large hlarge, ensure, if_neg (not_not.2 hcarry)]
    rfl

/-- the metered loop is the loop of the library -/
theorem result_divide (a d : Wide) (n : ℕ) (q r : List (BitVec 64)) : (divide a d n q r).result =
    (Limbs.longDivide a.limbs d.limbs n q r).elim (.error .arithmetic) .ok := by
  induction n generalizing q r with
  | zero => rfl
  | succ n ih =>
    simp only [divide, Limbs.longDivide, result_bind, result_charge, ok_bind]
    cases Limbs.restore d.limbs r (Limbs.bitAt a.limbs n) with
    | none => rfl
    | some step => exact ih _ _

/-- **Long division.** Every non-zero divisor has its quotient and its remainder. -/
theorem result_quotientWide (a d : Wide) : (quotientWide a d).result =
    if d.val = 0 then .error .arithmetic else .ok (ofNat (a.val / d.val), ofNat (a.val % d.val)) := by
  have hzero : (ofU128 .zero).limbs = List.replicate 6 0 := rfl
  simp only [quotientWide, result_bind, result_charge, ok_bind, result_failIf, eq_zero_iff]
  by_cases hd : d.val = 0
  · rw [if_pos hd, ensure, if_neg (not_not.2 hd)]
    rfl
  · obtain ⟨q, r, hdivide, hq, hr, hquotient, hremainder⟩ :=
      Limbs.longDivide_value (by decide) (a.length_eq.trans d.length_eq.symm) hd
    rw [d.length_eq] at hdivide hq hr
    rw [if_neg hd, ensure_bind hd, result_divide, hzero, hdivide, Option.elim_some]
    have hwide : (⟨q, hq⟩ : Wide) = ofNat (a.val / d.val) :=
      val_inj (hquotient.trans (val_ofNat ((Nat.div_le_self _ _).trans_lt a.val_lt)).symm)
    have hrest : (⟨r, hr⟩ : Wide) = ofNat (a.val % d.val) :=
      val_inj (hremainder.trans (val_ofNat ((Nat.mod_le _ _).trans_lt a.val_lt)).symm)
    rw [ok_bind, dif_pos ⟨hq, hr⟩, result_pure, hwide, hrest]

theorem trialBit_val {q : U128} {n : ℕ} (hn : n < 128) {k : ℕ} (hq : q.val = 2 ^ (n + 1) * k) :
    (trialBit q ⟨n, hn⟩).val = 2 ^ n * (2 * k + 1) := by
  have hclear : q.val.testBit n = false := by
    rw [hq, Nat.testBit_two_pow_mul]
    simp
  change q.val ||| 2 ^ n = _
  rw [Limbs.or_two_pow hclear, hq]
  ring

theorem search_spec {a d : Wide} (hd : 0 < d.val) {n : ℕ} (hn : n ≤ 128) {q : U128}
    (hq : q.val = 2 ^ n * (min (a.val / d.val) (2 ^ 128 - 1) / 2 ^ n)) :
    ∃ q', (search a d n hn q).result = .ok q' ∧ q'.val = min (a.val / d.val) (2 ^ 128 - 1) := by
  induction n generalizing q with
  | zero => exact ⟨q, rfl, by rw [hq, pow_zero, one_mul, Nat.div_one]⟩
  | succ n ih =>
    set m := min (a.val / d.val) (2 ^ 128 - 1) with hm
    have htrial := trialBit_val hn hq
    have hsplit : m / 2 ^ n = 2 * (m / 2 ^ (n + 1)) + m / 2 ^ n % 2 := by
      rw [pow_succ, ← Nat.div_div_eq_div_mul]
      exact (Nat.div_add_mod _ 2).symm
    have hlow := Nat.mod_lt (m / 2 ^ n) (by decide : 0 < 2)
    -- the trial is accepted exactly when its bit belongs to the quotient
    have hfits : d.val * (trialBit q ⟨n, hn⟩).val ≤ a.val ↔ m / 2 ^ n % 2 = 1 := by
      have hplace := (trialBit q ⟨n, hn⟩).fits
      have hle : d.val * (trialBit q ⟨n, hn⟩).val ≤ a.val ↔ (trialBit q ⟨n, hn⟩).val ≤ m := by
        rw [mul_comm, ← Nat.le_div_iff_mul_le hd, hm]
        omega
      rw [hle, htrial, mul_comm, ← Nat.le_div_iff_mul_le (by positivity)]
      omega
    have hkeep (hbit : m / 2 ^ n % 2 ≠ 1) : q.val = 2 ^ n * (m / 2 ^ n) := by
      rw [hq, hsplit, (by omega : m / 2 ^ n % 2 = 0), pow_succ]
      ring
    simp only [search, result_bind, result_attempt, ok_bind, result_mul]
    by_cases hover : bound ≤ d.val * (trialBit q ⟨n, hn⟩).val
    · rw [exact_large hover]
      refine ih (Nat.le_of_succ_le hn) (hkeep (mt hfits.2 ?_))
      exact not_le.2 (a.val_lt.trans_le hover)
    · rw [exact, if_pos (not_le.1 hover)]
      refine ih (Nat.le_of_succ_le hn) ?_
      have hcmp : cmp (ofNat (d.val * (trialBit q ⟨n, hn⟩).val)) a ≠ .gt ↔
          d.val * (trialBit q ⟨n, hn⟩).val ≤ a.val := by
        rw [cmp_eq, val_ofNat (not_le.1 hover), ne_eq, Nat.compare_eq_gt, not_lt]
      by_cases hbit : m / 2 ^ n % 2 = 1
      · rw [if_pos (hcmp.2 (hfits.2 hbit)), htrial, hsplit, hbit]
      · rw [if_neg (mt hcmp.1 (mt hfits.1 hbit))]
        exact hkeep hbit

/-- **Bounded quotient.** It is the quotient of a non-zero divisor exactly when that has a place in 128 bits. -/
theorem result_quotient (a d : Wide) : (quotient a d).result =
    if h : d.val ≠ 0 ∧ a.val / d.val < 2 ^ 128 then .ok (⟨a.val / d.val, h.2⟩, ofNat (a.val % d.val))
    else .error .arithmetic := by
  simp only [quotient, result_bind, result_charge, ok_bind, result_failIf, eq_zero_iff]
  by_cases hd : d.val = 0
  · rw [dif_neg (fun h => h.1 hd), ensure, if_neg (not_not.2 hd)]
    rfl
  · have hpos := Nat.pos_of_ne_zero hd
    obtain ⟨q, hsearch, hq⟩ := @search_spec a d hpos 128 le_rfl .zero (by
      rw [Nat.div_eq_of_lt (by omega), mul_zero, Unsigned.val_zero])
    have hle : d.val * q.val ≤ a.val := by
      rw [mul_comm, ← Nat.le_div_iff_mul_le hpos, hq]
      exact min_le_left _ _
    have hsmall := a.val_lt
    rw [ensure_bind hd, hsearch, ok_bind, result_mul, exact, if_pos (hle.trans_lt hsmall), ok_bind, result_sub,
      val_ofNat (hle.trans_lt hsmall), if_pos hle, ok_bind]
    have hcmp : cmp (ofNat (a.val - d.val * q.val)) d ≠ .lt ↔ d.val ≤ a.val - d.val * q.val := by
      rw [cmp_eq, val_ofNat ((Nat.sub_le _ _).trans_lt hsmall), ne_eq, Nat.compare_eq_lt, not_lt]
    by_cases hplace : a.val / d.val < 2 ^ 128
    · have hquotient : q.val = a.val / d.val := hq.trans (min_eq_left (by omega))
      have hremainder : a.val - d.val * q.val = a.val % d.val := by
        rw [hquotient]
        exact (Nat.mod_eq_sub_mul_div).symm
      have hless := Nat.mod_lt a.val hpos
      rw [dif_pos ⟨hd, hplace⟩, ensure_bind (mt hcmp.1 (by omega)), hremainder]
      exact congrArg (fun x => Except.ok (x, ofNat (a.val % d.val))) (Unsigned.ext hquotient)
    · rw [dif_neg (fun h => hplace h.2), ensure, if_neg]
      · rfl
      · have hquotient : q.val = 2 ^ 128 - 1 := hq.trans (min_eq_right (by omega))
        have hlarge : d.val * (q.val + 1) ≤ a.val := by
          rw [mul_comm, ← Nat.le_div_iff_mul_le hpos, hquotient]
          omega
        rw [mul_add, mul_one] at hlarge
        exact not_not.2 (hcmp.2 (by omega))

theorem word_val (xs : List (BitVec 64)) : (word xs).val = Limbs.value (xs.take 2) := rfl

theorem high_iff (a : Wide) {n : ℕ} (hn : n ≤ 6) : ¬ anyNonzero (a.limbs.drop n) ↔ a.val < (2 ^ 64) ^ n := by
  have happend := Limbs.value_append (a.limbs.take n) (a.limbs.drop n)
  have htake : (a.limbs.take n).length = n := by
    rw [List.length_take, a.length_eq, min_eq_left hn]
  have hlow := Limbs.value_lt (a.limbs.take n)
  rw [List.take_append_drop, htake] at happend
  rw [htake] at hlow
  change a.val = _ at happend
  rw [anyNonzero_iff, not_ne_iff, happend]
  constructor
  · intro h
    rw [h, mul_zero, add_zero]
    exact hlow
  · intro h
    by_contra hne
    have hone := Nat.mul_le_mul_left ((2 ^ 64) ^ n) (Nat.pos_of_ne_zero hne)
    omega

/-- **Narrowing.** -/
theorem narrow_eq (a : Wide) :
    narrow a = if h : a.val < 2 ^ 128 then .ok ⟨a.val, h⟩ else .error .arithmetic := by
  have hhigh := a.high_iff (by decide : 2 ≤ 6)
  have hpow : ((2 : ℕ) ^ 64) ^ 2 = 2 ^ 128 := by decide
  rw [hpow] at hhigh
  unfold narrow
  by_cases h : a.val < 2 ^ 128
  · rw [dif_pos h, ensure_bind (hhigh.2 h)]
    refine congrArg Except.ok (Unsigned.ext ?_)
    have happend := Limbs.value_append (a.limbs.take 2) (a.limbs.drop 2)
    have hzero : Limbs.value (a.limbs.drop 2) = 0 := not_ne_iff.1 (mt anyNonzero_iff.2 (hhigh.2 h))
    rw [List.take_append_drop, hzero, mul_zero, add_zero] at happend
    exact happend.symm
  · rw [dif_neg h, ensure, if_neg (mt hhigh.1 h)]
    rfl

/-- the accumulator of a number -/
def accumulatorOf (n : ℕ) : Except Failure Accumulator256 :=
  if h : n < 2 ^ 256 then .ok ⟨⟨n / 2 ^ 128, by omega⟩, ⟨n % 2 ^ 128, Nat.mod_lt _ (by decide)⟩⟩ else .error .arithmetic

/-- **Accumulators.** -/
theorem accumulator_eq (a : Wide) : accumulator a = accumulatorOf a.val := by
  have hhigh := a.high_iff (by decide : 4 ≤ 6)
  have hpow : ((2 : ℕ) ^ 64) ^ 4 = 2 ^ 256 := by decide
  rw [hpow] at hhigh
  unfold accumulator accumulatorOf
  by_cases h : a.val < 2 ^ 256
  · rw [dif_pos h, ensure_bind (hhigh.2 h)]
    refine congrArg Except.ok (Accumulator256.val_inj ?_)
    have hlow := Limbs.value_append (a.limbs.take 2) (a.limbs.drop 2)
    have htop := Limbs.value_append ((a.limbs.drop 2).take 2) ((a.limbs.drop 2).drop 2)
    have hzero : Limbs.value (a.limbs.drop 4) = 0 := not_ne_iff.1 (mt anyNonzero_iff.2 (hhigh.2 h))
    have htake : (a.limbs.take 2).length = 2 := by
      rw [List.length_take, a.length_eq]
      rfl
    have htop' : Limbs.value (a.limbs.drop 2) = Limbs.value ((a.limbs.drop 2).take 2) := by
      rw [List.take_append_drop, List.drop_drop] at htop
      rw [htop, hzero, mul_zero, add_zero]
    rw [List.take_append_drop, htake, htop'] at hlow
    change (word a.limbs).val + 2 ^ 128 * (word (a.limbs.drop 2)).val = a.val % 2 ^ 128 + 2 ^ 128 * (a.val / 2 ^ 128)
    rw [Nat.mod_add_div, word_val, word_val]
    exact hlow.symm
  · rw [dif_neg h, ensure, if_neg (mt hhigh.1 h)]
    rfl

end Wide

/-! ## Checked helpers -/

/-- `a.checked_add(b)` -/
def add (a b : U128) : Work U128 := do
  charge 1 0 0
  .okOr (a.checkedAdd b) .arithmetic

/-- `a.checked_sub(b)` -/
def sub (a b : U128) : Work U128 := do
  charge 1 0 0
  .okOr (a.checkedSub b) .arithmetic

def muldiv (a b d : U128) : Work U128 := do
  return (← (← Wide.ofU128 a |>.mul b).quotient (.ofU128 d)).1

namespace Accumulator256

def add (x y : Accumulator256) : Work Accumulator256 := do
  .lift (Wide.accumulator (← Wide.add (.ofAccumulator x) (.ofAccumulator y)))

def sub (x y : Accumulator256) : Work Accumulator256 := do
  .lift (Wide.accumulator (← Wide.sub (.ofAccumulator x) (.ofAccumulator y)))

/-- accumulators add exactly or fail -/
theorem result_add (x y : Accumulator256) : (add x y).result = Wide.accumulatorOf (x.val + y.val) := by
  have hx := x.val_lt
  have hy := y.val_lt
  have hsum : x.val + y.val < Wide.bound := by
    refine lt_of_lt_of_le (by omega : x.val + y.val < 2 ^ 192 * 2 ^ 65) (by decide)
  simp only [add, result_bind, Wide.result_add, Wide.val_ofAccumulator, Metered.result_lift,
    Wide.accumulator_eq]
  rw [Wide.exact, if_pos hsum, ok_bind, Wide.val_ofNat hsum]

end Accumulator256

/-- **Addition** is exact or fails -/
theorem result_add (a b : U128) : (add a b).result =
    if h : a.val + b.val < 2 ^ 128 then .ok ⟨a.val + b.val, h⟩ else .error .arithmetic := by
  simp only [add, result_bind, result_charge, ok_bind, Unsigned.checkedAdd, Unsigned.ofNat?]
  split_ifs <;> rfl

/-- **Subtraction** is exact or fails -/
theorem result_sub (a b : U128) : (sub a b).result = if b ≤ a then .ok (a.sub b) else .error .arithmetic := by
  simp only [sub, result_bind, result_charge, ok_bind, Unsigned.checkedSub]
  split_ifs <;> rfl

/-- a product of an accumulator and a word is within the bound -/
theorem product_lt {m n : ℕ} (hm : m < 2 ^ 256) (hn : n < 2 ^ 128) : m * n < Wide.bound :=
  (Nat.mul_lt_mul'' hm hn).trans_eq (by decide)

/-- **Multiplication and division** are exact or fail -/
theorem result_muldiv (a b d : U128) : (muldiv a b d).result =
    if h : d.val ≠ 0 ∧ a.val * b.val / d.val < 2 ^ 128 then .ok ⟨a.val * b.val / d.val, h.2⟩
    else .error .arithmetic := by
  have hfits : a.val * b.val < Wide.bound := product_lt (a.fits.trans (by decide)) b.fits
  simp only [muldiv, result_bind, Wide.result_mul, Wide.val_ofU128, result_pure]
  rw [Wide.exact, if_pos hfits, ok_bind, Wide.result_quotient, Wide.val_ofNat hfits, Wide.val_ofU128]
  split_ifs <;> rfl

end ZenoFcis.Zusd
