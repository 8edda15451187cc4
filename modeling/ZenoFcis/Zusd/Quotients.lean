/-
What the scratch arithmetic computes, in one place, with the two relations built on its quotients (`lib.rs`, `laws.rs`).
Results:
- `scratch_exact`: every operation gives its exact number, or `Arithmetic` where that number has no place;
- `result_dividedProduct`: two successive floors are one floor;
- `result_checkAccumulatorProduct`: the local law accepts the payout and nothing else.
-/
import ZenoFcis.Zusd.Wide

namespace ZenoFcis.Zusd

open Lib Lib.Except
open Lib.Metered (result_bind result_ite result_pure)

/-- two ordered floors, whose intermediate may exceed 128 bits -/
def dividedProduct (a b d e : U128) : Work U128 := do
  let denominator ← (Wide.ofU128 d).mul e
  return (← (← (Wide.ofU128 a).mul b).quotient denominator).1

namespace Wide

/-- a computation gives an integer exactly, and ends in `Arithmetic` when that is no number of 384 bits -/
def Exactly (x : Except Failure Wide) (n : ℤ) : Prop :=
  (∀ c, x = .ok c ↔ (c.val : ℤ) = n) ∧ (x = .error .arithmetic ↔ n < 0 ∨ (bound : ℤ) ≤ n)

theorem exactly_exact (n : ℕ) : Exactly (exact n) n := by
  by_cases h : n < bound
  · refine ⟨fun c => ?_, ?_⟩
    · rw [exact, if_pos h, Except.ok.injEq, Nat.cast_inj]
      constructor
      · intro heq
        rw [← heq, val_ofNat h]
      · intro heq
        exact val_inj ((val_ofNat h).trans heq.symm)
    · rw [exact, if_pos h]
      constructor
      · intro heq
        cases heq
      · intro hout
        omega
  · refine ⟨fun c => ?_, ?_⟩
    · rw [exact_large (not_lt.1 h)]
      constructor
      · intro heq
        cases heq
      · intro heq
        exact absurd (Nat.cast_inj.1 heq ▸ c.val_lt) h
    · rw [exact_large (not_lt.1 h)]
      exact ⟨fun _ => .inr (Int.ofNat_le.2 (not_lt.1 h)), fun _ => rfl⟩

theorem exactly_sub (a b : Wide) : Exactly (sub a b).result ((a.val : ℤ) - b.val) := by
  rw [result_sub]
  have ha := a.val_lt
  by_cases h : b.val ≤ a.val
  · have hexact : (if b.val ≤ a.val then .ok (ofNat (a.val - b.val)) else .error Failure.arithmetic) =
        exact (a.val - b.val) := by
      rw [if_pos h, exact, if_pos ((Nat.sub_le _ _).trans_lt ha)]
    rw [hexact, ← Nat.cast_sub h]
    exact exactly_exact _
  · rw [if_neg h]
    refine ⟨fun c => ?_, ?_⟩
    · constructor
      · intro heq
        cases heq
      · intro heq
        omega
    · exact ⟨fun _ => .inl (by omega), fun _ => rfl⟩

theorem quotientWide_iff (a b q r : Wide) :
    (quotientWide a b).result = .ok (q, r) ↔ q.val * b.val + r.val = a.val ∧ r.val < b.val := by
  have hquotient := (Nat.div_le_self a.val b.val).trans_lt a.val_lt
  have hremainder := (Nat.mod_le a.val b.val).trans_lt a.val_lt
  rw [result_quotientWide]
  by_cases hb : b.val = 0
  · rw [if_pos hb]
    constructor
    · intro heq
      cases heq
    · intro ⟨_, hlt⟩
      omega
  · rw [if_neg hb, Except.ok.injEq, Prod.mk.injEq]
    have hunique := Nat.div_mod_unique (a := a.val) (c := r.val) (d := q.val) (Nat.pos_of_ne_zero hb)
    constructor
    · rintro ⟨rfl, rfl⟩
      rw [val_ofNat hquotient, val_ofNat hremainder]
      exact ⟨Nat.div_add_mod' _ _, Nat.mod_lt _ (Nat.pos_of_ne_zero hb)⟩
    · intro ⟨hsum, hlt⟩
      obtain ⟨hq, hr⟩ := hunique.2 ⟨by rw [← hsum]; ring, hlt⟩
      exact ⟨val_inj ((val_ofNat hquotient).trans hq), val_inj ((val_ofNat hremainder).trans hr)⟩

theorem quotient_iff (a b : Wide) (q : U128) (r : Wide) :
    (quotient a b).result = .ok (q, r) ↔ (quotientWide a b).result = .ok (ofU128 q, r) := by
  rw [quotientWide_iff, val_ofU128, result_quotient]
  have hremainder := (Nat.mod_le a.val b.val).trans_lt a.val_lt
  by_cases h : b.val ≠ 0 ∧ a.val / b.val < 2 ^ 128
  · rw [dif_pos h, Except.ok.injEq, Prod.mk.injEq]
    constructor
    · rintro ⟨rfl, rfl⟩
      rw [val_ofNat hremainder]
      exact ⟨Nat.div_add_mod' _ _, Nat.mod_lt _ (Nat.pos_of_ne_zero h.1)⟩
    · intro ⟨hsum, hlt⟩
      obtain ⟨hq, hr⟩ := (Nat.div_mod_unique (a := a.val) (d := q.val) (Nat.pos_of_ne_zero h.1)).2
        ⟨by rw [← hsum]; ring, hlt⟩
      exact ⟨Unsigned.ext hq, val_inj ((val_ofNat hremainder).trans hr)⟩
  · rw [dif_neg h]
    constructor
    · intro heq
      cases heq
    · intro ⟨hsum, hlt⟩
      refine absurd ⟨by omega, ?_⟩ h
      obtain ⟨hq, -⟩ := (Nat.div_mod_unique (a := a.val) (d := q.val) (by omega : 0 < b.val)).2
        ⟨by rw [← hsum]; ring, hlt⟩
      rw [hq]
      exact q.fits

theorem quotient_error (a b : Wide) :
    (quotient a b).result = .error .arithmetic ↔ b.val = 0 ∨ 2 ^ 128 ≤ a.val / b.val := by
  rw [result_quotient]
  by_cases h : b.val ≠ 0 ∧ a.val / b.val < 2 ^ 128
  · rw [dif_pos h]
    constructor
    · intro heq
      cases heq
    · intro hout
      omega
  · rw [dif_neg h]
    refine ⟨fun _ => ?_, fun _ => rfl⟩
    omega

end Wide

/-- **Two floors.** They are the floor of the product over the product of the divisors. -/
theorem result_dividedProduct (a b d e : U128) : (dividedProduct a b d e).result =
    if h : d.val * e.val ≠ 0 ∧ a.val * b.val / d.val / e.val < 2 ^ 128 then .ok ⟨a.val * b.val / d.val / e.val, h.2⟩
    else .error .arithmetic := by
  have hproduct : a.val * b.val < Wide.bound := product_lt (a.fits.trans (by decide)) b.fits
  have hdivisor : d.val * e.val < Wide.bound := product_lt (d.fits.trans (by decide)) e.fits
  simp only [dividedProduct, result_bind, Wide.result_mul, Wide.val_ofU128, result_pure]
  rw [Wide.exact, if_pos hdivisor, ok_bind, Wide.exact, if_pos hproduct, ok_bind, Wide.result_quotient,
    Wide.val_ofNat hproduct, Wide.val_ofNat hdivisor]
  simp only [Nat.div_div_eq_div_mul]
  split_ifs <;> rfl

/-- **The scratch arithmetic is exact.** -/
theorem Wide.scratch_exact :
    (∀ a b : Wide, Exactly (Wide.add a b).result (a.val + b.val) ∧ Exactly (Wide.sub a b).result (a.val - b.val)) ∧
    (∀ (a : Wide) (b : U128), Exactly (mul a b).result (a.val * b.val)) ∧
    (∀ a b q r : Wide,
      (quotientWide a b).result = .ok (q, r) ↔ q.val * b.val + r.val = a.val ∧ r.val < b.val) ∧
    (∀ a b : Wide, b.val ≠ 0 → ∃ q r : Wide, (quotientWide a b).result = .ok (q, r)) ∧
    (∀ (a b : Wide) (q : U128) (r : Wide),
      (quotient a b).result = .ok (q, r) ↔ (quotientWide a b).result = .ok (ofU128 q, r)) ∧
    (∀ a b : Wide, (quotient a b).result = .error .arithmetic ↔ b.val = 0 ∨ 2 ^ 128 ≤ a.val / b.val) ∧
    ∀ a b d e : U128, d.val ≠ 0 → e.val ≠ 0 → a.val * b.val / d.val / e.val < 2 ^ 128 →
      ∃ q : U128, (dividedProduct a b d e).result = .ok q ∧ q.val = a.val * b.val / d.val / e.val := by
  refine ⟨fun a b => ⟨?_, exactly_sub a b⟩, fun a b => ?_, quotientWide_iff, fun a b hb => ?_, quotient_iff,
    quotient_error, fun a b d e hd he hfits => ?_⟩
  · rw [result_add, ← Nat.cast_add]
    exact exactly_exact _
  · rw [result_mul, ← Nat.cast_mul]
    exact exactly_exact _
  · rw [result_quotientWide, if_neg hb]
    exact ⟨_, _, rfl⟩
  · rw [result_dividedProduct, dif_pos ⟨Nat.mul_ne_zero hd he, hfits⟩]
    exact ⟨_, rfl, rfl⟩

/-! ## The local law of a payout -/

/-- whether a candidate for the payout of a non-zero divisor is lawful; it calls neither divider -/
def lawfulCandidate (n : Wide) (divisor : U128) : Except Failure U128 → Work Bool
  | .ok q => do
    let product ← (Wide.ofU128 divisor).mul q
    charge 12 0 0
    if Wide.cmp product n ≠ .gt then
      let rest ← Wide.sub n product
      pure (decide (Wide.cmp rest (.ofU128 divisor) = .lt))
    else pure false
  | .error .arithmetic => do
    let product ← (Wide.ofU128 divisor).mul .max
    let cutoff ← Wide.add product (.ofU128 divisor)
    charge 6 0 0
    pure (decide (Wide.cmp n cutoff ≠ .lt))
  | .error _ => pure false

/-- the multiply and divide law -/
def checkAccumulatorProduct (a : Accumulator256) (amount divisor : U128) (candidate : Except Failure U128) :
    Work Unit := do
  charge 1 0 0
  let lawful ←
    if divisor = .zero then pure (decide (candidate = .error .arithmetic))
    else (Wide.ofAccumulator a).mul amount >>= fun n => lawfulCandidate n divisor candidate
  failIf (lawful = false) (.law 2003)

/-- the payout that the law defines -/
def payout (a : Accumulator256) (amount divisor : U128) : Except Failure U128 :=
  if h : divisor.val ≠ 0 ∧ a.val * amount.val / divisor.val < 2 ^ 128
  then .ok ⟨a.val * amount.val / divisor.val, h.2⟩ else .error .arithmetic

theorem payout_error_iff (a : Accumulator256) (amount divisor : U128) (hpos : 0 < divisor.val) :
    .error .arithmetic = payout a amount divisor ↔ divisor.val * 2 ^ 128 ≤ a.val * amount.val := by
  rw [mul_comm, ← Nat.le_div_iff_mul_le hpos, payout]
  split_ifs with h
  · constructor
    · intro heq
      cases heq
    · intro hle
      exact absurd h.2 (not_lt.2 hle)
  · refine ⟨fun _ => ?_, fun _ => rfl⟩
    by_contra hlt
    exact h ⟨hpos.ne', not_le.1 hlt⟩

theorem payout_ok_iff (a : Accumulator256) (amount divisor q : U128) (hpos : 0 < divisor.val) :
    .ok q = payout a amount divisor ↔
      divisor.val * q.val ≤ a.val * amount.val ∧ a.val * amount.val - divisor.val * q.val < divisor.val := by
  have hfloor : divisor.val * q.val ≤ a.val * amount.val ∧
      a.val * amount.val - divisor.val * q.val < divisor.val ↔ a.val * amount.val / divisor.val = q.val := by
    have hcomm := Nat.mul_comm divisor.val q.val
    rw [Nat.div_eq_iff hpos]
    constructor
    · intro h
      omega
    · intro h
      omega
  rw [hfloor, payout]
  split_ifs with h
  · rw [Except.ok.injEq, Unsigned.ext_iff]
    exact eq_comm
  · constructor
    · intro heq
      cases heq
    · intro heq
      exact absurd ⟨hpos.ne', heq ▸ q.fits⟩ h

theorem result_lawful {lawful : Bool} {p : Prop} [Decidable p] (h : lawful = true ↔ p) (e : Failure) :
    (failIf (lawful = false) e).result = if p then .ok () else .error e := by
  rw [result_failIf, ensure]
  simp only [Bool.not_eq_false, h]

/-- an `Arithmetic` candidate is compared with the least product whose payout has no place -/
theorem result_lawful_arithmetic {m : ℕ} (hm : m < Wide.bound) (divisor : U128) :
    (lawfulCandidate (.ofNat m) divisor (.error .arithmetic)).result = .ok (decide (divisor.val * 2 ^ 128 ≤ m)) := by
  have hsum : divisor.val * (2 ^ 128 - 1) + divisor.val = divisor.val * 2 ^ 128 := by
    rw [← Nat.mul_succ, Nat.succ_eq_add_one, Nat.sub_add_cancel Nat.one_le_two_pow]
  have hlarge : divisor.val * 2 ^ 128 < Wide.bound :=
    (Nat.mul_lt_mul_of_pos_right divisor.fits (Nat.two_pow_pos 128)).trans (by decide)
  have hmax : divisor.val * (2 ^ 128 - 1) < Wide.bound := by
    refine lt_of_le_of_lt ?_ hlarge
    rw [← hsum]
    exact Nat.le_add_right _ _
  unfold lawfulCandidate
  rw [result_bind, Wide.result_mul, Wide.val_ofU128, Unsigned.val_max, Wide.exact, if_pos hmax, ok_bind,
    result_bind, Wide.result_add, Wide.val_ofNat hmax, Wide.val_ofU128, hsum, Wide.exact, if_pos hlarge, ok_bind,
    result_bind, result_charge, ok_bind, result_pure, Wide.cmp_eq, Wide.val_ofNat hm,
    Wide.val_ofNat hlarge]
  simp only [ne_eq, Nat.compare_eq_lt, not_lt]

theorem result_lawful_ok {m : ℕ} (hm : m < Wide.bound) (divisor q : U128) :
    (lawfulCandidate (.ofNat m) divisor (.ok q)).result =
      .ok (decide (divisor.val * q.val ≤ m ∧ m - divisor.val * q.val < divisor.val)) := by
  have hq : divisor.val * q.val < Wide.bound := product_lt (divisor.fits.trans (by decide)) q.fits
  unfold lawfulCandidate
  rw [result_bind, Wide.result_mul, Wide.val_ofU128, Wide.exact, if_pos hq, ok_bind, result_bind,
    result_charge, ok_bind, Wide.cmp_eq, Wide.val_ofNat hm, Wide.val_ofNat hq, result_ite]
  simp only [ne_eq, Nat.compare_eq_gt, not_lt]
  by_cases hle : divisor.val * q.val ≤ m
  · have hrest : m - divisor.val * q.val < Wide.bound := (Nat.sub_le _ _).trans_lt hm
    rw [if_pos hle, result_bind, Wide.result_sub, Wide.val_ofNat hm, Wide.val_ofNat hq, if_pos hle, ok_bind,
      result_pure, Wide.cmp_eq, Wide.val_ofNat hrest, Wide.val_ofU128]
    simp only [Nat.compare_eq_lt, hle, true_and]
  · rw [if_neg hle, result_pure]
    simp only [hle, false_and, decide_false]

/-- **The local law.** It accepts the payout and nothing else. -/
theorem result_checkAccumulatorProduct (a : Accumulator256) (amount divisor : U128) (candidate : Except Failure U128) :
    (checkAccumulatorProduct a amount divisor candidate).result =
      if candidate = payout a amount divisor then .ok () else .error (.law 2003) := by
  unfold checkAccumulatorProduct
  simp only [result_bind, result_charge, ok_bind, result_ite]
  by_cases hzero : divisor = .zero
  · have hpayout : payout a amount divisor = .error .arithmetic :=
      dif_neg (fun h => h.1 (Unsigned.eq_zero_iff.1 hzero))
    rw [if_pos hzero, result_pure, ok_bind, hpayout]
    exact result_lawful decide_eq_true_iff _
  · have hpos : 0 < divisor.val := Nat.pos_of_ne_zero (mt Unsigned.eq_zero_iff.2 hzero)
    have hproduct : a.val * amount.val < Wide.bound := product_lt a.val_lt amount.fits
    rw [if_neg hzero, Wide.result_mul, Wide.val_ofAccumulator, Wide.exact, if_pos hproduct, ok_bind]
    rcases candidate with e | q
    · by_cases he : e = .arithmetic
      · rw [he, result_lawful_arithmetic hproduct, ok_bind]
        refine result_lawful ?_ _
        rw [decide_eq_true_iff]
        exact (payout_error_iff a amount divisor hpos).symm
      · have hnone : (lawfulCandidate (.ofNat (a.val * amount.val)) divisor (.error e)).result = .ok false := by
          cases e with
          | arithmetic => exact absurd rfl he
          | _ => rfl
        rw [hnone, ok_bind]
        refine result_lawful ?_ _
        unfold payout
        split_ifs
        · simp
        · simpa using he
    · rw [result_lawful_ok hproduct, ok_bind]
      refine result_lawful ?_ _
      rw [decide_eq_true_iff]
      exact (payout_ok_iff a amount divisor q hpos).symm

end ZenoFcis.Zusd
