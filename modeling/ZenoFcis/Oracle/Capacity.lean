/-
Exposure capacity (`arithmetic.rs`, `prices.rs` and `laws.rs` of the oracle): the producer `status` over the two smallest
bonds, and `security_law`, which enumerates the pairs and compares bounds by ordered subtraction. Results:
- `status_exact`: the status is the exact quotient of the pair's capacity against the exposure, or unavailable;
- `security_law_iff`: the law accepts exactly the status that the producer reports;
- `pair_capacity_exact`: the quotient of a pair for every bond, price, scale and divisor, the least pair, and the law.
-/
import ZenoFcis.Lib.Limbs
import ZenoFcis.Oracle.QuorumChoice

namespace ZenoFcis.Oracle

open Lib Lib.Except Finite.Wide
open Lib.Metered (result_bind result_pure)

abbrev Word := BitVec 128

abbrev UsdExposureE18 := U128

abbrev StressE8 := U128

/-- the exposure caps of `EconomicParameters`, which only the capacity reads -/
structure ExposureCaps where
  debtCeiling : UsdExposureE18
  liquidationCap : UsdExposureE18
  redemptionCap : UsdExposureE18
  otherCap : UsdExposureE18
deriving DecidableEq

/-- already allocated bond and stress premises -/
structure SecurityInputs where
  selectedBonds : Fin 3 → ZdexE18
  stress : Option StressE8
  stressSource : Hash
  valuationRoot : Hash
deriving DecidableEq

inductive CapacityStatus where
  | available (capacity : UsdExposureE18)
  | overCap (capacity : UsdExposureE18)
  | unavailable
deriving DecidableEq

/-! ## Wide arithmetic -/

def word (n : U128) : Word := BitVec.ofNat 128 n.val

def fromWord (q : Word) : U128 := ⟨q.toNat, q.isLt⟩

def limbs3 (v : Word × Word × Word) : List Word := [v.1, v.2.1, v.2.2]

def e8 : Word := 100000000

/-- `sum`: the exact four-limb sum of two three-limb values -/
def sum (x y : List Word) : List Word :=
  let out := Limbs.add x y false
  out.1 ++ [Limbs.bit out.2]

/-- the rounds of the quotient search, from the highest shift down -/
def capacityLoop (b : Word) (numerator : List Word) : ℕ → Word → Work Word
  | 0, quotient => pure quotient
  | shift + 1, quotient => do
    step
    let trial := quotient ||| (1 : Word) <<< shift
    let product := limbs3 (multiplyThree trial b e8) ++ [0]
    capacityLoop b numerator shift (if Limbs.compareTop product numerator ≠ .gt then trial else quotient)

def pairCapacity (first second : ZdexE18) (stress : StressE8) (a b : U128) : Work UsdExposureE18 := do
  step
  failIf (a = .zero ∨ b ≤ a) .invalidProfile
  let numerator := sum (limbs3 (multiplyThree (word first) (word stress) (word a)))
    (limbs3 (multiplyThree (word second) (word stress) (word a)))
  let denominator := multiply (word b) e8
  let overflow := [0, denominator.1, denominator.2, 0]
  step
  failIf (Limbs.compareTop numerator overflow ≠ .lt) .arithmetic
  let quotient ← capacityLoop (word b) numerator 128 0
  pure (fromWord quotient)

/-- whether `t <= x + y`: either `t <= x`, or `t - x <= y` -/
def atMostSum (t x y : List Word) : Bool :=
  if Limbs.compareTop t x ≠ .gt then true else decide (Limbs.compareTop (Limbs.sub t x false).1 y ≠ .gt)

/-! ## The producer -/

/-- the outcome of a computation as a value; a refused charge still ends the computation -/
def attempt {α : Type} (x : Work α) : Work (Except Failure α) := ⟨x.charges, .ok x.result⟩

/-- the sum of the caps, when it fits -/
def ExposureCaps.exposure (caps : ExposureCaps) : Option UsdExposureE18 :=
  ((caps.debtCeiling.checkedAdd caps.liquidationCap).bind (·.checkedAdd caps.redemptionCap)).bind
    (·.checkedAdd caps.otherCap)

/-- `exposure.is_some_and(|x| x <= cap)` -/
def ExposureCaps.within (caps : ExposureCaps) (cap : UsdExposureE18) : Bool :=
  caps.exposure.any fun x => decide (x ≤ cap)

/-- the exposure against a capacity -/
def ExposureCaps.statusOf (caps : ExposureCaps) (cap : UsdExposureE18) : CapacityStatus :=
  if caps.within cap then .available cap else .overCap cap

/-- the bonds and the valuation can be counted on at all -/
def SecurityInputs.usable (s : SecurityInputs) (d : DisputeParameters) (e : EconomicParameters) : Prop :=
  d.falsePriceSlashable = true ∧ s.stressSource = e.stressSource ∧ s.valuationRoot ≠ .zero

instance (s : SecurityInputs) (d : DisputeParameters) (e : EconomicParameters) : Decidable (s.usable d e) := by
  unfold SecurityInputs.usable
  infer_instance

def status (p : Parameters) (caps : ExposureCaps) (s : SecurityInputs) : Work CapacityStatus := do
  .lift p.validate
  let e ← .okOr p.economy .unboundParameter
  let d ← .okOr p.disputes .unboundParameter
  if ¬ s.usable d e then pure .unavailable
  else match s.stress with
    | none => pure .unavailable
    | some stress =>
      if stress = .zero then pure .unavailable
      else do
        steps 3
        let bonds := ascending s.selectedBonds
        match ← attempt (pairCapacity (bonds 0) (bonds 1) stress e.alphaNumerator e.alphaDenominator) with
        | .ok cap =>
          step
          pure (caps.statusOf cap)
        | .error .arithmetic => pure .unavailable
        | .error other => .fail other

/-! ## The law -/

/-- a two-bond sum as `(carry, low)` -/
def bondSum (s : SecurityInputs) (pair : Fin 3 × Fin 3) : Bool × Word :=
  let out := Limbs.overflowingAdd (word (s.selectedBonds pair.1)) (word (s.selectedBonds pair.2))
  (out.2, out.1)

def sumLess (x y : Bool × Word) : Prop := x.1 < y.1 ∨ (x.1 = y.1 ∧ x.2 < y.2)

instance (x y : Bool × Word) : Decidable (sumLess x y) := by
  unfold sumLess
  infer_instance

/-- the pair with the smallest sum -/
def smallestPair (s : SecurityInputs) : Work (Fin 3 × Fin 3) :=
  [(0, 1), (0, 2), (1, 2)].foldlM (fun pair next => do
    step
    pure (if sumLess (bondSum s next) (bondSum s pair) then next else pair)) (0, 1)

/-- the law over a status that is not to be unavailable -/
def boundLaw (caps : ExposureCaps) (b : U128) (x y : List Word) (status : CapacityStatus) : Work Unit := do
  let q ← match status with
    | .available q => pure q
    | .overCap q => pure q
    | .unavailable => .fail (.law 113003)
  step
  failIf (¬ atMostSum (limbs3 (multiplyThree (word q) (word b) e8)) x y) (.law 113004)
  failIf (∃ next, q.checkedSucc = some next ∧ atMostSum (limbs3 (multiplyThree (word next) (word b) e8)) x y)
    (.law 113005)
  failIf (caps.within q ≠ match status with
    | .available _ => true
    | _ => false) (.law 113006)

/-- the share of one bond in the numerator of the capacity -/
def share (s : SecurityInputs) (e : EconomicParameters) (stress : StressE8) (i : Fin 3) : List Word :=
  limbs3 (multiplyThree (word (s.selectedBonds i)) (word stress) (word e.alphaNumerator))

/-- the law over usable premises, from the shares of the two bonds -/
def stressLaw (caps : ExposureCaps) (b : U128) (x y : List Word) (status : CapacityStatus) : Work Unit :=
  let den := multiply (word b) e8
  if atMostSum [0, den.1, den.2] x y then failIf (status ≠ .unavailable) (.law 113002)
  else boundLaw caps b x y status

def securityLaw (p : Parameters) (caps : ExposureCaps) (s : SecurityInputs) (status : CapacityStatus) : Work Unit := do
  let e ← .okOr p.economy .unboundParameter
  let d ← .okOr p.disputes .unboundParameter
  let pair ← smallestPair s
  if ¬ (s.usable d e ∧ s.stress.any fun p => decide (.zero < p)) then
    failIf (status ≠ .unavailable) (.law 113000)
  else do
    let stress ← .okOr s.stress (.law 113001)
    stressLaw caps e.alphaDenominator (share s e stress pair.1) (share s e stress pair.2) status

/-! ## Values of limbs -/

theorem toNat_word (n : U128) : (word n).toNat = n.val := by
  rw [word, BitVec.toNat_ofNat, Nat.mod_eq_of_lt n.fits]

theorem value_limbs3 (v : Word × Word × Word) : Limbs.value (limbs3 v) = number3 v := by
  simp only [limbs3, Limbs.value, number3]
  ring

theorem value_product (a b c : Word) : Limbs.value (limbs3 (multiplyThree a b c)) = a.toNat * b.toNat * c.toNat := by
  rw [value_limbs3, number3_multiplyThree]

theorem value_append_zero (xs : List Word) : Limbs.value (xs ++ [0]) = Limbs.value xs := by
  induction xs with
  | nil => simp [Limbs.value]
  | cons x xs ih => rw [List.cons_append, Limbs.value, ih, Limbs.value]

theorem value_sum (u v : Word × Word × Word) :
    Limbs.value (sum (limbs3 u) (limbs3 v)) = Limbs.value (limbs3 u) + Limbs.value (limbs3 v) := by
  have h := @Limbs.add_value 128 (by decide) (limbs3 u) (limbs3 v) rfl false
  have hlen : (Limbs.add (limbs3 u) (limbs3 v) false).1.length = 3 := rfl
  have happend (xs : List Word) (x : Word) : Limbs.value (xs ++ [x]) =
      Limbs.value xs + (2 ^ 128) ^ xs.length * x.toNat := by
    induction xs with
    | nil => simp [Limbs.value]
    | cons y xs ih =>
      rw [List.cons_append, Limbs.value, ih, Limbs.value, List.length_cons, pow_succ]
      ring
  rw [sum, happend, hlen, Limbs.toNat_bit (by decide)]
  exact h

theorem value_denominator (b : Word) :
    Limbs.value [0, (multiply b e8).1, (multiply b e8).2, 0] = 2 ^ 128 * (b.toNat * 10 ^ 8) := by
  have h := number2_multiply b e8
  have he : e8.toNat = 10 ^ 8 := rfl
  rw [he] at h
  rw [← h]
  have hz : (0 : Word).toNat = 0 := rfl
  simp only [Limbs.value, number2, hz]
  ring

theorem toNat_trial {quotient : Word} {n k : ℕ} (hq : quotient.toNat = 2 ^ (n + 1) * k) (hn : n < 128) :
    (quotient ||| (1 : Word) <<< n).toNat = quotient.toNat + 2 ^ n := by
  have hbit : ((1 : Word) <<< n).toNat = 2 ^ n := by
    have hone : (1 : Word).toNat = 1 := rfl
    rw [BitVec.toNat_shiftLeft, Nat.shiftLeft_eq, hone, one_mul,
      Nat.mod_eq_of_lt (Nat.pow_lt_pow_right (by decide) hn)]
  rw [BitVec.toNat_or, hbit, hq, Nat.two_pow_add_eq_or_of_lt (Nat.pow_lt_pow_right (by decide) (Nat.lt_succ_self n))]

theorem capacityLoop_spec {b : Word} {numerator : List Word} (hlen : numerator.length = 4) {n : ℕ} {quotient : Word}
    (hn : n ≤ 128) (hq : ∃ k, quotient.toNat = 2 ^ n * k)
    (hlow : quotient.toNat * (b.toNat * 10 ^ 8) ≤ Limbs.value numerator)
    (hhigh : Limbs.value numerator < (quotient.toNat + 2 ^ n) * (b.toNat * 10 ^ 8)) :
    ∃ q, (capacityLoop b numerator n quotient).result = .ok q ∧
      q.toNat = Limbs.value numerator / (b.toNat * 10 ^ 8) := by
  induction n generalizing quotient with
  | zero => exact ⟨quotient, rfl, (Nat.div_eq_of_lt_le hlow (by simpa using hhigh)).symm⟩
  | succ n ih =>
    obtain ⟨k, hk⟩ := hq
    have htrial := toNat_trial hk hn
    have hvalue : Limbs.value (limbs3 (multiplyThree (quotient ||| (1 : Word) <<< n) b e8) ++ [0]) =
        (quotient.toNat + 2 ^ n) * (b.toNat * 10 ^ 8) := by
      rw [value_append_zero, value_product, htrial, mul_assoc]
      rfl
    have hcompare : Limbs.compareTop (limbs3 (multiplyThree (quotient ||| (1 : Word) <<< n) b e8) ++ [0]) numerator =
        compare ((quotient.toNat + 2 ^ n) * (b.toNat * 10 ^ 8)) (Limbs.value numerator) := by
      rw [Limbs.compareTop_eq (by rw [hlen]; rfl), hvalue]
    simp only [capacityLoop, result_bind, result_step, ok_bind, hcompare]
    by_cases hle : compare ((quotient.toNat + 2 ^ n) * (b.toNat * 10 ^ 8)) (Limbs.value numerator) ≠ .gt
    · rw [if_pos hle]
      refine ih (by omega) ⟨2 * k + 1, ?_⟩ ?_ ?_
      · rw [htrial, hk]
        ring
      · rw [htrial]
        exact compare_le_iff_le.1 hle
      · rw [htrial]
        exact lt_of_lt_of_eq hhigh (by ring)
    · rw [if_neg hle]
      refine ih (by omega) ⟨2 * k, ?_⟩ hlow ?_
      · rw [hk]
        ring
      · exact compare_gt_iff_gt.1 (not_not.1 hle)

theorem atMostSum_iff {t x y : List Word} (hx : t.length = x.length) (hy : x.length = y.length) :
    atMostSum t x y = true ↔ Limbs.value t ≤ Limbs.value x + Limbs.value y := by
  unfold atMostSum
  rw [Limbs.compareTop_eq hx]
  by_cases hle : compare (Limbs.value t) (Limbs.value x) ≠ .gt
  · rw [if_pos hle]
    exact iff_of_true rfl ((compare_le_iff_le.1 hle).trans (Nat.le_add_right _ _))
  · have hgt : Limbs.value x < Limbs.value t := compare_gt_iff_gt.1 (not_not.1 hle)
    have hlength (xs ys : List Word) (borrow : Bool) (h : xs.length = ys.length) :
        (Limbs.sub xs ys borrow).1.length = xs.length := by
      induction xs generalizing ys borrow with
      | nil => rfl
      | cons a xs ih =>
        cases ys with
        | nil => cases h
        | cons c ys => simp [Limbs.sub, ih ys _ (Nat.succ.inj h)]
    have hsub := @Limbs.sub_value 128 (by decide) t x hx false
    have hbelow := Limbs.value_lt (Limbs.sub t x false).1
    rw [hlength t x false hx] at hbelow
    have hborrow : (Limbs.sub t x false).2.toNat = 0 := by
      -- a borrow out of the last limb would make the subtrahend the larger one
      cases hb : (Limbs.sub t x false).2 with
      | false => rfl
      | true =>
        rw [hb] at hsub
        simp only [Bool.toNat_false, Bool.toNat_true, add_zero, mul_one] at hsub
        omega
    rw [hborrow, mul_zero] at hsub
    simp only [Bool.toNat_false, add_zero] at hsub
    rw [if_neg hle, decide_eq_true_eq, Limbs.compareTop_eq ((hlength t x false hx).trans (hx.trans hy)),
      Ne, compare_gt_iff_gt, not_lt]
    omega

/-! ## The exact capacity -/

theorem result_then {α : Type} {x : Work Unit} (h : x.result = .ok ()) (f : Unit → Work α) :
    (x >>= f).result = (f ()).result := by
  rw [result_bind, h]
  rfl

/-- the capacity of the two smallest bonds, as a quotient of naturals -/
def exactCapacity (s : SecurityInputs) (e : EconomicParameters) (stress : StressE8) : ℕ :=
  ((ascending s.selectedBonds 0).val + (ascending s.selectedBonds 1).val) * stress.val * e.alphaNumerator.val /
    (e.alphaDenominator.val * 10 ^ 8)

/-- the capacity when it is a machine integer -/
def capacityOf (s : SecurityInputs) (e : EconomicParameters) (stress : StressE8) : Option UsdExposureE18 :=
  Unsigned.ofNat? (exactCapacity s e stress)

/-- the status that the policy, the caps and the security premises determine -/
def exactStatus (caps : ExposureCaps) (s : SecurityInputs) (d : DisputeParameters) (e : EconomicParameters) :
    CapacityStatus :=
  if ¬ s.usable d e then .unavailable
  else match s.stress with
    | none => .unavailable
    | some stress =>
      if stress = .zero then .unavailable
      else (capacityOf s e stress).elim .unavailable caps.statusOf

theorem result_pairCapacity (first second : ZdexE18) (stress : StressE8) {a b : U128} (ha : a ≠ .zero) (hab : a < b) :
    (pairCapacity first second stress a b).result =
      okOr (Unsigned.ofNat? ((first.val + second.val) * stress.val * a.val / (b.val * 10 ^ 8))) .arithmetic := by
  have hpos : 0 < b.val * 10 ^ 8 := by
    have hlt := Unsigned.lt_def.1 hab
    exact Nat.mul_pos (by omega) (by decide)
  have hprofile : ¬ (a = .zero ∨ b ≤ a) := by
    rw [not_or, not_le]
    exact ⟨ha, hab⟩
  obtain ⟨numerator, hnumerator⟩ : ∃ numerator, sum (limbs3 (multiplyThree (word first) (word stress) (word a)))
    (limbs3 (multiplyThree (word second) (word stress) (word a))) = numerator := ⟨_, rfl⟩
  have hlen : numerator.length = 4 := by
    rw [← hnumerator]
    rfl
  have hvalue : Limbs.value numerator = (first.val + second.val) * stress.val * a.val := by
    rw [← hnumerator, value_sum, value_product, value_product]
    simp only [toNat_word]
    ring
  have hcompare : Limbs.compareTop numerator [0, (multiply (word b) e8).1, (multiply (word b) e8).2, 0] =
      compare (Limbs.value numerator) (2 ^ 128 * (b.val * 10 ^ 8)) := by
    rw [Limbs.compareTop_eq (by rw [hlen]; rfl), value_denominator, toNat_word]
  have hpassed : (failIf (a = .zero ∨ b ≤ a) Failure.invalidProfile).result = .ok () := failIf_ok.2 hprofile
  rw [pairCapacity, result_then result_step, result_then hpassed, hnumerator, result_then result_step,
    result_bind, failIf_eq, hcompare, ← hvalue]
  by_cases hlt : Limbs.value numerator < 2 ^ 128 * (b.val * 10 ^ 8)
  · obtain ⟨q, hq, hquotient⟩ := @capacityLoop_spec (word b) numerator hlen 128 0 le_rfl ⟨0, rfl⟩ (by simp)
      (by rw [toNat_word]; simpa using hlt)
    rw [toNat_word] at hquotient
    have hfit : Unsigned.ofNat? (Limbs.value numerator / (b.val * 10 ^ 8)) = some (fromWord q) :=
      Unsigned.ofNat?_eq_some.2 hquotient
    rw [ensure_bind (by rw [compare_lt_iff_lt.2 hlt]; decide), result_bind, hq, hfit]
    rfl
  · have hnone : (Unsigned.ofNat? (Limbs.value numerator / (b.val * 10 ^ 8)) : Option UsdExposureE18) = none := by
      rw [Unsigned.ofNat?_eq_none, Nat.le_div_iff_mul_le hpos]
      exact not_lt.1 hlt
    have hne : compare (Limbs.value numerator) (2 ^ 128 * (b.val * 10 ^ 8)) ≠ .lt := by
      rw [Ne, compare_lt_iff_lt]
      exact hlt
    rw [ensure, if_neg (not_not.2 hne), hnone]
    rfl

variable {p : Parameters} {c : ClockParameters} {d : DisputeParameters} {e : EconomicParameters} {s : SecurityInputs}

theorem Parameters.Bound.fraction
    (h : p.Bound c d e) : e.alphaNumerator ≠ .zero ∧ e.alphaNumerator < e.alphaDenominator := by
  have hparts := h.valid
  unfold Parameters.validate at hparts
  simp only [h.clock, h.disputes, h.economy, bind_eq_ok, okOr_eq_ok, Option.some.injEq, exists_eq_left', ensure_eq_ok,
    not_or, not_le] at hparts
  tauto

theorem result_present {α β : Type} (a : α) (e : Failure) (f : α → Work β) :
    (Metered.okOr (some a) e >>= f).result = (f a).result := by
  rw [result_bind, Metered.result_okOr_some]
  rfl

theorem result_some {α β : Type} {a : α} {e : Failure} {f : α → Work β} {y : Work β} (h : f a = y) :
    (Metered.okOr (some a) e >>= f).result = y.result := by
  rw [← h, result_present]

theorem result_attained {α β : Type} {x : Work α} {a : α} {f : α → Work β} {y : Work β}
    (h : x.result = .ok a) (hf : f a = y) :
    (x >>= f).result = y.result := by
  rw [← hf, result_bind, h, ok_bind]

theorem result_attempted {x : Work UsdExposureE18} {cap : Option UsdExposureE18} (caps : ExposureCaps)
    (hx : x.result = okOr cap .arithmetic) :
    (attempt x >>= fun
      | .ok cap => do
        step
        pure (caps.statusOf cap)
      | .error .arithmetic => pure .unavailable
      | .error other => .fail other).result = .ok (cap.elim .unavailable caps.statusOf) := by
  have hattempt : (attempt x).result = .ok x.result := rfl
  rw [result_bind, hattempt, ok_bind, hx]
  cases cap with
  | none => rfl
  | some cap => rfl

/-- **Exact status.** The producer reports the exact status. -/
theorem status_exact (h : p.Bound c d e) (caps : ExposureCaps) (s : SecurityInputs) :
    (status p caps s).result = .ok (exactStatus caps s d e) := by
  obtain ⟨ha, hab⟩ := h.fraction
  have hvalid : (Metered.lift p.validate : Work Unit).result = .ok () := h.valid
  rw [status, result_then hvalid, h.economy, h.disputes, result_present, result_present, exactStatus]
  by_cases husable : s.usable d e
  · rw [if_neg (not_not.2 husable), if_neg (not_not.2 husable)]
    cases s.stress with
    | none => rfl
    | some stress =>
      by_cases hzero : stress = .zero
      · simp only [hzero, if_true, result_pure]
      · have hpair := result_pairCapacity (ascending s.selectedBonds 0) (ascending s.selectedBonds 1) stress ha hab
        dsimp only
        rw [if_neg hzero, if_neg hzero, result_then (result_steps 3)]
        exact result_attempted caps hpair
  · rw [if_pos husable, if_pos husable, result_pure]

/-! ## The law accepts it -/

/-- the sum of two bonds -/
def pairSum (s : SecurityInputs) (pair : Fin 3 × Fin 3) : ℕ :=
  (s.selectedBonds pair.1).val + (s.selectedBonds pair.2).val

theorem sumLess_iff (s : SecurityInputs) (x y : Fin 3 × Fin 3) :
    sumLess (bondSum s x) (bondSum s y) ↔ pairSum s x < pairSum s y := by
  have hx := Limbs.overflowingAdd_value (word (s.selectedBonds x.1)) (word (s.selectedBonds x.2))
  have hy := Limbs.overflowingAdd_value (word (s.selectedBonds y.1)) (word (s.selectedBonds y.2))
  simp only [toNat_word] at hx hy
  unfold sumLess bondSum pairSum
  rw [← hx, ← hy]
  have hlow := (Limbs.overflowingAdd (word (s.selectedBonds x.1)) (word (s.selectedBonds x.2))).1.isLt
  have hlow' := (Limbs.overflowingAdd (word (s.selectedBonds y.1)) (word (s.selectedBonds y.2))).1.isLt
  simp only [BitVec.lt_def]
  generalize (Limbs.overflowingAdd (word (s.selectedBonds x.1)) (word (s.selectedBonds x.2))).1.toNat = low at hlow ⊢
  generalize (Limbs.overflowingAdd (word (s.selectedBonds y.1)) (word (s.selectedBonds y.2))).1.toNat = low' at hlow' ⊢
  generalize (Limbs.overflowingAdd (word (s.selectedBonds x.1)) (word (s.selectedBonds x.2))).2 = carry
  generalize (Limbs.overflowingAdd (word (s.selectedBonds y.1)) (word (s.selectedBonds y.2))).2 = carry'
  cases carry with
  | false =>
    cases carry' with
    | false => simp
    | true =>
      simp only [Bool.toNat_false, Bool.toNat_true, Bool.false_lt_true, true_or, true_iff]
      omega
  | true =>
    cases carry' with
    | false =>
      have hless : ¬ (true : Bool) < false := by decide
      simp only [Bool.toNat_false, Bool.toNat_true, hless, reduceCtorEq, false_and, or_self, false_iff]
      omega
    | true => simp

theorem smallest_le (s : SecurityInputs) {i j : Fin 3} (hij : i ≠ j) :
    (ascending s.selectedBonds 0).val + (ascending s.selectedBonds 1).val ≤ pairSum s (i, j) := by
  obtain ⟨σ, hσ⟩ := ascending_perm s.selectedBonds
  obtain ⟨h01, h12⟩ := ascending_ordered s.selectedBonds
  have hbond (k : Fin 3) : s.selectedBonds k = ascending s.selectedBonds (σ.symm k) := by
    rw [hσ]
    simp
  have hne : σ.symm i ≠ σ.symm j := fun he => hij (σ.symm.injective he)
  rw [Unsigned.le_def] at h01 h12
  unfold pairSum
  rw [hbond i, hbond j]
  generalize σ.symm i = k at hne ⊢
  generalize σ.symm j = l at hne ⊢
  fin_cases k <;> fin_cases l <;> simp at hne ⊢ <;> omega

theorem smallestPair_ok (s : SecurityInputs) : ∃ pair, (smallestPair s).result = .ok pair ∧
    pairSum s pair = (ascending s.selectedBonds 0).val + (ascending s.selectedBonds 1).val := by
  let next (pair q : Fin 3 × Fin 3) := if sumLess (bondSum s q) (bondSum s pair) then q else pair
  have hnext (pair q : Fin 3 × Fin 3) : pairSum s (next pair q) = min (pairSum s pair) (pairSum s q) := by
    simp only [next, sumLess_iff]
    split_ifs with h
    · exact (min_eq_right h.le).symm
    · exact (min_eq_left (not_lt.1 h)).symm
  refine ⟨next (next (next (0, 1) (0, 1)) (0, 2)) (1, 2), rfl, ?_⟩
  rw [hnext, hnext, hnext, min_self]
  refine le_antisymm ?_ (le_min (le_min ?_ ?_) ?_)
  · -- the two smallest bonds are one of the three pairs
    obtain ⟨σ, hσ⟩ := ascending_perm s.selectedBonds
    have hpair : (ascending s.selectedBonds 0).val + (ascending s.selectedBonds 1).val = pairSum s (σ 0, σ 1) := by
      rw [hσ]
      rfl
    have hne : σ 0 ≠ σ 1 := fun he => absurd (σ.injective he) (by decide)
    have hcases : ∀ i j : Fin 3, i ≠ j → pairSum s (i, j) = pairSum s (0, 1) ∨ pairSum s (i, j) = pairSum s (0, 2) ∨
        pairSum s (i, j) = pairSum s (1, 2) := by
      intro i j hij
      fin_cases i <;> fin_cases j <;> simp [pairSum] at hij ⊢ <;> omega
    rcases hcases _ _ hne with he | he | he
    · rw [hpair, he]
      exact (min_le_left _ _).trans (min_le_left _ _)
    · rw [hpair, he]
      exact (min_le_left _ _).trans (min_le_right _ _)
    · rw [hpair, he]
      exact min_le_right _ _
  · exact smallest_le s (by decide)
  · exact smallest_le s (by decide)
  · exact smallest_le s (by decide)

theorem boundLaw_iff {caps : ExposureCaps} {b cap : U128} {x y : List Word} {st : CapacityStatus} (hx : x.length = 3)
    (hy : y.length = 3) (hpos : 0 < b.val * 10 ^ 8)
    (hcap : cap.val = (Limbs.value x + Limbs.value y) / (b.val * 10 ^ 8)) :
    (boundLaw caps b x y st).result = .ok () ↔ st = caps.statusOf cap := by
  have hbound (q : U128) : atMostSum (limbs3 (multiplyThree (word q) (word b) e8)) x y = true ↔ q.val ≤ cap.val := by
    have he : e8.toNat = 10 ^ 8 := rfl
    rw [atMostSum_iff (by rw [hx]; rfl) (hx.trans hy.symm), value_product, toNat_word, toNat_word, he, hcap,
      Nat.le_div_iff_mul_le hpos, mul_assoc]
  have hnext (q : U128) (hq : q.val ≤ cap.val) :
      (¬ ∃ next, q.checkedSucc = some next ∧
        atMostSum (limbs3 (multiplyThree (word next) (word b) e8)) x y = true) ↔ q = cap := by
    simp only [hbound, Unsigned.checkedSucc_eq_some]
    constructor
    · intro h
      by_contra hne
      have hlt : q.val < cap.val := lt_of_le_of_ne hq fun he => hne (Unsigned.ext he)
      have hfits := cap.fits
      exact h ⟨⟨q.val + 1, by omega⟩, rfl, hlt⟩
    · intro he h
      obtain ⟨next, hsucc, hle⟩ := h
      rw [he] at hsucc
      omega
  have hlaw (q : U128) (flag : Bool) :
      (((failIf (¬ atMostSum (limbs3 (multiplyThree (word q) (word b) e8)) x y) (Failure.law 113004)).result >>= fun _ =>
        (failIf (∃ next, q.checkedSucc = some next ∧
          atMostSum (limbs3 (multiplyThree (word next) (word b) e8)) x y) (Failure.law 113005)).result >>= fun _ =>
        (failIf (caps.within q ≠ flag) (Failure.law 113006)).result) = .ok ()) ↔ q = cap ∧ caps.within cap = flag := by
    simp only [bind_eq_ok, exists_unit, failIf_ok, not_not]
    constructor
    · intro h
      obtain ⟨hle, hsucc, hflag⟩ := h
      obtain rfl := (hnext q ((hbound q).1 hle)).1 hsucc
      exact ⟨rfl, hflag⟩
    · intro h
      obtain ⟨rfl, hflag⟩ := h
      exact ⟨(hbound q).2 le_rfl, (hnext q le_rfl).2 rfl, hflag⟩
  cases st with
  | available q =>
    simp only [boundLaw, result_bind, result_pure, result_step, ok_bind]
    refine (hlaw q true).trans ?_
    unfold ExposureCaps.statusOf
    cases hwithin : caps.within cap <;> simp
  | overCap q =>
    simp only [boundLaw, result_bind, result_pure, result_step, ok_bind]
    refine (hlaw q false).trans ?_
    unfold ExposureCaps.statusOf
    cases hwithin : caps.within cap <;> simp
  | unavailable =>
    refine iff_of_false nofun ?_
    unfold ExposureCaps.statusOf
    cases hwithin : caps.within cap <;> simp

theorem stressLaw_iff (h : p.Bound c d e) (caps : ExposureCaps) {stress : StressE8} {pair : Fin 3 × Fin 3}
    {x y : List Word} (st : CapacityStatus)
    (hsum : pairSum s pair = (ascending s.selectedBonds 0).val + (ascending s.selectedBonds 1).val)
    (hx : share s e stress pair.1 = x) (hy : share s e stress pair.2 = y) :
    (stressLaw caps e.alphaDenominator x y st).result = .ok () ↔
      st = (capacityOf s e stress).elim .unavailable caps.statusOf := by
  have hpos : 0 < e.alphaDenominator.val * 10 ^ 8 := by
    have hlt := Unsigned.lt_def.1 h.fraction.2
    exact Nat.mul_pos (by omega) (by decide)
  have hxlen : x.length = 3 := hx ▸ rfl
  have hylen : y.length = 3 := hy ▸ rfl
  have hvalue : (Limbs.value x + Limbs.value y) / (e.alphaDenominator.val * 10 ^ 8) = exactCapacity s e stress := by
    rw [← hx, ← hy, share, share, value_product, value_product, exactCapacity, ← hsum, pairSum]
    simp only [toNat_word]
    congr 1
    ring
  have hoverflow : atMostSum [0, (multiply (word e.alphaDenominator) e8).1,
      (multiply (word e.alphaDenominator) e8).2] x y = true ↔ 2 ^ 128 ≤ exactCapacity s e stress := by
    have hden := value_denominator (word e.alphaDenominator)
    have hthree : Limbs.value [0, (multiply (word e.alphaDenominator) e8).1,
        (multiply (word e.alphaDenominator) e8).2] = 2 ^ 128 * (e.alphaDenominator.val * 10 ^ 8) := by
      rw [← toNat_word e.alphaDenominator, ← hden]
      exact (value_append_zero _).symm
    rw [atMostSum_iff (by rw [hxlen]; rfl) (hxlen.trans hylen.symm), hthree, ← hvalue, Nat.le_div_iff_mul_le hpos]
  rw [stressLaw]
  by_cases hfit : 2 ^ 128 ≤ exactCapacity s e stress
  · rw [if_pos (hoverflow.2 hfit), failIf_ok, not_not, capacityOf, Unsigned.ofNat?_eq_none.2 hfit, Option.elim_none]
  · obtain ⟨cap, hcap⟩ : ∃ cap : U128, cap.val = exactCapacity s e stress := ⟨⟨_, not_le.1 hfit⟩, rfl⟩
    rw [if_neg (fun hover => hfit (hoverflow.1 hover)), capacityOf, Unsigned.ofNat?_eq_some.2 hcap, Option.elim_some]
    exact boundLaw_iff hxlen hylen hpos (hcap.trans hvalue.symm)

theorem exactStatus_unusable (caps : ExposureCaps)
    (h : ¬ (s.usable d e ∧ s.stress.any fun p => decide (.zero < p))) :
    exactStatus caps s d e = .unavailable := by
  unfold exactStatus
  by_cases husable : s.usable d e
  · rw [if_neg (not_not.2 husable)]
    cases hstress : s.stress with
    | none => rfl
    | some stress =>
      refine if_pos ?_
      by_contra hzero
      have hless : (.zero : U128) < stress := by
        rw [Unsigned.lt_def, Unsigned.val_zero]
        exact Nat.pos_of_ne_zero (mt Unsigned.eq_zero_iff.2 hzero)
      exact h ⟨husable, by rw [hstress]; exact decide_eq_true hless⟩
  · exact if_pos husable

theorem securityLaw_bound (h : p.Bound c d e) (caps : ExposureCaps) {pair : Fin 3 × Fin 3}
    (hpair : (smallestPair s).result = .ok pair) (st : CapacityStatus) :
    (securityLaw p caps s st).result = (if ¬ (s.usable d e ∧ s.stress.any fun p => decide (.zero < p)) then
      failIf (st ≠ .unavailable) (.law 113000)
    else do
      let stress ← .okOr s.stress (.law 113001)
      stressLaw caps e.alphaDenominator (share s e stress pair.1) (share s e stress pair.2) st).result := by
  rw [securityLaw, h.economy, h.disputes]
  exact (result_some rfl).trans ((result_some rfl).trans (result_attained hpair rfl))

/-- **Security law.** The law accepts exactly the exact status, which is the status that the producer reports. -/
theorem security_law_iff (h : p.Bound c d e) (caps : ExposureCaps) (s : SecurityInputs) (st : CapacityStatus) :
    (securityLaw p caps s st).result = .ok () ↔ st = exactStatus caps s d e := by
  obtain ⟨pair, hpair, hsum⟩ := smallestPair_ok s
  rw [securityLaw_bound h caps hpair]
  by_cases husable : s.usable d e ∧ s.stress.any fun p => decide (.zero < p)
  · cases hstress : s.stress with
    | none => exact absurd husable.2 (by simp [hstress])
    | some stress =>
      have hless : (.zero : U128) < stress := by simpa [hstress] using husable.2
      have hzero : stress ≠ .zero := by
        intro he
        exact lt_irrefl _ (he ▸ hless)
      have hexact : exactStatus caps s d e = (capacityOf s e stress).elim .unavailable caps.statusOf := by
        rw [exactStatus, if_neg (not_not.2 husable.1), hstress]
        exact if_neg hzero
      let shares (stress : StressE8) : Work Unit :=
        stressLaw caps e.alphaDenominator (share s e stress pair.1) (share s e stress pair.2) st
      have hshares : (Metered.okOr (some stress) (.law 113001) >>= shares).result =
          (stressLaw caps e.alphaDenominator (share s e stress pair.1) (share s e stress pair.2) st).result :=
        result_some rfl
      rw [hexact, if_neg (not_not.2 (hstress ▸ husable)), ← stressLaw_iff h caps st hsum rfl rfl, ← hshares]
  · rw [if_pos husable, exactStatus_unusable caps husable, failIf_ok, not_not]

/-! ## Pairs of bonds -/

theorem pairCapacity_profile (first second : ZdexE18) (stress : StressE8) {a b : U128} (h : a = .zero ∨ b ≤ a) :
    (pairCapacity first second stress a b).result = .error .invalidProfile := by
  have hrefused : (failIf (a = .zero ∨ b ≤ a) Failure.invalidProfile).result = .error .invalidProfile := by
    rw [result_failIf, if_pos h]
  rw [pairCapacity, result_then result_step, result_bind, hrefused]
  rfl

theorem smallest_attained (s : SecurityInputs) : ∃ i j : Fin 3, i ≠ j ∧
    pairSum s (i, j) = (ascending s.selectedBonds 0).val + (ascending s.selectedBonds 1).val := by
  obtain ⟨σ, hσ⟩ := ascending_perm s.selectedBonds
  refine ⟨σ 0, σ 1, fun he => absurd (σ.injective he) (by decide), ?_⟩
  rw [hσ]
  rfl

/-- **Pair capacity.** Over a scale that is a proper fraction the capacity of two bonds is the exact quotient, refused
only when it is no machine integer; the two smallest bonds have the least sum of all pairs; and the law over the pairs
accepts a status exactly when it is the one that the producer reports. -/
theorem pair_capacity_exact (first second : ZdexE18) (stress : StressE8) (a b : U128) (p : Parameters)
    (caps : ExposureCaps) (s : SecurityInputs) (reported st : CapacityStatus)
    (h : (status p caps s).result = .ok reported) :
    (pairCapacity first second stress a b).result =
        (if a = .zero ∨ b ≤ a then .error .invalidProfile
        else okOr (Unsigned.ofNat? ((first.val + second.val) * stress.val * a.val / (b.val * 10 ^ 8))) .arithmetic) ∧
      IsLeast {n | ∃ i j : Fin 3, i ≠ j ∧ n = pairSum s (i, j)}
        ((ascending s.selectedBonds 0).val + (ascending s.selectedBonds 1).val) ∧
      ((securityLaw p caps s st).result = .ok () ↔ st = reported) := by
  refine ⟨?_, ⟨?_, ?_⟩, ?_⟩
  · by_cases hprofile : a = .zero ∨ b ≤ a
    · rw [if_pos hprofile, pairCapacity_profile first second stress hprofile]
    · rw [if_neg hprofile]
      rw [not_or, not_le] at hprofile
      exact result_pairCapacity first second stress hprofile.1 hprofile.2
  · obtain ⟨i, j, hij, hsum⟩ := smallest_attained s
    exact ⟨i, j, hij, hsum.symm⟩
  · rintro n ⟨i, j, hij, rfl⟩
    exact smallest_le s hij
  · -- a reported status is one over validated parameters
    have hvalid : p.validate = .ok () := by
      cases hp : p.validate with
      | ok u => rfl
      | error e =>
        rw [status, Metered.result_bind, Metered.result_lift, hp] at h
        cases h
    obtain ⟨c, d, e, hbound⟩ := Parameters.bound_of_validate hvalid
    rw [status_exact hbound] at h
    rw [security_law_iff hbound, Except.ok.inj h]

/-- a scale of zero has the quotient zero and is refused nevertheless -/
theorem zero_scale_refused : ¬ ∀ (first second : ZdexE18) (stress : StressE8) (a b q : U128), b ≠ .zero →
    q.val = (first.val + second.val) * stress.val * a.val / (b.val * 10 ^ 8) →
      (pairCapacity first second stress a b).result = .ok q := by
  intro h
  have hone := h ⟨1, by decide⟩ ⟨1, by decide⟩ ⟨1, by decide⟩ .zero ⟨1, by decide⟩ .zero (by decide) (by decide)
  rw [pairCapacity_profile _ _ _ (Or.inl rfl)] at hone
  cases hone

/-- a policy with the scale one half -/
def halfParameters : Parameters where
  clock := some ⟨⟨List.replicate 32 5, by simp⟩, .of 1, .of 1, .of 2, .of 0,
    .of 4, .of 1, .of 2⟩
  disputes := some ⟨⟨List.replicate 32 6, by simp⟩, .of 1, .of 1, .of 1, .of 1,
    .of 0, .of 0, true, ⟨[8], by simp⟩, .challenger, .challenger, .reporterOwner⟩
  economy := some ⟨⟨⟨[9], by simp⟩, 18⟩, .of 1, .of 1, .of 2,
    ⟨List.replicate 32 7, by simp⟩, .of 1, .of 1, .of 4⟩

/-- bonds of which the largest two alone overflow a machine integer -/
def wideBonds : SecurityInputs where
  selectedBonds := ![⟨2 ^ 128 - 1, by decide⟩, ⟨3 * 10 ^ 8, by decide⟩, ⟨2 ^ 127, by decide⟩]
  stress := some (.of 2)
  stressSource := ⟨List.replicate 32 7, by simp⟩
  valuationRoot := ⟨List.replicate 32 1, by simp⟩

theorem pair_capacity_sample :
    (securityLaw halfParameters ⟨⟨1, by decide⟩, .zero, .zero, .zero⟩ wideBonds
      (.available ⟨(3 * 10 ^ 8 + 2 ^ 127) / 10 ^ 8, by decide⟩)).result = .ok () :=
  (pair_capacity_exact ⟨2 ^ 128 - 1, by decide⟩ ⟨2 ^ 127, by decide⟩ ⟨2, by decide⟩ ⟨1, by decide⟩ ⟨2, by decide⟩
    halfParameters ⟨⟨1, by decide⟩, .zero, .zero, .zero⟩ wideBonds
    (.available ⟨(3 * 10 ^ 8 + 2 ^ 127) / 10 ^ 8, by decide⟩) _ (by decide +kernel)).2.2.2 rfl

end ZenoFcis.Oracle
