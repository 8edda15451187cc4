/-
Rounded square roots of 512-bit integers, of products and of ratios (`profile2/arithmetic256.rs`). The root is found bit
by bit from the highest one down; `sqrtLoop_ok` says that the bits found are the top bits of the root, and
`rounded_root` that a root of the truncated quotient rounds as the root of the ratio does.
-/
import Mathlib.Analysis.Real.Sqrt
import ZenoFcis.Number.Unsigned256

namespace ZenoFcis.Number

open Lib Lib.Except

/-- the root with a bit set -/
def withBit (root : U256) (bit : ℕ) : U256 :=
  ⟨Limbs.setBit root.words bit, (Limbs.setBit_length root.words bit).trans root.length_eq⟩

namespace U512

/-- the rounds of the root search, from the bits that are left -/
def sqrtLoop (n : U512) : ℕ → U256 → Except Failure U256
  | 0, root => .ok root
  | bit + 1, root => do
    let trial := withBit root bit
    let squared ← U256.fullProduct trial trial
    sqrtLoop n bit (if Words.compare squared n ≠ .gt then trial else root)

def sqrt (n : U512) (mode : Rounding) : Except Failure U256 := do
  let root ← sqrtLoop n 256 U256.zero
  let squared ← U256.fullProduct root root
  U256.rounded root (decide (squared ≠ n)) mode

def sqrtRatio (n den : U512) (mode : Rounding) : Except Failure U256 := do
  let out ← Words.divide n den
  let root ← sqrt out.1 .floor
  let squared ← U256.fullProduct root root
  U256.rounded root (decide (¬ (squared = out.1 ∧ out.2 = Words.zero 4))) mode

end U512

def U256.geometricMean (a b : U256) (mode : Rounding) : Except Failure U256 := do
  let product ← U256.fullProduct a b
  U512.sqrt product mode

/-! ## The search -/

theorem withBit_val {root : U256} {k n : ℕ} (hk : k < 256) (hroot : root.val = 2 ^ (k + 1) * n) :
    (withBit root k).val = 2 ^ k * (2 * n + 1) := by
  have hclear : (Limbs.value root.words).testBit k = false := by
    change root.val.testBit k = false
    rw [hroot, Nat.testBit_two_pow_mul]
    simp
  have hset := Limbs.setBit_value (by decide) (by rw [root.length_eq]; exact hk) hclear
  refine hset.trans ?_
  change root.val + 2 ^ k = _
  rw [hroot]
  ring

theorem root_lt (n : U512) : Nat.sqrt n.val < 2 ^ 256 := by
  rw [Nat.sqrt_lt]
  refine (Words.val_lt n).trans_eq ?_
  decide

theorem sqrtLoop_ok {n : U512} {k : ℕ} (hk : k ≤ 256) {root : U256}
    (hroot : root.val = 2 ^ k * (Nat.sqrt n.val / 2 ^ k)) :
    ∃ out, U512.sqrtLoop n k root = .ok out ∧ out.val = Nat.sqrt n.val := by
  induction k generalizing root with
  | zero => exact ⟨root, rfl, by rw [hroot, pow_zero, one_mul, Nat.div_one]⟩
  | succ k ih =>
    have htrial := withBit_val hk hroot
    have hsplit : Nat.sqrt n.val / 2 ^ k = 2 * (Nat.sqrt n.val / 2 ^ (k + 1)) + Nat.sqrt n.val / 2 ^ k % 2 := by
      rw [pow_succ, ← Nat.div_div_eq_div_mul]
      exact (Nat.div_add_mod _ 2).symm
    have hlow := Nat.mod_lt (Nat.sqrt n.val / 2 ^ k) (by decide : 0 < 2)
    -- the trial is kept exactly when its bit belongs to the root
    have hkeep : Words.compare (Words.ofNat 4 ((withBit root k).val * (withBit root k).val)) n ≠ .gt ↔
        Nat.sqrt n.val / 2 ^ k % 2 = 1 := by
      rw [Words.compare_eq, Words.val_ofNat (U256.product_lt _ _), ne_eq, Nat.compare_eq_gt, not_lt, ← Nat.le_sqrt,
        htrial, mul_comm, ← Nat.le_div_iff_mul_le (Nat.two_pow_pos k)]
      omega
    rw [U512.sqrtLoop, U256.fullProduct_eq, ok_bind]
    refine ih (Nat.le_of_succ_le hk) ?_
    by_cases hbit : Nat.sqrt n.val / 2 ^ k % 2 = 1
    · rw [if_pos (hkeep.2 hbit), htrial, hsplit, hbit]
    · rw [if_neg (mt hkeep.1 hbit), hroot, hsplit, (by omega : Nat.sqrt n.val / 2 ^ k % 2 = 0), pow_succ]
      ring

theorem sqrtLoop_root (n : U512) : ∃ root, U512.sqrtLoop n 256 U256.zero = .ok root ∧ root.val = Nat.sqrt n.val :=
  sqrtLoop_ok le_rfl (by rw [U256.zero_val, Nat.div_eq_of_lt (root_lt n), mul_zero])

/-! ## Rounding a root -/

/-- the square root of a number, rounded once and narrowed to 256 bits -/
noncomputable def roundedRoot (mode : Rounding) (x : ℝ) : Except Failure ℤ :=
  open Classical in
  match mode with
  | .floor => .ok ⌊√x⌋
  | .ceil => if ⌈√x⌉ < 2 ^ 256 then .ok ⌈√x⌉ else .error .overflow
  | .exact => if ∃ k : ℤ, √x = k then .ok ⌊√x⌋ else .error .inexact

section Root

variable {s : ℕ} {x : ℝ}

theorem floor_root (hlow : (s : ℝ) ^ 2 ≤ x) (hhigh : x < ((s : ℝ) + 1) ^ 2) : ⌊√x⌋ = (s : ℤ) := by
  have hs : (0 : ℝ) ≤ s := Nat.cast_nonneg s
  rw [Int.floor_eq_iff, Int.cast_natCast]
  constructor
  · exact Real.le_sqrt_of_sq_le hlow
  · rw [Real.sqrt_lt' (by linarith)]
    exact hhigh

theorem root_whole (h : x = (s : ℝ) ^ 2) : √x = s := by
  rw [h, Real.sqrt_sq (Nat.cast_nonneg s)]

theorem ceil_root (hlow : (s : ℝ) ^ 2 ≤ x) (hhigh : x < ((s : ℝ) + 1) ^ 2) (hne : x ≠ (s : ℝ) ^ 2) :
    ⌈√x⌉ = (s : ℤ) + 1 := by
  have hs : (0 : ℝ) ≤ s := Nat.cast_nonneg s
  rw [Int.ceil_eq_iff, Int.cast_add, Int.cast_natCast, Int.cast_one, add_sub_cancel_right]
  constructor
  · exact Real.lt_sqrt_of_sq_lt (lt_of_le_of_ne hlow (Ne.symm hne))
  · exact (Real.sqrt_lt' (by linarith)).2 hhigh |>.le

theorem root_not_whole (hlow : (s : ℝ) ^ 2 ≤ x) (hhigh : x < ((s : ℝ) + 1) ^ 2) (hne : x ≠ (s : ℝ) ^ 2) :
    ¬ ∃ k : ℤ, √x = k := by
  intro h
  obtain ⟨k, hk⟩ := h
  have hfloor := floor_root hlow hhigh
  rw [hk, Int.floor_intCast] at hfloor
  have hroot : √x = s := by rw [hk, hfloor, Int.cast_natCast]
  refine hne ?_
  rw [← hroot, Real.sq_sqrt ((sq_nonneg (s : ℝ)).trans hlow)]

end Root

/-- **One rounding.** A root with an exactness test rounds as the real root does. -/
theorem rounded_root {root : U256} {x : ℝ} {rest : Bool} (mode : Rounding) (hlow : (root.val : ℝ) ^ 2 ≤ x)
    (hhigh : x < ((root.val : ℝ) + 1) ^ 2) (hrest : rest = true ↔ x ≠ (root.val : ℝ) ^ 2) :
    U256.numbers (U256.rounded root rest mode) = roundedRoot mode x := by
  have hlt := U256.val_lt root
  have hfloor := floor_root hlow hhigh
  by_cases hexact : x = (root.val : ℝ) ^ 2
  · have hroot := root_whole hexact
    have hkept : rest = false := Bool.eq_false_iff.2 fun h => hrest.1 h hexact
    have hceil : ⌈√x⌉ = (root.val : ℤ) := by rw [hroot, Int.ceil_natCast]
    have hrange : (root.val : ℤ) < 2 ^ 256 := by exact_mod_cast hlt
    rw [hkept]
    cases mode with
    | floor => rw [roundedRoot, hfloor]; rfl
    | ceil => rw [roundedRoot, hceil, if_pos hrange]; rfl
    | exact => rw [roundedRoot, hfloor, if_pos ⟨root.val, hroot⟩]; rfl
  · have hraised : rest = true := hrest.2 hexact
    rw [hraised]
    cases mode with
    | floor => rw [roundedRoot, hfloor]; rfl
    | ceil =>
      rw [roundedRoot, ceil_root hlow hhigh hexact, U256.rounded, U256.checkedAdd_eq, U256.one_val]
      by_cases hroom : root.val + 1 < 2 ^ 256
      · rw [if_pos hroom, if_pos (by exact_mod_cast hroom)]
        have hval := Words.val_ofNat (n := 2) (bound_two ▸ hroom)
        exact congrArg Except.ok (by push_cast [hval]; rfl)
      · rw [if_neg hroom, if_neg (by exact_mod_cast hroom)]
        rfl
    | exact => rw [roundedRoot, if_neg (root_not_whole hlow hhigh hexact)]; rfl

/-! ## The operations -/

/-- **Square root.** -/
theorem sqrt_eq (n : U512) (mode : Rounding) : U256.numbers (U512.sqrt n mode) = roundedRoot mode n.val := by
  obtain ⟨root, hloop, hroot⟩ := sqrtLoop_root n
  unfold U512.sqrt
  rw [hloop, ok_bind, U256.fullProduct_eq, ok_bind]
  have hlow : root.val * root.val ≤ n.val := by
    rw [hroot]
    exact Nat.sqrt_le n.val
  have hhigh : n.val < (root.val + 1) * (root.val + 1) := by
    rw [hroot]
    exact Nat.lt_succ_sqrt n.val
  refine rounded_root mode ?_ ?_ ?_
  · rw [sq]
    exact_mod_cast hlow
  · rw [sq]
    exact_mod_cast hhigh
  · have hsame : Words.ofNat 4 (root.val * root.val) = n ↔ root.val * root.val = n.val := by
      constructor
      · intro h
        rw [← h, Words.val_ofNat (U256.product_lt root root)]
      · intro h
        exact Words.val_inj ((Words.val_ofNat (U256.product_lt root root)).trans h)
    rw [decide_eq_true_eq, Ne, Ne, hsame, sq, eq_comm]
    exact_mod_cast Iff.rfl

/-- **Root of a product.** -/
theorem geometricMean_eq (a b : U256) (mode : Rounding) :
    U256.numbers (U256.geometricMean a b mode) = roundedRoot mode (a.val * b.val : ℕ) := by
  unfold U256.geometricMean
  rw [U256.fullProduct_eq, ok_bind, sqrt_eq, Words.val_ofNat (U256.product_lt a b)]

/-- **Root of a ratio.** -/
theorem sqrtRatio_eq (n den : U512) (mode : Rounding) : U256.numbers (U512.sqrtRatio n den mode) =
    if den.val = 0 then .error .zeroDivisor else roundedRoot mode (n.val / den.val) := by
  unfold U512.sqrtRatio
  rw [Words.divide_eq]
  by_cases hd : den.val = 0
  · rw [if_pos hd, if_pos hd]
    rfl
  · have hpos := Nat.pos_of_ne_zero hd
    have hquotient : (Words.ofNat 4 (n.val / den.val)).val = n.val / den.val :=
      Words.val_ofNat ((Nat.div_le_self _ _).trans_lt n.val_lt)
    have hremainder : (Words.ofNat 4 (n.val % den.val)).val = n.val % den.val :=
      Words.val_ofNat ((Nat.mod_le _ _).trans_lt n.val_lt)
    obtain ⟨root, hloop, hroot⟩ := sqrtLoop_root (Words.ofNat 4 (n.val / den.val))
    rw [hquotient] at hroot
    have hfloor : U512.sqrt (Words.ofNat 4 (n.val / den.val)) .floor = .ok root := by
      unfold U512.sqrt
      rw [hloop, ok_bind, U256.fullProduct_eq, ok_bind]
      rfl
    rw [if_neg hd, if_neg hd, ok_bind, hfloor, ok_bind, U256.fullProduct_eq, ok_bind]
    have hlow : root.val * root.val ≤ n.val / den.val := by
      rw [hroot]
      exact Nat.sqrt_le _
    have hhigh : n.val / den.val < (root.val + 1) * (root.val + 1) := by
      rw [hroot]
      exact Nat.lt_succ_sqrt _
    have hden : (0 : ℝ) < den.val := Nat.cast_pos.2 hpos
    refine rounded_root mode ?_ ?_ ?_
    · rw [le_div_iff₀ hden, sq]
      exact_mod_cast (Nat.le_div_iff_mul_le hpos).1 hlow
    · rw [div_lt_iff₀ hden, sq]
      exact_mod_cast (Nat.div_lt_iff_lt_mul hpos).1 hhigh
    · have hsame : (Words.ofNat 4 (root.val * root.val) = Words.ofNat 4 (n.val / den.val) ∧
          Words.ofNat 4 (n.val % den.val) = Words.zero 4) ↔ n.val = root.val * root.val * den.val := by
        have hfirst : Words.ofNat 4 (root.val * root.val) = Words.ofNat 4 (n.val / den.val) ↔
            root.val * root.val = n.val / den.val := by
          constructor
          · intro h
            rw [← hquotient, ← h, Words.val_ofNat (U256.product_lt root root)]
          · intro h
            rw [h]
        rw [hfirst, Words.eq_zero_iff, hremainder]
        constructor
        · intro h
          rw [h.1, mul_comm]
          exact (Nat.mul_div_cancel' (Nat.dvd_of_mod_eq_zero h.2)).symm
        · intro h
          rw [h]
          exact ⟨(Nat.mul_div_cancel _ hpos).symm, Nat.mul_mod_left _ _⟩
      rw [decide_eq_true_eq, hsame, Ne, div_eq_iff hden.ne', sq]
      exact_mod_cast Iff.rfl

/-- **Wide roots.** The root of an integer, of a product and of a ratio is the real root rounded once; only a ceiling of
`2 ^ 256` is refused for its size. -/
theorem wide_roots :
    (∀ (n : U512) (mode : Rounding), U256.numbers (U512.sqrt n mode) = roundedRoot mode n.val) ∧
    (∀ (a b : U256) (mode : Rounding),
      U256.numbers (U256.geometricMean a b mode) = roundedRoot mode (a.val * b.val : ℕ)) ∧
    (∀ (n den : U512) (mode : Rounding), den.val ≠ 0 →
      U256.numbers (U512.sqrtRatio n den mode) = roundedRoot mode (n.val / den.val)) := by
  refine ⟨sqrt_eq, geometricMean_eq, ?_⟩
  intro n den mode hd
  rw [sqrtRatio_eq, if_neg hd]

/-- the root of two thirds, rounded up, is one -/
theorem wide_roots_ratio : U256.numbers (U512.sqrtRatio (Words.ofNat 4 2) (Words.ofNat 4 3) .ceil) =
    roundedRoot .ceil ((Words.ofNat 4 2).val / (Words.ofNat 4 3).val) :=
  wide_roots.2.2 _ _ _ (by decide)

end ZenoFcis.Number
