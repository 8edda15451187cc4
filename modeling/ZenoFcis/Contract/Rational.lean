/-
Reduced rationals with an `i64` numerator and a `u64` denominator (`zeno-fcis-spec/src/distribution.rs`). Arithmetic
runs in `i128` and `u128` and is refused when its reduced result does not fit.
-/
import Mathlib.Tactic

namespace ZenoFcis.Contract

/-- a reduced signed rational within its component bounds -/
structure Rational where
  numerator : ℤ
  denominator : ℕ
  positive : denominator ≠ 0
  reduced : numerator.natAbs.Coprime denominator
  numeratorFits : -2 ^ 63 ≤ numerator ∧ numerator < 2 ^ 63
  denominatorFits : denominator < 2 ^ 64
deriving DecidableEq

/-- a number that is a rational of these bounds -/
def Fits (q : ℚ) : Prop := (-2 ^ 63 ≤ q.num ∧ q.num < 2 ^ 63) ∧ q.den < 2 ^ 64

def inI128 (z : ℤ) : Prop := -2 ^ 127 ≤ z ∧ z < 2 ^ 127

instance (z : ℤ) : Decidable (inI128 z) := inferInstanceAs (Decidable (_ ∧ _))

/-- the sign of a number with the magnitude of a quotient -/
def signed (n : ℤ) (magnitude : ℕ) : ℤ := if n < 0 then -(magnitude : ℤ) else magnitude

theorem signed_natAbs (n : ℤ) (m : ℕ) : (signed n m).natAbs = m := by
  unfold signed
  split_ifs <;> simp

theorem signed_div (n : ℤ) {g : ℕ} (h : g ∣ n.natAbs) : signed n (n.natAbs / g) * g = n := by
  obtain ⟨m, hm⟩ := h
  rcases Nat.eq_zero_or_pos g with rfl | hpos
  · simp at hm
    simp [hm]
  · rw [hm, Nat.mul_div_cancel_left m hpos]
    unfold signed
    have hcast : ((n.natAbs : ℕ) : ℤ) = g * m := by exact_mod_cast hm
    split_ifs with hneg
    · have habs : ((n.natAbs : ℕ) : ℤ) = -n := by omega
      linarith
    · have habs : ((n.natAbs : ℕ) : ℤ) = n := by omega
      linarith

namespace Rational

/-- the number meant -/
def value (r : Rational) : ℚ := r.numerator / r.denominator

def zero : Rational := ⟨0, 1, by decide, by decide, by decide, by decide⟩

def one : Rational := ⟨1, 1, by decide, by decide, by decide, by decide⟩

def tryNew (numerator : ℤ) (denominator : ℕ) : Option Rational :=
  if hzero : denominator = 0 then none
  else
    let divisor := numerator.natAbs.gcd denominator
    let magnitude := numerator.natAbs / divisor
    if magnitude < 2 ^ 64 then
      if h : (-2 ^ 63 ≤ signed numerator magnitude ∧ signed numerator magnitude < 2 ^ 63) ∧
          denominator / divisor < 2 ^ 64 then
        some {
          numerator := signed numerator magnitude
          denominator := denominator / divisor
          positive := by
            have hpos : 0 < denominator := Nat.pos_of_ne_zero hzero
            exact (Nat.div_pos (Nat.le_of_dvd hpos (Nat.gcd_dvd_right _ _)) (Nat.gcd_pos_of_pos_right _ hpos)).ne'
          reduced := by
            rw [signed_natAbs]
            exact Nat.coprime_div_gcd_div_gcd (Nat.gcd_pos_of_pos_right _ (Nat.pos_of_ne_zero hzero))
          numeratorFits := h.1
          denominatorFits := h.2 }
      else none
    else none

def checkedAdd (a b : Rational) : Option Rational :=
  let sum := a.numerator * b.denominator + b.numerator * a.denominator
  if inI128 sum then tryNew sum (a.denominator * b.denominator) else none

def checkedSub (a b : Rational) : Option Rational :=
  let difference := a.numerator * b.denominator - b.numerator * a.denominator
  if inI128 difference then tryNew difference (a.denominator * b.denominator) else none

def checkedMul (a b : Rational) : Option Rational :=
  tryNew (a.numerator * b.numerator) (a.denominator * b.denominator)

/-- `Ord::cmp` as its two strict comparisons -/
def lt (a b : Rational) : Prop := a.numerator * b.denominator < b.numerator * a.denominator

instance (a b : Rational) : Decidable (lt a b) := inferInstanceAs (Decidable (_ < _))

variable {a b r : Rational}

@[simp] theorem value_zero : zero.value = 0 := by simp [value, zero]

@[simp] theorem value_one : one.value = 1 := by simp [value, one]

theorem divided (n : ℤ) {d : ℕ} (hd : d ≠ 0) :
    ((signed n (n.natAbs / n.natAbs.gcd d) : ℤ) : ℚ) / ((d / n.natAbs.gcd d : ℕ) : ℚ) = n / d := by
  have hg : n.natAbs.gcd d ≠ 0 := (Nat.gcd_pos_of_pos_right _ (Nat.pos_of_ne_zero hd)).ne'
  have hnum := signed_div n (Nat.gcd_dvd_left n.natAbs d)
  have hden := Nat.div_mul_cancel (Nat.gcd_dvd_right n.natAbs d)
  have hgq : ((n.natAbs.gcd d : ℕ) : ℚ) ≠ 0 := by exact_mod_cast hg
  rw [← mul_div_mul_right _ _ hgq]
  congr 1
  · exact_mod_cast hnum
  · exact_mod_cast hden

/-- a fraction that fits can be built -/
theorem tryNew_isSome {n : ℤ} {d : ℕ} (hd : d ≠ 0) (h : Fits ((n : ℚ) / d)) : ∃ r, tryNew n d = some r := by
  have hg : 0 < n.natAbs.gcd d := Nat.gcd_pos_of_pos_right _ (Nat.pos_of_ne_zero hd)
  have hpos : 0 < d / n.natAbs.gcd d := Nat.div_pos (Nat.le_of_dvd (Nat.pos_of_ne_zero hd) (Nat.gcd_dvd_right _ _)) hg
  have hcoprime : (signed n (n.natAbs / n.natAbs.gcd d)).natAbs.Coprime (d / n.natAbs.gcd d) := by
    rw [signed_natAbs]
    exact Nat.coprime_div_gcd_div_gcd hg
  have hposz : (0 : ℤ) < (d / n.natAbs.gcd d : ℕ) := by exact_mod_cast hpos
  have hnum := Rat.num_div_eq_of_coprime hposz hcoprime
  have hden := Rat.den_div_eq_of_coprime hposz hcoprime
  have heq := divided n hd
  simp only [Int.cast_natCast] at hnum hden
  rw [heq] at hnum hden
  obtain ⟨hn, hb⟩ := h
  rw [hnum] at hn
  have hb' : d / n.natAbs.gcd d < 2 ^ 64 := by
    have hcast : ((n : ℚ) / d).den = d / n.natAbs.gcd d := by exact_mod_cast hden
    rw [← hcast]
    exact hb
  have hm : n.natAbs / n.natAbs.gcd d < 2 ^ 64 := by
    have habs := signed_natAbs n (n.natAbs / n.natAbs.gcd d)
    omega
  unfold tryNew
  rw [dif_neg hd]
  simp only [if_pos hm]
  rw [dif_pos ⟨hn, hb'⟩]
  exact ⟨_, rfl⟩

/-- a sum of whole numbers that fits can be built -/
theorem checkedAdd_isSome (ha : a.denominator = 1) (hb : b.denominator = 1) (h : Fits (a.value + b.value)) :
    ∃ r, a.checkedAdd b = some r := by
  have hsum : ((a.numerator * b.denominator + b.numerator * a.denominator : ℤ) : ℚ) /
      (a.denominator * b.denominator : ℕ) = a.value + b.value := by simp [value, ha, hb]
  have hi128 : inI128 (a.numerator * b.denominator + b.numerator * a.denominator) := by
    have hna := a.numeratorFits
    have hnb := b.numeratorFits
    rw [ha, hb]
    unfold inI128
    constructor <;> push_cast <;> linarith
  have hpos : a.denominator * b.denominator ≠ 0 := Nat.mul_ne_zero a.positive b.positive
  unfold checkedAdd
  simp only [if_pos hi128]
  apply tryNew_isSome hpos
  rw [hsum]
  exact h

end Rational

end ZenoFcis.Contract
