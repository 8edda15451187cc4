/-
Powers by repeated squaring with a product that rounds. Such a product is monotone and has a right unit but need not be
associative, so the power depends on the order of the products. `power` is that of the loop over the binary digits, from
the lowest up. Results:
- `power_add_two_pow`: a new highest digit is one more product on the left;
- `power_antitone`: a base at most the unit has powers that decrease with the exponent;
- `nearest`: fixed-point numbers rounded to nearest, half up, are an instance.
-/
import Mathlib.Tactic

namespace ZenoFcis.Lib

structure RoundedProduct (α : Type) [Preorder α] where
  mul : α → α → α
  one : α
  mono : ∀ {a b c d : α}, a ≤ b → c ≤ d → mul a c ≤ mul b d
  mul_one : ∀ a, mul a one = a

namespace RoundedProduct

variable {α : Type} [Preorder α] (R : RoundedProduct α)

def sq (x : α) : α := R.mul x x

theorem sq_eq (x : α) : R.sq x = R.mul x x := rfl

/-- the base after `k` squarings -/
def squares (x : α) : ℕ → α
  | 0 => x
  | k + 1 => squares (R.sq x) k

/-- the product of `y` with the squares of the set digits of the exponent -/
def power (x : α) (n : ℕ) (y : α) : α :=
  if h : n = 0 then y else power (R.sq x) (n / 2) (if n % 2 = 0 then y else R.mul x y)
termination_by n
decreasing_by omega

/-- the zeroth power -/
theorem power_zero (x y : α) : R.power x 0 y = y := by
  rw [power]
  simp

theorem power_eq (x : α) {n : ℕ} (hn : n ≠ 0) (y : α) :
    R.power x n y = R.power (R.sq x) (n / 2) (if n % 2 = 0 then y else R.mul x y) := by
  rw [power, dif_neg hn]

/-- the first power -/
theorem power_one (x y : α) : R.power x 1 y = R.mul x y := by
  rw [power_eq R x one_ne_zero]
  exact R.power_zero _ _

/-- halving the exponent squares the base -/
theorem power_half (x : α) {n : ℕ} (y : α) :
    R.power x n y = R.power (R.sq x) (n / 2) (if n % 2 = 0 then y else R.mul x y) := by
  by_cases hn : n = 0
  · rw [hn, Nat.zero_div, power_zero, power_zero, Nat.zero_mod, if_pos rfl]
  · exact R.power_eq x hn y

/-- **The highest digit.** Its square is the last factor. -/
theorem power_add_two_pow {k m : ℕ} (hm : m < 2 ^ k) (x y : α) :
    R.power x (m + 2 ^ k) y = R.mul (R.squares x k) (R.power x m y) := by
  induction k generalizing m x y with
  | zero =>
    obtain rfl : m = 0 := by omega
    rw [pow_zero, Nat.zero_add, power_one, power_zero]
    rfl
  | succ k ih =>
    have hhalf : (m + 2 ^ (k + 1)) / 2 = m / 2 + 2 ^ k := by
      rw [pow_succ]
      omega
    have hparity : (m + 2 ^ (k + 1)) % 2 = m % 2 := by
      rw [pow_succ]
      omega
    rw [power_half R x (n := m + 2 ^ (k + 1)), hhalf, hparity, ih (by omega), ← power_half]
    rfl

theorem squares_succ (x : α) (k : ℕ) : R.squares x (k + 1) = R.sq (R.squares x k) := by
  induction k generalizing x with
  | zero => rfl
  | succ k ih => exact ih (R.sq x)

theorem squares_le_power {x : α} (hx : x ≤ R.one) (k : ℕ) : R.squares x k ≤ R.power x (2 ^ k - 1) R.one := by
  induction k with
  | zero =>
    rw [pow_zero, Nat.sub_self, power_zero]
    exact hx
  | succ k ih =>
    have hpos := Nat.two_pow_pos k
    have hsplit : 2 ^ (k + 1) - 1 = 2 ^ k - 1 + 2 ^ k := by
      rw [pow_succ]
      omega
    rw [hsplit, power_add_two_pow R (by omega), squares_succ]
    exact R.mono le_rfl ih

theorem power_succ_le {x : α} (hx : x ≤ R.one) {k n : ℕ} (hn : n + 1 < 2 ^ k) :
    R.power x (n + 1) R.one ≤ R.power x n R.one := by
  induction k generalizing n with
  | zero =>
    rw [pow_zero] at hn
    omega
  | succ k ih =>
    rw [pow_succ] at hn
    rcases lt_trichotomy (n + 1) (2 ^ k) with hlt | heq | hgt
    · exact ih hlt
    · -- the digits of `n` are all set and those of `n + 1` are not
      have hzero := power_add_two_pow R (Nat.two_pow_pos k) x R.one
      rw [Nat.zero_add, power_zero, R.mul_one] at hzero
      rw [heq, hzero, show n = 2 ^ k - 1 by omega]
      exact R.squares_le_power hx k
    · obtain ⟨m, rfl⟩ := Nat.exists_eq_add_of_le (Nat.lt_succ_iff.1 hgt)
      rw [show 2 ^ k + m + 1 = m + 1 + 2 ^ k by omega, Nat.add_comm (2 ^ k) m,
        power_add_two_pow R (by omega), power_add_two_pow R (by omega)]
      exact R.mono le_rfl (ih (by omega))

/-- **Antitone powers.** -/
theorem power_antitone {x : α} (hx : x ≤ R.one) : Antitone fun n => R.power x n R.one :=
  antitone_nat_of_succ_le fun n => R.power_succ_le hx (k := n + 1) n.succ.lt_two_pow_self

/-- a power of a number up to one stays up to one -/
theorem power_le {x : α} (hx : x ≤ R.one) (n : ℕ) : R.power x n R.one ≤ R.one := by
  have h := R.power_antitone hx (Nat.zero_le n)
  dsimp only at h
  rw [power_zero] at h
  exact h

/-- fixed-point products rounded to nearest, half up, for an even unit -/
def nearest (half : ℕ) (hpos : 0 < half) : RoundedProduct ℕ where
  mul a b := (a * b + half) / (2 * half)
  one := 2 * half
  mono hab hcd := Nat.div_le_div_right (Nat.add_le_add_right (Nat.mul_le_mul hab hcd) _)
  mul_one a := by
    rw [Nat.add_comm, Nat.add_mul_div_right _ _ (by omega), Nat.div_eq_of_lt (by omega), Nat.zero_add]

variable {half : ℕ} {hpos : 0 < half}

/-- a rounded product of numbers up to one stays up to one -/
theorem nearest_mul_le {a b : ℕ} (ha : a ≤ 2 * half) (hb : b ≤ 2 * half) : (nearest half hpos).mul a b ≤ 2 * half :=
  ((nearest half hpos).mono ha hb).trans ((nearest half hpos).mul_one _).le

/-- rounding to the nearest is the floor and a carry from the half on -/
theorem nearest_mul (a b : ℕ) :
    (nearest half hpos).mul a b = a * b / (2 * half) + if half ≤ a * b % (2 * half) then 1 else 0 := by
  have hlt := Nat.mod_lt (a * b) (by omega : 0 < 2 * half)
  have hsplit := Nat.div_add_mod (a * b) (2 * half)
  change (a * b + half) / (2 * half) = _
  split_ifs with h
  · rw [Nat.div_eq_of_lt_le]
    · rw [Nat.add_mul, Nat.mul_comm (a * b / (2 * half))]
      omega
    · rw [Nat.succ_mul, Nat.add_mul, Nat.mul_comm (a * b / (2 * half))]
      omega
  · rw [Nat.div_eq_of_lt_le]
    · rw [Nat.add_zero, Nat.mul_comm (a * b / (2 * half))]
      omega
    · rw [Nat.add_zero, Nat.succ_mul, Nat.mul_comm (a * b / (2 * half))]
      omega

end RoundedProduct

end ZenoFcis.Lib
