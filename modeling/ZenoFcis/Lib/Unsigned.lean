/-
Unsigned machine integers as bounded naturals: checked operations that answer `none` on overflow, and subtraction that
is exact wherever its guard holds. Sums over tables of such integers are taken in the naturals, where they are exact.
-/
import Mathlib.Tactic

namespace ZenoFcis.Lib

/-- an unsigned integer of `w` bits -/
@[ext]
structure Unsigned (w : ℕ) where
  val : ℕ
  fits : val < 2 ^ w
deriving DecidableEq

namespace Unsigned

variable {w : ℕ} {a b c : Unsigned w}

theorem val_inj : Function.Injective (val : Unsigned w → ℕ) := fun _ _ h => Unsigned.ext h

instance : LinearOrder (Unsigned w) := LinearOrder.lift' val val_inj

theorem le_def : a ≤ b ↔ a.val ≤ b.val := Iff.rfl

theorem lt_def : a < b ↔ a.val < b.val := Iff.rfl

instance : Inhabited (Unsigned w) := ⟨⟨0, Nat.two_pow_pos w⟩⟩

/-- the integer of a natural that fits -/
def ofNat? (n : ℕ) : Option (Unsigned w) := if h : n < 2 ^ w then some ⟨n, h⟩ else none

/-- a number fits exactly as its own value -/
theorem ofNat?_eq_some {n : ℕ} : ofNat? n = some a ↔ a.val = n := by
  unfold ofNat?
  by_cases h : n < 2 ^ w
  · simp only [dif_pos h, Option.some.injEq]
    exact ⟨fun ha => ha ▸ rfl, fun ha => Unsigned.ext ha.symm⟩
  · simp only [dif_neg h, reduceCtorEq, false_iff]
    intro ha
    exact h (ha ▸ a.fits)

/-- a number that does not fit is too large -/
theorem ofNat?_eq_none {n : ℕ} : (ofNat? n : Option (Unsigned w)) = none ↔ 2 ^ w ≤ n := by
  unfold ofNat?
  split_ifs with h
  · simpa using h
  · simpa using h

def zero : Unsigned w := ⟨0, Nat.two_pow_pos w⟩

/-- the integer of the low bits of a natural -/
def of (n : ℕ) : Unsigned w := ⟨n % 2 ^ w, Nat.mod_lt n (Nat.two_pow_pos w)⟩

/-- the largest value -/
def max : Unsigned w := ⟨2 ^ w - 1, Nat.sub_lt (Nat.two_pow_pos w) Nat.one_pos⟩

def checkedAdd (a b : Unsigned w) : Option (Unsigned w) := ofNat? (a.val + b.val)

/-- the successor, unless it overflows -/
def checkedSucc (a : Unsigned w) : Option (Unsigned w) := ofNat? (a.val + 1)

/-- subtraction behind a guard `b ≤ a` -/
def sub (a b : Unsigned w) : Unsigned w := ⟨a.val - b.val, (Nat.sub_le _ _).trans_lt a.fits⟩

def checkedSub (a b : Unsigned w) : Option (Unsigned w) := if b ≤ a then some (a.sub b) else none

@[simp] theorem val_zero : (zero : Unsigned w).val = 0 := rfl

@[simp] theorem val_max : (max : Unsigned w).val = 2 ^ w - 1 := rfl

@[simp] theorem val_sub : (a.sub b).val = a.val - b.val := rfl

/-- a checked sum is the sum -/
theorem checkedAdd_eq_some : a.checkedAdd b = some c ↔ c.val = a.val + b.val := ofNat?_eq_some

/-- a checked successor is one more -/
theorem checkedSucc_eq_some : a.checkedSucc = some c ↔ c.val = a.val + 1 := ofNat?_eq_some

/-- a checked difference is what is missing -/
theorem checkedSub_eq_some : a.checkedSub b = some c ↔ c.val + b.val = a.val := by
  unfold checkedSub
  split_ifs with h
  · rw [le_def] at h
    rw [Option.some.injEq, Unsigned.ext_iff, val_sub]
    omega
  · rw [le_def] at h
    simp only [false_iff]
    omega

/-- the greatest number has no successor -/
theorem checkedSucc_eq_none : a.checkedSucc = none ↔ a = max := by
  have h := a.fits
  rw [checkedSucc, ofNat?_eq_none, Unsigned.ext_iff, val_max]
  omega

theorem eq_zero_iff : a = zero ↔ a.val = 0 := by rw [Unsigned.ext_iff, val_zero]

end Unsigned

/-! ## Sums over a table -/

section Sums

variable {α : Type} {f g : α → ℕ} {l : List α}

/-- replacing a member changes a sum by the difference -/
theorem sum_map_set {i : ℕ} (h : i < l.length) (x : α) :
    ((l.set i x).map f).sum + f l[i] = (l.map f).sum + f x := by
  induction l generalizing i with
  | nil => cases h
  | cons y l ih =>
    cases i with
    | zero =>
      simp only [List.set_cons_zero, List.map_cons, List.sum_cons, List.getElem_cons_zero]
      omega
    | succ i =>
      have hi := ih (Nat.lt_of_succ_lt_succ h)
      simp only [List.set_cons_succ, List.map_cons, List.sum_cons, List.getElem_cons_succ]
      omega

theorem sum_map_append_single (x : α) : ((l ++ [x]).map f).sum = (l.map f).sum + f x := by simp

/-- a sum is no smaller than a part -/
theorem le_sum_map {x : α} (h : x ∈ l) : f x ≤ (l.map f).sum := List.single_le_sum (by simp) _ (List.mem_map_of_mem h)

end Sums

end ZenoFcis.Lib
