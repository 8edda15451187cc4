/-
Fixed arrays of 128-bit words and the private loops over them (`profile2/arithmetic256.rs`): sums with a carry,
differences with a borrow, schoolbook products through rippling words, and long division bit by bit.
- `add_val`, `subtract_val`: exact up to the bit that leaves the array;
- `multiply_eq`: the whole product, whenever the array has room for it;
- `divide_eq`: quotient and remainder of every divisor that is not zero.
-/
import ZenoFcis.Finite.Wide
import ZenoFcis.Lib.Except
import ZenoFcis.Lib.LimbWork

namespace ZenoFcis.Number

open Lib Lib.Except

/-- a checked fixed-width arithmetic refusal -/
inductive Failure where
  | overflow
  | zeroDivisor
  | inexact
  | domain
  | invariant
deriving DecidableEq

/-- the rounding policy for a checked operation -/
inductive Rounding where
  | floor
  | ceil
  | exact
deriving DecidableEq

/-- `[u128; N]`, least significant word first -/
structure Words (n : ℕ) where
  words : List (BitVec 128)
  length_eq : words.length = n
deriving DecidableEq

abbrev U256 := Words 2

abbrev U512 := Words 4

abbrev U768 := Words 6

namespace Words

variable {n : ℕ}

/-- the number that the words stand for -/
def val (a : Words n) : ℕ := Limbs.value a.words

/-- the least number that has no place in `n` words -/
def bound (n : ℕ) : ℕ := (2 ^ 128) ^ n

def ofNat (n k : ℕ) : Words n := ⟨Limbs.ofNat 128 n k, Limbs.ofNat_length n k⟩

def zero (n : ℕ) : Words n := ⟨List.replicate n 0, List.length_replicate⟩

theorem val_lt (a : Words n) : a.val < bound n := by
  have h := Limbs.value_lt a.words
  rw [a.length_eq] at h
  exact h

/-- words with one value are equal -/
theorem val_inj {a b : Words n} (h : a.val = b.val) : a = b := by
  have hwords := Limbs.value_inj (a.length_eq.trans b.length_eq.symm) h
  cases a
  cases b
  cases hwords
  rfl

/-- a number within the bound is read back -/
theorem val_ofNat {k : ℕ} (h : k < bound n) : (ofNat n k).val = k := Limbs.value_ofNat h

@[simp] theorem val_zero (n : ℕ) : (zero n).val = 0 := Limbs.value_zeros n

theorem eq_zero_iff {a : Words n} : a = zero n ↔ a.val = 0 := by
  constructor
  · intro h
    rw [h, val_zero]
  · intro h
    exact val_inj (h.trans (val_zero n).symm)

/-! ## The loops -/

def add (a b : Words n) : Words n × Bool :=
  (⟨(Limbs.add a.words b.words false).1,
    (Limbs.add_length (a.length_eq.trans b.length_eq.symm) false).trans a.length_eq⟩,
    (Limbs.add a.words b.words false).2)

def subtract (a b : Words n) : Words n × Bool :=
  (⟨(Limbs.sub a.words b.words false).1,
    (Limbs.sub_length (a.length_eq.trans b.length_eq.symm) false).trans a.length_eq⟩,
    (Limbs.sub a.words b.words false).2)

/-- a word added at a place, with its carry; a carry that leaves the array is an inconsistency -/
def addWord (out : Words n) (place : ℕ) (value : BitVec 128) : Except Failure (Words n) :=
  if n ≤ place then
    if value = 0 then .ok out else .error .invariant
  else
    match h : Limbs.ripple (out.words.drop place) value with
    | none => .error .invariant
    | some rest => .ok ⟨out.words.take place ++ rest, by
        rw [List.length_append, Limbs.ripple_length h, ← List.length_append, List.take_append_drop, out.length_eq]⟩

/-- the inner loop of a product: one word of the first factor against the second factor from its word `j` on -/
def multiplyRow (x : BitVec 128) (i : ℕ) : ℕ → List (BitVec 128) → Words n → Except Failure (Words n)
  | _, [], out => .ok out
  | j, y :: ys, out => do
    let product := Finite.Wide.multiply x y
    let out ← addWord out (i + j) product.1
    let out ← addWord out (i + j + 1) product.2
    multiplyRow x i (j + 1) ys out

/-- the outer loop, from the word `i` of the first factor on -/
def multiplyRows (ys : List (BitVec 128)) : ℕ → List (BitVec 128) → Words n → Except Failure (Words n)
  | _, [], out => .ok out
  | i, x :: xs, out => do
    let out ← multiplyRow x i 0 ys out
    multiplyRows ys (i + 1) xs out

def multiply {a b : ℕ} (out : ℕ) (x : Words a) (y : Words b) : Except Failure (Words out) :=
  multiplyRows y.words 0 x.words (zero out)

/-- `compare`: high word first -/
def compare (a b : Words n) : Ordering := Limbs.compareTop a.words b.words

instance lawfulWord : @LawfulBEq (BitVec 128) instBEqOfDecidableEq := inferInstance

def divide (a d : Words n) : Except Failure (Words n × Words n) := do
  ensure (¬ ∀ x ∈ d.words, x = 0) .zeroDivisor
  match Limbs.longDivide a.words d.words (128 * n) (zero n).words (zero n).words with
  | none => .error .invariant
  | some (q, r) =>
    -- arrays keep their length
    if h : q.length = n ∧ r.length = n then do
      ensure (compare (⟨r, h.2⟩ : Words n) d = .lt) .invariant
      return (⟨q, h.1⟩, ⟨r, h.2⟩)
    else .error .invariant

/-! ## What they compute -/

/-- a sum is exact up to the carry -/
theorem add_val (a b : Words n) : (add a b).1.val + bound n * (add a b).2.toNat = a.val + b.val := by
  have h := Limbs.add_value (by decide) (a.length_eq.trans b.length_eq.symm) false
  rw [a.length_eq, Bool.toNat_false, add_zero] at h
  exact h

theorem subtract_val (a b : Words n) : (subtract a b).1.val + b.val = a.val + bound n * (subtract a b).2.toNat := by
  have h := Limbs.sub_value (by decide) (a.length_eq.trans b.length_eq.symm) false
  rw [a.length_eq, Bool.toNat_false, add_zero] at h
  exact h

/-- words are ordered as numbers -/
theorem compare_eq (a b : Words n) : compare a b = Ord.compare a.val b.val :=
  Limbs.compareTop_eq (a.length_eq.trans b.length_eq.symm)

/-- **Words at a place.** A word that leaves room is added exactly. -/
theorem addWord_ok {out : Words n} {place : ℕ} {value : BitVec 128}
    (hfits : out.val + (2 ^ 128) ^ place * value.toNat < bound n) :
    ∃ out', addWord out place value = .ok out' ∧ out'.val = out.val + (2 ^ 128) ^ place * value.toNat := by
  unfold addWord
  by_cases hplace : n ≤ place
  · rw [if_pos hplace]
    have hzero : value = 0 := by
      by_contra hne
      have hpos : 0 < value.toNat := Nat.pos_of_ne_zero fun h => hne (BitVec.eq_of_toNat_eq h)
      have hle : bound n ≤ (2 ^ 128) ^ place := Nat.pow_le_pow_right (by decide) hplace
      have hmul := Nat.le_mul_of_pos_right ((2 ^ 128) ^ place) hpos
      omega
    have hnone : (0 : BitVec 128).toNat = 0 := rfl
    rw [if_pos hzero, hzero]
    exact ⟨out, rfl, by rw [hnone, mul_zero, add_zero]⟩
  · rw [if_neg hplace]
    have hlt := not_le.1 hplace
    have htake : (out.words.take place).length = place := by
      rw [List.length_take, out.length_eq]
      omega
    have hdrop : (out.words.drop place).length = n - place := by rw [List.length_drop, out.length_eq]
    have hsplit : out.val =
        Limbs.value (out.words.take place) + (2 ^ 128) ^ place * Limbs.value (out.words.drop place) := by
      have happend := Limbs.value_append (out.words.take place) (out.words.drop place)
      rw [List.take_append_drop, htake] at happend
      exact happend
    have hroom : Limbs.value (out.words.drop place) + value.toNat < (2 ^ 128) ^ (out.words.drop place).length := by
      rw [hdrop]
      refine Nat.lt_of_mul_lt_mul_left (a := (2 ^ 128) ^ place) ?_
      have hpow : (2 ^ 128) ^ place * (2 ^ 128) ^ (n - place) = bound n := by
        rw [← pow_add, bound]
        congr 1
        omega
      rw [hpow, mul_add]
      omega
    have hne : out.words.drop place ≠ [] := by
      intro hnil
      rw [hnil] at hdrop
      simp only [List.length_nil] at hdrop
      omega
    obtain ⟨rest, hrest, hval⟩ := Limbs.ripple_value (by decide) hne hroom
    split
    · next h => rw [hrest] at h; cases h
    · next rest' h =>
      rw [hrest] at h
      cases h
      refine ⟨_, rfl, ?_⟩
      have happend := Limbs.value_append (out.words.take place) rest
      rw [htake, hval] at happend
      rw [hsplit]
      refine happend.trans ?_
      ring

theorem number2_multiply (x y : BitVec 128) :
    (Finite.Wide.multiply x y).1.toNat + 2 ^ 128 * (Finite.Wide.multiply x y).2.toNat = x.toNat * y.toNat := by
  have h := Finite.Wide.number2_multiply x y
  unfold Finite.Wide.number2 at h
  omega

theorem multiplyRow_ok {x : BitVec 128} {i j : ℕ} {ys : List (BitVec 128)} {out : Words n}
    (hfits : out.val + (2 ^ 128) ^ (i + j) * (x.toNat * Limbs.value ys) < bound n) :
    ∃ out', multiplyRow x i j ys out = .ok out' ∧
      out'.val = out.val + (2 ^ 128) ^ (i + j) * (x.toNat * Limbs.value ys) := by
  induction ys generalizing j out with
  | nil => exact ⟨out, rfl, by rw [Limbs.value, mul_zero, mul_zero, add_zero]⟩
  | cons y ys ih =>
    have hproduct := number2_multiply x y
    set low := (Finite.Wide.multiply x y).1
    set high := (Finite.Wide.multiply x y).2
    have htotal : (2 ^ 128) ^ (i + j) * (x.toNat * Limbs.value (y :: ys)) =
        (2 ^ 128) ^ (i + j) * low.toNat + (2 ^ 128) ^ (i + j + 1) * high.toNat +
          (2 ^ 128) ^ (i + (j + 1)) * (x.toNat * Limbs.value ys) := by
      rw [Limbs.value, mul_add, ← hproduct, ← add_assoc i j 1, pow_succ]
      ring
    rw [htotal] at hfits ⊢
    obtain ⟨out1, h1, hval1⟩ := @addWord_ok n out (i + j) low (by omega)
    obtain ⟨out2, h2, hval2⟩ := @addWord_ok n out1 (i + j + 1) high (by omega)
    obtain ⟨out3, h3, hval3⟩ := @ih (j + 1) out2 (by omega)
    refine ⟨out3, ?_, by omega⟩
    rw [multiplyRow]
    change (addWord out (i + j) low >>= _) = _
    rw [h1, ok_bind]
    change (addWord out1 (i + j + 1) high >>= _) = _
    rw [h2, ok_bind]
    exact h3

theorem multiplyRows_ok {i : ℕ} {xs ys : List (BitVec 128)} {out : Words n}
    (hfits : out.val + (2 ^ 128) ^ i * (Limbs.value xs * Limbs.value ys) < bound n) :
    ∃ out', multiplyRows ys i xs out = .ok out' ∧
      out'.val = out.val + (2 ^ 128) ^ i * (Limbs.value xs * Limbs.value ys) := by
  induction xs generalizing i out with
  | nil => exact ⟨out, rfl, by rw [Limbs.value, zero_mul, mul_zero, add_zero]⟩
  | cons x xs ih =>
    have htotal : (2 ^ 128) ^ i * (Limbs.value (x :: xs) * Limbs.value ys) =
        (2 ^ 128) ^ (i + 0) * (x.toNat * Limbs.value ys) +
          (2 ^ 128) ^ (i + 1) * (Limbs.value xs * Limbs.value ys) := by
      rw [Limbs.value, add_mul, add_zero, pow_succ]
      ring
    rw [htotal] at hfits ⊢
    obtain ⟨out1, h1, hval1⟩ := @multiplyRow_ok n x i 0 ys out (by omega)
    obtain ⟨out2, h2, hval2⟩ := @ih (i + 1) out1 (by omega)
    refine ⟨out2, ?_, by omega⟩
    rw [multiplyRows, h1, ok_bind, h2]

/-- **Products.** -/
theorem multiply_eq {a b out : ℕ} (h : a + b ≤ out) (x : Words a) (y : Words b) :
    multiply out x y = .ok (ofNat out (x.val * y.val)) := by
  have hfits : x.val * y.val < bound out :=
    calc x.val * y.val < bound a * bound b := Nat.mul_lt_mul'' x.val_lt y.val_lt
      _ = bound (a + b) := (pow_add _ _ _).symm
      _ ≤ bound out := Nat.pow_le_pow_right (by decide) h
  obtain ⟨z, hz, hval⟩ := @multiplyRows_ok out 0 x.words y.words (zero out) (by
    rw [val_zero, zero_add, pow_zero, one_mul]
    exact hfits)
  rw [val_zero, zero_add, pow_zero, one_mul] at hval
  rw [multiply, hz]
  exact congrArg Except.ok (val_inj (hval.trans (val_ofNat hfits).symm))

/-- **Long division.** -/
theorem divide_eq (a d : Words n) : divide a d =
    if d.val = 0 then .error .zeroDivisor else .ok (ofNat n (a.val / d.val), ofNat n (a.val % d.val)) := by
  have hzero : (∀ x ∈ d.words, x = 0) ↔ d.val = 0 := Limbs.value_eq_zero.symm
  unfold divide
  by_cases hd : d.val = 0
  · rw [if_pos hd, ensure, if_neg (not_not.2 (hzero.2 hd))]
    rfl
  · rw [if_neg hd, ensure_bind (mt hzero.1 hd)]
    obtain ⟨q, r, hdivide, hq, hr, hquotient, hremainder⟩ :=
      Limbs.longDivide_value (by decide) (a.length_eq.trans d.length_eq.symm) hd
    rw [d.length_eq] at hdivide hq hr
    have hpos := Nat.pos_of_ne_zero hd
    have hless : compare (⟨r, hr⟩ : Words n) d = .lt := by
      rw [compare_eq, Nat.compare_eq_lt]
      exact hremainder.trans_lt (Nat.mod_lt _ hpos)
    change (match Limbs.longDivide a.words d.words (128 * n) (List.replicate n 0) (List.replicate n 0) with
      | none => _
      | some (q, r) => _) = _
    rw [hdivide]
    simp only [dif_pos (And.intro hq hr), ensure_bind hless]
    have hwords : (⟨q, hq⟩ : Words n) = ofNat n (a.val / d.val) :=
      val_inj (hquotient.trans (val_ofNat ((Nat.div_le_self _ _).trans_lt a.val_lt)).symm)
    have hrest : (⟨r, hr⟩ : Words n) = ofNat n (a.val % d.val) :=
      val_inj (hremainder.trans (val_ofNat ((Nat.mod_le _ _).trans_lt a.val_lt)).symm)
    rw [hwords, hrest]
    rfl

end Words

end ZenoFcis.Number
