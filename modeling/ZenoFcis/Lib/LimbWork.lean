/-
Multiplication rows, shifts and single bits of numbers as limbs, and one step of restoring division, each with the value
it computes.
-/
import ZenoFcis.Lib.Limbs

namespace ZenoFcis.Lib

namespace Limbs

variable {w : ℕ}

/-- one row of a schoolbook product: `xs * factor + ys + carry`, with the carry out of the last limb -/
def mulAdd (factor : BitVec w) : List (BitVec w) → List (BitVec w) → ℕ → List (BitVec w) × ℕ
  | x :: xs, y :: ys, carry =>
    let value := x.toNat * factor.toNat + y.toNat + carry
    let rest := mulAdd factor xs ys (value / 2 ^ w)
    (BitVec.ofNat w value :: rest.1, rest.2)
  | _, _, carry => ([], carry)

/-- one bit to the left, with the bits that enter and leave -/
def shiftIn : List (BitVec w) → Bool → List (BitVec w) × Bool
  | [], carry => ([], carry)
  | x :: xs, carry =>
    let rest := shiftIn xs x.msb
    (((x <<< 1) ||| bit carry) :: rest.1, rest.2)

def bitAt (xs : List (BitVec w)) (i : ℕ) : Bool := (xs.getD (i / w) 0).getLsbD (i % w)

def setBit (xs : List (BitVec w)) (i : ℕ) : List (BitVec w) := xs.modify (i / w) (· ||| (1 : BitVec w) <<< (i % w))

/-! ## Numbers of a fixed length -/

/-- the lowest `n` limbs of a number -/
def ofNat (w : ℕ) : ℕ → ℕ → List (BitVec w)
  | 0, _ => []
  | n + 1, k => BitVec.ofNat w k :: ofNat w n (k / 2 ^ w)

theorem ofNat_length (n k : ℕ) : (ofNat w n k).length = n := by
  induction n generalizing k with
  | zero => rfl
  | succ n ih => simp [ofNat, ih]

/-- a number within the width is its limbs -/
theorem value_ofNat {n k : ℕ} (h : k < (2 ^ w) ^ n) : value (ofNat w n k) = k := by
  induction n generalizing k with
  | zero =>
    rw [pow_zero, Nat.lt_one_iff] at h
    rw [h]
    rfl
  | succ n ih =>
    have hdiv : k / 2 ^ w < (2 ^ w) ^ n := by
      rw [Nat.div_lt_iff_lt_mul (Nat.two_pow_pos w), ← pow_succ]
      exact h
    rw [ofNat, value, ih hdiv, BitVec.toNat_ofNat]
    exact Nat.mod_add_div k (2 ^ w)

variable {xs ys d r a : List (BitVec w)}

/-- limbs of one length are told apart by their value -/
theorem value_inj (hlen : xs.length = ys.length) (h : value xs = value ys) : xs = ys := by
  induction xs generalizing ys with
  | nil =>
    cases ys with
    | nil => rfl
    | cons y ys => cases hlen
  | cons x xs ih =>
    cases ys with
    | nil => cases hlen
    | cons y ys =>
      have hlow : x = y := by
        have hmod := congrArg (· % 2 ^ w) h
        simp only [value, Nat.add_mul_mod_self_left, Nat.mod_eq_of_lt x.isLt, Nat.mod_eq_of_lt y.isLt] at hmod
        exact BitVec.eq_of_toNat_eq hmod
      have hhigh : value xs = value ys := by
        rw [value, value, hlow] at h
        exact Nat.eq_of_mul_eq_mul_left (Nat.two_pow_pos w) (Nat.add_left_cancel h)
      rw [hlow, ih (Nat.succ.inj hlen) hhigh]

/-- the value of a concatenation -/
theorem value_append (xs ys : List (BitVec w)) : value (xs ++ ys) = value xs + (2 ^ w) ^ xs.length * value ys := by
  induction xs with
  | nil => simp [value]
  | cons x xs ih =>
    rw [List.cons_append, value, ih, value, List.length_cons, pow_succ]
    ring

/-- a value is zero when all limbs are -/
theorem value_eq_zero : value xs = 0 ↔ ∀ x ∈ xs, x = 0 := by
  induction xs with
  | nil => simp [value]
  | cons x xs ih =>
    have hpos := Nat.two_pow_pos w
    simp only [value, Nat.add_eq_zero_iff, Nat.mul_eq_zero, hpos.ne', false_or, ih, List.mem_cons, forall_eq_or_imp]
    exact and_congr_left fun _ => ⟨fun h => BitVec.eq_of_toNat_eq h, fun h => by simp [h]⟩

/-! ## Rows -/

/-- **Rows.** A row is exact, with its carry in the place above -/
theorem mulAdd_value (factor : BitVec w) (h : xs.length = ys.length) (carry : ℕ) :
    value (mulAdd factor xs ys carry).1 + (2 ^ w) ^ xs.length * (mulAdd factor xs ys carry).2 =
      value xs * factor.toNat + value ys + carry := by
  induction xs generalizing ys carry with
  | nil =>
    cases ys with
    | nil => simp [mulAdd, value]
    | cons y ys => cases h
  | cons x xs ih =>
    cases ys with
    | nil => cases h
    | cons y ys =>
      have hrest := ih (Nat.succ.inj h) ((x.toNat * factor.toNat + y.toNat + carry) / 2 ^ w)
      have hdigit := Nat.mod_add_div (x.toNat * factor.toNat + y.toNat + carry) (2 ^ w)
      simp only [mulAdd, value, List.length_cons, pow_succ, BitVec.toNat_ofNat]
      generalize (x.toNat * factor.toNat + y.toNat + carry) / 2 ^ w = high at hrest hdigit ⊢
      generalize (x.toNat * factor.toNat + y.toNat + carry) % 2 ^ w = low at hdigit ⊢
      generalize value (mulAdd factor xs ys high).1 = rest at hrest ⊢
      generalize (mulAdd factor xs ys high).2 = out at hrest ⊢
      generalize (2 ^ w) ^ xs.length = scale at hrest ⊢
      generalize 2 ^ w = base at hdigit hrest ⊢
      calc low + base * rest + scale * base * out = low + base * (rest + scale * out) := by ring
        _ = (x.toNat + base * value xs) * factor.toNat + (y.toNat + base * value ys) + carry := by
          rw [hrest]
          nlinarith [hdigit]

theorem mulAdd_length (factor : BitVec w) (h : xs.length = ys.length) (carry : ℕ) :
    (mulAdd factor xs ys carry).1.length = xs.length := by
  induction xs generalizing ys carry with
  | nil =>
    cases ys with
    | nil => rfl
    | cons y ys => cases h
  | cons x xs ih =>
    cases ys with
    | nil => cases h
    | cons y ys => simp [mulAdd, ih (Nat.succ.inj h)]

/-! ## Shifts -/

theorem shiftIn_limb (hw : 0 < w) (x : BitVec w) (carry : Bool) :
    ((x <<< 1) ||| bit carry).toNat + 2 ^ w * x.msb.toNat = 2 * x.toNat + carry.toNat := by
  obtain ⟨v, rfl⟩ : ∃ v, w = v + 1 := ⟨w - 1, by omega⟩
  have hx := x.isLt
  have hcarry : carry.toNat < 2 ^ 1 := lt_of_le_of_lt (Bool.toNat_le carry) (by decide)
  have hmsb : x.msb.toNat = x.toNat / 2 ^ v := by
    rw [BitVec.msb_eq_decide]
    have hsplit : x.toNat / 2 ^ v < 2 := by
      rw [Nat.div_lt_iff_lt_mul (Nat.two_pow_pos v), mul_comm, ← pow_succ]
      exact hx
    by_cases h : 2 ^ v ≤ x.toNat
    · have hone : 1 ≤ x.toNat / 2 ^ v := (Nat.one_le_div_iff (Nat.two_pow_pos v)).2 h
      simp only [Nat.add_sub_cancel, h, decide_true, Bool.toNat_true]
      omega
    · rw [Nat.div_eq_of_lt (not_le.1 h)]
      simp [h]
  have hshift : (x <<< 1).toNat = 2 ^ 1 * (x.toNat % 2 ^ v) := by
    have hpow : 2 ^ (v + 1) = 2 ^ 1 * 2 ^ v := by rw [pow_succ, mul_comm, pow_one]
    rw [BitVec.toNat_shiftLeft, Nat.shiftLeft_eq, hpow, mul_comm x.toNat, Nat.mul_mod_mul_left]
  have hdiv := Nat.mod_add_div x.toNat (2 ^ v)
  rw [BitVec.toNat_or, hshift, toNat_bit hw, ← Nat.two_pow_add_eq_or_of_lt hcarry, hmsb, pow_succ]
  generalize x.toNat / 2 ^ v = high at hdiv ⊢
  generalize x.toNat % 2 ^ v = low at hdiv ⊢
  rw [← hdiv]
  ring

theorem shiftIn_value (hw : 0 < w) (xs : List (BitVec w)) (carry : Bool) :
    value (shiftIn xs carry).1 + (2 ^ w) ^ xs.length * (shiftIn xs carry).2.toNat = 2 * value xs + carry.toNat := by
  induction xs generalizing carry with
  | nil => simp [shiftIn, value]
  | cons x xs ih =>
    have hlimb := shiftIn_limb hw x carry
    have hrest := ih x.msb
    simp only [shiftIn, value, List.length_cons, pow_succ]
    generalize value (shiftIn xs x.msb).1 = rest at hrest ⊢
    generalize (shiftIn xs x.msb).2.toNat = out at hrest ⊢
    generalize (2 ^ w) ^ xs.length = scale at hrest ⊢
    generalize 2 ^ w = base at hlimb hrest ⊢
    calc ((x <<< 1) ||| bit carry).toNat + base * rest + scale * base * out
        = ((x <<< 1) ||| bit carry).toNat + base * (rest + scale * out) := by ring
      _ = 2 * (x.toNat + base * value xs) + carry.toNat := by
        rw [hrest]
        nlinarith [hlimb]

theorem shiftIn_length (xs : List (BitVec w)) (carry : Bool) : (shiftIn xs carry).1.length = xs.length := by
  induction xs generalizing carry with
  | nil => rfl
  | cons x xs ih => simp [shiftIn, ih]

theorem sub_length (h : xs.length = ys.length) (borrow : Bool) :
    (sub xs ys borrow).1.length = xs.length := by
  induction xs generalizing ys borrow with
  | nil => rfl
  | cons x xs ih =>
    cases ys with
    | nil => cases h
    | cons y ys => simp [sub, ih (Nat.succ.inj h)]

theorem add_length (h : xs.length = ys.length) (carry : Bool) :
    (add xs ys carry).1.length = xs.length := by
  induction xs generalizing ys carry with
  | nil => rfl
  | cons x xs ih =>
    cases ys with
    | nil => cases h
    | cons y ys => simp [add, ih (Nat.succ.inj h)]

/-! ## Bits -/

theorem bitAt_eq (hw : 0 < w) (xs : List (BitVec w)) (i : ℕ) : bitAt xs i = (value xs).testBit i := by
  induction xs generalizing i with
  | nil => simp [bitAt, value]
  | cons x xs ih =>
    rw [value, add_comm, Nat.testBit_two_pow_mul_add _ x.isLt]
    by_cases hi : i < w
    · rw [if_pos hi, bitAt, Nat.div_eq_of_lt hi, Nat.mod_eq_of_lt hi, List.getD_cons_zero, BitVec.getLsbD]
    · have hback : i = i - w + w := by omega
      rw [if_neg hi, ← ih, bitAt, bitAt]
      conv_lhs => rw [hback]
      rw [Nat.add_div_right _ hw, Nat.add_mod_right, List.getD_cons_succ]

/-- a clear bit is set by adding it -/
theorem or_two_pow {n i : ℕ} (h : n.testBit i = false) : n ||| 2 ^ i = n + 2 ^ i := by
  have heven : n / 2 ^ i % 2 = 0 := by
    simpa [Nat.testBit_eq_decide_div_mod_eq] using h
  have hlow : n % 2 ^ (i + 1) = n % 2 ^ i := by
    rw [Nat.mod_pow_succ, heven, mul_zero, add_zero]
  have hlt : n % 2 ^ i < 2 ^ i := Nat.mod_lt _ (Nat.two_pow_pos i)
  have hlt' : 2 ^ i * 1 + n % 2 ^ i < 2 ^ (i + 1) := by
    rw [pow_succ]
    omega
  have hsplit : n = 2 ^ (i + 1) * (n / 2 ^ (i + 1)) + n % 2 ^ i := by
    rw [← hlow]
    exact (Nat.div_add_mod _ _).symm
  generalize n / 2 ^ (i + 1) = high at hsplit
  generalize n % 2 ^ i = low at hsplit hlt hlt'
  have hlow' : low < 2 ^ (i + 1) := hlt.trans (Nat.pow_lt_pow_right (by decide) (Nat.lt_succ_self i))
  calc n ||| 2 ^ i = 2 ^ (i + 1) * high ||| (2 ^ i * 1 ||| low) := by
        rw [hsplit, Nat.two_pow_add_eq_or_of_lt hlow', Nat.or_assoc, mul_one, Nat.or_comm low]
    _ = 2 ^ (i + 1) * high + (2 ^ i * 1 + low) := by
        rw [← Nat.two_pow_add_eq_or_of_lt hlt, ← Nat.two_pow_add_eq_or_of_lt hlt']
    _ = n + 2 ^ i := by
        rw [hsplit]
        ring

theorem setBit_length (xs : List (BitVec w)) (i : ℕ) : (setBit xs i).length = xs.length := by
  rw [setBit, List.length_modify]

/-- setting a clear bit adds its power -/
theorem setBit_value {i : ℕ} (hw : 0 < w) (hi : i < w * xs.length)
    (hclear : (value xs).testBit i = false) : value (setBit xs i) = value xs + 2 ^ i := by
  induction xs generalizing i with
  | nil => simp at hi
  | cons x xs ih =>
    rw [value, add_comm, Nat.testBit_two_pow_mul_add _ x.isLt] at hclear
    by_cases hlow : i < w
    · rw [if_pos hlow] at hclear
      have hone : ((1 : BitVec w) <<< i).toNat = 2 ^ i := by
        have hword : (1 : BitVec w).toNat = 1 := by
          simp [Nat.mod_eq_of_lt (Nat.one_lt_two_pow hw.ne')]
        rw [BitVec.toNat_shiftLeft, Nat.shiftLeft_eq, hword, one_mul,
          Nat.mod_eq_of_lt (Nat.pow_lt_pow_right (by decide) hlow)]
      have hor : (x ||| (1 : BitVec w) <<< i).toNat = x.toNat + 2 ^ i := by
        rw [BitVec.toNat_or, hone, or_two_pow hclear]
      rw [setBit, Nat.div_eq_of_lt hlow, Nat.mod_eq_of_lt hlow, List.modify_zero_cons, value, value, hor]
      ring
    · rw [if_neg hlow] at hclear
      have hback : i = i - w + w := by omega
      have hrest := ih (i := i - w) (by rw [List.length_cons] at hi; rw [Nat.mul_succ] at hi; omega) hclear
      have hset : setBit (x :: xs) i = x :: setBit xs (i - w) := by
        rw [setBit, setBit]
        conv_lhs => rw [hback]
        rw [Nat.add_div_right _ hw, Nat.add_mod_right, List.modify_succ_cons]
      have hpow : 2 ^ i = 2 ^ w * 2 ^ (i - w) := by
        rw [← pow_add]
        congr 1
        omega
      rw [hset, value, value, hrest, hpow]
      ring

/-! ## Restoring division -/

/-- one step: shift the next bit of the numerator in, and subtract the divisor when it fits; a failure when the borrow is
not the bit that left -/
def restore (d : List (BitVec w)) (r : List (BitVec w)) (next : Bool) : Option (List (BitVec w) × Bool) :=
  let shifted := shiftIn r next
  if shifted.2 = true ∨ compareTop shifted.1 d ≠ .lt then
    let difference := sub shifted.1 d false
    if difference.2 = shifted.2 then some (difference.1, true) else none
  else some (shifted.1, false)

/-- **Restoring step.** From a remainder below the divisor, the step is exact, also when the shifted remainder needs a
carry bit. -/
theorem restore_value (hw : 0 < w) (hlen : r.length = d.length) (hlt : value r < value d)
    (next : Bool) : ∃ r', restore d r next = some (r', decide (value d ≤ 2 * value r + next.toNat)) ∧
      r'.length = d.length ∧ value r' = (2 * value r + next.toNat) % value d := by
  have hshift := shiftIn_value hw r next
  have hlength := shiftIn_length r next
  have hcompare := compareTop_eq (hlength.trans hlen)
  have hsub := sub_value hw (hlength.trans hlen) false
  have hbelow := value_lt (shiftIn r next).1
  have hdiff := value_lt (sub (shiftIn r next).1 d false).1
  rw [sub_length (hlength.trans hlen)] at hdiff
  have hnext : next.toNat ≤ 1 := Bool.toNat_le next
  rw [hlength] at hsub hbelow hdiff
  have hdivisor := value_lt d
  rw [← hlen] at hdivisor
  have hdlength := sub_length (hlength.trans hlen) false
  rw [hlength, hlen] at hdlength
  rw [hlen] at hlength
  simp only [restore, hcompare]
  generalize shiftIn r next = shifted at *
  generalize sub shifted.1 d false = difference at *
  generalize (2 ^ w) ^ r.length = scale at *
  simp only [Bool.toNat_false, add_zero] at hsub
  have hmod (h : value d ≤ 2 * value r + next.toNat) :
      (2 * value r + next.toNat) % value d = 2 * value r + next.toNat - value d := by
    rw [Nat.mod_eq_sub_mod h, Nat.mod_eq_of_lt (by omega)]
  cases hcarry : shifted.2 with
  | true =>
    rw [hcarry] at hshift
    simp only [Bool.toNat_true, mul_one] at hshift
    have hborrow : difference.2 = true := by
      -- without a borrow the shifted remainder would reach the divisor twice
      by_contra hfalse
      rw [Bool.not_eq_true] at hfalse
      rw [hfalse] at hsub
      simp only [Bool.toNat_false, mul_zero, add_zero] at hsub
      omega
    rw [hborrow] at hsub
    simp only [Bool.toNat_true, mul_one] at hsub
    have hle : value d ≤ 2 * value r + next.toNat := by omega
    refine ⟨difference.1, ?_, hdlength, ?_⟩
    · simp [hborrow, hle]
    · rw [hmod hle]
      omega
  | false =>
    rw [hcarry] at hshift
    simp only [Bool.toNat_false, mul_zero, add_zero] at hshift
    by_cases hle : value d ≤ 2 * value r + next.toNat
    · have hborrow : difference.2 = false := by
        by_contra htrue
        rw [Bool.not_eq_false] at htrue
        rw [htrue] at hsub
        simp only [Bool.toNat_true, mul_one] at hsub
        omega
      rw [hborrow] at hsub
      simp only [Bool.toNat_false, mul_zero, add_zero] at hsub
      have hne : compare (value shifted.1) (value d) ≠ .lt := by
        rw [Ne, compare_lt_iff_lt]
        omega
      refine ⟨difference.1, ?_, hdlength, ?_⟩
      · simp [hborrow, hle, hne]
      · rw [hmod hle]
        omega
    · have hlt' : compare (value shifted.1) (value d) = .lt := by
        rw [compare_lt_iff_lt]
        omega
      refine ⟨shifted.1, ?_, hlength, ?_⟩
      · simp [hlt', hle]
      · rw [Nat.mod_eq_of_lt (not_le.1 hle), hshift]

/-- long division over the bits that remain, from the highest one down -/
def longDivide (a d : List (BitVec w)) : ℕ → List (BitVec w) → List (BitVec w) →
    Option (List (BitVec w) × List (BitVec w))
  | 0, q, r => some (q, r)
  | i + 1, q, r => (restore d r (bitAt a i)).bind fun step =>
    longDivide a d i (if step.2 = true then setBit q i else q) step.1

/-- the loop invariant of long division: the bits above the scanned ones hold the quotient of what was shifted in -/
theorem longDivide_from (hw : 0 < w) {q : List (BitVec w)} {n k : ℕ} (hn : n ≤ w * q.length)
    (hr : r.length = d.length) (hquotient : value q = 2 ^ n * k) (hlt : value r < value d)
    (hdivision : k * value d + value r = value a / 2 ^ n) :
    ∃ q' r', longDivide a d n q r = some (q', r') ∧ q'.length = q.length ∧ r'.length = d.length ∧
      value q' = value a / value d ∧ value r' = value a % value d := by
  induction n generalizing q r k with
  | zero =>
    rw [pow_zero, one_mul] at hquotient
    rw [pow_zero, Nat.div_one] at hdivision
    have hpos : 0 < value d := (Nat.zero_le _).trans_lt hlt
    have hunique := (Nat.div_mod_unique (a := value a) (c := value r) (d := k) hpos).2
      ⟨by rw [← hdivision]; ring, hlt⟩
    exact ⟨q, r, rfl, rfl, hr, hquotient.trans hunique.1.symm, hunique.2.symm⟩
  | succ n ih =>
    obtain ⟨r', hrestore, hlength, hvalue⟩ := restore_value hw hr hlt (bitAt a n)
    have hbit : (bitAt a n).toNat = value a / 2 ^ n % 2 := by rw [bitAt_eq hw, Nat.toNat_testBit]
    have hshift : value a / 2 ^ n = 2 * (value a / 2 ^ (n + 1)) + value a / 2 ^ n % 2 := by
      rw [pow_succ, ← Nat.div_div_eq_div_mul]
      exact (Nat.div_add_mod _ 2).symm
    rw [longDivide, hrestore, Option.bind_some]
    rw [hbit] at hvalue ⊢
    by_cases hfits : value d ≤ 2 * value r + value a / 2 ^ n % 2
    · have hclear : (value q).testBit n = false := by
        rw [hquotient, pow_succ, mul_assoc, Nat.testBit_two_pow_mul]
        simp
      have hset := setBit_value hw (by omega : n < w * q.length) hclear
      rw [decide_eq_true hfits, if_pos rfl]
      have hmod : value r' = 2 * value r + value a / 2 ^ n % 2 - value d := by
        rw [hvalue, Nat.mod_eq_sub_mod hfits, Nat.mod_eq_of_lt (by omega)]
      rw [← setBit_length q n]
      refine ih (k := 2 * k + 1) (by rw [setBit_length]; omega) hlength ?_ ?_ ?_
      · rw [hset, hquotient]
        ring
      · rw [hmod]
        omega
      · rw [hmod, hshift, ← hdivision, Nat.add_mul, Nat.mul_assoc]
        omega
    · rw [decide_eq_false hfits, if_neg Bool.false_ne_true]
      rw [Nat.mod_eq_of_lt (not_le.1 hfits)] at hvalue
      refine ih (k := 2 * k) (by omega) hlength ?_ ?_ ?_
      · rw [hquotient]
        ring
      · rw [hvalue]
        exact not_le.1 hfits
      · rw [hvalue, hshift, ← hdivision, Nat.mul_assoc]
        omega

theorem value_zeros (n : ℕ) : value (List.replicate n (0 : BitVec w)) = 0 :=
  value_eq_zero.2 fun _ h => List.eq_of_mem_replicate h

/-- **Long division.** Every divisor that is not zero has its quotient and its remainder. -/
theorem longDivide_value (hw : 0 < w) (hlen : a.length = d.length) (hd : value d ≠ 0) :
    ∃ q r, longDivide a d (w * d.length) (List.replicate d.length 0) (List.replicate d.length 0) = some (q, r) ∧
      q.length = d.length ∧ r.length = d.length ∧ value q = value a / value d ∧ value r = value a % value d := by
  have hzero := value_zeros (w := w) d.length
  have hlength : (List.replicate d.length (0 : BitVec w)).length = d.length := List.length_replicate
  have hsmall : value a / 2 ^ (w * d.length) = 0 := by
    have hlt := value_lt a
    rw [hlen, ← pow_mul] at hlt
    exact Nat.div_eq_of_lt hlt
  have hdone := longDivide_from (a := a) (d := d) (k := 0) hw (n := w * d.length) (by rw [hlength]) hlength
    (by rw [hzero, mul_zero]) (by rw [hzero]; exact Nat.pos_of_ne_zero hd) (by rw [hzero, zero_mul, hsmall])
  rwa [hlength] at hdone

/-! ## Carries -/

/-- a word added at the lowest limb, with its carry rippling up; none when it leaves the last limb -/
def ripple : List (BitVec w) → BitVec w → Option (List (BitVec w))
  | [], _ => none
  | x :: xs, carry =>
    let total := overflowingAdd x carry
    if total.2 = true then (ripple xs 1).map (total.1 :: ·) else some (total.1 :: xs)

theorem ripple_length {carry : BitVec w} (h : ripple xs carry = some ys) :
    ys.length = xs.length := by
  induction xs generalizing carry ys with
  | nil => cases h
  | cons x xs ih =>
    rw [ripple] at h
    split_ifs at h
    · obtain ⟨zs, hzs, rfl⟩ := Option.map_eq_some_iff.1 h
      rw [List.length_cons, List.length_cons, ih hzs]
    · cases h
      rfl

/-- **Carries stay inside.** A word that leaves room is added exactly. -/
theorem ripple_value (hw : 0 < w) {carry : BitVec w} (hne : xs ≠ [])
    (hfits : value xs + carry.toNat < (2 ^ w) ^ xs.length) :
    ∃ ys, ripple xs carry = some ys ∧ value ys = value xs + carry.toNat := by
  induction xs generalizing carry with
  | nil => exact absurd rfl hne
  | cons x xs ih =>
    have htotal := overflowingAdd_value x carry
    have hone : (1 : BitVec w).toNat = 1 := by simp [Nat.mod_eq_of_lt (Nat.one_lt_two_pow hw.ne')]
    rw [value, List.length_cons, pow_succ] at hfits
    rw [ripple]
    cases hover : (overflowingAdd x carry).2 with
    | false =>
      rw [hover, Bool.toNat_false, mul_zero, add_zero] at htotal
      refine ⟨_, if_neg (by simp), ?_⟩
      rw [value, value, htotal]
      ring
    | true =>
      rw [hover, Bool.toNat_true, mul_one] at htotal
      have hroom : value xs + (1 : BitVec w).toNat < (2 ^ w) ^ xs.length := by
        rw [hone]
        by_contra hfull
        have hle := Nat.mul_le_mul_left (2 ^ w) (not_lt.1 hfull)
        rw [mul_add, mul_one] at hle
        have hcomm := Nat.mul_comm ((2 ^ w) ^ xs.length) (2 ^ w)
        omega
      have hrest : xs ≠ [] := by
        intro hnil
        rw [hnil, hone] at hroom
        simp [value] at hroom
      obtain ⟨ys, hys, hval⟩ := ih hrest hroom
      refine ⟨(overflowingAdd x carry).1 :: ys, ?_, ?_⟩
      · simp only [if_pos, hys, Option.map_some]
      · rw [value, hval, hone, value]
        rw [mul_add, mul_one]
        omega

end Limbs

end ZenoFcis.Lib
