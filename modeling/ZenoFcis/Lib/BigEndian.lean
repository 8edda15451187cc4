/-
Fixed-width big-endian words over `UInt8`: `beBytes w n` writes the low `w` base-256 digits of `n`, most significant
first; `ofBeBytes` reads a digit string back. The two are inverse on words below `256 ^ w` and on strings of length `w`.
-/
import Mathlib.Data.Nat.Bitwise
import Mathlib.Tactic

namespace ZenoFcis.Lib

/-- the low `w` bytes of `n`, most significant first -/
def beBytes : ℕ → ℕ → List UInt8
  | 0, _ => []
  | w + 1, n => beBytes w (n / 256) ++ [UInt8.ofNat n]

/-- the number whose base-256 digits are `bs`, most significant first -/
def ofBeBytes (bs : List UInt8) : ℕ := bs.foldl (fun n b => n * 256 + b.toNat) 0

/-- a word of `w` bytes has `w` bytes -/
@[simp] theorem beBytes_length (w n : ℕ) : (beBytes w n).length = w := by
  induction w generalizing n with
  | zero => rfl
  | succ w ih => simp [beBytes, ih]

@[simp] theorem ofBeBytes_nil : ofBeBytes [] = 0 := rfl

theorem ofBeBytes_snoc (bs : List UInt8) (b : UInt8) : ofBeBytes (bs ++ [b]) = ofBeBytes bs * 256 + b.toNat := by
  simp [ofBeBytes, List.foldl_append]

/-- bytes spell a number of their width -/
theorem ofBeBytes_lt (bs : List UInt8) : ofBeBytes bs < 256 ^ bs.length := by
  induction bs using List.reverseRecOn with
  | nil => simp
  | append_singleton bs b ih =>
    have hb : b.toNat < 256 := b.toNat_lt
    rw [ofBeBytes_snoc, List.length_append, List.length_singleton, pow_succ]
    omega

theorem ofBeBytes_beBytes (w n : ℕ) : ofBeBytes (beBytes w n) = n % 256 ^ w := by
  induction w generalizing n with
  | zero => simp [beBytes, Nat.mod_one]
  | succ w ih =>
    rw [beBytes, ofBeBytes_snoc, ih, pow_succ', Nat.mod_mul]
    simp only [UInt8.toNat_ofNat', Nat.reducePow]
    ring

/-- a number that fits is read back -/
theorem ofBeBytes_beBytes_of_lt {w n : ℕ} (h : n < 256 ^ w) : ofBeBytes (beBytes w n) = n := by
  rw [ofBeBytes_beBytes, Nat.mod_eq_of_lt h]

/-- bytes are written back -/
theorem beBytes_ofBeBytes (bs : List UInt8) : beBytes bs.length (ofBeBytes bs) = bs := by
  induction bs using List.reverseRecOn with
  | nil => rfl
  | append_singleton bs b ih =>
    have hb : b.toNat < 256 := b.toNat_lt
    rw [ofBeBytes_snoc, List.length_append, List.length_singleton, beBytes]
    have hdiv : (ofBeBytes bs * 256 + b.toNat) / 256 = ofBeBytes bs := by omega
    have hmod : UInt8.ofNat (ofBeBytes bs * 256 + b.toNat) = b := by
      apply UInt8.toNat_inj.1
      rw [UInt8.toNat_ofNat']
      omega
    rw [hdiv, hmod, ih]

/-- numbers that fit are told apart by their bytes -/
theorem beBytes_inj {w m n : ℕ} (hm : m < 256 ^ w) (hn : n < 256 ^ w) (h : beBytes w m = beBytes w n) : m = n := by
  rw [← ofBeBytes_beBytes_of_lt hm, h, ofBeBytes_beBytes_of_lt hn]

/-- a word of fixed width is told apart from what follows -/
theorem beBytes_append_inj {w m n : ℕ} {r s : List UInt8} (hm : m < 256 ^ w) (hn : n < 256 ^ w)
    (h : beBytes w m ++ r = beBytes w n ++ s) : m = n ∧ r = s := by
  obtain ⟨h1, h2⟩ := List.append_inj h (by simp)
  exact ⟨beBytes_inj hm hn h1, h2⟩

/-! ## Byte strings as numbers -/

theorem ofBeBytes_cons (b : UInt8) (bs : List UInt8) : ofBeBytes (b :: bs) = b.toNat * 256 ^ bs.length + ofBeBytes bs := by
  induction bs using List.reverseRecOn with
  | nil => simp [ofBeBytes]
  | append_singleton bs c ih =>
    rw [← List.cons_append, ofBeBytes_snoc, ih, ofBeBytes_snoc, List.length_append, List.length_singleton, pow_succ]
    ring

/-- bytes of one length are told apart by their number -/
theorem ofBeBytes_inj {as bs : List UInt8} (hlen : as.length = bs.length) (h : ofBeBytes as = ofBeBytes bs) : as = bs := by
  rw [← beBytes_ofBeBytes as, h, hlen, beBytes_ofBeBytes]

/-- bit `j` of byte `i` -/
theorem ofBeBytes_testBit {bs : List UInt8} {i j : ℕ} (hi : i < bs.length) (hj : j < 8) :
    (ofBeBytes bs).testBit (8 * (bs.length - 1 - i) + j) = (bs.getD i 0).toNat.testBit j := by
  induction bs using List.reverseRecOn with
  | nil => simp at hi
  | append_singleton bs b ih =>
    have hb : b.toNat < 2 ^ 8 := b.toNat_lt
    rw [List.length_append, List.length_singleton] at hi ⊢
    rw [ofBeBytes_snoc, Nat.mul_comm (ofBeBytes bs) 256, show 256 = 2 ^ 8 by decide, Nat.testBit_two_pow_mul_add _ hb]
    by_cases hlast : i = bs.length
    · rw [if_pos (by omega), hlast]
      simp
    · have hlt : i < bs.length := by omega
      rw [if_neg (by omega), show 8 * (bs.length + 1 - 1 - i) + j - 8 = 8 * (bs.length - 1 - i) + j by omega, ih hlt]
      rw [List.getD_append _ _ _ _ hlt]

/-- the first bit at which `m < n` differ, counting from the top of `w` bits -/
theorem exists_first_bit {w m n : ℕ} (hn : n < 2 ^ w) (h : m < n) : ∃ e < w,
    (∀ i < e, m.testBit (w - 1 - i) = n.testBit (w - 1 - i)) ∧ m.testBit (w - 1 - e) = false ∧
      n.testBit (w - 1 - e) = true := by
  have hxor : m ^^^ n ≠ 0 := by
    rw [ne_eq, Nat.xor_eq_zero_iff]
    omega
  obtain ⟨top, htop, habove⟩ := Nat.exists_most_significant_bit hxor
  have hsame : ∀ j, top < j → m.testBit j = n.testBit j := by
    intro j hj
    have hj' := habove j hj
    rw [Nat.testBit_xor] at hj'
    simpa using hj'
  rw [Nat.testBit_xor] at htop
  have hbits : m.testBit top = false ∧ n.testBit top = true := by
    cases hm : m.testBit top <;> cases hn' : n.testBit top <;> simp [hm, hn'] at htop
    · exact ⟨rfl, rfl⟩
    · exact absurd (Nat.lt_of_testBit top hn' hm fun j hj => (hsame j hj).symm) (by omega)
  have hlt : top < w := by
    by_contra hcon
    have hzero := Nat.testBit_lt_two_pow (lt_of_lt_of_le hn (Nat.pow_le_pow_right (by decide) (not_lt.1 hcon)))
    rw [hbits.2] at hzero
    cases hzero
  refine ⟨w - 1 - top, by omega, fun i hi => hsame _ (by omega), ?_⟩
  rw [show w - 1 - (w - 1 - top) = top by omega]
  exact hbits

end ZenoFcis.Lib
