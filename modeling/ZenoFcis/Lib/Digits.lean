/-
Numbers written in digits, most significant digit first. A number has one canonical word: zero is the single digit 0,
every other number starts with a digit that is not 0.
-/
import Mathlib.Tactic

namespace ZenoFcis.Lib.Digits

variable {b : ℕ}

/-- the number of a word read from a running value -/
def numberFrom (b : ℕ) (n : ℕ) (ds : List ℕ) : ℕ := ds.foldl (fun n d => n * b + d) n

def number (b : ℕ) (ds : List ℕ) : ℕ := numberFrom b 0 ds

/-- no digit too large, no digit missing, no leading zero -/
structure Canonical (b : ℕ) (ds : List ℕ) : Prop where
  ne_nil : ds ≠ []
  lt : ∀ d ∈ ds, d < b
  lead : 1 < ds.length → ds.head? ≠ some 0

/-- the canonical word of a number -/
def word (b : ℕ) (n : ℕ) : List ℕ := if n = 0 then [0] else (Nat.digits b n).reverse

@[simp] theorem numberFrom_nil (n : ℕ) : numberFrom b n [] = n := rfl

@[simp] theorem numberFrom_cons (n d : ℕ) (ds : List ℕ) : numberFrom b n (d :: ds) = numberFrom b (n * b + d) ds := rfl

theorem numberFrom_append (n : ℕ) (ds es : List ℕ) :
    numberFrom b n (ds ++ es) = numberFrom b (numberFrom b n ds) es := List.foldl_append

theorem numberFrom_eq (n : ℕ) (ds : List ℕ) : numberFrom b n ds = n * b ^ ds.length + number b ds := by
  induction ds generalizing n with
  | nil => simp [number]
  | cons d ds ih =>
    rw [number, numberFrom_cons, numberFrom_cons, ih (n * b + d), ih (0 * b + d), List.length_cons, pow_succ']
    ring

theorem le_numberFrom (hb : 0 < b) (n : ℕ) (ds : List ℕ) : n ≤ numberFrom b n ds := by
  induction ds generalizing n with
  | nil => exact le_rfl
  | cons d ds ih => exact le_trans (Nat.le_add_right_of_le (Nat.le_mul_of_pos_right n hb)) (ih (n * b + d))

/-- digits from the lowest up are the other way round -/
theorem number_reverse (ds : List ℕ) : number b ds.reverse = Nat.ofDigits b ds := by
  induction ds with
  | nil => rfl
  | cons d ds ih =>
    rw [number, List.reverse_cons, numberFrom_append, ← number, ih, numberFrom_cons, numberFrom_nil, Nat.ofDigits_cons]
    ring

/-- a number is read back from its digits -/
theorem number_word (n : ℕ) : number b (word b n) = n := by
  unfold word
  split_ifs with h
  · rw [h]
    simp [number]
  · rw [number_reverse, Nat.ofDigits_digits]

/-- the digits of a number have no leading zero -/
theorem canonical_word (hb : 1 < b) (n : ℕ) : Canonical b (word b n) := by
  unfold word
  split_ifs with h
  · exact ⟨List.cons_ne_nil _ _, fun d hd => by rw [List.mem_singleton.1 hd]; omega, fun hlen => absurd hlen (by simp)⟩
  · have hne : Nat.digits b n ≠ [] := Nat.digits_ne_nil_iff_ne_zero.2 h
    refine ⟨fun hnil => hne (List.reverse_eq_nil_iff.1 hnil), fun d hd => ?_, fun _ hzero => ?_⟩
    · exact Nat.digits_lt_base hb (List.mem_reverse.1 hd)
    · rw [List.head?_reverse, List.getLast?_eq_getLast_of_ne_nil hne, Option.some_inj] at hzero
      exact Nat.getLast_digit_ne_zero b h hzero

/-- **One word a number.** A canonical word is the word of its number. -/
theorem word_number (hb : 1 < b) {ds : List ℕ} (h : Canonical b ds) : word b (number b ds) = ds := by
  have hnumber : number b ds = Nat.ofDigits b ds.reverse := by
    rw [← number_reverse, List.reverse_reverse]
  have hlt : ∀ d ∈ ds.reverse, d < b := fun d hd => h.lt d (List.mem_reverse.1 hd)
  by_cases hlead : ds.head? = some 0
  · -- only the word of zero starts with a zero
    have hlen : ds.length = 1 := by
      have hpos := List.length_pos_of_ne_nil h.ne_nil
      by_contra hne
      exact h.lead (by omega) hlead
    obtain ⟨d, rfl⟩ := List.length_eq_one_iff.1 hlen
    obtain rfl : d = 0 := by simpa using hlead
    simp [word, number]
  · have hdigits : Nat.digits b (number b ds) = ds.reverse := by
      rw [hnumber]
      refine Nat.digits_ofDigits b hb _ hlt fun hne hlast => hlead ?_
      have hhead := List.head?_reverse (l := ds.reverse)
      rw [List.reverse_reverse, List.getLast?_eq_getLast_of_ne_nil hne, hlast] at hhead
      exact hhead
    have hne : number b ds ≠ 0 := fun hzero => by
      rw [hzero, Nat.digits_zero] at hdigits
      exact h.ne_nil (List.reverse_eq_nil_iff.1 hdigits.symm)
    rw [word, if_neg hne, hdigits, List.reverse_reverse]

/-- a number below a power has no more digits than the power -/
theorem length_word_le (hb : 1 < b) {n k : ℕ} (hk : 0 < k) (h : n < b ^ k) : (word b n).length ≤ k := by
  unfold word
  split_ifs
  · exact hk
  · rw [List.length_reverse]
    exact (Nat.digits_length_le_iff hb n).2 h

end ZenoFcis.Lib.Digits
