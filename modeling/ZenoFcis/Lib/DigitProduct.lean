/-
Products in digits. A number is held in little-endian digits and multiplied by one machine word after another, digit by
digit with a carry, where every partial product must stay below the bound of a machine word.

Results: `product_eq`. The product is refused exactly when one partial product is too large (`Fits`), and otherwise its
digits are those of the product.
-/
import Mathlib.Tactic

namespace ZenoFcis.Lib.DigitProduct

open Nat

variable {b bound : ℕ}

/-- one factor over the digits from a carry; a partial product that reaches the bound is refused -/
def multiply (b bound factor : ℕ) : List ℕ → ℕ → Option (List ℕ × ℕ)
  | [], carry => some ([], carry)
  | d :: ds, carry =>
    let value := d * factor + carry
    if value < bound then (multiply b bound factor ds (value / b)).map fun out => (value % b :: out.1, out.2)
    else none

/-- the digits of the carry follow the digits of the multiple -/
def times (b bound : ℕ) (ds : List ℕ) (factor : ℕ) : Option (List ℕ) :=
  (multiply b bound factor ds 0).map fun out => out.1 ++ digits b out.2

def product (b bound : ℕ) (factors : List ℕ) : Option (List ℕ) := factors.foldlM (times b bound) [1]

/-! ## One factor -/

theorem ofDigits_take_cons (d : ℕ) (ds : List ℕ) (i : ℕ) :
    ofDigits b ((d :: ds).take (i + 1)) = d + b * ofDigits b (ds.take i) := by
  rw [List.take_succ_cons, ofDigits_cons]

theorem partial_cons (hb : 0 < b) (d factor carry i n : ℕ) :
    ((d + b * n) * factor + carry) / b ^ (i + 1) = (n * factor + (d * factor + carry) / b) / b ^ i := by
  have hsplit : (d + b * n) * factor + carry = d * factor + carry + b * (n * factor) := by ring
  rw [hsplit, pow_succ', ← Nat.div_div_eq_div_mul, Nat.add_mul_div_left _ _ hb, Nat.add_comm]

theorem multiply_isSome (hb : 0 < b) (factor : ℕ) (ds : List ℕ) (carry : ℕ) :
    (multiply b bound factor ds carry).isSome = true ↔
      ∀ i < ds.length, (ofDigits b (ds.take (i + 1)) * factor + carry) / b ^ i < bound := by
  induction ds generalizing carry with
  | nil => simp [multiply]
  | cons d ds ih =>
    have hfirst : (ofDigits b ((d :: ds).take (0 + 1)) * factor + carry) / b ^ 0 = d * factor + carry := by
      simp
    simp only [multiply]
    split_ifs with hlt
    · rw [Option.isSome_map, ih]
      constructor
      · intro h i hi
        cases i with
        | zero => rw [hfirst]; exact hlt
        | succ i =>
          rw [ofDigits_take_cons, partial_cons hb]
          exact h i (Nat.lt_of_succ_lt_succ hi)
      · intro h i hi
        have hnext := h (i + 1) (Nat.succ_lt_succ hi)
        rw [ofDigits_take_cons, partial_cons hb] at hnext
        exact hnext
    · refine iff_of_false (by simp) fun h => hlt ?_
      have hzero := h 0 (Nat.succ_pos _)
      rwa [hfirst] at hzero

variable {factor n : ℕ} {ds es factors : List ℕ}

theorem multiply_eq_some (hb : 0 < b) {carry rest : ℕ}
    (h : multiply b bound factor ds carry = some (es, rest)) :
    (∀ e ∈ es, e < b) ∧ es.length = ds.length ∧
      ofDigits b es + b ^ es.length * rest = ofDigits b ds * factor + carry := by
  induction ds generalizing carry es with
  | nil =>
    simp only [multiply, Option.some.injEq, Prod.mk.injEq] at h
    obtain ⟨rfl, rfl⟩ := h
    simp
  | cons d ds ih =>
    simp only [multiply] at h
    split_ifs at h with hlt
    obtain ⟨⟨fs, last⟩, hmul, heq⟩ := Option.map_eq_some_iff.1 h
    simp only [Prod.mk.injEq] at heq
    obtain ⟨rfl, rfl⟩ := heq
    obtain ⟨hdigits, hlength, hvalue⟩ := ih hmul
    refine ⟨?_, by rw [List.length_cons, List.length_cons, hlength], ?_⟩
    · intro e he
      rcases List.mem_cons.1 he with rfl | he
      · exact Nat.mod_lt _ hb
      · exact hdigits e he
    · have hsplit := Nat.mod_add_div (d * factor + carry) b
      calc ofDigits b ((d * factor + carry) % b :: fs) + b ^ ((d * factor + carry) % b :: fs).length * last
          = (d * factor + carry) % b + b * (ofDigits b fs + b ^ fs.length * last) := by
            rw [ofDigits_cons, List.length_cons, pow_succ']
            ring
        _ = (d * factor + carry) % b + b * (ofDigits b ds * factor + (d * factor + carry) / b) := by rw [hvalue]
        _ = ofDigits b (d :: ds) * factor + carry := by
            rw [ofDigits_cons, Nat.mul_add, ← Nat.add_assoc, Nat.add_right_comm, hsplit]
            ring

/-! ## All factors -/

/-- there are digits, they are below the base and they have a value -/
structure Holds (b : ℕ) (ds : List ℕ) (n : ℕ) : Prop where
  ne_nil : ds ≠ []
  lt : ∀ d ∈ ds, d < b
  value : ofDigits b ds = n

/-- the partial products of one factor, from the value alone -/
def Room (b bound n factor : ℕ) : Prop := ∀ i, n % b ^ (i + 1) * factor / b ^ i < bound

/-- every partial product of every factor with the product before it is below the bound -/
def Fits (b bound : ℕ) (factors : List ℕ) : Prop :=
  ∀ k (h : k < factors.length), Room b bound (factors.take k).prod factors[k]

theorem Holds.lt_pow (hb : 1 < b) (h : Holds b ds n) : n < b ^ ds.length :=
  h.value ▸ ofDigits_lt_base_pow_length hb h.lt

theorem Holds.take (hb : 1 < b) (h : Holds b ds n) (i : ℕ) :
    ofDigits b (ds.take i) = n % b ^ i := by
  have hlt : ∀ d ∈ ds.take i, d < b := fun d hd => h.lt d (List.mem_of_mem_take hd)
  have hsplit : ofDigits b (ds.take i) + b ^ (ds.take i).length * ofDigits b (ds.drop i) = n := by
    rw [← ofDigits_append, List.take_append_drop, h.value]
  rcases Nat.lt_or_ge i ds.length with hi | hi
  · have hlen : (ds.take i).length = i := by simp [hi.le]
    have hbound : ofDigits b (ds.take i) < b ^ i := by
      have hpow := ofDigits_lt_base_pow_length hb hlt
      rwa [hlen] at hpow
    rw [hlen] at hsplit
    rw [← hsplit, Nat.add_mul_mod_self_left, Nat.mod_eq_of_lt hbound]
  · have hle : n < b ^ i := (h.lt_pow hb).trans_le (Nat.pow_le_pow_right (by omega) hi)
    rw [List.take_of_length_le hi, h.value, Nat.mod_eq_of_lt hle]

theorem Holds.room_iff (hb : 1 < b) (h : Holds b ds n) (hfactor : factor < bound) :
    Room b bound n factor ↔ ∀ i < ds.length, (ofDigits b (ds.take (i + 1)) * factor + 0) / b ^ i < bound := by
  simp only [h.take hb, Nat.add_zero]
  constructor
  · intro hroom i _
    exact hroom i
  · intro hroom i
    rcases Nat.lt_or_ge i ds.length with hi | hi
    · exact hroom i hi
    · have hn : n < b ^ i := (h.lt_pow hb).trans_le (Nat.pow_le_pow_right (by omega) hi)
      have hle : n % b ^ (i + 1) * factor / b ^ i ≤ factor := by
        apply Nat.div_le_of_le_mul
        exact Nat.mul_le_mul_right factor ((Nat.mod_le _ _).trans hn.le)
      exact hle.trans_lt hfactor

theorem times_isSome (hb : 1 < b) (h : Holds b ds n) (hfactor : factor < bound) :
    (times b bound ds factor).isSome = true ↔ Room b bound n factor := by
  rw [times, Option.isSome_map, multiply_isSome (by omega), h.room_iff hb hfactor]

theorem times_holds (hb : 1 < b) (h : Holds b ds n)
    (htimes : times b bound ds factor = some es) : Holds b es (n * factor) := by
  obtain ⟨⟨low, rest⟩, hmul, rfl⟩ := Option.map_eq_some_iff.1 htimes
  obtain ⟨hlt, hlength, hvalue⟩ := multiply_eq_some (by omega) hmul
  refine ⟨?_, ?_, ?_⟩
  · have hpos := List.length_pos_of_ne_nil h.ne_nil
    exact List.append_ne_nil_of_left_ne_nil (List.ne_nil_of_length_pos (hlength ▸ hpos)) _
  · intro d hd
    rcases List.mem_append.1 hd with hd | hd
    · exact hlt d hd
    · exact digits_lt_base hb hd
  · rw [ofDigits_append, ofDigits_digits, hvalue, h.value, Nat.add_zero]

theorem fits_cons :
    (∀ k (h : k < (factor :: factors).length),
        Room b bound (n * ((factor :: factors).take k).prod) (factor :: factors)[k]) ↔
      Room b bound n factor ∧ ∀ k (h : k < factors.length),
        Room b bound (n * factor * (factors.take k).prod) factors[k] := by
  constructor
  · intro h
    refine ⟨?_, ?_⟩
    · simpa using h 0 (Nat.succ_pos _)
    · intro k hk
      simpa [Nat.mul_assoc] using h (k + 1) (Nat.succ_lt_succ hk)
  · intro h k hk
    cases k with
    | zero => simpa using h.1
    | succ k => simpa [Nat.mul_assoc] using h.2 k (Nat.lt_of_succ_lt_succ hk)

theorem product_from (hb : 1 < b) (h : Holds b ds n)
    (hfactors : ∀ f ∈ factors, f < bound) :
    ((factors.foldlM (times b bound) ds).isSome = true ↔
      ∀ k (h : k < factors.length), Room b bound (n * (factors.take k).prod) factors[k]) ∧
    ∀ es, factors.foldlM (times b bound) ds = some es → Holds b es (n * factors.prod) := by
  induction factors generalizing ds n with
  | nil => exact ⟨iff_of_true rfl (by simp), fun es hes => by simpa [← Option.some.inj hes] using h⟩
  | cons f factors ih =>
    have hf := hfactors f List.mem_cons_self
    have hrest : ∀ g ∈ factors, g < bound := fun g hg => hfactors g (List.mem_cons_of_mem _ hg)
    have hroom := times_isSome hb h hf
    rw [fits_cons, List.foldlM_cons]
    cases htimes : times b bound ds f with
    | none =>
      rw [htimes] at hroom
      exact ⟨iff_of_false (by simp) fun hall => by simpa using hroom.2 hall.1, nofun⟩
    | some fs =>
      rw [htimes] at hroom
      obtain ⟨hfits, hholds⟩ := ih (times_holds hb h htimes) hrest
      refine ⟨?_, ?_⟩
      · exact hfits.trans (Iff.intro (fun hall => ⟨hroom.1 rfl, hall⟩) And.right)
      · intro es hes
        rw [List.prod_cons, ← Nat.mul_assoc]
        exact hholds es hes

/-- **Products.** The product is refused exactly when one partial product is too large, and otherwise its digits are
those of the product of the factors. -/
theorem product_eq (hb : 1 < b) (hfactors : ∀ f ∈ factors, f < bound) :
    ((product b bound factors).isSome = true ↔ Fits b bound factors) ∧
      ∀ ds, product b bound factors = some ds → Holds b ds factors.prod := by
  have hone : Holds b [1] 1 := ⟨List.cons_ne_nil _ _, by simpa using hb, by simp⟩
  have h := product_from hb hone hfactors
  simp only [Nat.one_mul] at h
  exact h

/-- the first factors fit when all do -/
theorem fits_append {left right : List ℕ} (h : Fits b bound (left ++ right)) : Fits b bound left := by
  intro k hk
  have hroom := h k (by rw [List.length_append]; omega)
  rwa [List.take_append_of_le_length hk.le, List.getElem_append_left hk] at hroom

end ZenoFcis.Lib.DigitProduct
