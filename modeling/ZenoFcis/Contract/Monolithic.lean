/-
The monolithic product of a composed domain (`monolithic` and `decimal_product` of
`zeno-fcis-contract/src/checked_composition/obligations.rs`, over the field domains of `domain.rs`).

The limbs have nine decimal digits and are multiplied on `u128` with overflow checks; an overflow ends the program, which
is `none` here. The comment of the source gives a domain at most `2 ^ 64` values, but a field may have every `i128`.

Result: `monolithic_exact`. The three decimals are the numbers of states, requests and pairs exactly when no domain is
the whole of `i128` and every partial product fits.
-/
import ZenoFcis.Contract.Joint
import ZenoFcis.Lib.DigitProduct
import ZenoFcis.Number.Decimal

namespace ZenoFcis.Contract.Monolithic

open Lib Lib.DigitProduct Number Joint

/-! ## The product -/

/-- a limb has nine decimal digits -/
def BASE : ℕ := 1000000000

/-- the products of machine words stay below `2 ^ 128` -/
def wordBound : ℕ := 2 ^ 128

/-- most significant limbs first: drop zeros, but keep one limb -/
def popZeros : List ℕ → List ℕ
  | [] => []
  | [limb] => [limb]
  | limb :: next :: limbs => if limb = 0 then popZeros (next :: limbs) else limb :: next :: limbs

/-- `{limb:09}` -/
def padded (limb : ℕ) : List UInt8 := List.replicate (9 - (decimalText limb).length) 48 ++ decimalText limb

/-- the limbs as text, most significant limb first -/
def limbText : List ℕ → List UInt8
  | [] => []
  | limb :: limbs => decimalText limb ++ limbs.flatMap padded

def decimalProduct (factors : List ℕ) : Option (List UInt8) :=
  (product BASE wordBound factors).map fun limbs => limbText (popZeros limbs.reverse)

/-! ## Compositions -/

/-- a domain of the language: intervals and sums are not empty, and the variants of a sum are declared once and can be
counted -/
def Declared : FieldDomain → Prop
  | .bool => True
  | .int min max => min.val ≤ max.val
  | .variants ids => ids ≠ [] ∧ ids.Nodup ∧ ids.length < 2 ^ 64

/-- a component as far as the product reads it -/
structure Owner where
  owns : Bool
  stateFields : List StateField
  declared : ∀ field ∈ stateFields, Declared field.domain

/-- a bound composition: a request field is Boolean or an interval with ordered ends -/
structure Composition where
  components : List Owner
  request : List RequestSlot
  requestDomains : ∀ slot ∈ request, slot.domain = .bool ∨
    ∃ min max : I128, min.val ≤ max.val ∧ slot.domain = .int min max

namespace Composition

variable (c : Composition)

/-- the domains of the state fields of the components that own their state -/
def stateDomains : List FieldDomain :=
  (c.components.filter Owner.owns).flatMap fun component => component.stateFields.map StateField.domain

def requestDomainList : List FieldDomain := c.request.map RequestSlot.domain

def states : List ℕ := c.stateDomains.map FieldDomain.size

def requests : List ℕ := c.requestDomainList.map FieldDomain.size

/-- the global product's states, requests and pairs -/
def monolithic : Option (List UInt8 × List UInt8 × List UInt8) := do
  let states ← decimalProduct c.states
  let requests ← decimalProduct c.requests
  let all ← decimalProduct (c.states ++ c.requests)
  pure (states, requests, all)

/-- every global state -/
def globalStates : List (List I128) := Axes.tuples (c.stateDomains.map FieldDomain.values)

/-- every request -/
def globalRequests : List (List I128) := Axes.tuples (c.requestDomainList.map FieldDomain.values)

/-- every pair of a global state and a request -/
def globalPairs : List (List I128 × List I128) := c.globalStates ×ˢ c.globalRequests

end Composition

/-! ## The text of a product -/

variable {limbs factors : List ℕ} {domain : FieldDomain} {domains : List FieldDomain}

theorem popZeros_spec {b : ℕ} (hne : limbs ≠ []) (hlt : ∀ d ∈ limbs, d < b) :
    Digits.Canonical b (popZeros limbs) ∧ Digits.number b (popZeros limbs) = Digits.number b limbs := by
  induction limbs with
  | nil => exact absurd rfl hne
  | cons limb limbs ih =>
    cases limbs with
    | nil => exact ⟨⟨hne, hlt, fun hlen => absurd hlen (lt_irrefl 1)⟩, rfl⟩
    | cons next limbs =>
      simp only [popZeros]
      split_ifs with hzero
      · subst hzero
        obtain ⟨hcanonical, hnumber⟩ := ih (List.cons_ne_nil _ _) fun d hd => hlt d (List.mem_cons_of_mem _ hd)
        exact ⟨hcanonical, hnumber.trans (by simp [Digits.number])⟩
      · exact ⟨⟨hne, hlt, fun _ hhead => hzero (Option.some.inj hhead)⟩, rfl⟩

theorem length_decimalText_le {limb : ℕ} (h : limb < BASE) : (decimalText limb).length ≤ 9 := by
  rw [decimalText, List.length_map]
  exact Digits.length_word_le (by decide) (by decide) h

@[simp] theorem length_padded {limb : ℕ} (h : limb < BASE) : (padded limb).length = 9 := by
  have hle := length_decimalText_le h
  rw [padded, List.length_append, List.length_replicate]
  omega

theorem digits_padded (limb : ℕ) : (padded limb).all isAsciiDigit = true := by
  rw [padded, List.all_append, (canonicalText_decimalText limb).digits, Bool.and_true, List.all_eq_true]
  intro byte hbyte
  rw [(List.mem_replicate.1 hbyte).2]
  rfl

theorem number_zeros (n : ℕ) (ds : List ℕ) : Digits.number 10 (List.replicate n 0 ++ ds) = Digits.number 10 ds := by
  induction n with
  | zero => rfl
  | succ n ih =>
    rw [List.replicate_succ, List.cons_append, ← ih]
    simp [Digits.number]

@[simp] theorem textNumber_padded (limb : ℕ) : textNumber (padded limb) = limb := by
  have hzero : digit 48 = 0 := rfl
  rw [textNumber, padded, List.map_append, List.map_replicate, hzero, number_zeros]
  exact textNumber_decimalText limb

theorem textNumber_append (text rest : List UInt8) :
    textNumber (text ++ rest) = textNumber text * 10 ^ rest.length + textNumber rest := by
  rw [textNumber, List.map_append, Digits.number, Digits.numberFrom_append, Digits.numberFrom_eq, List.length_map]
  rfl

/-- one padded limb is one digit of base `BASE` -/
theorem textNumber_flatMap_padded (text : List UInt8) (h : ∀ d ∈ limbs, d < BASE) :
    textNumber (text ++ limbs.flatMap padded) = Digits.numberFrom BASE (textNumber text) limbs := by
  induction limbs generalizing text with
  | nil => rw [List.flatMap_nil, List.append_nil, Digits.numberFrom_nil]
  | cons limb limbs ih =>
    have hlimb := h limb List.mem_cons_self
    rw [List.flatMap_cons, ← List.append_assoc, ih _ fun d hd => h d (List.mem_cons_of_mem _ hd),
      Digits.numberFrom_cons, textNumber_append, length_padded hlimb, textNumber_padded]
    rfl

theorem head_decimalText_ne {n : ℕ} (h : n ≠ 0) : (decimalText n).head? ≠ some 48 := by
  intro hhead
  have hcanonical := canonicalText_decimalText n
  by_cases hlen : 1 < (decimalText n).length
  · exact hcanonical.lead hlen hhead
  · -- a single zero
    have hone : (decimalText n).length = 1 := by
      have hpos := List.length_pos_of_ne_nil hcanonical.ne_nil
      omega
    obtain ⟨byte, htext⟩ := List.length_eq_one_iff.1 hone
    have hnumber := textNumber_decimalText n
    rw [htext, List.head?_cons, Option.some_inj] at hhead
    rw [htext, hhead] at hnumber
    exact h hnumber.symm

theorem limbText_eq (h : Digits.Canonical BASE limbs) :
    limbText limbs = decimalText (Digits.number BASE limbs) := by
  cases limbs with
  | nil => exact absurd rfl h.ne_nil
  | cons limb limbs =>
    have hfirst := canonicalText_decimalText limb
    have hnumber : textNumber (limbText (limb :: limbs)) = Digits.number BASE (limb :: limbs) := by
      rw [limbText, textNumber_flatMap_padded _ fun d hd => h.lt d (List.mem_cons_of_mem _ hd),
        textNumber_decimalText, Digits.number, Digits.numberFrom_cons, Nat.zero_mul, Nat.zero_add]
    rw [← hnumber]
    refine (CanonicalText.decimalText_eq ⟨?_, ?_, ?_⟩).symm
    · exact List.append_ne_nil_of_left_ne_nil hfirst.ne_nil _
    · rw [limbText, List.all_append, hfirst.digits, Bool.true_and, List.all_flatMap, List.all_eq_true]
      intro d _
      exact digits_padded d
    · intro hlen
      rw [limbText, List.head?_append_of_ne_nil _ hfirst.ne_nil]
      cases limbs with
      | nil =>
        rw [limbText, List.flatMap_nil, List.append_nil] at hlen
        exact hfirst.lead hlen
      | cons next limbs =>
        apply head_decimalText_ne
        intro hzero
        exact h.lead (by simp) (by rw [hzero]; rfl)

theorem decimalProduct_eq_some (h : ∀ f ∈ factors, f < wordBound) {text : List UInt8}
    (htext : decimalProduct factors = some text) : text = decimalText factors.prod := by
  obtain ⟨limbs, hlimbs, rfl⟩ := Option.map_eq_some_iff.1 htext
  have hvalue := (product_eq (b := BASE) (by decide) h).2 limbs hlimbs
  have hne : limbs.reverse ≠ [] := fun hnil => hvalue.ne_nil (List.reverse_eq_nil_iff.1 hnil)
  obtain ⟨hcanonical, hnumber⟩ := popZeros_spec hne fun d hd => hvalue.lt d (List.mem_reverse.1 hd)
  rw [limbText_eq hcanonical, hnumber, Digits.number_reverse, hvalue.value]

theorem decimalProduct_isSome (h : ∀ f ∈ factors, f < wordBound) :
    (decimalProduct factors).isSome = true ↔ Lib.DigitProduct.Fits BASE wordBound factors := by
  rw [decimalProduct, Option.isSome_map]
  exact (product_eq (by decide) h).1

theorem decimalText_inj {m n : ℕ} (h : decimalText m = decimalText n) : m = n := by
  rw [← textNumber_decimalText m, h, textNumber_decimalText]

theorem decimalProduct_eq_iff (h : ∀ f ∈ factors, f < wordBound) (n : ℕ) :
    decimalProduct factors = some (decimalText n) ↔ Lib.DigitProduct.Fits BASE wordBound factors ∧ factors.prod = n := by
  constructor
  · intro heq
    refine ⟨(decimalProduct_isSome h).1 (by rw [heq]; rfl), ?_⟩
    exact decimalText_inj (decimalProduct_eq_some h heq).symm
  · intro ⟨hfits, hprod⟩
    obtain ⟨text, htext⟩ := Option.isSome_iff_exists.1 ((decimalProduct_isSome h).2 hfits)
    rw [htext, decimalProduct_eq_some h htext, hprod]

/-! ## The sizes of the domains -/

/-- every `i128` -/
def whole : FieldDomain := .int ⟨-2 ^ 127, I128.lo_min, I128.hi_min⟩ i128Max

theorem int_whole {min max : I128} (h : Joint.u128Max ≤ (max.val - min.val).toNat) : FieldDomain.int min max = whole := by
  obtain ⟨low, hlow, hlow'⟩ := min
  obtain ⟨high, hhigh, hhigh'⟩ := max
  simp only [Joint.u128Max] at h
  simp only [whole, i128Max, FieldDomain.int.injEq, ← Finite.val_inj]
  omega

theorem length_values_whole : whole.values.length = wordBound := by
  rw [whole, FieldDomain.values, if_pos (by decide), Finite.Domain.length_values (by decide)]
  decide

theorem listed_int {min max : I128} (h : min.val ≤ max.val) : Listed (.int min max) := Or.inr ⟨min, max, h, rfl⟩

/-- a size is the number of values, except that the whole of `i128` has one value more than the largest size -/
theorem size_spec (h : Declared domain) :
    domain.size < wordBound ∧ domain.size ≤ domain.values.length ∧
      (domain.size = domain.values.length ↔ domain ≠ whole) := by
  cases domain with
  | bool => exact ⟨by decide, by decide, iff_of_true (by decide) (by decide)⟩
  | variants ids =>
    have hbound : 2 ^ 64 < wordBound := by decide
    exact ⟨h.2.2.trans hbound, le_rfl, iff_of_true rfl nofun⟩
  | int min max =>
    have hle : min.val ≤ max.val := h
    have hsize := (listed_int hle).size_eq
    have hlength : (FieldDomain.int min max).values.length = (max.val - min.val).toNat + 1 := by
      rw [FieldDomain.values, if_pos hle, Finite.Domain.length_values (d := .int min max) (decide_eq_true hle)]
      rfl
    have hcap : Joint.u128Max < wordBound := by decide
    refine ⟨?_, ?_, ?_⟩
    · omega
    · omega
    · constructor
      · intro heq hwhole
        have hcount := congrArg (fun domain => domain.values.length) hwhole
        simp only [length_values_whole] at hcount
        omega
      · intro hne
        have hlt : (max.val - min.val).toNat < Joint.u128Max := by
          by_contra hge
          exact hne (int_whole (not_lt.1 hge))
        omega

theorem values_ne_nil (h : Declared domain) : domain.values ≠ [] := by
  cases domain with
  | bool => exact List.cons_ne_nil _ _
  | variants ids => exact h.1
  | int min max => exact (listed_int h).values_ne_nil

section

variable (h : ∀ domain ∈ domains, Declared domain)

include h

theorem sizes_lt : ∀ f ∈ domains.map FieldDomain.size, f < wordBound := by
  intro f hf
  obtain ⟨domain, hdomain, rfl⟩ := List.mem_map.1 hf
  exact (size_spec (h domain hdomain)).1

theorem sizes_pos :
    0 < (domains.map fun domain => domain.values.length).prod := by
  apply List.prod_pos
  intro n hn
  obtain ⟨domain, hdomain, rfl⟩ := List.mem_map.1 hn
  exact List.length_pos_of_ne_nil (values_ne_nil (h domain hdomain))

theorem sizes_le :
    (domains.map FieldDomain.size).prod ≤ (domains.map fun domain => domain.values.length).prod := by
  induction domains with
  | nil => exact le_rfl
  | cons domain domains ih =>
    simp only [List.map_cons, List.prod_cons]
    exact Nat.mul_le_mul (size_spec (h domain List.mem_cons_self)).2.1 (ih fun d hd => h d (List.mem_cons_of_mem _ hd))

/-- the product of the sizes is the number of tuples exactly when no domain is the whole of `i128` -/
theorem sizes_eq :
    (domains.map FieldDomain.size).prod = (domains.map fun domain => domain.values.length).prod ↔ whole ∉ domains := by
  induction domains with
  | nil => exact iff_of_true rfl List.not_mem_nil
  | cons domain domains ih =>
    have hfirst := size_spec (h domain List.mem_cons_self)
    have hrest : ∀ d ∈ domains, Declared d := fun d hd => h d (List.mem_cons_of_mem _ hd)
    have hle := sizes_le hrest
    have hpos := sizes_pos hrest
    have hdomain := List.length_pos_of_ne_nil (values_ne_nil (h domain List.mem_cons_self))
    simp only [List.map_cons, List.prod_cons, List.mem_cons, not_or]
    rw [← ih hrest, eq_comm (a := whole), ← ne_eq, ← hfirst.2.2]
    constructor
    · intro heq
      have hsize : domain.size = domain.values.length := by
        by_contra hne
        have hlt : domain.size < domain.values.length := lt_of_le_of_ne hfirst.2.1 hne
        have hmul := Nat.mul_lt_mul_of_lt_of_le hlt hle hpos
        omega
      rw [hsize] at heq
      exact ⟨hsize, Nat.eq_of_mul_eq_mul_left hdomain heq⟩
    · intro ⟨hsize, hprod⟩
      rw [hsize, hprod]

end

namespace Composition

variable (c : Composition)

theorem declared_state {domain : FieldDomain} (h : domain ∈ c.stateDomains) : Declared domain := by
  obtain ⟨component, -, hdomain⟩ := List.mem_flatMap.1 h
  obtain ⟨field, hfield, rfl⟩ := List.mem_map.1 hdomain
  exact component.declared field hfield

theorem declared_request {domain : FieldDomain} (h : domain ∈ c.requestDomainList) : Declared domain := by
  obtain ⟨slot, hslot, rfl⟩ := List.mem_map.1 h
  rcases c.requestDomains slot hslot with hbool | ⟨min, max, hle, hint⟩
  · rw [hbool]
    trivial
  · rw [hint]
    exact hle

theorem length_tuples_domains (domains : List FieldDomain) :
    (Axes.tuples (domains.map FieldDomain.values)).length = (domains.map fun domain => domain.values.length).prod := by
  rw [Axes.length_tuples, Axes.size_eq_prod, List.map_map]
  rfl

/-- a global product is exact -/
def Exact : Prop :=
  c.monolithic = some (decimalText c.globalStates.length, decimalText c.globalRequests.length,
    decimalText c.globalPairs.length)

theorem exact_iff_parts : c.Exact ↔ decimalProduct c.states = some (decimalText c.globalStates.length) ∧
    decimalProduct c.requests = some (decimalText c.globalRequests.length) ∧
    decimalProduct (c.states ++ c.requests) = some (decimalText c.globalPairs.length) := by
  rw [Exact, monolithic]
  cases decimalProduct c.states with
  | none => simp
  | some states =>
    cases decimalProduct c.requests with
    | none => simp
    | some requests => cases decimalProduct (c.states ++ c.requests) <;> simp

/-- no field is the whole of `i128`, and the partial products of the requests and of the pairs fit -/
structure Small : Prop where
  states : whole ∉ c.stateDomains
  requests : whole ∉ c.requestDomainList
  fits : Lib.DigitProduct.Fits BASE wordBound c.requests
  fitsAll : Lib.DigitProduct.Fits BASE wordBound (c.states ++ c.requests)

end Composition

/-- **The monolithic product.** A product of any factors ends the program exactly when a partial product does not fit,
and is right otherwise; the three decimals are exact exactly when no field is the whole of `i128` and every partial
product fits. -/
theorem monolithic_exact (factors : List (BitVec 128)) (n : ℕ) (c : Composition) :
    (decimalProduct (factors.map BitVec.toNat) = some (decimalText n) ↔
      Lib.DigitProduct.Fits BASE wordBound (factors.map BitVec.toNat) ∧ (factors.map BitVec.toNat).prod = n) ∧
    (c.Exact ↔ c.Small) := by
  refine ⟨decimalProduct_eq_iff ?_ n, ?_⟩
  · intro f hf
    obtain ⟨word, -, rfl⟩ := List.mem_map.1 hf
    exact word.isLt
  have hstates : ∀ f ∈ c.states, f < wordBound := sizes_lt fun _ => c.declared_state
  have hrequests : ∀ f ∈ c.requests, f < wordBound := sizes_lt fun _ => c.declared_request
  have hall : ∀ f ∈ c.states ++ c.requests, f < wordBound := by
    intro f hf
    rcases List.mem_append.1 hf with hf | hf
    · exact hstates f hf
    · exact hrequests f hf
  have hpairs : c.globalPairs.length = c.globalStates.length * c.globalRequests.length := List.length_product _ _
  rw [c.exact_iff_parts, decimalProduct_eq_iff hstates, decimalProduct_eq_iff hrequests, decimalProduct_eq_iff hall,
    hpairs,
    Composition.globalStates, Composition.globalRequests, Composition.length_tuples_domains,
    Composition.length_tuples_domains, Composition.states, Composition.requests, sizes_eq fun _ => c.declared_state,
    sizes_eq fun _ => c.declared_request]
  constructor
  · intro ⟨⟨_, hs⟩, ⟨hfits, hr⟩, hfitsAll, _⟩
    exact ⟨hs, hr, hfits, hfitsAll⟩
  · intro h
    refine ⟨⟨fits_append h.fitsAll, h.states⟩, ⟨h.fits, h.requests⟩, h.fitsAll, ?_⟩
    rw [List.prod_append, (sizes_eq fun _ => c.declared_state).2 h.states,
      (sizes_eq fun _ => c.declared_request).2 h.requests]

/-- one request field that has every `i128` -/
def wholeRequest : Composition :=
  ⟨[], [⟨"amount", whole⟩], by
    intro slot hslot
    rw [List.mem_singleton.1 hslot]
    exact Or.inr ⟨_, _, by decide, rfl⟩⟩

theorem fits_singleton {factor : ℕ} (h : factor < wordBound) : Lib.DigitProduct.Fits BASE wordBound [factor] := by
  intro k hk i
  obtain rfl : k = 0 := by simpa using hk
  have hle : 1 % BASE ^ (i + 1) * factor ≤ factor :=
    (Nat.mul_le_mul_right factor (Nat.mod_le 1 _)).trans_eq (Nat.one_mul _)
  exact ((Nat.div_le_self _ _).trans hle).trans_lt h

/-- one field with every `i128` is counted one short, and two fields of half its width end the program -/
theorem whole_request_one_short :
    wholeRequest.globalRequests.length = 2 ^ 128 ∧
      wholeRequest.monolithic = some (decimalText 1, decimalText (2 ^ 128 - 1), decimalText (2 ^ 128 - 1)) ∧
      ¬ wholeRequest.Exact ∧ decimalProduct [2 ^ 127, 2 ^ 127] = none := by
  have hcap : 2 ^ 128 - 1 < wordBound := by decide
  have hone : decimalProduct [2 ^ 128 - 1] = some (decimalText (2 ^ 128 - 1)) := by
    rw [decimalProduct_eq_iff (by simpa using hcap)]
    exact ⟨fits_singleton hcap, List.prod_singleton⟩
  have hnone : decimalProduct [] = some (decimalText 1) := by
    rw [decimalProduct_eq_iff (by simp)]
    exact ⟨nofun, rfl⟩
  have hlength : wholeRequest.globalRequests.length = 2 ^ 128 := by
    rw [Composition.globalRequests, Composition.length_tuples_domains]
    exact (List.prod_singleton).trans length_values_whole
  have hreported : wholeRequest.monolithic =
      some (decimalText 1, decimalText (2 ^ 128 - 1), decimalText (2 ^ 128 - 1)) := by
    change (do
      let states ← decimalProduct []
      let requests ← decimalProduct [2 ^ 128 - 1]
      let all ← decimalProduct [2 ^ 128 - 1]
      pure (states, requests, all)) = _
    rw [hnone, hone]
    rfl
  refine ⟨hlength, hreported, ?_, ?_⟩
  · intro hexact
    rw [Composition.Exact, hreported, hlength] at hexact
    have hcount := decimalText_inj (congrArg (fun out => out.2.1) (Option.some.inj hexact))
    omega
  · rw [← Option.not_isSome_iff_eq_none, decimalProduct_isSome (by decide)]
    intro hfits
    have hroom := hfits 1 (by decide) 0
    exact absurd hroom (by decide)

end ZenoFcis.Contract.Monolithic
