/-
Canonical decimal text of 256-bit integers (`profile2/mod.rs`). A text is its bytes. Formatting divides by ten into a
buffer of 78 bytes; parsing refuses what is not canonical, then multiplies and adds with overflow refused.
- `unsignedDecimal_eq`: the text of a number is its canonical word in ASCII digits;
- `parseUnsignedDecimal_eq`: a text is parsed exactly when it is a canonical word of a number that fits.
-/
import ZenoFcis.Lib.Digits
import ZenoFcis.Number.Signed256

namespace ZenoFcis.Number

open Lib Lib.Except Lib.Digits

/-- a refusal at the integer atom or decimal boundary -/
inductive BoundaryError where
  | unsupportedProfile
  | length (expected actual : ℕ)
  | unknownTag (tag : UInt8)
  | decimalSyntax
  | outOfRange
  | arithmetic (failure : Failure)
deriving DecidableEq

def rangeFailure : Failure → BoundaryError
  | .overflow => .outOfRange
  | other => .arithmetic other

namespace U256

def fromU128 (x : BitVec 128) : U256 := ⟨[x, 0], rfl⟩

def tryU128 (x : U256) : Except Failure (BitVec 128) :=
  if x.words.getD 1 0 = 0 then .ok (x.words.getD 0 0) else .error .overflow

def checkedMul (a b : U256) : Except Failure U256 := do
  let product ← fullProduct a b
  narrow (n := 2) product

end U256

/-- `u8::is_ascii_digit` -/
def isAsciiDigit (byte : UInt8) : Bool := decide (48 ≤ byte.toNat ∧ byte.toNat ≤ 57)

/-- one digit of `parse_unsigned_decimal` -/
def parseDigit (value : U256) (digit : UInt8) : Except BoundaryError U256 := do
  let value ← (value.checkedMul (U256.fromU128 10)).mapError rangeFailure
  (U256.checkedAdd value (U256.fromU128 (BitVec.ofNat 128 (digit - 48).toNat))).mapError rangeFailure

def parseUnsignedDecimal (text : List UInt8) : Except BoundaryError U256 := do
  ensure (¬(text = [] ∨ 78 < text.length ∨ (1 < text.length ∧ text.head? = some 48) ∨ text.all isAsciiDigit = false))
    .decimalSyntax
  text.foldlM parseDigit U256.zero

/-- `text.strip_prefix('-')` -/
def stripMinus : List UInt8 → Bool × List UInt8
  | 45 :: rest => (true, rest)
  | text => (false, text)

def parseSignedDecimal (text : List UInt8) : Except BoundaryError I256 := do
  ensure (¬78 < text.length) .decimalSyntax
  let stripped := stripMinus text
  ensure (¬(stripped.1 = true ∧ stripped.2 = [48])) .decimalSyntax
  let magnitude ← parseUnsignedDecimal stripped.2
  (I256.fromMagnitude magnitude stripped.1).mapError rangeFailure

/-- the digits of a value, least significant first, into the room that the buffer has left -/
def decimalLoop : ℕ → U256 → List UInt8 → Except BoundaryError (List UInt8)
  | room, value, reversed =>
    if value = U256.zero then .ok reversed
    else
      match room with
      | 0 => .error (.arithmetic .invariant)
      | room + 1 => do
        let out ← (U256.divRem value (U256.fromU128 10)).mapError .arithmetic
        let remainder ← (U256.tryU128 out.2).mapError .arithmetic
        ensure (remainder.toNat < 256) (.arithmetic .invariant)
        ensure (¬9 < remainder.toNat) (.arithmetic .invariant)
        decimalLoop room out.1 (reversed ++ [48 + UInt8.ofNat remainder.toNat])

def unsignedDecimal (value : U256) : Except BoundaryError (List UInt8) :=
  if value = U256.zero then .ok [48]
  else do
    let reversed ← decimalLoop 78 value []
    return reversed.reverse

def signedDecimal (value : I256) : Except BoundaryError (List UInt8) := do
  let magnitude ← unsignedDecimal value.magnitude
  if ¬value.isNegative = true then return magnitude
  return 45 :: magnitude

/-! ## Digits and bytes -/

def ascii (d : ℕ) : UInt8 := 48 + UInt8.ofNat d

/-- the digit that a byte stands for -/
def digit (byte : UInt8) : ℕ := byte.toNat - 48

variable {d n : ℕ} {byte : UInt8} {text : List UInt8}

theorem toNat_ascii (h : d < 10) : (ascii d).toNat = 48 + d := by
  rw [ascii, UInt8.toNat_add, UInt8.toNat_ofNat']
  have h48 : (48 : UInt8).toNat = 48 := rfl
  omega

theorem isAsciiDigit_ascii (h : d < 10) : isAsciiDigit (ascii d) = true := by
  rw [isAsciiDigit, toNat_ascii h, decide_eq_true_eq]
  omega

theorem digit_ascii (h : d < 10) : digit (ascii d) = d := by
  rw [digit, toNat_ascii h]
  omega

theorem digit_lt (h : isAsciiDigit byte = true) : digit byte < 10 := by
  rw [isAsciiDigit, decide_eq_true_eq] at h
  rw [digit]
  omega

theorem ascii_digit (h : isAsciiDigit byte = true) : ascii (digit byte) = byte := by
  refine UInt8.toNat_inj.1 ?_
  rw [toNat_ascii (digit_lt h)]
  rw [isAsciiDigit, decide_eq_true_eq] at h
  rw [digit]
  omega

theorem digit_sub (h : isAsciiDigit byte = true) : (byte - 48).toNat = digit byte := by
  rw [isAsciiDigit, decide_eq_true_eq] at h
  have hle : (48 : UInt8) ≤ byte := UInt8.le_iff_toNat_le.2 h.1
  rw [UInt8.toNat_sub_of_le _ _ hle]
  rfl

/-- the number that a text of digits stands for -/
def textNumber (text : List UInt8) : ℕ := number 10 (text.map digit)

/-- the canonical text of a number -/
def decimalText (n : ℕ) : List UInt8 := (word 10 n).map ascii

/-- a canonical text: digits only, none missing, no leading zero -/
structure CanonicalText (text : List UInt8) : Prop where
  ne_nil : text ≠ []
  digits : text.all isAsciiDigit = true
  lead : 1 < text.length → text.head? ≠ some 48

instance (text : List UInt8) : Decidable (CanonicalText text) :=
  decidable_of_iff (text ≠ [] ∧ text.all isAsciiDigit = true ∧ (1 < text.length → text.head? ≠ some 48))
    ⟨fun h => ⟨h.1, h.2.1, h.2.2⟩, fun h => ⟨h.1, h.2, h.3⟩⟩

theorem map_ascii_digit (h : text.all isAsciiDigit = true) : (text.map digit).map ascii = text := by
  rw [List.map_map]
  calc text.map (ascii ∘ digit)
      = text.map id := List.map_congr_left fun byte hbyte => ascii_digit (List.all_eq_true.1 h byte hbyte)
    _ = text := List.map_id text

theorem map_digit_ascii {ds : List ℕ} (h : ∀ d ∈ ds, d < 10) : (ds.map ascii).map digit = ds := by
  rw [List.map_map]
  calc ds.map (digit ∘ ascii)
      = ds.map id := List.map_congr_left fun d hd => digit_ascii (h d hd)
    _ = ds := List.map_id ds

theorem digit_eq_zero (h : isAsciiDigit byte = true) : digit byte = 0 ↔ byte = 48 := by
  constructor
  · intro hzero
    rw [← ascii_digit h, hzero]
    rfl
  · rintro rfl
    rfl

theorem CanonicalText.word (h : CanonicalText text) : Canonical 10 (text.map digit) := by
  refine ⟨fun hnil => h.ne_nil (List.map_eq_nil_iff.1 hnil), fun d hd => ?_, fun hlen hzero => ?_⟩
  · obtain ⟨byte, hbyte, rfl⟩ := List.mem_map.1 hd
    exact digit_lt (List.all_eq_true.1 h.digits byte hbyte)
  · rw [List.length_map] at hlen
    rw [List.head?_map, Option.map_eq_some_iff] at hzero
    obtain ⟨byte, hbyte, hzero⟩ := hzero
    have hdigit := List.all_eq_true.1 h.digits byte (List.mem_of_head? hbyte)
    exact h.lead hlen (hbyte.trans (congrArg some ((digit_eq_zero hdigit).1 hzero)))

/-- a number is read back from its text -/
theorem textNumber_decimalText (n : ℕ) : textNumber (decimalText n) = n := by
  rw [textNumber, decimalText, map_digit_ascii (canonical_word (by decide) n).lt, number_word]

/-- **One text a number.** -/
theorem CanonicalText.decimalText_eq (h : CanonicalText text) :
    decimalText (textNumber text) = text := by
  rw [decimalText, textNumber, word_number (by decide) h.word, map_ascii_digit h.digits]

/-- the text of a number is canonical -/
theorem canonicalText_decimalText (n : ℕ) : CanonicalText (decimalText n) := by
  have h := canonical_word (b := 10) (by decide) n
  refine ⟨fun hnil => h.ne_nil (List.map_eq_nil_iff.1 hnil), ?_, fun hlen hzero => ?_⟩
  · rw [List.all_eq_true]
    intro byte hbyte
    obtain ⟨d, hd, rfl⟩ := List.mem_map.1 hbyte
    exact isAsciiDigit_ascii (h.lt d hd)
  · rw [decimalText, List.length_map] at hlen
    rw [decimalText, List.head?_map, Option.map_eq_some_iff] at hzero
    obtain ⟨d, hd, hzero⟩ := hzero
    have hdigit := congrArg digit hzero
    rw [digit_ascii (h.lt d (List.mem_of_head? hd))] at hdigit
    exact h.lead hlen (hd.trans (congrArg some hdigit))

/-! ## Formatting -/

namespace U256

theorem val_eq_zero {x : U256} : x = zero ↔ x.val = 0 := Words.eq_zero_iff

theorem fromU128_val (x : BitVec 128) : (fromU128 x).val = x.toNat := by
  simp [fromU128, Words.val, Limbs.value]

theorem tryU128_eq {x : U256} (h : x.val < 2 ^ 128) : ∃ low, tryU128 x = .ok low ∧ low.toNat = x.val := by
  obtain ⟨low, high, hwords⟩ := List.length_eq_two.1 x.length_eq
  have hlow := low.isLt
  have hval : x.val = low.toNat + 2 ^ 128 * high.toNat := by
    rw [Words.val, hwords]
    simp [Limbs.value]
  have hhigh : high = 0 := BitVec.eq_of_toNat_eq (show high.toNat = 0 by omega)
  refine ⟨low, ?_, ?_⟩
  · rw [tryU128, hwords]
    exact if_pos hhigh
  · have hzero : high.toNat = 0 := congrArg BitVec.toNat hhigh
    omega

theorem checkedMul_eq (a b : U256) :
    checkedMul a b = if a.val * b.val < 2 ^ 256 then .ok (Words.ofNat 2 (a.val * b.val)) else .error .overflow := by
  rw [checkedMul, fullProduct_eq, ok_bind, narrow_eq, Words.val_ofNat (product_lt a b)]

theorem divRem_ten (value : U256) : divRem value (fromU128 10) =
    .ok (Words.ofNat 2 (value.val / 10), Words.ofNat 2 (value.val % 10)) := by
  have hten : (fromU128 10).val = 10 := fromU128_val 10
  rw [divRem, Words.divide_eq, hten, if_neg (by decide)]

end U256

theorem val_ofNat_le (value : U256) (h : n ≤ value.val) : (Words.ofNat 2 n).val = n := by
  refine Words.val_ofNat (lt_of_le_of_lt h ?_)
  exact Words.val_lt value

/-- **Formatting loop.** With room for the digits, the loop appends them, least significant first. -/
theorem decimalLoop_eq {room : ℕ} {value : U256} (h : value.val < 10 ^ room) (reversed : List UInt8) :
    decimalLoop room value reversed = .ok (reversed ++ (Nat.digits 10 value.val).map ascii) := by
  induction room generalizing value reversed with
  | zero =>
    have hzero : value.val = 0 := by omega
    rw [decimalLoop, if_pos (U256.val_eq_zero.2 hzero), hzero, Nat.digits_zero, List.map_nil, List.append_nil]
  | succ room ih =>
    rw [decimalLoop]
    by_cases hzero : value.val = 0
    · rw [if_pos (U256.val_eq_zero.2 hzero), hzero, Nat.digits_zero, List.map_nil, List.append_nil]
    have hquotient := val_ofNat_le value (Nat.div_le_self value.val 10)
    have hremainder := val_ofNat_le value (Nat.mod_le value.val 10)
    have hmod : value.val % 10 < 10 := Nat.mod_lt _ (by decide)
    obtain ⟨low, hlow, hval⟩ := U256.tryU128_eq (x := Words.ofNat 2 (value.val % 10)) (by rw [hremainder]; omega)
    rw [hremainder] at hval
    have hsmall : (Words.ofNat 2 (value.val / 10)).val < 10 ^ room := by
      rw [hquotient, Nat.div_lt_iff_lt_mul (by decide), ← pow_succ]
      exact h
    have hdigits : Nat.digits 10 value.val = value.val % 10 :: Nat.digits 10 (value.val / 10) :=
      Nat.digits_def' (by decide) (Nat.pos_of_ne_zero hzero)
    rw [if_neg (mt U256.val_eq_zero.1 hzero), U256.divRem_ten]
    change (U256.tryU128 (Words.ofNat 2 (value.val % 10))).mapError _ >>= _ = _
    rw [hlow]
    change (ensure (low.toNat < 256) _ >>= _) = _
    rw [ensure_bind (by omega), ensure_bind (by omega), ih hsmall, hquotient, hval, hdigits, List.append_assoc]
    rfl

theorem pow_room : 2 ^ 256 ≤ 10 ^ 78 := by norm_num

/-- **Formatting.** The text of a number is its canonical text. -/
theorem unsignedDecimal_eq (value : U256) : unsignedDecimal value = .ok (decimalText value.val) := by
  unfold unsignedDecimal
  by_cases hzero : value.val = 0
  · rw [if_pos (U256.val_eq_zero.2 hzero), hzero]
    rfl
  · rw [if_neg (mt U256.val_eq_zero.1 hzero), decimalLoop_eq (lt_of_lt_of_le value.val_lt pow_room), ok_bind,
      List.nil_append, decimalText, word, if_neg hzero, List.map_reverse]
    rfl

/-! ## Parsing -/

theorem parseDigit_eq (value : U256) (h : isAsciiDigit byte = true) :
    parseDigit value byte = if value.val * 10 + digit byte < 2 ^ 256 then
      .ok (Words.ofNat 2 (value.val * 10 + digit byte)) else .error .outOfRange := by
  have hten : (U256.fromU128 10).val = 10 := U256.fromU128_val 10
  have hlt := digit_lt h
  have hdigit : (U256.fromU128 (BitVec.ofNat 128 (byte - 48).toNat)).val = digit byte := by
    rw [U256.fromU128_val, digit_sub h, BitVec.toNat_ofNat, Nat.mod_eq_of_lt (by omega)]
  rw [parseDigit, U256.checkedMul_eq, hten]
  by_cases hproduct : value.val * 10 < 2 ^ 256
  · have hval : (Words.ofNat 2 (value.val * 10)).val = value.val * 10 := Words.val_ofNat (bound_two ▸ hproduct)
    rw [if_pos hproduct]
    change (U256.checkedAdd _ _).mapError rangeFailure = _
    rw [U256.checkedAdd_eq, hval, hdigit]
    split_ifs <;> rfl
  · rw [if_neg hproduct, if_neg (by omega)]
    rfl

/-- **Parsing loop.** The digits are read as their number; the first overflow is the overflow of the whole. -/
theorem foldlM_parseDigit (h : text.all isAsciiDigit = true) (value : U256) :
    text.foldlM parseDigit value = if numberFrom 10 value.val (text.map digit) < 2 ^ 256 then
      .ok (Words.ofNat 2 (numberFrom 10 value.val (text.map digit))) else .error .outOfRange := by
  induction text generalizing value with
  | nil =>
    rw [List.map_nil, numberFrom_nil, if_pos value.val_lt]
    exact congrArg Except.ok (Words.val_inj (Words.val_ofNat (Words.val_lt value)).symm)
  | cons byte text ih =>
    rw [List.all_cons, Bool.and_eq_true] at h
    rw [List.foldlM_cons, parseDigit_eq value h.1, List.map_cons, numberFrom_cons]
    by_cases hfits : value.val * 10 + digit byte < 2 ^ 256
    · have hval : (Words.ofNat 2 (value.val * 10 + digit byte)).val = value.val * 10 + digit byte :=
        Words.val_ofNat (bound_two ▸ hfits)
      rw [if_pos hfits, ok_bind, ih h.2, hval]
    · have hle := le_numberFrom (b := 10) (by decide) (value.val * 10 + digit byte) (text.map digit)
      rw [if_neg hfits, if_neg (by omega)]
      rfl

/-- a text that `parse_unsigned_decimal` reads at all -/
theorem readable_iff (text : List UInt8) :
    ¬(text = [] ∨ 78 < text.length ∨ (1 < text.length ∧ text.head? = some 48) ∨ text.all isAsciiDigit = false) ↔
      CanonicalText text ∧ text.length ≤ 78 := by
  constructor
  · intro h
    rw [not_or, not_or, not_or] at h
    obtain ⟨hne, hlen, hlead, hdigits⟩ := h
    exact ⟨⟨hne, Bool.not_eq_false _ ▸ hdigits, fun hlong hzero => hlead ⟨hlong, hzero⟩⟩, not_lt.1 hlen⟩
  · rintro ⟨h, hlen⟩ (hnil | hlong | ⟨hlong, hzero⟩ | hdigits)
    · exact h.ne_nil hnil
    · omega
    · exact h.lead hlong hzero
    · rw [h.digits] at hdigits
      cases hdigits

/-- **Parsing.** -/
theorem parseUnsignedDecimal_eq (text : List UInt8) : parseUnsignedDecimal text =
    if CanonicalText text ∧ text.length ≤ 78 then
      if textNumber text < 2 ^ 256 then .ok (Words.ofNat 2 (textNumber text)) else .error .outOfRange
    else .error .decimalSyntax := by
  have hiff := readable_iff text
  unfold parseUnsignedDecimal
  by_cases h : CanonicalText text ∧ text.length ≤ 78
  · rw [ensure_bind (hiff.2 h), if_pos h, foldlM_parseDigit h.1.digits]
    have hzero : U256.zero.val = 0 := U256.val_eq_zero.1 rfl
    rw [hzero]
    rfl
  · rw [ensure, if_neg (mt hiff.1 h), if_neg h]
    rfl

theorem length_decimalText (h : n < 2 ^ 256) : (decimalText n).length ≤ 78 := by
  rw [decimalText, List.length_map]
  exact length_word_le (by decide) (by decide) (lt_of_lt_of_le h pow_room)

theorem parseUnsignedDecimal_ok {value : U256} :
    parseUnsignedDecimal text = .ok value ↔ text = decimalText value.val := by
  rw [parseUnsignedDecimal_eq]
  constructor
  · intro h
    split_ifs at h with hcanonical hfits
    cases h
    rw [Words.val_ofNat (bound_two ▸ hfits), hcanonical.1.decimalText_eq]
  · rintro rfl
    rw [if_pos ⟨canonicalText_decimalText _, length_decimalText value.val_lt⟩, textNumber_decimalText,
      if_pos value.val_lt]
    exact congrArg Except.ok (Words.val_inj (Words.val_ofNat (Words.val_lt value)))

theorem parseUnsignedDecimal_outOfRange : parseUnsignedDecimal text = .error .outOfRange ↔
    CanonicalText text ∧ text.length ≤ 78 ∧ 2 ^ 256 ≤ textNumber text := by
  rw [parseUnsignedDecimal_eq]
  by_cases h : CanonicalText text ∧ text.length ≤ 78
  · rw [if_pos h]
    by_cases hfits : textNumber text < 2 ^ 256
    · rw [if_pos hfits]
      exact iff_of_false nofun fun hout => by omega
    · rw [if_neg hfits]
      exact iff_of_true rfl ⟨h.1, h.2, not_lt.1 hfits⟩
  · rw [if_neg h]
    exact iff_of_false nofun fun hout => h ⟨hout.1, hout.2.1⟩

/-! ## Signs -/

namespace I256

theorem isNegative_iff_val (x : I256) : x.isNegative = true ↔ x.val < 0 := by
  have hlt := U256.val_lt x.bits
  unfold val
  split_ifs with h
  · exact iff_of_true h (by omega)
  · exact iff_of_false h (by omega)

theorem val_inj {x y : I256} (h : x.val = y.val) : x = y := by
  have hx := U256.val_lt x.bits
  have hy := U256.val_lt y.bits
  have hbits : x.bits.val = y.bits.val := by
    unfold val at h
    split_ifs at h <;> omega
  obtain ⟨_⟩ := x
  obtain ⟨_⟩ := y
  exact congrArg I256.mk (Words.val_inj hbits)

theorem val_range (x : I256) : -2 ^ 255 ≤ x.val ∧ x.val < 2 ^ 255 := by
  have hlt := U256.val_lt x.bits
  have hiff := x.isNegative_iff
  unfold val
  split_ifs with h
  · have hle := hiff.1 h
    omega
  · have hlow := mt hiff.2 h
    omega

theorem fromMagnitude_ok {magnitude : U256} {negative : Bool} (hlow : -2 ^ 255 ≤ signed negative magnitude.val)
    (hhigh : signed negative magnitude.val < 2 ^ 255) :
    ∃ x, fromMagnitude magnitude negative = .ok x ∧ x.val = signed negative magnitude.val := by
  have h := fromMagnitude_eq magnitude negative
  rw [if_pos ⟨hlow, hhigh⟩] at h
  cases hresult : fromMagnitude magnitude negative with
  | error e =>
    rw [hresult] at h
    cases h
  | ok x =>
    rw [hresult] at h
    exact ⟨x, rfl, Except.ok.inj h⟩

theorem fromMagnitude_overflow {magnitude : U256} {negative : Bool}
    (h : ¬(-2 ^ 255 ≤ signed negative magnitude.val ∧ signed negative magnitude.val < 2 ^ 255)) :
    fromMagnitude magnitude negative = .error .overflow := by
  have hresult := fromMagnitude_eq magnitude negative
  rw [if_neg h] at hresult
  cases hcase : fromMagnitude magnitude negative with
  | error e =>
    rw [hcase] at hresult
    exact congrArg Except.error (Except.error.inj hresult)
  | ok x =>
    rw [hcase] at hresult
    cases hresult

end I256

/-- the canonical text of an integer -/
def signedText (z : ℤ) : List UInt8 := if z < 0 then 45 :: decimalText z.natAbs else decimalText z.natAbs

/-- a canonical text after an optional minus sign, which zero does not take -/
structure CanonicalSigned (text : List UInt8) : Prop where
  magnitude : CanonicalText (stripMinus text).2
  nonzero : ¬((stripMinus text).1 = true ∧ (stripMinus text).2 = [48])

/-- the integer that a text stands for -/
def signedNumber (text : List UInt8) : ℤ := I256.signed (stripMinus text).1 (textNumber (stripMinus text).2)

theorem stripMinus_append (text : List UInt8) :
    text = (if (stripMinus text).1 = true then [45] else []) ++ (stripMinus text).2 := by
  unfold stripMinus
  split <;> rfl

theorem stripMinus_digits (h : text.all isAsciiDigit = true) : stripMinus text = (false, text) := by
  unfold stripMinus
  split
  · rw [List.all_cons, Bool.and_eq_true] at h
    exact absurd h.1 (by decide)
  · rfl

theorem decimalText_zero : decimalText 0 = [48] := rfl

/-- **Signed formatting.** -/
theorem signedDecimal_eq (value : I256) : signedDecimal value = .ok (signedText value.val) := by
  rw [signedDecimal, unsignedDecimal_eq, ok_bind, I256.magnitude_val, signedText]
  by_cases h : value.isNegative = true
  · rw [if_neg (not_not.2 h), if_pos (value.isNegative_iff_val.1 h)]
    rfl
  · rw [if_pos h, if_neg (mt value.isNegative_iff_val.2 h)]
    rfl

theorem CanonicalSigned.signedText_eq (h : CanonicalSigned text) :
    signedText (signedNumber text) = text := by
  have happend := stripMinus_append text
  have hmagnitude := h.magnitude.decimalText_eq
  unfold signedText signedNumber I256.signed
  by_cases hsign : (stripMinus text).1 = true
  · -- the magnitude is not zero, for zero takes no sign
    have hne : textNumber (stripMinus text).2 ≠ 0 := fun hzero => by
      rw [hzero, decimalText_zero] at hmagnitude
      exact h.nonzero ⟨hsign, hmagnitude.symm⟩
    rw [if_pos hsign] at happend
    rw [if_pos hsign, if_pos (by omega), Int.natAbs_neg, Int.natAbs_natCast, hmagnitude]
    exact happend.symm
  · rw [if_neg hsign] at happend
    rw [if_neg hsign, if_neg (by omega), Int.natAbs_natCast, hmagnitude]
    exact happend.symm

theorem stripMinus_signedText (z : ℤ) : stripMinus (signedText z) = (decide (z < 0), decimalText z.natAbs) := by
  unfold signedText
  by_cases h : z < 0
  · rw [if_pos h, decide_eq_true h]
    rfl
  · rw [if_neg h, decide_eq_false h, stripMinus_digits (canonicalText_decimalText _).digits]

theorem signedNumber_signedText (z : ℤ) : signedNumber (signedText z) = z := by
  rw [signedNumber, stripMinus_signedText, textNumber_decimalText, I256.signed]
  by_cases h : z < 0
  · rw [decide_eq_true h, if_pos rfl]
    omega
  · rw [decide_eq_false h, if_neg Bool.false_ne_true]
    omega

theorem canonicalSigned_signedText (z : ℤ) : CanonicalSigned (signedText z) := by
  have hstrip := stripMinus_signedText z
  refine ⟨?_, ?_⟩
  · rw [hstrip]
    exact canonicalText_decimalText _
  · rw [hstrip]
    rintro ⟨hsign, hzero⟩
    have hnumber := textNumber_decimalText z.natAbs
    change decimalText z.natAbs = [48] at hzero
    rw [hzero] at hnumber
    have hlt := of_decide_eq_true hsign
    have hzeroNumber : textNumber [48] = 0 := rfl
    omega

theorem length_signedText {z : ℤ} (hlow : -2 ^ 255 ≤ z) (hhigh : z < 2 ^ 255) : (signedText z).length ≤ 78 := by
  have hsmall : z.natAbs < 10 ^ 77 := by
    have hpow : (2 : ℕ) ^ 255 < 10 ^ 77 := by norm_num
    omega
  have hlen : (decimalText z.natAbs).length ≤ 77 := by
    rw [decimalText, List.length_map]
    exact length_word_le (by decide) (by decide) hsmall
  unfold signedText
  split_ifs
  · rw [List.length_cons]
    omega
  · omega

/-- **Signed parsing.** A text is refused for its syntax, refused for its range, or read as its integer. -/
theorem parseSignedDecimal_cases (text : List UInt8) :
    (¬(CanonicalSigned text ∧ text.length ≤ 78) ∧ parseSignedDecimal text = .error .decimalSyntax) ∨
    ((CanonicalSigned text ∧ text.length ≤ 78) ∧ ¬(-2 ^ 255 ≤ signedNumber text ∧ signedNumber text < 2 ^ 255) ∧
      parseSignedDecimal text = .error .outOfRange) ∨
    ((CanonicalSigned text ∧ text.length ≤ 78) ∧
      ∃ x : I256, x.val = signedNumber text ∧ parseSignedDecimal text = .ok x) := by
  have hlength : (stripMinus text).2.length ≤ text.length := by
    conv_rhs => rw [stripMinus_append text]
    rw [List.length_append]
    omega
  unfold parseSignedDecimal
  by_cases hlen : 78 < text.length
  · refine .inl ⟨fun h => by omega, ?_⟩
    rw [ensure, if_neg (not_not.2 hlen)]
    rfl
  rw [ensure_bind hlen]
  dsimp only
  by_cases hminus : (stripMinus text).1 = true ∧ (stripMinus text).2 = [48]
  · refine .inl ⟨fun h => h.1.nonzero hminus, ?_⟩
    rw [ensure, if_neg (not_not.2 hminus)]
    rfl
  rw [ensure_bind hminus, parseUnsignedDecimal_eq]
  by_cases hcanonical : CanonicalText (stripMinus text).2
  · have hsigned : CanonicalSigned text ∧ text.length ≤ 78 := ⟨⟨hcanonical, hminus⟩, not_lt.1 hlen⟩
    rw [if_pos ⟨hcanonical, by omega⟩]
    by_cases hfits : textNumber (stripMinus text).2 < 2 ^ 256
    · have hval : (Words.ofNat 2 (textNumber (stripMinus text).2)).val = textNumber (stripMinus text).2 :=
        Words.val_ofNat (bound_two ▸ hfits)
      rw [if_pos hfits, ok_bind]
      by_cases hrange : -2 ^ 255 ≤ signedNumber text ∧ signedNumber text < 2 ^ 255
      · obtain ⟨x, hx, hxval⟩ := @I256.fromMagnitude_ok (Words.ofNat 2 (textNumber (stripMinus text).2))
          (stripMinus text).1 (by rw [hval]; exact hrange.1) (by rw [hval]; exact hrange.2)
        rw [hval] at hxval
        refine .inr (.inr ⟨hsigned, x, hxval, ?_⟩)
        rw [hx]
        rfl
      · refine .inr (.inl ⟨hsigned, hrange, ?_⟩)
        rw [I256.fromMagnitude_overflow (by rw [hval]; exact hrange)]
        rfl
    · rw [if_neg hfits]
      refine .inr (.inl ⟨hsigned, ?_, rfl⟩)
      unfold signedNumber I256.signed
      split_ifs <;> omega
  · rw [if_neg fun h => hcanonical h.1]
    exact .inl ⟨fun h => hcanonical h.1.magnitude, rfl⟩

theorem parseSignedDecimal_ok {x : I256} :
    parseSignedDecimal text = .ok x ↔ text = signedText x.val := by
  constructor
  · intro h
    rcases parseSignedDecimal_cases text with ⟨_, hcase⟩ | ⟨_, _, hcase⟩ | ⟨hcanonical, y, hy, hcase⟩
    · rw [hcase] at h
      cases h
    · rw [hcase] at h
      cases h
    · rw [hcase] at h
      cases h
      rw [hy, hcanonical.1.signedText_eq]
  · rintro rfl
    have hrange := x.val_range
    have hcanonical := canonicalSigned_signedText x.val
    rcases parseSignedDecimal_cases (signedText x.val) with ⟨hno, _⟩ | ⟨_, hno, _⟩ | ⟨_, y, hy, hcase⟩
    · exact absurd ⟨hcanonical, length_signedText hrange.1 hrange.2⟩ hno
    · rw [signedNumber_signedText] at hno
      exact absurd hrange hno
    · rw [signedNumber_signedText] at hy
      rw [hcase, I256.val_inj hy]

/-- **Canonical decimal text.** Every number has one text, which is read back as the number; a text is read as a number
exactly when it is the text of that number; a canonical text of admissible length is out of range exactly when its value
does not fit, and every other refusal is one of syntax. -/
theorem canonical_decimal :
    (∀ v : U256, ∃ t, unsignedDecimal v = .ok t ∧ parseUnsignedDecimal t = .ok v) ∧
    (∀ v : I256, ∃ t, signedDecimal v = .ok t ∧ parseSignedDecimal t = .ok v) ∧
    (∀ t v, parseUnsignedDecimal t = .ok v ↔ unsignedDecimal v = .ok t) ∧
    (∀ t v, parseSignedDecimal t = .ok v ↔ signedDecimal v = .ok t) ∧
    (∀ t, parseUnsignedDecimal t = .error .outOfRange ↔
      CanonicalText t ∧ t.length ≤ 78 ∧ 2 ^ 256 ≤ textNumber t) ∧
    (∀ t, parseSignedDecimal t = .error .outOfRange ↔
      CanonicalSigned t ∧ t.length ≤ 78 ∧ ¬(-2 ^ 255 ≤ signedNumber t ∧ signedNumber t < 2 ^ 255)) ∧
    (∀ t e, parseUnsignedDecimal t = .error e → e = .outOfRange ∨ e = .decimalSyntax) ∧
    ∀ t e, parseSignedDecimal t = .error e → e = .outOfRange ∨ e = .decimalSyntax := by
  refine ⟨fun v => ?_, fun v => ?_, fun t v => ?_, fun t v => ?_, fun t => parseUnsignedDecimal_outOfRange, fun t => ?_,
    fun t e h => ?_, fun t e h => ?_⟩
  · exact ⟨decimalText v.val, unsignedDecimal_eq v, parseUnsignedDecimal_ok.2 rfl⟩
  · exact ⟨signedText v.val, signedDecimal_eq v, parseSignedDecimal_ok.2 rfl⟩
  · rw [parseUnsignedDecimal_ok, unsignedDecimal_eq, Except.ok.injEq, eq_comm]
  · rw [parseSignedDecimal_ok, signedDecimal_eq, Except.ok.injEq, eq_comm]
  · rcases parseSignedDecimal_cases t with ⟨hno, hcase⟩ | ⟨hcanonical, hrange, hcase⟩ | ⟨_, x, hx, hcase⟩
    · rw [hcase]
      exact iff_of_false nofun fun h => hno ⟨h.1, h.2.1⟩
    · rw [hcase]
      exact iff_of_true rfl ⟨hcanonical.1, hcanonical.2, hrange⟩
    · rw [hcase]
      exact iff_of_false nofun fun h => h.2.2 (hx ▸ x.val_range)
  · rw [parseUnsignedDecimal_eq] at h
    split_ifs at h
    · exact .inl (Except.error.inj h).symm
    · exact .inr (Except.error.inj h).symm
  · rcases parseSignedDecimal_cases t with ⟨_, hcase⟩ | ⟨_, _, hcase⟩ | ⟨_, x, _, hcase⟩
    · rw [hcase] at h
      exact .inr (Except.error.inj h).symm
    · rw [hcase] at h
      exact .inl (Except.error.inj h).symm
    · rw [hcase] at h
      cases h

end ZenoFcis.Number
