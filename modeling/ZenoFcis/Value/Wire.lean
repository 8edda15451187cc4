/-
The wire format of a well-formed value: `wire` is its encoding as a plain function, `Valid` the structural conditions
that construction establishes. On valid values the encoder is total and emits `wire`, the length computation is exact,
and `wire` is a prefix code.
-/
import ZenoFcis.Lib.Except
import ZenoFcis.Lib.PrefixCode
import ZenoFcis.Value.Construct

namespace ZenoFcis

open Lib Lib.Except Zcve

/-! ## The format -/

mutual

def wire : Value → Bytes
  | .unit => [tagUnit]
  | .bool false => [tagBoolFalse]
  | .bool true => [tagBoolTrue]
  | .u128 n => tagU128 :: beBytes 16 n.toNat
  | .i128 n => tagI128 :: beBytes 16 (signedToBits n).toNat
  | .bytes b => tagBytes :: blob 4 b
  | .text t => tagText :: blob 4 t
  | .enum t w => tagEnum :: (beBytes 4 t.toNat ++ beBytes 2 w.toNat)
  | .tuple items => tagTuple :: (beBytes 4 items.length ++ wireItems items)
  | .record fields => tagRecord :: (beBytes 4 fields.length ++ wireFields fields)
  | .sum t w none => tagSum :: (beBytes 4 t.toNat ++ (beBytes 2 w.toNat ++ [0]))
  | .sum t w (some v) => tagSum :: (beBytes 4 t.toNat ++ (beBytes 2 w.toNat ++ 1 :: wire v))
  | .vector items => tagVector :: (beBytes 4 items.length ++ wireItems items)
  | .map entries => tagMap :: (beBytes 4 entries.length ++ wireEntries entries)

def wireItems : List Value → Bytes
  | [] => []
  | v :: items => wire v ++ wireItems items

def wireFields : List Field → Bytes
  | [] => []
  | .mk i v :: fields => beBytes 2 i.toNat ++ wire v ++ wireFields fields

def wireEntries : List MapEntry → Bytes
  | [] => []
  | .mk b _ v :: entries => blob 4 b ++ blob 4 (wire v) ++ wireEntries entries

end

def wireField (f : Field) : Bytes := beBytes 2 f.id.toNat ++ wire f.value

def wireEntry (e : MapEntry) : Bytes := blob 4 e.encodedKey ++ blob 4 (wire e.value)

theorem wireItems_eq (items : List Value) : wireItems items = items.flatMap wire := by
  induction items with
  | nil => rfl
  | cons v items ih => rw [wireItems, ih, List.flatMap_cons]

theorem wireFields_eq (fields : List Field) : wireFields fields = fields.flatMap wireField := by
  induction fields with
  | nil => rfl
  | cons f fields ih => cases f; rw [wireFields, ih, List.flatMap_cons]; rfl

theorem wireEntries_eq (entries : List MapEntry) : wireEntries entries = entries.flatMap wireEntry := by
  induction entries with
  | nil => rfl
  | cons e entries ih => cases e; rw [wireEntries, ih, List.flatMap_cons]; rfl

/-- strictly increasing field identifiers -/
def FieldsOrdered (fields : List Field) : Prop := fields.IsChain fun a b => a.id < b.id

/-- strictly increasing encoded keys -/
def KeysOrdered (entries : List MapEntry) : Prop :=
  entries.IsChain fun a b => bytesBefore a.encodedKey b.encodedKey = true

/-- the structural conditions of a value: ASCII text, `u32` lengths, strict orders and derived map keys -/
inductive Valid : Value → Prop where
  | unit : Valid .unit
  | bool (b : Bool) : Valid (.bool b)
  | u128 (n : BitVec 128) : Valid (.u128 n)
  | i128 (n : I128) : Valid (.i128 n)
  | bytes {b : Bytes} (hlen : b.length ≤ u32Max) : Valid (.bytes b)
  | text {t : Bytes} (hascii : isAscii t = true) (hlen : t.length ≤ u32Max) : Valid (.text t)
  | enum (t : UInt32) (w : UInt16) : Valid (.enum t w)
  | tuple {items : List Value} (hlen : items.length ≤ u32Max) (hs : ∀ v ∈ items, Valid v) : Valid (.tuple items)
  | record {fields : List Field} (hlen : fields.length ≤ u32Max) (hord : FieldsOrdered fields)
      (hs : ∀ f ∈ fields, Valid f.value) : Valid (.record fields)
  | sum (t : UInt32) (w : UInt16) {payload : Option Value} (h : ∀ v ∈ payload, Valid v) : Valid (.sum t w payload)
  | vector {items : List Value} (hlen : items.length ≤ u32Max) (hs : ∀ v ∈ items, Valid v) : Valid (.vector items)
  | map {entries : List MapEntry} (hlen : entries.length ≤ u32Max) (hord : KeysOrdered entries)
      (hkey : ∀ e ∈ entries, Valid e.key) (hvalue : ∀ e ∈ entries, Valid e.value)
      (henc : ∀ e ∈ entries, e.encodedKey = wire e.key ∧ e.encodedKey.length ≤ u32Max)
      (hfit : ∀ e ∈ entries, (wire e.value).length ≤ u32Max) : Valid (.map entries)

/-! ## Words -/

theorem appendWord_eq (word : BitVec 128) (w : ℕ) : appendWord word w = beBytes w word.toNat := by
  induction w generalizing word with
  | zero => rfl
  | succ w ih =>
    rw [appendWord, ih, beBytes, BitVec.toNat_ushiftRight, Nat.shiftRight_eq_div_pow]
    congr 2
    apply UInt8.toNat_inj.1
    simp

theorem appendWord_ofNat {n : ℕ} (h : n < 2 ^ 128) (w : ℕ) : appendWord (BitVec.ofNat 128 n) w = beBytes w n := by
  rw [appendWord_eq, BitVec.toNat_ofNat, Nat.mod_eq_of_lt h]

/-- words tell signed numbers apart -/
theorem signedToBits_inj {m n : I128} (h : signedToBits m = signedToBits n) : m = n := by
  obtain ⟨m, hm1, hm2⟩ := m
  obtain ⟨n, hn1, hn2⟩ := n
  simp only [I128.mk.injEq]
  have hbits := congrArg BitVec.toNat h
  simp only [signedToBits] at hbits
  split_ifs at hbits <;> simp only [BitVec.toNat_ofNat] at hbits <;> omega

theorem putZcveLength_eq {n : ℕ} (h : n ≤ u32Max) : putZcveLength n = .ok (beBytes 4 n) := by
  have hlt : n < 2 ^ 128 := lt_of_le_of_lt h (by decide)
  rw [putZcveLength, if_pos h, appendWord_ofNat hlt]

variable {b r s : Bytes} {entries : List MapEntry}

theorem putZcveBlob_eq (h : b.length ≤ u32Max) : putZcveBlob b = .ok (blob 4 b) := by
  rw [putZcveBlob, putZcveLength_eq h]
  rfl

theorem word32 (t : UInt32) (w : ℕ) : appendWord (BitVec.ofNat 128 t.toNat) w = beBytes w t.toNat :=
  appendWord_ofNat (lt_trans t.toNat_lt (by decide)) w

theorem word16 (t : UInt16) (w : ℕ) : appendWord (BitVec.ofNat 128 t.toNat) w = beBytes w t.toNat :=
  appendWord_ofNat (lt_trans t.toNat_lt (by decide)) w

/-! ## The encoder emits the wire format -/

theorem encodeZcveItems_eq {items : List Value} (h : ∀ v ∈ items, encodeZcveValue v = .ok (wire v)) :
    encodeZcveItems items = .ok (wireItems items) := by
  induction items with
  | nil => rfl
  | cons v items ih =>
    rw [encodeZcveItems, h v List.mem_cons_self, ih fun w hw => h w (List.mem_cons_of_mem _ hw)]
    rfl

theorem encodeZcveFields_eq {fields : List Field} (h : ∀ f ∈ fields, encodeZcveValue f.value = .ok (wire f.value)) :
    encodeZcveFields fields = .ok (wireFields fields) := by
  induction fields with
  | nil => rfl
  | cons f fields ih =>
    obtain ⟨i, v⟩ := f
    have hv : encodeZcveValue v = .ok (wire v) := h _ List.mem_cons_self
    rw [encodeZcveFields, hv, ih fun g hg => h g (List.mem_cons_of_mem _ hg), word16]
    rfl

theorem encodeZcveEntries_eq
    (h : ∀ e ∈ entries, encodeZcveValue e.value = .ok (wire e.value))
    (hkey : ∀ e ∈ entries, e.encodedKey.length ≤ u32Max) (hfit : ∀ e ∈ entries, (wire e.value).length ≤ u32Max) :
    encodeZcveEntries entries = .ok (wireEntries entries) := by
  induction entries with
  | nil => rfl
  | cons e entries ih =>
    obtain ⟨b, k, v⟩ := e
    have hv : encodeZcveValue v = .ok (wire v) := h _ List.mem_cons_self
    have hb : b.length ≤ u32Max := hkey _ List.mem_cons_self
    have hw : (wire v).length ≤ u32Max := hfit _ List.mem_cons_self
    have hrest := ih (fun e he => h e (List.mem_cons_of_mem _ he)) (fun e he => hkey e (List.mem_cons_of_mem _ he))
      (fun e he => hfit e (List.mem_cons_of_mem _ he))
    rw [encodeZcveEntries, putZcveBlob_eq hb, hv, hrest]
    simp only [ok_bind, putZcveBlob_eq hw]
    rfl

/-- on a valid value the encoder never fails and emits `wire` -/
theorem encodeZcveValue_eq {v : Value} (hv : Valid v) : encodeZcveValue v = .ok (wire v) := by
  induction v with
  | unit => rfl
  | bool b => cases b <;> rfl
  | u128 n | i128 n => rw [encodeZcveValue, appendWord_eq, wire]
  | bytes b =>
    cases hv with
    | bytes hlen => rw [encodeZcveValue, putZcveBlob_eq hlen]; rfl
  | text t =>
    cases hv with
    | text _ hlen => rw [encodeZcveValue, putZcveBlob_eq hlen]; rfl
  | enum t w => rw [encodeZcveValue, word32, word16, wire]; rfl
  | tuple items ih =>
    cases hv with
    | tuple hlen hs =>
      rw [encodeZcveValue, putZcveLength_eq hlen, encodeZcveItems_eq fun v hv => ih v hv (hs v hv)]
      rfl
  | record fields ih =>
    cases hv with
    | record hlen _ hs =>
      rw [encodeZcveValue, putZcveLength_eq hlen, encodeZcveFields_eq fun f hf => ih f hf (hs f hf)]
      rfl
  | sum t w payload ih =>
    cases hv with
    | sum _ _ h =>
      cases payload with
      | none => simp [encodeZcveValue, wire, word32, word16, pure_eq]
      | some v => simp [encodeZcveValue, wire, word32, word16, pure_eq, ih v rfl (h v rfl), ok_bind]
  | vector items ih =>
    cases hv with
    | vector hlen hs =>
      rw [encodeZcveValue, putZcveLength_eq hlen, encodeZcveItems_eq fun v hv => ih v hv (hs v hv)]
      rfl
  | map entries ih =>
    cases hv with
    | map hlen _ _ hvalue henc hfit =>
      rw [encodeZcveValue, putZcveLength_eq hlen,
        encodeZcveEntries_eq (fun e he => (ih e he).2 (hvalue e he)) (fun e he => (henc e he).2) hfit]
      rfl

/-! ## The wire format is a prefix code -/

theorem u32Max_lt : u32Max < 256 ^ 4 := by decide

/-- a word is told apart from what follows -/
theorem read_u32 {m n : UInt32} (h : beBytes 4 m.toNat ++ r = beBytes 4 n.toNat ++ s) :
    m = n ∧ r = s := by
  obtain ⟨h1, h2⟩ := beBytes_append_inj (lt_of_lt_of_le m.toNat_lt (by decide)) (lt_of_lt_of_le n.toNat_lt (by decide)) h
  exact ⟨UInt32.toNat_inj.1 h1, h2⟩

theorem read_u16 {m n : UInt16} (h : beBytes 2 m.toNat ++ r = beBytes 2 n.toNat ++ s) :
    m = n ∧ r = s := by
  obtain ⟨h1, h2⟩ := beBytes_append_inj (lt_of_lt_of_le m.toNat_lt (by decide)) (lt_of_lt_of_le n.toNat_lt (by decide)) h
  exact ⟨UInt16.toNat_inj.1 h1, h2⟩

theorem read_u128 {m n : BitVec 128} (h : beBytes 16 m.toNat ++ r = beBytes 16 n.toNat ++ s) :
    m = n ∧ r = s := by
  obtain ⟨h1, h2⟩ := beBytes_append_inj (lt_of_lt_of_le m.isLt (by decide)) (lt_of_lt_of_le n.isLt (by decide)) h
  exact ⟨BitVec.toNat_inj.1 h1, h2⟩

/-- a length is told apart from what follows -/
theorem read_length {m n : ℕ} (hm : m ≤ u32Max) (hn : n ≤ u32Max)
    (h : beBytes 4 m ++ r = beBytes 4 n ++ s) : m = n ∧ r = s :=
  beBytes_append_inj (lt_of_le_of_lt hm u32Max_lt) (lt_of_le_of_lt hn u32Max_lt) h

/-- a string is told apart from what follows -/
theorem read_blob {a : Bytes} (ha : a.length ≤ u32Max) (hb : b.length ≤ u32Max)
    (h : blob 4 a ++ r = blob 4 b ++ s) : a = b ∧ r = s :=
  reads_blob 4 a (lt_of_le_of_lt ha u32Max_lt) b r s (lt_of_le_of_lt hb u32Max_lt) h

theorem reads_field {f : Field} (h : Reads wire Valid f.value) :
    Reads wireField (fun g => Valid g.value) f := by
  intro g r s hg e
  obtain ⟨i, v⟩ := f
  obtain ⟨j, w⟩ := g
  simp only [wireField, Field.id_mk, Field.value_mk, List.append_assoc] at e h hg
  obtain ⟨rfl, hrest⟩ := read_u16 e
  obtain ⟨rfl, hr⟩ := h w r s hg hrest
  exact ⟨rfl, hr⟩

/-- the conditions of `Valid` on one map entry -/
structure ValidEntry (e : MapEntry) : Prop where
  key : Valid e.key
  value : Valid e.value
  encoded : e.encodedKey = wire e.key
  keyFits : e.encodedKey.length ≤ u32Max
  valueFits : (wire e.value).length ≤ u32Max

theorem reads_entry {e : MapEntry} (he : ValidEntry e) (hk : Reads wire Valid e.key)
    (hv : Reads wire Valid e.value) : Reads wireEntry ValidEntry e := by
  intro e' r s he' h
  simp only [wireEntry, List.append_assoc] at h
  obtain ⟨hkey, hrest⟩ := read_blob he.keyFits he'.keyFits h
  obtain ⟨hvalue, hr⟩ := read_blob he.valueFits he'.valueFits hrest
  have hk' : e.key = e'.key := hk.inj he'.key (by rw [← he.encoded, ← he'.encoded, hkey])
  have hv' : e.value = e'.value := hv.inj he'.value hvalue
  refine ⟨?_, hr⟩
  rw [← e.mk_eta, ← e'.mk_eta, hkey, hk', hv']

/-- entries of a valid map are valid -/
theorem Valid.entry (h : Valid (.map entries)) : ∀ e ∈ entries, ValidEntry e := by
  cases h with
  | map _ _ hkey hvalue henc hfit =>
    exact fun e he => ⟨hkey e he, hvalue e he, (henc e he).1, (henc e he).2, hfit e he⟩

/-- the kind of value that a leading tag announces -/
def kindOfTag (tag : UInt8) : Option ValueKind :=
  match tag with
  | 0x00 => some .unit
  | 0x01 | 0x02 => some .bool
  | 0x03 => some .u128
  | 0x04 => some .i128
  | 0x05 => some .bytes
  | 0x06 => some .text
  | 0x07 => some .enum
  | 0x08 => some .tuple
  | 0x09 => some .record
  | 0x0a => some .sum
  | 0x0b => some .vector
  | 0x0c => some .map
  | _ => none

/-- the first byte tells the kind -/
theorem wire_head (v : Value) : ∃ tag body, wire v = tag :: body ∧ kindOfTag tag = some v.kind := by
  cases v with
  | bool b => cases b <;> exact ⟨_, _, rfl, rfl⟩
  | sum t w payload => cases payload <;> exact ⟨_, _, rfl, rfl⟩
  | _ => exact ⟨_, _, rfl, rfl⟩

theorem kind_eq {v w : Value} (h : wire v ++ r = wire w ++ s) : v.kind = w.kind := by
  obtain ⟨a, bv, hv, ka⟩ := wire_head v
  obtain ⟨b, bw, hw, kb⟩ := wire_head w
  rw [hv, hw, List.cons_append, List.cons_append, List.cons.injEq] at h
  rw [h.1, kb] at ka
  exact (Option.some.inj ka).symm

/-- **ZCVE/1 is a prefix code.** In front of any string, the encoding of a valid value is the encoding of no other
valid value. -/
theorem wire_reads {v : Value} (hv : Valid v) : Reads wire Valid v := by
  induction v with
  | unit =>
    intro w r s hw h
    have hkind := kind_eq h
    cases hw with
    | unit => exact ⟨rfl, by simpa [wire] using h⟩
    | _ => cases hkind
  | bool b =>
    intro w r s hw h
    have hkind := kind_eq h
    cases hw with
    | bool c =>
      cases b <;> cases c <;> simp_all [wire, tagBoolFalse, tagBoolTrue]
    | _ => cases hkind
  | u128 n =>
    intro w r s hw h
    have hkind := kind_eq h
    cases hw with
    | u128 m =>
      simp only [wire, List.cons_append, List.cons.injEq, true_and] at h
      obtain ⟨rfl, hr⟩ := read_u128 h
      exact ⟨rfl, hr⟩
    | _ => cases hkind
  | i128 n =>
    intro w r s hw h
    have hkind := kind_eq h
    cases hw with
    | i128 m =>
      simp only [wire, List.cons_append, List.cons.injEq, true_and] at h
      obtain ⟨hbits, hr⟩ := read_u128 h
      exact ⟨congrArg Value.i128 (signedToBits_inj hbits), hr⟩
    | _ => cases hkind
  | bytes a =>
    intro w r s hw h
    have hkind := kind_eq h
    cases hv with
    | bytes ha =>
    cases hw with
    | bytes hb =>
      simp only [wire, List.cons_append, List.cons.injEq, true_and] at h
      obtain ⟨rfl, hr⟩ := read_blob ha hb h
      exact ⟨rfl, hr⟩
    | _ => cases hkind
  | text a =>
    intro w r s hw h
    have hkind := kind_eq h
    cases hv with
    | text _ ha =>
    cases hw with
    | text _ hb =>
      simp only [wire, List.cons_append, List.cons.injEq, true_and] at h
      obtain ⟨rfl, hr⟩ := read_blob ha hb h
      exact ⟨rfl, hr⟩
    | _ => cases hkind
  | enum t a =>
    intro w r s hw h
    have hkind := kind_eq h
    cases hw with
    | enum u b =>
      simp only [wire, List.cons_append, List.append_assoc, List.cons.injEq, true_and] at h
      obtain ⟨rfl, hrest⟩ := read_u32 h
      obtain ⟨rfl, hr⟩ := read_u16 hrest
      exact ⟨rfl, hr⟩
    | _ => cases hkind
  | tuple items ih =>
    intro w r s hw h
    have hkind := kind_eq h
    cases hv with
    | tuple hlen hs =>
    cases hw with
    | tuple hlen' hs' =>
      simp only [wire, List.cons_append, List.append_assoc, List.cons.injEq, true_and, wireItems_eq] at h
      obtain ⟨hcount, hrest⟩ := read_length hlen hlen' h
      obtain ⟨rfl, hr⟩ := Reads.flatMap hcount (fun v hv => ih v hv (hs v hv)) hs' hrest
      exact ⟨rfl, hr⟩
    | _ => cases hkind
  | record fields ih =>
    intro w r s hw h
    have hkind := kind_eq h
    cases hv with
    | record hlen _ hs =>
    cases hw with
    | record hlen' _ hs' =>
      simp only [wire, List.cons_append, List.append_assoc, List.cons.injEq, true_and, wireFields_eq] at h
      obtain ⟨hcount, hrest⟩ := read_length hlen hlen' h
      obtain ⟨rfl, hr⟩ := Reads.flatMap hcount (fun f hf => reads_field (ih f hf (hs f hf))) hs' hrest
      exact ⟨rfl, hr⟩
    | _ => cases hkind
  | sum t a payload ih =>
    intro w r s hw h
    have hkind := kind_eq h
    cases hv with
    | sum _ _ hp =>
    cases hw with
    | @sum u b payload' hp' =>
      cases payload <;> cases payload' <;>
        simp only [wire, List.cons_append, List.append_assoc, List.cons.injEq, true_and, List.nil_append] at h <;>
        obtain ⟨rfl, hrest⟩ := read_u32 h <;> obtain ⟨rfl, hflag⟩ := read_u16 hrest <;>
        simp only [List.cons.injEq, true_and] at hflag
      · exact ⟨rfl, hflag⟩
      · exact absurd hflag.1 (by decide)
      · exact absurd hflag.1 (by decide)
      · rename_i v v'
        obtain ⟨rfl, hr⟩ := ih v rfl (hp v rfl) v' r s (hp' v' rfl) hflag
        exact ⟨rfl, hr⟩
    | _ => cases hkind
  | vector items ih =>
    intro w r s hw h
    have hkind := kind_eq h
    cases hv with
    | vector hlen hs =>
    cases hw with
    | vector hlen' hs' =>
      simp only [wire, List.cons_append, List.append_assoc, List.cons.injEq, true_and, wireItems_eq] at h
      obtain ⟨hcount, hrest⟩ := read_length hlen hlen' h
      obtain ⟨rfl, hr⟩ := Reads.flatMap hcount (fun v hv => ih v hv (hs v hv)) hs' hrest
      exact ⟨rfl, hr⟩
    | _ => cases hkind
  | map entries ih =>
    intro w r s hw h
    have hkind := kind_eq h
    have hentry := hv.entry
    cases hv with
    | map hlen _ hkey hvalue _ _ =>
    have hentry' := fun es (e : w = .map es) => Valid.entry (e ▸ hw)
    cases hw with
    | map hlen' _ _ _ _ _ =>
      simp only [wire, List.cons_append, List.append_assoc, List.cons.injEq, true_and, wireEntries_eq] at h
      obtain ⟨hcount, hrest⟩ := read_length hlen hlen' h
      obtain ⟨rfl, hr⟩ := Reads.flatMap hcount
        (fun e he => reads_entry (hentry e he) ((ih e he).1 (hkey e he)) ((ih e he).2 (hvalue e he)))
        (hentry' _ rfl) hrest
      exact ⟨rfl, hr⟩
    | _ => cases hkind

end ZenoFcis
