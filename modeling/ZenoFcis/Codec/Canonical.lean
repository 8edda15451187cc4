/-
The decoder reads exactly the wire format of the values that the validator admits, with the validator's own counters
(`decodeValueInner_parses`). The proof is one iff per loop, by induction on the levels of nesting left:
- left to right, whatever the parser accepts is valid, is its own canonical encoding and passes validation, so neither
  re-encode check can fire (`decodeValueInner_noAlias`);
- right to left, a valid admitted value is read back, with the same nodes, payload bytes and depth.
-/
import ZenoFcis.Codec.Cursor

namespace ZenoFcis

open Lib Lib.Except DecodeState

/-! ## What validation charges, node by node -/

section Charges

variable {d : ℕ} {s s' : DecodeState}

/-- what is charged stands within the depth limit -/
theorem DecodeState.Charges.validateValue_depth {v : Value} (h : Charges (validateValue v d) s s') :
    d ≤ s.limits.effectiveMaxDepth.toNat := by
  have hm := h.metrics
  have henter : ∃ m, enterValue d s.limits s.metrics = .ok m := by
    cases v with
    | sum t w payload =>
      cases payload <;> simp only [validateValue, bind_eq_ok] at hm
      · exact ⟨_, hm⟩
      · exact ⟨_, hm.choose_spec.1⟩
    | bytes | text | tuple | record | vector | map =>
      simp only [validateValue, bind_eq_ok] at hm
      exact ⟨_, hm.choose_spec.1⟩
    | _ => exact ⟨_, hm⟩
  obtain ⟨m, hm⟩ := henter
  exact (enterValue_eq_ok.1 hm).1

variable {items : List Value} {entries : List MapEntry}
  {f : ℕ → ValueLimits → ValueMetrics → Except ValueError ValueMetrics}

/-- items are charged one after another -/
theorem charges_items_cons {v : Value} : Charges (validateItems (v :: items) d) s s' ↔
    ∃ s1, Charges (validateValue v d) s s1 ∧ Charges (validateItems items d) s1 s' :=
  charges_bind

/-- fields are charged one after another -/
theorem charges_fields_cons {i : UInt16} {v : Value} {fields : List Field} :
    Charges (validateFields (.mk i v :: fields) d) s s' ↔
      ∃ s1, Charges (validateValue v d) s s1 ∧ Charges (validateFields fields d) s1 s' :=
  charges_bind

/-- an entry is charged for its two byte lengths, its key and its value -/
theorem charges_entries_cons {b : Bytes} {k v : Value} {n : ℕ}
    (hn : encodedLength v = .ok n) :
    Charges (validateEntries (.mk b k v :: entries) d) s s' ↔
      ∃ s1 s2 s3 s4, Charges (addPayload b.length) s s1 ∧ Charges (addPayload n) s1 s2 ∧
        Charges (validateValue k d) s2 s3 ∧ Charges (validateValue v d) s3 s4 ∧
        Charges (validateEntries entries d) s4 s' := by
  have hdef : validateEntries (.mk b k v :: entries) d = fun l m => addPayload b.length l m >>=
      fun m => addPayload n l m >>= fun m => validateValue k d l m >>= fun m => validateValue v d l m >>=
        fun m => validateEntries entries d l m := by
    funext l m
    rw [validateEntries, hn]
    rfl
  rw [hdef, charges_bind]
  simp only [charges_bind (f := addPayload n), charges_bind (f := validateValue k d),
    charges_bind (f := validateValue v d)]
  constructor
  · rintro ⟨s1, h1, s2, h2, s3, h3, s4, h4, h5⟩
    exact ⟨s1, s2, s3, s4, h1, h2, h3, h4, h5⟩
  · rintro ⟨s1, s2, s3, s4, h1, h2, h3, h4, h5⟩
    exact ⟨s1, h1, s2, h2, s3, h3, s4, h4, h5⟩

/-- a check of the limits is charged to nothing -/
theorem charges_guard {f : ValueLimits → ValueMetrics → Except ValueError ValueMetrics} {P : ValueLimits → Prop}
    {check : ValueLimits → Except ValueError Unit} (hcheck : ∀ l u, check l = .ok u ↔ P l) :
    Charges (fun l m => check l >>= fun _ => f l m) s s' ↔ P s.limits ∧ Charges f s s' := by
  constructor
  · rintro ⟨hl, hm⟩
    obtain ⟨u, hu, hm⟩ := bind_eq_ok.1 hm
    exact ⟨(hcheck _ u).1 hu, hl, hm⟩
  · rintro ⟨hp, hl, hm⟩
    exact ⟨hl, bind_eq_ok.2 ⟨(), (hcheck _ _).2 hp, hm⟩⟩

/-- a child is charged one level deeper -/
theorem charges_child :
    Charges (fun l m => checkedAdd u32Max d 1 .arithmeticOverflow >>= fun d => f d l m) s s' ↔
      d + 1 ≤ u32Max ∧ Charges (f (d + 1)) s s' := by
  constructor
  · rintro ⟨hl, hm⟩
    obtain ⟨_, ha, hm⟩ := bind_eq_ok.1 hm
    obtain ⟨hle, rfl⟩ := checkedAdd_eq_ok.1 ha
    exact ⟨hle, hl, hm⟩
  · rintro ⟨hle, hl, hm⟩
    exact ⟨hl, bind_eq_ok.2 ⟨_, checkedAdd_eq_ok.2 ⟨hle, rfl⟩, hm⟩⟩

/-- a collection of `n` children under a further condition: enter, count, order, then the children -/
theorem charges_node {n : ℕ} {P : Prop}
    (check : Except ValueError Unit) (hcheck : ∀ u, check = .ok u ↔ P) :
    Charges (fun l m => enterValue d l m >>= fun m => validateCollectionLen n l >>= fun _ => check >>= fun _ =>
        checkedAdd u32Max d 1 .arithmeticOverflow >>= fun d => f d l m) s s' ↔
      ∃ s1, Charges (enterValue d) s s1 ∧ n ≤ s1.limits.maxCollectionLen.toNat ∧ P ∧ d + 1 ≤ u32Max ∧
        Charges (f (d + 1)) s1 s' := by
  rw [charges_bind]
  refine exists_congr fun s1 => and_congr_right fun _ => ?_
  rw [charges_guard (fun l u => validateCollectionLen_eq_ok), charges_guard (fun _ u => hcheck u), charges_child]

/-- what a tuple is charged -/
theorem charges_tuple : Charges (validateValue (.tuple items) d) s s' ↔
    ∃ s1, Charges (enterValue d) s s1 ∧ items.length ≤ s1.limits.maxCollectionLen.toNat ∧ True ∧ d + 1 ≤ u32Max ∧
      Charges (validateItems items (d + 1)) s1 s' :=
  charges_node (.ok ()) (by simp)

/-- what a vector is charged -/
theorem charges_vector : Charges (validateValue (.vector items) d) s s' ↔
    ∃ s1, Charges (enterValue d) s s1 ∧ items.length ≤ s1.limits.maxCollectionLen.toNat ∧ True ∧ d + 1 ≤ u32Max ∧
      Charges (validateItems items (d + 1)) s1 s' :=
  charges_node (.ok ()) (by simp)

/-- what a record is charged -/
theorem charges_record {fields : List Field} : Charges (validateValue (.record fields) d) s s' ↔
    ∃ s1, Charges (enterValue d) s s1 ∧ fields.length ≤ s1.limits.maxCollectionLen.toNat ∧ FieldsOrdered fields ∧
      d + 1 ≤ u32Max ∧ Charges (validateFields fields (d + 1)) s1 s' :=
  charges_node _ fun _ => ensureStrictFields_eq_ok

/-- what a map is charged -/
theorem charges_map : Charges (validateValue (.map entries) d) s s' ↔
    ∃ s1, Charges (enterValue d) s s1 ∧ entries.length ≤ s1.limits.maxCollectionLen.toNat ∧ KeysOrdered entries ∧
      d + 1 ≤ u32Max ∧ Charges (validateEntries entries (d + 1)) s1 s' :=
  charges_node _ fun _ => ensureStrictMapKeys_eq_ok

/-- what a sum with a payload is charged -/
theorem charges_some {t : UInt32} {w : UInt16} {v : Value} : Charges (validateValue (.sum t w (some v)) d) s s' ↔
    ∃ s1, Charges (enterValue d) s s1 ∧ d + 1 ≤ u32Max ∧ Charges (validateValue v (d + 1)) s1 s' := by
  refine charges_bind.trans (exists_congr fun s1 => and_congr_right fun _ => ?_)
  exact charges_child (f := validateValue v)

/-- what a byte string is charged -/
theorem charges_bytes {b : Bytes} : Charges (validateValue (.bytes b) d) s s' ↔
    ∃ s1, Charges (enterValue d) s s1 ∧ Charges (addPayload b.length) s1 s' :=
  charges_bind

/-- what a text is charged -/
theorem charges_text {t : Bytes} (h : isAscii t = true) : Charges (validateValue (.text t) d) s s' ↔
    ∃ s1, Charges (enterValue d) s s1 ∧ Charges (addPayload t.length) s1 s' := by
  have hdef : validateValue (.text t) d = fun l m => enterValue d l m >>= fun m => addPayload t.length l m := by
    funext l m
    simp [validateValue, h]
  rw [hdef, charges_bind]

/-- what is admitted at depth `d` on a partly spent budget is admitted at depth zero on a fresh one -/
theorem DecodeState.Charges.validateLimits {v : Value} (h : Charges (validateValue v d) s s') :
    ∃ m, v.validateLimits s.limits = .ok m := by
  obtain ⟨m, hm, _⟩ := validateValue_mono v h.metrics (Nat.zero_le d)
    (⟨Nat.zero_le _, Nat.zero_le _⟩ : Below ⟨0, 0, 0⟩ s.metrics)
  exact ⟨m, hm⟩

/-- a value that was charged in full has canonical bytes under the same limits -/
theorem DecodeState.Charges.canonical {v : Value} (h : Charges (validateValue v d) s s') (hv : Valid v)
    (hlen : (wire v).length ≤ usizeMax) : v.zcveBytesWithLimits s'.limits = .ok (wire v) :=
  hv.zcveBytesWithLimits.2 ⟨h.limits ▸ h.validateLimits, rfl, hlen⟩

end Charges

/-! ## The loops -/

/-- `inner` reads exactly the wire format of the valid values admitted at depth `d` -/
def Parses (inner : ValueDecoder) (d : ℕ) : Prop :=
  ∀ ⦃c s v c' s'⦄, c.Fits → (inner c s = .ok (v, c', s') ↔
    Valid v ∧ c.Consumes (wire v) c' ∧ Charges (validateValue v d) s s')

/-- a failure that reports no alias: neither re-encode check fired -/
def NoAlias {α : Type} (r : Except DecodeError α) : Prop :=
  ∀ e, r = .error e → e ≠ .nonCanonical ∧ ∀ x, e ≠ .encode x

section NoAlias

variable {α β : Type}

theorem NoAlias.ok (a : α) : NoAlias (.ok a) := fun _ h => nomatch h

theorem NoAlias.error {e : DecodeError} (hn : e ≠ .nonCanonical) (hx : ∀ x, e ≠ .encode x) :
    NoAlias (.error e : Except DecodeError α) := by
  rintro _ ⟨⟩
  exact ⟨hn, hx⟩

theorem NoAlias.bind {x : Except DecodeError α} {f : α → Except DecodeError β} (hx : NoAlias x)
    (hf : ∀ a, x = .ok a → NoAlias (f a)) : NoAlias (x >>= f) := by
  intro e he
  rcases bind_eq_error.1 he with he | ⟨a, ha, he⟩
  · exact hx e he
  · exact hf a ha e he

/-- a refused value is no alias -/
theorem NoAlias.invalidValue (x : Except ValueError α) : NoAlias (x.mapError .invalidValue) := by
  intro e he
  obtain ⟨_, _, rfl⟩ := mapError_eq_error.1 he
  simp

/-- a sum that overflows is no alias -/
theorem checkedAdd_noAlias (max a b : ℕ) : NoAlias (checkedAdd max a b .lengthOverflow) := by
  unfold checkedAdd
  split_ifs
  · exact .ok _
  · exact .error (by simp) (by simp)

theorem take_noAlias (c : Cursor) (n : ℕ) : NoAlias (c.take n) := by
  refine (checkedAdd_noAlias _ _ _).bind fun _ _ => ?_
  split_ifs
  · exact .ok _
  · exact .error (by simp) (by simp)

theorem takeU8_noAlias (c : Cursor) : NoAlias c.takeU8 := (take_noAlias c 1).bind fun _ _ => .ok _

theorem takeU16_noAlias (c : Cursor) : NoAlias c.takeU16 := (take_noAlias c 2).bind fun _ _ => .ok _

theorem takeU32_noAlias (c : Cursor) : NoAlias c.takeU32 := (take_noAlias c 4).bind fun _ _ => .ok _

theorem takeBlob_noAlias (c : Cursor) (maximum : ℕ) : NoAlias (c.takeBlob maximum) := by
  refine (takeU32_noAlias c).bind fun ⟨length, c'⟩ _ => ?_
  dsimp only
  split_ifs
  · exact .error (by simp) (by simp)
  · exact take_noAlias _ _

theorem enter_noAlias (s : DecodeState) (d : ℕ) : NoAlias (s.enter d) := by
  unfold enter
  split_ifs
  · exact .error (by simp) (by simp)
  · refine (checkedAdd_noAlias _ _ _).bind fun _ _ => ?_
    split_ifs
    · exact .error (by simp) (by simp)
    · exact .ok _

theorem payload_noAlias (s : DecodeState) (n : ℕ) : NoAlias (s.payload n) := by
  refine (checkedAdd_noAlias _ _ _).bind fun _ _ => ?_
  split_ifs
  · exact .error (by simp) (by simp)
  · exact .ok _

theorem collection_noAlias (s : DecodeState) (n : ℕ) : NoAlias (s.collection n) := by
  unfold collection
  split_ifs
  · exact .error (by simp) (by simp)
  · exact .ok _

end NoAlias

section Loops

variable {inner : ValueDecoder} {d n : ℕ} {c c' : Cursor} {s s' : DecodeState} {b : Bytes} {v : Value}

section

variable (h : Parses inner d)

include h

/-- a complete input is one value and nothing behind it -/
theorem decodeCompleteWith_eq_ok (hb : b.length ≤ usizeMax) :
    decodeCompleteWith inner b s = .ok (v, s') ↔ Valid v ∧ b = wire v ∧ Charges (validateValue v d) s s' := by
  have hfits : (Cursor.new b).Fits := hb
  simp only [decodeCompleteWith, bind_eq_ok, Prod.exists, h hfits]
  constructor
  · rintro ⟨v1, c1, s1, ⟨hv, hc, hs⟩, hrest⟩
    split_ifs at hrest with hrem
    obtain ⟨canonical, hcan, hrest⟩ := bind_eq_ok.1 hrest
    split_ifs at hrest
    simp only [pure_eq, Except.ok.injEq, Prod.mk.injEq] at hrest
    obtain ⟨rfl, rfl⟩ := hrest
    have hwire := hc.unread
    rw [Cursor.remaining_eq_zero.1 (not_not.1 hrem), List.append_nil, Cursor.unread_new] at hwire
    exact ⟨hv, hwire, hs⟩
  · rintro ⟨hv, rfl, hs⟩
    obtain ⟨c1, hc, hrem⟩ := Cursor.exists_consumes (c := .new (wire v)) (List.append_nil _).symm
    refine ⟨v, c1, s', ⟨hv, hc, hs⟩, ?_⟩
    rw [if_neg (not_not.2 (Cursor.remaining_eq_zero.2 hrem))]
    simp only [canonicalValueBytesWithLimits, hs.canonical hv hb, Except.mapError, ok_bind, ne_eq, not_true_eq_false,
      if_false, pure_eq]

/-- complete inputs give no alias -/
theorem decodeCompleteWith_noAlias (hn : ∀ {c s}, c.Fits → NoAlias (inner c s)) (hb : b.length ≤ usizeMax) :
    NoAlias (decodeCompleteWith inner b s) := by
  have hfits : (Cursor.new b).Fits := hb
  refine (hn hfits).bind fun ⟨v, c', s'⟩ hok => ?_
  obtain ⟨hv, hc, hs⟩ := (h hfits).1 hok
  dsimp only
  split_ifs with hrem
  · exact .error (by simp) (by simp)
  -- the whole slice is consumed: it is the canonical encoding, and that is what re-encoding returns
  · have hwire := hc.unread
    rw [Cursor.remaining_eq_zero.1 (not_not.1 hrem), List.append_nil, Cursor.unread_new] at hwire
    subst hwire
    simp only [canonicalValueBytesWithLimits, hs.canonical hv hb, Except.mapError, ok_bind, ne_eq, not_true_eq_false,
      if_false]
    exact .ok _

/-- the loop reads as many items as it is told, and charges each of them -/
theorem decodeItemsLoop_eq_ok {items : List Value} (hc : c.Fits) :
    decodeItemsLoop inner n c s = .ok (items, c', s') ↔
      items.length = n ∧ (∀ v ∈ items, Valid v) ∧ c.Consumes (wireItems items) c' ∧
        Charges (validateItems items d) s s' := by
  induction n generalizing c s items with
  | zero =>
    simp only [decodeItemsLoop, Except.ok.injEq, Prod.mk.injEq, List.length_eq_zero_iff]
    constructor
    · rintro ⟨rfl, rfl, rfl⟩
      exact ⟨rfl, by simp, Cursor.Consumes.nil_iff.2 rfl, charges_ok.2 rfl⟩
    · rintro ⟨rfl, _, hc', hs⟩
      exact ⟨rfl, (Cursor.Consumes.nil_iff.1 hc').symm, (charges_ok.1 hs).symm⟩
  | succ n ih =>
    simp only [decodeItemsLoop, bind_eq_ok, Prod.exists, h hc, pure_eq, Except.ok.injEq, Prod.mk.injEq]
    constructor
    · rintro ⟨v, c1, s1, ⟨hv, hc1, hs1⟩, vs, c2, s2, hrest, rfl, rfl, rfl⟩
      obtain ⟨hlen, hvs, hc2, hs2⟩ := (ih (hc1.fits hc)).1 hrest
      exact ⟨by simp [hlen], by simpa [hv] using hvs, hc1.trans hc2, charges_items_cons.2 ⟨s1, hs1, hs2⟩⟩
    · rintro ⟨hlen, hvs, hc', hs⟩
      obtain ⟨v, vs, rfl⟩ := List.exists_cons_of_length_eq_add_one hlen
      obtain ⟨c1, hc1, hc2⟩ := Cursor.consumes_append.1 hc'
      obtain ⟨s1, hs1, hs2⟩ := charges_items_cons.1 hs
      refine ⟨v, c1, s1, ⟨hvs v List.mem_cons_self, hc1, hs1⟩, vs, c', s', ?_, rfl, rfl, rfl⟩
      exact (ih (hc1.fits hc)).2 ⟨by simpa using hlen, fun w hw => hvs w (List.mem_cons_of_mem _ hw), hc2, hs2⟩

/-- the loop over items gives no alias -/
theorem decodeItemsLoop_noAlias (hn : ∀ {c s}, c.Fits → NoAlias (inner c s)) (hc : c.Fits) :
    NoAlias (decodeItemsLoop inner n c s) := by
  induction n generalizing c s with
  | zero => exact .ok _
  | succ n ih =>
    refine (hn hc).bind fun ⟨v, c1, s1⟩ h1 => ?_
    exact (ih (((h hc).1 h1).2.1.fits hc)).bind fun _ _ => .ok _

/-- the loop reads fields in strict order, and charges each of them -/
theorem decodeFieldsLoop_eq_ok {previous : Option UInt16} {fields : List Field} (hc : c.Fits) :
    decodeFieldsLoop inner n previous c s = .ok (fields, c', s') ↔
      fields.length = n ∧ (∀ f ∈ fields, Valid f.value) ∧ (∀ p ∈ previous, ∀ f ∈ fields.head?, p < f.id) ∧
        FieldsOrdered fields ∧ c.Consumes (wireFields fields) c' ∧ Charges (validateFields fields d) s s' := by
  induction n generalizing c s previous fields with
  | zero =>
    simp only [decodeFieldsLoop, Except.ok.injEq, Prod.mk.injEq, List.length_eq_zero_iff]
    constructor
    · rintro ⟨rfl, rfl, rfl⟩
      exact ⟨rfl, by simp, by simp, List.IsChain.nil, Cursor.Consumes.nil_iff.2 rfl, charges_ok.2 rfl⟩
    · rintro ⟨rfl, _, _, _, hc', hs⟩
      exact ⟨rfl, (Cursor.Consumes.nil_iff.1 hc').symm, (charges_ok.1 hs).symm⟩
  | succ n ih =>
    simp only [decodeFieldsLoop, bind_eq_ok, Prod.exists, Cursor.takeU16_eq_ok hc]
    constructor
    · rintro ⟨i, c1, hc1, hrest⟩
      split_ifs at hrest with hprev
      simp only [bind_eq_ok, Prod.exists, h (hc1.fits hc), pure_eq, Except.ok.injEq, Prod.mk.injEq] at hrest
      obtain ⟨v, c2, s2, ⟨hv, hc2, hs2⟩, fs, c3, s3, hloop, rfl, rfl, rfl⟩ := hrest
      obtain ⟨hlen, hfs, hhead, hord, hc3, hs3⟩ := (ih (hc2.fits (hc1.fits hc))).1 hloop
      refine ⟨by simp [hlen], by simpa [hv] using hfs, ?_, List.isChain_cons.2 ⟨hhead i rfl, hord⟩,
        (hc1.trans hc2).trans hc3, charges_fields_cons.2 ⟨s2, hs2, hs3⟩⟩
      rintro p rfl f ⟨⟩
      simpa using hprev
    · rintro ⟨hlen, hfs, hprev, hord, hc', hs⟩
      obtain ⟨⟨i, v⟩, fs, rfl⟩ := List.exists_cons_of_length_eq_add_one hlen
      obtain ⟨c2, hc2', hc3⟩ := Cursor.consumes_append.1 hc'
      obtain ⟨c1, hc1, hc2⟩ := Cursor.consumes_append.1 hc2'
      obtain ⟨s2, hs2, hs3⟩ := charges_fields_cons.1 hs
      obtain ⟨hhead, hord'⟩ := List.isChain_cons.1 hord
      refine ⟨i, c1, hc1, ?_⟩
      rw [if_neg]
      · simp only [bind_eq_ok, Prod.exists, h (hc1.fits hc), pure_eq, Except.ok.injEq, Prod.mk.injEq]
        refine ⟨v, c2, s2, ⟨hfs _ List.mem_cons_self, hc2, hs2⟩, fs, c', s', ?_, rfl, rfl, rfl⟩
        refine (ih (hc2.fits (hc1.fits hc))).2
          ⟨by simpa using hlen, fun g hg => hfs g (List.mem_cons_of_mem _ hg), ?_, hord', hc3, hs3⟩
        rintro p ⟨⟩
        exact hhead
      · cases previous with
        | none => simp
        | some p => simpa using hprev p rfl (.mk i v) rfl

/-- the loop over fields gives no alias -/
theorem decodeFieldsLoop_noAlias (hn : ∀ {c s}, c.Fits → NoAlias (inner c s)) {previous : Option UInt16} (hc : c.Fits) :
    NoAlias (decodeFieldsLoop inner n previous c s) := by
  induction n generalizing c s previous with
  | zero => exact .ok _
  | succ n ih =>
    refine (takeU16_noAlias c).bind fun ⟨i, c1⟩ h1 => ?_
    have hc1 := ((Cursor.takeU16_eq_ok hc).1 h1).fits hc
    dsimp only
    split_ifs
    · exact .error (by simp) (by simp)
    · refine (hn hc1).bind fun ⟨v, c2, s2⟩ h2 => ?_
      exact (ih (((h hc1).1 h2).2.1.fits hc1)).bind fun _ _ => .ok _

/-- the loop reads entries in strict order of their keys, and charges each of them -/
theorem decodeEntriesLoop_eq_ok {previous : Option Bytes} {entries : List MapEntry} (hc : c.Fits) :
    decodeEntriesLoop inner n previous c s = .ok (entries, c', s') ↔
      entries.length = n ∧ (∀ e ∈ entries, ValidEntry e) ∧
        (∀ p ∈ previous, ∀ e ∈ entries.head?, bytesBefore p e.encodedKey = true) ∧ KeysOrdered entries ∧
        c.Consumes (wireEntries entries) c' ∧ Charges (validateEntries entries d) s s' := by
  induction n generalizing c s previous entries with
  | zero =>
    simp only [decodeEntriesLoop, Except.ok.injEq, Prod.mk.injEq, List.length_eq_zero_iff]
    constructor
    · rintro ⟨rfl, rfl, rfl⟩
      exact ⟨rfl, by simp, by simp, List.IsChain.nil, Cursor.Consumes.nil_iff.2 rfl, charges_ok.2 rfl⟩
    · rintro ⟨rfl, _, _, _, hc', hs⟩
      exact ⟨rfl, (Cursor.Consumes.nil_iff.1 hc').symm, (charges_ok.1 hs).symm⟩
  | succ n ih =>
    simp only [decodeEntriesLoop, bind_eq_ok, Prod.exists, Cursor.takeBlob_eq_ok hc, payload_eq_ok]
    constructor
    · rintro ⟨b, c1, ⟨_, hb, hc1⟩, s1, hs1, hrest⟩
      have hf1 := hc1.fits hc
      split_ifs at hrest with hprev
      simp only [bind_eq_ok, Prod.exists, Cursor.takeBlob_eq_ok hf1, payload_eq_ok,
        decodeCompleteWith_eq_ok h (le_trans hb (by decide)), mapError_eq_ok] at hrest
      obtain ⟨b', c2, ⟨_, hb', hc2⟩, s2, hs2, k, s3, ⟨hk, rfl, hs3⟩, v, s4, hval, e, hentry, hrest⟩ := hrest
      obtain ⟨hv, rfl, hs4⟩ := (decodeCompleteWith_eq_ok h (le_trans hb' (by decide))).1 hval
      obtain ⟨rfl, _⟩ := tryNewWithLimits_valid hk hentry
      rw [if_neg (by simp)] at hrest
      simp only [bind_eq_ok, Prod.exists, pure_eq, Except.ok.injEq, Prod.mk.injEq] at hrest
      obtain ⟨es, c3, s5, hloop, rfl, rfl, rfl⟩ := hrest
      obtain ⟨hlen, hes, hhead, hord, hc3, hs5⟩ := (ih (hc2.fits hf1)).1 hloop
      have he : ValidEntry (.mk (wire k) k v) := ⟨hk, hv, rfl, hb, hb'⟩
      refine ⟨by simp [hlen], ?_, ?_, List.isChain_cons.2 ⟨hhead _ rfl, hord⟩, (hc1.trans hc2).trans hc3, ?_⟩
      · rintro g (_ | ⟨_, hg⟩)
        · exact he
        · exact hes g hg
      · rintro p rfl g ⟨⟩
        simpa using hprev
      · exact (charges_entries_cons (encodedLength_of_le hv (le_trans hb' (by decide)))).2
          ⟨s1, s2, s3, s4, hs1, hs2, hs3, hs4, hs5⟩
    · rintro ⟨hlen, hes, hprev, hord, hc', hs⟩
      obtain ⟨⟨b, k, v⟩, es, rfl⟩ := List.exists_cons_of_length_eq_add_one hlen
      obtain ⟨hk, hv, henc, hb, hb'⟩ := hes _ List.mem_cons_self
      simp only [MapEntry.key_mk, MapEntry.value_mk, MapEntry.encodedKey_mk] at hk hv henc hb hb'
      subst henc
      obtain ⟨c2, hc2', hc3⟩ := Cursor.consumes_append.1 hc'
      obtain ⟨c1, hc1, hc2⟩ := Cursor.consumes_append.1 hc2'
      have hf1 := hc1.fits hc
      obtain ⟨s1, s2, s3, s4, hs1, hs2, hs3, hs4, hs5⟩ :=
        (charges_entries_cons (encodedLength_of_le hv (le_trans hb' (by decide)))).1 hs
      obtain ⟨hhead, hord'⟩ := List.isChain_cons.1 hord
      have hpay1 := (addPayload_eq_ok.1 hs1.metrics).1
      have hpay2 := (addPayload_eq_ok.1 hs2.metrics).1
      refine ⟨wire k, c1, ⟨by omega, hb, hc1⟩, s1, hs1, ?_⟩
      rw [if_neg]
      · simp only [bind_eq_ok, Prod.exists, Cursor.takeBlob_eq_ok hf1, payload_eq_ok,
          decodeCompleteWith_eq_ok h (le_trans hb (by decide)), mapError_eq_ok]
        have hkey : k.zcveBytesWithLimits s4.limits = .ok (wire k) := by
          rw [hs4.limits]
          exact hs3.canonical hk (le_trans hb (by decide))
        have hentry : MapEntry.tryNewWithLimits k v s4.limits = .ok (.mk (wire k) k v) := by
          rw [MapEntry.tryNewWithLimits, hkey, ok_bind, (checkWireLength_eq_ok (u := ())).2 hb]
          rfl
        refine ⟨wire v, c2, ⟨by omega, hb', hc2⟩, s2, hs2, k, s3, ⟨hk, rfl, hs3⟩, v, s4,
          (decodeCompleteWith_eq_ok h (le_trans hb' (by decide))).2 ⟨hv, rfl, hs4⟩, _, hentry, ?_⟩
        rw [if_neg (by simp)]
        simp only [bind_eq_ok, Prod.exists, pure_eq, Except.ok.injEq, Prod.mk.injEq]
        refine ⟨es, c', s', ?_, rfl, rfl, rfl⟩
        refine (ih (hc2.fits hf1)).2
          ⟨by simpa using hlen, fun g hg => hes g (List.mem_cons_of_mem _ hg), ?_, hord', hc3, hs5⟩
        rintro p ⟨⟩
        exact hhead
      · cases previous with
        | none => simp
        | some p => simpa using hprev p rfl (.mk (wire k) k v) rfl

/-- the loop over entries gives no alias -/
theorem decodeEntriesLoop_noAlias (hn : ∀ {c s}, c.Fits → NoAlias (inner c s)) {previous : Option Bytes} (hc : c.Fits) :
    NoAlias (decodeEntriesLoop inner n previous c s) := by
  induction n generalizing c s previous with
  | zero => exact .ok _
  | succ n ih =>
    refine (takeBlob_noAlias c _).bind fun ⟨b, c1⟩ h1 => ?_
    obtain ⟨_, hb, hc1⟩ := (Cursor.takeBlob_eq_ok hc).1 h1
    have hf1 := hc1.fits hc
    refine (payload_noAlias s _).bind fun s1 _ => ?_
    dsimp only
    split_ifs
    · exact .error (by simp) (by simp)
    refine (takeBlob_noAlias c1 _).bind fun ⟨b', c2⟩ h2 => ?_
    obtain ⟨_, hb', hc2⟩ := (Cursor.takeBlob_eq_ok hf1).1 h2
    refine (payload_noAlias s1 _).bind fun s2 _ => ?_
    refine (decodeCompleteWith_noAlias h hn (le_trans hb (by decide))).bind fun ⟨k, s3⟩ h3 => ?_
    obtain ⟨hk, rfl, _⟩ := (decodeCompleteWith_eq_ok h (le_trans hb (by decide))).1 h3
    refine (decodeCompleteWith_noAlias h hn (le_trans hb' (by decide))).bind fun ⟨v, s4⟩ _ => ?_
    refine (NoAlias.invalidValue _).bind fun e he => ?_
    -- the entry derives its key bytes from the decoded key, which is what was read
    obtain ⟨rfl, _⟩ := tryNewWithLimits_valid hk (mapError_eq_ok.1 he)
    rw [if_neg (by simp)]
    exact (ih (hc2.fits hf1)).bind fun _ _ => .ok _

end

/-- `decode_items` is its loop -/
theorem decodeItems_eq (inner : ValueDecoder) (c : Cursor) (s : DecodeState) (n : ℕ) :
    decodeItems inner c s n = decodeItemsLoop inner n c s := by
  obtain ⟨r, hr⟩ := reservation_ok s n c.remaining (show 1 ≠ 0 by decide)
  rw [decodeItems, hr, ok_bind]

/-- `decode_fields` is its loop from no field -/
theorem decodeFields_eq (inner : ValueDecoder) (c : Cursor) (s : DecodeState) (n : ℕ) :
    decodeFields inner c s n = decodeFieldsLoop inner n none c s := by
  obtain ⟨r, hr⟩ := reservation_ok s n c.remaining (show 3 ≠ 0 by decide)
  rw [decodeFields, hr, ok_bind]

/-- `decode_entries` is its loop from no key -/
theorem decodeEntries_eq (inner : ValueDecoder) (c : Cursor) (s : DecodeState) (n : ℕ) :
    decodeEntries inner c s n = decodeEntriesLoop inner n none c s := by
  obtain ⟨r, hr⟩ := reservation_ok s n c.remaining (show 10 ≠ 0 by decide)
  rw [decodeEntries, hr, ok_bind]

end Loops

/-! ## One value -/

section Node

variable {child : ℕ → ValueDecoder} {d : ℕ} {c c' : Cursor} {s s' : DecodeState} {v : Value}

/-- a node is entered, then its tag is read, then its body -/
theorem decodeBody_eq_ok (hc : c.Fits) : decodeBody child d c s = .ok (v, c', s') ↔
    ∃ s1 tag c1, Charges (enterValue d) s s1 ∧ c.Consumes [tag] c1 ∧ decodeTagged child d tag c1 s1 = .ok (v, c',
      s') := by
  simp only [decodeBody, bind_eq_ok, Prod.exists, Cursor.takeU8_eq_ok hc, enter_eq_ok]
  constructor
  · rintro ⟨s1, hs1, tag, c1, hc1, h⟩
    exact ⟨s1, tag, c1, hs1, hc1, h⟩
  · rintro ⟨s1, tag, c1, hs1, hc1, h⟩
    exact ⟨s1, hs1, tag, c1, hc1, h⟩

/-- the four counted nodes: the count, the collection bound, one level down, `count` children, the constructor -/
theorem counted_eq_ok {α : Type}
    (loop : ℕ → Cursor → DecodeState → ℕ → Except DecodeError (List α × Cursor × DecodeState))
    (f : List α → ℕ → ValueLimits → ValueMetrics → Except ValueError ValueMetrics)
    {wrap : List α → Except ValueError Value} {mk : List α → Value} {P : List α → Prop} {w : List α → Bytes}
    (hc : c.Fits)
    (hloop : ∀ {c s n xs c' s'}, c.Fits → d + 1 ≤ u32Max → (loop (d + 1) c s n = .ok (xs, c', s') ↔
      xs.length = n ∧ P xs ∧ c.Consumes (w xs) c' ∧ Charges (f xs (d + 1)) s s'))
    (hwrap : ∀ {xs}, P xs → (wrap xs = .ok v ↔ xs.length ≤ u32Max ∧ v = mk xs)) :
    (do let (count, c) ← c.takeU32
        s.collection count.toNat
        let depth ← checkedAdd u32Max d 1 DecodeError.lengthOverflow
        let (xs, c, s) ← loop depth c s count.toNat
        let value ← (wrap xs).mapError .invalidValue
        return (value, c, s)) = .ok (v, c', s') ↔
      ∃ xs, v = mk xs ∧ xs.length ≤ u32Max ∧ P xs ∧ c.Consumes (beBytes 4 xs.length ++ w xs) c' ∧
        xs.length ≤ s.limits.maxCollectionLen.toNat ∧ d + 1 ≤ u32Max ∧ Charges (f xs (d + 1)) s s' := by
  simp only [bind_eq_ok, Prod.exists, Cursor.takeU32_eq_ok hc, collection_eq_ok, checkedAdd_eq_ok, mapError_eq_ok,
    pure_eq, Except.ok.injEq, Prod.mk.injEq]
  constructor
  · rintro ⟨n, c1, hc1, _, hn, _, ⟨hd, rfl⟩, xs, _, _, hxs, _, hv, rfl, rfl, rfl⟩
    obtain ⟨hlen, hp, hc2, hs⟩ := (hloop (hc1.fits hc) hd).1 hxs
    obtain ⟨hmax, rfl⟩ := (hwrap hp).1 hv
    rw [← hlen] at hc1 hn
    exact ⟨xs, rfl, hmax, hp, hc1.trans hc2, hn, hd, hs⟩
  · rintro ⟨xs, rfl, hmax, hp, hc', hn, hd, hs⟩
    obtain ⟨c1, hc1, hc2⟩ := Cursor.consumes_append.1 hc'
    have hcount : (UInt32.ofNat xs.length).toNat = xs.length := UInt32.toNat_ofNat_of_lt' (Nat.lt_succ_of_le hmax)
    refine ⟨UInt32.ofNat xs.length, c1, by rwa [hcount], (), by rwa [hcount], _, ⟨hd, rfl⟩, xs, c', s', ?_, mk xs,
      (hwrap hp).2 ⟨hmax, rfl⟩, rfl, rfl, rfl⟩
    exact (hloop (hc1.fits hc) hd).2 ⟨hcount.symm, hp, hc2, hs⟩

/-- a counted collection gives no alias -/
theorem counted_noAlias {α : Type}
    (loop : ℕ → Cursor → DecodeState → ℕ → Except DecodeError (List α × Cursor × DecodeState))
    {wrap : List α → Except ValueError Value} (hc : c.Fits)
    (hloop : ∀ {c s n}, c.Fits → d + 1 ≤ u32Max → NoAlias (loop (d + 1) c s n)) :
    NoAlias (do
      let (count, c) ← c.takeU32
      s.collection count.toNat
      let depth ← checkedAdd u32Max d 1 DecodeError.lengthOverflow
      let (xs, c, s) ← loop depth c s count.toNat
      let value ← (wrap xs).mapError .invalidValue
      return (value, c, s)) := by
  refine (takeU32_noAlias c).bind fun ⟨count, c1⟩ h1 => ?_
  refine (collection_noAlias s _).bind fun _ _ => ?_
  refine (checkedAdd_noAlias _ _ _).bind fun _ hadd => ?_
  obtain ⟨hd, rfl⟩ := checkedAdd_eq_ok.1 hadd
  refine (hloop (((Cursor.takeU32_eq_ok hc).1 h1).fits hc) hd).bind fun _ _ => ?_
  exact (NoAlias.invalidValue _).bind fun _ _ => .ok _

/-- the unit has no body -/
theorem decodeTagged_unit : decodeTagged child d 0x00 c s = .ok (.unit, c, s) := by
  simp only [decodeTagged]
  rfl

/-- a tuple is built from at most `u32::MAX` items -/
theorem tupleOf_eq_ok {items : List Value} : Value.tupleOf items = .ok v ↔ items.length ≤ u32Max ∧ v = .tuple items := by
  simp only [Value.tupleOf, bind_eq_ok, checkWireLength_eq_ok, pure_eq, Except.ok.injEq, exists_const, @eq_comm _ v]

/-- a vector is built from at most `u32::MAX` items -/
theorem vectorOf_eq_ok {items : List Value} :
    Value.vectorOf items = .ok v ↔ items.length ≤ u32Max ∧ v = .vector items := by
  simp only [Value.vectorOf, bind_eq_ok, checkWireLength_eq_ok, pure_eq, Except.ok.injEq, exists_const, @eq_comm _ v]

/-- a record is built from ordered fields -/
theorem recordCanonical_eq_ok {fields : List Field} (hord : FieldsOrdered fields) :
    Value.recordCanonical fields = .ok v ↔ fields.length ≤ u32Max ∧ v = .record fields := by
  simp only [Value.recordCanonical, bind_eq_ok, checkWireLength_eq_ok, ensureStrictFields_eq_ok, hord, pure_eq,
    Except.ok.injEq, exists_const, true_and, @eq_comm _ v]

/-- a map is built from ordered entries -/
theorem mapCanonical_eq_ok {entries : List MapEntry} (hs : ∀ e ∈ entries, ValidEntry e) (hord : KeysOrdered entries) :
    Value.mapCanonical entries = .ok v ↔ entries.length ≤ u32Max ∧ v = .map entries := by
  have hvalues := checkEntryValues_of (fun e he => (hs e he).value) fun e he => (hs e he).valueFits
  simp only [Value.mapCanonical, bind_eq_ok, checkWireLength_eq_ok, ensureStrictMapKeys_eq_ok, hord, hvalues, pure_eq,
    Except.ok.injEq, exists_const, true_and, @eq_comm _ v]

/-- ASCII is UTF-8 -/
theorem isUtf8_of_ascii {b : Bytes} (h : isAscii b = true) : isUtf8 b = true := by
  induction b with
  | nil => rfl
  | cons a b ih =>
    simp only [isAscii, List.all_cons, Bool.and_eq_true, decide_eq_true_eq] at h
    rw [isUtf8.eq_def]
    simp only [show a < 0x80 from h.1, if_true]
    exact ih h.2

theorem fromUtf8_of_ascii {b : Bytes} (h : isAscii b = true) : fromUtf8 b = .ok b := by
  rw [fromUtf8, if_pos (isUtf8_of_ascii h)]

variable (h : d + 1 ≤ u32Max → Parses (child (d + 1)) (d + 1))
include h

/-- the body of a tuple -/
theorem decodeTagged_tuple (hc : c.Fits) : decodeTagged child d 0x08 c s = .ok (v, c', s') ↔
    ∃ items, v = .tuple items ∧ items.length ≤ u32Max ∧ (∀ v ∈ items, Valid v) ∧
      c.Consumes (beBytes 4 items.length ++ wireItems items) c' ∧ items.length ≤ s.limits.maxCollectionLen.toNat ∧
      d + 1 ≤ u32Max ∧ Charges (validateItems items (d + 1)) s s' :=
  counted_eq_ok (fun d c s n => decodeItems (child d) c s n) validateItems hc
    (fun hc hd => (decodeItems_eq ..).symm ▸ decodeItemsLoop_eq_ok (h hd) hc) fun _ => tupleOf_eq_ok

/-- the body of a vector -/
theorem decodeTagged_vector (hc : c.Fits) : decodeTagged child d 0x0b c s = .ok (v, c', s') ↔
    ∃ items, v = .vector items ∧ items.length ≤ u32Max ∧ (∀ v ∈ items, Valid v) ∧
      c.Consumes (beBytes 4 items.length ++ wireItems items) c' ∧ items.length ≤ s.limits.maxCollectionLen.toNat ∧
      d + 1 ≤ u32Max ∧ Charges (validateItems items (d + 1)) s s' :=
  counted_eq_ok (fun d c s n => decodeItems (child d) c s n) validateItems hc
    (fun hc hd => (decodeItems_eq ..).symm ▸ decodeItemsLoop_eq_ok (h hd) hc) fun _ => vectorOf_eq_ok

/-- the body of a record -/
theorem decodeTagged_record (hc : c.Fits) : decodeTagged child d 0x09 c s = .ok (v, c', s') ↔
    ∃ fields, v = .record fields ∧ fields.length ≤ u32Max ∧ ((∀ f ∈ fields, Valid f.value) ∧ FieldsOrdered fields) ∧
      c.Consumes (beBytes 4 fields.length ++ wireFields fields) c' ∧
      fields.length ≤ s.limits.maxCollectionLen.toNat ∧ d + 1 ≤ u32Max ∧
      Charges (validateFields fields (d + 1)) s s' := by
  refine counted_eq_ok (fun d c s n => decodeFields (child d) c s n) validateFields hc
    (fun hc hd => ?_) fun hp => recordCanonical_eq_ok hp.2
  rw [decodeFields_eq, decodeFieldsLoop_eq_ok (h hd) hc]
  simp [and_assoc]

/-- the body of a map -/
theorem decodeTagged_map (hc : c.Fits) : decodeTagged child d 0x0c c s = .ok (v, c', s') ↔
    ∃ entries, v = .map entries ∧ entries.length ≤ u32Max ∧ ((∀ e ∈ entries, ValidEntry e) ∧ KeysOrdered entries) ∧
      c.Consumes (beBytes 4 entries.length ++ wireEntries entries) c' ∧
      entries.length ≤ s.limits.maxCollectionLen.toNat ∧ d + 1 ≤ u32Max ∧
      Charges (validateEntries entries (d + 1)) s s' := by
  refine counted_eq_ok (fun d c s n => decodeEntries (child d) c s n) validateEntries hc
    (fun hc hd => ?_) fun hp => mapCanonical_eq_ok hp.1 hp.2
  rw [decodeEntries_eq, decodeEntriesLoop_eq_ok (h hd) hc]
  simp [and_assoc]

/-- the body of a sum -/
theorem decodeTagged_sum (hc : c.Fits) : decodeTagged child d 0x0a c s = .ok (v, c', s') ↔
    ∃ t w, (v = .sum t w none ∧ c.Consumes (beBytes 4 t.toNat ++ (beBytes 2 w.toNat ++ [0])) c' ∧ s' = s) ∨
      ∃ payload, v = .sum t w (some payload) ∧ Valid payload ∧
        c.Consumes (beBytes 4 t.toNat ++ (beBytes 2 w.toNat ++ 1 :: wire payload)) c' ∧
        d + 1 ≤ u32Max ∧ Charges (validateValue payload (d + 1)) s s' := by
  simp only [decodeTagged, bind_eq_ok, Prod.exists, Cursor.takeU32_eq_ok hc]
  constructor
  · rintro ⟨t, c1, hc1, w, c2, hw, flag, c3, hflag, hrest⟩
    have hf1 := hc1.fits hc
    have hc2 := (Cursor.takeU16_eq_ok hf1).1 hw
    have hf2 := hc2.fits hf1
    have hc3 := (Cursor.takeU8_eq_ok hf2).1 hflag
    refine ⟨t, w, ?_⟩
    split at hrest
    · simp only [pure_eq, Except.ok.injEq, Prod.mk.injEq] at hrest
      obtain ⟨rfl, rfl, rfl⟩ := hrest
      exact .inl ⟨rfl, hc1.trans (hc2.trans hc3), rfl⟩
    · simp only [bind_eq_ok, checkedAdd_eq_ok, Prod.exists, pure_eq, Except.ok.injEq, Prod.mk.injEq] at hrest
      obtain ⟨_, ⟨hd, rfl⟩, payload, _, _, hchild, rfl, rfl, rfl⟩ := hrest
      obtain ⟨hv, hc4, hs⟩ := (h hd (hc3.fits hf2)).1 hchild
      exact .inr ⟨payload, rfl, hv, hc1.trans (hc2.trans (hc3.trans hc4)), hd, hs⟩
    · cases hrest
  · rintro ⟨t, w, ⟨rfl, hc', rfl⟩ | ⟨payload, rfl, hv, hc', hd, hs⟩⟩
    · obtain ⟨c1, hc1, hc'⟩ := Cursor.consumes_append.1 hc'
      obtain ⟨c2, hc2, hc3⟩ := Cursor.consumes_append.1 hc'
      have hf1 := hc1.fits hc
      exact ⟨t, c1, hc1, w, c2, (Cursor.takeU16_eq_ok hf1).2 hc2, 0, c',
        (Cursor.takeU8_eq_ok (hc2.fits hf1)).2 hc3, rfl⟩
    · obtain ⟨c1, hc1, hc'⟩ := Cursor.consumes_append.1 hc'
      obtain ⟨c2, hc2, hc'⟩ := Cursor.consumes_append.1 hc'
      obtain ⟨c3, hc3, hc4⟩ := Cursor.consumes_cons.1 hc'
      have hf1 := hc1.fits hc
      have hf2 := hc2.fits hf1
      refine ⟨t, c1, hc1, w, c2, (Cursor.takeU16_eq_ok hf1).2 hc2, 1, c3, (Cursor.takeU8_eq_ok hf2).2 hc3, ?_⟩
      simp only [bind_eq_ok, checkedAdd_eq_ok, Prod.exists, pure_eq, Except.ok.injEq, Prod.mk.injEq]
      exact ⟨_, ⟨hd, rfl⟩, payload, c', s', (h hd (hc3.fits hf2)).2 ⟨hv, hc4, hs⟩, rfl, rfl, rfl⟩

omit h in
/-- the body of a byte string -/
theorem decodeTagged_bytes (child : ℕ → ValueDecoder) (hc : c.Fits) {s₀ : DecodeState}
    (hs₀ : Charges (enterValue d) s₀ s) :
    decodeTagged child d 0x05 c s = .ok (v, c', s') ↔
      ∃ b, v = .bytes b ∧ b.length ≤ u32Max ∧ c.Consumes (blob 4 b) c' ∧ Charges (addPayload b.length) s s' := by
  simp only [decodeTagged, bind_eq_ok, Prod.exists, Cursor.takeBlob_eq_ok hc, payload_eq_ok, mapError_eq_ok, pure_eq,
    Except.ok.injEq, Prod.mk.injEq, Value.bytesWithLimits, checkWireLength_eq_ok]
  constructor
  · rintro ⟨b, _, ⟨_, hb, hc'⟩, _, hs, _, ⟨_, _, _, _, rfl⟩, rfl, rfl, rfl⟩
    exact ⟨b, rfl, hb, hc', hs⟩
  · rintro ⟨b, rfl, hb, hc', hs⟩
    have hpay := (addPayload_eq_ok.1 hs.metrics).1
    obtain ⟨m, hm⟩ := (charges_bytes.2 ⟨s, hs₀, hs⟩).validateLimits
    rw [← hs₀.limits, ← hs.limits] at hm
    exact ⟨b, c', ⟨by omega, hb, hc'⟩, s', hs, _, ⟨(), hb, m, hm, rfl⟩, rfl, rfl, rfl⟩

omit h in
/-- the body of a text -/
theorem decodeTagged_text (child : ℕ → ValueDecoder) (hc : c.Fits) {s₀ : DecodeState} (hs₀ : Charges (enterValue d) s₀ s) :
    decodeTagged child d 0x06 c s = .ok (v, c', s') ↔ ∃ t, v = .text t ∧ isAscii t = true ∧ t.length ≤ u32Max ∧
      c.Consumes (blob 4 t) c' ∧ Charges (addPayload t.length) s s' := by
  simp only [decodeTagged, bind_eq_ok, Prod.exists, Cursor.takeBlob_eq_ok hc, payload_eq_ok]
  constructor
  · rintro ⟨b, _, ⟨_, hb, hc'⟩, _, hs, hrest⟩
    split_ifs at hrest with hascii
    rw [Bool.not_eq_true', Bool.not_eq_false] at hascii
    simp only [fromUtf8_of_ascii hascii, ok_bind, bind_eq_ok, mapError_eq_ok, Value.textAsciiWithLimits, hascii,
      Bool.not_true, Bool.false_eq_true, if_false, pure_eq, Except.ok.injEq, Prod.mk.injEq] at hrest
    obtain ⟨_, ⟨_, _, _, _, rfl⟩, rfl, rfl, rfl⟩ := hrest
    exact ⟨b, rfl, hascii, hb, hc', hs⟩
  · rintro ⟨b, rfl, hascii, hb, hc', hs⟩
    have hpay := (addPayload_eq_ok.1 hs.metrics).1
    obtain ⟨m, hm⟩ := ((charges_text hascii).2 ⟨s, hs₀, hs⟩).validateLimits
    rw [← hs₀.limits, ← hs.limits] at hm
    refine ⟨b, c', ⟨by omega, hb, hc'⟩, s', hs, ?_⟩
    simp only [fromUtf8_of_ascii hascii, ok_bind, bind_eq_ok, mapError_eq_ok, Value.textAsciiWithLimits, hascii,
      Bool.not_true, Bool.false_eq_true, if_false, pure_eq, Except.ok.injEq, Prod.mk.injEq, checkWireLength_eq_ok]
    exact ⟨_, ⟨(), hb, m, hm, rfl⟩, rfl, trivial⟩

/-- **One node.** If children are parsed one level deeper, the decoder parses at `d`. -/
theorem decodeBody_parses : Parses (decodeBody child d) d := by
  intro c s v c' s' hc
  rw [decodeBody_eq_ok hc]
  constructor
  · rintro ⟨s1, tag, c1, hs1, hc1, htag⟩
    have hf1 := hc1.fits hc
    have hwire : ∀ {body}, wire v = tag :: body → c1.Consumes body c' → c.Consumes (wire v) c' := by
      intro body hw hbody
      rw [hw]
      exact hc1.trans hbody
    unfold decodeTagged at htag
    split at htag
    case h_1 | h_2 | h_3 =>
      simp only [pure_eq, Except.ok.injEq, Prod.mk.injEq] at htag
      obtain ⟨rfl, rfl, rfl⟩ := htag
      exact ⟨by constructor, hc1, hs1⟩
    case h_4 =>
      simp only [bind_eq_ok, Prod.exists, pure_eq, Except.ok.injEq, Prod.mk.injEq] at htag
      obtain ⟨b, _, hc', rfl, rfl, rfl⟩ := htag
      exact ⟨.u128 _, hwire rfl ((Cursor.consumes_word hf1).2 ⟨b, hc', rfl⟩), hs1⟩
    case h_5 =>
      simp only [bind_eq_ok, Prod.exists, pure_eq, Except.ok.injEq, Prod.mk.injEq] at htag
      obtain ⟨b, _, hc', rfl, rfl, rfl⟩ := htag
      exact ⟨.i128 _, hwire rfl ((Cursor.consumes_word hf1).2 ⟨b, hc', (signedToBits_bitsToSigned _).symm⟩), hs1⟩
    case h_6 =>
      obtain ⟨b, rfl, hlen, hc', hs⟩ := (decodeTagged_bytes child hf1 hs1).1 htag
      exact ⟨.bytes hlen, hwire rfl hc', charges_bytes.2 ⟨s1, hs1, hs⟩⟩
    case h_7 =>
      obtain ⟨b, rfl, hascii, hlen, hc', hs⟩ := (decodeTagged_text child hf1 hs1).1 htag
      exact ⟨.text hascii hlen, hwire rfl hc', (charges_text hascii).2 ⟨s1, hs1, hs⟩⟩
    case h_8 =>
      simp only [bind_eq_ok, Prod.exists, Cursor.takeU32_eq_ok hf1, pure_eq, Except.ok.injEq, Prod.mk.injEq] at htag
      obtain ⟨t, _, hc2, w, _, hw, rfl, rfl, rfl⟩ := htag
      exact ⟨.enum t w, hwire rfl (hc2.trans ((Cursor.takeU16_eq_ok (hc2.fits hf1)).1 hw)), hs1⟩
    case h_9 =>
      obtain ⟨items, rfl, hlen, hvs, hc', hn, hd, hs⟩ := (decodeTagged_tuple h hf1).1 htag
      exact ⟨.tuple hlen hvs, hwire rfl hc', charges_tuple.2 ⟨s1, hs1, hn, trivial, hd, hs⟩⟩
    case h_10 =>
      obtain ⟨fields, rfl, hlen, ⟨hvs, hord⟩, hc', hn, hd, hs⟩ := (decodeTagged_record h hf1).1 htag
      exact ⟨.record hlen hord hvs, hwire rfl hc', charges_record.2 ⟨s1, hs1, hn, hord, hd, hs⟩⟩
    case h_11 =>
      obtain ⟨t, w, ⟨rfl, hc', rfl⟩ | ⟨payload, rfl, hv, hc', hd, hs⟩⟩ := (decodeTagged_sum h hf1).1 htag
      · exact ⟨.sum t w (by simp), hwire rfl hc', hs1⟩
      · exact ⟨.sum t w (by simpa using hv), hwire rfl hc', charges_some.2 ⟨s1, hs1, hd, hs⟩⟩
    case h_12 =>
      obtain ⟨items, rfl, hlen, hvs, hc', hn, hd, hs⟩ := (decodeTagged_vector h hf1).1 htag
      exact ⟨.vector hlen hvs, hwire rfl hc', charges_vector.2 ⟨s1, hs1, hn, trivial, hd, hs⟩⟩
    case h_13 =>
      obtain ⟨entries, rfl, hlen, ⟨hvs, hord⟩, hc', hn, hd, hs⟩ := (decodeTagged_map h hf1).1 htag
      refine ⟨.map hlen hord ?_ ?_ ?_ ?_, hwire rfl hc', charges_map.2 ⟨s1, hs1, hn, hord, hd, hs⟩⟩
      · exact fun e he => (hvs e he).key
      · exact fun e he => (hvs e he).value
      · exact fun e he => ⟨(hvs e he).encoded, (hvs e he).keyFits⟩
      · exact fun e he => (hvs e he).valueFits
    case h_14 => cases htag
  · rintro ⟨hv, hc', hs⟩
    obtain ⟨tag, body, hw, _⟩ := wire_head v
    obtain ⟨c1, hc1, hbody⟩ := Cursor.consumes_cons.1 (hw ▸ hc')
    have hf1 := hc1.fits hc
    cases hv with
    | unit =>
      obtain ⟨rfl, rfl⟩ := List.cons.inj hw
      obtain rfl := Cursor.Consumes.nil_iff.1 hbody
      exact ⟨s', _, _, hs, hc1, decodeTagged_unit⟩
    | bool b =>
      cases b <;> obtain ⟨rfl, rfl⟩ := List.cons.inj hw <;> obtain rfl := Cursor.Consumes.nil_iff.1 hbody <;>
        exact ⟨s', _, _, hs, hc1, rfl⟩
    | u128 n =>
      obtain ⟨rfl, rfl⟩ := List.cons.inj hw
      obtain ⟨b, hb, rfl⟩ := (Cursor.consumes_word hf1).1 hbody
      exact ⟨s', _, c1, hs, hc1, bind_eq_ok.2 ⟨_, hb, rfl⟩⟩
    | i128 n =>
      obtain ⟨rfl, rfl⟩ := List.cons.inj hw
      obtain ⟨b, hb, hbits⟩ := (Cursor.consumes_word hf1).1 hbody
      rw [← bitsToSigned_signedToBits n, ← hbits]
      exact ⟨s', _, c1, hs, hc1, bind_eq_ok.2 ⟨_, hb, rfl⟩⟩
    | enum t w =>
      obtain ⟨rfl, rfl⟩ := List.cons.inj hw
      obtain ⟨c2, hc2, hc3⟩ := Cursor.consumes_append.1 hbody
      exact ⟨s', _, c1, hs, hc1, bind_eq_ok.2 ⟨_, (Cursor.takeU32_eq_ok hf1).2 hc2,
        bind_eq_ok.2 ⟨_, (Cursor.takeU16_eq_ok (hc2.fits hf1)).2 hc3, rfl⟩⟩⟩
    | bytes hlen =>
      obtain ⟨rfl, rfl⟩ := List.cons.inj hw
      obtain ⟨s1, hs1, hpay⟩ := charges_bytes.1 hs
      exact ⟨s1, _, c1, hs1, hc1, (decodeTagged_bytes child hf1 hs1).2 ⟨_, rfl, hlen, hbody, hpay⟩⟩
    | text hascii hlen =>
      obtain ⟨rfl, rfl⟩ := List.cons.inj hw
      obtain ⟨s1, hs1, hpay⟩ := (charges_text hascii).1 hs
      exact ⟨s1, _, c1, hs1, hc1, (decodeTagged_text child hf1 hs1).2 ⟨_, rfl, hascii, hlen, hbody, hpay⟩⟩
    | tuple hlen hvs =>
      obtain ⟨rfl, rfl⟩ := List.cons.inj hw
      obtain ⟨s1, hs1, hn, _, hd, hitems⟩ := charges_tuple.1 hs
      exact ⟨s1, _, c1, hs1, hc1, (decodeTagged_tuple h hf1).2 ⟨_, rfl, hlen, hvs, hbody, hn, hd, hitems⟩⟩
    | record hlen hord hvs =>
      obtain ⟨rfl, rfl⟩ := List.cons.inj hw
      obtain ⟨s1, hs1, hn, _, hd, hfields⟩ := charges_record.1 hs
      exact ⟨s1, _, c1, hs1, hc1,
        (decodeTagged_record h hf1).2 ⟨_, rfl, hlen, ⟨hvs, hord⟩, hbody, hn, hd, hfields⟩⟩
    | @sum t w payload hp =>
      cases payload with
      | none =>
        obtain ⟨rfl, rfl⟩ := List.cons.inj hw
        exact ⟨s', _, c1, hs, hc1, (decodeTagged_sum h hf1).2 ⟨t, w, .inl ⟨rfl, hbody, rfl⟩⟩⟩
      | some payload =>
        obtain ⟨rfl, rfl⟩ := List.cons.inj hw
        obtain ⟨s1, hs1, hd, hpayload⟩ := charges_some.1 hs
        exact ⟨s1, _, c1, hs1, hc1,
          (decodeTagged_sum h hf1).2 ⟨t, w, .inr ⟨payload, rfl, hp payload rfl, hbody, hd, hpayload⟩⟩⟩
    | vector hlen hvs =>
      obtain ⟨rfl, rfl⟩ := List.cons.inj hw
      obtain ⟨s1, hs1, hn, _, hd, hitems⟩ := charges_vector.1 hs
      exact ⟨s1, _, c1, hs1, hc1, (decodeTagged_vector h hf1).2 ⟨_, rfl, hlen, hvs, hbody, hn, hd, hitems⟩⟩
    | map hlen hord hkey hvalue henc hfit =>
      obtain ⟨rfl, rfl⟩ := List.cons.inj hw
      obtain ⟨s1, hs1, hn, _, hd, hentries⟩ := charges_map.1 hs
      have hvs := Valid.entry (.map hlen hord hkey hvalue henc hfit)
      exact ⟨s1, _, c1, hs1, hc1,
        (decodeTagged_map h hf1).2 ⟨_, rfl, hlen, ⟨hvs, hord⟩, hbody, hn, hd, hentries⟩⟩

/-- one node gives no alias -/
theorem decodeBody_noAlias (hn : d + 1 ≤ u32Max → ∀ {c s}, c.Fits → NoAlias (child (d + 1) c s)) (hc : c.Fits) :
    NoAlias (decodeBody child d c s) := by
  refine (enter_noAlias s d).bind fun s1 _ => (takeU8_noAlias c).bind fun ⟨tag, c1⟩ h1 => ?_
  have hf1 := ((Cursor.takeU8_eq_ok hc).1 h1).fits hc
  dsimp only
  unfold decodeTagged
  split
  case h_1 | h_2 | h_3 => exact .ok _
  case h_4 | h_5 => exact (take_noAlias _ _).bind fun _ _ => .ok _
  case h_6 =>
    refine (takeBlob_noAlias _ _).bind fun _ _ => (payload_noAlias _ _).bind fun _ _ => ?_
    exact (NoAlias.invalidValue _).bind fun _ _ => .ok _
  case h_7 =>
    refine (takeBlob_noAlias _ _).bind fun ⟨b, _⟩ _ => (payload_noAlias _ _).bind fun _ _ => ?_
    split_ifs with hascii
    · exact .error (by simp) (by simp)
    · rw [Bool.not_eq_true', Bool.not_eq_false] at hascii
      rw [fromUtf8_of_ascii hascii, ok_bind]
      exact (NoAlias.invalidValue _).bind fun _ _ => .ok _
  case h_8 => exact (takeU32_noAlias _).bind fun _ _ => (takeU16_noAlias _).bind fun _ _ => .ok _
  case h_9 =>
    refine counted_noAlias (fun d c s n => decodeItems (child d) c s n) hf1 fun hc hd => ?_
    rw [decodeItems_eq]
    exact decodeItemsLoop_noAlias (h hd) (hn hd) hc
  case h_10 =>
    refine counted_noAlias (fun d c s n => decodeFields (child d) c s n) hf1 fun hc hd => ?_
    rw [decodeFields_eq]
    exact decodeFieldsLoop_noAlias (h hd) (hn hd) hc
  case h_11 =>
    refine (takeU32_noAlias _).bind fun ⟨_, c2⟩ h2 => (takeU16_noAlias _).bind fun ⟨_, c3⟩ h3 =>
      (takeU8_noAlias _).bind fun ⟨flag, c4⟩ h4 => ?_
    have hf2 := ((Cursor.takeU32_eq_ok hf1).1 h2).fits hf1
    have hf3 := ((Cursor.takeU16_eq_ok hf2).1 h3).fits hf2
    have hf4 := ((Cursor.takeU8_eq_ok hf3).1 h4).fits hf3
    dsimp only
    split
    · exact .ok _
    · refine (checkedAdd_noAlias _ _ _).bind fun _ hadd => ?_
      obtain ⟨hd, rfl⟩ := checkedAdd_eq_ok.1 hadd
      exact (hn hd hf4).bind fun _ _ => .ok _
    · exact .error (by simp) (by simp)
  case h_12 =>
    refine counted_noAlias (fun d c s n => decodeItems (child d) c s n) hf1 fun hc hd => ?_
    rw [decodeItems_eq]
    exact decodeItemsLoop_noAlias (h hd) (hn hd) hc
  case h_13 =>
    refine counted_noAlias (fun d c s n => decodeEntries (child d) c s n) hf1 fun hc hd => ?_
    rw [decodeEntries_eq]
    exact decodeEntriesLoop_noAlias (h hd) (hn hd) hc
  case h_14 => exact .error (by simp) (by simp)

end Node

/-! ## Every level -/

/-- **All levels.** With room for every level the decoder parses -/
theorem decodeRoom_parses {room d : ℕ} (hroom : 1025 ≤ room + d) : Parses (decodeRoom room d) d := by
  induction room generalizing d with
  | zero =>
    intro c s v c' s' _
    -- no level is left: the depth is past every effective limit
    have hmax := s.limits.effectiveMaxDepth_le
    constructor
    · intro h
      cases h
    · rintro ⟨_, _, hs⟩
      have hd := hs.validateValue_depth
      omega
  | succ room ih => exact decodeBody_parses fun _ => ih (by omega)

/-- with room for every level there is no alias -/
theorem decodeRoom_noAlias {room d : ℕ} (hroom : 1025 ≤ room + d) {c : Cursor} {s : DecodeState} (hc : c.Fits) :
    NoAlias (decodeRoom room d c s) := by
  induction room generalizing d c s with
  | zero => exact .error (by simp) (by simp)
  | succ room ih =>
    exact decodeBody_noAlias (fun _ => decodeRoom_parses (by omega)) (fun _ _ _ hc => ih (by omega) hc) hc

/-- **The decoder parses.** At every depth it reads exactly the wire format of the valid values that validation admits
at that depth, and leaves the validator's counters. -/
theorem decodeValueInner_parses (d : ℕ) : Parses (decodeValueInner d) d := decodeRoom_parses (by omega)

/-- **No alias.** At every depth no re-encode check can fire. -/
theorem decodeValueInner_noAlias (d : ℕ) {c : Cursor} {s : DecodeState} (hc : c.Fits) :
    NoAlias (decodeValueInner d c s) :=
  decodeRoom_noAlias (by omega) hc

/-- a node looks one level deeper only -/
theorem decodeBody_congr {child child' : ℕ → ValueDecoder} {d : ℕ} (h : child (d + 1) = child' (d + 1)) :
    decodeBody child d = decodeBody child' d := by
  funext c s
  simp only [decodeBody, decodeTagged, checkedAdd]
  split_ifs with hd
  · simp only [ok_bind, h]
  · simp only [error_bind]

/-- **The recursion of the source.** The decoder is one node over itself -/
theorem decodeValueInner_eq (d : ℕ) : decodeValueInner d = decodeBody decodeValueInner d := by
  rcases Nat.lt_or_ge 1024 d with hd | hd
  · funext c s
    have hmax := s.limits.effectiveMaxDepth_le
    have hroom : 1025 - d = 0 := by omega
    simp only [decodeValueInner, hroom, decodeRoom, decodeBody, enter]
    rw [if_pos (by omega)]
    rfl
  · obtain ⟨room, hroom⟩ : ∃ room, 1025 - d = room + 1 := ⟨1024 - d, by omega⟩
    rw [decodeValueInner, hroom, decodeRoom]
    refine decodeBody_congr ?_
    rw [decodeValueInner, show 1025 - (d + 1) = room by omega]

end ZenoFcis
