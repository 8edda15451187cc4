/-
What decoding a complete input means: `decodeValueWithMetrics` accepts `bytes` exactly when they are the wire format of
a valid value that the limits allow, within the input limit, and then reports the validator's metrics.

Results:
- `decode_agrees`: encoder, validator and decoder agree on every built value under every limit.
- `decode_strict`: no accepted input has an alias; the re-encode checks of the decoder never fire.
-/
import ZenoFcis.Codec.Canonical

namespace ZenoFcis

open Lib Lib.Except DecodeState

/-! ## Admitted values are built -/

section Built

variable {d : ℕ} {s s' : DecodeState}

theorem charges_items_mem {items : List Value} (h : Charges (validateItems items d) s s') :
    ∀ v ∈ items, ∃ t t', Charges (validateValue v d) t t' := by
  induction items generalizing s with
  | nil => simp
  | cons v items ih =>
    obtain ⟨s1, hv, hrest⟩ := charges_items_cons.1 h
    rintro w (_ | ⟨_, hw⟩)
    · exact ⟨s, s1, hv⟩
    · exact ih hrest w hw

theorem charges_fields_mem {fields : List Field} (h : Charges (validateFields fields d) s s') :
    ∀ f ∈ fields, ∃ t t', Charges (validateValue f.value d) t t' := by
  induction fields generalizing s with
  | nil => simp
  | cons f fields ih =>
    obtain ⟨i, v⟩ := f
    obtain ⟨s1, hv, hrest⟩ := charges_fields_cons.1 h
    rintro g (_ | ⟨_, hg⟩)
    · exact ⟨s, s1, hv⟩
    · exact ih hrest g hg

theorem charges_entries_mem {entries : List MapEntry} (hs : ∀ e ∈ entries, ValidEntry e)
    (h : Charges (validateEntries entries d) s s') :
    ∀ e ∈ entries, (∃ t t', Charges (validateValue e.key d) t t') ∧ ∃ t t', Charges (validateValue e.value d) t t' := by
  induction entries generalizing s with
  | nil => simp
  | cons e entries ih =>
    have he := hs e List.mem_cons_self
    obtain ⟨b, k, v⟩ := e
    obtain ⟨_, s2, s3, s4, _, _, hk, hv, hrest⟩ :=
      (charges_entries_cons (encodedLength_of_le he.value (le_trans he.valueFits (by decide)))).1 h
    rintro g (_ | ⟨_, hg⟩)
    · exact ⟨⟨s2, s3, hk⟩, s3, s4, hv⟩
    · exact ih (fun e he => hs e (List.mem_cons_of_mem _ he)) hrest g hg

theorem Valid.built {v : Value} (hv : Valid v) (h : Charges (validateValue v d) s s') : Built v := by
  induction v generalizing d s s' with
  | unit => exact .unit
  | bool b => exact .boolean b
  | u128 n => exact .unsigned n
  | i128 n => exact .signed n
  | enum t w => exact .enumeration t w
  | bytes b =>
    cases hv with
    | bytes hlen =>
    obtain ⟨m, hm⟩ := h.validateLimits
    refine .bytesWithLimits (b := b) (show Value.bytesWithLimits b s.limits = _ from ?_)
    simp only [Value.bytesWithLimits, bind_eq_ok, checkWireLength_eq_ok]
    exact ⟨(), hlen, m, hm, rfl⟩
  | text t =>
    cases hv with
    | text hascii hlen =>
    obtain ⟨m, hm⟩ := h.validateLimits
    refine .textAsciiWithLimits (t := t) (show Value.textAsciiWithLimits t s.limits = _ from ?_)
    simp only [Value.textAsciiWithLimits, hascii, Bool.not_true, Bool.false_eq_true, if_false, bind_eq_ok,
      checkWireLength_eq_ok]
    exact ⟨(), hlen, m, hm, rfl⟩
  | tuple items ih =>
    cases hv with
    | tuple hlen hvs =>
    obtain ⟨_, _, _, _, _, hitems⟩ := charges_tuple.1 h
    refine .tuple (fun w hw => ?_) (tupleOf_eq_ok.2 ⟨hlen, rfl⟩)
    obtain ⟨t, t', hcharges⟩ := charges_items_mem hitems w hw
    exact ih w hw (hvs w hw) hcharges
  | vector items ih =>
    cases hv with
    | vector hlen hvs =>
    obtain ⟨_, _, _, _, _, hitems⟩ := charges_vector.1 h
    refine .vector (fun w hw => ?_) (vectorOf_eq_ok.2 ⟨hlen, rfl⟩)
    obtain ⟨t, t', hcharges⟩ := charges_items_mem hitems w hw
    exact ih w hw (hvs w hw) hcharges
  | record fields ih =>
    cases hv with
    | record hlen hord hvs =>
    obtain ⟨_, _, _, _, _, hfields⟩ := charges_record.1 h
    refine .recordCanonical (fun f hf => ?_) ((recordCanonical_eq_ok hord).2 ⟨hlen, rfl⟩)
    obtain ⟨t, t', hcharges⟩ := charges_fields_mem hfields f hf
    exact ih f hf (hvs f hf) hcharges
  | sum t w payload ih =>
    cases hv with
    | sum _ _ hp =>
    refine .sum t w fun v hpayload => ?_
    obtain rfl : payload = some v := hpayload
    obtain ⟨_, _, _, hcharges⟩ := charges_some.1 h
    exact ih v rfl (hp v rfl) hcharges
  | map entries ih =>
    have hentries := hv.entry
    cases hv with
    | map hlen hord hkey hvalue henc hfit =>
    obtain ⟨s1, _, _, _, _, hcharges⟩ := charges_map.1 h
    refine .mapCanonical (fun e he => ?_) ((mapCanonical_eq_ok hentries hord).2 ⟨hlen, rfl⟩)
    obtain ⟨⟨t, t', hk⟩, u, u', hv⟩ := charges_entries_mem hentries hcharges e he
    refine .tryNewWithLimits ((ih e he).1 (hkey e he) hk) ((ih e he).2 (hvalue e he) hv)
      (show MapEntry.tryNewWithLimits e.key e.value t'.limits = _ from ?_)
    have hbytes := hk.canonical (hkey e he) (le_trans ((henc e he).1 ▸ (henc e he).2) (by decide))
    rw [MapEntry.tryNewWithLimits, hbytes, ok_bind,
      (checkWireLength_eq_ok (u := ())).2 ((henc e he).1 ▸ (henc e he).2), ok_bind, ← (henc e he).1]
    exact congrArg Except.ok e.mk_eta

/-- a valid value within some limits can be built -/
theorem Valid.built_of_limits {v : Value} {limits : ValueLimits} {m : ValueMetrics} (hv : Valid v)
    (hm : v.validateLimits limits = .ok m) : Built v := by
  obtain ⟨s', hl, rfl⟩ := exists_metrics (.new limits) m
  exact hv.built ⟨hl, hm⟩

end Built

/-! ## Complete inputs -/

variable {b : Bytes} {limits : DecodeLimits} {v : Value}

/-- the input limit is a bound on the length -/
theorem enforceInputLimit_eq_ok {u : Unit} :
    enforceInputLimit b limits = .ok u ↔ b.length ≤ limits.maxInputBytes.toNat := by
  have hmax : limits.maxInputBytes.toNat ≤ u64Max := Nat.le_pred_of_lt limits.maxInputBytes.toNat_lt
  unfold enforceInputLimit
  split_ifs with h1 h2
  · simp [not_le.2 (lt_of_le_of_lt hmax h1)]
  · simp [not_le.2 h2]
  · simp [not_lt.1 h2]

theorem DecodeLimits.fits (h : b.length ≤ limits.maxInputBytes.toNat) :
    b.length ≤ usizeMax :=
  le_trans h (Nat.le_pred_of_lt limits.maxInputBytes.toNat_lt)

theorem decodeCompleteValue_eq_ok {s s' : DecodeState} {d : ℕ} (hb : b.length ≤ usizeMax) :
    decodeCompleteValue b s d = .ok (v, s') ↔ Valid v ∧ b = wire v ∧ Charges (validateValue v d) s s' :=
  decodeCompleteWith_eq_ok (decodeValueInner_parses d) hb

theorem decodeCompleteValue_noAlias {s : DecodeState} {d : ℕ} (hb : b.length ≤ usizeMax) :
    NoAlias (decodeCompleteValue b s d) :=
  decodeCompleteWith_noAlias (decodeValueInner_parses d) (decodeValueInner_noAlias d) hb

/-- **Decoding.** A value is decoded exactly from its own bytes, with the metrics of its traversal -/
theorem decodeValueWithMetrics_eq_ok {m : ValueMetrics} :
    decodeValueWithMetrics b limits = .ok (v, m) ↔
      b.length ≤ limits.maxInputBytes.toNat ∧ Valid v ∧ b = wire v ∧ v.validateLimits limits.value = .ok m := by
  simp only [decodeValueWithMetrics, bind_eq_ok, enforceInputLimit_eq_ok, Prod.exists, pure_eq, Except.ok.injEq,
    Prod.mk.injEq, exists_and_left, exists_const]
  refine and_congr_right fun hlen => ?_
  simp only [decodeCompleteValue_eq_ok (DecodeLimits.fits hlen)]
  constructor
  · rintro ⟨_, s', ⟨hv, hb, hs⟩, rfl, rfl⟩
    exact ⟨hv, hb, hs.metrics⟩
  · rintro ⟨hv, hb, hm⟩
    obtain ⟨s', hl, rfl⟩ := exists_metrics (.new limits.value) m
    exact ⟨v, s', ⟨hv, hb, hl, hm⟩, rfl, rfl⟩

/-- a decoded value is one with metrics -/
theorem decodeValue_eq_ok :
    decodeValue b limits = .ok v ↔ ∃ m, decodeValueWithMetrics b limits = .ok (v, m) := by
  unfold decodeValue
  rcases decodeValueWithMetrics b limits with e | ⟨w, m⟩
  · simp
  · simp only [Except.ok.injEq, Prod.mk.injEq, exists_and_left]
    exact ⟨fun h => ⟨h, m, rfl⟩, And.left⟩

theorem decodeValue_eq_error {e : DecodeError} :
    decodeValue b limits = .error e ↔ decodeValueWithMetrics b limits = .error e := by
  unfold decodeValue
  rcases decodeValueWithMetrics b limits with e | ⟨w, m⟩ <;> simp

/-- what is decoded is valid and reads back to its bytes -/
theorem decodeValue_wire (h : decodeValue b limits = .ok v) :
    Valid v ∧ b = wire v := by
  obtain ⟨m, hm⟩ := decodeValue_eq_ok.1 h
  obtain ⟨_, hv, hb, _⟩ := decodeValueWithMetrics_eq_ok.1 hm
  exact ⟨hv, hb⟩

/-- **Agreement.** A built value is encoded, and under any limits its encoding is decoded to the same value with the
validator's own metrics when the validator and the input limit accept it, and refused when either does not. -/
theorem decode_agrees {v : Value} (hv : Built v) (limits : DecodeLimits) :
    ∃ b, encodeZcveValue v = .ok b ∧
      (∀ m, v.validateLimits limits.value = .ok m → b.length ≤ limits.maxInputBytes.toNat →
        v.zcveBytesWithLimits limits.value = .ok b ∧ decodeValueWithMetrics b limits = .ok (v, m)) ∧
      ((∃ e, v.validateLimits limits.value = .error e) ∨ limits.maxInputBytes.toNat < b.length →
        ∃ e, decodeValue b limits = .error e) := by
  have hvalid := built_valid hv
  refine ⟨wire v, encodeZcveValue_eq hvalid, fun m hm hlen => ⟨?_, ?_⟩, fun hrefused => ?_⟩
  · exact hvalid.zcveBytesWithLimits.2 ⟨⟨m, hm⟩, rfl, DecodeLimits.fits hlen⟩
  · exact decodeValueWithMetrics_eq_ok.2 ⟨hlen, hvalid, rfl, hm⟩
  · rcases ok_or_error (decodeValue (wire v) limits) with ⟨w, hw⟩ | herr
    · -- what is accepted is `v` itself, admitted and within the limit
      obtain ⟨m, hm⟩ := decodeValue_eq_ok.1 hw
      obtain ⟨hlen, hvalid', hwire, hadmit⟩ := decodeValueWithMetrics_eq_ok.1 hm
      obtain rfl := (wire_reads hvalid).inj hvalid' hwire
      rcases hrefused with ⟨e, he⟩ | hlong
      · rw [he] at hadmit
        cases hadmit
      · omega
    · exact herr

theorem built_flagMap : Built (.map [.mk [2] (.bool true) (.bytes [7, 8])]) := by
  have hentry : BuiltEntry (.mk [2] (.bool true) (.bytes [7, 8])) :=
    .tryNewWithLimits (.boolean true) (.ownedBytes (b := [7, 8]) rfl)
      (show MapEntry.tryNew (.bool true) (.bytes [7, 8]) = _ from rfl)
  have hentries : ∀ e ∈ [MapEntry.mk [2] (.bool true) (.bytes [7, 8])], BuiltEntry e := by simpa using hentry
  exact .mapCanonical hentries rfl

theorem decode_agrees_flagMap :
    decodeValueWithMetrics [0x0c, 0, 0, 0, 1, 0, 0, 0, 1, 2, 0, 0, 0, 7, 5, 0, 0, 0, 2, 7, 8] .default =
      .ok (.map [.mk [2] (.bool true) (.bytes [7, 8])], ⟨3, 10, 1⟩) := by
  obtain ⟨b, hb, hok, _⟩ := decode_agrees built_flagMap .default
  obtain rfl := Except.ok.inj hb
  exact (hok _ rfl (by decide)).2

/-- **Strictness.** Neither re-encode check of the decoder can fire, at the top level or in a nested blob; accepted
inputs are injective and prefix-free. -/
theorem decode_strict :
    (∀ b limits e, decodeValue b limits = .error e → e ≠ .nonCanonical ∧ ∀ x, e ≠ .encode x) ∧
    (∀ b s d e, b.length ≤ usizeMax → decodeCompleteValue b s d = .error e → e ≠ .nonCanonical ∧ ∀ x, e ≠ .encode x) ∧
    (∀ b s d v c s', b.length ≤ usizeMax → decodeValueInner d (.new b) s = .ok (v, c, s') → c.remaining = 0 →
      s'.limits = s.limits ∧ canonicalValueBytesWithLimits v s.limits = .ok b) ∧
    (∀ b b' limits limits' v, decodeValue b limits = .ok v → decodeValue b' limits' = .ok v → b = b') ∧
    (∀ b r limits limits' v w, decodeValue b limits = .ok v → decodeValue (b ++ r) limits' = .ok w → r = []) := by
  refine ⟨?_, ?_, ?_, ?_, ?_⟩
  · intro b limits e he
    refine NoAlias.bind (x := enforceInputLimit b limits) ?_ (fun u hu => ?_) e (decodeValue_eq_error.1 he)
    · unfold enforceInputLimit
      split_ifs
      · exact .error (by simp) (by simp)
      · exact .error (by simp) (by simp)
      · exact .ok _
    · exact (decodeCompleteValue_noAlias (DecodeLimits.fits (enforceInputLimit_eq_ok.1 hu))).bind fun _ _ => .ok _
  · intro b s d e hb he
    exact decodeCompleteValue_noAlias hb e he
  · intro b s d v c s' hb h hrem
    have hfits : (Cursor.new b).Fits := hb
    obtain ⟨hv, hc, hs⟩ := (decodeValueInner_parses d hfits).1 h
    have hwire := hc.unread
    rw [Cursor.remaining_eq_zero.1 hrem, List.append_nil, Cursor.unread_new] at hwire
    subst hwire
    have hcanonical := hs.canonical hv hb
    rw [hs.limits] at hcanonical
    rw [canonicalValueBytesWithLimits, hcanonical]
    exact ⟨hs.limits, rfl⟩
  · intro b b' limits limits' v h h'
    rw [(decodeValue_wire h).2, (decodeValue_wire h').2]
  · intro b r limits limits' v w h h'
    obtain ⟨hv, rfl⟩ := decodeValue_wire h
    obtain ⟨hw, hwire⟩ := decodeValue_wire h'
    exact ((wire_reads hv) w r [] hw (by rw [hwire, List.append_nil])).2

end ZenoFcis
