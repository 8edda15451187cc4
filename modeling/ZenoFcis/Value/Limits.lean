/-
Facts about construction and limit validation:
- `built_valid`: every constructed value is structurally valid;
- `encodedLength_ok`, `encodedLength_of_le`: the length computation is exact, and fails only past `usize`;
- `validateValue_mono`: a value admitted at some depth with some budget already spent is admitted at every smaller depth
  with every smaller spending. This is why re-encoding a nested blob from depth zero trips no limit.
-/
import ZenoFcis.Value.Wire

namespace ZenoFcis

open Lib Lib.Except

/-! ## Checks -/

variable {n acc : ℕ} {fields : List Field} {entries : List MapEntry} {items : List Value} {v : Value}

/-- a checked sum stays within its maximum -/
theorem checkedAdd_eq_ok {ε : Type} {max a b : ℕ} {e : ε} :
    checkedAdd max a b e = .ok n ↔ a + b ≤ max ∧ n = a + b := by
  unfold checkedAdd
  split_ifs with h <;> simp [h, eq_comm]

/-- a wire length passes when it fits 32 bits -/
theorem checkWireLength_eq_ok {u : Unit} : checkWireLength n = .ok u ↔ n ≤ u32Max := by
  unfold checkWireLength
  split_ifs with h <;> simp [h]

/-- fields pass in strict order -/
theorem ensureStrictFields_eq_ok {u : Unit} :
    ensureStrictFields fields = .ok u ↔ FieldsOrdered fields := by
  induction fields with
  | nil => simp [ensureStrictFields, FieldsOrdered]
  | cons f fields ih =>
    cases fields with
    | nil => simp [ensureStrictFields, FieldsOrdered]
    | cons g fields =>
      simp only [ensureStrictFields, FieldsOrdered, List.isChain_cons_cons] at ih ⊢
      split_ifs with h
      · simp [h]
      · have hlt : f.id < g.id := UInt16.not_le.1 h
        simp [hlt, ih]

/-- keys pass in strict order -/
theorem ensureStrictMapKeys_eq_ok {u : Unit} :
    ensureStrictMapKeys entries = .ok u ↔ KeysOrdered entries := by
  induction entries with
  | nil => simp [ensureStrictMapKeys, KeysOrdered]
  | cons e entries ih =>
    cases entries with
    | nil => simp [ensureStrictMapKeys, KeysOrdered]
    | cons g entries =>
      simp only [ensureStrictMapKeys, KeysOrdered, List.isChain_cons_cons] at ih ⊢
      cases h : bytesBefore e.encodedKey g.encodedKey <;> simp [ih]

/-! ## The length computation -/

theorem encodedLengthItems_ok (h : ∀ v ∈ items, ∀ n, encodedLength v = .ok n → n = (wire v).length)
    (hn : encodedLengthItems items acc = .ok n) : n = acc + (wireItems items).length := by
  induction items generalizing acc with
  | nil => simpa [encodedLengthItems, wireItems, eq_comm] using hn
  | cons v items ih =>
    simp only [encodedLengthItems, bind_eq_ok, checkedEncodedLengthAdd, checkedAdd_eq_ok] at hn
    obtain ⟨l, hl, _, ⟨_, rfl⟩, hrest⟩ := hn
    rw [ih (fun w hw => h w (List.mem_cons_of_mem _ hw)) hrest, h v List.mem_cons_self l hl, wireItems,
      List.length_append, Nat.add_assoc]

theorem encodedLengthFields_ok (h : ∀ f ∈ fields, ∀ n, encodedLength f.value = .ok n → n = (wire f.value).length)
    (hn : encodedLengthFields fields acc = .ok n) : n = acc + (wireFields fields).length := by
  induction fields generalizing acc with
  | nil => simpa [encodedLengthFields, wireFields, eq_comm] using hn
  | cons f fields ih =>
    obtain ⟨i, v⟩ := f
    simp only [encodedLengthFields, bind_eq_ok, checkedEncodedLengthAdd, checkedAdd_eq_ok] at hn
    obtain ⟨_, ⟨_, rfl⟩, l, hl, _, ⟨_, rfl⟩, hrest⟩ := hn
    have hv : l = (wire v).length := h _ List.mem_cons_self l hl
    rw [ih (fun g hg => h g (List.mem_cons_of_mem _ hg)) hrest, hv]
    simp only [wireFields, List.length_append, beBytes_length]
    omega

theorem encodedLengthEntries_ok (h : ∀ e ∈ entries, ∀ n, encodedLength e.value = .ok n → n = (wire e.value).length)
    (hn : encodedLengthEntries entries acc = .ok n) : n = acc + (wireEntries entries).length := by
  induction entries generalizing acc with
  | nil => simpa [encodedLengthEntries, wireEntries, eq_comm] using hn
  | cons e entries ih =>
    obtain ⟨b, k, v⟩ := e
    simp only [encodedLengthEntries, bind_eq_ok, checkedEncodedLengthAdd, checkedAdd_eq_ok] at hn
    obtain ⟨l, hl, _, _, _, _, _, ⟨_, rfl⟩, _, ⟨_, rfl⟩, _, ⟨_, rfl⟩, hrest⟩ := hn
    have hv : l = (wire v).length := h _ List.mem_cons_self l hl
    rw [ih (fun g hg => h g (List.mem_cons_of_mem _ hg)) hrest, hv]
    simp only [wireEntries, List.length_append, blob_length]
    omega

/-- the encoded length is the length of the bytes -/
theorem encodedLength_ok (hn : encodedLength v = .ok n) : n = (wire v).length := by
  induction v generalizing n with
  | bytes b | text t =>
    simp only [encodedLength, bind_eq_ok, checkedEncodedLengthAdd, checkedAdd_eq_ok] at hn
    obtain ⟨_, _, _, rfl⟩ := hn
    simp only [wire, List.length_cons, blob_length]
    omega
  | tuple items ih | vector items ih =>
    simp only [encodedLength, bind_eq_ok] at hn
    obtain ⟨_, _, hn⟩ := hn
    rw [encodedLengthItems_ok (fun v hv n => ih v hv) hn]
    simp only [wire, List.length_cons, List.length_append, beBytes_length]
    omega
  | record fields ih =>
    simp only [encodedLength, bind_eq_ok] at hn
    obtain ⟨_, _, hn⟩ := hn
    rw [encodedLengthFields_ok (fun f hf n => ih f hf) hn]
    simp only [wire, List.length_cons, List.length_append, beBytes_length]
    omega
  | map entries ih =>
    simp only [encodedLength, bind_eq_ok] at hn
    obtain ⟨_, _, hn⟩ := hn
    rw [encodedLengthEntries_ok (fun e he n => (ih e he).2) hn]
    simp only [wire, List.length_cons, List.length_append, beBytes_length]
    omega
  | sum t w payload ih =>
    cases payload with
    | none => simp_all [encodedLength, wire]
    | some v =>
      simp only [encodedLength, bind_eq_ok, checkedEncodedLengthAdd, checkedAdd_eq_ok] at hn
      obtain ⟨l, hl, _, rfl⟩ := hn
      rw [ih v rfl hl]
      simp only [wire, List.length_cons, List.length_append, beBytes_length]
      omega
  | bool b => cases b <;> simp_all [encodedLength, wire]
  | _ => simp_all [encodedLength, wire]

theorem encodedLengthItems_of_le (h : ∀ v ∈ items, (wire v).length ≤ usizeMax → encodedLength v = .ok (wire v).length)
    (hle : acc + (wireItems items).length ≤ usizeMax) :
    encodedLengthItems items acc = .ok (acc + (wireItems items).length) := by
  induction items generalizing acc with
  | nil => rfl
  | cons v items ih =>
    simp only [wireItems, List.length_append] at hle ⊢
    simp only [encodedLengthItems, h v List.mem_cons_self (by omega), ok_bind, checkedEncodedLengthAdd, checkedAdd]
    rw [if_pos (by omega), ok_bind, ih (fun w hw => h w (List.mem_cons_of_mem _ hw)) (by omega), Nat.add_assoc]

theorem encodedLengthFields_of_le
    (h : ∀ f ∈ fields, (wire f.value).length ≤ usizeMax → encodedLength f.value = .ok (wire f.value).length)
    (hle : acc + (wireFields fields).length ≤ usizeMax) :
    encodedLengthFields fields acc = .ok (acc + (wireFields fields).length) := by
  induction fields generalizing acc with
  | nil => rfl
  | cons f fields ih =>
    obtain ⟨i, v⟩ := f
    simp only [wireFields, List.length_append, beBytes_length] at hle ⊢
    have hv : encodedLength v = .ok (wire v).length := h _ List.mem_cons_self (by rw [Field.value_mk]; omega)
    simp only [encodedLengthFields, hv, ok_bind, checkedEncodedLengthAdd, checkedAdd]
    rw [if_pos (by omega), ok_bind, if_pos (by omega), ok_bind,
      ih (fun g hg => h g (List.mem_cons_of_mem _ hg)) (by omega)]
    congr 1
    omega

theorem encodedLengthEntries_of_le (h : ∀ e ∈ entries, encodedLength e.value = .ok (wire e.value).length)
    (hkey : ∀ e ∈ entries, e.encodedKey.length ≤ u32Max) (hfit : ∀ e ∈ entries, (wire e.value).length ≤ u32Max)
    (hle : acc + (wireEntries entries).length ≤ usizeMax) :
    encodedLengthEntries entries acc = .ok (acc + (wireEntries entries).length) := by
  induction entries generalizing acc with
  | nil => rfl
  | cons e entries ih =>
    obtain ⟨b, k, v⟩ := e
    simp only [wireEntries, List.length_append, blob_length] at hle ⊢
    have hv : encodedLength v = .ok (wire v).length := h _ List.mem_cons_self
    have hb : b.length ≤ u32Max := hkey _ List.mem_cons_self
    have hw : (wire v).length ≤ u32Max := hfit _ List.mem_cons_self
    simp only [encodedLengthEntries, hv, ok_bind, checkWireLength, hb, hw, if_true, checkedEncodedLengthAdd, checkedAdd]
    rw [if_pos (by omega), ok_bind, if_pos (by omega), ok_bind, if_pos (by omega), ok_bind,
      ih (fun g hg => h g (List.mem_cons_of_mem _ hg)) (fun g hg => hkey g (List.mem_cons_of_mem _ hg))
        (fun g hg => hfit g (List.mem_cons_of_mem _ hg)) (by omega)]
    congr 1
    omega

/-- the length of a valid value is computed unless it exceeds `usize` -/
theorem encodedLength_of_le (hv : Valid v) (hle : (wire v).length ≤ usizeMax) :
    encodedLength v = .ok (wire v).length := by
  induction v with
  | bytes b =>
    cases hv with
    | bytes hlen =>
      simp only [wire, List.length_cons, blob_length] at hle ⊢
      simp only [encodedLength, checkWireLength, hlen, if_true, ok_bind, checkedEncodedLengthAdd, checkedAdd]
      rw [if_pos (by omega)]
      congr 1
      omega
  | text t =>
    cases hv with
    | text _ hlen =>
      simp only [wire, List.length_cons, blob_length] at hle ⊢
      simp only [encodedLength, checkWireLength, hlen, if_true, ok_bind, checkedEncodedLengthAdd, checkedAdd]
      rw [if_pos (by omega)]
      congr 1
      omega
  | tuple items ih =>
    cases hv with
    | tuple hlen hs =>
      simp only [wire, List.length_cons, List.length_append, beBytes_length] at hle ⊢
      simp only [encodedLength, checkWireLength, hlen, if_true, ok_bind]
      rw [encodedLengthItems_of_le (fun v hv => ih v hv (hs v hv)) (by omega)]
      congr 1
      omega
  | vector items ih =>
    cases hv with
    | vector hlen hs =>
      simp only [wire, List.length_cons, List.length_append, beBytes_length] at hle ⊢
      simp only [encodedLength, checkWireLength, hlen, if_true, ok_bind]
      rw [encodedLengthItems_of_le (fun v hv => ih v hv (hs v hv)) (by omega)]
      congr 1
      omega
  | record fields ih =>
    cases hv with
    | record hlen _ hs =>
      simp only [wire, List.length_cons, List.length_append, beBytes_length] at hle ⊢
      simp only [encodedLength, checkWireLength, hlen, if_true, ok_bind]
      rw [encodedLengthFields_of_le (fun f hf => ih f hf (hs f hf)) (by omega)]
      congr 1
      omega
  | map entries ih =>
    cases hv with
    | map hlen _ _ hvalue henc hfit =>
      simp only [wire, List.length_cons, List.length_append, beBytes_length] at hle ⊢
      simp only [encodedLength, checkWireLength, hlen, if_true, ok_bind]
      rw [encodedLengthEntries_of_le
        (fun e he => (ih e he).2 (hvalue e he) (le_trans (hfit e he) (by decide)))
        (fun e he => (henc e he).2) hfit (by omega)]
      congr 1
      omega
  | sum t w payload ih =>
    cases hv with
    | sum _ _ hp =>
      cases payload with
      | none => simp [encodedLength, wire]
      | some v =>
        simp only [wire, List.length_cons, List.length_append, beBytes_length] at hle ⊢
        simp only [encodedLength, ih v rfl (hp v rfl) (by omega), ok_bind, checkedEncodedLengthAdd, checkedAdd]
        rw [if_pos (by omega)]
        congr 1
        omega
  | bool b => cases b <;> simp [encodedLength, wire]
  | _ => simp [encodedLength, wire]

/-! ## Construction yields valid values -/

theorem zcveBytesWithLimits_eq_ok {limits : ValueLimits} {b : Bytes} :
    v.zcveBytesWithLimits limits = .ok b ↔
      (∃ m, v.validateLimits limits = .ok m) ∧ encodeZcveValue v = .ok b ∧ b.length ≤ usizeMax := by
  unfold Value.zcveBytesWithLimits Value.encodeZcveToWithLimits
  cases hm : v.validateLimits limits with
  | error e => simp [error_bind]
  | ok m =>
    cases hb : encodeZcveValue v with
    | error e => simp [ok_bind, error_bind]
    | ok b' =>
      simp only [ok_bind, checkedAdd, List.length_nil, Nat.zero_add]
      split_ifs with h
      · simp only [ok_bind, pure_eq, List.nil_append, Except.ok.injEq]
        constructor
        · rintro rfl
          exact ⟨⟨m, rfl⟩, rfl, h⟩
        · exact fun h => h.2.1
      · simp only [error_bind, reduceCtorEq, Except.ok.injEq, false_iff, not_and]
        rintro _ rfl
        exact h

/-- **Bytes.** A valid value within its limits is written as its own bytes -/
theorem Valid.zcveBytesWithLimits (hv : Valid v) {limits : ValueLimits} {b : Bytes} :
    v.zcveBytesWithLimits limits = .ok b ↔
      (∃ m, v.validateLimits limits = .ok m) ∧ b = wire v ∧ (wire v).length ≤ usizeMax := by
  rw [zcveBytesWithLimits_eq_ok, encodeZcveValue_eq hv, Except.ok.injEq]
  constructor
  · rintro ⟨hm, rfl, hlen⟩
    exact ⟨hm, rfl, hlen⟩
  · rintro ⟨hm, rfl, hlen⟩
    exact ⟨hm, rfl, hlen⟩

theorem checkEntryValues_ok (h : Value.checkEntryValues entries = .ok ()) :
    ∀ e ∈ entries, (wire e.value).length ≤ u32Max := by
  induction entries with
  | nil => simp
  | cons e entries ih =>
    simp only [Value.checkEntryValues, bind_eq_ok] at h
    obtain ⟨n, hn, _, hfit, hrest⟩ := h
    rw [encodedLength_ok hn] at hfit
    rintro g (_ | ⟨_, hg⟩)
    · exact checkWireLength_eq_ok.1 hfit
    · exact ih hrest g hg

/-- entries whose values fit are checked -/
theorem checkEntryValues_of (hv : ∀ e ∈ entries, Valid e.value)
    (h : ∀ e ∈ entries, (wire e.value).length ≤ u32Max) : Value.checkEntryValues entries = .ok () := by
  induction entries with
  | nil => rfl
  | cons e entries ih =>
    have hfit := h e List.mem_cons_self
    simp only [Value.checkEntryValues,
      encodedLength_of_le (hv e List.mem_cons_self) (le_trans hfit (by decide)), ok_bind]
    rw [(checkWireLength_eq_ok (u := ())).2 hfit, ok_bind]
    exact ih (fun g hg => hv g (List.mem_cons_of_mem _ hg)) (fun g hg => h g (List.mem_cons_of_mem _ hg))

/-- an entry that is built holds the bytes of its key -/
theorem tryNewWithLimits_valid {key value : Value} {limits : ValueLimits} {e : MapEntry} (hk : Valid key)
    (h : MapEntry.tryNewWithLimits key value limits = .ok e) :
    e = .mk (wire key) key value ∧ (wire key).length ≤ u32Max := by
  simp only [MapEntry.tryNewWithLimits, bind_eq_ok, hk.zcveBytesWithLimits] at h
  obtain ⟨b, ⟨_, rfl, _⟩, _, hlen, he⟩ := h
  exact ⟨(Except.ok.inj he).symm, checkWireLength_eq_ok.1 hlen⟩

/-- a record that is built is valid -/
theorem recordCanonical_valid (hs : ∀ f ∈ fields, Valid f.value)
    (h : Value.recordCanonical fields = .ok v) : Valid v := by
  simp only [Value.recordCanonical, bind_eq_ok, checkWireLength_eq_ok, ensureStrictFields_eq_ok] at h
  obtain ⟨_, hlen, _, hord, hv⟩ := h
  rw [← Except.ok.inj hv]
  exact .record hlen hord hs

/-- a map that is built is valid -/
theorem mapCanonical_valid
    (hs : ∀ e ∈ entries, Valid e.key ∧ Valid e.value ∧ e.encodedKey = wire e.key ∧ e.encodedKey.length ≤ u32Max)
    (h : Value.mapCanonical entries = .ok v) : Valid v := by
  simp only [Value.mapCanonical, bind_eq_ok, checkWireLength_eq_ok, ensureStrictMapKeys_eq_ok] at h
  obtain ⟨_, hlen, _, hord, _, hfit, hv⟩ := h
  rw [← Except.ok.inj hv]
  exact .map hlen hord (fun e he => (hs e he).1) (fun e he => (hs e he).2.1) (fun e he => (hs e he).2.2)
    (checkEntryValues_ok hfit)

mutual

/-- **Constructed values are structurally valid.** -/
theorem built_valid {v : Value} : Built v → Valid v
  | .unit => .unit
  | .boolean b => .bool b
  | .unsigned n => .u128 n
  | .signed n => .i128 n
  | .enumeration t w => .enum t w
  | .sum t w hp => .sum t w fun v hv => built_valid (hp v hv)
  | .bytesWithLimits h => by
    simp only [Value.bytesWithLimits, bind_eq_ok] at h
    obtain ⟨_, hlen, _, _, hv⟩ := h
    rw [← Except.ok.inj hv]
    exact .bytes (checkWireLength_eq_ok.1 hlen)
  | .ownedBytes h => by
    unfold Value.ownedBytes Value.bytesWithMax at h
    split_ifs at h with hlen
    rw [← Except.ok.inj h]
    exact .bytes (le_trans (not_lt.1 hlen) (by decide))
  | .textAsciiWithLimits h => by
    unfold Value.textAsciiWithLimits at h
    split_ifs at h with hascii
    simp only [bind_eq_ok] at h
    obtain ⟨_, hlen, _, _, hv⟩ := h
    rw [← Except.ok.inj hv]
    exact .text (by simpa using hascii) (checkWireLength_eq_ok.1 hlen)
  | .textAscii h => by
    unfold Value.textAscii Value.textAsciiWithMax at h
    split_ifs at h with hascii hlen
    rw [← Except.ok.inj h]
    exact .text (by simpa using hascii) (le_trans (not_lt.1 hlen) (by decide))
  | .tuple hs h => by
    simp only [Value.tupleOf, bind_eq_ok, checkWireLength_eq_ok] at h
    obtain ⟨_, hlen, hv⟩ := h
    rw [← Except.ok.inj hv]
    exact .tuple hlen fun w hw => built_valid (hs w hw)
  | .vector hs h => by
    simp only [Value.vectorOf, bind_eq_ok, checkWireLength_eq_ok] at h
    obtain ⟨_, hlen, hv⟩ := h
    rw [← Except.ok.inj hv]
    exact .vector hlen fun w hw => built_valid (hs w hw)
  | .recordCanonical hs h => recordCanonical_valid (fun f hf => built_valid (hs f hf)) h
  | .normalizeRecord hs h =>
    recordCanonical_valid (fun f hf => built_valid (hs f (List.mem_mergeSort.1 hf))) h
  | .mapCanonical hs h => mapCanonical_valid (fun e he => builtEntry_valid (hs e he)) h
  | .normalizeMap hs h =>
    mapCanonical_valid (fun e he => builtEntry_valid (hs e (List.mem_mergeSort.1 he))) h

/-- an entry that is built is valid -/
theorem builtEntry_valid {e : MapEntry} :
    BuiltEntry e → Valid e.key ∧ Valid e.value ∧ e.encodedKey = wire e.key ∧ e.encodedKey.length ≤ u32Max
  | .tryNewWithLimits hk hv h => by
    obtain ⟨rfl, hlen⟩ := tryNewWithLimits_valid (built_valid hk) h
    exact ⟨built_valid hk, built_valid hv, rfl, hlen⟩

end

/-! ## Monotonicity of validation -/

/-- `m` has spent no more nodes and payload than `n` -/
structure Below (m n : ValueMetrics) : Prop where
  nodes : m.nodes ≤ n.nodes
  payload : m.payloadBytes ≤ n.payloadBytes

variable {limits : ValueLimits} {d d₀ : ℕ} {m m₀ m' : ValueMetrics}

/-- a payload is charged within its limit -/
theorem addPayload_eq_ok : addPayload n limits m = .ok m' ↔
    m.payloadBytes + n ≤ limits.maxPayloadBytes.toNat ∧ m' = { m with payloadBytes := m.payloadBytes + n } := by
  have hmax : limits.maxPayloadBytes.toNat ≤ u64Max := Nat.le_pred_of_lt limits.maxPayloadBytes.toNat_lt
  simp only [addPayload, bind_eq_ok, checkedAdd_eq_ok]
  constructor
  · rintro ⟨_, ⟨_, rfl⟩, h⟩
    split_ifs at h with hlim
    exact ⟨not_lt.1 hlim, (Except.ok.inj h).symm⟩
  · rintro ⟨hlim, rfl⟩
    exact ⟨_, ⟨le_trans hlim hmax, rfl⟩, if_neg (not_lt.2 hlim)⟩

/-- a node is charged within the limits of depth and nodes -/
theorem enterValue_eq_ok : enterValue d limits m = .ok m' ↔
    d ≤ limits.effectiveMaxDepth.toNat ∧ m.nodes + 1 ≤ limits.maxNodes.toNat ∧
      m' = { m with nodes := m.nodes + 1, depth := max m.depth d } := by
  have hmax : limits.maxNodes.toNat ≤ u64Max := Nat.le_pred_of_lt limits.maxNodes.toNat_lt
  unfold enterValue
  split_ifs with hd
  · simp [not_le.2 hd]
  · simp only [bind_eq_ok, checkedAdd_eq_ok, not_lt.1 hd, true_and]
    constructor
    · rintro ⟨_, ⟨_, rfl⟩, h⟩
      split_ifs at h with hlim
      exact ⟨not_lt.1 hlim, (Except.ok.inj h).symm⟩
    · rintro ⟨hlim, rfl⟩
      exact ⟨_, ⟨le_trans hlim hmax, rfl⟩, if_neg (not_lt.2 hlim)⟩

/-- admission at depth `d` carries over to every smaller depth and spending -/
def Monotone (validate : ℕ → ValueLimits → ValueMetrics → Except ValueError ValueMetrics) : Prop :=
  ∀ ⦃limits d d₀ m m₀ m'⦄, validate d limits m = .ok m' → d₀ ≤ d → Below m₀ m →
    ∃ m₀', validate d₀ limits m₀ = .ok m₀' ∧ Below m₀' m'

theorem addPayload_mono (n : ℕ) : Monotone fun _ limits m => addPayload n limits m := by
  intro limits d d₀ m m₀ m' h hd hb
  obtain ⟨hlim, rfl⟩ := addPayload_eq_ok.1 h
  have := hb.payload
  exact ⟨_, addPayload_eq_ok.2 ⟨by omega, rfl⟩, hb.nodes, by simpa using hb.payload⟩

theorem enterValue_mono : Monotone enterValue := by
  intro limits d d₀ m m₀ m' h hd hb
  obtain ⟨hdepth, hnodes, rfl⟩ := enterValue_eq_ok.1 h
  have := hb.nodes
  exact ⟨_, enterValue_eq_ok.2 ⟨by omega, by omega, rfl⟩, by simpa using hb.nodes, hb.payload⟩

namespace Monotone

variable {f g : ℕ → ValueLimits → ValueMetrics → Except ValueError ValueMetrics}

theorem bind (hf : Monotone f) (hg : Monotone g) : Monotone fun d limits m => f d limits m >>= g d limits := by
  intro limits d d₀ m m₀ m' h hd hb
  obtain ⟨m₁, h₁, h⟩ := bind_eq_ok.1 h
  obtain ⟨n₁, hn₁, hb₁⟩ := hf h₁ hd hb
  obtain ⟨n, hn, hb'⟩ := hg h hd hb₁
  exact ⟨n, bind_eq_ok.2 ⟨n₁, hn₁, hn⟩, hb'⟩

theorem check {α : Type} (c : ValueLimits → Except ValueError α)
    {g : α → ℕ → ValueLimits → ValueMetrics → Except ValueError ValueMetrics} (hg : ∀ a, Monotone (g a)) :
    Monotone fun d limits m => c limits >>= fun a => g a d limits m := by
  intro limits d d₀ m m₀ m' h hd hb
  obtain ⟨a, ha, h⟩ := bind_eq_ok.1 h
  obtain ⟨n, hn, hb'⟩ := hg a h hd hb
  exact ⟨n, bind_eq_ok.2 ⟨a, ha, hn⟩, hb'⟩

theorem deeper (hf : Monotone f) :
    Monotone fun d limits m => checkedAdd u32Max d 1 .arithmeticOverflow >>= fun d => f d limits m := by
  intro limits d d₀ m m₀ m' h hd hb
  simp only [bind_eq_ok, checkedAdd_eq_ok] at h ⊢
  obtain ⟨_, ⟨hle, rfl⟩, hm⟩ := h
  obtain ⟨n, hn, hb'⟩ := hf hm (by omega : d₀ + 1 ≤ d + 1) hb
  exact ⟨n, ⟨_, ⟨by omega, rfl⟩, hn⟩, hb'⟩

end Monotone

theorem validateItems_mono (h : ∀ v ∈ items, Monotone (validateValue v)) : Monotone (validateItems items) := by
  induction items with
  | nil => exact fun _ _ _ _ m₀ _ hm _ hb => ⟨m₀, rfl, Except.ok.inj hm ▸ hb⟩
  | cons v items ih =>
    unfold Monotone
    simp only [validateItems]
    exact (h v List.mem_cons_self).bind (ih fun w hw => h w (List.mem_cons_of_mem _ hw))

theorem validateFields_mono (h : ∀ f ∈ fields, Monotone (validateValue f.value)) :
    Monotone (validateFields fields) := by
  induction fields with
  | nil => exact fun _ _ _ _ m₀ _ hm _ hb => ⟨m₀, rfl, Except.ok.inj hm ▸ hb⟩
  | cons f fields ih =>
    obtain ⟨i, v⟩ := f
    unfold Monotone
    simp only [validateFields]
    exact (h (.mk i v) List.mem_cons_self).bind (ih fun g hg => h g (List.mem_cons_of_mem _ hg))

theorem validateEntries_mono
    (h : ∀ e ∈ entries, Monotone (validateValue e.key) ∧ Monotone (validateValue e.value)) :
    Monotone (validateEntries entries) := by
  induction entries with
  | nil => exact fun _ _ _ _ m₀ _ hm _ hb => ⟨m₀, rfl, Except.ok.inj hm ▸ hb⟩
  | cons e entries ih =>
    obtain ⟨b, k, v⟩ := e
    obtain ⟨hk, hv⟩ := h (.mk b k v) List.mem_cons_self
    unfold Monotone
    simp only [validateEntries]
    exact (addPayload_mono _).bind (.check _ fun n => (addPayload_mono n).bind
      (hk.bind (hv.bind (ih fun g hg => h g (List.mem_cons_of_mem _ hg)))))

/-- **Monotonicity.** A value admitted at depth `d` with some budget already spent is admitted at every smaller depth
with every smaller spending. -/
theorem validateValue_mono (v : Value) : Monotone (validateValue v) := by
  induction v with
  | bytes b =>
    unfold Monotone
    simp only [validateValue]
    exact enterValue_mono.bind (addPayload_mono _)
  | text t =>
    unfold Monotone
    simp only [validateValue]
    split_ifs with hascii
    · exact enterValue_mono.bind fun _ _ _ _ _ _ h => (by cases h)
    · exact enterValue_mono.bind (addPayload_mono _)
  | tuple items ih | vector items ih =>
    unfold Monotone
    simp only [validateValue]
    exact enterValue_mono.bind (.check _ fun _ => (validateItems_mono ih).deeper)
  | record fields ih =>
    unfold Monotone
    simp only [validateValue]
    exact enterValue_mono.bind (.check _ fun _ => .check _ fun _ => (validateFields_mono ih).deeper)
  | map entries ih =>
    unfold Monotone
    simp only [validateValue]
    exact enterValue_mono.bind (.check _ fun _ => .check _ fun _ => (validateEntries_mono ih).deeper)
  | sum t w payload ih =>
    cases payload with
    | none => exact enterValue_mono
    | some v =>
      unfold Monotone
      simp only [validateValue]
      exact enterValue_mono.bind (ih v rfl).deeper
  | _ => exact enterValue_mono

end ZenoFcis
