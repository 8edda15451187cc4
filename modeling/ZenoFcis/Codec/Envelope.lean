/-
Typed envelopes: the frame around one canonical value, its three encoders and its decoder.

Model:
- the output vector of an encoder is a state (`Emit`): a check may fail at any point and what was written stays
  written, so that "a refusal leaves the output as it was" is a theorem about the order of checks and writes;
- an admitted value or envelope carries its admission as a field, as the source's private fields do.

Result: `envelope_framing`. The decoder, which skips the re-encode, accepts exactly the frames that the limited encoder
emits; an envelope is admitted exactly when that encoder succeeds, and then retains the length it emits.
-/
import ZenoFcis.Codec.Agreement

namespace ZenoFcis

open Lib Lib.Except

/-! ## Output -/

/-- an encoder writing to an output vector -/
abbrev Emit := ExceptT EncodeError (StateM Bytes)

namespace Emit

/-- a check that touches no output -/
def check {α : Type} (result : Except EncodeError α) : Emit α := ExceptT.mk (pure result)

def extendFromSlice (bytes : Bytes) : Emit Unit := modify (· ++ bytes)

/-- `output.len().checked_add(length)` -/
def checkRoom (length : ℕ) (error : EncodeError) : Emit Unit := do
  let output ← get
  let _ ← check (checkedAdd usizeMax output.length length error)

/-- result and final output of an encoder on an output vector -/
def runOn {α : Type} (encode : Emit α) (output : Bytes) : Except EncodeError α × Bytes := encode.run.run output

/-- `canonical_bytes`: the output of an encoder that starts from an empty vector -/
def canonicalBytes (encode : Emit Unit) : Except EncodeError Bytes :=
  match encode.runOn [] with
  | (.ok (), output) => .ok output
  | (.error error, _) => .error error

variable {α β : Type} {x : Emit α} {f : α → Emit β} {out out' : Bytes}

/-- running a sequence hands on the output -/
theorem bind_run : (x >>= f).runOn out =
    match x.runOn out with
    | (.ok a, mid) => (f a).runOn mid
    | (.error e, mid) => (.error e, mid) := by
  have hbind : (x >>= f).runOn out = ExceptT.bindCont f (x.runOn out).1 (x.runOn out).2 := rfl
  rw [hbind]
  rcases x.runOn out with ⟨_ | a, mid⟩ <;> rfl

theorem check_run (r : Except EncodeError α) : (check r).runOn out = (r, out) := rfl

theorem extendFromSlice_run (b : Bytes) : (extendFromSlice b).runOn out = (.ok (), out ++ b) := rfl

theorem checkRoom_run (length : ℕ) (error : EncodeError) : (checkRoom length error).runOn out =
    ((checkedAdd usizeMax out.length length error).map fun _ => (), out) := by
  have hget : (get : Emit Bytes).runOn out = (.ok out, out) := rfl
  rw [checkRoom, bind_run, hget]
  simp only [bind_run, check_run]
  rcases checkedAdd usizeMax out.length length error with e | n <;> rfl

end Emit

/-! ## Envelopes -/

/-- `ZFCISV1` and a zero byte -/
def envelopeMagic : Bytes := [0x5a, 0x46, 0x43, 0x49, 0x53, 0x56, 0x31, 0x00]

def envelopeOverheadBytes : ℕ := 8 + 4 + 32 + 4

structure Envelope where
  typeId : UInt32
  schemaHash : Hash32
  value : Value

/-- the payload length and frame bound checked by every admission and every encoder -/
def checkEnvelopeInput (length : ℕ) (maxInputBytes : UInt64) : Except EncodeError ℕ := do
  if u32Max < length then .error .lengthOverflow
  else
    let attempted ← checkedAdd u64Max envelopeOverheadBytes length .lengthOverflow
    if attempted > maxInputBytes.toNat then .error (.envelopeInputLimit maxInputBytes.toNat attempted)
    else .ok attempted

/-- all fallible validation and arithmetic precedes the first output write -/
def appendEnvelope (typeId : UInt32) (schemaHash : Hash32) (payload : Bytes) (maxInputBytes : UInt64) : Emit Unit := do
  let total ← Emit.check (checkEnvelopeInput payload.length maxInputBytes)
  Emit.checkRoom total .lengthOverflow
  Emit.extendFromSlice envelopeMagic
  Emit.extendFromSlice (beBytes 4 typeId.toNat)
  Emit.extendFromSlice schemaHash.bytes
  Emit.extendFromSlice (beBytes 4 payload.length)
  Emit.extendFromSlice payload

namespace Envelope

def encodeToWithLimits (envelope : Envelope) (limits : DecodeLimits) : Emit Unit := do
  let payload ← Emit.check (canonicalValueBytesWithLimits envelope.value limits.value)
  appendEnvelope envelope.typeId envelope.schemaHash payload limits.maxInputBytes

def canonicalBytesWithLimits (envelope : Envelope) (limits : DecodeLimits) : Except EncodeError Bytes :=
  (envelope.encodeToWithLimits limits).canonicalBytes

end Envelope

/-- a value admitted under the limits it retains -/
structure AdmittedValue where
  value : Value
  metrics : ValueMetrics
  limits : ValueLimits
  admitted : value.validateLimits limits = .ok metrics

namespace AdmittedValue

def tryNewWithLimits (value : Value) (limits : ValueLimits) : Except ValueError AdmittedValue :=
  match h : value.validateLimits limits with
  | .ok metrics => .ok ⟨value, metrics, limits, h⟩
  | .error error => .error error

/-- appends the encoding without validating the limits again -/
def encodeTo (value : AdmittedValue) : Emit Unit := do
  let encoded ← Emit.check ((encodeZcveValue value.value).mapError mapValueEncodeError)
  Emit.checkRoom encoded.length (mapValueEncodeError .arithmeticOverflow)
  Emit.extendFromSlice encoded

def canonicalBytes (value : AdmittedValue) : Except EncodeError Bytes := value.encodeTo.canonicalBytes

end AdmittedValue

/-- an envelope admitted under the limits it retains, with its payload length -/
structure AdmittedEnvelope where
  typeId : UInt32
  schemaHash : Hash32
  value : AdmittedValue
  payloadLength : ℕ
  maxInputBytes : UInt64
  payload_eq : encodedLength value.value = .ok payloadLength
  fits : ∃ attempted, checkEnvelopeInput payloadLength maxInputBytes = .ok attempted

namespace AdmittedEnvelope

def tryNewWithLimits (typeId : UInt32) (schemaHash : Hash32) (value : AdmittedValue) (limits : DecodeLimits) :
    Except EncodeError AdmittedEnvelope := do
  let value ← if value.limits = limits.value then .ok value
    else (AdmittedValue.tryNewWithLimits value.value limits.value).mapError mapValueEncodeError
  match hlength : encodedLength value.value with
  | .error error => .error (mapValueEncodeError error)
  | .ok payloadLength =>
    match hfits : checkEnvelopeInput payloadLength limits.maxInputBytes with
    | .error error => .error error
    | .ok attempted =>
      .ok ⟨typeId, schemaHash, value, payloadLength, limits.maxInputBytes, hlength, attempted, hfits⟩

def tryFromEnvelopeWithLimits (envelope : Envelope) (limits : DecodeLimits) : Except EncodeError AdmittedEnvelope := do
  let value ← (AdmittedValue.tryNewWithLimits envelope.value limits.value).mapError mapValueEncodeError
  tryNewWithLimits envelope.typeId envelope.schemaHash value limits

def encodedLength (envelope : AdmittedEnvelope) : ℕ := envelopeOverheadBytes + envelope.payloadLength

def encodeTo (envelope : AdmittedEnvelope) : Emit Unit := do
  let payload ← Emit.check envelope.value.canonicalBytes
  appendEnvelope envelope.typeId envelope.schemaHash payload envelope.maxInputBytes

def canonicalBytes (envelope : AdmittedEnvelope) : Except EncodeError Bytes := envelope.encodeTo.canonicalBytes

end AdmittedEnvelope

/-- `copy_from_slice` into a zeroed 32-byte array; a slice of another length is never copied -/
def Hash32.ofSlice (slice : Bytes) : Hash32 := if h : slice.length = 32 then ⟨slice, h⟩ else .zero

/-- decodes one canonical envelope, without re-encoding it -/
def decodeEnvelope (bytes : Bytes) (limits : DecodeLimits) : Except DecodeError Envelope := do
  enforceInputLimit bytes limits
  let (magic, cursor) ← (Cursor.new bytes).take envelopeMagic.length
  if magic ≠ envelopeMagic then .error .envelopeMagic
  else
    let (typeId, cursor) ← cursor.takeU32
    let (schemaBytes, cursor) ← cursor.take 32
    let (payload, cursor) ← cursor.takeBlob limits.maxInputBytes.toNat
    if cursor.remaining ≠ 0 then .error (.trailingBytes cursor.offset)
    else
      let value ← decodeValue payload limits
      return ⟨typeId, .ofSlice schemaBytes, value⟩

/-! ## The frame -/

def envelopeFrame (typeId : UInt32) (schemaHash : Hash32) (payload : Bytes) : Bytes :=
  envelopeMagic ++ (beBytes 4 typeId.toNat ++ (schemaHash.bytes ++ blob 4 payload))

section Frame

variable {typeId : UInt32} {schemaHash : Hash32} {payload out b : Bytes} {maxInputBytes : UInt64} {n : ℕ}

theorem envelopeFrame_length :
    (envelopeFrame typeId schemaHash payload).length = envelopeOverheadBytes + payload.length := by
  simp only [envelopeFrame, List.length_append, beBytes_length, schemaHash.length_eq, blob_length, envelopeMagic,
    envelopeOverheadBytes, List.length_cons, List.length_nil]
  omega

/-- a payload fits when its envelope is within the input limit -/
theorem checkEnvelopeInput_eq_ok {attempted : ℕ} : checkEnvelopeInput n maxInputBytes = .ok attempted ↔
    n ≤ u32Max ∧ envelopeOverheadBytes + n ≤ maxInputBytes.toNat ∧ attempted = envelopeOverheadBytes + n := by
  have hmax : maxInputBytes.toNat ≤ u64Max := Nat.le_pred_of_lt maxInputBytes.toNat_lt
  unfold checkEnvelopeInput
  split_ifs with h
  · simp [not_le.2 h]
  · simp only [bind_eq_ok, checkedAdd_eq_ok]
    constructor
    · rintro ⟨_, ⟨_, rfl⟩, h'⟩
      split_ifs at h' with hlim
      exact ⟨not_lt.1 h, not_lt.1 hlim, (Except.ok.inj h').symm⟩
    · rintro ⟨_, hlim, rfl⟩
      exact ⟨_, ⟨le_trans hlim hmax, rfl⟩, if_neg (not_lt.2 hlim)⟩

/-- an envelope that fits is appended to the output -/
theorem appendEnvelope_ok (hn : payload.length ≤ u32Max)
    (hlim : envelopeOverheadBytes + payload.length ≤ maxInputBytes.toNat)
    (hroom : out.length + (envelopeOverheadBytes + payload.length) ≤ usizeMax) :
    (appendEnvelope typeId schemaHash payload maxInputBytes).runOn out =
      (.ok (), out ++ envelopeFrame typeId schemaHash payload) := by
  have hcheck := checkEnvelopeInput_eq_ok.2 ⟨hn, hlim, rfl⟩
  have hadd := (checkedAdd_eq_ok (e := EncodeError.lengthOverflow)).2 ⟨hroom, rfl⟩
  simp only [appendEnvelope, Emit.bind_run, Emit.check_run, hcheck, Emit.checkRoom_run, hadd, Except.map,
    Emit.extendFromSlice_run, envelopeFrame, blob, List.append_assoc]

theorem appendEnvelope_error {e : EncodeError} {out' : Bytes}
    (h : (appendEnvelope typeId schemaHash payload maxInputBytes).runOn out = (.error e, out')) :
    out' = out ∧ ¬(payload.length ≤ u32Max ∧ envelopeOverheadBytes + payload.length ≤ maxInputBytes.toNat ∧
      out.length + (envelopeOverheadBytes + payload.length) ≤ usizeMax) := by
  have hno : ¬(payload.length ≤ u32Max ∧ envelopeOverheadBytes + payload.length ≤ maxInputBytes.toNat ∧
      out.length + (envelopeOverheadBytes + payload.length) ≤ usizeMax) := by
    rintro ⟨hn, hlim, hroom⟩
    rw [appendEnvelope_ok hn hlim hroom] at h
    cases h
  refine ⟨?_, hno⟩
  simp only [appendEnvelope, Emit.bind_run, Emit.check_run, Emit.checkRoom_run, Emit.extendFromSlice_run] at h
  rcases hcheck : checkEnvelopeInput payload.length maxInputBytes with e' | total
  · rw [hcheck] at h
    exact (Prod.mk.inj h).2.symm
  · simp only [hcheck] at h
    rcases hadd : checkedAdd usizeMax out.length total EncodeError.lengthOverflow with e' | n
    · rw [hadd] at h
      exact (Prod.mk.inj h).2.symm
    · rw [hadd] at h
      cases h

end Frame

/-! ## The limited encoder -/

/-- an envelope that fits `limits` -/
structure Envelope.Fits (envelope : Envelope) (limits : DecodeLimits) : Prop where
  admitted : ∃ m, envelope.value.validateLimits limits.value = .ok m
  payload : (wire envelope.value).length ≤ u32Max
  input : envelopeOverheadBytes + (wire envelope.value).length ≤ limits.maxInputBytes.toNat

def Envelope.frame (envelope : Envelope) : Bytes :=
  envelopeFrame envelope.typeId envelope.schemaHash (wire envelope.value)

section Encode

variable {envelope : Envelope} {limits : DecodeLimits} {b out out' : Bytes}

/-- **Bytes.** A valid value within its limits has its own bytes as canonical bytes -/
theorem canonicalValueBytesWithLimits_eq_ok {v : Value} (hv : Valid v) {limits : ValueLimits} :
    canonicalValueBytesWithLimits v limits = .ok b ↔
      (∃ m, v.validateLimits limits = .ok m) ∧ b = wire v ∧ (wire v).length ≤ usizeMax := by
  rw [canonicalValueBytesWithLimits, mapError_eq_ok, hv.zcveBytesWithLimits]

theorem Envelope.encodeToWithLimits_error {e : EncodeError}
    (h : (envelope.encodeToWithLimits limits).runOn out = (.error e, out')) : out' = out := by
  simp only [Envelope.encodeToWithLimits, Emit.bind_run, Emit.check_run] at h
  rcases hpayload : canonicalValueBytesWithLimits envelope.value limits.value with e' | payload
  · rw [hpayload] at h
    exact (Prod.mk.inj h).2.symm
  · rw [hpayload] at h
    exact (appendEnvelope_error h).1

theorem Envelope.Fits.encodeToWithLimits (hv : Valid envelope.value) (h : envelope.Fits limits)
    (hroom : out.length + envelope.frame.length ≤ usizeMax) :
    (envelope.encodeToWithLimits limits).runOn out = (.ok (), out ++ envelope.frame) := by
  have hlen : (wire envelope.value).length ≤ usizeMax := le_trans h.payload (by decide)
  rw [Envelope.frame, envelopeFrame_length] at hroom
  simp only [Envelope.encodeToWithLimits, Emit.bind_run, Emit.check_run,
    (canonicalValueBytesWithLimits_eq_ok hv).2 ⟨h.admitted, rfl, hlen⟩]
  exact appendEnvelope_ok h.payload h.input hroom

/-- the frame of an envelope that fits is within the limit -/
theorem Envelope.Fits.frame_length (h : envelope.Fits limits) :
    envelope.frame.length ≤ limits.maxInputBytes.toNat := by
  rw [Envelope.frame, envelopeFrame_length]
  exact h.input

theorem Envelope.canonicalBytesWithLimits_eq_ok (hv : Valid envelope.value) :
    envelope.canonicalBytesWithLimits limits = .ok b ↔ envelope.Fits limits ∧ b = envelope.frame := by
  unfold Envelope.canonicalBytesWithLimits Emit.canonicalBytes
  constructor
  · intro h
    rcases hrun : (envelope.encodeToWithLimits limits).runOn [] with ⟨e | _, out⟩
    · rw [hrun] at h
      cases h
    have hfits : envelope.Fits limits := by
      simp only [Envelope.encodeToWithLimits, Emit.bind_run, Emit.check_run] at hrun
      rcases hpayload : canonicalValueBytesWithLimits envelope.value limits.value with e | payload
      · rw [hpayload] at hrun
        cases hrun
      · rw [hpayload] at hrun
        obtain ⟨hadmitted, rfl, _⟩ := (canonicalValueBytesWithLimits_eq_ok hv).1 hpayload
        simp only [appendEnvelope, Emit.bind_run, Emit.check_run] at hrun
        rcases hcheck : checkEnvelopeInput (wire envelope.value).length limits.maxInputBytes with e | n
        · rw [hcheck] at hrun
          cases hrun
        · obtain ⟨hn, hlim, _⟩ := checkEnvelopeInput_eq_ok.1 hcheck
          exact ⟨hadmitted, hn, hlim⟩
    rw [hfits.encodeToWithLimits hv (by simpa using DecodeLimits.fits hfits.frame_length)] at h
    exact ⟨hfits, (Except.ok.inj h).symm⟩
  · rintro ⟨hfits, rfl⟩
    rw [hfits.encodeToWithLimits hv (by simpa using DecodeLimits.fits hfits.frame_length)]
    rfl

end Encode

/-! ## The decoder -/

/-- a hash made of 32 bytes keeps them -/
theorem Hash32.ofSlice_bytes {b : Bytes} (h : b.length = 32) : (Hash32.ofSlice b).bytes = b := by
  rw [Hash32.ofSlice, dif_pos h]

theorem Hash32.ofSlice_self (h : Hash32) : Hash32.ofSlice h.bytes = h := by
  rw [Hash32.ofSlice, dif_pos h.length_eq]

theorem decodeEnvelope_eq_ok {b : Bytes} {limits : DecodeLimits} {e : Envelope} :
    decodeEnvelope b limits = .ok e ↔ Valid e.value ∧ e.Fits limits ∧ b = e.frame := by
  simp only [decodeEnvelope, bind_eq_ok, enforceInputLimit_eq_ok]
  constructor
  · rintro ⟨_, hinput, ⟨magic, c1⟩, h1, h⟩
    have hf : (Cursor.new b).Fits := DecodeLimits.fits hinput
    obtain ⟨_, hc1⟩ := (Cursor.take_eq_ok hf).1 h1
    have hf1 := hc1.fits hf
    dsimp only at h
    split_ifs at h with hmagic
    obtain rfl := not_not.1 hmagic
    simp only [bind_eq_ok, Prod.exists, Cursor.takeU32_eq_ok hf1] at h
    obtain ⟨t, c2, hc2, hash, c3, h3, payload, c4, h4, h⟩ := h
    have hf2 := hc2.fits hf1
    obtain ⟨hhash, hc3⟩ := (Cursor.take_eq_ok hf2).1 h3
    obtain ⟨_, hpayload, hc4⟩ := (Cursor.takeBlob_eq_ok (hc3.fits hf2)).1 h4
    split_ifs at h with hrem
    simp only [bind_eq_ok, pure_eq, Except.ok.injEq] at h
    obtain ⟨v, hv, rfl⟩ := h
    obtain ⟨m, hm⟩ := decodeValue_eq_ok.1 hv
    obtain ⟨_, hvalid, rfl, hadmit⟩ := decodeValueWithMetrics_eq_ok.1 hm
    have hframe := (hc1.trans (hc2.trans (hc3.trans hc4))).unread
    rw [Cursor.remaining_eq_zero.1 (not_not.1 hrem), List.append_nil, Cursor.unread_new] at hframe
    have hb : b = Envelope.frame ⟨t, .ofSlice hash, v⟩ := by
      rw [hframe, Envelope.frame, envelopeFrame, Hash32.ofSlice_bytes hhash]
    refine ⟨hvalid, ⟨⟨m, hadmit⟩, hpayload, ?_⟩, hb⟩
    rw [hb, Envelope.frame, envelopeFrame_length] at hinput
    exact hinput
  · rintro ⟨hv, hfits, rfl⟩
    have hf : (Cursor.new e.frame).Fits := DecodeLimits.fits hfits.frame_length
    obtain ⟨c4, hc4, hrem⟩ := Cursor.exists_consumes (c := .new e.frame) (List.append_nil _).symm
    obtain ⟨c1, hc1, hrest⟩ := Cursor.consumes_append.1 hc4
    obtain ⟨c2, hc2, hrest⟩ := Cursor.consumes_append.1 hrest
    obtain ⟨c3, hc3, hc4'⟩ := Cursor.consumes_append.1 hrest
    have hf1 := hc1.fits hf
    have hf2 := hc2.fits hf1
    have hinput := hfits.input
    obtain ⟨m, hm⟩ := hfits.admitted
    refine ⟨(), hfits.frame_length, (envelopeMagic, c1), (Cursor.take_eq_ok hf).2 ⟨rfl, hc1⟩, ?_⟩
    simp only [ne_eq, not_true_eq_false, if_false, bind_eq_ok, Prod.exists, Cursor.takeU32_eq_ok hf1]
    refine ⟨e.typeId, c2, hc2, e.schemaHash.bytes, c3, (Cursor.take_eq_ok hf2).2 ⟨e.schemaHash.length_eq, hc3⟩,
      wire e.value, c4, (Cursor.takeBlob_eq_ok (hc3.fits hf2)).2 ⟨by omega, hfits.payload, hc4'⟩, ?_⟩
    rw [if_neg (not_not.2 (Cursor.remaining_eq_zero.2 hrem)), bind_eq_ok]
    refine ⟨e.value, decodeValue_eq_ok.2 ⟨m, decodeValueWithMetrics_eq_ok.2 ⟨by omega, hv, rfl, hm⟩⟩, ?_⟩
    rw [Hash32.ofSlice_self]
    rfl

/-! ## Admission -/

section Admission

variable {v : Value} {limits : DecodeLimits}

/-- an admitted value is the value with its limits -/
theorem AdmittedValue.tryNewWithLimits_eq_ok {limits : ValueLimits} {a : AdmittedValue} :
    AdmittedValue.tryNewWithLimits v limits = .ok a ↔ a.value = v ∧ a.limits = limits := by
  unfold AdmittedValue.tryNewWithLimits
  constructor
  · intro h
    split at h
    · cases h
      exact ⟨rfl, rfl⟩
    · cases h
  · obtain ⟨w, m, l, ha⟩ := a
    rintro ⟨rfl, rfl⟩
    split
    · rename_i m' hm'
      obtain rfl := Except.ok.inj (ha.symm.trans hm')
      rfl
    · rename_i e he
      rw [ha] at he
      cases he

theorem AdmittedValue.tryNewWithLimits_ok {limits : ValueLimits} {m : ValueMetrics}
    (h : v.validateLimits limits = .ok m) : AdmittedValue.tryNewWithLimits v limits = .ok ⟨v, m, limits, h⟩ :=
  AdmittedValue.tryNewWithLimits_eq_ok.2 ⟨rfl, rfl⟩

theorem AdmittedValue.canonicalBytes_eq {a : AdmittedValue} (hv : Valid a.value)
    (hlen : (wire a.value).length ≤ usizeMax) : a.canonicalBytes = .ok (wire a.value) := by
  have hadd := (checkedAdd_eq_ok (e := mapValueEncodeError .arithmeticOverflow)).2
    ⟨show ([] : Bytes).length + (wire a.value).length ≤ usizeMax by simpa using hlen, rfl⟩
  simp only [AdmittedValue.canonicalBytes, Emit.canonicalBytes, AdmittedValue.encodeTo, Emit.bind_run, Emit.check_run,
    encodeZcveValue_eq hv, Except.mapError, Emit.checkRoom_run, hadd, Except.map, Emit.extendFromSlice_run,
    List.nil_append]

theorem AdmittedEnvelope.tryNewWithLimits_eq_ok {t : UInt32} {h : Hash32} {av : AdmittedValue} {a : AdmittedEnvelope}
    (hl : av.limits = limits.value) :
    AdmittedEnvelope.tryNewWithLimits t h av limits = .ok a ↔
      a.typeId = t ∧ a.schemaHash = h ∧ a.value = av ∧ a.maxInputBytes = limits.maxInputBytes := by
  unfold AdmittedEnvelope.tryNewWithLimits
  rw [if_pos hl, ok_bind]
  dsimp only
  constructor
  · intro hok
    split at hok
    · cases hok
    · split at hok
      · cases hok
      · cases hok
        exact ⟨rfl, rfl, rfl, rfl⟩
  · obtain ⟨t', h', av', n, mx, hn, att, hatt⟩ := a
    rintro ⟨rfl, rfl, rfl, rfl⟩
    split
    · rename_i e he
      rw [hn] at he
      cases he
    · rename_i n' hn'
      obtain rfl := Except.ok.inj (hn.symm.trans hn')
      split
      · rename_i e he
        rw [hatt] at he
        cases he
      · rename_i att' hatt'
        rfl

theorem AdmittedEnvelope.tryFromEnvelope_ok {e : Envelope} (hv : Valid e.value) :
    (∃ a, AdmittedEnvelope.tryFromEnvelopeWithLimits e limits = .ok a) ↔ e.Fits limits := by
  simp only [AdmittedEnvelope.tryFromEnvelopeWithLimits, bind_eq_ok, mapError_eq_ok]
  constructor
  · rintro ⟨a, av, hav, ha⟩
    obtain ⟨hvalue, hl⟩ := AdmittedValue.tryNewWithLimits_eq_ok.1 hav
    obtain ⟨_, _, ha', hmax⟩ := (AdmittedEnvelope.tryNewWithLimits_eq_ok hl).1 ha
    obtain ⟨att, hatt⟩ := a.fits
    obtain ⟨hn, hlim, _⟩ := checkEnvelopeInput_eq_ok.1 hatt
    rw [encodedLength_ok a.payload_eq, ha', hvalue] at hn hlim
    exact ⟨⟨av.metrics, hvalue ▸ hl ▸ av.admitted⟩, hn, hmax ▸ hlim⟩
  · rintro ⟨⟨m, hm⟩, hn, hlim⟩
    have hlen := encodedLength_of_le hv (le_trans hn (by decide))
    refine ⟨⟨e.typeId, e.schemaHash, ⟨e.value, m, limits.value, hm⟩, _, limits.maxInputBytes, hlen, _,
      checkEnvelopeInput_eq_ok.2 ⟨hn, hlim, rfl⟩⟩, _, AdmittedValue.tryNewWithLimits_ok hm, ?_⟩
    exact (AdmittedEnvelope.tryNewWithLimits_eq_ok rfl).2 ⟨rfl, rfl, rfl, rfl⟩

theorem AdmittedEnvelope.canonicalBytes_eq {e : Envelope} {a : AdmittedEnvelope} (hv : Valid e.value)
    (h : AdmittedEnvelope.tryFromEnvelopeWithLimits e limits = .ok a) :
    a.canonicalBytes = .ok e.frame ∧ a.encodedLength = e.frame.length := by
  have hfits := (AdmittedEnvelope.tryFromEnvelope_ok hv).1 ⟨a, h⟩
  simp only [AdmittedEnvelope.tryFromEnvelopeWithLimits, bind_eq_ok, mapError_eq_ok] at h
  obtain ⟨av, hav, ha⟩ := h
  obtain ⟨hvalue, hl⟩ := AdmittedValue.tryNewWithLimits_eq_ok.1 hav
  obtain ⟨ht, hh, ha', hmax⟩ := (AdmittedEnvelope.tryNewWithLimits_eq_ok hl).1 ha
  have hpayload : a.value.canonicalBytes = .ok (wire e.value) := by
    rw [ha', ← hvalue]
    exact AdmittedValue.canonicalBytes_eq (hvalue ▸ hv) (hvalue ▸ le_trans hfits.payload (by decide))
  have hrun : (appendEnvelope a.typeId a.schemaHash (wire e.value) a.maxInputBytes).runOn [] =
      (.ok (), [] ++ envelopeFrame a.typeId a.schemaHash (wire e.value)) := by
    refine appendEnvelope_ok hfits.payload (hmax ▸ hfits.input) ?_
    simpa [Envelope.frame, envelopeFrame_length] using DecodeLimits.fits hfits.frame_length
  constructor
  · simp only [AdmittedEnvelope.canonicalBytes, Emit.canonicalBytes, AdmittedEnvelope.encodeTo, Emit.bind_run,
      Emit.check_run, hpayload, hrun, List.nil_append]
    rw [ht, hh]
    rfl
  · rw [AdmittedEnvelope.encodedLength, encodedLength_ok a.payload_eq, ha', hvalue, Envelope.frame,
      envelopeFrame_length]

end Admission

/-- **Framing.** Decoding accepts exactly the frames of the limited encoder; admission succeeds exactly when that
encoder does, and retains its length and bytes; a refused encoding leaves the output as it was. -/
theorem envelope_framing :
    (∀ b limits e, decodeEnvelope b limits = .ok e ↔ Built e.value ∧ e.canonicalBytesWithLimits limits = .ok b) ∧
    (∀ e : Envelope, Built e.value → ∀ limits,
      ((∃ a, AdmittedEnvelope.tryFromEnvelopeWithLimits e limits = .ok a) ↔
        ∃ b, e.canonicalBytesWithLimits limits = .ok b) ∧
      ∀ a, AdmittedEnvelope.tryFromEnvelopeWithLimits e limits = .ok a →
        ∃ b, e.canonicalBytesWithLimits limits = .ok b ∧ a.encodedLength = b.length ∧ a.canonicalBytes = .ok b) ∧
    (∀ (e : Envelope) limits output error output',
      (e.encodeToWithLimits limits).runOn output = (.error error, output') → output' = output) := by
  refine ⟨fun b limits e => ?_, fun e he limits => ⟨?_, fun a ha => ?_⟩, fun e limits output error output' h => ?_⟩
  · rw [decodeEnvelope_eq_ok]
    constructor
    · rintro ⟨hv, hfits, rfl⟩
      obtain ⟨m, hm⟩ := hfits.admitted
      exact ⟨hv.built_of_limits hm, (Envelope.canonicalBytesWithLimits_eq_ok hv).2 ⟨hfits, rfl⟩⟩
    · rintro ⟨he, hbytes⟩
      have hv := built_valid he
      exact ⟨hv, (Envelope.canonicalBytesWithLimits_eq_ok hv).1 hbytes⟩
  · simp only [Envelope.canonicalBytesWithLimits_eq_ok (built_valid he),
      AdmittedEnvelope.tryFromEnvelope_ok (built_valid he), exists_and_left, exists_eq, and_true]
  · have hv := built_valid he
    have hfits := (AdmittedEnvelope.tryFromEnvelope_ok hv).1 ⟨a, ha⟩
    obtain ⟨hbytes, hlen⟩ := AdmittedEnvelope.canonicalBytes_eq hv ha
    exact ⟨e.frame, (Envelope.canonicalBytesWithLimits_eq_ok hv).2 ⟨hfits, rfl⟩, hlen, hbytes⟩
  · exact Envelope.encodeToWithLimits_error h

end ZenoFcis
