/-
Canonical plan bytes through the strict decoder: what is read back, and the one bound that a planned update can exceed.
-/
import ZenoFcis.Authenticated.Delta

namespace ZenoFcis.Authenticated

open Lib Lib.Except Patch

/-! ## Cursor steps -/

namespace AuthCursor

variable {c c' : Cursor} {b : Bytes}

/-- a part that is consumed is taken -/
theorem take_ok (hc : c.Fits) (h : c.Consumes b c') : take c b.length = .ok (b, c') := by
  have hlen := congrArg List.length h.unread
  have hle := c'.le
  rw [h.bytes, h.offset] at hle
  have hadd : checkedAdd usizeMax c.offset b.length AuthDecodeError.lengthOverflow = .ok (c.offset + b.length) :=
    checkedAdd_eq_ok.2 ⟨le_trans hle hc, rfl⟩
  rw [take, hadd, ok_bind, dif_pos hle]
  have hfront : (c.bytes.drop c.offset).take b.length = b := by
    rw [show c.bytes.drop c.offset = b ++ c'.unread from h.unread, List.take_left]
  simp only [hfront, pure_eq, Except.ok.injEq, Prod.mk.injEq, true_and]
  have hb := h.bytes
  have ho := h.offset
  cases c'
  simp_all

theorem takeU8_ok (hc : c.Fits) {x : UInt8} (h : c.Consumes [x] c') : takeU8 c = .ok (x, c') := by
  rw [takeU8, show 1 = [x].length from rfl, take_ok hc h]
  rfl

theorem takeU16_ok (hc : c.Fits) {x : UInt16} (h : c.Consumes (beBytes 2 x.toNat) c') : takeU16 c = .ok (x, c') := by
  have htake := take_ok hc h
  rw [beBytes_length] at htake
  rw [takeU16, htake, ok_bind]
  simp only [pure_eq]
  rw [ofBeBytes_beBytes_of_lt x.toNat_lt, UInt16.ofNat_toNat]

theorem takeU32_ok (hc : c.Fits) {x : UInt32} (h : c.Consumes (beBytes 4 x.toNat) c') : takeU32 c = .ok (x, c') := by
  have htake := take_ok hc h
  rw [beBytes_length] at htake
  rw [takeU32, htake, ok_bind]
  simp only [pure_eq]
  rw [ofBeBytes_beBytes_of_lt x.toNat_lt, UInt32.ofNat_toNat]

theorem takeU64_ok (hc : c.Fits) {x : UInt64} (h : c.Consumes (beBytes 8 x.toNat) c') : takeU64 c = .ok (x, c') := by
  have htake := take_ok hc h
  rw [beBytes_length] at htake
  rw [takeU64, htake, ok_bind]
  simp only [pure_eq]
  rw [ofBeBytes_beBytes_of_lt x.toNat_lt, UInt64.ofNat_toNat]

theorem takeHash32_ok (hc : c.Fits) {x : Hash32} (h : c.Consumes x.bytes c') : takeHash32 c = .ok (x, c') := by
  have htake := take_ok hc h
  rw [x.length_eq] at htake
  rw [takeHash32, htake, ok_bind]
  simp only [pure_eq, Hash32.ofSlice_self]

theorem length_toNat {n : ℕ} (hn : n ≤ u32Max) : (UInt32.ofNat n).toNat = n :=
  UInt32.toNat_ofNat_of_lt' (Nat.lt_succ_of_le hn)

theorem takeLength_ok (hc : c.Fits) {n : ℕ} (hn : n ≤ u32Max) (h : c.Consumes (beBytes 4 n) c') :
    takeU32 c = .ok (UInt32.ofNat n, c') := by
  refine takeU32_ok hc ?_
  rwa [length_toNat hn]

theorem takeBlob_ok (hc : c.Fits) (hb : b.length ≤ u32Max) (h : c.Consumes (blob 4 b) c') : takeBlob c = .ok (b,
  c') := by
  obtain ⟨c₁, h₁, h₂⟩ := Cursor.consumes_append.1 h
  rw [takeBlob, takeLength_ok hc hb h₁, ok_bind]
  simp only [length_toNat hb]
  exact take_ok (h₁.fits hc) h₂

end AuthCursor

open AuthCursor (length_toNat takeLength_ok takeU8_ok takeU16_ok takeU64_ok takeHash32_ok takeBlob_ok)

theorem boundedCapacity_ok (count : UInt32) (remaining : ℕ) {minimum : ℕ} (h : minimum ≠ 0) :
    boundedCapacity count remaining minimum = .ok (min count.toNat (remaining / minimum)) := if_neg h

theorem requireComplete_ok {c : Cursor} (h : c.unread = []) : requireComplete c = .ok () :=
  if_pos (Cursor.remaining_eq_zero.2 h)

theorem requireCanonical_ok {b : Bytes} {value : Except EncodeError Bytes} (h : value = .ok b) :
    requireCanonical b value = .ok () := by
  rw [requireCanonical, h]
  exact if_pos rfl

/-! ## Batches -/

variable {limits : AuthenticatedDecodeLimits} {c c' : Cursor} {b : Bytes}

/-- what `canonical_bytes` accepts under the default limits is decoded under them -/
theorem decodeAuthenticatedValue_ok {v : Value} (hv : Built v) (h : v.canonicalBytes = .ok b)
    (hvalue : limits.value.value = .default) (hlen : b.length ≤ limits.value.maxInputBytes.toNat) :
    decodeAuthenticatedValue b limits = .ok v := by
  obtain ⟨⟨m, hm⟩, rfl, _⟩ := (canonicalValueBytesWithLimits_eq_ok (built_valid hv)).1 h
  refine mapError_eq_ok.2 (decodeValue_eq_ok.2 ⟨m, decodeValueWithMetrics_eq_ok.2 ⟨hlen, built_valid hv, rfl, ?_⟩⟩)
  rw [hvalue]
  exact hm

/-- the values of a batch can be built -/
def NodeBatch.Built (writes : List LeafWrite) : Prop := ∀ w ∈ writes, ∀ v, w.left = some v → ZenoFcis.Built v

theorem decodeWrites_ok {writes : List LeafWrite} {previousKey : Option Hash32} (hc : c.Fits)
    (hord : Increasing LeafWrite.key writes) (hprevious : ∀ k ∈ previousKey, ∀ w ∈ writes, k < w.key)
    (hbuilt : NodeBatch.Built writes) (hvalue : limits.value.value = .default)
    (hlen : b.length ≤ limits.value.maxInputBytes.toNat) (h : NodeBatch.encodeWrites writes = .ok b)
    (hread : c.Consumes b c') : decodeWrites limits writes.length previousKey c = .ok (writes, c') := by
  induction writes generalizing previousKey c b with
  | nil =>
    cases h
    rw [Cursor.Consumes.nil_iff.1 hread]
    rfl
  | cons w writes ih =>
    have hfresh : ∀ key, w.key = key → (previousKey.any fun previous => decide (key ≤ previous)) = false := by
      rintro key rfl
      cases previousKey with
      | none => rfl
      | some k => simpa using hprevious k rfl w List.mem_cons_self
    have hnext : ∀ k ∈ some w.key, ∀ w' ∈ writes, k < w'.key := by
      intro k hk w' hw'
      cases hk
      exact hord.head_lt hw'
    have hrest : NodeBatch.Built writes := fun w' hw' => hbuilt w' (List.mem_cons_of_mem _ hw')
    cases w with
    | put key value =>
      simp only [NodeBatch.encodeWrites, bind_eq_ok] at h
      obtain ⟨bytes, hbytes, framed, hframed, tail, htail, hb⟩ := h
      obtain ⟨hsmall, rfl⟩ := putBlob_eq_ok.1 hframed
      cases hb
      simp only [List.append_assoc, List.cons_append, List.length_cons, List.length_append, blob_length] at hlen hread
      obtain ⟨c₁, h₁, hread⟩ := Cursor.consumes_cons.1 hread
      obtain ⟨c₂, h₂, hread⟩ := Cursor.consumes_append.1 hread
      obtain ⟨c₃, h₃, hread⟩ := Cursor.consumes_append.1 hread
      have hc₁ := h₁.fits hc
      have hc₂ := h₂.fits hc₁
      have hdecode : decodeAuthenticatedValue bytes limits = .ok value :=
        decodeAuthenticatedValue_ok (hbuilt _ List.mem_cons_self value rfl) hbytes hvalue (by omega)
      simp only [List.length_cons, decodeWrites, takeU8_ok hc h₁, takeHash32_ok hc₁ h₂, ok_bind]
      have hloop : decodeWrites limits writes.length (some key) c₃ = .ok (writes, c') :=
        ih (h₃.fits hc₂) hord.tail hnext hrest (by omega) htail hread
      simp only [hfresh key rfl, Bool.false_eq_true, if_false, takeBlob_ok hc₂ hsmall h₃, hdecode, ok_bind, hloop]
      rfl
    | delete key =>
      simp only [NodeBatch.encodeWrites, bind_eq_ok] at h
      obtain ⟨tail, htail, hb⟩ := h
      cases hb
      simp only [List.cons_append, List.length_cons, List.length_append] at hlen hread
      obtain ⟨c₁, h₁, hread⟩ := Cursor.consumes_cons.1 hread
      obtain ⟨c₂, h₂, hread⟩ := Cursor.consumes_append.1 hread
      have hc₁ := h₁.fits hc
      simp only [List.length_cons, decodeWrites, takeU8_ok hc h₁, takeHash32_ok hc₁ h₂, ok_bind]
      have hloop : decodeWrites limits writes.length (some key) c₂ = .ok (writes, c') :=
        ih (h₂.fits hc₁) hord.tail hnext hrest (by omega) htail hread
      simp only [hfresh key rfl, Bool.false_eq_true, if_false, ok_bind, hloop]
      rfl

theorem decodeNodeBatch_canonical {batch : NodeBatch} (hb : b.length ≤ usizeMax)
    (hord : Increasing LeafWrite.key batch.writes) (hbuilt : NodeBatch.Built batch.writes)
    (hvalue : limits.value.value = .default) (hlen : b.length ≤ limits.value.maxInputBytes.toNat)
    (h : batch.canonicalBytes = .ok b) :
    decodeNodeBatch b limits = if batch.writes.length ≤ limits.maxWrites.toNat then .ok batch
      else .error (.writeLimit limits.maxWrites (UInt32.ofNat batch.writes.length)) := by
  have hcanonical := h
  simp only [NodeBatch.canonicalBytes, bind_eq_ok] at h
  obtain ⟨count, hcount, bytes, hbytes, hall⟩ := h
  obtain ⟨hsmall, rfl⟩ := putLength_eq_ok.1 hcount
  cases hall
  have hc : (Cursor.new (beBytes 4 batch.writes.length ++ bytes)).Fits := hb
  obtain ⟨c', hread, hend⟩ := Cursor.exists_consumes (c := .new (beBytes 4 batch.writes.length ++ bytes))
    (a := beBytes 4 batch.writes.length ++ bytes) (r := []) (by simp)
  obtain ⟨c₁, h₁, h₂⟩ := Cursor.consumes_append.1 hread
  rw [List.length_append] at hlen
  have hwrites : decodeWrites limits batch.writes.length none c₁ = .ok (batch.writes, c') :=
    decodeWrites_ok (h₁.fits hc) hord (by simp) hbuilt hvalue (by omega) hbytes h₂
  rw [decodeNodeBatch, takeLength_ok hc hsmall h₁, ok_bind]
  simp only [length_toNat hsmall]
  split_ifs with hmax hle
  · exact absurd hmax (not_lt.2 hle)
  · rfl
  · rw [boundedCapacity_ok _ _ (by decide), ok_bind, hwrites, ok_bind]
    simp only [requireComplete_ok hend, requireCanonical_ok hcanonical, ok_bind]
    rfl
  · exact absurd (not_lt.1 hmax) (by assumption)

/-! ## Stale nodes -/

theorem decodeStaleNodes_ok {stale : List StaleNodeCandidate} {previousKey : Option Hash32} {version : UInt64}
    {batch : NodeBatch} (hc : c.Fits) (hord : Increasing StaleNodeCandidate.key stale)
    (hprevious : ∀ k ∈ previousKey, ∀ s ∈ stale, k < s.key) (hbatch : Increasing LeafWrite.key batch.writes)
    (hstale : ∀ s ∈ stale, s.staleSinceVersion = version ∧ ∃ w ∈ batch.writes, w.key = s.key)
    (hread : c.Consumes (stale.flatMap StaleNodeCandidate.canonicalBytes) c') :
    decodeStaleNodes version batch stale.length previousKey c = .ok (stale, c') := by
  induction stale generalizing previousKey c with
  | nil =>
    rw [Cursor.Consumes.nil_iff.1 hread]
    rfl
  | cons s stale ih =>
    have hfresh : (previousKey.any fun previous => decide (s.key ≤ previous)) = false := by
      cases previousKey with
      | none => rfl
      | some k => simpa using hprevious k rfl s List.mem_cons_self
    have hnext : ∀ k ∈ some s.key, ∀ s' ∈ stale, k < s'.key := by
      intro k hk s' hs'
      cases hk
      exact hord.head_lt hs'
    obtain ⟨hversion, w, hw, hkey⟩ := hstale s List.mem_cons_self
    simp only [List.flatMap_cons, StaleNodeCandidate.canonicalBytes, List.append_assoc] at hread
    obtain ⟨c₁, h₁, hread⟩ := Cursor.consumes_append.1 hread
    obtain ⟨c₂, h₂, hread⟩ := Cursor.consumes_append.1 hread
    obtain ⟨c₃, h₃, hread⟩ := Cursor.consumes_append.1 hread
    have hc₁ := h₁.fits hc
    have hc₂ := h₂.fits hc₁
    have htail := ih (h₃.fits hc₂) hord.tail hnext (fun s' hs' => hstale s' (List.mem_cons_of_mem _ hs')) hread
    simp only [List.length_cons, decodeStaleNodes, takeU64_ok hc h₁, ok_bind, hversion, ne_eq, not_true_eq_false,
      if_false, takeHash32_ok hc₁ h₂, hfresh, Bool.false_eq_true]
    cases hsearch : binarySearch LeafWrite.key s.key batch.writes with
    | error i => exact absurd hkey (slot_eq_none.1 (binarySearch_error hbatch hsearch).1 w hw)
    | ok i =>
      simp only [takeHash32_ok hc₂ h₃, ok_bind, htail]
      rw [← hversion]
      rfl

/-! ## Plans -/

/-- what a plan must be for its bytes to be read back -/
structure DecodedAuthenticatedPlan.Transportable (plan : DecodedAuthenticatedPlan) : Prop where
  successor : successorVersion plan.expectedVersion = some plan.nextVersion
  writes : Increasing LeafWrite.key plan.nodeBatch.writes
  built : NodeBatch.Built plan.nodeBatch.writes
  stale : Increasing StaleNodeCandidate.key plan.staleNodes
  stale_written : ∀ s ∈ plan.staleNodes,
    s.staleSinceVersion = plan.expectedVersion ∧ ∃ w ∈ plan.nodeBatch.writes, w.key = s.key

theorem decodeProfile_ok (hc : c.Fits) {profile : AuthenticatedProfile} (h : c.Consumes profile.canonicalBytes c') :
    decodeProfile c = .ok (profile, c') := by
  simp only [AuthenticatedProfile.canonicalBytes, List.append_assoc] at h
  obtain ⟨c₁, h₁, h⟩ := Cursor.consumes_append.1 h
  obtain ⟨c₂, h₂, h₃⟩ := Cursor.consumes_append.1 h
  have hc₁ := h₁.fits hc
  have hnew : AuthenticatedProfile.tryNew profile.treeId profile.profileHash profile.projectorHash = .ok profile := by
    unfold AuthenticatedProfile.tryNew
    rw [dif_neg (by simpa only [not_or] using profile.nonzero)]
  simp only [decodeProfile, takeHash32_ok hc h₁, takeHash32_ok hc₁ h₂, takeHash32_ok (h₂.fits hc₁) h₃, ok_bind, hnew]
  rfl

/-- **Canonical plans.** A transportable plan is read from its canonical bytes, within the limit of its writes. -/
theorem decodeAuthenticatedPlan_canonical {plan : DecodedAuthenticatedPlan} (hplan : plan.Transportable)
    (hvalue : limits.value.value = .default) (hinput : limits.maxInputBytes ≤ limits.value.maxInputBytes)
    (hstale : plan.staleNodes.length ≤ limits.maxStaleNodes.toNat) (h : plan.canonicalBytes = .ok b)
    (hlen : b.length ≤ limits.maxInputBytes.toNat) :
    decodeAuthenticatedPlan b limits = if plan.nodeBatch.writes.length ≤ limits.maxWrites.toNat then .ok plan
      else .error (.writeLimit limits.maxWrites (UInt32.ofNat plan.nodeBatch.writes.length)) := by
  have hcanonical := h
  have hmax : limits.maxInputBytes.toNat ≤ u64Max := Nat.le_pred_of_lt limits.maxInputBytes.toNat_lt
  have hvalueMax : limits.maxInputBytes.toNat ≤ limits.value.maxInputBytes.toNat := UInt64.le_iff_toNat_le.1 hinput
  simp only [DecodedAuthenticatedPlan.canonicalBytes, bind_eq_ok] at h
  obtain ⟨batch, hbatch, framed, hframed, count, hcount, hall⟩ := h
  obtain ⟨hsmall, rfl⟩ := putBlob_eq_ok.1 hframed
  obtain ⟨hcountSmall, rfl⟩ := putLength_eq_ok.1 hcount
  have hb := (Except.ok.inj hall).symm
  have hc : (Cursor.new b).Fits := by
    have husize : u64Max ≤ usizeMax := le_rfl
    exact le_trans hlen (le_trans hmax husize)
  have hbatchLen : batch.length ≤ b.length := by
    rw [hb]
    simp only [List.length_append, blob_length]
    omega
  have henforce : enforceAuthenticatedInputLimit b limits = .ok () := by
    rw [enforceAuthenticatedInputLimit, if_neg (not_lt.2 (le_trans hlen hmax)), if_neg (not_lt.2 hlen)]
  have hnodes := @decodeNodeBatch_canonical limits _ plan.nodeBatch (le_trans hbatchLen hc) hplan.writes hplan.built
    hvalue (by omega) hbatch
  obtain ⟨c', hread, hend⟩ := Cursor.exists_consumes (c := .new b) (r := [])
    ((Cursor.unread_new b).trans (hb.trans (List.append_nil _).symm))
  obtain ⟨c₁, h₁, hread⟩ := Cursor.consumes_append.1 hread
  obtain ⟨c₂, h₂, hread⟩ := Cursor.consumes_append.1 hread
  obtain ⟨c₃, h₃, hread⟩ := Cursor.consumes_append.1 hread
  obtain ⟨c₄, h₄, hread⟩ := Cursor.consumes_append.1 hread
  obtain ⟨c₅, h₅, hread⟩ := Cursor.consumes_append.1 hread
  obtain ⟨c₆, h₆, hread⟩ := Cursor.consumes_append.1 hread
  obtain ⟨c₇, h₇, hread⟩ := Cursor.consumes_append.1 hread
  obtain ⟨c₈, h₈, hread⟩ := Cursor.consumes_append.1 hread
  obtain ⟨c₉, h₉, hread⟩ := Cursor.consumes_append.1 hread
  obtain ⟨c₁₀, h₁₀, hread⟩ := Cursor.consumes_append.1 hread
  obtain ⟨c₁₁, h₁₁, hread⟩ := Cursor.consumes_append.1 hread
  have hc₁ := h₁.fits hc
  have hc₂ := h₂.fits hc₁
  have hc₃ := h₃.fits hc₂
  have hc₄ := h₄.fits hc₃
  have hc₅ := h₅.fits hc₄
  have hc₆ := h₆.fits hc₅
  have hc₇ := h₇.fits hc₆
  have hc₈ := h₈.fits hc₇
  have hc₉ := h₉.fits hc₈
  have hc₁₀ := h₁₀.fits hc₉
  have hloop := @decodeStaleNodes_ok _ _ plan.staleNodes none _ plan.nodeBatch (h₁₁.fits hc₁₀) hplan.stale (by simp)
    hplan.writes hplan.stale_written hread
  rw [decodeAuthenticatedPlan, henforce, ok_bind, takeU16_ok hc h₁, ok_bind]
  simp only [ne_eq, not_true_eq_false, if_false, decodeProfile_ok hc₁ h₂, takeU64_ok hc₂ h₃, takeU64_ok hc₃ h₄, ok_bind,
    hplan.successor, takeHash32_ok hc₄ h₅, takeHash32_ok hc₅ h₆, takeHash32_ok hc₆ h₇, takeHash32_ok hc₇ h₈,
    takeHash32_ok hc₈ h₉, takeBlob_ok hc₉ hsmall h₁₀, hnodes]
  split_ifs with hwrites
  · simp only [ok_bind, takeLength_ok hc₁₀ hcountSmall h₁₁, length_toNat hcountSmall, not_lt.2 hstale, if_false,
    boundedCapacity_ok _ _ (by decide : 72 ≠ 0),
      hloop, requireComplete_ok hend, requireCanonical_ok hcanonical]
    rfl
  · rfl

end ZenoFcis.Authenticated
