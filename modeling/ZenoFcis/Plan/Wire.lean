/-
The wire format of plans. What the item decoder of either plan accepts is the wire of an item whose values the budget
can pay (`PlanItem.decoded`), and so for whole plans; the budget is a running sum, so it is checked once at the end.

Result: `plan_wire`. For both plans, the order of construction does not matter, decoding inverts encoding exactly within
the bounds, and the final comparison refuses a wrong order, or a value that the default limits of the encoder refuse.
-/
import ZenoFcis.Patch.Wire
import ZenoFcis.Plan.Decode

namespace ZenoFcis

open Lib Lib.Except Patch

/-! ## Cursor steps -/

namespace PlanCursor

variable {c c' : Cursor} {b : Bytes}

theorem take_eq_ok (hc : c.Fits) {n : ℕ} : take c n = .ok (b, c') ↔ b.length = n ∧ c.Consumes b c' :=
  mapError_eq_ok.trans (Cursor.take_eq_ok hc)

theorem takeU32_eq_ok (hc : c.Fits) {x : UInt32} : takeU32 c = .ok (x, c') ↔ c.Consumes (beBytes 4 x.toNat) c' :=
  mapError_eq_ok.trans (Cursor.takeU32_eq_ok hc)

theorem takeHash32_eq_ok (hc : c.Fits) {x : Hash32} : takeHash32 c = .ok (x, c') ↔ c.Consumes x.bytes c' := by
  simp only [takeHash32, bind_eq_ok, Prod.exists, take_eq_ok hc, pure_eq, Except.ok.injEq, Prod.mk.injEq]
  constructor
  · rintro ⟨b, _, ⟨hlen, h⟩, rfl, rfl⟩
    rwa [Hash32.ofSlice_bytes hlen]
  · intro h
    exact ⟨x.bytes, c', ⟨x.length_eq, h⟩, x.ofSlice_self, rfl⟩

theorem takeLength_ok (hc : c.Fits) {n : ℕ} (hn : n ≤ u32Max) (h : c.Consumes (beBytes 4 n) c') :
    takeU32 c = .ok (UInt32.ofNat n, c') := by
  apply (takeU32_eq_ok hc).2
  rwa [UInt32.toNat_ofNat_of_lt' (Nat.lt_succ_of_le hn)]

theorem takeBlob_eq_ok (hc : c.Fits) : takeBlob c = .ok (b, c') ↔ b.length ≤ u32Max ∧ c.Consumes (blob 4 b) c' := by
  constructor
  · intro h
    obtain ⟨⟨n, c₁⟩, h₁, h⟩ := bind_eq_ok.1 h
    have h₁ := (takeU32_eq_ok hc).1 h₁
    obtain ⟨hlen, h₂⟩ := (take_eq_ok (h₁.fits hc)).1 h
    have hn : b.length ≤ u32Max := hlen.trans_le (Nat.le_pred_of_lt n.toNat_lt)
    refine ⟨hn, Cursor.consumes_append.2 ⟨c₁, ?_, h₂⟩⟩
    rwa [hlen]
  · rintro ⟨hlen, h⟩
    obtain ⟨c₁, h₁, h₂⟩ := Cursor.consumes_append.1 h
    apply bind_eq_ok.2
    refine ⟨_, takeLength_ok hc hlen h₁, (take_eq_ok (h₁.fits hc)).2 ⟨?_, h₂⟩⟩
    exact (UInt32.toNat_ofNat_of_lt' (Nat.lt_succ_of_le hlen)).symm

theorem capacity_ok (count : UInt32) (c : Cursor) {minimum : ℕ} (h : minimum ≠ 0) :
    capacity count c minimum = .ok (min count.toNat (c.remaining / minimum)) := mapError_eq_ok.2 (if_neg h)

theorem finished_eq_ok {u : Unit} : finished c = .ok u ↔ c.unread = [] := by
  rw [finished, ensure_eq_ok, Cursor.remaining_eq_zero]

end PlanCursor

/-! ## The budget -/

namespace PlanDecodeState

variable {limits : PlanDecodeLimits} {s s' s'' : PlanDecodeState} {vs ws : List Value}

/-- the state after the values `vs` are charged -/
def charge (limits : PlanDecodeLimits) (s : PlanDecodeState) (vs : List Value) : PlanDecodeState :=
  ⟨s.valueNodes + (vs.map fun v => (v.spent limits.value.value).nodes).sum,
    s.valuePayloadBytes + (vs.map fun v => (v.spent limits.value.value).payloadBytes).sum⟩

theorem charge_append : s.charge limits (vs ++ ws) = (s.charge limits vs).charge limits ws := by
  simp only [charge, List.map_append, List.sum_append, Nat.add_assoc]

structure Within (limits : PlanDecodeLimits) (s : PlanDecodeState) : Prop where
  nodes : s.valueNodes ≤ limits.maxValueNodes.toNat
  payloadBytes : s.valuePayloadBytes ≤ limits.maxValuePayloadBytes.toNat

theorem within_zero : Within limits ⟨0, 0⟩ := ⟨Nat.zero_le _, Nat.zero_le _⟩

theorem Within.of_charge (h : Within limits (s.charge limits vs)) : Within limits s :=
  ⟨(Nat.le_add_right _ _).trans h.nodes, (Nat.le_add_right _ _).trans h.payloadBytes⟩

end PlanDecodeState

open PlanDecodeState

/-- the limits of one value admit `v`, and its wire can be framed -/
structure PlanDecodeLimits.Admits (limits : PlanDecodeLimits) (v : Value) : Prop where
  valid : Valid v
  accepted : ∃ metrics, v.validateLimits limits.value.value = .ok metrics
  input : (wire v).length ≤ limits.value.maxInputBytes.toNat
  framed : (wire v).length ≤ u32Max

/-- the values `vs` are admitted, and the budget that pays for them goes from `s` to `s'` -/
structure Charged (limits : PlanDecodeLimits) (s : PlanDecodeState) (vs : List Value) (s' : PlanDecodeState) : Prop where
  admits : ∀ v ∈ vs, limits.Admits v
  state : s' = s.charge limits vs
  within : Within limits s'

section Budget

variable {limits : PlanDecodeLimits} {s s' s'' : PlanDecodeState} {vs ws : List Value}

theorem charged_nil (h : Within limits s) : Charged limits s [] s' ↔ s' = s := by
  constructor
  · intro hs
    exact hs.state
  · intro hs
    subst hs
    exact ⟨List.forall_mem_nil _, rfl, h⟩

theorem charged_append : Charged limits s (vs ++ ws) s'' ↔ ∃ s', Charged limits s vs s' ∧ Charged limits s' ws s'' := by
  constructor
  · intro h
    have hadmits := List.forall_mem_append.1 h.admits
    have hstate := h.state
    have hwithin := h.within
    rw [charge_append] at hstate
    refine ⟨_, ⟨hadmits.1, rfl, ?_⟩, hadmits.2, hstate, hwithin⟩
    rw [hstate] at hwithin
    exact hwithin.of_charge
  · rintro ⟨s', h, h'⟩
    refine ⟨List.forall_mem_append.2 ⟨h.admits, h'.admits⟩, ?_, h'.within⟩
    rw [charge_append, ← h.state]
    exact h'.state

/-- **Values.** What is decoded is charged, and what can be charged is decoded. -/
theorem decodePlanValue_eq_ok {b : Bytes} (hb : b.length ≤ u32Max) {v : Value} :
    decodePlanValue limits b s = .ok (v, s') ↔ b = wire v ∧ Charged limits s [v] s' := by
  have hmaxNodes : limits.maxValueNodes.toNat ≤ u64Max := Nat.le_pred_of_lt limits.maxValueNodes.toNat_lt
  have hmaxPayload : limits.maxValuePayloadBytes.toNat ≤ u64Max :=
    Nat.le_pred_of_lt limits.maxValuePayloadBytes.toNat_lt
  have hcharge : ∀ metrics, v.validateLimits limits.value.value = .ok metrics →
      s.charge limits [v] = ⟨s.valueNodes + metrics.nodes, s.valuePayloadBytes + metrics.payloadBytes⟩ := by
    intro metrics hmetrics
    have hspent : v.spent limits.value.value = metrics := by rw [Value.spent, hmetrics]
    simp only [charge, List.map_cons, List.map_nil, List.sum_cons, List.sum_nil, Nat.add_zero, hspent]
  constructor
  · intro h
    obtain ⟨w, hw, h⟩ := bind_eq_ok.1 h
    obtain ⟨metrics, hmetrics, h⟩ := bind_eq_ok.1 h
    obtain ⟨nodes, hnodes, h⟩ := bind_eq_ok.1 h
    obtain ⟨_, hnodesWithin, h⟩ := bind_eq_ok.1 h
    obtain ⟨payload, hpayload, h⟩ := bind_eq_ok.1 h
    obtain ⟨_, hpayloadWithin, h⟩ := bind_eq_ok.1 h
    cases h
    have hmetrics := mapError_eq_ok.1 hmetrics
    obtain ⟨_, hread⟩ := decodeValue_eq_ok.1 (mapError_eq_ok.1 hw)
    obtain ⟨hinput, hvalid, rfl, _⟩ := decodeValueWithMetrics_eq_ok.1 hread
    obtain ⟨_, rfl⟩ := checkedAdd_eq_ok.1 hnodes
    obtain ⟨_, rfl⟩ := checkedAdd_eq_ok.1 hpayload
    refine ⟨rfl, List.forall_mem_singleton.2 ⟨hvalid, ⟨metrics, hmetrics⟩, hinput, hb⟩,
      (hcharge metrics hmetrics).symm, ?_⟩
    exact ⟨ensure_eq_ok.1 hnodesWithin, ensure_eq_ok.1 hpayloadWithin⟩
  · rintro ⟨rfl, h⟩
    have hadmits := h.admits v List.mem_cons_self
    obtain ⟨metrics, hmetrics⟩ := hadmits.accepted
    have hstate := h.state
    have hwithin := h.within
    rw [hcharge metrics hmetrics] at hstate
    subst hstate
    have hdecode : decodeValue (wire v) limits.value = .ok v :=
      decodeValue_eq_ok.2 ⟨metrics, decodeValueWithMetrics_eq_ok.2 ⟨hadmits.input, hadmits.valid, rfl, hmetrics⟩⟩
    have hnodes : s.valueNodes + metrics.nodes ≤ u64Max := hwithin.nodes.trans hmaxNodes
    have hpayload : s.valuePayloadBytes + metrics.payloadBytes ≤ u64Max := hwithin.payloadBytes.trans hmaxPayload
    refine bind_eq_ok.2 ⟨v, mapError_eq_ok.2 hdecode, bind_eq_ok.2 ⟨metrics, mapError_eq_ok.2 hmetrics, ?_⟩⟩
    refine bind_eq_ok.2 ⟨_, checkedAdd_eq_ok.2 ⟨hnodes, rfl⟩, (ensure_bind hwithin.nodes _).trans ?_⟩
    exact bind_eq_ok.2 ⟨_, checkedAdd_eq_ok.2 ⟨hpayload, rfl⟩, ensure_bind hwithin.payloadBytes _⟩

theorem decodePlanBlob_eq_ok {c c' : Cursor} (hc : c.Fits) {v : Value} :
    decodePlanBlob limits c s = .ok (v, c', s') ↔ c.Consumes (blob 4 (wire v)) c' ∧ Charged limits s [v] s' := by
  constructor
  · intro h
    obtain ⟨⟨b, c₁⟩, hb, h⟩ := bind_eq_ok.1 h
    obtain ⟨hlen, hread⟩ := (PlanCursor.takeBlob_eq_ok hc).1 hb
    obtain ⟨⟨w, s₁⟩, hw, h⟩ := bind_eq_ok.1 h
    cases h
    obtain ⟨rfl, hcharged⟩ := (decodePlanValue_eq_ok hlen).1 hw
    exact ⟨hread, hcharged⟩
  · rintro ⟨hread, hcharged⟩
    have hlen := (hcharged.admits v List.mem_cons_self).framed
    apply bind_eq_ok.2
    refine ⟨_, (PlanCursor.takeBlob_eq_ok hc).2 ⟨hlen, hread⟩, bind_eq_ok.2 ⟨(v, s'), ?_, rfl⟩⟩
    exact (decodePlanValue_eq_ok hlen).2 ⟨rfl, hcharged⟩

end Budget

/-! ## Items -/

/-- the values of an item, framed -/
def Framed (vs : List Value) : Prop := ∀ v ∈ vs, Valid v ∧ (wire v).length ≤ u32Max

/-- what is charged has a frame -/
theorem Charged.framed {limits : PlanDecodeLimits} {s s' : PlanDecodeState} {vs : List Value}
    (h : Charged limits s vs s') : Framed vs := by
  intro v hv
  exact ⟨(h.admits v hv).valid, (h.admits v hv).framed⟩

/-- a kind of plan item: what it carries, its wire, its encoder and its decoder, and how they belong together -/
structure PlanItem (α : Type) where
  ordinal : α → UInt32
  values : α → List Value
  wire : α → Bytes
  encode : α → Except EncodeError Bytes
  decode : PlanItemDecoder α
  wire_inj : ∀ {a a'}, Framed (values a) → Framed (values a') → wire a = wire a' → a = a'
  encoded : ∀ {a b}, (∀ v ∈ values a, Valid v) →
    (encode a = .ok b ↔ b = wire a ∧ ∀ v ∈ values a, v.canonicalBytes = .ok (ZenoFcis.wire v) ∧
      (ZenoFcis.wire v).length ≤ u32Max)
  decoded : ∀ {limits b s a s'}, b.length ≤ u32Max → Within limits s →
    (decode limits b s = .ok (a, s') ↔ b = wire a ∧ Charged limits s (values a) s')

/-- canonical bytes are the bytes on the wire -/
theorem Valid.canonicalBytes_wire {v : Value} (hv : Valid v) {b : Bytes} (h : v.canonicalBytes = .ok b) : b = wire v :=
  (hv.zcveBytesWithLimits.1 (mapError_eq_ok.1 h)).2.1

theorem read_value {v w : Value} {r r' : Bytes} (hv : Valid v ∧ (wire v).length ≤ u32Max)
    (hw : Valid w ∧ (wire w).length ≤ u32Max) (h : blob 4 (wire v) ++ r = blob 4 (wire w) ++ r') : v = w ∧ r = r' := by
  obtain ⟨hwire, hrest⟩ := read_blob hv.2 hw.2 h
  exact ⟨(wire_reads hv.1).inj hw.1 hwire, hrest⟩

/-! ## Evidence -/

namespace PlanEffect

def values (e : PlanEffect) : List Value := [e.payload]

def wire (e : PlanEffect) : Bytes :=
  beBytes 4 e.ordinal.toNat ++ (beBytes 4 e.operation.toNat ++ (e.authority.bytes ++ (e.subject.bytes ++
    blob 4 (ZenoFcis.wire e.payload))))

theorem wire_inj {e e' : PlanEffect} (he : Framed e.values) (he' : Framed e'.values) (h : e.wire = e'.wire) : e = e' := by
  obtain ⟨hordinal, h⟩ := read_u32 h
  obtain ⟨hoperation, h⟩ := read_u32 h
  obtain ⟨hauthority, h⟩ := List.append_inj h (e.authority.length_eq.trans e'.authority.length_eq.symm)
  obtain ⟨hsubject, h⟩ := List.append_inj h (e.subject.length_eq.trans e'.subject.length_eq.symm)
  obtain ⟨hpayload, _⟩ := @read_value _ _ [] [] (he _ List.mem_cons_self) (he' _ List.mem_cons_self) (by
    rw [List.append_nil, List.append_nil, h])
  rcases e with ⟨_, _, ⟨_, _⟩, ⟨_, _⟩, _⟩
  rcases e' with ⟨_, _, ⟨_, _⟩, ⟨_, _⟩, _⟩
  cases hordinal
  cases hoperation
  cases hauthority
  cases hsubject
  cases hpayload
  rfl

theorem encoded {e : PlanEffect} {b : Bytes} (he : ∀ v ∈ e.values, Valid v) : e.canonicalBytes = .ok b ↔
    b = e.wire ∧ ∀ v ∈ e.values, v.canonicalBytes = .ok (ZenoFcis.wire v) ∧ (ZenoFcis.wire v).length ≤ u32Max := by
  have hvalid := he e.payload List.mem_cons_self
  unfold PlanEffect.canonicalBytes
  simp only [bind_eq_ok, pure_eq, Except.ok.injEq, putBlob_eq_ok, values, List.mem_singleton, forall_eq]
  constructor
  · rintro ⟨payload, hpayload, _, ⟨hlen, rfl⟩, rfl⟩
    obtain rfl := hvalid.canonicalBytes_wire hpayload
    exact ⟨by simp only [wire, List.append_assoc], hpayload, hlen⟩
  · rintro ⟨rfl, hpayload, hlen⟩
    exact ⟨_, hpayload, _, ⟨hlen, rfl⟩, by simp only [wire, List.append_assoc]⟩

theorem decoded {limits : PlanDecodeLimits} {b : Bytes} {s s' : PlanDecodeState} {e : PlanEffect}
    (hb : b.length ≤ u32Max) : decodeEffect limits b s = .ok (e, s') ↔ b = e.wire ∧ Charged limits s e.values s' := by
  have hc : (Cursor.new b).Fits := hb.trans (by decide)
  constructor
  · intro h
    obtain ⟨⟨ordinal, c₁⟩, hordinal, h⟩ := bind_eq_ok.1 h
    have hordinal := (PlanCursor.takeU32_eq_ok hc).1 hordinal
    have hc₁ := hordinal.fits hc
    obtain ⟨⟨operation, c₂⟩, hoperation, h⟩ := bind_eq_ok.1 h
    have hoperation := (PlanCursor.takeU32_eq_ok hc₁).1 hoperation
    have hc₂ := hoperation.fits hc₁
    obtain ⟨⟨authority, c₃⟩, hauthority, h⟩ := bind_eq_ok.1 h
    have hauthority := (PlanCursor.takeHash32_eq_ok hc₂).1 hauthority
    have hc₃ := hauthority.fits hc₂
    obtain ⟨⟨subject, c₄⟩, hsubject, h⟩ := bind_eq_ok.1 h
    have hsubject := (PlanCursor.takeHash32_eq_ok hc₃).1 hsubject
    have hc₄ := hsubject.fits hc₃
    obtain ⟨⟨payload, c₅, s₁⟩, hpayload, h⟩ := bind_eq_ok.1 h
    obtain ⟨hread, hcharged⟩ := (decodePlanBlob_eq_ok hc₄).1 hpayload
    obtain ⟨_, hend, h⟩ := bind_eq_ok.1 h
    cases h
    have hwhole := hordinal.trans (hoperation.trans (hauthority.trans (hsubject.trans hread)))
    exact ⟨PatchCursor.consumes_new hwhole (PlanCursor.finished_eq_ok.1 hend), hcharged⟩
  · rintro ⟨rfl, hcharged⟩
    obtain ⟨c₅, hread, hend⟩ := exists_whole e.wire
    obtain ⟨c₁, hordinal, hread⟩ := Cursor.consumes_append.1 hread
    obtain ⟨c₂, hoperation, hread⟩ := Cursor.consumes_append.1 hread
    obtain ⟨c₃, hauthority, hread⟩ := Cursor.consumes_append.1 hread
    obtain ⟨c₄, hsubject, hread⟩ := Cursor.consumes_append.1 hread
    have hc₁ := hordinal.fits hc
    have hc₂ := hoperation.fits hc₁
    have hc₃ := hauthority.fits hc₂
    have hc₄ := hsubject.fits hc₃
    apply bind_eq_ok.2 ⟨_, (PlanCursor.takeU32_eq_ok hc).2 hordinal, _⟩
    apply bind_eq_ok.2 ⟨_, (PlanCursor.takeU32_eq_ok hc₁).2 hoperation, _⟩
    apply bind_eq_ok.2 ⟨_, (PlanCursor.takeHash32_eq_ok hc₂).2 hauthority, _⟩
    apply bind_eq_ok.2 ⟨_, (PlanCursor.takeHash32_eq_ok hc₃).2 hsubject, _⟩
    apply bind_eq_ok.2 ⟨_, (decodePlanBlob_eq_ok hc₄).2 ⟨hread, hcharged⟩, _⟩
    exact bind_eq_ok.2 ⟨(), PlanCursor.finished_eq_ok.2 hend, rfl⟩

/-- evidence records as plan items -/
def item : PlanItem PlanEffect where
  ordinal := PlanEffect.ordinal
  values := values
  wire := wire
  encode := canonicalBytes
  decode := decodeEffect
  wire_inj := wire_inj
  encoded := encoded
  decoded := fun hb _ => decoded hb

end PlanEffect

/-! ## Deliveries -/

namespace OutboxEntry

def values (e : OutboxEntry) : List Value := [e.destination, e.payload]

def wire (e : OutboxEntry) : Bytes :=
  beBytes 4 e.ordinal.toNat ++ (beBytes 4 e.channel.toNat ++ (blob 4 (ZenoFcis.wire e.destination) ++
    blob 4 (ZenoFcis.wire e.payload)))

theorem wire_inj {e e' : OutboxEntry} (he : Framed e.values) (he' : Framed e'.values) (h : e.wire = e'.wire) :
    e = e' := by
  obtain ⟨hordinal, h⟩ := read_u32 h
  obtain ⟨hchannel, h⟩ := read_u32 h
  obtain ⟨hdestination, h⟩ := read_value (he _ List.mem_cons_self) (he' _ List.mem_cons_self) h
  have hsecond : ∀ {x y : Value}, y ∈ [x, y] := fun {x y} => List.mem_cons_of_mem x List.mem_cons_self
  obtain ⟨hpayload, _⟩ := @read_value _ _ [] [] (he _ hsecond) (he' _ hsecond) (by
    rw [List.append_nil, List.append_nil, h])
  rcases e with ⟨_, _, _, _⟩
  rcases e' with ⟨_, _, _, _⟩
  cases hordinal
  cases hchannel
  cases hdestination
  cases hpayload
  rfl

theorem encoded {e : OutboxEntry} {b : Bytes} (he : ∀ v ∈ e.values, Valid v) : e.canonicalBytes = .ok b ↔
    b = e.wire ∧ ∀ v ∈ e.values, v.canonicalBytes = .ok (ZenoFcis.wire v) ∧ (ZenoFcis.wire v).length ≤ u32Max := by
  have hdestinationValid := he e.destination List.mem_cons_self
  have hpayloadValid := he e.payload (List.mem_cons_of_mem _ List.mem_cons_self)
  unfold OutboxEntry.canonicalBytes
  simp only [bind_eq_ok, pure_eq, Except.ok.injEq, putBlob_eq_ok, values, List.mem_cons, List.not_mem_nil, or_false,
    forall_eq_or_imp, forall_eq]
  constructor
  · rintro ⟨destination, hdestination, _, ⟨hdestinationLen, rfl⟩, payload, hpayload, _, ⟨hpayloadLen, rfl⟩, rfl⟩
    obtain rfl := hdestinationValid.canonicalBytes_wire hdestination
    obtain rfl := hpayloadValid.canonicalBytes_wire hpayload
    exact ⟨by simp only [wire, List.append_assoc], ⟨hdestination, hdestinationLen⟩, hpayload, hpayloadLen⟩
  · rintro ⟨rfl, ⟨hdestination, hdestinationLen⟩, hpayload, hpayloadLen⟩
    exact ⟨_, hdestination, _, ⟨hdestinationLen, rfl⟩, _, hpayload, _, ⟨hpayloadLen, rfl⟩,
      by simp only [wire, List.append_assoc]⟩

theorem decoded {limits : PlanDecodeLimits} {b : Bytes} {s s' : PlanDecodeState} {e : OutboxEntry}
    (hb : b.length ≤ u32Max) :
    decodeOutboxEntry limits b s = .ok (e, s') ↔ b = e.wire ∧ Charged limits s e.values s' := by
  have hc : (Cursor.new b).Fits := hb.trans (by decide)
  constructor
  · intro h
    obtain ⟨⟨ordinal, c₁⟩, hordinal, h⟩ := bind_eq_ok.1 h
    have hordinal := (PlanCursor.takeU32_eq_ok hc).1 hordinal
    have hc₁ := hordinal.fits hc
    obtain ⟨⟨channel, c₂⟩, hchannel, h⟩ := bind_eq_ok.1 h
    have hchannel := (PlanCursor.takeU32_eq_ok hc₁).1 hchannel
    have hc₂ := hchannel.fits hc₁
    obtain ⟨⟨destination, c₃, s₁⟩, hdestination, h⟩ := bind_eq_ok.1 h
    obtain ⟨hread, hfirst⟩ := (decodePlanBlob_eq_ok hc₂).1 hdestination
    have hc₃ := hread.fits hc₂
    obtain ⟨⟨payload, c₄, s₂⟩, hpayload, h⟩ := bind_eq_ok.1 h
    obtain ⟨hrest, hsecond⟩ := (decodePlanBlob_eq_ok hc₃).1 hpayload
    obtain ⟨_, hend, h⟩ := bind_eq_ok.1 h
    cases h
    have hwhole := hordinal.trans (hchannel.trans (hread.trans hrest))
    refine ⟨PatchCursor.consumes_new hwhole (PlanCursor.finished_eq_ok.1 hend), ?_⟩
    exact charged_append.2 ⟨s₁, hfirst, hsecond⟩
  · rintro ⟨rfl, hcharged⟩
    obtain ⟨s₁, hfirst, hsecond⟩ := (@charged_append _ _ _ [e.destination] _).1 hcharged
    obtain ⟨c₄, hread, hend⟩ := exists_whole e.wire
    obtain ⟨c₁, hordinal, hread⟩ := Cursor.consumes_append.1 hread
    obtain ⟨c₂, hchannel, hread⟩ := Cursor.consumes_append.1 hread
    obtain ⟨c₃, hdestination, hread⟩ := Cursor.consumes_append.1 hread
    have hc₁ := hordinal.fits hc
    have hc₂ := hchannel.fits hc₁
    have hc₃ := hdestination.fits hc₂
    apply bind_eq_ok.2 ⟨_, (PlanCursor.takeU32_eq_ok hc).2 hordinal, _⟩
    apply bind_eq_ok.2 ⟨_, (PlanCursor.takeU32_eq_ok hc₁).2 hchannel, _⟩
    apply bind_eq_ok.2 ⟨_, (decodePlanBlob_eq_ok hc₂).2 ⟨hdestination, hfirst⟩, _⟩
    apply bind_eq_ok.2 ⟨_, (decodePlanBlob_eq_ok hc₃).2 ⟨hread, hsecond⟩, _⟩
    exact bind_eq_ok.2 ⟨(), PlanCursor.finished_eq_ok.2 hend, rfl⟩

/-- deliveries as plan items -/
def item : PlanItem OutboxEntry where
  ordinal := OutboxEntry.ordinal
  values := values
  wire := wire
  encode := canonicalBytes
  decode := decodeOutboxEntry
  wire_inj := wire_inj
  encoded := encoded
  decoded := fun hb _ => decoded hb

end OutboxEntry

/-! ## Lists of items -/

namespace PlanItem

variable {α : Type} (k : PlanItem α)

/-- the items, each in a blob -/
def frames (items : List α) : Bytes := items.flatMap fun a => blob 4 (k.wire a)

/-- the wire of a plan with these items -/
def planWire (items : List α) : Bytes := beBytes 4 items.length ++ k.frames items

/-- the values of all items, in their order -/
def carried (items : List α) : List Value := items.flatMap k.values

/-- the item loop of `encode_to` -/
def encodeItems : List α → Except EncodeError Bytes
  | [] => .ok []
  | a :: items => do return (← putBlob (← k.encode a)) ++ (← encodeItems items)

/-- `canonical_bytes` of a plan with these items -/
def encodePlan (items : List α) : Except EncodeError Bytes := do
  return (← putLength items.length) ++ (← k.encodeItems items)

/-- the items fit their frames -/
def Short (items : List α) : Prop := ∀ a ∈ items, (k.wire a).length ≤ u32Max

/-- the values are encoded by the source's own encoder -/
def Encodable (vs : List Value) : Prop := ∀ v ∈ vs, v.canonicalBytes = .ok (ZenoFcis.wire v) ∧
  (ZenoFcis.wire v).length ≤ u32Max

variable {k} {items items' : List α} {b : Bytes}

theorem encodeItems_eq_ok (hv : ∀ v ∈ k.carried items, Valid v) :
    k.encodeItems items = .ok b ↔ b = k.frames items ∧ k.Short items ∧ Encodable (k.carried items) := by
  induction items generalizing b with
  | nil =>
    constructor
    · intro h
      cases h
      exact ⟨rfl, List.forall_mem_nil _, List.forall_mem_nil _⟩
    · rintro ⟨rfl, _⟩
      rfl
  | cons a items ih =>
    unfold Encodable Short carried at ih ⊢
    unfold carried at hv
    rw [List.flatMap_cons, List.forall_mem_append] at hv ⊢
    rw [List.forall_mem_cons]
    simp only [encodeItems, bind_eq_ok, pure_eq, Except.ok.injEq, putBlob_eq_ok, k.encoded hv.1, ih hv.2]
    constructor
    · rintro ⟨_, ⟨rfl, hvalues⟩, _, ⟨hlen, rfl⟩, _, ⟨rfl, hshort, hrest⟩, rfl⟩
      exact ⟨rfl, ⟨hlen, hshort⟩, hvalues, hrest⟩
    · rintro ⟨rfl, ⟨hlen, hshort⟩, hvalues, hrest⟩
      exact ⟨_, ⟨rfl, hvalues⟩, _, ⟨hlen, rfl⟩, _, ⟨rfl, hshort, hrest⟩, rfl⟩

theorem encodePlan_eq_ok (hv : ∀ v ∈ k.carried items, Valid v) : k.encodePlan items = .ok b ↔
    b = k.planWire items ∧ items.length ≤ u32Max ∧ k.Short items ∧ Encodable (k.carried items) := by
  simp only [encodePlan, bind_eq_ok, pure_eq, Except.ok.injEq, putLength_eq_ok, encodeItems_eq_ok hv]
  constructor
  · rintro ⟨_, ⟨hcount, rfl⟩, _, ⟨rfl, hrest⟩, rfl⟩
    exact ⟨rfl, hcount, hrest⟩
  · rintro ⟨rfl, hcount, hrest⟩
    exact ⟨_, ⟨hcount, rfl⟩, _, ⟨rfl, hrest⟩, rfl⟩

theorem frames_inj (hlength : items.length = items'.length) (hshort : k.Short items) (hshort' : k.Short items')
    (hframed : Framed (k.carried items)) (hframed' : Framed (k.carried items'))
    (h : k.frames items = k.frames items') : items = items' := by
  induction items generalizing items' with
  | nil => exact (List.eq_nil_of_length_eq_zero hlength.symm).symm
  | cons a items ih =>
    cases items' with
    | nil => cases hlength
    | cons a' items' =>
      unfold Short at hshort hshort'
      unfold Framed carried at hframed hframed'
      rw [List.forall_mem_cons] at hshort hshort'
      rw [List.flatMap_cons, List.forall_mem_append] at hframed hframed'
      obtain ⟨hwire, hrest⟩ := read_blob hshort.1 hshort'.1 h
      rw [k.wire_inj hframed.1 hframed'.1 hwire,
        ih (Nat.succ.inj hlength) hshort.2 hshort'.2 hframed.2 hframed'.2 hrest]

theorem planWire_inj (hcount : items.length ≤ u32Max) (hcount' : items'.length ≤ u32Max) (hshort : k.Short items)
    (hshort' : k.Short items') (hframed : Framed (k.carried items)) (hframed' : Framed (k.carried items'))
    (h : k.planWire items = k.planWire items') : items = items' := by
  obtain ⟨hlength, hframes⟩ := read_length hcount hcount' h
  exact frames_inj hlength hshort hshort' hframed hframed' hframes

section Decode

variable {limits : PlanDecodeLimits} {c c' : Cursor} {s s' : PlanDecodeState}

theorem decodePlanLoop_eq_ok (hc : c.Fits) (hs : Within limits s) {n : ℕ} :
    decodePlanLoop k.decode limits n c s = .ok (items, c', s') ↔
      items.length = n ∧ c.Consumes (k.frames items) c' ∧ k.Short items ∧ Charged limits s (k.carried items) s' := by
  induction n generalizing c s items with
  | zero =>
    constructor
    · intro h
      cases h
      exact ⟨rfl, Cursor.Consumes.nil_iff.2 rfl, List.forall_mem_nil _, (charged_nil hs).2 rfl⟩
    · rintro ⟨hlength, hread, _, hcharged⟩
      obtain rfl := List.eq_nil_of_length_eq_zero hlength
      obtain rfl := Cursor.Consumes.nil_iff.1 hread
      obtain rfl := (charged_nil hs).1 hcharged
      rfl
  | succ n ih =>
    constructor
    · intro h
      obtain ⟨⟨b, c₁⟩, hblob, h⟩ := bind_eq_ok.1 h
      obtain ⟨hlen, hread⟩ := (PlanCursor.takeBlob_eq_ok hc).1 hblob
      obtain ⟨⟨a, s₁⟩, ha, h⟩ := bind_eq_ok.1 h
      obtain ⟨hwire, hfirst⟩ := (k.decoded hlen hs).1 ha
      obtain ⟨⟨rest, c₂, s₂⟩, hrest, h⟩ := bind_eq_ok.1 h
      cases h
      subst hwire
      obtain ⟨hcount, hrestRead, hshort, hcharged⟩ := (ih (hread.fits hc) hfirst.within).1 hrest
      refine ⟨congrArg (· + 1) hcount, hread.trans hrestRead, List.forall_mem_cons.2 ⟨hlen, hshort⟩, ?_⟩
      exact charged_append.2 ⟨s₁, hfirst, hcharged⟩
    · rintro ⟨hlength, hread, hshort, hcharged⟩
      cases items with
      | nil => cases hlength
      | cons a items =>
        obtain ⟨hlen, hshort⟩ := List.forall_mem_cons.1 hshort
        obtain ⟨s₁, hfirst, hcharged⟩ := charged_append.1 hcharged
        obtain ⟨c₁, hread, hrest⟩ := Cursor.consumes_append.1 hread
        apply bind_eq_ok.2 ⟨_, (PlanCursor.takeBlob_eq_ok hc).2 ⟨hlen, hread⟩, _⟩
        apply bind_eq_ok.2 ⟨_, (k.decoded hlen hs).2 ⟨rfl, hfirst⟩, _⟩
        have hloop := (ih (hread.fits hc) hfirst.within).2 ⟨Nat.succ.inj hlength, hrest, hshort, hcharged⟩
        exact bind_eq_ok.2 ⟨_, hloop, rfl⟩

/-- **Items.** What is read of a plan: the items whose wire the input is, within the bounds. -/
theorem decodePlanItems_eq_ok {maximum : UInt32} {exceeded : ℕ → ℕ → PlanDecodeError} :
    decodePlanItems k.decode maximum exceeded b limits = .ok items ↔
      b = k.planWire items ∧ b.length ≤ limits.maxInputBytes.toNat ∧ items.length ≤ maximum.toNat ∧ k.Short items ∧
        ∃ s', Charged limits ⟨0, 0⟩ (k.carried items) s' := by
  have hmax : limits.maxInputBytes.toNat ≤ u64Max := Nat.le_pred_of_lt limits.maxInputBytes.toNat_lt
  constructor
  · intro h
    obtain ⟨_, _, h⟩ := bind_eq_ok.1 h
    obtain ⟨_, hinput, h⟩ := bind_eq_ok.1 h
    have hinput := ensure_eq_ok.1 hinput
    have hc : (Cursor.new b).Fits := hinput.trans hmax
    obtain ⟨⟨count, c₁⟩, hcount, h⟩ := bind_eq_ok.1 h
    have hcount := (PlanCursor.takeU32_eq_ok hc).1 hcount
    obtain ⟨_, hmaximum, h⟩ := bind_eq_ok.1 h
    obtain ⟨_, _, h⟩ := bind_eq_ok.1 h
    obtain ⟨⟨_, c₂, s₁⟩, hloop, h⟩ := bind_eq_ok.1 h
    obtain ⟨_, hend, h⟩ := bind_eq_ok.1 h
    cases h
    obtain ⟨hlength, hread, hshort, hcharged⟩ := (decodePlanLoop_eq_ok (hcount.fits hc) within_zero).1 hloop
    have hwhole := PatchCursor.consumes_new (hcount.trans hread) (PlanCursor.finished_eq_ok.1 hend)
    rw [← hlength] at hwhole
    refine ⟨hwhole, hinput, ?_, hshort, s₁, hcharged⟩
    rw [hlength]
    exact UInt32.le_iff_toNat_le.1 (ensure_eq_ok.1 hmaximum)
  · rintro ⟨hwire, hinput, hcount, hshort, s', hcharged⟩
    have hc : (Cursor.new b).Fits := hinput.trans hmax
    have hn : items.length ≤ u32Max := hcount.trans (Nat.le_pred_of_lt maximum.toNat_lt)
    have hlength : (UInt32.ofNat items.length).toNat = items.length := UInt32.toNat_ofNat_of_lt' (Nat.lt_succ_of_le hn)
    obtain ⟨c₂, hread, hend⟩ := exists_whole b
    rw [hwire] at hread
    obtain ⟨c₁, hfirst, hread⟩ := Cursor.consumes_append.1 hread
    rw [← hwire] at hfirst
    have hloop := (decodePlanLoop_eq_ok (hfirst.fits hc) within_zero).2 ⟨hlength.symm, hread, hshort, hcharged⟩
    refine (ensure_bind (hinput.trans hmax) _).trans ((ensure_bind hinput _).trans ?_)
    refine bind_eq_ok.2 ⟨_, PlanCursor.takeLength_ok hc hn hfirst, (ensure_bind ?_ _).trans ?_⟩
    · rw [UInt32.le_iff_toNat_le, hlength]
      exact hcount
    · apply bind_eq_ok.2 ⟨_, PlanCursor.capacity_ok _ _ (by decide), _⟩
      exact bind_eq_ok.2 ⟨_, hloop, bind_eq_ok.2 ⟨(), PlanCursor.finished_eq_ok.2 hend, rfl⟩⟩

end Decode

end PlanItem

/-! ## Order -/

section Order

variable {α : Type} {ordinal : α → UInt32} {l : List α}

theorem duplicateOrdinal_increasing (h : Increasing ordinal l) : duplicateOrdinal ordinal l = none := by
  induction l with
  | nil => rfl
  | cons a l ih =>
    cases l with
    | nil => rfl
    | cons b l =>
      unfold duplicateOrdinal
      rw [if_neg (h.head_lt List.mem_cons_self).ne]
      exact ih h.tail

theorem not_increasing_of_duplicate {n : UInt32} (h : duplicateOrdinal ordinal l = some n) : ¬ Increasing ordinal l := by
  intro hincreasing
  rw [duplicateOrdinal_increasing hincreasing] at h
  cases h

theorem sortByOrdinal_perm (ordinal : α → UInt32) (l : List α) : (sortByOrdinal ordinal l).Perm l :=
  List.mergeSort_perm l _

theorem increasing_sort_iff : Increasing ordinal (sortByOrdinal ordinal l) ↔ (l.map ordinal).Nodup := by
  constructor
  · intro h
    exact ((sortByOrdinal_perm ordinal l).map ordinal).nodup_iff.1 h.nodup
  · exact Increasing.mergeSort

theorem sortByOrdinal_increasing (h : Increasing ordinal l) : sortByOrdinal ordinal l = l := by
  exact (increasing_sort_iff.2 h.nodup).perm_eq h (sortByOrdinal_perm ordinal l)

end Order

/-! ## Plans -/

/-- a plan over items: sorted without duplicates by its constructor, and encoded item by item -/
structure PlanOf {α Plan : Type} (k : PlanItem α) (tryNew : List α → Except PlanError Plan) (items : Plan → List α)
    (canonicalBytes : Plan → Except EncodeError Bytes) : Prop where
  inj : ∀ {p p'}, items p = items p' → p = p'
  onto : ∀ {l}, Increasing k.ordinal l → ∃ p, items p = l
  increasing : ∀ p, Increasing k.ordinal (items p)
  built : ∀ {l p}, tryNew l = .ok p ↔
    Increasing k.ordinal (sortByOrdinal k.ordinal l) ∧ items p = sortByOrdinal k.ordinal l
  bytes : ∀ p, canonicalBytes p = k.encodePlan (items p)

theorem encodeEffects_eq (effects : List PlanEffect) :
    CommitPlan.encodeEffects effects = PlanEffect.item.encodeItems effects := by
  induction effects with
  | nil => rfl
  | cons e effects ih =>
    rw [CommitPlan.encodeEffects, PlanItem.encodeItems, ih]
    rfl

theorem encodeEntries_eq (entries : List OutboxEntry) :
    OutboxPlan.encodeEntries entries = OutboxEntry.item.encodeItems entries := by
  induction entries with
  | nil => rfl
  | cons e entries ih =>
    rw [OutboxPlan.encodeEntries, PlanItem.encodeItems, ih]
    rfl

theorem CommitPlan.planOf : PlanOf PlanEffect.item tryNew effects canonicalBytes where
  inj := by
    rintro ⟨_, _⟩ ⟨_, _⟩ h
    cases h
    rfl
  onto := fun h => ⟨⟨_, h⟩, rfl⟩
  increasing := CommitPlan.increasing
  built := by
    intro l p
    unfold tryNew
    dsimp only
    split
    · next ordinal h =>
      constructor
      · intro herror
        cases herror
      · intro hsorted
        exact absurd hsorted.1 (not_increasing_of_duplicate h)
    · next h =>
      rw [Except.ok.injEq]
      constructor
      · rintro rfl
        exact ⟨increasing_of_distinct (sortByOrdinal_sorted _ _) h, rfl⟩
      · rcases p with ⟨effects, _⟩
        rintro ⟨_, heffects⟩
        dsimp only at heffects
        subst heffects
        rfl
  bytes := by
    intro p
    rw [canonicalBytes, PlanItem.encodePlan, encodeEffects_eq]

theorem OutboxPlan.planOf : PlanOf OutboxEntry.item tryNew entries canonicalBytes where
  inj := by
    rintro ⟨_, _⟩ ⟨_, _⟩ h
    cases h
    rfl
  onto := fun h => ⟨⟨_, h⟩, rfl⟩
  increasing := OutboxPlan.increasing
  built := by
    intro l p
    unfold tryNew
    dsimp only
    split
    · next ordinal h =>
      constructor
      · intro herror
        cases herror
      · intro hsorted
        exact absurd hsorted.1 (not_increasing_of_duplicate h)
    · next h =>
      rw [Except.ok.injEq]
      constructor
      · rintro rfl
        exact ⟨increasing_of_distinct (sortByOrdinal_sorted _ _) h, rfl⟩
      · rcases p with ⟨entries, _⟩
        rintro ⟨_, hentries⟩
        dsimp only at hentries
        subst hentries
        rfl
  bytes := by
    intro p
    rw [canonicalBytes, PlanItem.encodePlan, encodeEntries_eq]

/-- a plan of `count` items and `size` bytes with the values `vs` respects all bounds -/
structure PlanDecodeLimits.Allows (limits : PlanDecodeLimits) (maximum : UInt32) (count : ℕ) (vs : List Value)
    (size : ℕ) : Prop where
  input : size ≤ limits.maxInputBytes.toNat
  count : count ≤ maximum.toNat
  value : ∀ v ∈ vs, (∃ metrics, v.validateLimits limits.value.value = .ok metrics) ∧
    (wire v).length ≤ limits.value.maxInputBytes.toNat
  total : Within limits (charge limits ⟨0, 0⟩ vs)

/-- both decoders: read the items, rebuild the plan and compare -/
def decodePlan {α Plan : Type} (k : PlanItem α) (tryNew : List α → Except PlanError Plan)
    (canonicalBytes : Plan → Except EncodeError Bytes) (maximum : PlanDecodeLimits → UInt32)
    (exceeded : ℕ → ℕ → PlanDecodeError) (bytes : Bytes) (limits : PlanDecodeLimits) : Except PlanDecodeError Plan := do
  let items ← decodePlanItems k.decode (maximum limits) exceeded bytes limits
  let plan ← (tryNew items).mapError .plan
  ensureCanonicalPlan bytes (canonicalBytes plan)
  return plan

namespace PlanOf

variable {α Plan : Type} {k : PlanItem α} {tryNew : List α → Except PlanError Plan} {items : Plan → List α}
  {canonicalBytes : Plan → Except EncodeError Bytes} {maximum : PlanDecodeLimits → UInt32}
  {exceeded : ℕ → ℕ → PlanDecodeError} {limits : PlanDecodeLimits} {b : Bytes} {l : List α} {p : Plan}

section

variable (h : PlanOf k tryNew items canonicalBytes)
include h

/-- a plan is built when its ordinals differ -/
theorem nodup_iff : (l.map k.ordinal).Nodup ↔ ∃ p, tryNew l = .ok p := by
  rw [← increasing_sort_iff]
  constructor
  · intro hsorted
    obtain ⟨p, hp⟩ := h.onto hsorted
    exact ⟨p, h.built.2 ⟨hsorted, hp⟩⟩
  · rintro ⟨p, hnew⟩
    exact (h.built.1 hnew).1

/-- a plan holds what it was built from -/
theorem perm (hnew : tryNew l = .ok p) : (items p).Perm l := by
  rw [(h.built.1 hnew).2]
  exact sortByOrdinal_perm _ _

theorem anyOrder {l' : List α} (hperm : l.Perm l') (hnew : tryNew l = .ok p) : tryNew l' = .ok p := by
  have hnodup := h.nodup_iff.2 ⟨p, hnew⟩
  obtain ⟨p', hnew'⟩ := h.nodup_iff.1 ((hperm.map k.ordinal).nodup_iff.1 hnodup)
  rw [hnew', h.inj ((h.increasing p').perm_eq (h.increasing p) _)]
  exact (h.perm hnew').trans (hperm.symm.trans (h.perm hnew).symm)

theorem again (p : Plan) : tryNew (items p) = .ok p := by
  have hsort := sortByOrdinal_increasing (h.increasing p)
  apply h.built.2
  rw [hsort]
  exact ⟨h.increasing p, rfl⟩

theorem carried_perm (hnew : tryNew l = .ok p) {v : Value} : v ∈ k.carried (items p) ↔ v ∈ k.carried l :=
  ((h.perm hnew).flatMap_right k.values).mem_iff

/-- **Bytes.** What the canonical bytes of a plan are -/
theorem bytes_eq_ok (hv : ∀ v ∈ k.carried (items p), Valid v) : canonicalBytes p = .ok b ↔
    b = k.planWire (items p) ∧ (items p).length ≤ u32Max ∧ k.Short (items p) ∧
      PlanItem.Encodable (k.carried (items p)) := by
  rw [h.bytes]
  exact PlanItem.encodePlan_eq_ok hv

end

theorem read_framed (hread : decodePlanItems k.decode (maximum limits) exceeded b limits = .ok l) :
    Framed (k.carried l) := by
  obtain ⟨_, _, _, _, s', hcharged⟩ := PlanItem.decodePlanItems_eq_ok.1 hread
  exact hcharged.framed

section

variable (h : PlanOf k tryNew items canonicalBytes)

include h

theorem read_wire {b' : Bytes} (hread : decodePlanItems k.decode (maximum limits) exceeded b limits = .ok l)
    (hnew : tryNew l = .ok p) (hbytes : canonicalBytes p = .ok b') : b' = b ↔ items p = l := by
  obtain ⟨hwire, _, hcount, hshort, s', hcharged⟩ := PlanItem.decodePlanItems_eq_ok.1 hread
  have hframed := hcharged.framed
  have hframed' : Framed (k.carried (items p)) := fun v hv => hframed v ((h.carried_perm hnew).1 hv)
  obtain ⟨rfl, hcount', hshort', _⟩ := (h.bytes_eq_ok fun v hv => (hframed' v hv).1).1 hbytes
  constructor
  · intro hsame
    have hn : l.length ≤ u32Max := hcount.trans (Nat.le_pred_of_lt (maximum limits).toNat_lt)
    exact PlanItem.planWire_inj hcount' hn hshort' hshort hframed' hframed (hsame.trans hwire)
  · intro hsame
    rw [hsame, hwire]

/-- **Acceptance.** A plan is decoded from its own bytes, its items read as they stand. -/
theorem decode_eq_ok :
    decodePlan k tryNew canonicalBytes maximum exceeded b limits = .ok p ↔
      decodePlanItems k.decode (maximum limits) exceeded b limits = .ok (items p) ∧ canonicalBytes p = .ok b := by
  constructor
  · intro hdecode
    obtain ⟨l, hread, hdecode⟩ := bind_eq_ok.1 hdecode
    obtain ⟨p', hnew, hdecode⟩ := bind_eq_ok.1 hdecode
    obtain ⟨_, hcanonical, hdecode⟩ := bind_eq_ok.1 hdecode
    cases hdecode
    obtain ⟨b', hbytes, hsame⟩ := bind_eq_ok.1 hcanonical
    have hnew := mapError_eq_ok.1 hnew
    have hbytes := mapError_eq_ok.1 hbytes
    obtain rfl := ensure_eq_ok.1 hsame
    rw [(h.read_wire hread hnew hbytes).1 rfl]
    exact ⟨hread, hbytes⟩
  · rintro ⟨hread, hbytes⟩
    apply bind_eq_ok.2 ⟨_, hread, _⟩
    apply bind_eq_ok.2 ⟨p, mapError_eq_ok.2 (h.again p), _⟩
    exact bind_eq_ok.2 ⟨(), bind_eq_ok.2 ⟨b, mapError_eq_ok.2 hbytes, ensure_eq_ok.2 rfl⟩, rfl⟩

theorem read_iff (hv : ∀ v ∈ k.carried (items p), Valid v) (hbytes : canonicalBytes p = .ok b) :
    decodePlanItems k.decode (maximum limits) exceeded b limits = .ok (items p) ↔
      limits.Allows (maximum limits) (items p).length (k.carried (items p)) b.length := by
  obtain ⟨hwire, _, hshort, hencodable⟩ := (h.bytes_eq_ok hv).1 hbytes
  rw [PlanItem.decodePlanItems_eq_ok]
  constructor
  · rintro ⟨_, hinput, hcount, _, s', hcharged⟩
    have hwithin := hcharged.within
    rw [hcharged.state] at hwithin
    exact ⟨hinput, hcount, fun v hmem => ⟨(hcharged.admits v hmem).accepted, (hcharged.admits v hmem).input⟩, hwithin⟩
  · intro hallows
    refine ⟨hwire, hallows.input, hallows.count, hshort, _, fun v hmem => ?_, rfl, hallows.total⟩
    exact ⟨hv v hmem, (hallows.value v hmem).1, (hallows.value v hmem).2, (hencodable v hmem).2⟩

theorem bytes_inj {p' : Plan} (hv : ∀ v ∈ k.carried (items p), Valid v) (hv' : ∀ v ∈ k.carried (items p'), Valid v)
    (hbytes : canonicalBytes p = .ok b) (hbytes' : canonicalBytes p' = .ok b) : p = p' := by
  obtain ⟨hwire, hcount, hshort, hencodable⟩ := (h.bytes_eq_ok hv).1 hbytes
  obtain ⟨hwire', hcount', hshort', hencodable'⟩ := (h.bytes_eq_ok hv').1 hbytes'
  apply h.inj
  apply PlanItem.planWire_inj hcount hcount' hshort hshort' _ _ (hwire.symm.trans hwire')
  · exact fun v hmem => ⟨hv v hmem, (hencodable v hmem).2⟩
  · exact fun v hmem => ⟨hv' v hmem, (hencodable' v hmem).2⟩

end

end PlanOf

/-- what a format of plans promises: construction in any order, decoding that inverts encoding exactly within the
bounds, and a final comparison that only finds wrong orders and values that the default limits refuse -/
structure PlanBytes {α Plan : Type} (ordinal : α → UInt32) (values : α → List Value)
    (tryNew : List α → Except PlanError Plan) (items : Plan → List α) (canonicalBytes : Plan → Except EncodeError Bytes)
    (maximum : PlanDecodeLimits → UInt32) (read : Bytes → PlanDecodeLimits → Except PlanDecodeError (List α))
    (decode : Bytes → PlanDecodeLimits → Except PlanDecodeError Plan) : Prop where
  anyOrder : ∀ l l', l.Perm l' → (l.map ordinal).Nodup → ∃ p, tryNew l = .ok p ∧ tryNew l' = .ok p ∧ (items p).Perm l
  duplicate : ∀ l, (∃ e, tryNew l = .error e) ↔ ¬ (l.map ordinal).Nodup
  decoded : ∀ p b limits, (∀ v ∈ (items p).flatMap values, Built v) → canonicalBytes p = .ok b →
    (decode b limits = .ok p ↔ limits.Allows (maximum limits) (items p).length ((items p).flatMap values) b.length)
  exceeding : ∀ p b limits, (∀ v ∈ (items p).flatMap values, Built v) → canonicalBytes p = .ok b →
    ¬ limits.Allows (maximum limits) (items p).length ((items p).flatMap values) b.length →
    ∃ e, decode b limits = .error e
  canonical : ∀ b limits p, decode b limits = .ok p → canonicalBytes p = .ok b
  comparison : ∀ b limits l p b', read b limits = .ok l → tryNew l = .ok p → canonicalBytes p = .ok b' →
    (decode b limits = .ok p ↔ Increasing ordinal l) ∧ (decode b limits = .error .nonCanonical ↔ ¬ Increasing ordinal l)
  encoder : ∀ b limits l p e, read b limits = .ok l → tryNew l = .ok p → canonicalBytes p = .error e →
    decode b limits = .error (.encode e) ∧ ∃ v ∈ l.flatMap values, ∃ e', v.canonicalBytes = .error e'

namespace PlanOf

variable {α Plan : Type} {k : PlanItem α} {tryNew : List α → Except PlanError Plan} {items : Plan → List α}
  {canonicalBytes : Plan → Except EncodeError Bytes} {maximum : PlanDecodeLimits → UInt32}
  {exceeded : ℕ → ℕ → PlanDecodeError} {limits : PlanDecodeLimits} {b : Bytes} {l : List α} {p : Plan}

theorem decode_read (hread : decodePlanItems k.decode (maximum limits) exceeded b limits = .ok l)
    (hnew : tryNew l = .ok p) : decodePlan k tryNew canonicalBytes maximum exceeded b limits =
      (ensureCanonicalPlan b (canonicalBytes p) >>= fun _ => .ok p) := by
  rw [decodePlan, hread, ok_bind, hnew]
  rfl

theorem decode_compared {b' : Bytes}
    (hread : decodePlanItems k.decode (maximum limits) exceeded b limits = .ok l) (hnew : tryNew l = .ok p)
    (hbytes : canonicalBytes p = .ok b') :
    decodePlan k tryNew canonicalBytes maximum exceeded b limits =
      if b' = b then .ok p else .error .nonCanonical := by
  rw [decode_read hread hnew, ensureCanonicalPlan, hbytes]
  change (ensure (b' = b) PlanDecodeError.nonCanonical >>= fun _ => .ok p) = _
  unfold ensure
  split_ifs <;> rfl

theorem encoder (h : PlanOf k tryNew items canonicalBytes) {e : EncodeError}
    (hread : decodePlanItems k.decode (maximum limits) exceeded b limits = .ok l) (hnew : tryNew l = .ok p)
    (hbytes : canonicalBytes p = .error e) : ∃ v ∈ k.carried l, ∃ e', v.canonicalBytes = .error e' := by
  obtain ⟨_, _, hcount, hshort, s', hcharged⟩ := PlanItem.decodePlanItems_eq_ok.1 hread
  have hframed := hcharged.framed
  by_contra hall
  have hencodable : PlanItem.Encodable (k.carried (items p)) := by
    intro v hmem
    have hmem := (h.carried_perm hnew).1 hmem
    refine ⟨?_, (hframed v hmem).2⟩
    rcases ok_or_error v.canonicalBytes with ⟨b', hb'⟩ | ⟨e', he'⟩
    · rw [hb', (hframed v hmem).1.canonicalBytes_wire hb']
    · exact absurd ⟨v, hmem, e', he'⟩ hall
  have hn : (items p).length ≤ u32Max := by
    rw [(h.perm hnew).length_eq]
    exact hcount.trans (Nat.le_pred_of_lt (maximum limits).toNat_lt)
  have hok := (h.bytes_eq_ok fun v hmem => (hframed v ((h.carried_perm hnew).1 hmem)).1).2
    ⟨rfl, hn, fun a ha => hshort a ((h.perm hnew).mem_iff.1 ha), hencodable⟩
  rw [hbytes] at hok
  cases hok

theorem planBytes (h : PlanOf k tryNew items canonicalBytes) : PlanBytes k.ordinal k.values tryNew items canonicalBytes
    maximum (fun b limits => decodePlanItems k.decode (maximum limits) exceeded b limits)
    (decodePlan k tryNew canonicalBytes maximum exceeded) where
  anyOrder := by
    intro l l' hperm hnodup
    obtain ⟨p, hnew⟩ := h.nodup_iff.1 hnodup
    exact ⟨p, hnew, h.anyOrder hperm hnew, h.perm hnew⟩
  duplicate := by
    intro l
    rw [h.nodup_iff]
    cases tryNew l with
    | ok p => simp
    | error e => simp
  decoded := by
    intro p b limits hbuilt hbytes
    have hv : ∀ v ∈ k.carried (items p), Valid v := fun v hmem => built_valid (hbuilt v hmem)
    rw [h.decode_eq_ok, h.read_iff hv hbytes]
    exact and_iff_left hbytes
  exceeding := by
    intro p b limits hbuilt hbytes hexceeds
    have hv : ∀ v ∈ k.carried (items p), Valid v := fun v hmem => built_valid (hbuilt v hmem)
    rcases ok_or_error (decodePlan k tryNew canonicalBytes maximum exceeded b limits) with ⟨p', hp'⟩ | herror
    · obtain ⟨hread, hbytes'⟩ := h.decode_eq_ok.1 hp'
      obtain rfl := h.bytes_inj (fun v hmem => (read_framed hread v hmem).1) hv hbytes' hbytes
      exact absurd ((h.read_iff hv hbytes).1 hread) hexceeds
    · exact herror
  canonical := by
    intro b limits p hdecode
    exact (h.decode_eq_ok.1 hdecode).2
  comparison := by
    intro b limits l p b' hread hnew hbytes
    have hsame : b' = b ↔ Increasing k.ordinal l := by
      rw [h.read_wire hread hnew hbytes]
      constructor
      · intro hitems
        rw [← hitems]
        exact h.increasing p
      · intro hincreasing
        rw [(h.built.1 hnew).2, sortByOrdinal_increasing hincreasing]
    rw [decode_compared hread hnew hbytes, ← hsame]
    by_cases hb : b' = b
    · rw [if_pos hb]
      simp [hb]
    · rw [if_neg hb]
      simp [hb]
  encoder := by
    intro b limits l p e hread hnew hbytes
    refine ⟨?_, h.encoder hread hnew hbytes⟩
    rw [decode_read hread hnew, ensureCanonicalPlan, hbytes]
    rfl

end PlanOf

/-- **The plan wire format.** Both plans are built in any order, decoded from their own bytes exactly within the bounds,
and refused by the comparison for a wrong order, or for a value that is not encoded under the default limits. -/
theorem plan_wire :
    PlanBytes PlanEffect.ordinal PlanEffect.values CommitPlan.tryNew CommitPlan.effects CommitPlan.canonicalBytes
      PlanDecodeLimits.maxEffects decodeEffects decodeCommitPlan ∧
    PlanBytes OutboxEntry.ordinal OutboxEntry.values OutboxPlan.tryNew OutboxPlan.entries OutboxPlan.canonicalBytes
      PlanDecodeLimits.maxOutboxEntries decodeOutboxEntries decodeOutboxPlan :=
  ⟨CommitPlan.planOf.planBytes, OutboxPlan.planOf.planBytes⟩

/-! ### A plan that only its reader admits -/

/-- a value inside nested tuples of one item -/
def nested : ℕ → Value
  | 0 => .unit
  | n + 1 => .tuple [nested n]

/-- the default limits with one more level -/
def deepLimits : PlanDecodeLimits := ⟨67108864, 4096, 4096, 1000000, 67108864, 67108864, 65, 1000000, 67108864, 1000000⟩

/-- one effect, whose payload is nested one level deeper than the default limits allow -/
def deepPlan : Bytes := beBytes 4 1 ++ blob 4 (List.replicate 72 0 ++ blob 4 (wire (nested 65)))

/-- the only effect of the plan is in order and within the limits of the reader, and the final comparison refuses it: the
plan is encoded again under the default limits -/
theorem deep_plan_refused : ∃ l p, decodeEffects deepPlan deepLimits = .ok l ∧ CommitPlan.tryNew l = .ok p ∧
    Increasing PlanEffect.ordinal l ∧
    decodeCommitPlan deepPlan deepLimits = .error (.encode (.invalidValue (.depthLimit 64 65))) := by
  have hread : (decodeEffects deepPlan deepLimits).map (List.map PlanEffect.ordinal) = .ok [0] := by decide +kernel
  have hdecode : (decodeCommitPlan deepPlan deepLimits).map (fun _ => ()) =
      .error (.encode (.invalidValue (.depthLimit 64 65))) := by decide +kernel
  cases hl : decodeEffects deepPlan deepLimits with
  | error e =>
    rw [hl] at hread
    cases hread
  | ok l =>
    rw [hl] at hread
    have hordinals : l.map PlanEffect.ordinal = [0] := Except.ok.inj hread
    have hnodup : (l.map PlanEffect.ordinal).Nodup := by
      rw [hordinals]
      exact List.nodup_singleton 0
    obtain ⟨p, hp⟩ := CommitPlan.planOf.nodup_iff.1 hnodup
    have hincreasing : Increasing PlanEffect.ordinal l := by
      obtain ⟨effect, rfl, -⟩ := List.map_eq_singleton_iff.1 hordinals
      exact List.pairwise_singleton _ _
    refine ⟨l, p, rfl, hp, hincreasing, ?_⟩
    cases hplan : decodeCommitPlan deepPlan deepLimits with
    | ok plan =>
      rw [hplan] at hdecode
      cases hdecode
    | error e =>
      rw [hplan] at hdecode
      exact congrArg _ (Except.error.inj hdecode)

end ZenoFcis
