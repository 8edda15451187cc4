/-
Delivery safety over any responses.

A run of the delivery program is a dialogue with an arbitrary responder. Its log is what it requested and was answered;
records, sends and acknowledgements are read off the log alone, without looking at the program's continuation.

Result: `delivery_safe`.
-/
import Mathlib.Data.List.TakeWhile
import ZenoFcis.Effects.Program

namespace ZenoFcis.Effects

open Lib

/-! ## Reading a log -/

abbrev Log := List (Operation × Response)

/-- the records an answered read returned -/
def readOf : Operation × Response → Option (List Delivery)
  | (.readOutbox _, .readOutbox (.ok records)) => some records
  | _ => none

/-- the record a request sends -/
def Operation.sendOf : Operation → Option Delivery
  | .send _ delivery => some delivery
  | _ => none

/-- an answered send: the record and the answer -/
def sendOf (exchange : Operation × Response) : Option (Delivery × Response) :=
  exchange.1.sendOf.map fun delivery => (delivery, exchange.2)

/-- the record identity an answered acknowledgement settles -/
def settledOf : Operation × Response → Option (Hash32 × Hash32)
  | (.acknowledge _ id payloadSha256, .acknowledge (.ok ())) => some (id, payloadSha256)
  | (.acknowledge _ id payloadSha256, .acknowledge (.refused .alreadyAcknowledged)) => some (id, payloadSha256)
  | _ => none

namespace Log

/-- the records read by a run -/
def records (log : Log) : List Delivery := (latest readOf log).getD []

/-- the answered sends of a run -/
def sends (log : Log) : List Delivery := log.filterMap fun exchange => exchange.1.sendOf

/-- `delivery` was the latest record sent when an acknowledgement of it was answered Ok or AlreadyAcknowledged -/
def Acknowledged (log : Log) (delivery : Delivery) : Prop :=
  ∃ before exchange after response, log = before ++ exchange :: after ∧
    settledOf exchange = some (delivery.id, delivery.payloadSha256) ∧ latest sendOf before = some (delivery, response)

/-- an answer to a send after which the record may have left -/
def MayHaveSent : Response → Prop
  | .send (.sent _) | .send (.unknown _) => True
  | _ => False

/-- no answered send may have left -/
def Quiet (log : Log) : Prop := ∀ x, sendOf x ≠ none → x ∈ log → ¬ MayHaveSent x.2

end Log

/-! ## What is safe -/

/-- what a run may have done, and may request or report next -/
structure DeliverySafe (isolateDestinations : Bool) (log : Log) (step : DeliveryStep) : Prop where
  /-- an acknowledgement is requested only of the latest record sent, after a report of exactly that record -/
  acknowledges : ∀ store id payloadSha256, step.outstanding = some (.acknowledge store id payloadSha256) →
    ∃ delivery ∈ Log.records log, delivery.id = id ∧ delivery.payloadSha256 = payloadSha256 ∧
      latest sendOf log = some (delivery, .send (.sent ⟨id, payloadSha256⟩))
  /-- sends ascend, up to consecutive resends -/
  ascends : (Log.sends log ++ (step.outstanding.bind Operation.sendOf).toList).IsChain fun a b => a = b ∨ a.before b
  /-- an earlier record that has failed stops every later one, or every later one of its destination -/
  stops : ∀ store delivery, step.outstanding = some (.send store delivery) → delivery ∈ Log.records log ∧
    ∀ earlier ∈ Log.records log, earlier.before delivery → ¬ Log.Acknowledged log earlier →
      isolateDestinations = true ∧ earlier.destination ≠ delivery.destination
  /-- a success counts the records read, all of them acknowledged -/
  delivers : ∀ count, step = .done (.ok count) →
    count = (Log.records log).length ∧ ∀ delivery ∈ Log.records log, Log.Acknowledged log delivery
  /-- a non-execution result means that no record may have been sent -/
  unsent : ∀ outcome, step = .done outcome →
    (∃ fault, outcome = .notApplied fault) ∨ (∃ code, outcome = .refused code) → Log.Quiet log

/-! ## The order of records -/

theorem Delivery.before_iff {a b : Delivery} : a.before b = true ↔ a.version < b.version ∨ a.version = b.version ∧
    (a.lane.toNat < b.lane.toNat ∨ a.lane.toNat = b.lane.toNat ∧ a.ordinal.toNat < b.ordinal.toNat) := by
  rw [Delivery.before, decide_eq_true_iff, UInt8.lt_iff_toNat_lt, UInt32.lt_iff_toNat_lt, UInt8.toNat_inj]

theorem Delivery.before_trans {a b c : Delivery} (hab : a.before b) (hbc : b.before c) : a.before c := by
  rw [before_iff] at *
  omega

theorem Delivery.before_asymm {a b : Delivery} (hab : a.before b) : ¬ b.before a := by
  rw [before_iff] at *
  omega

theorem ordered_pairwise {pending : List Delivery} (h : ordered pending) : pending.Pairwise fun a b => a.before b := by
  have hchain : pending.IsChain fun a b => a.before b := by
    induction pending using ordered.induct with
    | case1 a b rest ih =>
      rw [ordered, Bool.and_eq_true] at h
      exact List.isChain_cons_cons.2 ⟨h.1, ih h.2⟩
    | case2 l hl =>
      match l with
      | [] => exact .nil
      | [a] => exact .singleton a
      | a :: b :: rest => exact absurd rfl (hl a b rest)
  have : IsTrans Delivery fun a b => a.before b := ⟨fun _ _ _ => Delivery.before_trans⟩
  exact List.isChain_iff_pairwise.1 hchain
/-! ## Extending a log -/

section Extend

variable {log : Log} {x : Operation × Response} {delivery : Delivery}

theorem records_snoc (h : readOf x = none) : Log.records (log ++ [x]) = Log.records log := by
  rw [Log.records, latest_snoc_none h, Log.records]

theorem sends_snoc : Log.sends (log ++ [x]) = Log.sends log ++ x.1.sendOf.toList := by
  rw [Log.sends, List.filterMap_append, Log.sends]
  cases h : x.1.sendOf <;> simp [h]

theorem Log.Acknowledged.snoc (h : Log.Acknowledged log delivery) : Log.Acknowledged (log ++ [x]) delivery := by
  obtain ⟨before, exchange, after, response, rfl, hsettled, hlatest⟩ := h
  exact ⟨before, exchange, after ++ [x], response, by simp, hsettled, hlatest⟩

theorem acknowledged_snoc {response : Response} (hlatest : latest sendOf log = some (delivery, response))
    (hsettled : settledOf x = some (delivery.id, delivery.payloadSha256)) : Log.Acknowledged (log ++ [x]) delivery :=
  ⟨log, x, [], response, rfl, hsettled, hlatest⟩

theorem Log.Quiet.snoc (h : Log.Quiet log) (hx : sendOf x ≠ none → ¬ Log.MayHaveSent x.2) : Log.Quiet (log ++ [x]) := by
  intro y hsend hmem
  rcases List.mem_append.1 hmem with hmem | hmem
  · exact h y hsend hmem
  · rw [List.mem_singleton.1 hmem] at hsend ⊢
    exact hx hsend

end Extend

/-! ## The invariant -/

/-- what a continuation knows of the log -/
structure Tracks (isolateDestinations : Bool) (log : Log) (continuation : DeliveryContinuation) : Prop where
  isolated : continuation.isolateDestinations = isolateDestinations
  sorted : continuation.pending.Pairwise fun a b => a.before b
  records : Log.records log = continuation.pending
  chain : (Log.sends log).IsChain fun a b => a = b ∨ a.before b
  sent : ∀ x ∈ Log.sends log, x ∈ continuation.pending.take (continuation.current + 1)
  quiet : continuation.mayHaveSent = false → Log.Quiet log
  passed : ∀ x ∈ continuation.pending.take continuation.current,
    Log.Acknowledged log x ∨ x.destination ∈ continuation.blocked
  counts : continuation.failed = none → continuation.blocked = [] ∧ continuation.acknowledged = continuation.current
  honest : ∀ count, continuation.failed ≠ some (.ok count)
  joint : isolateDestinations = false → continuation.blocked = []
  bound : continuation.current ≤ continuation.pending.length

/-- the record a continuation is about -/
structure AtRecord (continuation : DeliveryContinuation) (delivery : Delivery) : Prop where
  current : continuation.pending[continuation.current]? = some delivery
  free : delivery.destination ∉ continuation.blocked

/-- what a continuation waits for -/
inductive Waits (log : Log) (continuation : DeliveryContinuation) : Operation → Prop where
  | read (store : Store) (hphase : continuation.phase = .read) (hfailed : continuation.failed = none)
      (hcurrent : continuation.current = 0) (hsends : Log.sends log = []) : Waits log continuation (.readOutbox store)
  | send (store : Store) {delivery : Delivery} (hphase : continuation.phase = .send)
      (hat : AtRecord continuation delivery) : Waits log continuation (.send store delivery)
  | acknowledge (store : Store) {delivery : Delivery} (hphase : continuation.phase = .acknowledge)
      (hat : AtRecord continuation delivery)
      (hlatest : latest sendOf log = some (delivery, .send (.sent ⟨delivery.id, delivery.payloadSha256⟩))) :
      Waits log continuation (.acknowledge store delivery.id delivery.payloadSha256)
  | clock {delivery : Delivery} (hphase : continuation.phase = .clock) (hat : AtRecord continuation delivery) :
      Waits log continuation .clock
  | jitter (purpose : Purpose) (bound : ℕ+) {delivery : Delivery} (hphase : continuation.phase = .jitter)
      (hat : AtRecord continuation delivery) : Waits log continuation (.random purpose bound)
  | wait (deadline : EpochTick) {delivery : Delivery} (hphase : continuation.phase = .wait)
      (hat : AtRecord continuation delivery) : Waits log continuation (.wait deadline)

/-- the invariant of every run -/
inductive Sound (isolateDestinations : Bool) (log : Log) : DeliveryStep → Prop where
  | request {id : OpId} {operation : Operation} {continuation : DeliveryContinuation}
      (htracks : Tracks isolateDestinations log continuation) (hwaits : Waits log continuation operation) :
      Sound isolateDestinations log (.request id operation continuation)
  | done {outcome : Outcome ℕ} (hchain : (Log.sends log).IsChain fun a b => a = b ∨ a.before b)
      (hok : ∀ count, outcome = .ok count →
        count = (Log.records log).length ∧ ∀ delivery ∈ Log.records log, Log.Acknowledged log delivery)
      (hquiet : (∃ fault, outcome = .notApplied fault) ∨ (∃ code, outcome = .refused code) → Log.Quiet log) :
      Sound isolateDestinations log (.done outcome)

section Sound

variable {isolateDestinations : Bool} {log : Log} {continuation : DeliveryContinuation} {delivery : Delivery}

variable {outcome failed : Outcome ℕ} {store : Store}

theorem done_sound (hchain : (Log.sends log).IsChain fun a b => a = b ∨ a.before b)
    (hquiet : continuation.mayHaveSent = false → Log.Quiet log)
    (hok : ∀ count, outcome = .ok count →
      count = (Log.records log).length ∧ ∀ delivery ∈ Log.records log, Log.Acknowledged log delivery) :
    Sound isolateDestinations log (deliveryDone continuation outcome) := by
  unfold deliveryDone
  split
  · cases outcome with
    | ok count => exact .done hchain hok (by simp)
    | refused | notApplied | unknown => exact .done hchain nofun (by simp)
  · next hsent => exact .done hchain hok fun _ => hquiet (Bool.eq_false_iff.2 hsent)

theorem deliveryDone_sound (h : Tracks isolateDestinations log continuation)
    (hok : ∀ count, outcome = .ok count →
      count = (Log.records log).length ∧ ∀ delivery ∈ Log.records log, Log.Acknowledged log delivery) :
    Sound isolateDestinations log (deliveryDone continuation outcome) :=
  done_sound h.chain h.quiet hok

theorem ask_sound {phase : DeliveryPhase} {operation : Operation} (h : Tracks isolateDestinations log continuation)
    (hwaits : ∀ id, Waits log { continuation with phase, id } operation) :
    Sound isolateDestinations log (ask continuation phase operation) := by
  rw [ask]
  split
  · exact deliveryDone_sound h nofun
  · exact .request ⟨h.isolated, h.sorted, h.records, h.chain, h.sent, h.quiet, h.passed, h.counts, h.honest, h.joint,
      h.bound⟩ (hwaits _)

theorem getElem?_takeWhile {α : Type} {p : α → Bool} {l : List α} {x : α} (h : l[(l.takeWhile p).length]? = some x) :
    p x = false := by
  induction l with
  | nil => cases h
  | cons a l ih =>
    by_cases ha : p a
    · rw [List.takeWhile_cons_of_pos ha, List.length_cons, List.getElem?_cons_succ] at h
      exact ih h
    · rw [List.takeWhile_cons_of_neg ha, List.length_nil, List.getElem?_cons_zero] at h
      cases h
      exact Bool.eq_false_iff.2 ha

theorem skipBlocked_spec {pending : List Delivery} {blocked : List Bytes} {current : ℕ} (h : current ≤ pending.length) :
    current ≤ skipBlocked pending blocked current ∧ skipBlocked pending blocked current ≤ pending.length ∧
    (∀ x ∈ pending.take (skipBlocked pending blocked current), x ∈ pending.take current ∨ x.destination ∈ blocked) ∧
    (∀ x, pending[skipBlocked pending blocked current]? = some x → x.destination ∉ blocked) ∧
    (blocked = [] → skipBlocked pending blocked current = current) := by
  have hpre := List.takeWhile_prefix (l := pending.drop current)
    fun delivery : Delivery => blocked.contains delivery.destination
  have hlength := hpre.length_le
  rw [List.length_drop] at hlength
  refine ⟨Nat.le_add_right _ _, ?_, ?_, ?_, ?_⟩
  · rw [skipBlocked]
    omega
  · intro x hx
    rw [skipBlocked, List.take_add, ← List.prefix_iff_eq_take.1 hpre] at hx
    rcases List.mem_append.1 hx with hx | hx
    · exact .inl hx
    · exact .inr (by simpa using List.mem_takeWhile_imp hx)
  · intro x hx
    rw [skipBlocked, ← List.getElem?_drop] at hx
    simpa using getElem?_takeWhile hx
  · rintro rfl
    cases hdrop : pending.drop current with
    | nil => rw [skipBlocked, hdrop, List.takeWhile_nil, List.length_nil, Nat.add_zero]
    | cons x rest => rw [skipBlocked, hdrop, List.takeWhile_cons_of_neg (by simp), List.length_nil, Nat.add_zero]

theorem send_sound (h : Tracks isolateDestinations log continuation) :
    Sound isolateDestinations log (send continuation) := by
  obtain ⟨hle, hbound, hskipped, hfree, hsame⟩ := @skipBlocked_spec _ continuation.blocked _ h.bound
  unfold send
  set current := skipBlocked continuation.pending continuation.blocked continuation.current with hcurrent
  have htracks : Tracks isolateDestinations log { continuation with current } := by
    refine ⟨h.isolated, h.sorted, h.records, h.chain, ?_, h.quiet, ?_, ?_, h.honest, h.joint, hbound⟩
    · intro x hx
      exact List.take_subset_take_left _ (Nat.add_le_add_right hle 1) (h.sent x hx)
    · intro x hx
      rcases hskipped x hx with hx | hx
      · exact h.passed x hx
      · exact .inr hx
    · intro hfailed
      obtain ⟨hblocked, hcount⟩ := h.counts hfailed
      exact ⟨hblocked, hcount.trans (hsame hblocked).symm⟩
  dsimp only
  split
  · next hnone =>
    refine deliveryDone_sound htracks fun count hcount => ?_
    have hend : current = continuation.pending.length := le_antisymm hbound (List.getElem?_eq_none_iff.1 hnone)
    cases hfailed : continuation.failed with
    | some outcome =>
      rw [hfailed, Option.getD_some] at hcount
      exact absurd (hfailed.trans (congrArg some hcount)) (h.honest count)
    | none =>
      rw [hfailed, Option.getD_none] at hcount
      obtain ⟨hblocked, hacknowledged⟩ := htracks.counts hfailed
      obtain rfl := Outcome.ok.inj hcount
      rw [h.records]
      refine ⟨hacknowledged.trans hend, fun x hx => ?_⟩
      rw [← List.take_length (l := continuation.pending), ← hend] at hx
      rcases htracks.passed x hx with hack | hmem
      · exact hack
      · rw [hblocked] at hmem
        cases hmem
  · next delivery hdelivery => exact ask_sound htracks fun id => .send _ rfl ⟨hdelivery, hfree delivery hdelivery⟩

theorem failedDestination_sound (h : Tracks isolateDestinations log continuation)
    (hat : AtRecord continuation delivery) (hfailed : ∀ count, failed ≠ .ok count) :
    Sound isolateDestinations log (failedDestination continuation failed) := by
  rw [failedDestination]
  split
  · next hisolated =>
    rw [hat.current]
    obtain ⟨hlt, hget⟩ := List.getElem?_eq_some_iff.1 hat.current
    refine send_sound ⟨h.isolated, h.sorted, h.records, h.chain, ?_, h.quiet, ?_, ?_, ?_, ?_, hlt⟩
    · intro x hx
      exact List.take_subset_take_left _ (by simp) (h.sent x hx)
    · intro x hx
      dsimp only at hx ⊢
      rw [List.take_add_one, hat.current] at hx
      rcases List.mem_append.1 hx with hx | hx
      · exact (h.passed x hx).imp_right (List.mem_cons_of_mem _)
      · rw [List.mem_singleton.1 hx]
        exact .inr List.mem_cons_self
    · intro hnone
      cases hold : continuation.failed <;> simp [hold] at hnone
    · intro count hcount
      cases hold : continuation.failed with
      | none =>
        simp only [hold, Option.none_or, Option.some.injEq] at hcount
        exact hfailed count hcount
      | some outcome =>
        simp only [hold, Option.some_or, Option.some.injEq] at hcount
        exact h.honest count (hold.trans (congrArg some hcount))
    · intro hjoint
      rw [← h.isolated, hisolated] at hjoint
      cases hjoint
  · exact deliveryDone_sound h fun count hcount => absurd hcount (hfailed count)

theorem backOff_sound (h : Tracks isolateDestinations log continuation) (hat : AtRecord continuation delivery) :
    Sound isolateDestinations log (backOff continuation) :=
  ask_sound ⟨h.isolated, h.sorted, h.records, h.chain, h.sent, h.quiet, h.passed, h.counts, h.honest, h.joint, h.bound⟩
    fun _ => .clock rfl ⟨hat.current, hat.free⟩

/-! ## One answer -/

section

variable (h : Tracks isolateDestinations log continuation)

include h

theorem Tracks.snoc {x : Operation × Response} (hread : readOf x = none) (hsend : x.1.sendOf = none) :
    Tracks isolateDestinations (log ++ [x]) continuation := by
  have hsends : Log.sends (log ++ [x]) = Log.sends log := by
    rw [sends_snoc, hsend, Option.toList_none, List.append_nil]
  refine ⟨h.isolated, h.sorted, (records_snoc hread).trans h.records, hsends ▸ h.chain, hsends ▸ h.sent, ?_, ?_,
    h.counts, h.honest, h.joint, h.bound⟩
  · intro hquiet
    exact (h.quiet hquiet).snoc fun hne => absurd (by rw [sendOf, hsend]; rfl) hne
  · intro y hy
    exact (h.passed y hy).imp_left Log.Acknowledged.snoc

section

variable (hat : AtRecord continuation delivery)

include hat

theorem Tracks.upTo {x : Delivery} (hx : x ∈ Log.sends log) : x = delivery ∨ x.before delivery := by
  have hmem := h.sent x hx
  rw [List.take_add_one, hat.current] at hmem
  rcases List.mem_append.1 hmem with hmem | hmem
  · right
    obtain ⟨hlt, hget⟩ := List.getElem?_eq_some_iff.1 hat.current
    obtain ⟨i, hi, rfl⟩ := List.mem_take_iff_getElem.1 hmem
    rw [← hget]
    exact List.pairwise_iff_getElem.1 h.sorted i continuation.current _ hlt (lt_of_lt_of_le hi (min_le_left _ _))
  · exact .inl (List.mem_singleton.1 hmem)

theorem Tracks.before_current {x : Delivery} (hmem : x ∈ continuation.pending) (hbefore : x.before delivery) :
    x ∈ continuation.pending.take continuation.current := by
  obtain ⟨hlt, hget⟩ := List.getElem?_eq_some_iff.1 hat.current
  obtain ⟨i, hi, rfl⟩ := List.mem_iff_getElem.1 hmem
  have hsorted := List.pairwise_iff_getElem.1 h.sorted
  rcases lt_trichotomy i continuation.current with hlt' | rfl | hgt
  · exact List.mem_take_iff_getElem.2 ⟨i, lt_min hlt' hi, rfl⟩
  · rw [hget] at hbefore
    exact absurd hbefore (Delivery.before_asymm hbefore)
  · have hafter := hsorted continuation.current i hlt hi hgt
    rw [hget] at hafter
    exact absurd hafter (Delivery.before_asymm hbefore)

theorem Tracks.chain_send :
    (Log.sends log ++ [delivery]).IsChain fun a b => a = b ∨ a.before b := by
  refine List.isChain_append.2 ⟨h.chain, .singleton delivery, ?_⟩
  intro x hx y hy
  cases hy
  exact h.upTo hat (List.mem_of_getLast? hx)

omit h hat in
theorem Tracks.send {store : Store} {response : Response} (mayHaveSent : Bool)
    (h : Tracks isolateDestinations log continuation) (hat : AtRecord continuation delivery)
    (hmay : mayHaveSent = false → continuation.mayHaveSent = false ∧ ¬ Log.MayHaveSent response) :
    Tracks isolateDestinations (log ++ [(.send store delivery, response)])
      { continuation with mayHaveSent } := by
  have hsends : Log.sends (log ++ [(.send store delivery, response)]) = Log.sends log ++ [delivery] := sends_snoc
  refine ⟨h.isolated, h.sorted, (records_snoc rfl).trans h.records, hsends ▸ h.chain_send hat, ?_, ?_, ?_,
    h.counts, h.honest, h.joint, h.bound⟩
  · intro x hx
    rw [hsends] at hx
    rcases List.mem_append.1 hx with hx | hx
    · exact h.sent x hx
    · rw [List.mem_singleton.1 hx]
      exact List.mem_of_getElem? (i := continuation.current) (by
        rw [List.getElem?_take_of_lt (Nat.lt_succ_self _)]
        exact hat.current)
  · intro hquiet
    exact (h.quiet (hmay hquiet).1).snoc fun _ => (hmay hquiet).2
  · intro x hx
    exact (h.passed x hx).imp_left Log.Acknowledged.snoc

theorem sentOne_sound {sent : Sent} :
    Sound isolateDestinations (log ++ [(.send store delivery, .send sent)]) (sentOne continuation sent) := by
  have hat' : ∀ mayHaveSent, AtRecord { continuation with mayHaveSent } delivery := fun _ => ⟨hat.current, hat.free⟩
  have hsame := @Tracks.send _ _ _ _ store (.send sent) continuation.mayHaveSent h hat
  have hmay := @Tracks.send _ _ _ _ store (.send sent) true h hat nofun
  unfold sentOne
  cases sent with
  | sent report =>
    simp only [hat.current]
    split
    · next hreport =>
      refine ask_sound hmay fun id => .acknowledge _ rfl ⟨hat.current, hat.free⟩ ?_
      rw [latest_snoc_some (f := sendOf) rfl, ← hreport.1, ← hreport.2]
    · exact deliveryDone_sound hmay nofun
  | refused code =>
    simp only [hat.current]
    exact failedDestination_sound (hsame fun hfalse => ⟨hfalse, fun hmay => hmay⟩) (hat' _) nofun
  | notSent code =>
    simp only [hat.current]
    split
    · exact failedDestination_sound (hsame fun hfalse => ⟨hfalse, fun hmay => hmay⟩) (hat' _) nofun
    · exact backOff_sound (hsame fun hfalse => ⟨hfalse, fun hmay => hmay⟩) (hat' _)
  | unknown fault =>
    simp only [hat.current]
    split
    · exact failedDestination_sound hmay (hat' _) nofun
    · exact backOff_sound hmay (hat' _)

theorem retryAcknowledge_sound
    (hlatest : latest sendOf log = some (delivery, .send (.sent ⟨delivery.id, delivery.payloadSha256⟩)))
    (hfailed : ∀ count, failed ≠ .ok count) : Sound isolateDestinations log (retryAcknowledge continuation failed) := by
  rw [retryAcknowledge]
  split
  · exact failedDestination_sound h hat hfailed
  · rw [hat.current]
    exact ask_sound ⟨h.isolated, h.sorted, h.records, h.chain, h.sent, h.quiet, h.passed, h.counts, h.honest, h.joint,
      h.bound⟩ fun _ => .acknowledge _ rfl ⟨hat.current, hat.free⟩ hlatest

theorem Tracks.advance (hack : Log.Acknowledged log delivery) : Tracks isolateDestinations log { continuation with
      acknowledged := continuation.acknowledged + 1
      current := continuation.current + 1 } := by
  obtain ⟨hlt, _⟩ := List.getElem?_eq_some_iff.1 hat.current
  refine ⟨h.isolated, h.sorted, h.records, h.chain, ?_, h.quiet, ?_, ?_, h.honest, h.joint, hlt⟩
  · intro x hx
    exact List.take_subset_take_left _ (Nat.le_succ _) (h.sent x hx)
  · intro x hx
    dsimp only at hx
    rw [List.take_add_one, hat.current] at hx
    rcases List.mem_append.1 hx with hx | hx
    · exact h.passed x hx
    · rw [List.mem_singleton.1 hx]
      exact .inl hack
  · intro hnone
    exact (h.counts hnone).imp_right (congrArg (· + 1))

theorem acknowledged_sound {outcome : Outcome Unit}
    (hlatest : latest sendOf log = some (delivery, .send (.sent ⟨delivery.id, delivery.payloadSha256⟩))) :
    Sound isolateDestinations
      (log ++ [(.acknowledge store delivery.id delivery.payloadSha256, .acknowledge outcome)])
      (acknowledged continuation outcome) := by
  have h' := h.snoc (x := (.acknowledge store delivery.id delivery.payloadSha256, .acknowledge outcome)) rfl rfl
  have hlatest' := (latest_snoc_none (f := sendOf)
    (x := (.acknowledge store delivery.id delivery.payloadSha256, .acknowledge outcome)) rfl).trans hlatest
  unfold acknowledged
  split
  · split
    · exact send_sound (h'.advance hat (acknowledged_snoc hlatest rfl))
    · exact deliveryDone_sound h' nofun
  · split
    · exact send_sound (h'.advance hat (acknowledged_snoc hlatest rfl))
    · exact deliveryDone_sound h' nofun
  · exact failedDestination_sound h' hat nofun
  · exact retryAcknowledge_sound h' hat hlatest' nofun
  · exact retryAcknowledge_sound h' hat hlatest' nofun

end

omit h in
theorem readAgain_sound (fault : Fault) (h : Tracks isolateDestinations log continuation)
    (hfailed : continuation.failed = none) (hcurrent : continuation.current = 0) (hsends : Log.sends log = []) :
    Sound isolateDestinations log (if continuation.retries = 0 then deliveryDone continuation (.notApplied fault)
      else ask { continuation with retries := continuation.retries - 1 } .read
        (.readOutbox continuation.invocation.store)) := by
  split
  · exact deliveryDone_sound h nofun
  · exact ask_sound ⟨h.isolated, h.sorted, h.records, h.chain, h.sent, h.quiet, h.passed, h.counts, h.honest, h.joint,
      h.bound⟩ fun _ => .read _ rfl hfailed hcurrent hsends

theorem read_sound {outcome : Outcome (List Delivery)} (hfailed : continuation.failed = none)
    (hcurrent : continuation.current = 0) (hsends : Log.sends log = []) :
    Sound isolateDestinations (log ++ [(.readOutbox store, .readOutbox outcome)]) (read continuation outcome) := by
  have hnone : Log.sends (log ++ [(.readOutbox store, .readOutbox outcome)]) = [] := by
    rw [sends_snoc, hsends]
    rfl
  have hquiet : continuation.mayHaveSent = false →
      Log.Quiet (log ++ [(.readOutbox store, .readOutbox outcome)]) :=
    fun hmay => (h.quiet hmay).snoc fun hne => absurd rfl hne
  cases outcome with
  | ok pending =>
    simp only [read]
    split
    · next hordered =>
      obtain ⟨hblocked, hcount⟩ := h.counts hfailed
      have hrecords : Log.records (log ++ [(.readOutbox store, .readOutbox (.ok pending))]) = pending := by
        rw [Log.records, latest_snoc_some (f := readOf) rfl, Option.getD_some]
      refine send_sound ⟨h.isolated, ordered_pairwise hordered, hrecords, hnone ▸ .nil, ?_, hquiet, ?_, ?_, h.honest,
        h.joint, Nat.zero_le _⟩
      · intro x hx
        rw [hnone] at hx
        cases hx
      · intro x hx
        rw [List.take_zero] at hx
        cases hx
      · intro _
        exact ⟨hblocked, hcount.trans hcurrent⟩
    · exact done_sound (hnone ▸ .nil) hquiet nofun
  | refused code => exact done_sound (hnone ▸ .nil) hquiet nofun
  | notApplied fault | unknown fault => exact readAgain_sound fault (h.snoc rfl rfl) hfailed hcurrent hnone

end

theorem resume_sound {id : OpId} {operation : Operation} {response : Response}
    (h : Sound isolateDestinations log (.request id operation continuation)) :
    Sound isolateDestinations (log ++ [(operation, response)]) (DeliveryProgram.resume continuation response) := by
  obtain ⟨htracks, hwaits⟩ := h
  cases hwaits with
  | read store hphase hfailed hcurrent hsends =>
    cases response with
    | readOutbox outcome =>
      simp only [DeliveryProgram.resume, hphase]
      exact read_sound htracks hfailed hcurrent hsends
    | _ =>
      simp only [DeliveryProgram.resume, hphase]
      exact deliveryDone_sound (htracks.snoc rfl rfl) nofun
  | send store hphase hat =>
    cases response with
    | send sent =>
      simp only [DeliveryProgram.resume, hphase]
      exact sentOne_sound htracks hat
    | _ =>
      simp only [DeliveryProgram.resume, hphase]
      exact deliveryDone_sound (htracks.send continuation.mayHaveSent hat fun hfalse => ⟨hfalse,
        fun hmay => hmay⟩) nofun
  | acknowledge store hphase hat hlatest =>
    cases response with
    | acknowledge outcome =>
      simp only [DeliveryProgram.resume, hphase]
      exact acknowledged_sound htracks hat hlatest
    | _ =>
      simp only [DeliveryProgram.resume, hphase]
      exact deliveryDone_sound (htracks.snoc rfl rfl) nofun
  | clock hphase hat =>
    have h' := htracks.snoc (x := (.clock, response)) rfl rfl
    cases response with
    | clock reading =>
      simp only [DeliveryProgram.resume, hphase]
      split
      · split
        · exact ask_sound ⟨h'.isolated, h'.sorted, h'.records, h'.chain, h'.sent, h'.quiet, h'.passed, h'.counts,
            h'.honest, h'.joint, h'.bound⟩ fun _ => .jitter _ _ rfl ⟨hat.current, hat.free⟩
        · exact deliveryDone_sound h' nofun
      · exact deliveryDone_sound h' nofun
    | _ =>
      simp only [DeliveryProgram.resume, hphase]
      exact deliveryDone_sound h' nofun
  | jitter purpose bound hphase hat =>
    have h' := htracks.snoc (x := (.random purpose bound, response)) rfl rfl
    cases response with
    | random draw =>
      simp only [DeliveryProgram.resume, hphase]
      split
      · split
        · split
          · exact ask_sound ⟨h'.isolated, h'.sorted, h'.records, h'.chain, h'.sent, h'.quiet, h'.passed, h'.counts,
              h'.honest, h'.joint, h'.bound⟩ fun _ => .wait _ rfl ⟨hat.current, hat.free⟩
          · exact deliveryDone_sound h' nofun
        · exact deliveryDone_sound h' nofun
      · exact deliveryDone_sound h' nofun
    | _ =>
      simp only [DeliveryProgram.resume, hphase]
      exact deliveryDone_sound h' nofun
  | wait deadline hphase hat =>
    have h' := htracks.snoc (x := (.wait deadline, response)) rfl rfl
    cases response with
    | wait woke =>
      simp only [DeliveryProgram.resume, hphase]
      split
      · split
        · exact send_sound h'
        · exact deliveryDone_sound h' nofun
      · exact deliveryDone_sound h' nofun
      · exact deliveryDone_sound h' nofun
    | _ =>
      simp only [DeliveryProgram.resume, hphase]
      exact deliveryDone_sound h' nofun

theorem start_sound (invocation : DeliveryInvocation) (policy : DeliveryPolicy) :
    Sound isolateDestinations [] (DeliveryProgram.startWithIsolation invocation policy isolateDestinations) := by
  have htracks : Tracks isolateDestinations [] ⟨.read, .first invocation.epoch, policy.retries, invocation, policy, [],
      isolateDestinations, [], none, 0, 0, false, ⟨invocation.epoch, 0⟩⟩ := by
    refine ⟨rfl, .nil, rfl, .nil, ?_, ?_, ?_, fun _ => ⟨rfl, rfl⟩, ?_, fun _ => rfl, Nat.zero_le _⟩
    · intro x hx
      exact absurd hx List.not_mem_nil
    · intro _ x _ hx
      exact absurd hx List.not_mem_nil
    · intro x hx
      exact absurd hx List.not_mem_nil
    · intro count hcount
      cases hcount
  exact .request htracks (.read _ rfl rfl rfl rfl)

/-! ## What the invariant says -/

theorem Sound.safe {step : DeliveryStep} (h : Sound isolateDestinations log step) :
    DeliverySafe isolateDestinations log step := by
  cases h with
  | done hchain hok hquiet =>
    refine ⟨nofun, by simpa [Step.outstanding] using hchain, nofun, ?_, ?_⟩
    · intro count hdone
      exact hok count (Step.done.inj hdone)
    · intro outcome hdone
      rw [← Step.done.inj hdone]
      exact hquiet
  | request htracks hwaits =>
    refine ⟨?_, ?_, ?_, nofun, nofun⟩
    · intro store id payloadSha256 houtstanding
      cases houtstanding
      cases hwaits with
      | acknowledge _ _ hat hlatest =>
        refine ⟨_, ?_, rfl, rfl, hlatest⟩
        rw [htracks.records]
        exact List.mem_of_getElem? hat.current
    · cases hwaits with
      | send store _ hat => exact htracks.chain_send hat
      | read | acknowledge | clock | jitter | wait =>
        simpa [Step.outstanding, Operation.sendOf] using htracks.chain
    · intro store delivery houtstanding
      cases houtstanding
      cases hwaits with
      | send _ _ hat =>
        rw [htracks.records]
        refine ⟨List.mem_of_getElem? hat.current, fun earlier hmem hbefore hfailed => ?_⟩
        rcases htracks.passed earlier (htracks.before_current hat hmem hbefore) with hack | hblocked
        · exact absurd hack hfailed
        · constructor
          · by_contra hjoint
            rw [htracks.joint (Bool.eq_false_iff.2 hjoint)] at hblocked
            cases hblocked
          · intro hsame
            rw [hsame] at hblocked
            exact hat.free hblocked

end Sound

/-! ## Result -/

/-- **Delivery safety.** Whatever the responses, ill-typed ones included: an acknowledgement is requested only after a
matching report of the latest send; sends ascend up to consecutive resends, and none follows a record that failed (or
none of its destination); success counts the records read, all acknowledged; and a run reports a non-execution only if
no send was answered Sent or Unknown. -/
theorem delivery_safe (invocation : DeliveryInvocation) (policy : DeliveryPolicy) (isolateDestinations : Bool)
    (responses : List Response) :
    let start := DeliveryProgram.startWithIsolation invocation policy isolateDestinations
    DeliverySafe isolateDestinations (deliveryProgram.dialogue.exchanges start responses)
      (deliveryProgram.dialogue.reach start responses) := by
  intro start
  have hsound : Sound isolateDestinations (deliveryProgram.dialogue.exchanges start responses)
      (deliveryProgram.dialogue.reach start responses) := by
    refine Dialogue.invariant (start_sound invocation policy) ?_ responses
    intro log step operation response h houtstanding
    cases step with
    | done => cases houtstanding
    | request id operation' continuation =>
      obtain rfl := Option.some.inj houtstanding
      exact resume_sound h
  exact hsound.safe

end ZenoFcis.Effects
