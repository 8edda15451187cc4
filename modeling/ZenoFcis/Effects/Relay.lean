/-
The durable relay (`effects/durable.rs`): write-ahead reservations in front of one terminal.

Model: a call of `handle` waits for the world at three points, the write of its reservation, the terminal, and the write
of a certified release. `begin`, `reserved`, `reported` and `released` are what it does between them, so that other
relays can run in between; `handle` is their composition.
-/
import ZenoFcis.Effects.Checkpoint
import ZenoFcis.Effects.Handler

namespace ZenoFcis.Effects

open Lib Lib.Except Durability

/-- an exclusively owned handle on a reservation lifetime -/
structure Relay where
  scope : Hash32
  monitors : List Monitor
  stored : Bytes
  transcript : Transcript
  stopped : Bool
deriving DecidableEq

/-- an admitted request on its way to the terminal and back -/
structure Admitted where
  binding : Binding
  operation : Operation
  previous : List Monitor
  next : List Monitor
  check : Check
deriving DecidableEq

/-- how far `handle` gets before it waits: a result, the write of a reservation, or the terminal -/
inductive Begun where
  | returned (result : Except Error Handled)
  | reserve (call : Admitted) (reserved : Bytes)
  | forward (call : Admitted)

/-- how far `handle` gets after the terminal: a result, or the write of a release -/
inductive Reported where
  | returned (result : Except Error Handled)
  | release (released : Bytes)

namespace Relay

/-- restores an existing lifetime and records its exact checkpoint in the manifest -/
def «open» (build : Build) (loaded : Except Error Bytes) (scope : Hash32) (policies : List Policy)
    (manifest : Manifest) : Except Error Relay := do
  let stored ← loaded
  let monitors ← restore build scope policies stored
  ensure (manifest.provenanceComplete = true ∧ ¬ manifest.stack.any (fun name => name = "policy" ∨ name = "durable"))
    Error.binding
  let manifest := { manifest with
    configuration := magic ++ frame manifest.configuration ++ frame stored
    policies := monitors
    stack := List.replicate monitors.length "policy" ++ manifest.stack ++ ["durable"]
    implementations := manifest.implementations ++ [⟨"durable", build.durableSource⟩] }
  return ⟨scope, monitors, stored, Transcript.new manifest, false⟩

/-- records what was done with a request; a suspension leaves no entry -/
def record (build : Build) (relay : Relay) (binding : Binding) (operation : Operation) (check : Check)
    (handled : Handled) : Relay :=
  match handled.entry binding with
  | some entry =>
    let entries := [.request binding operation, .policy binding check, entry]
    { relay with transcript := relay.transcript.appendAll build entries }
  | none => relay

/-- `handle` up to its first wait -/
def begin (build : Build) (relay : Relay) (binding : Binding) (operation : Operation) : Relay × Begun :=
  if relay.stopped then (relay, .returned (.error .stopped))
  else if Binding.of binding.id operation ≠ binding ∨ operation.store.any (·.identity ≠ relay.scope) then
    (relay, .returned (.error .binding))
  else
    let previous := relay.monitors
    let (next, check) := Effects.admitOperation build previous operation
    match check.rejection with
    | some code =>
      let handled := .answer (.send (.refused code))
      (relay.record build binding operation check handled, .returned (.ok handled))
    | none =>
      let call := ⟨binding, operation, previous, next, check⟩
      -- from here on a failed write or an unwind leaves the handle stopped
      let relay := { relay with stopped := true }
      match operation with
      | .send .. =>
        match checkpoint build relay.scope next none with
        | .error error => (relay, .returned (.error error))
        | .ok reserved => (relay, .reserve call reserved)
      | _ => ({ relay with monitors := next }, .forward call)

/-- after the reservation is durable -/
def reserved (relay : Relay) (call : Admitted) (reserved : Bytes) : Relay :=
  { relay with stored := reserved, monitors := call.next }

/-- the end of `handle`: only a crash leaves the handle stopped -/
def finish (build : Build) (relay : Relay) (call : Admitted) (handled : Handled) : Relay :=
  Relay.record build { relay with stopped := handled = .crash } call.binding call.operation call.check handled

/-- after the terminal: only certified non-invocation restores the reservations -/
def reported (build : Build) (relay : Relay) (call : Admitted) (report : Handling) : Relay × Reported :=
  if report.released then
    match call.operation with
    | .send _ delivery =>
      match checkpoint build relay.scope relay.monitors (some delivery.id) with
      | .error error => (relay, .returned (.error error))
      | .ok released => (relay, .release released)
    | _ => (finish build { relay with monitors := call.previous } call report.outcome, .returned (.ok report.outcome))
  else (finish build relay call report.outcome, .returned (.ok report.outcome))

/-- after the release is durable -/
def released (build : Build) (relay : Relay) (call : Admitted) (released : Bytes) : Relay :=
  finish build { relay with stored := released, monitors := call.previous } call .suspend

/-- records a completed program outcome -/
def done (build : Build) (relay : Relay) (outcome : Bytes) : Relay :=
  { relay with transcript := relay.transcript.append build (.done outcome) }

end Relay

/-! ## What the parts of a call do -/

namespace Relay

variable {build : Build} {relay relay' : Relay} {binding : Binding} {operation : Operation} {check : Check}
  {handled : Handled} {call : Admitted}

theorem record_transcript : (relay.record build binding operation check handled).transcript =
    match handled.entry binding with
    | some entry => relay.transcript.appendAll build [.request binding operation, .policy binding check, entry]
    | none => relay.transcript := by
  rw [record]
  split <;> rfl

/-- recording keeps the scope -/
@[simp] theorem record_scope : (relay.record build binding operation check handled).scope = relay.scope := by
  rw [record]
  split <;> rfl

@[simp] theorem record_monitors : (relay.record build binding operation check handled).monitors = relay.monitors := by
  rw [record]
  split <;> rfl

@[simp] theorem record_stored : (relay.record build binding operation check handled).stored = relay.stored := by
  rw [record]
  split <;> rfl

@[simp] theorem record_stopped : (relay.record build binding operation check handled).stopped = relay.stopped := by
  rw [record]
  split <;> rfl

/-- the admission of a request by a handle's monitors -/
def admitted (build : Build) (relay : Relay) (binding : Binding) (operation : Operation) : Admitted :=
  let (next, check) := Effects.admitOperation build relay.monitors operation
  ⟨binding, operation, relay.monitors, next, check⟩

/-- a call that returns at once has changed neither scope nor store -/
theorem begin_returned {result : Except Error Handled}
    (h : relay.begin build binding operation = (relay', .returned result)) :
    relay'.scope = relay.scope ∧ relay'.stored = relay.stored ∧ relay'.monitors = relay.monitors ∧
      (relay'.stopped = false → relay.stopped = false) := by
  rw [begin] at h
  split at h
  · cases h
    exact ⟨rfl, rfl, rfl, id⟩
  split at h
  · cases h
    exact ⟨rfl, rfl, rfl, id⟩
  dsimp only at h
  split at h
  · cases h
    simp
  · split at h
    · split at h
      · cases h
        exact ⟨rfl, rfl, rfl, fun hstopped => by cases hstopped⟩
      · cases h
    · cases h

theorem begin_refused (h : relay.begin build binding operation = (relay', .returned (.ok handled))) :
    (∃ code, (Effects.admitOperation build relay.monitors operation).2.rejection = some code ∧
      handled = .answer (.send (.refused code))) ∧
      relay' = relay.record build binding operation (Effects.admitOperation build relay.monitors operation).2 handled := by
  rw [begin] at h
  split at h
  · cases h
  split at h
  · cases h
  dsimp only at h
  split at h
  next code hcode =>
    cases h
    exact ⟨⟨code, hcode, rfl⟩, rfl⟩
  · split at h
    · split at h <;> cases h
    · cases h

/-- the request passed every check before the admission, and the admission -/
structure Admits (build : Build) (relay : Relay) (binding : Binding) (operation : Operation) : Prop where
  live : relay.stopped = false
  bound : Binding.of binding.id operation = binding
  inScope : operation.store.any (·.identity ≠ relay.scope) = false
  allowed : ∀ m ∈ relay.monitors, m.verdict operation = .allow

/-- a call that reserves was admitted first -/
theorem begin_reserve {bytes : Bytes} (h : relay.begin build binding operation = (relay', .reserve call bytes)) :
    Admits build relay binding operation ∧ call = relay.admitted build binding operation ∧
      relay' = { relay with stopped := true } ∧ (∃ store delivery, operation = .send store delivery) ∧
      checkpoint build relay.scope call.next none = .ok bytes := by
  rw [begin] at h
  split at h
  · cases h
  next hlive =>
  split at h
  · cases h
  next hbound =>
  rw [not_or, not_not, Bool.not_eq_true] at hbound
  dsimp only at h
  split at h
  · cases h
  next hallowed =>
  split at h
  · split at h
    · cases h
    next hcheckpoint =>
    cases h
    exact ⟨⟨Bool.eq_false_iff.2 hlive, hbound.1, hbound.2, rejection_eq_none.1 hallowed⟩, rfl, rfl, ⟨_, _, rfl⟩,
      hcheckpoint⟩
  · cases h

/-- a call that is forwarded was admitted first -/
theorem begin_forward (h : relay.begin build binding operation = (relay', .forward call)) :
    Admits build relay binding operation ∧ call = relay.admitted build binding operation ∧
      relay' = { relay with stopped := true, monitors := call.next } ∧ operation.sendKey = none := by
  rw [begin] at h
  split at h
  · cases h
  next hlive =>
  split at h
  · cases h
  next hbound =>
  rw [not_or, not_not, Bool.not_eq_true] at hbound
  dsimp only at h
  split at h
  · cases h
  next hallowed =>
  split at h
  · split at h <;> cases h
  next hother =>
  cases h
  refine ⟨⟨Bool.eq_false_iff.2 hlive, hbound.1, hbound.2, rejection_eq_none.1 hallowed⟩, rfl, rfl, ?_⟩
  cases operation with
  | send store delivery => exact absurd rfl (hother store delivery)
  | _ => rfl

/-- a report that returns keeps scope and store -/
theorem reported_returned {report : Handling} {result : Except Error Handled}
    (h : relay.reported build call report = (relay', .returned result)) :
    relay'.scope = relay.scope ∧ relay'.stored = relay.stored ∧
      (relay'.stopped = false → relay.stopped = true →
        relay'.monitors = relay.monitors ∨ call.operation.sendKey = none ∧ relay'.monitors = call.previous) := by
  rw [reported] at h
  split at h
  · split at h
    · split at h
      · cases h
        exact ⟨rfl, rfl, fun hlive hstopped => by rw [hstopped] at hlive; cases hlive⟩
      · cases h
    next hother =>
    cases h
    refine ⟨by simp [finish], by simp [finish], fun _ _ => Or.inr ⟨?_, by simp [finish]⟩⟩
    cases hcall : call.operation with
    | send store delivery => exact absurd hcall (hother store delivery)
    | _ => rfl
  · cases h
    exact ⟨by simp [finish], by simp [finish], fun _ _ => Or.inl (by simp [finish])⟩

/-- a report that releases writes a checkpoint without the reservation -/
theorem reported_release {report : Handling} {bytes : Bytes}
    (h : relay.reported build call report = (relay', .release bytes)) :
    relay' = relay ∧ report.released = true ∧ ∃ store delivery, call.operation = .send store delivery ∧
      checkpoint build relay.scope relay.monitors (some delivery.id) = .ok bytes := by
  rw [reported] at h
  split at h
  next hreleased =>
    split at h
    next store delivery hsend =>
      split at h
      · cases h
      next hcheckpoint =>
        cases h
        exact ⟨rfl, hreleased, store, delivery, hsend, hcheckpoint⟩
    · cases h
  · cases h

end Relay

/-! ## The composed call -/

/-- opaque byte storage over a world `τ`: atomically replaces exactly `expected` -/
structure StateStore (τ : Type) where
  commit : τ → Bytes → Bytes → Except Error Unit × τ

namespace Relay

variable {τ : Type} (build : Build) (store : StateStore τ) (terminal : Terminal τ)

/-- from the terminal on -/
def forward (relay : Relay) (call : Admitted) (world : τ) : Except Error Handled × Relay × τ :=
  let (report, world) := terminal.handleWithInvocation world call.binding call.operation
  match relay.reported build call report with
  | (relay, .returned result) => (result, relay, world)
  | (relay, .release bytes) =>
    match store.commit world relay.stored bytes with
    | (.error error, world) => (.error error, relay, world)
    | (.ok (), world) => (.ok report.outcome, relay.released build call bytes, world)

/-- admits purely, commits reservations, then forwards unchanged -/
def handle (relay : Relay) (world : τ) (binding : Binding) (operation : Operation) : Except Error Handled × Relay × τ :=
  match relay.begin build binding operation with
  | (relay, .returned result) => (result, relay, world)
  | (relay, .forward call) => forward build store terminal relay call world
  | (relay, .reserve call bytes) =>
    match store.commit world relay.stored bytes with
    | (.error error, world) => (.error error, relay, world)
    | (.ok (), world) => forward build store terminal (relay.reserved call bytes) call world

variable {build store terminal} {relay relay' : Relay} {world world' : τ} {binding : Binding} {operation : Operation}
  {handled : Handled} {call : Admitted}

theorem forward_ok (h : forward build store terminal relay call world = (.ok handled, relay', world')) :
    (relay'.transcript = match handled.entry call.binding with
      | some entry => relay.transcript.appendAll build
        [.request call.binding call.operation, .policy call.binding call.check, entry]
      | none => relay.transcript) ∧
    (handled ≠ .suspend → relay'.monitors = relay.monitors) ∧
    (relay'.monitors = relay.monitors ∨ relay'.monitors = call.previous) := by
  rw [forward] at h
  generalize terminal.handleWithInvocation world call.binding call.operation = reply at h
  obtain ⟨report, after⟩ := reply
  dsimp only at h
  by_cases hreleased : report.released = true
  · have hsuspend : report.outcome = .suspend := (of_decide_eq_true hreleased).1
    rw [reported, if_pos hreleased] at h
    split at h
    next relay₁ result hreported =>
      cases h
      split at hreported
      · split at hreported <;> cases hreported
      · cases hreported
        rw [hsuspend]
        refine ⟨?_, fun hne => absurd rfl hne, Or.inr (by simp [finish])⟩
        rw [finish, record_transcript]
    next relay₁ bytes hreported =>
      split at hreported
      · split at hreported
        · cases hreported
        · cases hreported
          split at h
          · cases h
          · cases h
            rw [hsuspend]
            refine ⟨?_, fun hne => absurd rfl hne, Or.inr (by simp [released, finish])⟩
            rw [released, finish, record_transcript]
      · cases hreported
  · rw [reported, if_neg hreleased] at h
    cases h
    refine ⟨?_, fun _ => by simp [finish], Or.inl (by simp [finish])⟩
    rw [finish, record_transcript]

/-- **Transcripts.** A handled operation is recorded with its request and its answer -/
theorem handle_ok (h : handle build store terminal relay world binding operation = (.ok handled, relay', world')) :
    (relay'.transcript = match handled.entry binding with
      | some entry => relay.transcript.appendAll build
        [.request binding operation, .policy binding (Effects.admitOperation build relay.monitors operation).2, entry]
      | none => relay.transcript) ∧
    (handled ≠ .suspend → relay'.monitors = (Effects.admitOperation build relay.monitors operation).1) ∧
    (∀ code, (Effects.admitOperation build relay.monitors operation).2.rejection = some code →
      handled = .answer (.send (.refused code))) ∧
    relay'.monitors.length = relay.monitors.length := by
  have hlength : (Effects.admitOperation build relay.monitors operation).1.length = relay.monitors.length := admit_length
  rw [handle] at h
  split at h
  next relay₁ result hbegin =>
    cases h
    obtain ⟨⟨code, hcode, rfl⟩, rfl⟩ := begin_refused hbegin
    refine ⟨by rw [record_transcript], fun _ => ?_, ?_, by rw [record_monitors]⟩
    · rw [record_monitors]
      by_contra hne
      have hallow : ∀ m ∈ relay.monitors, m.verdict operation = .allow := by
        by_contra hreject
        push Not at hreject
        obtain ⟨m, hm, hverdict⟩ := hreject
        cases hm' : m.verdict operation with
        | allow => exact hverdict hm'
        | reject code' => exact hne (admit_reject hm hm').1.symm
      rw [(admit_allow hallow).2] at hcode
      cases hcode
    · intro code' hcode'
      rw [hcode] at hcode'
      cases hcode'
      rfl
  next relay₁ call hbegin =>
    obtain ⟨hadmits, rfl, rfl, -⟩ := begin_forward hbegin
    obtain ⟨htranscript, hmonitors, hback⟩ := forward_ok h
    refine ⟨htranscript, hmonitors, fun code hcode => ?_, ?_⟩
    · rw [rejection_eq_none.2 hadmits.allowed] at hcode
      cases hcode
    · rcases hback with hback | hback
      · rw [hback]
        exact hlength
      · rw [hback]
        rfl
  next relay₁ call bytes hbegin =>
    obtain ⟨hadmits, rfl, rfl, -, -⟩ := begin_reserve hbegin
    split at h
    · cases h
    · obtain ⟨htranscript, hmonitors, hback⟩ := forward_ok h
      refine ⟨htranscript, hmonitors, fun code hcode => ?_, ?_⟩
      · rw [rejection_eq_none.2 hadmits.allowed] at hcode
        cases hcode
      · rcases hback with hback | hback
        · rw [hback]
          exact hlength
        · rw [hback]
          rfl

end Relay

end ZenoFcis.Effects
