/-
First-order safety monitors (`effects/policy.rs`) and their admission (`effects/policy_record.rs`).

SHA-256 and the source digests that the build computes are parameters, collected in `Build`. A monitor's identity is a
function of its configuration, so it is computed and not stored.
-/
import ZenoFcis.Effects.Simulation

namespace ZenoFcis.Effects

open Lib

/-- SHA-256, and the digests of the sources that the build pins -/
structure Build where
  sha256 : Bytes → Hash32
  policySource : Hash32
  durableSource : Hash32
  registryIdentity : Hash32
  programSource : Hash32

/-- an external effect key: store identity and delivery ID -/
abbrev EffectKey := Hash32 × Hash32

/-- the key a request sends under -/
def Operation.sendKey : Operation → Option EffectKey
  | .send store delivery => some (store.identity, delivery.id)
  | _ => none

/-! ## Policies -/

inductive Policy where
  /-- at most one forwarded send per key; capacity exhaustion refuses -/
  | atMostOne (capacity : ℕ)
  /-- exact destination bytes -/
  | allowlist (recipients : List Bytes)
deriving DecidableEq

/-- the recipients of an allowlist, sorted and without repetitions -/
def canonicalRecipients (recipients : List Bytes) : List Bytes :=
  (recipients.mergeSort fun a b => !bytesBefore b a).eraseDups

namespace Policy

/-- exactly the operation fields this policy reads, besides the Send tag -/
def fields : Policy → List String
  | atMostOne _ => ["Store.identity", "Delivery.id"]
  | allowlist _ => ["Delivery.destination"]

/-- versioned identity binding configuration, declarations and source -/
def identity (build : Build) (policy : Policy) : Hash32 :=
  let configuration := match policy with
    | atMostOne capacity => 0 :: beBytes 8 capacity
    | allowlist recipients =>
      let recipients := canonicalRecipients recipients
      1 :: beBytes 8 recipients.length ++ recipients.flatMap frame
  build.sha256 (frame (ascii "zeno-fcis/effect-policy/1") ++ build.policySource.bytes ++ configuration ++
    policy.fields.flatMap fun field => frame (ascii field))

def isAtMostOne : Policy → Bool
  | atMostOne _ => true
  | allowlist _ => false

end Policy

/-- the owned reservation log; a new lifetime starts with the default, empty one -/
structure PolicyState where
  attempts : List EffectKey := []
deriving DecidableEq

def keyBytes (key : EffectKey) : Bytes := key.1.bytes ++ key.2.bytes

/-- canonical state bytes -/
def PolicyState.bytes (state : PolicyState) : Bytes :=
  beBytes 8 state.attempts.length ++ state.attempts.flatMap keyBytes

/-- the only choices a policy can produce -/
inductive Verdict where
  | allow
  | reject (code : Code)
deriving DecidableEq

/-- the declared fields of a send; an undeclared one is absent -/
structure PolicyFields where
  key : Option EffectKey
  destination : Option Bytes

namespace Policy

def decide (policy : Policy) (state : PolicyState) (fields : PolicyFields) : PolicyState × Verdict :=
  match policy with
  | atMostOne capacity =>
    match fields.key with
    | none => (state, .reject .policyFields)
    | some key =>
      if state.attempts.contains key then (state, .reject .policyDuplicate)
      else if state.attempts.length ≥ capacity then (state, .reject .policyCapacity)
      else (⟨state.attempts ++ [key]⟩, .allow)
  | allowlist recipients =>
    match fields.destination with
    | none => (state, .reject .policyFields)
    | some destination =>
      if !recipients.any (· == destination) then (state, .reject .policyRecipient)
      else (state, .allow)

/-- the fields of a send that the policy declares -/
def project (policy : Policy) (store : Store) (delivery : Delivery) : PolicyFields :=
  let declared := policy.fields
  { key := if declared.contains "Store.identity" && declared.contains "Delivery.id" then
      some (store.identity, delivery.id) else none
    destination := if declared.contains "Delivery.destination" then some delivery.destination else none }

/-- pure admission of a request, or observation of its response; only admission reserves -/
def step (policy : Policy) (state : PolicyState) (operation : Operation) (response : Option Response) :
    PolicyState × Verdict :=
  if response.isSome then (state, .allow)
  else
    match operation with
    | .send store delivery => policy.decide state (policy.project store delivery)
    | _ => (state, .allow)

end Policy

/-! ## Monitors -/

/-- a policy with its current reservation state -/
structure Monitor where
  policy : Policy
  state : PolicyState
deriving DecidableEq

namespace Monitor

/-- starts a new policy lifetime -/
def new (policy : Policy) : Monitor := ⟨policy, {}⟩

def identity (build : Build) (monitor : Monitor) : Hash32 := monitor.policy.identity build

end Monitor

/-- one monitor's verdict and proposed state -/
structure PolicyDecision where
  identity : Hash32
  before : Bytes
  proposed : Bytes
  verdict : Verdict
deriving DecidableEq

/-- ordered admission decisions, ending at the first refusal -/
structure Check where
  decisions : List PolicyDecision
deriving DecidableEq

/-- the first refusal, if any -/
def Check.rejection (check : Check) : Option Code :=
  check.decisions.findSome? fun decision =>
    match decision.verdict with
    | .allow => none
    | .reject code => some code

/-- the decisions of the monitors in order, and their next states unless one of them vetoes -/
def admitLoop (build : Build) (operation : Operation) : List Monitor → List PolicyDecision × Option (List Monitor)
  | [] => ([], some [])
  | monitor :: monitors =>
    let (state, verdict) := monitor.policy.step monitor.state operation none
    let decision := ⟨monitor.identity build, monitor.state.bytes, state.bytes, verdict⟩
    match verdict with
    | .reject _ => ([decision], none)
    | .allow =>
      let (decisions, next) := admitLoop build operation monitors
      (decision :: decisions, next.map ({ monitor with state } :: ·))

/-- evaluates immutable monitors on the exact request: a veto returns the original states -/
def admitOperation (build : Build) (monitors : List Monitor) (operation : Operation) : List Monitor × Check :=
  let (decisions, next) := admitLoop build operation monitors
  (next.getD monitors, ⟨decisions⟩)

/-! ## What a policy can do -/

namespace Policy

variable {policy : Policy} {state : PolicyState} {operation : Operation} {store : Store} {delivery : Delivery}

theorem project_atMostOne (capacity : ℕ) :
    (atMostOne capacity).project store delivery = ⟨some (store.identity, delivery.id), none⟩ := by
  simp [project, fields]

theorem project_allowlist (recipients : List Bytes) :
    (allowlist recipients).project store delivery = ⟨none, some delivery.destination⟩ := by
  simp [project, fields]

theorem step_send :
    policy.step state (.send store delivery) none = policy.decide state (policy.project store delivery) :=
  rfl

theorem decide_atMostOne {capacity : ℕ} {key : EffectKey} {destination : Option Bytes} :
    (atMostOne capacity).decide state ⟨some key, destination⟩ =
      if state.attempts.contains key then (state, .reject .policyDuplicate)
      else if state.attempts.length ≥ capacity then (state, .reject .policyCapacity)
      else (⟨state.attempts ++ [key]⟩, .allow) := rfl

theorem decide_allowlist {recipients : List Bytes} {key : Option EffectKey} {destination : Bytes} :
    (allowlist recipients).decide state ⟨key, some destination⟩ =
      if !recipients.any (· == destination) then (state, .reject .policyRecipient) else (state, .allow) := rfl

theorem step_other (h : operation.sendKey = none) : policy.step state operation none = (state, .allow) := by
  cases operation <;> first | rfl | cases h

/-- a guard allows a delivery once, within its capacity -/
theorem step_guard_allow {capacity : ℕ} {next : PolicyState}
    (h : (atMostOne capacity).step state (.send store delivery) none = (next, .allow)) :
    (store.identity, delivery.id) ∉ state.attempts ∧ state.attempts.length < capacity ∧
      next = ⟨state.attempts ++ [(store.identity, delivery.id)]⟩ := by
  rw [step_send, project_atMostOne, decide_atMostOne] at h
  split at h
  · cases h
  · next hfresh =>
    split at h
    · cases h
    · next hroom => exact ⟨by simpa using hfresh, not_le.1 hroom, (Prod.mk.inj h).1.symm⟩

/-- a fresh delivery within the capacity is recorded -/
theorem step_guard {capacity : ℕ} (hfresh : (store.identity, delivery.id) ∉ state.attempts)
    (hroom : state.attempts.length < capacity) :
    (atMostOne capacity).step state (.send store delivery) none =
      (⟨state.attempts ++ [(store.identity, delivery.id)]⟩, .allow) := by
  rw [step_send, project_atMostOne, decide_atMostOne]
  rw [if_neg (by simpa using hfresh), if_neg (not_le.2 hroom)]

/-- a recorded delivery is rejected as a duplicate -/
theorem step_guard_reserved {capacity : ℕ} (h : (store.identity, delivery.id) ∈ state.attempts) :
    (atMostOne capacity).step state (.send store delivery) none = (state, .reject .policyDuplicate) := by
  rw [step_send, project_atMostOne, decide_atMostOne]
  rw [if_pos (by simpa using h)]

/-- an allowlist keeps no state -/
theorem step_allowlist (recipients : List Bytes) : ((allowlist recipients).step state operation none).1 = state := by
  cases operation <;> try rfl
  rw [step_send, project_allowlist, decide_allowlist]
  split <;> rfl

end Policy

/-! ## What admission does -/

section Admit

variable {build : Build} {monitors : List Monitor} {operation : Operation}

/-- the monitor after it admitted `operation` -/
def Monitor.after (monitor : Monitor) (operation : Operation) : Monitor :=
  { monitor with state := (monitor.policy.step monitor.state operation none).1 }

/-- the monitor's verdict on `operation` -/
def Monitor.verdict (monitor : Monitor) (operation : Operation) : Verdict :=
  (monitor.policy.step monitor.state operation none).2

theorem admitLoop_allow (h : ∀ m ∈ monitors, m.verdict operation = .allow) :
    (admitLoop build operation monitors).2 = some (monitors.map (·.after operation)) ∧
      Check.rejection ⟨(admitLoop build operation monitors).1⟩ = none := by
  induction monitors with
  | nil => exact ⟨rfl, rfl⟩
  | cons m monitors ih =>
    obtain ⟨hnext, hchecks⟩ := ih fun x hx => h x (List.mem_cons_of_mem _ hx)
    have hm : (m.policy.step m.state operation none).2 = .allow := h m List.mem_cons_self
    simp only [admitLoop, hm]
    refine ⟨by rw [hnext]; rfl, ?_⟩
    simpa [Check.rejection] using hchecks

theorem admitLoop_reject {m : Monitor} {code : Code} (hm : m ∈ monitors) (h : m.verdict operation = .reject code) :
    (admitLoop build operation monitors).2 = none ∧
      ∃ code', Check.rejection ⟨(admitLoop build operation monitors).1⟩ = some code' := by
  induction monitors with
  | nil => cases hm
  | cons x monitors ih =>
    cases hx : (x.policy.step x.state operation none).2 with
    | reject code' =>
      simp only [admitLoop, hx]
      exact ⟨trivial, code', rfl⟩
    | allow =>
      rcases List.mem_cons.1 hm with rfl | hm
      · rw [Monitor.verdict, hx] at h
        cases h
      · obtain ⟨hnext, code', hcode⟩ := ih hm
        simp only [admitLoop, hx]
        exact ⟨by rw [hnext]; rfl, code', by simpa [Check.rejection] using hcode⟩

/-- **Admission.** An operation that all monitors allow steps each of them -/
theorem admit_allow (h : ∀ m ∈ monitors, m.verdict operation = .allow) :
    (admitOperation build monitors operation).1 = monitors.map (·.after operation) ∧
      (admitOperation build monitors operation).2.rejection = none := by
  obtain ⟨hnext, hcheck⟩ := @admitLoop_allow build _ _ h
  refine ⟨?_, hcheck⟩
  show (admitLoop build operation monitors).2.getD monitors = _
  rw [hnext, Option.getD_some]

/-- **Refusal.** An operation that one monitor rejects steps none of them -/
theorem admit_reject {m : Monitor} {code : Code} (hm : m ∈ monitors) (h : m.verdict operation = .reject code) :
    (admitOperation build monitors operation).1 = monitors ∧
      ∃ code', (admitOperation build monitors operation).2.rejection = some code' := by
  obtain ⟨hnext, hcheck⟩ := @admitLoop_reject build _ _ _ _ hm h
  refine ⟨?_, hcheck⟩
  show (admitLoop build operation monitors).2.getD monitors = _
  rw [hnext, Option.getD_none]

/-- an operation is admitted when all monitors allow it -/
theorem rejection_eq_none :
    (admitOperation build monitors operation).2.rejection = none ↔ ∀ m ∈ monitors, m.verdict operation = .allow := by
  constructor
  · intro h m hm
    cases hverdict : m.verdict operation with
    | allow => rfl
    | reject code =>
      obtain ⟨_, code', hcode⟩ := @admit_reject build _ _ _ _ hm hverdict
      rw [h] at hcode
      cases hcode
  · intro h
    exact (admit_allow h).2

theorem admit_length : (admitOperation build monitors operation).1.length = monitors.length := by
  by_cases h : ∀ m ∈ monitors, m.verdict operation = .allow
  · rw [(admit_allow h).1, List.length_map]
  · push Not at h
    obtain ⟨m, hm, hverdict⟩ := h
    cases hreject : m.verdict operation with
    | allow => exact absurd hreject hverdict
    | reject code => rw [(admit_reject hm hreject).1]

theorem admit_decisions : (admitOperation build monitors operation).2.decisions = [] ↔ monitors = [] := by
  cases monitors with
  | nil => simp [admitOperation, admitLoop]
  | cons m monitors =>
    have hne : (admitOperation build (m :: monitors) operation).2.decisions ≠ [] := by
      show (admitLoop build operation (m :: monitors)).1 ≠ []
      rw [admitLoop]
      dsimp only
      split <;> exact List.cons_ne_nil _ _
    simp [hne]

/-- an operation that sends nothing is admitted and steps nothing -/
theorem admit_other (h : operation.sendKey = none) :
    (admitOperation build monitors operation).1 = monitors ∧
      (admitOperation build monitors operation).2.rejection = none := by
  have hstep : ∀ m : Monitor, m.policy.step m.state operation none = (m.state, .allow) := fun m => Policy.step_other h
  obtain ⟨hnext, hcheck⟩ := @admit_allow build monitors operation fun m _ => by
    rw [Monitor.verdict, hstep]
  refine ⟨?_, hcheck⟩
  rw [hnext]
  conv => rhs; rw [← List.map_id monitors]
  refine List.map_congr_left fun m _ => ?_
  rw [Monitor.after, hstep]
  rfl

end Admit

end ZenoFcis.Effects
