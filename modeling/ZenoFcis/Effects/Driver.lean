/-
The trusted driver of the effect shell (`effects/driver.rs`): one outstanding request and its response binding.

A response is admitted only when it is bound to the outstanding request and its result fits the registry's schema; the
refusals are checked in the source's order. `reply` returns its result and the driver after it.
-/
import ZenoFcis.Effects.Registry

namespace ZenoFcis.Effects

open Lib.Except

/-- a handler's response with the binding of the request it answers -/
structure Reply where
  binding : Binding
  response : Response
deriving DecidableEq

/-- why a response was not admitted -/
inductive Refusal where
  | idle
  | duplicate
  | stale
  | epoch
  | ordinal
  | tag
  | store
  | handle
  | subject
  | type (error : TypeError)
deriving DecidableEq

/-- why the driver stopped a program -/
inductive Fatal where
  | registry (error : RegistryError)
  | capability (port : Port)
  | sequence
  | type (port : Port) (error : TypeError)
deriving DecidableEq

namespace Driver

/-- what the program waits for, or how it ended -/
inductive State (κ α : Type) where
  | waiting (binding : Binding) (operation : Operation) (continuation : κ)
  | done (outcome : Outcome α)
  | failed (fatal : Fatal)
deriving DecidableEq

end Driver

/-- runs one program; a handler answers its requests one at a time -/
structure Driver (κ α : Type) where
  registry : Registry
  epoch : ℕ
  answered : Option OpId
  state : Driver.State κ α

namespace Driver

variable {κ α : Type}

/-- admits a step: a request must be the next one, of a port the program lists, and fit its schema -/
def admitStep (program : Program κ α) (registry : Registry) (expected : OpId) : Step κ α → Except Fatal (State κ α)
  | .done outcome => .ok (.done outcome)
  | .request id operation continuation =>
    if id ≠ expected then .error .sequence
    else
      match registry.signature operation.port with
      | none => .error (.capability operation.port)
      | some signature =>
        if !program.ports.contains operation.port then .error (.capability operation.port)
        else
          match conforms signature.arguments operation.value "arguments" with
          | .error error => .error (.type operation.port error)
          | .ok () => .ok (.waiting (Binding.of id operation) operation continuation)

/-- the ports a program lists: each once, with its capability declared -/
def checkPorts (program : Program κ α) (registry : Registry) (earlier : List Port) : List Port → Except Fatal Unit
  | [] => .ok ()
  | port :: ports =>
    let declared := match registry.signature port with
      | some signature => program.capabilities.contains signature.capability
      | none => false
    if !declared || earlier.contains port then .error (.capability port)
    else checkPorts program registry (earlier ++ [port]) ports

/-- checks the registry and the capabilities, then admits the first step, at ordinal zero of `epoch` -/
def start (program : Program κ α) (registry : Registry) (epoch : ℕ) (first : Step κ α) :
    Except Fatal (Driver κ α) := do
  registry.check.mapError Fatal.registry
  checkPorts program registry [] program.ports
  let state ← admitStep program registry (OpId.first epoch) first
  return ⟨registry, epoch, none, state⟩

/-- the outstanding request, until the run ends -/
def request (driver : Driver κ α) : Option (Binding × Operation) :=
  match driver.state with
  | .waiting binding operation _ => some (binding, operation)
  | .done _ | .failed _ => none

/-- the run's outcome, once it has ended -/
def outcome (driver : Driver κ α) : Option (Outcome α) :=
  match driver.state with
  | .done outcome => some outcome
  | .waiting .. | .failed _ => none

/-- why the driver stopped the program, if it did -/
def failure (driver : Driver κ α) : Option Fatal :=
  match driver.state with
  | .failed fatal => some fatal
  | .waiting .. | .done _ => none

/-- the store of a response against the store of the request -/
def checkStore : Option Store → Option Store → Except Refusal Unit
  | none, none => .ok ()
  | some got, some expected =>
    if got.identity ≠ expected.identity then .error .store
    else if got.handle ≠ expected.handle then .error .handle
    else .ok ()
  | _, _ => .error .store

/-- the checks of a response against the outstanding request `binding`, in order -/
def check (driver : Driver κ α) (binding : Binding) (reply : Reply) : Except Refusal Unit := do
  let got := reply.binding
  ensure (got.id.epoch = driver.epoch ∧ got.id.epoch = binding.id.epoch) Refusal.epoch
  ensure (some got.id ≠ driver.answered) Refusal.duplicate
  ensure (binding.id.ordinal ≤ got.id.ordinal) Refusal.stale
  ensure (got.id.ordinal = binding.id.ordinal) Refusal.ordinal
  ensure (got.port = binding.port ∧ reply.response.port = binding.port) Refusal.tag
  checkStore got.store binding.store
  ensure (got.subject = binding.subject) Refusal.subject
  match reply.response.value with
  | none => .ok ()
  | some value =>
    match driver.registry.signature binding.port with
    | none => .error .tag
    | some signature => (conforms signature.answer.payload value "result").mapError Refusal.type

/-- the state after the program resumed from the request `id` with `step` -/
def resumed (program : Program κ α) (registry : Registry) (id : OpId) (step : Step κ α) : State κ α :=
  match id.next with
  | some next =>
    match admitStep program registry next step with
    | .ok state => state
    | .error fatal => .failed fatal
  | none =>
    match step with
    | .done outcome => .done outcome
    | .request .. => .failed .sequence

/-- admits a response bound to the outstanding request and resumes the program once -/
def reply (program : Program κ α) (driver : Driver κ α) (reply : Reply) : Except Refusal Unit × Driver κ α :=
  match driver.state with
  | .waiting binding _ continuation =>
    match driver.check binding reply with
    | .error refusal => (.error refusal, driver)
    | .ok () =>
      (.ok (), { driver with
        answered := some binding.id
        state := resumed program driver.registry binding.id (program.resume continuation reply.response) })
  | .done _ | .failed _ =>
    (.error (if some reply.binding.id = driver.answered then .duplicate else .idle), driver)

end Driver

end ZenoFcis.Effects
