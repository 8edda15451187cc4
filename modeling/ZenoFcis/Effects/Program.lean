/-
The pure step functions of the effect shell (`effects/program.rs`): commit with recovery, and outbox delivery.

A program is a total function from its saved continuation and a response to its next step. Saved values that the source
moves are passed on here; a continuation that is not resumed is dropped.
-/
import ZenoFcis.Effects.Port
import ZenoFcis.Lib.Dialogue

namespace ZenoFcis.Effects

/-- one step of a program: the run ended, or one operation is requested -/
inductive Step (κ α : Type) where
  | done (outcome : Outcome α)
  | request (id : OpId) (operation : Operation) (continuation : κ)
deriving DecidableEq

/-- the authority a program must declare to request a port -/
inductive Capability where
  | readStore
  | writeStore
  | relay
  | openStore
  | transport
  | clock
  | jitter
deriving DecidableEq

/-- a program the driver can run -/
structure Program (κ α : Type) where
  ports : List Port
  capabilities : List Capability
  resume : κ → Response → Step κ α

/-- the operation a step requests -/
def Step.outstanding {κ α : Type} : Step κ α → Option Operation
  | .done _ => none
  | .request _ operation _ => some operation

/-- a program answered without a driver: any response resumes it -/
def Program.dialogue {κ α : Type} (program : Program κ α) : Lib.Dialogue (Step κ α) Operation Response where
  outstanding := Step.outstanding
  answer := fun step response =>
    match step with
    | .done outcome => .done outcome
    | .request _ _ continuation => program.resume continuation response

/-! ## Commit with recovery -/

/-- the retained commit request: the caller keeps it across uncertainty -/
structure CommitInvocation where
  epoch : ℕ
  store : Store
  key : Hash32
  publication : PublicationData
  mode : CommitMode
deriving DecidableEq

/-- retries after NotApplied or Unknown, shared by every phase -/
structure CommitPolicy where
  retries : ℕ
deriving DecidableEq

inductive CommitPhase where
  | commit
  | reopen
  | history
deriving DecidableEq

structure CommitContinuation where
  phase : CommitPhase
  id : OpId
  retries : ℕ
  mode : CommitMode
  unknown : Option Fault
  invocation : CommitInvocation
deriving DecidableEq

abbrev CommitStep := Step CommitContinuation CommitReceipt

def commitOperation (invocation : CommitInvocation) (mode : CommitMode) : Operation :=
  .commit invocation.store invocation.key invocation.publication mode

def contains (history : AuditedHistory) (invocation : CommitInvocation) : Bool :=
  history.commits.any fun entry => entry.key == invocation.key && entry.publication == invocation.publication

/-- requests the next operation of `phase` -/
def askCommitPhase (continuation : CommitContinuation) (phase : CommitPhase) : CommitStep :=
  match continuation.id.next with
  | none =>
    match continuation.unknown with
    | some original => .done (.unknown original)
    | none => .done (.refused .range)
  | some id =>
    let store := continuation.invocation.store
    let operation := match phase with
      | .commit => commitOperation continuation.invocation continuation.mode
      | .reopen => .reopen store
      | .history => .readHistory store
    .request id operation { continuation with phase, id }

def askCommit (continuation : CommitContinuation) (mode : CommitMode) : CommitStep :=
  askCommitPhase { continuation with mode } .commit

def unresolved (continuation : CommitContinuation) (fault : Fault) : CommitStep :=
  match continuation.unknown with
  | some original => .done (.unknown original)
  | none => .done (.unknown fault)

def spend (continuation : CommitContinuation) : CommitContinuation :=
  { continuation with retries := continuation.retries - 1 }

def retryCommitPhase (continuation : CommitContinuation) (phase : CommitPhase) (fault : Fault) : CommitStep :=
  if continuation.retries = 0 then unresolved continuation fault
  else askCommitPhase (spend continuation) phase

def committed (continuation : CommitContinuation) (outcome : Outcome CommitReceipt) : CommitStep :=
  match outcome with
  | .ok receipt => .done (.ok receipt)
  | .refused code => .done (.refused code)
  | .notApplied fault =>
    if continuation.retries = 0 then
      match continuation.unknown with
      | some original => .done (.unknown original)
      | none => .done (.notApplied fault)
    else askCommit (spend continuation) continuation.mode
  | .unknown fault =>
    if continuation.retries = 0 then unresolved continuation fault
    else
      let continuation := spend continuation
      let unknown := match continuation.unknown with
        | none => some fault
        | some original => some original
      askCommitPhase { continuation with unknown } .reopen

namespace CommitProgram

/-- requests the original commit -/
def start (invocation : CommitInvocation) (policy : CommitPolicy) : CommitStep :=
  let id := OpId.first invocation.epoch
  .request id (commitOperation invocation invocation.mode)
    ⟨.commit, id, policy.retries, invocation.mode, none, invocation⟩

/-- restarts a commit whose run ended without an answer: reopen and read the history before any retry -/
def recover (invocation : CommitInvocation) (policy : CommitPolicy) : CommitStep :=
  let id := OpId.first invocation.epoch
  .request id (.reopen invocation.store) ⟨.reopen, id, policy.retries, invocation.mode, some .io, invocation⟩

def resume (continuation : CommitContinuation) (response : Response) : CommitStep :=
  match continuation.phase, response with
  | .commit, .commit outcome => committed continuation outcome
  | .reopen, .reopen outcome =>
    match outcome with
    | .ok _ => askCommitPhase continuation .history
    | .refused _ => unresolved continuation .io
    | .notApplied fault | .unknown fault => retryCommitPhase continuation .reopen fault
  | .history, .readHistory outcome =>
    match outcome with
    | .ok history =>
      -- the store checks the expected version before the replay lookup, so only a commit that is there may be retried
      -- unversioned
      let mode := if contains history continuation.invocation then .unversioned else continuation.invocation.mode
      askCommit continuation mode
    | .refused _ => unresolved continuation .io
    | .notApplied fault | .unknown fault => retryCommitPhase continuation .history fault
  | _, _ => unresolved continuation .io

end CommitProgram

def commitProgram : Program CommitContinuation CommitReceipt where
  ports := [.commit, .reopen, .readHistory]
  capabilities := [.writeStore, .openStore, .readStore]
  resume := CommitProgram.resume

/-! ## Delivery -/

/-- one delivery run -/
structure DeliveryInvocation where
  epoch : ℕ
  store : Store
deriving DecidableEq

/-- retries shared by the run, ticks to wait before a resend, and the bound of the jitter draws -/
structure DeliveryPolicy where
  retries : ℕ
  backoff : ℕ
  jitter : ℕ+
deriving DecidableEq

inductive DeliveryPhase where
  | read
  | send
  | acknowledge
  | clock
  | jitter
  | wait
deriving DecidableEq

/-- `blocked` is a set of destinations: only membership is read -/
structure DeliveryContinuation where
  phase : DeliveryPhase
  id : OpId
  retries : ℕ
  invocation : DeliveryInvocation
  policy : DeliveryPolicy
  pending : List Delivery
  isolateDestinations : Bool
  blocked : List Bytes
  failed : Option (Outcome ℕ)
  current : ℕ
  acknowledged : ℕ
  mayHaveSent : Bool
  tick : EpochTick
deriving DecidableEq

abbrev DeliveryStep := Step DeliveryContinuation ℕ

/-- a run-level non-execution result is valid only before any possible send -/
def deliveryDone (continuation : DeliveryContinuation) (outcome : Outcome ℕ) : DeliveryStep :=
  if continuation.mayHaveSent then
    match outcome with
    | .ok count => .done (.ok count)
    | .notApplied fault | .unknown fault => .done (.unknown fault)
    | .refused _ => .done (.unknown .io)
  else .done outcome

def ask (continuation : DeliveryContinuation) (phase : DeliveryPhase) (operation : Operation) : DeliveryStep :=
  match continuation.id.next with
  | none => deliveryDone continuation (.refused .range)
  | some id => .request id operation { continuation with phase, id }

/-- the order of records: version, lane and ordinal, lexicographically -/
def Delivery.before (a b : Delivery) : Bool :=
  decide (a.version < b.version ∨ a.version = b.version ∧
    (a.lane < b.lane ∨ a.lane = b.lane ∧ a.ordinal < b.ordinal))

/-- whether records are strictly ascending by version, lane and ordinal -/
def ordered : List Delivery → Bool
  | before :: after :: rest => before.before after && ordered (after :: rest)
  | _ => true

/-- the `while` loop of `send`: the first position from `current` on whose destination is not blocked -/
def skipBlocked (pending : List Delivery) (blocked : List Bytes) (current : ℕ) : ℕ :=
  current + ((pending.drop current).takeWhile fun delivery => blocked.contains delivery.destination).length

/-- sends the next eligible record, skipping destinations already blocked in this run -/
def send (continuation : DeliveryContinuation) : DeliveryStep :=
  let current := skipBlocked continuation.pending continuation.blocked continuation.current
  let continuation := { continuation with current }
  match continuation.pending[current]? with
  | none => deliveryDone continuation (continuation.failed.getD (.ok continuation.acknowledged))
  | some delivery => ask continuation .send (.send continuation.invocation.store delivery)

def read (continuation : DeliveryContinuation) (outcome : Outcome (List Delivery)) : DeliveryStep :=
  match outcome with
  | .ok pending =>
    if ordered pending then send { continuation with pending, current := 0 }
    else deliveryDone continuation (.refused .protocol)
  | .refused code => deliveryDone continuation (.refused code)
  | .notApplied fault | .unknown fault =>
    if continuation.retries = 0 then deliveryDone continuation (.notApplied fault)
    else ask { continuation with retries := continuation.retries - 1 } .read (.readOutbox continuation.invocation.store)

def failedDestination (continuation : DeliveryContinuation) (failed : Outcome ℕ) : DeliveryStep :=
  if continuation.isolateDestinations then
    match continuation.pending[continuation.current]? with
    | none => deliveryDone continuation (.refused .protocol)
    | some delivery =>
      send { continuation with
        blocked := delivery.destination :: continuation.blocked
        failed := continuation.failed.or (some failed)
        current := continuation.current + 1 }
  else deliveryDone continuation failed

def backOff (continuation : DeliveryContinuation) : DeliveryStep :=
  ask { continuation with retries := continuation.retries - 1 } .clock .clock

def acknowledgeOperation (continuation : DeliveryContinuation) (delivery : Delivery) : Operation :=
  .acknowledge continuation.invocation.store delivery.id delivery.payloadSha256

def sentOne (continuation : DeliveryContinuation) (sent : Sent) : DeliveryStep :=
  let continuation := match sent with
    | .sent _ | .unknown _ => { continuation with mayHaveSent := true }
    | .notSent _ | .refused _ => continuation
  match continuation.pending[continuation.current]? with
  | none => deliveryDone continuation (.refused .protocol)
  | some delivery =>
    match sent with
    | .sent report =>
      if report.deliveryId = delivery.id ∧ report.payloadSha256 = delivery.payloadSha256 then
        ask continuation .acknowledge (acknowledgeOperation continuation delivery)
      else deliveryDone continuation (.refused .protocol)
    | .refused code => failedDestination continuation (.refused code)
    | .notSent code =>
      if continuation.retries = 0 then failedDestination continuation (.refused code) else backOff continuation
    | .unknown fault =>
      if continuation.retries = 0 then failedDestination continuation (.unknown fault) else backOff continuation

/-- repeats an acknowledgement that failed -/
def retryAcknowledge (continuation : DeliveryContinuation) (failed : Outcome ℕ) : DeliveryStep :=
  if continuation.retries = 0 then failedDestination continuation failed
  else
    match continuation.pending[continuation.current]? with
    | none => deliveryDone continuation (.refused .protocol)
    | some delivery =>
      ask { continuation with retries := continuation.retries - 1 } .acknowledge
        (acknowledgeOperation continuation delivery)

def acknowledged (continuation : DeliveryContinuation) (outcome : Outcome Unit) : DeliveryStep :=
  match outcome with
  | .ok () | .refused .alreadyAcknowledged =>
    if continuation.acknowledged + 1 ≤ u64Max then
      send { continuation with
        acknowledged := continuation.acknowledged + 1
        current := continuation.current + 1 }
    else deliveryDone continuation (.refused .range)
  | .refused code => failedDestination continuation (.refused code)
  | .notApplied fault => retryAcknowledge continuation (.notApplied fault)
  | .unknown fault => retryAcknowledge continuation (.unknown fault)

namespace DeliveryProgram

def startWithIsolation (invocation : DeliveryInvocation) (policy : DeliveryPolicy) (isolateDestinations : Bool) :
    DeliveryStep :=
  let id := OpId.first invocation.epoch
  .request id (.readOutbox invocation.store)
    { phase := .read, id, retries := policy.retries, invocation, policy, pending := [], isolateDestinations,
      blocked := [], failed := none, current := 0, acknowledged := 0, mayHaveSent := false,
      tick := ⟨invocation.epoch, 0⟩ }

/-- requests the exact pending records -/
def start (invocation : DeliveryInvocation) (policy : DeliveryPolicy) : DeliveryStep :=
  startWithIsolation invocation policy false

/-- continues other destinations after one exhausts its retries -/
def startPerDestination (invocation : DeliveryInvocation) (policy : DeliveryPolicy) : DeliveryStep :=
  startWithIsolation invocation policy true

def resume (continuation : DeliveryContinuation) (response : Response) : DeliveryStep :=
  match continuation.phase, response with
  | .read, .readOutbox outcome => read continuation outcome
  | .send, .send sent => sentOne continuation sent
  | .acknowledge, .acknowledge outcome => acknowledged continuation outcome
  | .clock, .clock reading =>
    match reading with
    | .ok now =>
      if now.epoch = continuation.invocation.epoch then
        ask { continuation with tick := now } .jitter (.random .retryJitter continuation.policy.jitter)
      else deliveryDone continuation (.refused .protocol)
    | .error fault => deliveryDone continuation (.notApplied fault)
  | .jitter, .random draw =>
    match draw with
    | .ok draw =>
      if draw < continuation.policy.jitter then
        -- both additions are checked, the backoff first
        if continuation.tick.tick + continuation.policy.backoff ≤ u64Max ∧
            continuation.tick.tick + continuation.policy.backoff + draw ≤ u64Max then
          let tick := ⟨continuation.tick.epoch, continuation.tick.tick + continuation.policy.backoff + draw⟩
          ask { continuation with tick } .wait (.wait tick)
        else deliveryDone continuation (.refused .range)
      else deliveryDone continuation (.refused .protocol)
    | .error fault => deliveryDone continuation (.notApplied fault)
  | .wait, .wait woke =>
    match woke with
    | .ok now =>
      if now.epoch = continuation.tick.epoch ∧ continuation.tick.tick ≤ now.tick then send continuation
      else deliveryDone continuation (.refused .protocol)
    | .error .interrupted => deliveryDone continuation (.refused .interrupted)
    | .error (.failed fault) => deliveryDone continuation (.notApplied fault)
  | _, _ => deliveryDone continuation (.refused .protocol)

end DeliveryProgram

def deliveryProgram : Program DeliveryContinuation ℕ where
  ports := [.readOutbox, .send, .acknowledge, .clock, .random, .wait]
  capabilities := [.readStore, .transport, .relay, .clock, .jitter]
  resume := DeliveryProgram.resume

end ZenoFcis.Effects
