/-
Plain port data of the effect shell (`effects/port.rs`): requests, responses and owned views of shell results.

A `u64` counter, version, tick or ordinal is a natural number; an operation of the source that checks an overflow checks
it here. Hashes, bytes, lanes and handles keep their fixed widths.
-/
import ZenoFcis.Codec.Decode

namespace ZenoFcis.Effects

/-! ## Ports -/

/-- one effect port, in tag order -/
inductive Port where
  | readState
  | commit
  | readHistory
  | readOutbox
  | send
  | acknowledge
  | reopen
  | clock
  | random
  | wait
deriving DecidableEq

/-- every port, in tag order -/
def Port.all : List Port :=
  [.readState, .commit, .readHistory, .readOutbox, .send, .acknowledge, .reopen, .clock, .random, .wait]

def Port.tag : Port → UInt8
  | .readState => 1
  | .commit => 2
  | .readHistory => 3
  | .readOutbox => 4
  | .send => 5
  | .acknowledge => 6
  | .reopen => 7
  | .clock => 8
  | .random => 9
  | .wait => 10

/-! ## Data -/

/-- a configured store handle -/
structure Store where
  identity : Hash32
  handle : UInt32
deriving DecidableEq

/-- a request's identity: the process epoch and its ordinal within the epoch -/
structure OpId where
  epoch : ℕ
  ordinal : ℕ
deriving DecidableEq

namespace OpId

def first (epoch : ℕ) : OpId := ⟨epoch, 0⟩

/-- the next request of the same epoch, or `none` instead of wrapping -/
def next (id : OpId) : Option OpId := if id.ordinal + 1 ≤ u64Max then some ⟨id.epoch, id.ordinal + 1⟩ else none

end OpId

/-- original inputs of one publication, as a program carries them -/
structure PublicationData where
  prestate : Bytes
  command : Bytes
  context : Bytes
  identity : Bytes
  subject : Bytes
deriving DecidableEq

/-- the expected-version guard of a commit -/
inductive CommitMode where
  | unversioned
  | at (version : ℕ)
  | boundedAt (version cap : ℕ)
deriving DecidableEq

/-- one checked head of a store -/
structure Snapshot where
  version : ℕ
  identity : Bytes
  state : Bytes
  root : Hash32
  chain : Hash32
deriving DecidableEq

inductive CommitStatus where
  | committed
  | idempotentReplay
deriving DecidableEq

/-- durable certificate of one commit -/
structure CommitReceipt where
  version : ℕ
  chain : Hash32
  status : CommitStatus
deriving DecidableEq

/-- one audited commit: its original key and publication inputs -/
structure HistoryEntry where
  key : Hash32
  version : ℕ
  publication : PublicationData
deriving DecidableEq

/-- a read-only audit of a store: its head and every commit, oldest first -/
structure AuditedHistory where
  head : Snapshot
  commits : List HistoryEntry
deriving DecidableEq

/-- one pending delivery record with its exact content -/
structure Delivery where
  id : Hash32
  version : ℕ
  lane : UInt8
  ordinal : UInt32
  destination : Bytes
  payload : Bytes
  payloadSha256 : Hash32
deriving DecidableEq

/-- what a transport reports about one send -/
structure Report where
  deliveryId : Hash32
  payloadSha256 : Hash32
deriving DecidableEq

inductive Purpose where
  | retryJitter
deriving DecidableEq

/-- a monotonic tick of one process epoch -/
structure EpochTick where
  epoch : ℕ
  tick : ℕ
deriving DecidableEq

/-- a refusal code, in declaration order -/
inductive Code where
  | provider
  | schema
  | identity
  | authority
  | lineage
  | checkpoint
  | invocationKind
  | history
  | range
  | preState
  | replay
  | concurrent
  | delivery
  | interpreter
  | unknownDelivery
  | alreadyAcknowledged
  | payloadMismatch
  | capacity
  | upgrade
  | succession
  | unsettled
  | protocol
  | interrupted
  | policyDuplicate
  | policyRecipient
  | policyFields
  | policyCapacity
deriving DecidableEq

/-- why an operation failed without a refusal code -/
inductive Fault where
  | busy
  | full
  | io
deriving DecidableEq

/-- a store operation's result -/
inductive Outcome (α : Type) where
  | ok (value : α)
  | refused (code : Code)
  | notApplied (fault : Fault)
  | unknown (fault : Fault)
deriving DecidableEq

/-- a transport observation -/
inductive Sent where
  | sent (report : Report)
  | notSent (code : Code)
  | unknown (fault : Fault)
  | refused (code : Code)
deriving DecidableEq

inductive WaitError where
  | interrupted
  | failed (fault : Fault)
deriving DecidableEq

/-- one request a program makes; the bound of `random` is a `NonZeroU64` -/
inductive Operation where
  | readState (store : Store)
  | commit (store : Store) (key : Hash32) (publication : PublicationData) (mode : CommitMode)
  | readHistory (store : Store)
  | readOutbox (store : Store)
  | send (store : Store) (delivery : Delivery)
  | acknowledge (store : Store) (id payloadSha256 : Hash32)
  | reopen (store : Store)
  | clock
  | random (purpose : Purpose) (bound : ℕ+)
  | wait (deadline : EpochTick)
deriving DecidableEq

/-- one response, answering exactly one operation -/
inductive Response where
  | readState (outcome : Outcome Snapshot)
  | commit (outcome : Outcome CommitReceipt)
  | readHistory (outcome : Outcome AuditedHistory)
  | readOutbox (outcome : Outcome (List Delivery))
  | send (sent : Sent)
  | acknowledge (outcome : Outcome Unit)
  | reopen (outcome : Outcome Snapshot)
  | clock (reading : Except Fault EpochTick)
  | random (draw : Except Fault ℕ)
  | wait (woke : Except WaitError EpochTick)
deriving DecidableEq

namespace Operation

/-- the port this operation requests -/
def port : Operation → Port
  | readState _ => .readState
  | commit .. => .commit
  | readHistory _ => .readHistory
  | readOutbox _ => .readOutbox
  | send .. => .send
  | acknowledge .. => .acknowledge
  | reopen _ => .reopen
  | clock => .clock
  | random .. => .random
  | wait _ => .wait

/-- the store handle this operation addresses, if any -/
def store : Operation → Option Store
  | readState store | commit store .. | readHistory store | readOutbox store | send store _ | acknowledge store ..
  | reopen store => some store
  | clock | random .. | wait _ => none

/-- the publication subject of a commit, the delivery ID of a send or acknowledgement, and nothing otherwise -/
def subject : Operation → Bytes
  | commit _ _ publication _ => publication.subject
  | send _ delivery => delivery.id.bytes
  | acknowledge _ id _ => id.bytes
  | _ => []

end Operation

namespace Response

/-- the answer to `port` that did not apply -/
def notApplied (port : Port) (fault : Fault) : Response :=
  match port with
  | .readState => readState (.notApplied fault)
  | .commit => commit (.notApplied fault)
  | .readHistory => readHistory (.notApplied fault)
  | .readOutbox => readOutbox (.notApplied fault)
  | .acknowledge => acknowledge (.notApplied fault)
  | .reopen => reopen (.notApplied fault)
  | .send => send (.notSent .delivery)
  | .clock => clock (.error fault)
  | .random => random (.error fault)
  | .wait => wait (.error (.failed fault))

/-- the answer to `port` that may or may not have applied -/
def unknown : Port → Response
  | .commit => commit (.unknown .io)
  | .acknowledge => acknowledge (.unknown .io)
  | .send => send (.unknown .io)
  | other => notApplied other .io

/-- the refusal of `port` with `code` -/
def refused (port : Port) (code : Code) : Response :=
  match port with
  | .readState => readState (.refused code)
  | .commit => commit (.refused code)
  | .readHistory => readHistory (.refused code)
  | .readOutbox => readOutbox (.refused code)
  | .acknowledge => acknowledge (.refused code)
  | .reopen => reopen (.refused code)
  | .send => send (.notSent code)
  | other => notApplied other .io

/-- the port this response answers -/
def port : Response → Port
  | readState _ => .readState
  | commit _ => .commit
  | readHistory _ => .readHistory
  | readOutbox _ => .readOutbox
  | send _ => .send
  | acknowledge _ => .acknowledge
  | reopen _ => .reopen
  | clock _ => .clock
  | random _ => .random
  | wait _ => .wait

@[simp] theorem notApplied_port (port : Port) (fault : Fault) : (notApplied port fault).port = port :=
  by cases port <;> rfl

@[simp] theorem unknown_port (port : Port) : (unknown port).port = port := by cases port <;> rfl

@[simp] theorem refused_port (port : Port) (code : Code) : (refused port code).port = port := by cases port <;> rfl

end Response

/-- what binds a response to the request that asked for it (`effects/driver.rs`) -/
structure Binding where
  id : OpId
  port : Port
  store : Option Store
  subject : Bytes
deriving DecidableEq

/-- the binding of one request -/
def Binding.of (id : OpId) (operation : Operation) : Binding :=
  ⟨id, operation.port, operation.store, operation.subject⟩

end ZenoFcis.Effects
