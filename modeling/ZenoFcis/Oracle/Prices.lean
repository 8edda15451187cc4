/-
Buffered price evidence (`oracle/prices.rs`): the price state with its history, the producer `run` of the price
relation, and the monetary read `checkedView`.

The staleness test subtracts without a check, so it takes the proof that its first subtraction is exact; every caller
has to test for a future observation before. The exposure caps stand beside the policy, as in `Oracle.Capacity`.
-/
import ZenoFcis.Oracle.Capacity

namespace ZenoFcis.Oracle

open Lib Lib.Except

/-- the time-only reduction of a complete quorum -/
structure TimeQuorum where
  feed : Hash
  profile : Hash
  round : U64
  reports : Fin 3 → Hash
  oldestEpoch : U64
  seconds : U64
deriving DecidableEq

/-- policy, clock and allocation premises of a price command -/
structure PriceContext where
  parameters : Parameters
  caps : ExposureCaps
  nonce : U64
  clock : ClockView
  security : SecurityInputs

/-- a staged aggregate and its publication timing -/
structure Pending where
  aggregate : PriceAggregate
  published : U64
  disputeUntil : U64
  earliest : U64
deriving DecidableEq

/-- committed, buffered and quarantined price evidence -/
structure PriceState where
  committed : Option PriceAggregate
  pending : Option Pending
  history : List PriceAggregate
  quarantines : List Hash
  watermark : U64
  epoch : U64
  nonce : U64
deriving DecidableEq

inductive PriceCommand where
  | stage (a : PriceAggregate)
  | commit
  | syncTime (q : TimeQuorum)
  | quarantine (target : Hash)
  | advanceEpoch

/-- a price successor and its capacity status -/
structure PricePlan where
  state : PriceState
  status : CapacityStatus
deriving DecidableEq

/-- a committed price that may be read -/
structure PriceView where
  aggregate : PriceAggregate
  watermark : U64
  epoch : U64
  capacity : UsdExposureE18
deriving DecidableEq

/-- the identity, the reports and the admissions of an aggregate -/
def PriceAggregate.names (a : PriceAggregate) (id : Hash) : Bool :=
  decide (a.id = id) || decide (∃ i, a.reports i = id) || decide (∃ i, a.admissions i = id)

/-- every aggregate of the state: committed, buffered and retained -/
def PriceState.aggregates (s : PriceState) : List PriceAggregate :=
  s.committed.toList ++ (s.pending.map Pending.aggregate).toList ++ s.history

namespace Prices

/-! ## Checks -/

def binding (r : FeedRules) (a : PriceAggregate) : Bool :=
  decide (a.feed = r.feed) && decide (a.profile = r.profile) && decide (a.query = r.query)

/-- `a - b`, which the caller knows to be exact -/
def minus (a b : U64) (_ : b ≤ a) : U64 := a.sub b

def stale (c : ClockParameters) (a : PriceAggregate) (epoch watermark : U64) (h : a.numbers.oldestEpoch ≤ epoch) : Bool :=
  decide (c.maxAge < minus epoch a.numbers.oldestEpoch h) ||
    if h : a.numbers.medianSeconds ≤ watermark then decide (c.maxTimeLag < minus watermark a.numbers.medianSeconds h)
    else false

/-- an observation is refused as a future one, or it is not -/
def notFuture (oldest epoch : U64) : Arm (PLift (oldest ≤ epoch)) :=
  if h : oldest ≤ epoch then pure ⟨h⟩ else .fail (.refuse .futureObservation)

/-- the round is later, and the two times do not go back -/
def follows (old a : PriceAggregate) : Bool :=
  decide (old.round < a.round) && decide (old.numbers.oldestEpoch ≤ a.numbers.oldestEpoch) &&
    decide (old.numbers.medianSeconds ≤ a.numbers.medianSeconds)

def monotone (s : PriceState) (a : PriceAggregate) : Bool :=
  s.committed.all (follows · a) && s.pending.all fun old => decide (old.aggregate.round < a.round)

def quarantined (s : PriceState) (a : PriceAggregate) : Work Bool :=
  s.quarantines.foldlM (fun affected id => do
    visit
    pure (affected || a.names id)) false

/-- the history is bound and ascends in rounds, without an identity twice -/
def validateHistory (r : FeedRules) : List PriceAggregate → List PriceAggregate → Work Unit
  | _, [] => pure ()
  | seen, a :: history => do
    visit
    failIf (¬ binding r a ∨ ∃ old ∈ seen, old.id = a.id ∨ a.round ≤ old.round) .invalidState
    validateHistory r (seen ++ [a]) history

def validatePending (r : FeedRules) (s : PriceState) (pending : Pending) : Work Unit := do
  failIf (¬ binding r pending.aggregate) .invalidState
  let disputeUntil ← .okOr (pending.published.checkedAdd r.clock.disputeOpen) .arithmetic
  failIf (pending.disputeUntil ≠ disputeUntil) .invalidState
  let earliest ← .okOr (pending.published.checkedAdd (max r.clock.confirmation r.clock.disputeOpen)) .arithmetic
  failIf (pending.earliest ≠ earliest ∨ s.epoch < pending.published ∨
    pending.published < pending.aggregate.numbers.oldestEpoch ∨ ¬ s.committed.all (follows · pending.aggregate))
    .invalidState

/-- more history or quarantines than the feed retains -/
def oversized (r : FeedRules) (s : PriceState) : Prop :=
  r.bounds.maxEntries.val < s.history.length ∨ r.bounds.maxEntries.val < s.quarantines.length

instance (r : FeedRules) (s : PriceState) : Decidable (oversized r s) := by
  unfold oversized
  infer_instance

def validate (r : FeedRules) (s : PriceState) : Work Unit := do
  failIf (oversized r s) .invalidState
  let rows ← .lift (checkedAdd usizeMax s.history.length s.quarantines.length .arithmetic)
  reserveScans rows
  validateHistory r [] s.history
  failIf (s.committed ≠ s.history.getLast?) .invalidState
  match s.pending with
  | none => pure ()
  | some pending => validatePending r s pending

/-! ## The projection -/

def pendingValue (p : Pending) : Except Failure Value := do
  Wire.record [← p.aggregate.value,
    ← Wire.integers [Wire.widen p.published, Wire.widen p.disputeUntil, Wire.widen p.earliest]]

/-- an optional part as a sum of two variants -/
def maybe (typeId : UInt32) : Option Value → Value
  | none => .sum typeId 0 none
  | some v => .sum typeId 1 (some v)

/-- `Value::vector` of the projected rows, with its error renamed -/
def vector {α : Type} (project : α → Except Failure Value) (rows : List α) : Except Failure Value := do
  let items ← rows.mapM project
  (Value.vectorOf items).mapError fun _ => .canonical

def value (s : PriceState) : Except Failure Value := do
  let pending ← s.pending.mapM pendingValue
  let history ← vector PriceAggregate.value s.history
  let quarantines ← vector (fun h => Wire.blob h.bytes) s.quarantines
  let committed ← s.committed.mapM PriceAggregate.value
  Wire.record [maybe 1 committed, maybe 2 pending, history, quarantines,
    ← Wire.integers [Wire.widen s.watermark, Wire.widen s.epoch, Wire.widen s.nonce]]

/-! ## The producer -/

/-- what a command changes, apart from the epoch and the nonce -/
def change (r : FeedRules) (clock : ClockView) (s : PriceState) : PriceCommand → Arm PriceState
  | .advanceEpoch => pure s
  | .stage a => do
    refuseIf (¬ binding r a) .bindingMismatch
    let past ← notFuture a.numbers.oldestEpoch clock.epoch
    refuseIf (stale r.clock a clock.epoch s.watermark past.down) .staleObservation
    refuseIf (r.maxDeviationBps < a.numbers.deviationBps) .excessUncertainty
    refuseIf (← arm (quarantined s a)) .disputedOrFrozen
    refuseIf (¬ monotone s a) .nonMonotoneCommit
    let disputeUntil ← .okOr (clock.epoch.checkedAdd r.clock.disputeOpen) (.fail .arithmetic)
    let earliest ← .okOr (clock.epoch.checkedAdd (max r.clock.confirmation r.clock.disputeOpen)) (.fail .arithmetic)
    pure { s with pending := some ⟨a, clock.epoch, disputeUntil, earliest⟩ }
  | .commit => do
    let pending ← .okOr s.pending (.refuse .wrongPhase)
    let a := pending.aggregate
    let past ← notFuture a.numbers.oldestEpoch clock.epoch
    refuseIf (stale r.clock a clock.epoch s.watermark past.down) .staleObservation
    refuseIf (r.maxDeviationBps < a.numbers.deviationBps) .excessUncertainty
    refuseIf (clock.epoch < pending.earliest) .bufferNotMature
    refuseIf (← arm (quarantined s a)) .disputedOrFrozen
    refuseIf (¬ s.committed.all (follows · a)) .nonMonotoneCommit
    pure { s with committed := some a, history := s.history ++ [a], pending := none }
  | .syncTime q => do
    refuseIf (q.feed ≠ r.feed ∨ q.profile ≠ r.profile) .bindingMismatch
    let past ← notFuture q.oldestEpoch clock.epoch
    refuseIf (r.clock.maxAge < minus clock.epoch q.oldestEpoch past.down) .staleObservation
    pure { s with watermark := max s.watermark q.seconds }
  | .quarantine target => do
    refuseIf (¬ s.aggregates.any (·.names target)) .unknownReference
    refuseIf (target ∈ s.quarantines) .alreadyExists
    pure { s with quarantines := s.quarantines ++ [target] }

/-- the predecessor is projected, charged and fits its frame -/
def frame (r : FeedRules) (s : PriceState) : Work Value := do
  let before ← .lift (value s)
  let size ← Wire.charge before
  let framed ← .lift (checkedAdd u64Max size 48 .arithmetic)
  failIf (r.frameBytes.val < framed) .invalidState
  pure before

/-- the successor is projected, charged, fits its frame and is valid again -/
def store (r : FeedRules) (out : PriceState) : Work Unit := do
  let post ← .lift (value out)
  let _ ← Wire.charge post
  let bytes ← .lift (Wire.bytes post)
  let framed ← .lift (checkedAdd usizeMax bytes.length 48 .arithmetic)
  failIf (r.frameBytes.val < framed) .canonical
  validate r out

def run (r : FeedRules) (x : PriceContext) (s : PriceState) (c : PriceCommand) : Arm PricePlan := do
  arm (.lift r.validate)
  arm (.lift x.parameters.validate)
  failIf (x.parameters.clock ≠ some r.clock) (.fail .invalidProfile)
  arm (validate r s)
  let before ← arm (frame r s)
  arm step
  refuseIf (x.nonce ≠ s.nonce) .replay
  let next ← .okOr s.nonce.checkedSucc (.refuse .counterExhausted)
  failIf (x.clock.backend ≠ r.clock.backend ∨ x.clock.finalityRoot = .zero) (.fail .invalidEvidence)
  refuseIf (x.clock.epoch < s.epoch) .badClockOrSync
  let _ ← arm (Wire.charge before)
  let changed ← change r x.clock s c
  let out := { changed with epoch := x.clock.epoch, nonce := next }
  refuseIf (oversized r out) .full
  let status ← arm (status x.parameters x.caps x.security)
  arm (store r out)
  pure ⟨out, status⟩

/-- the monetary read of the committed price -/
def checkedView (r : FeedRules) (p : Parameters) (caps : ExposureCaps) (s : PriceState) (clock : ClockView)
    (security : SecurityInputs) : Arm PriceView := do
  arm (.lift r.validate)
  arm (.lift p.validate)
  failIf (p.clock ≠ some r.clock) (.fail .invalidProfile)
  arm (validate r s)
  failIf (clock.backend ≠ r.clock.backend ∨ clock.finalityRoot = .zero) (.fail .invalidEvidence)
  refuseIf (clock.epoch < s.epoch) .badClockOrSync
  let a ← .okOr s.committed (.refuse .wrongPhase)
  refuseIf (s.watermark < a.numbers.medianSeconds) .badClockOrSync
  let past ← notFuture a.numbers.oldestEpoch clock.epoch
  refuseIf (stale r.clock a clock.epoch s.watermark past.down) .staleObservation
  refuseIf (r.maxDeviationBps < a.numbers.deviationBps) .excessUncertainty
  refuseIf (← arm (quarantined s a)) .disputedOrFrozen
  let capacity ← match ← arm (status p caps security) with
    | .available capacity => pure capacity
    | _ => .fail (.refuse .securityBudgetExceeded)
  let value ← arm (.lift a.value)
  let _ ← arm (Wire.charge value)
  pure ⟨a, s.watermark, clock.epoch, capacity⟩

end Prices

end ZenoFcis.Oracle
