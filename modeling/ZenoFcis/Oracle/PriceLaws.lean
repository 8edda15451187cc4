/-
The law reference of the price relation (`oracle/laws.rs`): an ordered set of refusal facts, a separate exact successor,
and the check of a proposed outcome against both and against the security law.
-/
import ZenoFcis.Oracle.BondLaws
import ZenoFcis.Oracle.Prices

namespace ZenoFcis.Oracle

open Lib Lib.Except

namespace PriceLaws

section Facts

variable (r : FeedRules) (s : PriceState) (nonce : U64) (c : PriceCommand) (clock : ClockView)

/-- the aggregate that a command stages or commits -/
def target (s : PriceState) : PriceCommand → Option PriceAggregate
  | .stage a => some a
  | .commit => s.pending.map Pending.aggregate
  | _ => none

/-- an observation that the clock and the watermark have left behind -/
def staleFact (a : PriceAggregate) : Bool :=
  decide (a.numbers.oldestEpoch ≤ clock.epoch) &&
    (decide (r.clock.maxAge < clock.epoch.sub a.numbers.oldestEpoch) ||
      (decide (a.numbers.medianSeconds ≤ s.watermark) &&
        decide (r.clock.maxTimeLag < s.watermark.sub a.numbers.medianSeconds)))

/-- a round or a time that goes back behind the committed price -/
def backwards (old a : PriceAggregate) : Bool :=
  decide (a.round ≤ old.round) || decide (a.numbers.oldestEpoch < old.numbers.oldestEpoch) ||
    decide (a.numbers.medianSeconds < old.numbers.medianSeconds)

/-- the facts about the aggregate of a command -/
def aggregateFacts (a : PriceAggregate) : Facts
  | .bindingMismatch => decide (a.feed ≠ r.feed) || decide (a.profile ≠ r.profile) || decide (a.query ≠ r.query)
  | .futureObservation => decide (clock.epoch < a.numbers.oldestEpoch)
  | .staleObservation => staleFact r s clock a
  | .excessUncertainty => decide (r.maxDeviationBps < a.numbers.deviationBps)
  | .disputedOrFrozen => s.quarantines.any a.names
  | .nonMonotoneCommit => s.committed.any (backwards · a) ||
      match c with
      | .stage _ => s.pending.any fun old => decide (a.round ≤ old.aggregate.round)
      | _ => false
  | _ => false

/-- the facts about the command itself -/
def commandFacts : Facts
  | .wrongPhase => match c with
    | .commit => s.pending.isNone
    | _ => false
  | .bufferNotMature => match c with
    | .commit => s.pending.any fun p => decide (clock.epoch < p.earliest)
    | _ => false
  | .bindingMismatch => match c with
    | .syncTime q => decide (q.feed ≠ r.feed) || decide (q.profile ≠ r.profile)
    | _ => false
  | .futureObservation => match c with
    | .syncTime q => decide (clock.epoch < q.oldestEpoch)
    | _ => false
  | .staleObservation => match c with
    | .syncTime q => decide (q.oldestEpoch ≤ clock.epoch) &&
        decide (r.clock.maxAge < clock.epoch.sub q.oldestEpoch)
    | _ => false
  | .unknownReference => match c with
    | .quarantine id => !s.aggregates.any (·.names id)
    | _ => false
  | .alreadyExists => match c with
    | .quarantine id => decide (id ∈ s.quarantines)
    | _ => false
  | .full => match c with
    | .commit => decide (r.bounds.maxEntries.val ≤ s.history.length)
    | .quarantine id => decide (id ∉ s.quarantines) && decide (r.bounds.maxEntries.val ≤ s.quarantines.length)
    | _ => false
  | _ => false

/-- all refusal facts of a command -/
def facts : Facts
  | .replay => decide (nonce ≠ s.nonce)
  | .counterExhausted => decide (s.nonce = .max)
  | .badClockOrSync => decide (clock.epoch < s.epoch)
  | reason => (target s c).any (aggregateFacts r s c clock · reason) || commandFacts r s c clock reason

/-- one step for each fact that is looked at -/
def firstFact (f : Facts) : List Reason → Work (Option Reason)
  | [] => pure none
  | reason :: rest => do
    step
    if f reason then pure (some reason) else firstFact f rest

def priceReason : Work (Option Reason) := do
  if (target s c).isSome then visitAll s.quarantines.length
  firstFact (facts r s nonce c clock) reasons

end Facts

/-- the exact successor of a command -/
def successor (r : FeedRules) (clock : ClockView) (s : PriceState) (c : PriceCommand) : Work PriceState := do
  let nonce ← .okOr s.nonce.checkedSucc (.law 112000)
  let expected := { s with nonce := nonce, epoch := clock.epoch }
  match c with
  | .stage a =>
    let disputeUntil ← .okOr (clock.epoch.checkedAdd r.clock.disputeOpen) .arithmetic
    let earliest ← .okOr (clock.epoch.checkedAdd (max r.clock.disputeOpen r.clock.confirmation)) .arithmetic
    pure { expected with pending := some ⟨a, clock.epoch, disputeUntil, earliest⟩ }
  | .commit =>
    let pending ← .okOr s.pending (.law 112001)
    let a := pending.aggregate
    pure { expected with committed := some a, pending := none, history := s.history ++ [a] }
  | .syncTime q => pure { expected with watermark := max s.watermark q.seconds }
  | .quarantine id => pure { expected with quarantines := s.quarantines ++ [id] }
  | .advanceEpoch => pure expected

/-- `proposed.err()` -/
def refusal : Except Reason PricePlan → Option Reason
  | .ok _ => none
  | .error reason => some reason

/-- an accepted plan against the exact successor and the security law -/
def acceptedLaw (r : FeedRules) (x : PriceContext) (s : PriceState) (c : PriceCommand) (plan : PricePlan) : Work Unit := do
  let before ← .lift (Prices.value s)
  let _ ← Wire.charge before
  let post ← .lift (Prices.value plan.state)
  let _ ← Wire.charge post
  let expected ← successor r x.clock s c
  step
  failIf (plan.state ≠ expected) (.law 112002)
  securityLaw x.parameters x.caps x.security plan.status

def price (r : FeedRules) (x : PriceContext) (s : PriceState) (c : PriceCommand)
    (proposed : Except Reason PricePlan) : Work Unit := do
  failIf (Prices.oversized r s) .invalidState
  let rows ← .lift (checkedAdd usizeMax s.history.length s.quarantines.length .arithmetic)
  reserveScans rows
  match proposed with
  | .error _ => pure ()
  | .ok plan => failIf (Prices.oversized r plan.state) (.law 112002)
  let expected ← priceReason r s x.nonce c x.clock
  failIf (refusal proposed ≠ expected) (.law 112100)
  match proposed with
  | .error _ => pure ()
  | .ok plan => acceptedLaw r x s c plan

end PriceLaws

/-- the price relation with its laws -/
def Prices.checked (r : FeedRules) (x : PriceContext) (s : PriceState) (c : PriceCommand) :
    Work (Except Reason PricePlan) := do
  let result ← settle (Prices.run r x s c)
  PriceLaws.price r x s c result
  pure result

end ZenoFcis.Oracle
