/-
Quorum selection and price aggregation (`oracle/aggregation.rs`, `oracle/arithmetic.rs`): the producer `select`,
`numbers` and `build` over a complete admitted snapshot.

Arrays of three are functions on `Fin 3`. The ranked list of the insertion sort is held last first while it grows, which
is the direction in which an observation moves. `PriceAggregate` is the whole `Aggregate`; the account relations read
the part of it in `Oracle.Types`.
-/
import ZenoFcis.Finite.Wide
import ZenoFcis.Lib.Least
import ZenoFcis.Oracle.Wire

namespace ZenoFcis.Oracle

open Lib Lib.Except

/-! ## Rules and evidence -/

/-- strictly positive price with eight decimal places -/
structure PriceE8 where
  raw : U128
  positive : raw ≠ .zero
deriving DecidableEq

def PriceE8.new (raw : U128) : Except Failure PriceE8 :=
  if h : raw = .zero then .error .arithmetic else .ok ⟨raw, h⟩

structure CollectionLimits where
  maxEntries : U32
  maxItemBytes : U64
  maxSnapshotBytes : U64
deriving DecidableEq

/-- distinct-class minima and shared-class maxima for five source axes -/
structure Diversity where
  minimum : Fin 5 → UInt8
  maxSameClass : Fin 5 → UInt8
deriving DecidableEq

def Diversity.validate (d : Diversity) : Except Failure Unit :=
  ensure (¬ ((∃ i, d.minimum i = 0 ∨ 3 < d.minimum i) ∨ ∃ i, d.maxSameClass i = 0 ∨ 3 < d.maxSameClass i))
    .invalidProfile

/-- identity, clock, diversity and resource rules of a feed -/
structure FeedRules where
  feed : Hash
  profile : Hash
  query : Hash
  diversity : Diversity
  maxDeviationBps : U128
  clock : ClockParameters
  bounds : CollectionLimits
  frameBytes : U64
deriving DecidableEq

def FeedRules.validate (r : FeedRules) : Except Failure Unit := do
  r.clock.validate
  r.diversity.validate
  ensure (¬ (r.feed = .zero ∨ r.profile = .zero ∨ r.query = .zero ∨ r.bounds.maxSnapshotBytes.val < 29 ∨
    r.frameBytes.val < 48)) .invalidProfile

/-- already admitted report facts -/
structure Observation where
  id : Hash
  admission : Hash
  reporter : Id
  source : Id
  feed : Hash
  profile : Hash
  query : Hash
  round : U64
  value : PriceE8
  epoch : U64
  seconds : U64
deriving DecidableEq

/-- a source with its five diversity classifications -/
structure Source where
  id : Id
  operator : Id
  venue : Id
  family : Id
  transport : Id
  jurisdiction : Id
deriving DecidableEq

/-- the classification of a source on one axis -/
def Source.axis (s : Source) : Fin 5 → Id := ![s.operator, s.venue, s.family, s.transport, s.jurisdiction]

structure AggregateNumbers where
  median : PriceE8
  confidence : U128
  deviationBps : U128
  oldestEpoch : U64
  medianSeconds : U64
deriving DecidableEq

/-- the checked price aggregate of three selected reports -/
structure PriceAggregate where
  id : Hash
  feed : Hash
  profile : Hash
  query : Hash
  round : U64
  reports : Fin 3 → Hash
  admissions : Fin 3 → Hash
  reporters : Fin 3 → Id
  sources : Fin 3 → Id
  numbers : AggregateNumbers
deriving DecidableEq

namespace Wire

def observation (o : Observation) : Except Failure Value := do
  record [← blob o.id.bytes, ← blob o.admission.bytes, ← blob o.reporter.bytes, ← blob o.source.bytes,
    ← blob o.feed.bytes, ← blob o.profile.bytes, ← blob o.query.bytes, unsigned (widen o.round),
    unsigned o.value.raw, unsigned (widen o.epoch), unsigned (widen o.seconds)]

def source (s : Source) : Except Failure Value := do
  record [← blob s.id.bytes, ← blob s.operator.bytes, ← blob s.venue.bytes, ← blob s.family.bytes,
    ← blob s.transport.bytes, ← blob s.jurisdiction.bytes]

/-- the tuple of three blobs -/
def blobs (xs : Fin 3 → Bytes) : Except Failure Value := do tuple [← blob (xs 0), ← blob (xs 1), ← blob (xs 2)]

end Wire

/-- `Aggregate::value`; the identity is not part of it -/
def PriceAggregate.value (a : PriceAggregate) : Except Failure Value := do
  Wire.record [← Wire.blob a.feed.bytes, ← Wire.blob a.profile.bytes, ← Wire.blob a.query.bytes,
    Wire.unsigned (Wire.widen a.round), ← Wire.blobs fun i => (a.reports i).bytes,
    ← Wire.blobs fun i => (a.admissions i).bytes, ← Wire.blobs fun i => (a.reporters i).bytes,
    ← Wire.blobs fun i => (a.sources i).bytes,
    ← Wire.integers [a.numbers.median.raw, a.numbers.confidence, a.numbers.deviationBps,
      Wire.widen a.numbers.oldestEpoch, Wire.widen a.numbers.medianSeconds]]

/-- `b"zeno.oracle.aggregate/1\0"` -/
def aggregateDomain : Bytes := literal "zeno.oracle.aggregate/1" ++ [0]

/-! ## Exact statistics -/

def steps : ℕ → Work Unit
  | 0 => pure ()
  | n + 1 => do
    step
    steps n

section Network

variable {α : Type} [LinearOrder α]

/-- `if xs[i] > xs[j] { xs.swap(i, j) }` -/
def exchange (i j : Fin 3) (xs : Fin 3 → α) : Fin 3 → α := if xs j < xs i then xs ∘ Equiv.swap i j else xs

/-- the fixed network of three comparisons -/
def ascending (xs : Fin 3 → α) : Fin 3 → α := exchange 0 1 (exchange 1 2 (exchange 0 1 xs))

end Network

/-- `wide::mul_div_ceil` on the operands' bits -/
def mulDivCeil (a b den : U128) : Option U128 :=
  (Finite.Wide.mulDivCeil (BitVec.ofNat 128 a.val) (BitVec.ofNat 128 b.val) (BitVec.ofNat 128 den.val)).map fun q =>
    ⟨q.toNat, q.isLt⟩

def tenThousand : U128 := ⟨10000, by decide⟩

def numbers (values : Fin 3 → PriceE8) (epochs seconds : Fin 3 → U64) : Work AggregateNumbers := do
  -- three comparisons of prices and three of times
  steps 6
  let xs := ascending fun i => (values i).raw
  let seconds := ascending seconds
  step
  let confidence := max ((xs 1).sub (xs 0)) ((xs 2).sub (xs 1))
  step
  let deviationBps ← .okOr (mulDivCeil confidence tenThousand (xs 1)) .arithmetic
  step
  let median ← .lift (PriceE8.new (xs 1))
  pure ⟨median, confidence, deviationBps, min (min (epochs 0) (epochs 1)) (epochs 2), seconds 1⟩

/-! ## Selection -/

/-- the public rank of an observation -/
def Observation.rank (o : Observation) : Id ×ₗ Id := toLex (o.reporter, o.source)

/-- an observation moves past the larger ones of the ranked list, which is held last first -/
def sink (o : Observation) : List Observation → Work (List Observation)
  | [] => pure [o]
  | p :: done => do
    step
    .charge .byte (p.reporter.bytes.length + o.reporter.bytes.length)
    if p.rank ≤ o.rank then pure (o :: p :: done)
    else do
      let rest ← sink o done
      pure (p :: rest)

def ranked (observations : List Observation) : Work (List Observation) := do
  let done ← observations.foldlM (fun done o => sink o done) []
  pure done.reverse

/-- visit every source; the last match is kept -/
def findSource (sources : List Source) (id : Id) : Work (Option Source) :=
  sources.foldlM (fun found s => do
    visit
    pure (if s.id = id then some s else found)) none

/-- how many of the classes did not occur before -/
def distinctFrom (before : List Id) : List Id → ℕ
  | [] => 0
  | x :: ids => (if x ∈ before then 0 else 1) + distinctFrom (before ++ [x]) ids

/-- the largest number of equal classes -/
def maximumCount (ids : List Id) : ℕ := (ids.map fun x => ids.count x).foldl max 0

/-- the class loop over the remaining axes -/
def classes (rules : Diversity) (selected : List Source) : List (Fin 5) → Work Bool
  | [] => pure true
  | axis :: axes => do
    let ids := selected.map fun s => s.axis axis
    steps ids.length
    if distinctFrom [] ids < (rules.minimum axis).toNat ∨ (rules.maxSameClass axis).toNat < maximumCount ids then
      pure false
    else classes rules selected axes

def diverse (sources : List Source) (rules : Diversity) (a b c : Observation) : Work Bool := do
  if a.source = b.source ∨ a.source = c.source ∨ b.source = c.source then pure false
  else do
    let s ← .okOr (← findSource sources a.source) .invalidState
    let t ← .okOr (← findSource sources b.source) .invalidState
    let u ← .okOr (← findSource sources c.source) .invalidState
    classes rules [s, t, u] (List.finRange 5)

/-- every row of the snapshot is admitted and bound once -/
def admitObservations : List Observation → List Observation → Work Unit
  | _, [] => pure ()
  | seen, o :: observations => do
    visit
    let value ← .lift (Wire.observation o)
    let _ ← Wire.charge value
    failIf (o.id = .zero ∨ o.admission = .zero ∨ (∃ p ∈ seen, p.reporter = o.reporter) ∨ ∃ p ∈ seen, p.id = o.id)
      .invalidState
    admitObservations (seen ++ [o]) observations

def admitSources : List Source → List Source → Work Unit
  | _, [] => pure ()
  | seen, s :: sources => do
    visit
    let value ← .lift (Wire.source s)
    let _ ← Wire.charge value
    failIf (∃ t ∈ seen, t.id = s.id) .invalidState
    admitSources (seen ++ [s]) sources

section Build

variable (sha : Bytes → Hash32) (r : FeedRules) (round cutoff now : U64) (observations : List Observation)
  (sources : List Source)

/-- an observation of another feed, profile, query or round -/
def misbound (o : Observation) : Prop := o.feed ≠ r.feed ∨ o.profile ≠ r.profile ∨ o.query ≠ r.query ∨ o.round ≠ round

instance (o : Observation) : Decidable (misbound r round o) := by
  unfold misbound
  infer_instance

def select : Arm (Observation × Observation × Observation) := do
  arm (.lift r.validate)
  arm step
  refuseIf (now < cutoff) .wrongPhase
  failIf (r.bounds.maxEntries.val < observations.length ∨ r.bounds.maxEntries.val < sources.length)
    (.fail .invalidState)
  let rows ← arm (.lift (checkedAdd usizeMax observations.length sources.length .arithmetic))
  arm (reserveScans rows)
  arm (admitObservations [] observations)
  arm (admitSources [] sources)
  refuseIf (∃ o ∈ observations, misbound r round o) .bindingMismatch
  refuseIf (∃ o ∈ observations, now < o.epoch) .futureObservation
  refuseIf (∃ o ∈ observations, r.clock.maxAge < now.sub o.epoch) .staleObservation
  refuseIf (∃ o ∈ observations, ¬ ∃ s ∈ sources, s.id = o.source) .wrongSourceOrDiversity
  let ordered ← arm (ranked observations)
  let selected ← arm (firstThree (fun a b c => do
    visit
    diverse sources r.diversity a b c) ordered)
  .okOr selected (.refuse .noCompleteQuorum)

def build : Arm PriceAggregate := do
  let (a, b, c) ← select r round cutoff now observations sources
  let selected := ![a, b, c]
  let numbers ← arm (numbers (fun i => (selected i).value) (fun i => (selected i).epoch) fun i => (selected i).seconds)
  refuseIf (r.maxDeviationBps < numbers.deviationBps) .excessUncertainty
  let out : PriceAggregate := ⟨.zero, r.feed, r.profile, r.query, round, fun i => (selected i).id,
    fun i => (selected i).admission, fun i => (selected i).reporter, fun i => (selected i).source, numbers⟩
  let value ← arm (.lift out.value)
  let length ← arm (Wire.charge value)
  let framed ← arm (.lift (checkedAdd u64Max length 48 .arithmetic))
  failIf (r.frameBytes.val < framed) (.fail .canonical)
  let id ← arm (.lift (Wire.hash sha aggregateDomain value))
  pure { out with id }

end Build

end ZenoFcis.Oracle
