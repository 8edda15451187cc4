/-
The independent quorum laws (`oracle/quorum_laws.rs`): identity sets instead of membership scans, class counts in a map,
a library sort instead of the insertion loop, and the exact reduction of the sorted prices.

A `BTreeSet` of which only the size and membership are read is a finite set, and `sort` on an array of three is the
sorting permutation.
-/
import Mathlib.Data.Fin.Tuple.Sort
import ZenoFcis.Oracle.Quorum

namespace ZenoFcis.Oracle

open Lib Lib.Except

namespace QuorumLaws

/-- `*counts.entry(x).or_insert(0u8) += 1` over three classes -/
def counts (ids : List Id) : OrdMap Id UInt8 := ids.foldl (fun m x => m.insert x ((m.get x).getD 0 + 1)) .empty

def diverse (sources : List Source) (d : Diversity) (a b c : Observation) : Bool :=
  if a.source = b.source ∨ a.source = c.source ∨ b.source = c.source then false
  else match sources.find? fun x => x.id = a.source with
    | none => false
    | some s => match sources.find? fun x => x.id = b.source with
      | none => false
      | some t => match sources.find? fun x => x.id = c.source with
        | none => false
        | some u => (List.finRange 5).all fun i =>
          let m := counts [s.axis i, t.axis i, u.axis i]
          decide ((d.minimum i).toNat ≤ m.size) && m.values.all fun n => decide (n ≤ d.maxSameClass i)

/-- the rows name an identity twice or not at all -/
def malformed (observations : List Observation) (sources : List Source) : Prop :=
  (observations.map (·.reporter)).toFinset.card ≠ observations.length ∨
    (observations.map (·.id)).toFinset.card ≠ observations.length ∨
    (sources.map (·.id)).toFinset.card ≠ sources.length ∨
    ∃ o ∈ observations, o.id = .zero ∨ o.admission = .zero

instance (observations : List Observation) (sources : List Source) : Decidable (malformed observations sources) := by
  unfold malformed
  infer_instance

section Reference

variable (sha : Bytes → Hash32) (r : FeedRules) (round cutoff now : U64) (observations : List Observation)
  (sources : List Source)

def selected : Arm (Observation × Observation × Observation) := do
  arm (.lift r.validate)
  let rows ← arm (.lift (checkedAdd usizeMax observations.length sources.length .arithmetic))
  arm (reserveScans rows)
  refuseIf (now < cutoff) .wrongPhase
  failIf (r.bounds.maxEntries.val < observations.length ∨ r.bounds.maxEntries.val < sources.length)
    (.fail .invalidState)
  failIf (malformed observations sources) (.fail .invalidState)
  refuseIf (∃ o ∈ observations, misbound r round o) .bindingMismatch
  refuseIf (∃ o ∈ observations, now < o.epoch) .futureObservation
  refuseIf (∃ o ∈ observations, r.clock.maxAge < now.sub o.epoch) .staleObservation
  refuseIf (∃ o ∈ observations, o.source ∉ (sources.map (·.id)).toFinset) .wrongSourceOrDiversity
  let os := observations.mergeSort fun o p => o.rank ≤ p.rank
  let three ← arm (firstThree (fun a b c => do
    visit
    let reads ← .lift (checkedMul u64Max sources.length 3 .arithmetic)
    .charge .read reads
    pure (diverse sources r.diversity a b c)) os)
  .okOr three (.refuse .noCompleteQuorum)

/-- `a.abs_diff(b)` -/
def absDiff (a b : U128) : U128 := if b ≤ a then a.sub b else b.sub a

/-- the greatest distance of the sorted prices from their median, also in basis points -/
def reduce (prices : Fin 3 → U128) : Except Failure (U128 × U128) := do
  let median := prices 1
  let confidence := max (absDiff (prices 2) median) (median.sub (prices 0))
  let deviation ← okOr (mulDivCeil confidence tenThousand median) .arithmetic
  return (confidence, deviation)

def reference : Arm PriceAggregate := do
  let (a, b, c) ← selected r round cutoff now observations sources
  let three := ![a, b, c]
  let raw : Fin 3 → U128 := fun i => (three i).value.raw
  let prices := raw ∘ Tuple.sort raw
  let (confidence, deviation) ← arm (.lift (reduce prices))
  refuseIf (r.maxDeviationBps < deviation) .excessUncertainty
  let times : Fin 3 → U64 := fun i => (three i).seconds
  let seconds := times ∘ Tuple.sort times
  let median ← arm (.lift (PriceE8.new (prices 1)))
  let oldest ← arm (.lift (okOr (List.min? ((List.finRange 3).map fun i => (three i).epoch)) .invalidState))
  let out : PriceAggregate := ⟨.zero, r.feed, r.profile, r.query, round, fun i => (three i).id,
    fun i => (three i).admission, fun i => (three i).reporter, fun i => (three i).source,
    ⟨median, confidence, deviation, oldest, seconds 1⟩⟩
  let value ← arm (.lift out.value)
  let length ← arm (Wire.charge value)
  let framed ← arm (.lift (checkedAdd u64Max length 48 .arithmetic))
  failIf (r.frameBytes.val < framed) (.fail .canonical)
  let id ← arm (.lift (Wire.hash sha aggregateDomain value))
  pure { out with id }

end Reference

/-- `quorum_laws::check` -/
def check {α : Type} [DecidableEq α] : Except Reason α → Except Reason α → Except Failure Unit
  | .ok w, .ok a => ensure (w = a) (.law 118200)
  | .error w, .error a => ensure (w = a) (.law 118200)
  | .ok _, .error r => .error (.law (118100 + r.code))
  | .error _, .ok _ => .error (.law 118200)

end QuorumLaws

/-- the producer with its laws -/
def aggregate (sha : Bytes → Hash32) (r : FeedRules) (round cutoff now : U64) (observations : List Observation)
    (sources : List Source) : Work (Except Reason PriceAggregate) := do
  let result ← settle (build sha r round cutoff now observations sources)
  let want ← settle (QuorumLaws.reference sha r round cutoff now observations sources)
  .lift (QuorumLaws.check want result)
  pure result

end ZenoFcis.Oracle
