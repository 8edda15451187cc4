/-
The exhaustive refinement check of two contracts (`refinement.rs`, `refinement/machine.rs`): finite spaces with their
ordinals, one observed step of a machine, and the rows of concrete states and shared inputs.

A machine is any Authority on complete tuples with any canonical encoders. Reading and pinning the sources, the measured
Authority work and the comparisons that only unit tests can select are left out.
-/
import ZenoFcis.Lib.BigEndian
import ZenoFcis.Contract.TwoRun

namespace ZenoFcis.Contract.Refinement

open Lib Lib.Except

def maxStates : ℕ := 4096

def maxInputs : ℕ := 64

def maxChecks : ℕ := maxStates * maxInputs

/-! ## Refusals -/

inductive LawRefusal where
  | metadata
  | frame
  | undefined
  | violated
  | meter (resource : ℕ)
  | other
deriving DecidableEq

inductive ExecutionRefusal where
  | inputDomain
  | reference
  | arithmetic
  | outputDomain
  | meter (resource : ℕ)
  | other
deriving DecidableEq

/-- the Authority's technical refusal of an input, by kind -/
inductive AuthorityRefusal where
  | metadata
  | ingress (source : ℕ)
  | binding
  | execution (refusal : ExecutionRefusal)
  | output
  | decision
  | schema
  | law (law : Option ℕ) (refusal : LawRefusal)
  | frame (source : ℕ)
  | encoding
  | replayMismatch
  | wireOutput
  | channel
  | other
deriving DecidableEq

inductive Kind where
  | accept
  | reject
  | committedFailure
  | refused (refusal : AuthorityRefusal)
deriving DecidableEq

/-! ## Machines -/

/-- a candidate of the Authority; `class_` is `none` for a class the checker does not know -/
structure Candidate where
  class_ : Option Class
  reason : Option ℕ
  post : Fields
  patch : Fields
  effects : List Delivery
  outbox : List Delivery

structure Machine where
  evaluate : List ℤ → Except AuthorityRefusal Candidate
  genesis : List ℤ → Option AuthorityRefusal
  encodeAtom : Value → Option Bytes
  encodeRecord : Fields → Option Bytes

/-- a contract as it is loaded: its positions, laws, initial values and Authority -/
structure Loaded where
  positions : List Position
  laws : List ℕ
  initial : Fields
  machine : Machine

/-- the number of state positions, which come first -/
def Loaded.width (l : Loaded) : ℕ := (l.positions.takeWhile fun p => p.source = .state).length

def Loaded.sameInputs (l r : Loaded) : Bool :=
  let left := l.positions.drop l.width
  let right := r.positions.drop r.width
  left.length = right.length && (left.zip right).all fun (a, b) =>
    a.source = b.source && a.field = b.field && a.typeId = b.typeId && a.domain = b.domain

/-! ## Spaces -/

structure Space where
  values : List (List ℤ)
  fields : List ℕ
  width : ℕ
  states : ℕ
  inputs : ℕ

/-- an index within a `usize` -/
def usize (n : ℕ) : Option ℕ := if n < 2 ^ 64 then some n else none

/-- the tuple of an ordinal -/
def element (axes : List (List ℤ)) (ordinal : ℕ) : List ℤ := Axes.element axes ordinal

namespace Space

def new (loaded : Loaded) : Option Space := do
  let states ← domainSize (loaded.positions.take loaded.width)
  let inputs ← domainSize (loaded.positions.drop loaded.width)
  if states = 0 ∨ inputs = 0 ∨ maxStates < states ∨ maxInputs < inputs then none
  else
    let values ← loaded.positions.mapM fun p => p.domain.valuesWithin maxStates
    let fields ← (loaded.positions.take loaded.width).mapM Position.field
    some ⟨values, fields, loaded.width, states, inputs⟩

variable (s : Space)

def stateAxes : List (List ℤ) := s.values.take s.width

def inputAxes : List (List ℤ) := s.values.drop s.width

def tuple (state input : ℕ) : List ℤ := element s.stateAxes state ++ element s.inputAxes input

/-- the loop of `ordinal` -/
def index (axes : List (List ℤ)) (values : List ℤ) (start : ℕ) : Option ℕ :=
  (axes.zip values).foldlM (fun index x => do
    let scaled ← usize (index * x.1.length)
    let position ← x.1.idxOf? x.2
    usize (scaled + position)) start

def ordinal (values : List ℤ) : Option ℕ := if values.length ≠ s.width then none else index s.stateAxes values 0

/-- the ordinal of the initial values -/
def initial (loaded : Loaded) : Option ℕ := do
  let values ← (loaded.positions.take s.width).mapM fun position => do
    let field ← position.field
    let found ← loaded.initial.find? fun x => x.1 = field
    found.2.number
  s.ordinal values

end Space

/-! ## Steps -/

structure Step where
  kind : Kind
  successor : Option ℕ
  reason : Option ℕ
  effects : Bytes
  outbox : Bytes
  unchanged : Bool
deriving DecidableEq

namespace Step

/-- the shared meter refused -/
def meter (s : Step) : Bool := match s.kind with
  | .refused (.execution (.meter _)) | .refused (.law _ (.meter _)) => true
  | _ => false

/-- a refusal the checker does not know -/
def unknown (s : Step) : Bool := match s.kind with
  | .refused .other | .refused (.execution .other) | .refused (.law _ .other) => true
  | _ => false

/-- no known outcome -/
def unsupported : Step := ⟨.refused .other, none, none, [], [], false⟩

end Step

/-- `append_number` -/
def number (n : ℕ) : Bytes := beBytes 8 n

/-- an encoding behind its length -/
def framed (bytes : Bytes) : Bytes := number bytes.length ++ bytes

def encodeDelivery (m : Machine) (d : Delivery) : Option Bytes := do
  let destination ← m.encodeAtom d.destination
  let payload ← m.encodeRecord d.payload
  let idempotency ← m.encodeAtom d.idempotency
  some (beBytes 4 d.ordinal ++ beBytes 4 d.channel ++ framed destination ++ framed payload ++ framed idempotency)

/-- canonical bytes, lengths and order of some deliveries -/
def encodeDeliveries (m : Machine) (deliveries : List Delivery) : Option Bytes := do
  let encoded ← deliveries.mapM (encodeDelivery m)
  some (number deliveries.length ++ encoded.flatten)

def kindOf : Class → Kind
  | .accept => .accept
  | .reject => .reject
  | .committedFailure => .committedFailure

/-- the numbers a candidate posts for some fields -/
def postNumbers (fields : List ℕ) (post : Fields) : Option (List ℤ) := fields.mapM fun id => do
  let found ← post.find? fun x => x.1 = id
  found.2.number

/-- `machine::step` -/
def step (m : Machine) (s : Space) (state input : ℕ) : Step :=
  match m.evaluate (s.tuple state input) with
  | .error refusal => ⟨.refused refusal, some state, none, [], [], true⟩
  | .ok candidate => match candidate.class_ with
    | none => .unsupported
    | some class_ =>
      match encodeDeliveries m candidate.effects, encodeDeliveries m candidate.outbox with
      | some effects, some outbox =>
        let rejected := class_ = .reject
        let unchanged := ¬ rejected ∨
          (candidate.post = [] ∧ candidate.patch = [] ∧ candidate.effects = [] ∧ candidate.outbox = [])
        let successor := if rejected then some state else (postNumbers s.fields candidate.post).bind s.ordinal
        ⟨kindOf class_, successor, candidate.reason, effects, outbox, unchanged⟩
      | _, _ => .unsupported

/-! ## The check -/

inductive Verdict where
  | refines
  | counterexample
  | inconclusive
deriving DecidableEq

structure Witness where
  obligation : String
  state : Option ℕ
  input : Option ℕ
deriving DecidableEq

structure Report where
  verdict : Verdict
  reason : Option String
  witness : Option Witness
  rawStates : Option ℕ
  abstractStates : Option ℕ
  inputs : Option ℕ
  validStates : ℕ
  checkedRows : ℕ
  maxChecks : ℕ
deriving DecidableEq

namespace Report

def stop (r : Report) (reason : String) : Report := { r with reason := some reason }

def fail (r : Report) (obligation : String) (state input : Option ℕ) : Report :=
  { r with verdict := .counterexample, witness := some ⟨obligation, state, input⟩ }

end Report

structure Mapping where
  abstraction : List (Option ℕ)
  invalidStateLaw : ℕ

def Mapping.get (mapping : Mapping) (state : ℕ) : Option ℕ := (mapping.abstraction[state]?).join

/-- how one row ends: with no comparison, with a failed obligation or with none -/
inductive Row where
  | stop (reason : String)
  | fail (obligation : String)
  | pass
deriving DecidableEq

def observationsEqual (c a : Step) : Bool :=
  c.kind = a.kind && c.reason = a.reason && c.effects = a.effects && c.outbox = a.outbox

def successorEqual (actual expected : Option ℕ) : Bool := actual.isSome && actual = expected

def nullLawEqual (kind : Kind) (law : ℕ) : Bool := kind = .refused (.law (some law) .violated)

/-- one concrete state with one input -/
def row (mapping : Mapping) (c a : Machine) (cSpace aSpace : Space) (state input : ℕ) : Row :=
  let concrete := step c cSpace state input
  if concrete.meter then .stop "authority-work-exhausted"
  else if concrete.unknown then .stop "unsupported-authority-outcome"
  else match mapping.get state with
    | none =>
      if ¬ nullLawEqual concrete.kind mapping.invalidStateLaw ∨ concrete.successor ≠ some state ∨ ¬ concrete.unchanged
      then .fail "malformed-state" else .pass
    | some abstractState =>
      let abstractStep := step a aSpace abstractState input
      if abstractStep.meter then .stop "authority-work-exhausted"
      else if abstractStep.unknown then .stop "unsupported-authority-outcome"
      else if ¬ concrete.unchanged ∨ ¬ abstractStep.unchanged then .fail "reject-is-no-op"
      else if ¬ successorEqual (concrete.successor.bind mapping.get) abstractStep.successor then
        .fail "successor-refinement"
      else if ¬ observationsEqual concrete abstractStep then .fail "observation-refinement"
      else .pass

/-- all rows, in state-major order -/
def pairs (states inputs : ℕ) : List (ℕ × ℕ) :=
  (List.range states).flatMap fun state => (List.range inputs).map fun input => (state, input)

/-- the rows in order, up to the budget -/
def compare (judge : ℕ → ℕ → Row) (report : Report) : List (ℕ × ℕ) → Report
  | [] => { report with verdict := .refines }
  | (state, input) :: rest =>
    if report.checkedRows = report.maxChecks then report.stop "work-exhausted"
    else match judge state input with
      | .stop reason => report.stop reason
      | .fail obligation =>
        Report.fail { report with checkedRows := report.checkedRows + 1 } obligation (some state) (some input)
      | .pass => compare judge { report with checkedRows := report.checkedRows + 1 } rest

def refinementError (place reason : String) : ContractError := ⟨place, reason⟩

def refuseGenesis (report : Report) (refusal : AuthorityRefusal) (cInitial : ℕ) : Report :=
  let probe : Step := ⟨.refused refusal, none, none, [], [], true⟩
  if probe.meter then report.stop "authority-work-exhausted"
  else if probe.unknown then report.stop "unsupported-authority-outcome"
  else report.fail "initial-admission" (some cInitial) none

/-- the obligations in order, once the spaces and the initial ordinals are known -/
def judge (mapping : Mapping) (a c : Loaded) (aSpace cSpace : Space) (aInitial cInitial : ℕ) (report : Report) :
    Report :=
  match a.machine.genesis (aSpace.tuple aInitial 0) with
  | some refusal => refuseGenesis report refusal cInitial
  | none => match c.machine.genesis (cSpace.tuple cInitial 0) with
    | some refusal => refuseGenesis report refusal cInitial
    | none =>
      if mapping.get cInitial ≠ some aInitial then report.fail "initial-state" (some cInitial) none
      else if ∃ state ∈ List.range aSpace.states, some state ∉ mapping.abstraction then
        report.fail "abstract-state-coverage" none none
      else compare (row mapping c.machine a.machine cSpace aSpace) report (pairs cSpace.states cSpace.inputs)

/-- `check_inner` on loaded contracts, with its exact comparison -/
def check (mapping : Mapping) (a c : Loaded) (limit : ℕ) : Except ContractError Report := do
  ensure (limit ≤ maxChecks) (refinementError "refinement" "source bytes or max_checks exceeds the profile bound")
  ensure (mapping.abstraction.length ≤ maxStates)
    (refinementError "abstraction" "unsupported schema or too many states")
  let report : Report := ⟨.inconclusive, none, none, none, none, none, (mapping.abstraction.filterMap id).length, 0,
    limit⟩
  ensure (a.sameInputs c) (refinementError "refinement" "command/context layouts or domains differ")
  match Space.new a, Space.new c with
  | some aSpace, some cSpace => do
    let report := { report with
      rawStates := some cSpace.states
      abstractStates := some aSpace.states
      inputs := some cSpace.inputs }
    ensure (mapping.abstraction.length = cSpace.states ∧ ∀ s ∈ mapping.abstraction.filterMap id, s < aSpace.states)
      (refinementError "abstraction" "mapping length or abstract ordinal is outside the derived domains")
    ensure (¬ (report.validStates < cSpace.states ∧ mapping.invalidStateLaw ∉ c.laws))
      (refinementError "abstraction" "invalid_state_law is not declared by the concrete contract")
    match aSpace.initial a with
    | none => .error (refinementError "abstract genesis" "outside the state domain")
    | some aInitial => match cSpace.initial c with
      | none => .error (refinementError "concrete genesis" "outside the state domain")
      | some cInitial => .ok (judge mapping a c aSpace cSpace aInitial cInitial report)
  | _, _ => .ok (report.stop "domain-over-limit")

end ZenoFcis.Contract.Refinement
