/-
Exact finite counts and bounded extremes of accumulated rewards (`risk.rs`): the engine with its work budget.

The Authority, its admission of a genesis state and the compiled property are any functions. Question texts, the
compilation of the property and the packet are left out; `check` gives the engine nonempty lists without repetitions.
-/
import ZenoFcis.Lib.Metered
import ZenoFcis.Lib.OrdMap
import ZenoFcis.Contract.Domain
import ZenoFcis.Contract.Rational

namespace ZenoFcis.Contract.Risk

open Lib Lib.Metered

/-- why there is no exact answer -/
inductive Stop where
  | budget
  | refused (refusal : Refusal) (input : List ℤ)
  | missingProperty
  | undefinedProperty
  | successor
  | stateAfterCommand
  | missingGenesis
  | genesisOutside
  | genesisRefused (refusal : String)
  | undefinedReward (input : List ℤ) (class_ : Class)
  | rewardBound
  | accumulatedBound
deriving DecidableEq

inductive Resource where
  | work
  | call
deriving DecidableEq

/-- work and Authority invocations so far, with the work allowed -/
structure Progress where
  work : ℕ
  calls : ℕ
  cap : ℕ

/-- `Progress::charge`, and the count of invocations -/
def Progress.pay (p : Progress) : Resource → ℕ → Except Unit Progress
  | .work, n => if p.cap - p.work < n then .error () else .ok { p with work := p.work + n }
  | .call, n => .ok { p with calls := p.calls + n }

abbrev Work (α : Type) := Metered Resource Stop α

/-- what a computation answers within a budget -/
def answer {α : Type} (x : Work α) (p : Progress) : Except Stop α × Progress := run Progress.pay (fun _ => .budget) x p

inductive Constant where
  | bool (value : Bool)
  | int (value : ℤ)
  | u128 (value : ℕ)

/-- the verdicts of a compiled property; `none` where it is undefined -/
structure Property where
  onTransition : List ℤ → Class → Option ℕ → List ℤ → List Delivery → Option Bool
  onState : List ℤ → Option Bool

structure Engine where
  evaluate : List ℤ → Outcome
  admission : List ℤ → Option String
  positions : List Position
  lists : List (List ℤ)
  predicates : Option Property

inductive Question where
  | states (steps : ℕ)
  | extremes (steps : ℕ)

def Question.steps : Question → ℕ
  | states steps | extremes steps => steps

/-- the tuple of an ordinal -/
def element (lists : List (List ℤ)) (index : ℕ) : List ℤ := Axes.element lists index

def cardinality (lists : List (List ℤ)) : ℕ := (lists.map List.length).prod

structure Counts (ω : Type) where
  yes : ℕ
  no : ℕ
  positive : Option ω
  negative : Option ω

namespace Counts

variable {ω : Type}

def empty : Counts ω := ⟨0, 0, none, none⟩

def add (c : Counts ω) (holds : Bool) (witness : ω) : Counts ω :=
  if holds then { c with yes := c.yes + 1, positive := c.positive.or (some witness) }
  else { c with no := c.no + 1, negative := c.negative.or (some witness) }

def total (c : Counts ω) : ℕ := c.yes + c.no

end Counts

/-- an accumulated reward with its run -/
structure Path where
  cost : Rational
  run : List (List ℤ)

namespace Path

def empty : Path := ⟨.zero, []⟩

def cells (p : Path) : ℕ := (p.run.map List.length).sum

def copy (p : Path) : Work Path := do
  charge .work p.cells
  pure p

/-- one more tuple -/
def extend (p : Path) (tuple : List ℤ) (cost : Rational) : Work Path := do
  charge .work (1 + tuple.length)
  let cost ← okOr (p.cost.checkedAdd cost) .accumulatedBound
  pure ⟨cost, p.run ++ [tuple]⟩

end Path

/-- least and greatest path of every frontier state -/
abbrev Frontier := OrdMap (List ℤ) (Path × Path)

/-- the variables of the search -/
structure Search where
  next : Frontier
  seen : OrdMap (List ℤ) (List (List ℤ))
  best : Path
  worst : Path

inductive Answer where
  | extremes (best worst : Path)
  | states (counts : Counts (List ℤ × List (List ℤ)))

namespace Engine

variable (e : Engine)

def decision (tuple : List ℤ) : Work Decision := do
  charge .work 1
  charge .call 1
  match e.evaluate tuple with
  | .decision d => pure d
  | .refused r => fail (.refused r tuple)

/-- the value of one state position after a decision -/
def after (tuple : List ℤ) (d : Decision) (position : Position) (i : ℕ) : Option ℤ :=
  if d.class_ = .reject then some (tuple.getD i 0)
  else ((entry d.post position.field).bind fun x => x.2.number).filter fun v => v ∈ e.lists.getD i []

def successor (tuple : List ℤ) (d : Decision) : Except Stop (List ℤ) :=
  (e.positions.zipIdx.filter fun x => x.1.source = .state).mapM fun x =>
    match e.after tuple d x.1 x.2 with
    | some v => .ok v
    | none => .error .successor

/-- the declared reward of a decision -/
def reward (field : ℕ) (failure : Option ℤ) (d : Decision) : Option ℤ := match d.class_ with
  | .accept => (entry d.post (some field)).bind fun x => x.2.number
  | .committedFailure => failure
  | .reject => none

def cost (reward : Option (ℕ × Option ℤ)) (tuple : List ℤ) (d : Decision) : Except Stop Rational := match reward with
  | none => .ok .zero
  | some (field, failure) => match Engine.reward field failure d with
    | none => .error (.undefinedReward tuple d.class_)
    | some value => match Rational.tryNew value 1 with
      | none => .error .rewardBound
      | some cost => .ok cost

/-- a decision, its successor and its cost -/
def move (reward : Option (ℕ × Option ℤ)) (tuple : List ℤ) : Work (List ℤ × Rational) := do
  let d ← e.decision tuple
  let post ← lift (e.successor tuple d)
  let cost ← lift (Engine.cost reward tuple d)
  pure (post, cost)

/-! ## Complete tuples -/

/-- a witness of the input question -/
structure Transition where
  input : List ℤ
  decision : Class
  post : List ℤ

def countInput (property : Property) (count : Counts Transition) (ordinal : ℕ) : Work (Counts Transition) := do
  let tuple := element e.lists ordinal
  let d ← e.decision tuple
  let post ← lift (e.successor tuple d)
  charge .work 1
  let holds ← okOr (property.onTransition tuple d.class_ d.reason post d.outbox) .undefinedProperty
  pure (count.add holds ⟨tuple, d.class_, post⟩)

def inputs : Work (Counts Transition) := do
  let property ← okOr e.predicates .missingProperty
  (List.range (cardinality e.lists)).foldlM (e.countInput property) .empty

/-! ## Runs -/

def stateWidth : ℕ := (e.positions.takeWhile fun p => p.source = .state).length

/-- the lists of the command and context positions -/
def commands : List (List ℤ) := e.lists.drop e.stateWidth

def genesisValue (constants : ℕ → Option Constant) (position : Position) (i : ℕ) : Except Stop ℤ :=
  match position.field.bind constants with
  | some (.int v) => if v ∈ e.lists.getD i [] then .ok v else .error .genesisOutside
  | some (.bool v) => if (if v then 1 else 0 : ℤ) ∈ e.lists.getD i [] then .ok (if v then 1 else 0)
    else .error .genesisOutside
  | _ => .error .missingGenesis

/-- the admitted genesis state -/
def genesis (constants : ℕ → Option Constant) : Work (List ℤ) := do
  if (e.positions.drop e.stateWidth).any fun p => p.source = .state then fail .stateAfterCommand
  let genesis ← lift ((e.positions.take e.stateWidth).zipIdx.mapM fun x => e.genesisValue constants x.1 x.2)
  charge .work 1
  charge .call 1
  match e.admission (genesis ++ element e.commands 0) with
  | some refusal => fail (.genesisRefused refusal)
  | none => pure genesis

/-- note a state that was not seen before -/
def discover (question : Question) (post : List ℤ) (candidate : Path)
    (seen : OrdMap (List ℤ) (List (List ℤ))) : Work (OrdMap (List ℤ) (List (List ℤ))) := do
  if (seen.get post).isSome then pure seen
  else
    charge .work 1
    match question with
    | .states _ => do
      let kept ← candidate.copy
      pure (seen.insert post kept.run)
    | .extremes _ => pure seen

/-- the better of two paths, the first unless the second is strictly better -/
def keep (better : Rational → Rational → Prop) [∀ a b, Decidable (better a b)] (kept candidate : Path) : Work Path :=
  if better candidate.cost kept.cost then candidate.copy else pure kept

def merge (next : Frontier) (post : List ℤ) (low high : Path) : Work Frontier :=
  match next.get post with
  | none => pure (next.insert post (low, high))
  | some kept => do
    let lowest ← keep (fun a b => a.lt b) kept.1 low
    let highest ← keep (fun a b => b.lt a) kept.2 high
    pure (next.insert post (lowest, highest))

/-- one input from one frontier state -/
def relax (question : Question) (reward : Option (ℕ × Option ℤ)) (state : List ℤ) (paths : Path × Path) (s : Search)
    (input : ℕ) : Work Search := do
  let tuple := state ++ element e.commands input
  let (post, cost) ← e.move reward tuple
  let low ← paths.1.copy
  let high ← paths.2.copy
  let low ← low.extend tuple cost
  let high ← high.extend tuple cost
  let seen ← discover question post low s.seen
  let best ← keep (fun a b => a.lt b) s.best low
  let worst ← keep (fun a b => b.lt a) s.worst high
  let next ← merge s.next post low high
  pure ⟨next, seen, best, worst⟩

/-- every input from one frontier state -/
def expand (question : Question) (reward : Option (ℕ × Option ℤ)) (s : Search)
    (entry : List ℤ × Path × Path) : Work Search :=
  (List.range (cardinality e.commands)).foldlM (e.relax question reward entry.1 entry.2) s

/-- one depth; the search starts it with an empty frontier -/
def deepen (question : Question) (reward : Option (ℕ × Option ℤ)) (s : Search) (_depth : ℕ) : Work Search :=
  s.next.entries.foldlM (e.expand question reward) { s with next := .empty }

def countState (property : Property) (counts : Counts (List ℤ × List (List ℤ)))
    (found : List ℤ × List (List ℤ)) : Work (Counts (List ℤ × List (List ℤ))) := do
  charge .work (1 + (found.2.map List.length).sum)
  let holds ← okOr (property.onState (found.1 ++ element e.commands 0)) .undefinedProperty
  pure (counts.add holds found)

/-- `Engine::runs` -/
def runs (constants : ℕ → Option Constant) (question : Question) (reward : Option (ℕ × Option ℤ)) : Work Answer := do
  let genesis ← e.genesis constants
  let start : Search := ⟨OrdMap.empty.insert genesis (.empty, .empty), OrdMap.empty.insert genesis [], .empty, .empty⟩
  let s ← (List.range question.steps).foldlM (e.deepen question reward) start
  match question with
  | .extremes _ => do
    charge .work (s.best.cells + s.worst.cells)
    pure (.extremes s.best s.worst)
  | .states _ => do
    let property ← okOr e.predicates .missingProperty
    let counts ← s.seen.entries.foldlM (e.countState property) .empty
    pure (.states counts)

end Engine

end ZenoFcis.Contract.Risk
