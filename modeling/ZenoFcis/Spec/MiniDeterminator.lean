/-
The coordination model of `zeno-fcis-spec/src/mini_determinator.rs`: worker programs that run in private workspaces, and
the canonical join of their writes.

A step that ends a run early is an exception here: a blocked worker carries its reason, a join that ends carries the
decision. Sets and maps of slots are finite sets and ordered maps.
-/
import ZenoFcis.Finite.Scalar
import ZenoFcis.Lib.Ends
import ZenoFcis.Lib.Except
import ZenoFcis.Lib.OrdMap
import ZenoFcis.Lib.WordOrder

namespace ZenoFcis.Spec

open Lib Lib.Except
open ZenoFcis.Finite (narrow)

/-! ## Data -/

structure WorkspaceCell where
  slot : UInt32
  value : I128
deriving DecidableEq

/-- canonically sorted global workspace state -/
structure MiniState where
  cells : List WorkspaceCell
  increasing : Increasing WorkspaceCell.slot cells

def MiniState.get (s : MiniState) (slot : UInt32) : Option I128 :=
  ((binarySearch WorkspaceCell.slot slot s.cells).toOption.map fun i => s.cells[i]).map WorkspaceCell.value

/-- private worker result plus its explicit complete write footprint -/
structure PrivateWork where
  worker : UInt32
  writeFootprint : List UInt32
  writes : List WorkspaceCell
  returned : I128

inductive WorkerInstruction where
  | constant (value : I128)
  | get (slot : UInt32)
  | add (value : I128)
  | subtract (value : I128)
  | multiply (value : I128)
  | put (slot : UInt32)
  | return
deriving DecidableEq

structure WorkerProgram where
  worker : UInt32
  readFootprint : List UInt32
  writeFootprint : List UInt32
  instructions : List WorkerInstruction

/-- replay record for one isolated worker -/
structure WorkerTrace where
  worker : UInt32
  reads : List WorkspaceCell
  writes : List WorkspaceCell
  returned : I128

/-- nonzero bounds on workers, on all writes and on the steps of a worker -/
structure MiniBudget where
  maxWorkers : ℕ
  maxWrites : ℕ
  maxStepsPerWorker : ℕ
  workers_pos : 0 < maxWorkers
  writes_pos : 0 < maxWrites
  steps_pos : 0 < maxStepsPerWorker

structure MergeConflict where
  slot : UInt32
  firstWorker : UInt32
  secondWorker : UInt32
deriving DecidableEq

inductive MiniBlocker where
  | duplicateWorker
  | duplicatePrivateWrite
  | missingFootprintEvidence
  | workerBudget
  | writeBudget
  | stepBudget
  | duplicateReadFootprint
  | invalidCompletionOrder
  | missingReadFootprintEvidence
  | missingCell
  | arithmeticOverflow
  | missingReturn
  | instructionAfterReturn
deriving DecidableEq

inductive MiniDecision where
  | accepted (state : MiniState) (returns : List (UInt32 × I128))
  | rejected (conflict : MergeConflict)
  | blocked (reason : MiniBlocker)

structure MiniRun where
  decision : MiniDecision
  traces : List WorkerTrace

namespace MiniDeterminator

/-! ## Workers -/

/-- the workspace of a running worker -/
structure Workspace where
  accumulator : I128
  overlay : OrdMap UInt32 I128
  reads : List WorkspaceCell
  returned : Option I128

def Workspace.start : Workspace := ⟨⟨0, I128.lo_zero, I128.hi_zero⟩, .empty, [], none⟩

/-- a checked result becomes the accumulator -/
def Workspace.accumulate (w : Workspace) (next : Option I128) : Except MiniBlocker Workspace :=
  match next with
  | some accumulator => .ok { w with accumulator }
  | none => .error .arithmeticOverflow

/-- one turn of the instruction loop -/
def instruct (pre : MiniState) (reads writes : Finset UInt32) (w : Workspace) (instruction : WorkerInstruction) :
    Except MiniBlocker Workspace := do
  ensure (w.returned = none) .instructionAfterReturn
  match instruction with
  | .constant value => return { w with accumulator := value }
  | .get slot =>
    ensure (slot ∈ reads) .missingReadFootprintEvidence
    match (w.overlay.get slot).or (pre.get slot) with
    | some value => return { w with accumulator := value, reads := w.reads ++ [⟨slot, value⟩] }
    | none => .error .missingCell
  | .add value => w.accumulate (narrow (w.accumulator.val + value.val))
  | .subtract value => w.accumulate (narrow (w.accumulator.val - value.val))
  | .multiply value => w.accumulate (narrow (w.accumulator.val * value.val))
  | .put slot =>
    ensure (slot ∈ writes) .missingFootprintEvidence
    return { w with overlay := w.overlay.insert slot w.accumulator }
  | .return => return { w with returned := some w.accumulator }

/-- the cells of a map of slots -/
def cellsOf (m : OrdMap UInt32 I128) : List WorkspaceCell := m.entries.map fun e => ⟨e.1, e.2⟩

/-- the body of the worker loop -/
def runWorker (pre : MiniState) (budget : MiniBudget) (program : WorkerProgram) :
    Except MiniBlocker (PrivateWork × WorkerTrace) := do
  ensure (program.instructions.length ≤ budget.maxStepsPerWorker) .stepBudget
  let reads := program.readFootprint.toFinset
  ensure (reads.card = program.readFootprint.length) .duplicateReadFootprint
  let writes := program.writeFootprint.toFinset
  ensure (writes.card = program.writeFootprint.length) .missingFootprintEvidence
  let w ← program.instructions.foldlM (instruct pre reads writes) .start
  match w.returned with
  | none => .error .missingReturn
  | some returned =>
    ensure ((w.overlay.entries.map Prod.fst).toFinset = writes) .missingFootprintEvidence
    return (⟨program.worker, program.writeFootprint, cellsOf w.overlay, returned⟩,
      ⟨program.worker, w.reads, cellsOf w.overlay, returned⟩)

/-! ## The join -/

/-- what the join has gathered -/
structure Join where
  ownership : OrdMap UInt32 UInt32
  merged : OrdMap UInt32 I128
  returns : List (UInt32 × I128)

/-- the join of one write of a worker; the footprint holds the slots not yet written -/
def joinWrite (worker : UInt32) (s : Finset UInt32 × Join) (write : WorkspaceCell) :
    Except MiniDecision (Finset UInt32 × Join) := do
  ensure (write.slot ∈ s.1) (.blocked .missingFootprintEvidence)
  match s.2.ownership.get write.slot with
  | some first => .error (.rejected ⟨write.slot, first, worker⟩)
  | none => return (s.1.erase write.slot, { s.2 with
      ownership := s.2.ownership.insert write.slot worker
      merged := s.2.merged.insert write.slot write.value })

/-- cells by slot, then by value -/
def sortCells (cells : List WorkspaceCell) : List WorkspaceCell :=
  cells.mergeSort fun a b => decide (a.slot < b.slot ∨ a.slot = b.slot ∧ a.value.val ≤ b.value.val)

def joinWork (join : Join) (work : PrivateWork) : Except MiniDecision Join := do
  let footprint := work.writeFootprint.toFinset
  ensure (footprint.card = work.writeFootprint.length) (.blocked .missingFootprintEvidence)
  let writes := sortCells work.writes
  ensure ((writes.map WorkspaceCell.slot).IsChain (· ≠ ·)) (.blocked .duplicatePrivateWrite)
  let s ← writes.foldlM (joinWrite work.worker) (footprint, join)
  ensure (s.1 = ∅) (.blocked .missingFootprintEvidence)
  return { s.2 with returns := s.2.returns ++ [(work.worker, work.returned)] }

def mapOf (s : MiniState) : OrdMap UInt32 I128 := ⟨s.cells.map fun c => (c.slot, c.value), by
  have h := s.increasing
  unfold Increasing at h ⊢
  rwa [List.pairwise_map]⟩

/-- the state of a map of slots -/
def stateOf (m : OrdMap UInt32 I128) : MiniState := ⟨cellsOf m, by
  have h := m.increasing
  unfold Increasing at h ⊢
  rwa [cellsOf, List.pairwise_map]⟩

/-- the number of all writes, saturating -/
def totalWrites (work : List PrivateWork) : ℕ :=
  work.foldl (fun total value => min (total + value.writes.length) usizeMax) 0

/-- results by worker -/
def sortWork (work : List PrivateWork) : List PrivateWork := work.mergeSort fun a b => decide (a.worker ≤ b.worker)

def join (pre : MiniState) (input : List PrivateWork) (budget : MiniBudget) : Except MiniDecision MiniDecision := do
  ensure (input.length ≤ budget.maxWorkers) (.blocked .workerBudget)
  let work := sortWork input
  ensure ((work.map PrivateWork.worker).IsChain (· ≠ ·)) (.blocked .duplicateWorker)
  ensure (totalWrites work ≤ budget.maxWrites) (.blocked .writeBudget)
  let joined ← work.foldlM joinWork ⟨.empty, .empty, []⟩
  return .accepted (stateOf ((mapOf pre).extend joined.merged.entries)) joined.returns

def execute (pre : MiniState) (input : List PrivateWork) (budget : MiniBudget) : MiniDecision :=
  match join pre input budget with
  | .ok decision => decision
  | .error decision => decision

/-! ## Coordination -/

def sortPrograms (programs : List WorkerProgram) : List WorkerProgram :=
  programs.mergeSort fun a b => decide (a.worker ≤ b.worker)

/-- the workers run one after the other, until one is blocked -/
def spawn (pre : MiniState) (programs : List WorkerProgram) (completionOrder : List UInt32) (budget : MiniBudget) :
    Except MiniBlocker (List (PrivateWork × WorkerTrace)) := do
  ensure (programs.length ≤ budget.maxWorkers) .workerBudget
  let programs := sortPrograms programs
  ensure ((programs.map WorkerProgram.worker).IsChain (· ≠ ·)) .duplicateWorker
  let expected := (programs.map WorkerProgram.worker).toFinset
  let actual := completionOrder.toFinset
  ensure (completionOrder.length = programs.length ∧ actual.card = completionOrder.length ∧ actual = expected)
    .invalidCompletionOrder
  programs.mapM (runWorker pre budget)

def executePrograms (pre : MiniState) (programs : List WorkerProgram) (completionOrder : List UInt32)
    (budget : MiniBudget) : MiniRun :=
  match spawn pre programs completionOrder budget with
  | .error reason => ⟨.blocked reason, []⟩
  | .ok results => ⟨execute pre (results.map Prod.fst) budget, results.map Prod.snd⟩

end MiniDeterminator

end ZenoFcis.Spec
