/-
The indexed search for depth-two splits (`zeno-fcis-program-search/src/indexed.rs`): the arena it reads, the index over
the leaves and the predicates, the search for a branch, and the answer for one root.

A computation lists its charges of work and of memory; a meter pays them and can only cut it short. A subtraction of costs
that would go below zero and an index out of range are faults. Sums of costs are natural numbers: a leaf and a predicate
cost less than the tree cap.
-/
import ZenoFcis.Finite.Program
import ZenoFcis.Lib.Bitset
import ZenoFcis.Lib.Metered

namespace ZenoFcis.Search

open Lib Lib.Metered
open ZenoFcis.Finite (Domain)

/-! ## The arena -/

/-- the two scalar kinds -/
inductive Kind where
  | int
  | bool
deriving DecidableEq

def domainKind (domain : Domain) : Kind := if domain.boolean then .bool else .int

/-- one instruction; operands are arena ids -/
inductive Node where
  | input (position : ℕ)
  | int (value : I128)
  | bool (value : Bool)
  | add (a b : ℕ)
  | sub (a b : ℕ)
  | mul (a b : ℕ)
  | divFloor (a b : ℕ)
  | divCeil (a b : ℕ)
  | mulDivFloor (a b d : ℕ)
  | mulDivCeil (a b d : ℕ)
  | productsGe (a b : ℕ × ℕ × ℕ)
  | eq (a b : ℕ)
  | lt (a b : ℕ)
  | and (a b : ℕ)
  | not (a : ℕ)
  | select (c a b : ℕ)

/-- a plan with its value on every live tuple and its size as a tree -/
structure Entry (size : ℕ) where
  node : Node
  value : Vector I128 size
  expandedCost : ℕ

/-- the arena over the live tuples; a selection refers to earlier entries -/
structure TopDown where
  inputs : List Domain
  size : ℕ
  arena : List (Entry size)
  earlier : ∀ id c a b, arena[id]?.map Entry.node = some (.select c a b) → a < id

namespace TopDown

variable (search : TopDown)

/-- an id of the arena -/
abbrev Id : Type := Fin search.arena.length

def expanded (id : search.Id) : ℕ := search.arena[id].expandedCost

def value (id : search.Id) (case : Fin search.size) : I128 := search.arena[id].value.get case

def kind (id : ℕ) : Kind :=
  match h : search.arena[id]?.map Entry.node with
  | some (.input position) => (search.inputs[position]?.map domainKind).getD .int
  | some (.bool _) | some (.eq ..) | some (.lt ..) | some (.and ..) | some (.not _) | some (.productsGe ..) => .bool
  | some (.select c a b) =>
    have : a < id := search.earlier id c a b h
    kind a
  | _ => .int
termination_by id

end TopDown

/-! ## Bounds and budgets -/

def componentCost : ℕ := 6

def treeCost : ℕ := 96

/-- what a computation is charged for -/
inductive Charge where
  | work
  | cells
deriving DecidableEq

inductive Stop where
  | workBudget (limit : ℕ)
  | cellsOverBudget (cells limit : ℕ)

/-- a stop of the meter, or what panics -/
inductive Fault where
  | stop (reason : Stop)
  | underflow
  | range

/-- the work that is done and the memory that is reserved, with their limits -/
structure Meter where
  used : ℕ
  limit : ℕ
  cells : ℕ
  maxCells : ℕ

/-- both counters saturate -/
def Meter.pay (m : Meter) (charge : Charge) (amount : ℕ) : Except Stop Meter :=
  match charge with
  | .work =>
    let used := min (m.used + amount) u64Max
    if m.limit < used then .error (.workBudget m.limit) else .ok { m with used }
  | .cells =>
    let cells := min (m.cells + amount) (2 ^ 128 - 1)
    if m.maxCells < cells then .error (.cellsOverBudget cells m.maxCells) else .ok { m with cells }

/-- a computation under a budget -/
abbrev Budgeted (α : Type) : Type := Metered Charge Fault α

def work (units : ℕ) : Budgeted Unit := charge .work units

/-- memory in cells of sixteen bytes -/
def reserve (bytes : ℕ) : Budgeted Unit := do
  work 1
  charge .cells ((bytes + 15) / 16)

def subtract (a b : ℕ) : Budgeted ℕ := okOr (if b ≤ a then some (a - b) else none) .underflow

def nth {α : Type} (l : List α) (i : ℕ) : Budgeted α := okOr l[i]? .range

/-! ## Masks -/

def words (bits : ℕ) : ℕ := (bits + 63) / 64

def full (size : ℕ) : List (BitVec 64) :=
  (List.range (words size)).map fun word =>
    let remaining := min (size - word * 64) 64
    if remaining = 64 then BitVec.allOnes 64 else (1#64 <<< remaining) - 1

def ones (mask : List (BitVec 64)) : List ℕ := Bitset.elements mask

/-- a set of the first numbers -/
structure Mask (size : ℕ) where
  bits : List (BitVec 64)
  length : bits.length = words size
  within : ∀ i, Bitset.test bits i = true → i < size

/-! ## The index -/

/-- predicates by their cost -/
structure Predicates (search : TopDown) where
  ids : List search.Id
  sorted : ids.Pairwise fun p q => search.expanded p ≤ search.expanded q

structure Index (search : TopDown) where
  leaves : List search.Id
  costs : List ℕ
  predicates : Predicates search
  cover : List (List (BitVec 64))
  pairCover : List (BitVec 64)
  guardTrue : List (BitVec 64)
  pairWords : ℕ
  guardWords : ℕ

structure Branch (search : TopDown) where
  guard : Option search.Id
  yes : search.Id
  no : search.Id
  cost : ℕ

section Index

variable (search : TopDown)

/-- ids by cost, then by id -/
def sortLeaves (ids : List search.Id) : List search.Id :=
  ids.mergeSort fun a b => decide (search.expanded a < search.expanded b ∨ search.expanded a = search.expanded b ∧ a ≤ b)

def leavesOf (output : Kind) : List search.Id :=
  sortLeaves search ((List.finRange search.arena.length).filter fun id =>
    decide (search.kind id = output ∧ search.expanded id ≤ componentCost))

/-- the tuples on which a leaf agrees with the target -/
def coverOf (target : Vector I128 search.size) (id : search.Id) : List (BitVec 64) :=
  (List.finRange search.size).foldl
    (fun v case => if search.value id case = target.get case then Bitset.insert v case else v)
    (List.replicate (words search.size) 0)

/-- the pairs of leaves one of which agrees on a tuple -/
def coverPairs (cover : List (List (BitVec 64))) (n pairWords case : ℕ) (pairCover : List (BitVec 64)) :
    List (BitVec 64) :=
  (List.range n).foldl (fun v a => (List.range n).foldl (fun v b =>
    if Bitset.test (cover[a]?.getD []) case || Bitset.test (cover[b]?.getD []) case
      then Bitset.insert v (case * pairWords * 64 + (a * n + b)) else v) v) pairCover

/-- the predicates that are true of a tuple -/
def coverGuards (predicates : List search.Id) (guardWords : ℕ) (case : Fin search.size) (guardTrue : List (BitVec 64)) :
    List (BitVec 64) :=
  predicates.zipIdx.foldl (fun v (id, p) =>
    if (search.value id case).val = 1 then Bitset.insert v (case * guardWords * 64 + p) else v) guardTrue

/-- one turn of the loop over the tuples -/
def coverCase (cover : List (List (BitVec 64))) (n pairWords guardWords : ℕ) (predicates : List search.Id)
    (covers : List (BitVec 64) × List (BitVec 64)) (case : Fin search.size) :
    Budgeted (List (BitVec 64) × List (BitVec 64)) := do
  work (n * n + predicates.length)
  return (coverPairs cover n pairWords case covers.1, coverGuards search predicates guardWords case covers.2)

def Index.new (target : Vector I128 search.size) (output : Kind) (predicates : Predicates search) :
    Budgeted (Index search) := do
  let leaves := leavesOf search output
  let n := leaves.length
  let pairWords := words (n * n)
  let guardWords := words predicates.ids.length
  let caseWords := words search.size
  let retainedWords := search.size * (pairWords + guardWords) + n * caseWords
  let scratchWords := caseWords * 3 + pairWords + guardWords
  let descriptors := (n * 6 + predicates.ids.length) * 8
  reserve ((retainedWords + scratchWords) * 8 + descriptors)
  let cover ← leaves.mapM fun id => do
    work search.size
    return coverOf search target id
  let covers ← (List.finRange search.size).foldlM (coverCase search cover n pairWords guardWords predicates.ids)
    (List.replicate (search.size * pairWords) 0, List.replicate (search.size * guardWords) 0)
  return ⟨leaves, leaves.map search.expanded, predicates, cover, covers.1, covers.2, pairWords, guardWords⟩

/-! ## Branches -/

variable {search} (index : Index search) (mask : List (BitVec 64))

/-- the first leaf that covers the mask -/
def scanLeaves (ceiling : ℕ) : List (search.Id × ℕ × List (BitVec 64)) → Budgeted (Option (Branch search))
  | [] => pure none
  | (id, cost, cover) :: rest => do
    work mask.length
    if cost ≤ ceiling ∧ (mask.zip cover).all fun (s, c) => s &&& ~~~c = 0 then return some ⟨none, id, id, cost⟩
    else scanLeaves ceiling rest

/-- the pairs whose leaves cover the tuples between them, unless there are none -/
def narrowPairs : List ℕ → List (BitVec 64) → Budgeted (Option (List (BitVec 64)))
  | [], pairs => pure (some pairs)
  | case :: rest, pairs => do
    work index.pairWords
    let pairs := pairs.mapIdx fun w possible => possible &&& Bitset.word index.pairCover (case * index.pairWords + w)
    if pairs.all (· = 0) then return none
    else narrowPairs rest pairs

/-- one word of the predicates -/
def narrowWord (mustTrue mustFalse : Bool) (truth possible : BitVec 64) : BitVec 64 :=
  let possible := if mustTrue then possible &&& truth else possible
  if mustFalse then possible &&& ~~~truth else possible

/-- the predicates that are true where only the first leaf agrees and false where only the second one does -/
def narrowGuards (coverA coverB : List (BitVec 64)) : List ℕ → List (BitVec 64) → Budgeted (List (BitVec 64))
  | [], guards => pure guards
  | case :: rest, guards => do
    let mustTrue := !Bitset.test coverB case
    let mustFalse := !Bitset.test coverA case
    if !mustTrue && !mustFalse then narrowGuards coverA coverB rest guards
    else do
      work index.guardWords
      let guards := guards.mapIdx fun w possible =>
        narrowWord mustTrue mustFalse (Bitset.word index.guardTrue (case * index.guardWords + w)) possible
      if guards.all (· = 0) then return guards
      else narrowGuards coverA coverB rest guards

/-- the cheaper one of a branch and a candidate within the ceiling -/
def improve (ceiling : ℕ) (best : Option (Branch search)) (candidate : Branch search) : Option (Branch search) :=
  if candidate.cost ≤ ceiling ∧ best.all (fun b => decide (candidate.cost < b.cost)) then some candidate else best

/-- one turn of the loop over the pairs -/
def tryPair (ceiling : ℕ) (best : Option (Branch search)) (pair : ℕ) : Budgeted (Option (Branch search)) := do
  work 1
  let a := pair / index.leaves.length
  let b := pair % index.leaves.length
  let costA ← nth index.costs a
  let costB ← nth index.costs b
  let first ← nth index.predicates.ids 0
  let ceiling := (best.map fun b => min ceiling b.cost).getD ceiling
  if ceiling < 1 + costA + costB + search.expanded first then return best
  else do
    work index.guardWords
    let coverA ← nth index.cover a
    let coverB ← nth index.cover b
    let guards ← narrowGuards index coverA coverB (ones mask) (full index.predicates.ids.length)
    match (ones guards).head? with
    | none => return best
    | some p =>
      let guard ← nth index.predicates.ids p
      let yes ← nth index.leaves a
      let no ← nth index.leaves b
      return improve ceiling best ⟨some guard, yes, no, 1 + costA + costB + search.expanded guard⟩

def Index.branch (ceiling : ℕ) : Budgeted (Option (Branch search)) := do
  let best ← scanLeaves mask ceiling (index.leaves.zip (index.costs.zip index.cover))
  if index.predicates.ids = [] then return best
  else do
    work index.pairWords
    let pairs ← narrowPairs index (ones mask) (full (index.leaves.length * index.leaves.length))
    match pairs with
    | none => return best
    | some pairs => (ones pairs).foldlM (tryPair index mask ceiling) best

end Index

/-! ## Answers -/

/-- a branch, or a selection between two of them -/
structure Answer (search : TopDown) where
  guard : Option search.Id
  yes : Branch search
  no : Branch search
  cost : ℕ

section Answer

variable {search : TopDown} (index : Index search)

/-- the tuples of which a predicate is true -/
def onMask (guard : search.Id) : List (BitVec 64) :=
  (List.finRange search.size).foldl
    (fun v case => if (search.value guard case).val = 1 then Bitset.insert v case else v)
    (List.replicate (words search.size) 0)

/-- one turn of the loop over the guards of a root -/
def tryGuard (answer : Option (Answer search)) (guard : search.Id) : Budgeted (Option (Answer search)) := do
  let predCost := search.expanded guard
  let ceiling := (answer.map Answer.cost).getD treeCost
  match index.costs.head? with
  | none => return answer
  | some least =>
    if ceiling < 1 + predCost + 2 * least then return answer
    else do
      work search.size
      let on := onMask guard
      let off := ((full search.size).zip on).map fun (a, b) => a &&& ~~~b
      let rest ← subtract ceiling 1
      let rest ← subtract rest predCost
      let yesCeiling ← subtract rest least
      let yes ← index.branch on yesCeiling
      match yes with
      | none => return answer
      | some yes => do
        let noCeiling ← subtract rest yes.cost
        let no ← index.branch off noCeiling
        match no with
        | none => return answer
        | some no =>
          let cost := 1 + predCost + yes.cost + no.cost
          return if answer.all (fun a => decide (cost < a.cost)) then some ⟨some guard, yes, no, cost⟩ else answer

/-- the answer for one root -/
def answerFor (predicates : Predicates search) : Budgeted (Option (Answer search)) := do
  let branch ← index.branch (full search.size) treeCost
  predicates.ids.foldlM (tryGuard index) (branch.map fun branch => ⟨none, branch, branch, branch.cost⟩)

end Answer

/-- the answers for all roots -/
def programFor (search : TopDown) (targets : List (Vector I128 search.size × Kind)) (predicates : Predicates search) :
    Budgeted (List (Option (Answer search))) :=
  targets.mapM fun (target, output) => do
    let index ← Index.new search target output predicates
    answerFor index predicates

end ZenoFcis.Search
