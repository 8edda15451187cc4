/-
Completion plans and their bytes (`zeno-fcis-synthesis/src/finite/completion.rs`): admission of a problem with bounds on
its plans, the check of a plan row by row, the canonical bytes and the strict import.

`planTree` is the closed value behind the bytes. Both directions go through it: its admission under the decode limits is
`validateLimits_planTree`, its length is `length_wire_planTree`, and an import parses exactly such trees.
-/
import ZenoFcis.Codec.Agreement
import ZenoFcis.Codec.Commitment
import ZenoFcis.Finite.System

namespace ZenoFcis.Finite

open Lib Lib.Except

/-! ## Problems, plans and their check -/

def maxSteps : ℕ := 100000000

def maxPolicyBytes : ℕ := 16 * 1024 * 1024

def planProfile : Bytes := literal "zeno-fcis/completion-plan/1"

/-- complete-operation limits -/
structure CompletionLimits where
  maxTransitions : ℕ
  maxSteps : ℕ
  maxStateBytes : ℕ
  maxCommandBytes : ℕ
  maxPolicyBytes : ℕ

inductive CompletionError where
  | invalid (code : String)
  | resource (error : Error)
  | evaluation (input : List I128) (source : Error)
  | rejectedStateChange (input : List I128)
  | invalidPlan (reason : String) (state : Option (List I128))
  | encoding (error : SynthesisError)
  | decoding (error : DecodeError)

/-- an untrusted policy row, in lexicographic state order -/
structure CompletionStep where
  remaining : UInt32
  command : List I128
deriving DecidableEq

structure CompletionPlan where
  problemHash : Hash32
  steps : List CompletionStep

/-- `EncodeError` as a completion error -/
def encodeFailure (error : EncodeError) : CompletionError := .encoding (.encode error)

/-- `ir::tuple` -/
def tuple (values : List Value) : Except EncodeError Value := (Value.tupleOf values).mapError .invalidValue

def finiteTuple (values : List I128) : Except EncodeError Value := tuple (values.map Value.i128)

def bytesValue (hash : Hash32) : Except EncodeError Value :=
  (Value.bytesWithLimits hash.bytes .default).mapError .invalidValue

/-- one row of `plan_value` -/
def rowValue (step : CompletionStep) : Except EncodeError Value := do
  let command ← finiteTuple step.command
  tuple [.u128 (BitVec.ofNat 128 step.remaining.toNat), command]

def planValue (problemHash : Hash32) (steps : List CompletionStep) : Except EncodeError Value := do
  let profile ← (Value.textAsciiWithLimits planProfile .default).mapError .invalidValue
  let binding ← bytesValue problemHash
  let rows ← steps.mapM rowValue
  let rows ← tuple rows
  tuple [profile, binding, rows]

def valueSize (value : Value) : Except CompletionError ℕ := do
  let bytes ← value.canonicalBytes.mapError encodeFailure
  return bytes.length

def domainTupleSize (domains : List Domain) : Except CompletionError ℕ := do
  let value ← (finiteTuple (domains.map fun d => d.bounds.1)).mapError encodeFailure
  valueSize value

def require (resource : String) (required declared : ℕ) : Except CompletionError Unit :=
  if required > declared then .error (.resource (.budget resource required declared)) else .ok ()

structure CompletionProblem where
  step : Program
  terminal : Program
  states : ℕ
  commands : ℕ
  planByteLimit : ℕ
  problemHash : Hash32

namespace CompletionProblem

/-- `identity` commits to both programs, the limits and the checker's sources -/
def tryNew (identity : Program → Program → CompletionLimits → Except CompletionError Hash32) (step terminal : Program)
    (limits : CompletionLimits) : Except CompletionError CompletionProblem := do
  let stateDomains := step.outputs.tail
  if step.outputs.head? ≠ some .bool ∨ stateDomains = [] ∨ step.inputs.take stateDomains.length ≠ stateDomains ∨
      terminal.inputs ≠ stateDomains ∨ terminal.outputs ≠ [.bool] then
    .error (.invalid "step-shape")
  else if limits.maxTransitions > maxInputs ∨ limits.maxSteps > Finite.maxSteps ∨
      limits.maxPolicyBytes > Finite.maxPolicyBytes then
    .error (.invalid "limits")
  else
    let states ← (Space.tryNew stateDomains maxInputs).mapError .resource
    let commandDomains := step.inputs.drop stateDomains.length
    let commands ← (Space.tryNew commandDomains maxInputs).mapError .resource
    if states.count * commands.count ≥ 2 ^ 64 then .error (.invalid "cardinality")
    else
      let transitions := states.count * commands.count
      require "transitions" transitions limits.maxTransitions
      let work := states.count * (terminal.nodes.length + 2) +
        transitions * (step.nodes.length + stateDomains.length + 4)
      require "steps" work limits.maxSteps
      let stateSize ← domainTupleSize stateDomains
      let commandSize ← domainTupleSize commandDomains
      require "state-bytes" stateSize limits.maxStateBytes
      require "command-bytes" commandSize limits.maxCommandBytes
      let rowHeader ← (tuple [.u128 0]).mapError encodeFailure
      let rowHeader ← valueSize rowHeader
      let planHeader ← (planValue .zero []).mapError encodeFailure
      let planHeader ← valueSize planHeader
      let planByteLimit := planHeader + states.count * (rowHeader + commandSize)
      require "policy-bytes" planByteLimit limits.maxPolicyBytes
      let problemHash ← identity step terminal limits
      return ⟨step, terminal, states.count, commands.count, planByteLimit, problemHash⟩

variable (problem : CompletionProblem)

def stateDomains : List Domain := problem.step.outputs.tail

def commandDomains : List Domain := problem.step.inputs.drop problem.stateDomains.length

/-- the states in order -/
def stateTuples : Except CompletionError (List (List I128)) := do
  let space ← (Space.tryNew problem.stateDomains maxInputs).mapError .resource
  return space.items maxInputs

def commandTuples : Except CompletionError (List (List I128)) := do
  let space ← (Space.tryNew problem.commandDomains maxInputs).mapError .resource
  return space.items maxInputs

end CompletionProblem

/-- the private `evaluate` of the profile -/
def evaluateProgram (program : Program) (input : List I128) : Except CompletionError (List I128) :=
  (program.evaluate input).mapError (.evaluation input)

def isTerminal (problem : CompletionProblem) (state : List I128) : Except CompletionError Bool := do
  let output ← evaluateProgram problem.terminal state
  return decide (output.map I128.val = [1])

/-- one field of `tuple_index` -/
def indexField (index : ℕ) (field : Domain × I128) : Except CompletionError ℕ :=
  match field.1.width, Finite.checkedSub field.2 field.1.bounds.1 with
  | some width, some offset =>
    if 0 ≤ offset.val ∧ offset.val < 2 ^ 64 ∧ index * width < 2 ^ 64 ∧ index * width + offset.val.toNat < 2 ^ 64 then
      .ok (index * width + offset.val.toNat)
    else .error (.invalid "state-index")
  | _, _ => .error (.invalid "state-index")

def tupleIndex (domains : List Domain) (values : List I128) : Except CompletionError ℕ :=
  if admitted domains values then (domains.zip values).foldlM indexField 0 else .error (.invalid "state-domain")

def successorIndex (problem : CompletionProblem) (state command : List I128) : Except CompletionError (Option ℕ) := do
  let output ← evaluateProgram problem.step (state ++ command)
  if (output.head?).map I128.val = some 0 then
    if output.tail ≠ state then .error (.rejectedStateChange (state ++ command)) else return none
  else
    let index ← tupleIndex problem.stateDomains output.tail
    return some index

/-- every command at one state; the target of the selected one -/
def selectTarget (problem : CompletionProblem) (state : List I128) (row : CompletionStep) (terminal : Bool) :
    List (List I128) → Option ℕ → Except CompletionError (Option ℕ)
  | [], selected => .ok selected
  | command :: commands, selected => do
    let target ← successorIndex problem state command
    selectTarget problem state row terminal commands
      (if terminal = false ∧ command = row.command then target else selected)

def rowAt (plan : CompletionPlan) (index : ℕ) : CompletionStep := plan.steps.getD index ⟨0, []⟩

/-- the body of the loop over the states -/
def checkRow (problem : CompletionProblem) (plan : CompletionPlan) (index : ℕ) (state : List I128) :
    Except CompletionError Unit := do
  let row := rowAt plan index
  let terminal ← isTerminal problem state
  if terminal = true ∧ (row.remaining ≠ 0 ∨ row.command ≠ []) then .error (.invalidPlan "terminal-row" (some state))
  else if terminal = false ∧ (row.remaining = 0 ∨ ¬row.remaining.toNat ≤ problem.states ∨
      admitted problem.commandDomains row.command = false) then .error (.invalidPlan "progress-row" (some state))
  else
    let commands ← problem.commandTuples
    let selected ← selectTarget problem state row terminal commands none
    if terminal then return ()
    else
      match selected with
      | none => .error (.invalidPlan "unaccepted-command" (some state))
      | some target =>
        if (rowAt plan target).remaining.toNat ≥ row.remaining.toNat then
          .error (.invalidPlan "rank-not-decreasing" (some state))
        else return ()

def checkRows (problem : CompletionProblem) (plan : CompletionPlan) :
    ℕ → List (List I128) → Except CompletionError Unit
  | _, [] => .ok ()
  | index, state :: states => do
    checkRow problem plan index state
    checkRows problem plan (index + 1) states

structure VerifiedCompletion where
  plan : CompletionPlan
  domains : List Domain

def verifyCompletion (problem : CompletionProblem) (plan : CompletionPlan) :
    Except CompletionError VerifiedCompletion := do
  if plan.problemHash ≠ problem.problemHash then .error (.invalidPlan "problem-binding" none)
  else if plan.steps.length ≠ problem.states then .error (.invalidPlan "row-count" none)
  else
    let states ← problem.stateTuples
    checkRows problem plan 0 states
    return ⟨plan, problem.stateDomains⟩

def VerifiedCompletion.canonicalBytes (completion : VerifiedCompletion) : Except CompletionError Bytes := do
  let value ← (planValue completion.plan.problemHash completion.plan.steps).mapError encodeFailure
  value.canonicalBytes.mapError encodeFailure

/-! ## The import -/

/-- the limits that a problem derives for the decoder -/
def planLimits (problem : CompletionProblem) : DecodeLimits where
  maxInputBytes := UInt64.ofNat problem.planByteLimit
  value :=
    { maxDepth := 4
      maxNodes := UInt64.ofNat (4 + problem.states * (3 + problem.commandDomains.length))
      maxPayloadBytes := UInt64.ofNat (planProfile.length + 32)
      maxCollectionLen := UInt32.ofNat (max (max problem.states problem.commandDomains.length) 3) }

def decodeScalar : Value → Except CompletionError I128
  | .i128 value => .ok value
  | _ => .error (.invalidPlan "command-scalar" none)

def decodeRow (problem : CompletionProblem) : Value → Except CompletionError CompletionStep
  | .tuple [.u128 remaining, .tuple command] =>
    if remaining.toNat > u32Max then .error (.invalidPlan "rank-range" none)
    else if command.length > problem.commandDomains.length then .error (.invalidPlan "command-shape" none)
    else do
      let command ← command.mapM decodeScalar
      return ⟨UInt32.ofNat remaining.toNat, command⟩
  | _ => .error (.invalidPlan "row-shape" none)

/-- everything after the decoder -/
def importPlan (problem : CompletionProblem) : Value → Except CompletionError VerifiedCompletion
  | .tuple [.text profile, .bytes binding, .tuple rows] =>
    if profile ≠ planProfile then .error (.invalidPlan "plan-profile" none)
    else if h : binding.length = 32 then
      if (⟨binding, h⟩ : Hash32) ≠ problem.problemHash then .error (.invalidPlan "problem-binding" none)
      else if rows.length ≠ problem.states then .error (.invalidPlan "row-count" none)
      else do
        let steps ← rows.mapM (decodeRow problem)
        verifyCompletion problem ⟨⟨binding, h⟩, steps⟩
    else .error (.invalidPlan "problem-binding" none)
  | _ => .error (.invalidPlan "plan-shape" none)

def verifyCompletionBytes (problem : CompletionProblem) (bytes : Bytes) :
    Except CompletionError VerifiedCompletion :=
  if max (max problem.states problem.commandDomains.length) 3 > u32Max then .error (.decoding .lengthOverflow)
  else do
    let value ← (decodeValue bytes (planLimits problem)).mapError .decoding
    importPlan problem value

/-! ## The value behind a plan -/

def rowTree (step : CompletionStep) : Value :=
  .tuple [.u128 (BitVec.ofNat 128 step.remaining.toNat), .tuple (step.command.map Value.i128)]

def planTree (problemHash : Hash32) (steps : List CompletionStep) : Value :=
  .tuple [.text planProfile, .bytes problemHash.bytes, .tuple (steps.map rowTree)]

/-- the nodes of one row: row, rank, command and its scalars -/
def rowNodes (step : CompletionStep) : ℕ := 3 + step.command.length

/-- the nodes of a plan: root, profile, binding and table, then the rows -/
def planNodes (plan : CompletionPlan) : ℕ := 4 + (plan.steps.map rowNodes).sum

section Tree

variable {hash : Hash32} {steps : List CompletionStep} {limits : ValueLimits}

theorem tuple_eq {values : List Value} (h : values.length ≤ u32Max) : tuple values = .ok (.tuple values) := by
  rw [tuple, tupleOf_eq_ok.2 ⟨h, rfl⟩]
  rfl

variable {step : CompletionStep} {n p n' p' d : ℕ}

theorem rowValue_eq (h : step.command.length ≤ u32Max) :
    rowValue step = .ok (rowTree step) := by
  rw [rowValue, finiteTuple, tuple_eq (by rwa [List.length_map]), ok_bind]
  exact tuple_eq (show 2 ≤ u32Max by decide)

theorem mapM_rowValue (h : ∀ s ∈ steps, s.command.length ≤ u32Max) : steps.mapM rowValue = .ok (steps.map rowTree) := by
  induction steps with
  | nil => rfl
  | cons s steps ih =>
    rw [List.mapM_cons, rowValue_eq (h s List.mem_cons_self), ok_bind, ih fun s hs => h s (List.mem_cons_of_mem _ hs),
      ok_bind]
    rfl

theorem bytesValue_eq (hash : Hash32) : bytesValue hash = .ok (.bytes hash.bytes) := by
  have hvalid : (Value.bytes hash.bytes).validateLimits .default = .ok ⟨1, 32, 0⟩ := by
    rw [Value.validateLimits, validateValue, enterValue_eq_ok.2 ⟨Nat.zero_le _, by decide, rfl⟩, ok_bind,
      addPayload_eq_ok.2 ⟨by rw [hash.length_eq]; decide, rfl⟩, hash.length_eq]
    rfl
  rw [bytesValue, Value.bytesWithLimits, (checkWireLength_eq_ok (u := ())).2 (by rw [hash.length_eq]; decide), ok_bind,
    hvalid]
  rfl

theorem planValue_eq (hlen : steps.length ≤ u32Max) (h : ∀ s ∈ steps, s.command.length ≤ u32Max) :
    planValue hash steps = .ok (planTree hash steps) := by
  have hprofile : Value.textAsciiWithLimits planProfile .default = .ok (.text planProfile) := rfl
  rw [planValue, hprofile, bytesValue_eq, mapM_rowValue h]
  simp only [Except.mapError, ok_bind]
  rw [tuple_eq (by rwa [List.length_map]), ok_bind]
  exact tuple_eq (show 3 ≤ u32Max by decide)

theorem valid_scalars {values : List I128} (h : values.length ≤ u32Max) : Valid (.tuple (values.map Value.i128)) := by
  refine .tuple (by rwa [List.length_map]) fun v hv => ?_
  obtain ⟨n, _, rfl⟩ := List.mem_map.1 hv
  exact .i128 n

theorem valid_rowTree (h : step.command.length ≤ u32Max) : Valid (rowTree step) := by
  refine .tuple (show 2 ≤ u32Max by decide) fun v hv => ?_
  rcases List.mem_cons.1 hv with rfl | hv
  · exact .u128 _
  · rw [List.mem_singleton.1 hv]
    exact valid_scalars h

theorem valid_planTree (hlen : steps.length ≤ u32Max) (h : ∀ s ∈ steps, s.command.length ≤ u32Max) :
    Valid (planTree hash steps) := by
  refine .tuple (show 3 ≤ u32Max by decide) fun v hv => ?_
  simp only [List.mem_cons, List.not_mem_nil, or_false] at hv
  rcases hv with rfl | rfl | rfl
  · exact .text rfl (by decide)
  · exact .bytes (by rw [hash.length_eq]; decide)
  · refine .tuple (by rwa [List.length_map]) fun v hv => ?_
    obtain ⟨s, hs, rfl⟩ := List.mem_map.1 hv
    exact valid_rowTree (h s hs)

/-! ### What admission spends -/

/-- a check that spends `n` nodes and `p` payload bytes, whatever was spent before -/
structure Costs (limits : ValueLimits) (check : ValueMetrics → Except ValueError ValueMetrics) (n p : ℕ) : Prop where
  ok : ∀ m, m.nodes + n ≤ limits.maxNodes.toNat → m.payloadBytes + p ≤ limits.maxPayloadBytes.toNat →
    ∃ m', check m = .ok m' ∧ m'.nodes = m.nodes + n ∧ m'.payloadBytes = m.payloadBytes + p
  spent : ∀ m m', check m = .ok m' → m.nodes ≤ limits.maxNodes.toNat →
    m'.nodes = m.nodes + n ∧ m.nodes + n ≤ limits.maxNodes.toNat

theorem Costs.bind {f g : ValueMetrics → Except ValueError ValueMetrics} (hf : Costs limits f n p)
    (hg : Costs limits g n' p') : Costs limits (fun m => f m >>= g) (n + n') (p + p') := by
  constructor
  · intro m hn hp
    obtain ⟨m₁, h₁, hn₁, hp₁⟩ := hf.ok m (by omega) (by omega)
    obtain ⟨m₂, h₂, hn₂, hp₂⟩ := hg.ok m₁ (by omega) (by omega)
    exact ⟨m₂, by rw [h₁, ok_bind, h₂], by omega, by omega⟩
  · intro m m' h hm
    obtain ⟨m₁, h₁, h₂⟩ := bind_eq_ok.1 h
    obtain ⟨hn₁, hle₁⟩ := hf.spent m m₁ h₁ hm
    obtain ⟨hn₂, hle₂⟩ := hg.spent m₁ m' h₂ (by omega)
    exact ⟨by omega, by omega⟩

theorem costs_done : Costs limits (fun m => .ok m) 0 0 :=
  ⟨fun m _ _ => ⟨m, rfl, rfl, rfl⟩, fun m m' h hm => by obtain rfl := Except.ok.inj h; exact ⟨rfl, hm⟩⟩

theorem costs_enter (hd : d ≤ limits.effectiveMaxDepth.toNat) : Costs limits (enterValue d limits) 1 0 := by
  constructor
  · intro m hn hp
    exact ⟨_, enterValue_eq_ok.2 ⟨hd, hn, rfl⟩, rfl, rfl⟩
  · intro m m' h _
    obtain ⟨_, hn, rfl⟩ := enterValue_eq_ok.1 h
    exact ⟨rfl, hn⟩

theorem costs_payload (k : ℕ) : Costs limits (addPayload k limits) 0 k := by
  constructor
  · intro m hn hp
    exact ⟨_, addPayload_eq_ok.2 ⟨hp, rfl⟩, rfl, rfl⟩
  · intro m m' h hm
    obtain ⟨_, rfl⟩ := addPayload_eq_ok.1 h
    exact ⟨rfl, hm⟩

theorem costs_tuple {items : List Value} (hd : d ≤ limits.effectiveMaxDepth.toNat)
    (hlen : items.length ≤ limits.maxCollectionLen.toNat) (h : Costs limits (validateItems items (d + 1) limits) n p) :
    Costs limits (validateValue (.tuple items) d limits) (1 + n) (0 + p) := by
  have hdepth : d + 1 ≤ u32Max := by
    have := limits.effectiveMaxDepth_le
    have : u32Max = 4294967295 := rfl
    omega
  have heq : validateValue (.tuple items) d limits = fun m =>
      enterValue d limits m >>= validateItems items (d + 1) limits := by
    funext m
    rw [validateValue]
    refine congrArg (enterValue d limits m >>= ·) (funext fun m => ?_)
    rw [(validateCollectionLen_eq_ok (u := ())).2 hlen, ok_bind, checkedAdd_eq_ok.2 ⟨hdepth, rfl⟩, ok_bind]
  rw [heq]
  exact (costs_enter hd).bind h

theorem costs_items_cons {v : Value} {items : List Value}
    (hv : Costs limits (validateValue v d limits) n p) (h : Costs limits (validateItems items d limits) n' p') :
    Costs limits (validateItems (v :: items) d limits) (n + n') (p + p') := hv.bind h

theorem costs_items_nil (d : ℕ) : Costs limits (validateItems [] d limits) 0 0 := costs_done

theorem costs_scalars (hd : d ≤ limits.effectiveMaxDepth.toNat) (values : List I128) :
    Costs limits (validateItems (values.map Value.i128) d limits) values.length 0 := by
  induction values with
  | nil => exact costs_items_nil d
  | cons n values ih =>
    rw [List.length_cons, add_comm]
    exact costs_items_cons (p := 0) (costs_enter hd) ih

/-- the limits let every shape of a plan pass -/
structure Admits (limits : ValueLimits) (steps : List CompletionStep) : Prop where
  depth : 4 ≤ limits.effectiveMaxDepth.toNat
  three : 3 ≤ limits.maxCollectionLen.toNat
  rows : steps.length ≤ limits.maxCollectionLen.toNat
  fields : ∀ s ∈ steps, s.command.length ≤ limits.maxCollectionLen.toNat
  payload : planProfile.length + 32 ≤ limits.maxPayloadBytes.toNat

theorem costs_row (hd : d + 2 ≤ limits.effectiveMaxDepth.toNat)
    (hpair : 2 ≤ limits.maxCollectionLen.toNat) (hfields : step.command.length ≤ limits.maxCollectionLen.toNat) :
    Costs limits (validateValue (rowTree step) d limits) (rowNodes step) 0 := by
  have hcommand : Costs limits (validateValue (.tuple (step.command.map Value.i128)) (d + 1) limits)
      (1 + step.command.length) (0 + 0) :=
    costs_tuple (by omega) (by rwa [List.length_map]) (costs_scalars hd step.command)
  have hrank : Costs limits (validateValue (.u128 (BitVec.ofNat 128 step.remaining.toNat)) (d + 1) limits) 1 0 :=
    costs_enter (by omega)
  have hall : Costs limits (validateValue (rowTree step) d limits) (1 + (1 + (1 + step.command.length + 0)))
      (0 + (0 + (0 + 0 + 0))) :=
    costs_tuple (by omega) hpair (costs_items_cons hrank (costs_items_cons hcommand (costs_items_nil _)))
  have hn : rowNodes step = 1 + (1 + (1 + step.command.length + 0)) := by rw [rowNodes]; omega
  rw [hn]
  exact hall

theorem costs_rows (hd : d + 2 ≤ limits.effectiveMaxDepth.toNat) (hpair : 2 ≤ limits.maxCollectionLen.toNat)
    (h : ∀ s ∈ steps, s.command.length ≤ limits.maxCollectionLen.toNat) :
    Costs limits (validateItems (steps.map rowTree) d limits) (steps.map rowNodes).sum 0 := by
  induction steps with
  | nil => exact costs_items_nil d
  | cons s steps ih =>
    rw [List.map_cons, List.map_cons, List.sum_cons]
    exact costs_items_cons (costs_row hd hpair (h s List.mem_cons_self))
      (ih fun s hs => h s (List.mem_cons_of_mem _ hs))

/-- **Admission of a plan** is a matter of its nodes alone. -/
theorem validateLimits_planTree (h : Admits limits steps) :
    (∃ m, (planTree hash steps).validateLimits limits = .ok m) ↔
      4 + (steps.map rowNodes).sum ≤ limits.maxNodes.toNat := by
  have hdepth := h.depth
  have hthree := h.three
  have hprofile : Costs limits (validateValue (.text planProfile) 1 limits) (1 + 0) (0 + planProfile.length) :=
    (costs_enter (by omega)).bind (costs_payload _)
  have hbinding : Costs limits (validateValue (.bytes hash.bytes) 1 limits) (1 + 0) (0 + 32) := by
    rw [← hash.length_eq]
    exact (costs_enter (by omega)).bind (costs_payload _)
  have htable : Costs limits (validateValue (.tuple (steps.map rowTree)) 1 limits) (1 + (steps.map rowNodes).sum)
      (0 + 0) :=
    costs_tuple (by omega) (by rw [List.length_map]; exact h.rows) (costs_rows (by omega) (by omega) h.fields)
  have hall : Costs limits (validateValue (planTree hash steps) 0 limits)
      (1 + (1 + 0 + (1 + 0 + (1 + (steps.map rowNodes).sum + 0))))
      (0 + (0 + planProfile.length + (0 + 32 + (0 + 0 + 0)))) :=
    costs_tuple (Nat.zero_le _) hthree (costs_items_cons hprofile
      (costs_items_cons hbinding (costs_items_cons htable (costs_items_nil _))))
  have hp := h.payload
  -- the text of the profile stays closed under arithmetic
  generalize planProfile.length = k at hall hp
  constructor
  · rintro ⟨m, hm⟩
    have hle := (hall.spent _ _ hm (Nat.zero_le _)).2
    dsimp only at hle
    omega
  · intro hn
    obtain ⟨m, hm, -⟩ := hall.ok ⟨0, 0, 0⟩ (by dsimp only; omega) (by dsimp only; omega)
    exact ⟨m, hm⟩

/-! ### The length of the bytes -/

theorem length_wireItems (items : List Value) :
    (wireItems items).length = (items.map fun v => (wire v).length).sum := by
  rw [wireItems_eq, List.length_flatMap]

theorem length_wire_tuple (items : List Value) :
    (wire (.tuple items)).length = 5 + (items.map fun v => (wire v).length).sum := by
  rw [wire, List.length_cons, List.length_append, beBytes_length, length_wireItems]
  omega

theorem length_wire_scalars (values : List I128) :
    (wire (.tuple (values.map Value.i128))).length = 5 + 17 * values.length := by
  have hscalar : ∀ v : I128, (wire (.i128 v)).length = 17 := fun v => by simp [wire]
  rw [length_wire_tuple, List.map_map]
  have hsum : (values.map fun v => (wire (.i128 v)).length).sum = 17 * values.length := by
    induction values with
    | nil => rfl
    | cons v values ih => rw [List.map_cons, List.sum_cons, ih, hscalar, List.length_cons]; omega
  exact congrArg (5 + ·) hsum

theorem length_wire_rowTree (step : CompletionStep) : (wire (rowTree step)).length = 27 + 17 * step.command.length := by
  have hrank : (wire (.u128 (BitVec.ofNat 128 step.remaining.toNat))).length = 17 := by simp [wire]
  rw [rowTree, length_wire_tuple, List.map_cons, List.map_singleton, List.sum_cons, List.sum_singleton, hrank,
    length_wire_scalars]
  omega

/-- **The length of a plan.** A header, and 27 bytes a row with 17 for each of its scalars. -/
theorem length_wire_planTree :
    (wire (planTree hash steps)).length = 79 + (steps.map fun s => 27 + 17 * s.command.length).sum := by
  have hprofile : (wire (.text planProfile)).length = 32 := by decide
  have hbinding : (wire (.bytes hash.bytes)).length = 37 := by simp [wire, hash.length_eq]
  rw [planTree, length_wire_tuple]
  simp only [List.map_cons, List.map_nil, List.sum_cons, List.sum_nil]
  rw [hprofile, hbinding, length_wire_tuple, List.map_map]
  simp only [Function.comp_def, length_wire_rowTree]
  omega

end Tree

/-! ## Admitted problems -/

/-- what the constructor establishes -/
structure CompletionProblem.Admitted (problem : CompletionProblem) : Prop where
  valid : validDomains problem.stateDomains = true
  states : problem.states = (Space.tuples problem.stateDomains).length
  small : problem.states ≤ maxInputs
  limit : problem.planByteLimit = 79 + problem.states * (27 + 17 * problem.commandDomains.length)
  bounded : problem.planByteLimit ≤ Finite.maxPolicyBytes

section Admitted

variable {problem : CompletionProblem}

theorem require_eq_ok {resource : String} {n declared : ℕ} {u : Unit} :
    require resource n declared = .ok u ↔ n ≤ declared := by
  unfold require
  split_ifs with h
  · exact iff_of_false nofun (not_le.2 h)
  · exact iff_of_true rfl (not_lt.1 h)

variable {v : Value} {bytes : Bytes} {plan : CompletionPlan} {completion : VerifiedCompletion}

theorem canonicalBytes_eq_ok (hv : Valid v) (h : v.canonicalBytes = .ok bytes) :
    bytes = wire v :=
  (hv.zcveBytesWithLimits.1 (mapError_eq_ok.1 h)).2.1

theorem valueSize_eq_ok (hv : Valid v) {n : ℕ} (h : valueSize v = .ok n) : n = (wire v).length := by
  obtain ⟨bytes, hbytes, hn⟩ := bind_eq_ok.1 h
  obtain rfl := canonicalBytes_eq_ok hv (mapError_eq_ok.1 hbytes)
  exact (Except.ok.inj hn).symm

theorem domainTupleSize_eq_ok {domains : List Domain} {n : ℕ} (h : domainTupleSize domains = .ok n) :
    n = 5 + 17 * domains.length := by
  obtain ⟨value, hvalue, hsize⟩ := bind_eq_ok.1 h
  obtain ⟨hlen, rfl⟩ := tupleOf_eq_ok.1 (mapError_eq_ok.1 (mapError_eq_ok.1 hvalue))
  rw [List.length_map] at hlen
  rw [valueSize_eq_ok (valid_scalars hlen) hsize, length_wire_scalars, List.length_map]

theorem valueSize_of (hv : Valid v) (hm : ∃ m, v.validateLimits .default = .ok m)
    (hlen : (wire v).length ≤ usizeMax) : valueSize v = .ok (wire v).length := by
  have hbytes : v.canonicalBytes = .ok (wire v) := by
    rw [Value.canonicalBytes, canonicalValueBytesWithLimits, mapError_eq_ok, hv.zcveBytesWithLimits]
    exact ⟨hm, rfl, hlen⟩
  rw [valueSize, hbytes]
  rfl

theorem domainTupleSize_of {domains : List Domain} (h : domains.length < 1000000) :
    domainTupleSize domains = .ok (5 + 17 * domains.length) := by
  have hlen : (domains.map fun d => d.bounds.1).length ≤ u32Max := by
    rw [List.length_map]
    exact h.le.trans (by decide)
  have hcosts : Costs .default (validateValue (.tuple ((domains.map fun d => d.bounds.1).map Value.i128)) 0 .default)
      (1 + (domains.map fun d => d.bounds.1).length) (0 + 0) :=
    costs_tuple (Nat.zero_le _) (by rw [List.length_map, List.length_map]; exact h.le) (costs_scalars (by decide) _)
  have hm : ∃ m, (Value.tuple ((domains.map fun d => d.bounds.1).map Value.i128)).validateLimits .default = .ok m := by
    obtain ⟨m, hm, -⟩ := hcosts.ok ⟨0, 0, 0⟩ (by rw [List.length_map, Nat.zero_add, Nat.add_comm]; exact h)
      (Nat.zero_le _)
    exact ⟨m, hm⟩
  have hwire := length_wire_scalars (domains.map fun d => d.bounds.1)
  rw [List.length_map] at hwire
  have hbound : (wire (.tuple ((domains.map fun d => d.bounds.1).map Value.i128))).length ≤ usizeMax := by
    rw [hwire]
    exact (show 5 + 17 * domains.length ≤ 5 + 17 * 1000000 by omega).trans (by decide)
  rw [domainTupleSize, finiteTuple, tuple_eq (by rwa [List.length_map])]
  change valueSize (.tuple ((domains.map fun d => d.bounds.1).map Value.i128)) = _
  rw [valueSize_of (valid_scalars hlen) hm hbound, hwire]

/-- **Problems.** The byte limit is the exact length of a plan whose rows all have a full command. -/
theorem CompletionProblem.admitted_of_tryNew
    {identity : Program → Program → CompletionLimits → Except CompletionError Hash32} {step terminal : Program}
    {limits : CompletionLimits}
    (h : CompletionProblem.tryNew identity step terminal limits = .ok problem) : problem.Admitted := by
  unfold CompletionProblem.tryNew at h
  dsimp only at h
  split_ifs at h with hshape hlimits
  simp only [not_or, not_lt] at hlimits
  obtain ⟨states, hstates, h⟩ := bind_eq_ok.1 h
  obtain ⟨commands, hcommands, h⟩ := bind_eq_ok.1 h
  split_ifs at h with hcardinality
  simp only [bind_eq_ok] at h
  obtain ⟨_, _, _, _, stateSize, _, commandSize, hcommand, _, _, _, _, row, hrow, rowHeader, hrowHeader, plan, hplan,
    planHeader, hplanHeader, _, hpolicy, problemHash, _, h⟩ := h
  cases h
  have hdomains : validDomains step.outputs.tail = true := by
    have hall := step.valid.2
    rw [validDomains, List.all_eq_true] at hall ⊢
    exact fun d hd => hall d (List.mem_of_mem_tail hd)
  rw [mapError_eq_ok, Space.tryNew_eq hdomains (by decide) (by decide)] at hstates
  split_ifs at hstates with hsmall
  cases hstates
  have hrowTree : row = .tuple [.u128 0] := by
    have hheader : tuple [.u128 0] = .ok (.tuple [.u128 0]) := rfl
    rw [hheader] at hrow
    exact (Except.ok.inj hrow).symm
  have hrowSize : rowHeader = 22 := by
    rw [hrowTree] at hrowHeader
    have hvalid : Valid (.tuple [.u128 0]) :=
      .tuple (show 1 ≤ u32Max by decide) fun v hv => by rw [List.mem_singleton.1 hv]; exact .u128 _
    rw [valueSize_eq_ok hvalid hrowHeader]
    rfl
  have hplanTree : plan = planTree .zero [] := by
    rw [planValue_eq (Nat.zero_le _) (fun s hs => absurd hs List.not_mem_nil)] at hplan
    exact (Except.ok.inj hplan).symm
  have hplanSize : planHeader = 79 := by
    rw [hplanTree] at hplanHeader
    rw [valueSize_eq_ok (valid_planTree (Nat.zero_le _) fun s hs => absurd hs List.not_mem_nil) hplanHeader,
      length_wire_planTree]
    rfl
  have hlimit : planHeader + (Space.tuples step.outputs.tail).length * (rowHeader + commandSize) =
      79 + (Space.tuples step.outputs.tail).length *
        (27 + 17 * (step.inputs.drop step.outputs.tail.length).length) := by
    rw [hplanSize, hrowSize, domainTupleSize_eq_ok hcommand]
    congr 2
    omega
  exact ⟨hdomains, rfl, hsmall, hlimit, le_trans (require_eq_ok.1 hpolicy) hlimits.2.2⟩

/-! ## Accepted plans -/

theorem stateTuples_eq (hp : problem.Admitted) : problem.stateTuples = .ok (Space.tuples problem.stateDomains) := by
  have hsmall : (Space.tuples problem.stateDomains).length ≤ maxInputs := hp.states ▸ hp.small
  rw [CompletionProblem.stateTuples, Space.tryNew_eq hp.valid (by decide) (by decide), if_pos hsmall]
  exact congrArg Except.ok (Space.items_tuples hp.valid _ hsmall)

theorem checkRows_eq_ok {states : List (List I128)} {index : ℕ} {u : Unit} :
    checkRows problem plan index states = .ok u ↔
      ∀ i (h : i < states.length), checkRow problem plan (index + i) states[i] = .ok () := by
  induction states generalizing index with
  | nil => exact iff_of_true rfl fun i h => absurd h (Nat.not_lt_zero i)
  | cons state states ih =>
    rw [checkRows, bind_eq_ok]
    constructor
    · rintro ⟨_, hrow, hrows⟩ i hi
      cases i with
      | zero => exact hrow
      | succ i =>
        have hnext := ih.1 hrows i (Nat.lt_of_succ_lt_succ hi)
        rwa [show index + 1 + i = index + (i + 1) by omega] at hnext
    · intro h
      refine ⟨(), h 0 (Nat.succ_pos _), ih.2 fun i hi => ?_⟩
      have hnext := h (i + 1) (Nat.succ_lt_succ hi)
      rwa [show index + (i + 1) = index + 1 + i by omega] at hnext

theorem length_of_checkRow {index : ℕ} {state : List I128} {u : Unit}
    (h : checkRow problem plan index state = .ok u) :
    (rowAt plan index).command.length ≤ problem.commandDomains.length := by
  unfold checkRow at h
  obtain ⟨terminal, _, hguards⟩ := bind_eq_ok.1 h
  clear h
  by_cases hterminal : terminal = true ∧ ((rowAt plan index).remaining ≠ 0 ∨ (rowAt plan index).command ≠ [])
  · rw [if_pos hterminal] at hguards
    cases hguards
  rw [if_neg hterminal] at hguards
  by_cases hprogress : terminal = false ∧ ((rowAt plan index).remaining = 0 ∨
      ¬(rowAt plan index).remaining.toNat ≤ problem.states ∨
      admitted problem.commandDomains (rowAt plan index).command = false)
  · rw [if_pos hprogress] at hguards
    cases hguards
  cases terminal with
  | true =>
    simp only [true_and, not_or, not_not] at hterminal
    rw [hterminal.2]
    exact Nat.zero_le _
  | false =>
    simp only [true_and, not_or, not_not, Bool.not_eq_false] at hprogress
    have hadmitted := hprogress.2.2
    rw [admitted, Bool.and_eq_true, decide_eq_true_eq] at hadmitted
    exact hadmitted.1.ge

/-- what an accepted plan is -/
structure Accepted (problem : CompletionProblem) (plan : CompletionPlan) : Prop where
  binding : plan.problemHash = problem.problemHash
  length : plan.steps.length = problem.states
  fields : ∀ s ∈ plan.steps, s.command.length ≤ problem.commandDomains.length

theorem accepted_of_verifyCompletion (hp : problem.Admitted)
    (h : verifyCompletion problem plan = .ok completion) : Accepted problem plan ∧ completion.plan = plan := by
  unfold verifyCompletion at h
  split_ifs at h with hbinding hlength
  rw [stateTuples_eq hp, ok_bind] at h
  obtain ⟨_, hrows, h⟩ := bind_eq_ok.1 h
  cases h
  refine ⟨⟨not_not.1 hbinding, not_not.1 hlength, fun s hs => ?_⟩, rfl⟩
  obtain ⟨i, hi, rfl⟩ := List.mem_iff_getElem.1 hs
  have hstate : i < (Space.tuples problem.stateDomains).length := by
    rw [← hp.states, ← not_not.1 hlength]
    exact hi
  have hrow := length_of_checkRow (checkRows_eq_ok.1 hrows i hstate)
  rwa [Nat.zero_add, rowAt, List.getD_eq_getElem _ _ hi] at hrow

/-! ## The import of a plan -/

theorem decodeScalar_eq_ok {n : I128} : decodeScalar v = .ok n ↔ v = .i128 n := by
  cases v <;> simp [decodeScalar]

theorem mapM_decodeScalar {values : List Value} {command : List I128} :
    values.mapM decodeScalar = .ok command ↔ values = command.map Value.i128 := by
  induction values generalizing command with
  | nil => simp [pure_eq, eq_comm]
  | cons v values ih =>
    rw [List.mapM_cons]
    simp only [bind_eq_ok, decodeScalar_eq_ok, ih, pure_eq, Except.ok.injEq]
    constructor
    · rintro ⟨n, rfl, command, rfl, rfl⟩
      rfl
    · intro h
      cases command with
      | nil => cases h
      | cons n command =>
        obtain ⟨rfl, rfl⟩ := List.cons.inj h
        exact ⟨n, rfl, command, rfl, rfl⟩

theorem decodeRow_rowTree {step : CompletionStep} (h : step.command.length ≤ problem.commandDomains.length) :
    decodeRow problem (rowTree step) = .ok step := by
  have hlt := step.remaining.toNat_lt
  have hword : (BitVec.ofNat 128 step.remaining.toNat).toNat = step.remaining.toNat :=
    (BitVec.toNat_ofNat _ _).trans (Nat.mod_eq_of_lt (by omega))
  have hmax : u32Max = 4294967295 := rfl
  rw [rowTree, decodeRow, hword, if_neg (by omega), if_neg (by rw [List.length_map]; omega),
    mapM_decodeScalar.2 rfl, ok_bind, UInt32.ofNat_toNat]
  rfl

theorem decodeRow_eq_ok {step : CompletionStep} (h : decodeRow problem v = .ok step) :
    v = rowTree step := by
  unfold decodeRow at h
  split at h
  case h_1 remaining command =>
    split_ifs at h with hrank hfields
    obtain ⟨values, hvalues, hstep⟩ := bind_eq_ok.1 h
    obtain rfl := mapM_decodeScalar.1 hvalues
    cases hstep
    have hmax : u32Max = 4294967295 := rfl
    have hword : (UInt32.ofNat remaining.toNat).toNat = remaining.toNat :=
      UInt32.toNat_ofNat_of_lt' (show remaining.toNat < 4294967296 by omega)
    rw [rowTree]
    dsimp only
    rw [hword, BitVec.ofNat_toNat, BitVec.setWidth_eq]
  case h_2 => cases h

theorem mapM_decodeRow {steps : List CompletionStep}
    (h : ∀ s ∈ steps, s.command.length ≤ problem.commandDomains.length) :
    (steps.map rowTree).mapM (decodeRow problem) = .ok steps := by
  induction steps with
  | nil => rfl
  | cons s steps ih =>
    rw [List.map_cons, List.mapM_cons, decodeRow_rowTree (h s List.mem_cons_self), ok_bind,
      ih fun s hs => h s (List.mem_cons_of_mem _ hs), ok_bind]
    rfl

theorem mapM_decodeRow_eq_ok {rows : List Value} {steps : List CompletionStep}
    (h : rows.mapM (decodeRow problem) = .ok steps) : rows = steps.map rowTree := by
  induction rows generalizing steps with
  | nil =>
    cases h
    rfl
  | cons v rows ih =>
    rw [List.mapM_cons] at h
    obtain ⟨s, hs, h⟩ := bind_eq_ok.1 h
    obtain ⟨rest, hrest, h⟩ := bind_eq_ok.1 h
    cases h
    rw [decodeRow_eq_ok hs, ih hrest, List.map_cons]

theorem importPlan_planTree (h : Accepted problem plan) :
    importPlan problem (planTree plan.problemHash plan.steps) = verifyCompletion problem plan := by
  have hhash : (⟨plan.problemHash.bytes, plan.problemHash.length_eq⟩ : Hash32) = plan.problemHash := rfl
  rw [planTree, importPlan, if_neg (not_not.2 rfl), dif_pos plan.problemHash.length_eq, hhash,
    if_neg (not_not.2 h.binding), if_neg (by rw [List.length_map]; exact not_not.2 h.length), mapM_decodeRow h.fields,
    ok_bind]

theorem importPlan_eq_ok (h : importPlan problem v = .ok completion) :
    ∃ plan, v = planTree plan.problemHash plan.steps ∧ verifyCompletion problem plan = .ok completion := by
  unfold importPlan at h
  split at h
  case h_1 profile binding rows =>
    split_ifs at h with hprofile hlen hbinding hcount
    obtain ⟨steps, hsteps, hverified⟩ := bind_eq_ok.1 h
    obtain rfl := mapM_decodeRow_eq_ok hsteps
    obtain rfl := not_not.1 hprofile
    exact ⟨⟨⟨binding, hlen⟩, steps⟩, rfl, hverified⟩
  case h_2 => cases h

/-! ## The bytes of an accepted plan -/

theorem sum_map_le {f : CompletionStep → ℕ} {steps : List CompletionStep} {k : ℕ} (h : ∀ s ∈ steps, f s ≤ k) :
    (steps.map f).sum ≤ steps.length * k := by
  induction steps with
  | nil => exact Nat.zero_le _
  | cons s steps ih =>
    rw [List.forall_mem_cons] at h
    have htail := ih h.2
    rw [List.map_cons, List.sum_cons, List.length_cons, Nat.add_mul, Nat.one_mul]
    omega

theorem fits_wire (hp : problem.Admitted) (h : Accepted problem plan) :
    (wire (planTree plan.problemHash plan.steps)).length ≤ problem.planByteLimit := by
  have hrows : (plan.steps.map fun s => 27 + 17 * s.command.length).sum ≤
      plan.steps.length * (27 + 17 * problem.commandDomains.length) :=
    sum_map_le fun s hs => Nat.add_le_add_left (Nat.mul_le_mul_left 17 (h.fields s hs)) 27
  rw [length_wire_planTree, hp.limit, ← h.length]
  omega

theorem planNodes_le (h : Accepted problem plan) :
    planNodes plan ≤ 4 + problem.states * (3 + problem.commandDomains.length) := by
  have hrows : (plan.steps.map rowNodes).sum ≤ plan.steps.length * (3 + problem.commandDomains.length) :=
    sum_map_le fun s hs => Nat.add_le_add_left (h.fields s hs) 3
  rw [planNodes, ← h.length]
  omega

/-- the sizes behind the derived limits -/
structure Sizes (problem : CompletionProblem) : Prop where
  pos : 0 < problem.states
  fields : problem.commandDomains.length ≤ 1000000
  nodes : 4 + problem.states * (3 + problem.commandDomains.length) ≤ Finite.maxPolicyBytes
  collection : max (max problem.states problem.commandDomains.length) 3 ≤ Finite.maxPolicyBytes

theorem sizes (hp : problem.Admitted) : Sizes problem := by
  have hpos : 0 < problem.states := by
    rw [hp.states]
    exact List.length_pos_of_ne_nil (Space.visits_tuples hp.valid).ne_nil
  have hlimit := hp.limit
  have hbounded := hp.bounded
  have hsmall := hp.small
  have hfull : problem.commandDomains.length ≤ problem.states * problem.commandDomains.length :=
    Nat.le_mul_of_pos_left _ hpos
  have hmax : Finite.maxPolicyBytes = 16777216 := rfl
  have hinputs : maxInputs = 65536 := rfl
  have hbytes : problem.states * (27 + 17 * problem.commandDomains.length) =
      27 * problem.states + 17 * (problem.states * problem.commandDomains.length) := by ring
  have hnodes : problem.states * (3 + problem.commandDomains.length) =
      3 * problem.states + problem.states * problem.commandDomains.length := by ring
  exact ⟨hpos, by omega, by omega, by omega⟩

theorem admits_planLimits (hp : problem.Admitted) (h : Accepted problem plan) :
    Admits (planLimits problem).value plan.steps ∧
      4 + (plan.steps.map rowNodes).sum ≤ (planLimits problem).value.maxNodes.toNat := by
  have hs := sizes hp
  have hmax : Finite.maxPolicyBytes = 16777216 := rfl
  have hcollection : (planLimits problem).value.maxCollectionLen.toNat =
      max (max problem.states problem.commandDomains.length) 3 :=
    UInt32.toNat_ofNat_of_lt' (lt_of_le_of_lt hs.collection (by decide))
  have hnodes : (planLimits problem).value.maxNodes.toNat =
      4 + problem.states * (3 + problem.commandDomains.length) :=
    UInt64.toNat_ofNat_of_lt' (lt_of_le_of_lt hs.nodes (by decide))
  refine ⟨⟨le_of_eq rfl, ?_, ?_, fun s hs => ?_, le_of_eq rfl⟩, ?_⟩
  · rw [hcollection]
    exact le_max_right _ _
  · rw [hcollection, h.length]
    exact le_max_of_le_left (le_max_left _ _)
  · rw [hcollection]
    exact (h.fields s hs).trans (le_max_of_le_left (le_max_right _ _))
  · rw [hnodes]
    exact planNodes_le h

theorem Accepted.valid (hp : problem.Admitted) (h : Accepted problem plan) :
    Valid (planTree plan.problemHash plan.steps) := by
  have hs := sizes hp
  have hsmall := hp.small
  have hmax : Finite.maxPolicyBytes = 16777216 := rfl
  have hinputs : maxInputs = 65536 := rfl
  have hu32 : u32Max = 4294967295 := rfl
  have hfields := hs.fields
  refine valid_planTree (by have := h.length; omega) fun s hsteps => ?_
  have hrow := h.fields s hsteps
  omega

/-- **Import.** The derived limits admit every accepted plan: its bytes are imported as what its check returns. -/
theorem verifyCompletionBytes_wire (hp : problem.Admitted) (h : Accepted problem plan) :
    verifyCompletionBytes problem (wire (planTree plan.problemHash plan.steps)) = verifyCompletion problem plan := by
  have hs := sizes hp
  have hcollection : max (max problem.states problem.commandDomains.length) 3 ≤ u32Max :=
    hs.collection.trans (by decide)
  obtain ⟨hadmits, hnodes⟩ := admits_planLimits hp h
  obtain ⟨m, hm⟩ : ∃ m, (planTree plan.problemHash plan.steps).validateLimits (planLimits problem).value = .ok m :=
    (validateLimits_planTree hadmits).2 hnodes
  have hbytes : (planLimits problem).maxInputBytes.toNat = problem.planByteLimit :=
    UInt64.toNat_ofNat_of_lt' (lt_of_le_of_lt hp.bounded (by decide))
  have hdecode : decodeValue (wire (planTree plan.problemHash plan.steps)) (planLimits problem) =
      .ok (planTree plan.problemHash plan.steps) :=
    decodeValue_eq_ok.2 ⟨m, decodeValueWithMetrics_eq_ok.2 ⟨hbytes ▸ fits_wire hp h, h.valid hp, rfl, hm⟩⟩
  rw [verifyCompletionBytes, if_neg (not_lt.2 hcollection), hdecode]
  exact importPlan_planTree h

theorem verifyCompletionBytes_eq_ok (h : verifyCompletionBytes problem bytes = .ok completion) :
    ∃ plan, bytes = wire (planTree plan.problemHash plan.steps) ∧ verifyCompletion problem plan = .ok completion := by
  unfold verifyCompletionBytes at h
  split_ifs at h
  obtain ⟨v, hv, himport⟩ := bind_eq_ok.1 h
  obtain ⟨_, rfl⟩ := decodeValue_wire (mapError_eq_ok.1 hv)
  obtain ⟨plan, rfl, hplan⟩ := importPlan_eq_ok himport
  exact ⟨plan, rfl, hplan⟩

/-- **Encoding.** The bytes of a completion exist exactly when its plan has at most a million nodes. -/
theorem canonicalBytes_iff (hp : problem.Admitted)
    (h : Accepted problem completion.plan) :
    completion.canonicalBytes = .ok bytes ↔
      bytes = wire (planTree completion.plan.problemHash completion.plan.steps) ∧
        planNodes completion.plan ≤ 1000000 := by
  have hs := sizes hp
  have hsmall := hp.small
  have hfew := hs.fields
  have hadmits : Admits .default completion.plan.steps :=
    ⟨by decide, by decide, by rw [h.length]; exact hsmall.trans (by decide),
      fun s hsteps => ((h.fields s hsteps).trans hfew).trans (by decide), by decide⟩
  have hlen : (wire (planTree completion.plan.problemHash completion.plan.steps)).length ≤ usizeMax :=
    ((fits_wire hp h).trans hp.bounded).trans (by decide)
  have hvalid := h.valid hp
  have hvalue : planValue completion.plan.problemHash completion.plan.steps =
      .ok (planTree completion.plan.problemHash completion.plan.steps) := by
    refine planValue_eq ?_ fun s hsteps => ?_
    · rw [h.length]
      exact hsmall.trans (by decide)
    · exact ((h.fields s hsteps).trans hfew).trans (by decide)
  rw [VerifiedCompletion.canonicalBytes, hvalue]
  change (Value.canonicalBytes _).mapError encodeFailure = .ok bytes ↔ _
  rw [mapError_eq_ok, Value.canonicalBytes, canonicalValueBytesWithLimits, mapError_eq_ok, hvalid.zcveBytesWithLimits,
    validateLimits_planTree hadmits]
  constructor
  · rintro ⟨hnodes, rfl, -⟩
    exact ⟨rfl, hnodes⟩
  · rintro ⟨rfl, hnodes⟩
    exact ⟨hnodes, rfl, hlen⟩

/-- **Completion bytes.** An accepted plan has canonical bytes, imported as the same plan, exactly when it has at most a
million nodes. An import returns a plan bound to the problem; its bytes are the canonical ones under that condition. -/
theorem completion_bytes {identity : Program → Program → CompletionLimits → Except CompletionError Hash32}
    {step terminal : Program} {limits : CompletionLimits}
    (h : CompletionProblem.tryNew identity step terminal limits = .ok problem) :
    (∀ plan completion, verifyCompletion problem plan = .ok completion →
      ((∃ bytes imported, completion.canonicalBytes = .ok bytes ∧ verifyCompletionBytes problem bytes = .ok imported ∧
        imported.plan = plan) ↔ planNodes plan ≤ 1000000)) ∧
    ∀ bytes completion, verifyCompletionBytes problem bytes = .ok completion →
      completion.plan.problemHash = problem.problemHash ∧
      (completion.canonicalBytes = .ok bytes ↔ planNodes completion.plan ≤ 1000000) := by
  have hp := CompletionProblem.admitted_of_tryNew h
  constructor
  · intro plan completion hverified
    obtain ⟨haccepted, rfl⟩ := accepted_of_verifyCompletion hp hverified
    constructor
    · rintro ⟨bytes, imported, hbytes, -⟩
      exact ((canonicalBytes_iff hp haccepted).1 hbytes).2
    · intro hnodes
      exact ⟨_, completion, (canonicalBytes_iff hp haccepted).2 ⟨rfl, hnodes⟩,
        (verifyCompletionBytes_wire hp haccepted).trans hverified, rfl⟩
  · intro bytes completion himport
    obtain ⟨plan, rfl, hverified⟩ := verifyCompletionBytes_eq_ok himport
    obtain ⟨haccepted, rfl⟩ := accepted_of_verifyCompletion hp hverified
    exact ⟨haccepted.binding, (canonicalBytes_iff hp haccepted).trans (and_iff_right rfl)⟩

end Admitted

/-! ## An accepted plan without bytes -/

def zero128 : I128 := ⟨0, I128.lo_zero, I128.hi_zero⟩

def last128 : I128 := ⟨65535, by norm_num, by norm_num⟩

/-- 65,536 states of one field, thirteen command fields of one value each; every command leads to state 0 -/
def resetStep : Program where
  inputs := .int zero128 last128 :: List.replicate 13 (.int zero128 zero128)
  outputs := [.bool, .int zero128 last128]
  nodes := [.bool true, .int zero128]
  roots := [0, 1]
  validated := .inl (by decide)

def resetTerminal : Program where
  inputs := [.int zero128 last128]
  outputs := [.bool]
  nodes := [.input 0, .int zero128, .eq 0 1]
  roots := [2]
  validated := .inl (by decide)

def resetProblem : CompletionProblem := ⟨resetStep, resetTerminal, 65536, 1, 16253007, .zero⟩

theorem tryNew_reset : CompletionProblem.tryNew (fun _ _ _ => .ok .zero) resetStep resetTerminal
    ⟨65536, 100000000, 4096, 4096, 16777216⟩ = .ok resetProblem := by
  have hstates : Space.tryNew resetStep.outputs.tail maxInputs =
      .ok ⟨resetStep.outputs.tail, some [zero128], 65536⟩ := rfl
  have hcommands : Space.tryNew (resetStep.inputs.drop resetStep.outputs.tail.length) maxInputs =
      .ok ⟨List.replicate 13 (.int zero128 zero128), some (List.replicate 13 zero128), 1⟩ := rfl
  have hdrop : resetStep.inputs.drop resetStep.outputs.tail.length = List.replicate 13 (.int zero128 zero128) := rfl
  have hstateSize : domainTupleSize resetStep.outputs.tail = .ok 22 := domainTupleSize_of (by decide)
  have hcommandSize : domainTupleSize (List.replicate 13 (.int zero128 zero128)) = .ok 226 :=
    domainTupleSize_of (by decide)
  have hrow : tuple [.u128 0] = .ok (.tuple [.u128 0]) := rfl
  have hrowSize : valueSize (.tuple [.u128 0]) = .ok 22 :=
    valueSize_of (.tuple (show 1 ≤ u32Max by decide) fun v hv => by rw [List.mem_singleton.1 hv]; exact .u128 _)
      ⟨_, rfl⟩ (show 22 ≤ usizeMax by decide)
  have hplan : planValue .zero [] = .ok (planTree .zero []) :=
    planValue_eq (Nat.zero_le _) fun s hs => absurd hs List.not_mem_nil
  have hplanSize : valueSize (planTree .zero []) = .ok 79 := by
    have hwire : (wire (planTree .zero [])).length = 79 := length_wire_planTree
    have hm : ∃ m, (planTree .zero []).validateLimits .default = .ok m := (validateLimits_planTree
      ⟨by decide, by decide, Nat.zero_le _, fun s hs => absurd hs List.not_mem_nil, by decide⟩).2 (by decide)
    rw [valueSize_of (valid_planTree (Nat.zero_le _) fun s hs => absurd hs List.not_mem_nil) hm
      (hwire ▸ (by decide)), hwire]
  unfold CompletionProblem.tryNew
  dsimp only
  rw [if_neg (by decide), if_neg (by decide), hstates, hcommands, hdrop]
  simp only [Except.mapError, ok_bind]
  rw [if_neg (by decide), hstateSize, hcommandSize, hrow, hplan]
  simp only [ok_bind]
  rw [hrowSize, hplanSize]
  simp only [ok_bind]
  have hrequire {resource : String} {n declared : ℕ} (h : n ≤ declared) : require resource n declared = .ok () :=
    require_eq_ok.2 h
  rw [hrequire (by decide), ok_bind, hrequire (by decide), ok_bind, hrequire (by decide), ok_bind,
    hrequire (by decide), ok_bind, hrequire (by decide), ok_bind]
  rfl

/-- state 0 is terminal; every other state resets in one step -/
def resetPlan : CompletionPlan := ⟨.zero, ⟨0, []⟩ :: List.replicate 65535 ⟨1, List.replicate 13 zero128⟩⟩

theorem planNodes_replicate (hash : Hash32) (first row : CompletionStep) (n : ℕ) :
    planNodes ⟨hash, first :: List.replicate n row⟩ = 4 + (rowNodes first + n * rowNodes row) := by
  rw [planNodes, List.map_cons, List.map_replicate, List.sum_cons, List.sum_replicate_nat]

theorem planNodes_resetPlan : planNodes resetPlan = 1048567 := planNodes_replicate _ _ _ _

theorem evaluateNode_reset (v : I128) : evaluateNode (.eq 0 1) [v] [v, zero128] =
    match Typed.project (Typed.boolean (χ := Empty) .legacyInteger01 (decide (v = zero128))) with
    | some value => .ok value
    | none => .error .arithmetic := rfl

theorem evaluateNodesLoop_reset (v : I128) : evaluateNodesLoop [v] resetTerminal.nodes [] =
    match evaluateNode (.eq 0 1) [v] [v, zero128] with
    | .ok value => evaluateNodesLoop [v] [] [v, zero128, value]
    | .error error => (.error error, [v, zero128]) := rfl

theorem resetTerminal_eq {v : I128} (h : admitted resetTerminal.inputs [v] = true) :
    isTerminal resetProblem [v] = .ok (decide (v = zero128)) := by
  by_cases hv : v = zero128
  · subst hv
    rfl
  have heq : evaluateNode (.eq 0 1) [v] [v, zero128] = .ok zero128 := by
    rw [evaluateNode_reset, decide_eq_false hv]
    rfl
  have hnodes : evaluateNodesLoop [v] resetTerminal.nodes [] = (.ok (), [v, zero128, zero128]) := by
    rw [evaluateNodesLoop_reset, heq]
    rfl
  have heval : resetTerminal.evaluate [v] = .ok [zero128] := by
    rw [Program.evaluate, Program.evaluateInto, Finite.evaluateInto, evaluateNodes, if_pos h, hnodes]
    rfl
  rw [isTerminal, resetProblem, evaluateProgram, heval, decide_eq_false hv]
  rfl

theorem resetStep_eq {v : I128} (h : admitted resetTerminal.inputs [v] = true) :
    successorIndex resetProblem [v] (List.replicate 13 zero128) = .ok (some 0) := by
  have hadmitted : admitted resetStep.inputs ([v] ++ List.replicate 13 zero128) = true := by
    rw [admitted, Bool.and_eq_true] at h ⊢
    have hv : Domain.contains (.int zero128 last128) v = true := (Bool.and_eq_true _ _ ▸ h.2).1
    refine ⟨rfl, ?_⟩
    change (Domain.contains (.int zero128 last128) v && (List.zipWith Domain.contains
      (List.replicate 13 (.int zero128 zero128)) (List.replicate 13 zero128)).all id) = true
    rw [hv]
    rfl
  have heval : resetStep.evaluate ([v] ++ List.replicate 13 zero128) =
      .ok [⟨1, I128.lo_one, I128.hi_one⟩, zero128] := by
    rw [Program.evaluate, Program.evaluateInto, Finite.evaluateInto, evaluateNodes, if_pos hadmitted]
    rfl
  rw [successorIndex, resetProblem, evaluateProgram, heval]
  rfl

theorem commandTuples_reset : resetProblem.commandTuples = .ok [List.replicate 13 zero128] := rfl

theorem checkRow_zero : checkRow resetProblem resetPlan 0 [zero128] = .ok () := by
  rw [checkRow, resetTerminal_eq (by decide), commandTuples_reset]
  simp only [ok_bind]
  rw [if_neg (by decide), if_neg (by decide), selectTarget, resetStep_eq (by decide)]
  rfl

theorem checkRow_succ {v : I128} (h : admitted resetTerminal.inputs [v] = true) (hv : v ≠ zero128) {i : ℕ}
    (hi : i < 65535) : checkRow resetProblem resetPlan (i + 1) [v] = .ok () := by
  have hrow : rowAt resetPlan (i + 1) = ⟨1, List.replicate 13 zero128⟩ := by
    rw [rowAt, resetPlan, List.getD_cons_succ, List.getD_replicate (h := hi)]
  rw [checkRow, resetTerminal_eq h, hrow, commandTuples_reset, decide_eq_false hv]
  simp only [ok_bind]
  rw [if_neg (by decide), if_neg (by decide), selectTarget, resetStep_eq h]
  rfl

theorem verifyCompletion_reset : ∃ completion, verifyCompletion resetProblem resetPlan = .ok completion ∧
    completion.plan = resetPlan := by
  have hp := CompletionProblem.admitted_of_tryNew tryNew_reset
  have hlen : resetPlan.steps.length = resetProblem.states := by
    rw [resetPlan, List.length_cons, List.length_replicate]
    rfl
  obtain ⟨rest, hrest⟩ := (Space.visits_tuples hp.valid).exists_cons
  have hfirst : Space.first resetProblem.stateDomains = [zero128] := rfl
  rw [hfirst] at hrest
  have hnodup := Space.nodup_tuples hp.valid
  have hcount := hp.states
  rw [hrest, List.length_cons] at hcount
  have hlast : rest.length = 65535 := (Nat.add_right_cancel (show 65535 + 1 = rest.length + 1 from hcount)).symm
  rw [hrest, List.nodup_cons] at hnodup
  have hrows : checkRows resetProblem resetPlan 0 (Space.tuples resetProblem.stateDomains) = .ok () := by
    rw [hrest, checkRows_eq_ok]
    intro i hi
    cases i with
    | zero => exact checkRow_zero
    | succ i =>
      have hlt : i < rest.length := Nat.lt_of_succ_lt_succ hi
      have hmem : rest[i] ∈ Space.tuples resetProblem.stateDomains := by
        rw [hrest]
        exact List.mem_cons_of_mem _ (List.getElem_mem hlt)
      have hin := (Space.mem_tuples hp.valid).1 hmem
      have hone : rest[i].length = 1 := by
        rw [admitted, Bool.and_eq_true, decide_eq_true_eq] at hin
        exact hin.1.symm
      obtain ⟨v, hv⟩ := List.length_eq_one_iff.1 hone
      have hne : v ≠ zero128 := by
        rintro rfl
        exact hnodup.1 (hv ▸ List.getElem_mem hlt)
      rw [Nat.zero_add, List.getElem_cons_succ, hv]
      exact checkRow_succ (hv ▸ hin) hne (hlast ▸ hlt)
  refine ⟨⟨resetPlan, resetProblem.stateDomains⟩, ?_, rfl⟩
  have hbinding : resetPlan.problemHash = resetProblem.problemHash := rfl
  rw [verifyCompletion, if_neg (not_not.2 hbinding), if_neg (not_not.2 hlen), stateTuples_eq hp, ok_bind, hrows]
  rfl

/-- an accepted plan without canonical bytes -/
theorem completion_bytes_missing : ∃ problem plan completion,
    CompletionProblem.tryNew (fun _ _ _ => .ok .zero) resetStep resetTerminal
      ⟨65536, 100000000, 4096, 4096, 16777216⟩ = .ok problem ∧
    verifyCompletion problem plan = .ok completion ∧ ∀ bytes, completion.canonicalBytes ≠ .ok bytes := by
  obtain ⟨completion, hverified, hplan⟩ := verifyCompletion_reset
  have hp := CompletionProblem.admitted_of_tryNew tryNew_reset
  obtain ⟨haccepted, -⟩ := accepted_of_verifyCompletion hp hverified
  refine ⟨resetProblem, resetPlan, completion, tryNew_reset, hverified, fun bytes hbytes => ?_⟩
  rw [← hplan] at haccepted
  have hnodes := ((canonicalBytes_iff hp haccepted).1 hbytes).2
  rw [hplan, planNodes_resetPlan] at hnodes
  omega

def clearStep : Program where
  inputs := [.bool]
  outputs := [.bool, .bool]
  nodes := [.bool true, .bool false]
  roots := [0, 1]
  validated := .inl (by decide)

def clearTerminal : Program where
  inputs := [.bool]
  outputs := [.bool]
  nodes := [.input 0, .not 0]
  roots := [1]
  validated := .inl (by decide)

def clearProblem : CompletionProblem := ⟨clearStep, clearTerminal, 2, 1, 133, .zero⟩

def clearPlan : CompletionPlan := ⟨.zero, [⟨0, []⟩, ⟨1, []⟩]⟩

theorem completion_bytes_clear : ∃ bytes imported,
    VerifiedCompletion.canonicalBytes ⟨clearPlan, [.bool]⟩ = .ok bytes ∧
    verifyCompletionBytes clearProblem bytes = .ok imported ∧ imported.plan = clearPlan ∧
    imported.canonicalBytes = .ok bytes := by
  have htry : CompletionProblem.tryNew (fun _ _ _ => .ok .zero) clearStep clearTerminal
      ⟨65536, 100000000, 4096, 4096, 4194304⟩ = .ok clearProblem := rfl
  have hverified : verifyCompletion clearProblem clearPlan = .ok ⟨clearPlan, [.bool]⟩ := rfl
  obtain ⟨hplan, hbytes⟩ := completion_bytes htry
  obtain ⟨bytes, imported, hencoded, himport, himported⟩ := (hplan _ _ hverified).2 (by decide)
  exact ⟨bytes, imported, hencoded, himport, himported, (hbytes _ _ himport).2.2 (himported ▸ (by decide))⟩

end ZenoFcis.Finite
