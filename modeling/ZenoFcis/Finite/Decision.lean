/-
Construction of complete decisions (`zeno-fcis-synthesis/src/finite/execution_v2/decision.rs`, with the admission of
values of `finite/value/mod.rs`). Results:
- `equal_iff`: the comparison behind a patch is equality;
- `runs_assignments`, `runs_deliveries`: the runs of the two loops, charge by charge;
- `construct_exact`: a decision is constructed exactly when every part of its branch is, and then it is the one declared.

The meter and the recorded attempts survive a failure.
-/
import ZenoFcis.Finite.Typed
import ZenoFcis.Lib.Runs
import ZenoFcis.Oracle.Meter

namespace ZenoFcis.Finite.Decision

open Lib
open Lib.Except (exists_forall₂)
open Oracle (Resource MeterFailure Meter)

/-! ## Values -/

/-- canonical value bytes admitted against their schema type -/
structure CanonicalValue where
  schema : Bytes
  typeId : UInt32
  wire : Bytes
deriving DecidableEq

/-- the leaves that no instruction computes with -/
inductive Leaf where
  | canonical (value : CanonicalValue)
  | enum (typeId : UInt32) (variant : UInt16)
  | sum (typeId : UInt32) (variant : UInt16)
  | bytes (data : Bytes)
  | text (data : Bytes)
deriving DecidableEq

/-- a complete typed value -/
abbrev Value := Finite.Atom Leaf

/-- the allowed values of a slot -/
inductive Domain where
  | canonical (schema : Bytes) (typeId : UInt32)
  | bool
  | i128 (min max : I128)
  | u128 (min max : U128)
  | enum (typeId : UInt32) (variants : List UInt16)
  | sum (typeId : UInt32) (variants : List UInt16)
  | bytes
  | text

def admitted : Domain → Value → Bool
  | .canonical schema typeId, .other (.canonical v) => typeId == v.typeId && schema == v.schema
  | .bool, .bool _ => true
  | .bytes, .other (.bytes _) => true
  | .text, .other (.text _) => true
  | .i128 min max, .i128 v => min.val ≤ v.val && v.val ≤ max.val
  | .u128 min max, .u128 v => min.toNat ≤ v.toNat && v.toNat ≤ max.toNat
  | .enum typeId variants, .other (.enum t variant) => typeId == t && variants.contains variant
  | .sum typeId variants, .other (.sum t variant) => typeId == t && variants.contains variant
  | _, _ => false

def equal : Value → Value → Bool
  | .other (.canonical a), .other (.canonical b) => a.typeId == b.typeId && a.schema == b.schema && a.wire == b.wire
  | .bool a, .bool b => a == b
  | .i128 a, .i128 b => a == b
  | .u128 a, .u128 b => a == b
  | .other (.enum a x), .other (.enum b y) => a == b && x == y
  | .other (.sum a x), .other (.sum b y) => a == b && x == y
  | .other (.bytes a), .other (.bytes b) => a == b
  | .other (.text a), .other (.text b) => a == b
  | _, _ => false

/-! ## Inputs and plans -/

structure Field where
  id : UInt16
  value : Value
deriving DecidableEq

inductive Source where
  | state
  | command
  | context
deriving DecidableEq

/-- one scalar or a record -/
inductive RootView where
  | leaf (value : Value)
  | record (fields : List Field)

structure Inputs where
  state : List Field
  command : RootView
  context : RootView

/-- a closed expression over the inputs and the outputs of the graph -/
inductive Expr where
  | input (source : Source) (field : UInt16)
  | root (source : Source)
  | output (index : ℕ)
  | constant (value : Value)

structure Assignment where
  field : UInt16
  value : Expr
  domain : Domain

structure PayloadField where
  field : UInt16
  value : Expr

structure DeliveryPlan where
  ordinal : UInt32
  channel : UInt32
  when : Expr
  destination : Expr
  payload : List PayloadField
  idempotency : Expr

inductive Class where
  | accept
  | reject
  | committedFailure
deriving DecidableEq

/-- a branch that the code of the graph selects -/
structure Branch where
  code : I128
  class' : Class
  reason : Option UInt32
  assignments : List Assignment
  effects : List DeliveryPlan
  outbox : List DeliveryPlan

/-! ## Decisions -/

/-- one change of the state -/
structure Patch where
  field : UInt16
  before : Value
  after : Value
deriving DecidableEq

structure Delivery where
  ordinal : UInt32
  channel : UInt32
  destination : Value
  payload : List Field
  idempotency : Value
deriving DecidableEq

structure Candidate where
  class' : Class
  reason : Option UInt32
  pre : List Field
  post : List Field
  patch : List Patch
  effects : List Delivery
  outbox : List Delivery
deriving DecidableEq

/-- an attempt of protected work, with its permission -/
inductive Attempt where
  | candidate (allowed : Bool)
  | write (field : UInt16) (allowed : Bool)
  | effect (outbox : Bool) (ordinal : UInt32) (allowed : Bool)
deriving DecidableEq

inductive Failure where
  | inputOrder
  | branch
  | reason
  | rejectPlan
  | successor
  | reference
  | domain
  | delivery
  | budget (failure : MeterFailure)
deriving DecidableEq

/-- the meter and the attempts so far -/
structure Account where
  meter : Meter
  attempts : List Attempt

abbrev Work := Attempting Failure Account

/-- one unit of a resource; the attempt is recorded before a refusal is reported -/
def attempt (resource : Resource) (entry : Bool → Attempt) : Work Unit := ExceptT.mk fun account =>
  match account.meter.charge resource 1 with
  | .ok meter => (.ok (), ⟨meter, account.attempts ++ [entry true]⟩)
  | .error failure => (.error (.budget failure), { account with attempts := account.attempts ++ [entry false] })

/-! ## Construction -/

/-- the identifiers increase -/
def ordered (fields : List Field) : Bool := decide ((fields.map fun f => f.id.toNat).IsChain (· < ·))

def lookup (fields : List Field) (id : UInt16) : Option Value := (fields.find? (·.id == id)).map Field.value

def orderedValue : RootView → Bool
  | .leaf _ => true
  | .record fields => ordered fields

def lookupValue (view : RootView) (id : UInt16) : Option Value :=
  match view with
  | .leaf _ => none
  | .record fields => lookup fields id

def rootValue : RootView → Option Value
  | .leaf value => some value
  | .record _ => none

def resolve (inputs : Inputs) (output : List Value) : Expr → Option Value
  | .input .state id => lookup inputs.state id
  | .input .command id => lookupValue inputs.command id
  | .input .context id => lookupValue inputs.context id
  | .root .state => none
  | .root .command => rootValue inputs.command
  | .root .context => rootValue inputs.context
  | .output i => output[i]?
  | .constant value => some value

/-- the branch of the code, when the codes increase -/
def selectBranch (branches : List Branch) (code : I128) : Option Branch :=
  go none none branches
where
  go (previous found : Option Branch) : List Branch → Option Branch
    | [] => found
    | branch :: rest =>
      if previous.any fun p => branch.code.val ≤ p.code.val then none
      else go (some branch) (if branch.code = code then some branch else found) rest

def reasonValid : Class → Option UInt32 → Bool
  | .accept, none => true
  | .reject, some r | .committedFailure, some r => r != 0
  | _, _ => false

section Construction

variable (inputs : Inputs) (output : List Value)

instance decidableAbove {α : Type} [LT α] [DecidableLT α] (previous : Option α) (x : α) :
    Decidable (∀ p ∈ previous, p < x) := inferInstance

def payload (previous : Option UInt16) : List PayloadField → Except Failure (List Field)
  | [] => .ok []
  | entry :: rest => do
    Lib.Except.ensure (∀ p ∈ previous, p < entry.field) .delivery
    match resolve inputs output entry.value with
    | none => .error .reference
    | some value => return ⟨entry.field, value⟩ :: (← payload (some entry.field) rest)

/-- one assignment behind the fields and the changes so far -/
def assign (done : List Field × List Patch) (entry : Assignment × Field) : Work (List Field × List Patch) := do
  let (plan, pre) := entry
  Attempting.demand (plan.field = pre.id) .successor
  attempt .write (.write plan.field)
  let value ← Attempting.okOr (resolve inputs output plan.value) .reference
  Attempting.demand (admitted plan.domain pre.value ∧ admitted plan.domain value) .domain
  return (done.1 ++ [⟨plan.field, value⟩],
    if equal pre.value value then done.2 else done.2 ++ [⟨plan.field, pre.value, value⟩])

def assignments (plan : List Assignment) : Work (List Field × List Patch) := do
  Attempting.demand (plan.length = inputs.state.length) .successor
  (plan.zip inputs.state).foldlM (assign inputs output) ([], [])

/-- whether a delivery is emitted -/
def enabled (entry : DeliveryPlan) : Option Bool :=
  match resolve inputs output entry.when with
  | some (.bool b) => some b
  | _ => none

/-- one emitted delivery -/
def deliver (outbox : Bool) (entry : DeliveryPlan) : Work Delivery := do
  attempt .effect (.effect outbox entry.ordinal)
  let destination ← Attempting.okOr (resolve inputs output entry.destination) .reference
  let idempotency ← Attempting.okOr (resolve inputs output entry.idempotency) .reference
  let fields ← Attempting.ofExcept (payload inputs output none entry.payload)
  return ⟨entry.ordinal, entry.channel, destination, fields, idempotency⟩

def deliveries (outbox : Bool) (previous : Option UInt32) : List DeliveryPlan → Work (List Delivery)
  | [] => pure []
  | entry :: rest => do
    Attempting.demand (entry.channel ≠ 0 ∧ ∀ p ∈ previous, p < entry.ordinal) .delivery
    let b ← Attempting.okOr (enabled inputs output entry) .domain
    if b then
      let delivery ← deliver inputs output outbox entry
      return delivery :: (← deliveries outbox (some entry.ordinal) rest)
    else deliveries outbox (some entry.ordinal) rest

def construct (code : I128) (branches : List Branch) : Work Candidate := do
  Attempting.demand (ordered inputs.state ∧ orderedValue inputs.command ∧ orderedValue inputs.context) .inputOrder
  attempt .candidate .candidate
  let branch ← Attempting.okOr (selectBranch branches code) .branch
  Attempting.demand (reasonValid branch.class' branch.reason) .reason
  if branch.class' = .reject then
    Attempting.demand (branch.assignments = [] ∧ branch.effects = [] ∧ branch.outbox = []) .rejectPlan
    return ⟨branch.class', branch.reason, inputs.state, [], [], [], []⟩
  else
    let (post, patch) ← assignments inputs output branch.assignments
    let effects ← deliveries inputs output false none branch.effects
    let outbox ← deliveries inputs output true none branch.outbox
    return ⟨branch.class', branch.reason, inputs.state, post, patch, effects, outbox⟩

end Construction

/-! ## Comparison and selection -/

theorem equal_iff {a b : Value} : equal a b = true ↔ a = b := by
  cases a with
  | bool => cases b <;> simp [equal]
  | i128 => cases b <;> simp [equal]
  | u128 => cases b <;> simp [equal]
  | other x =>
    cases b with
    | bool | i128 | u128 => simp [equal]
    | other y =>
      cases x <;> cases y <;> simp [equal]
      next v w =>
        rcases v with ⟨schema, typeId, wire⟩
        rcases w with ⟨schema', typeId', wire'⟩
        simp only [CanonicalValue.mk.injEq]
        tauto

/-- the codes of the branches increase and the code is one of them -/
structure Chosen (branches : List Branch) (code : I128) (branch : Branch) : Prop where
  increasing : (branches.map fun b => b.code.val).IsChain (· < ·)
  mem : branch ∈ branches
  code_eq : branch.code = code

theorem selectBranch_go {code : I128} {previous found : Option Branch} {l : List Branch} {b : Branch} :
    selectBranch.go code previous found l = some b ↔
      ((previous.map fun p => p.code.val).toList ++ l.map fun b => b.code.val).IsChain (· < ·) ∧
        (l.reverse.find? (·.code = code)).or found = some b := by
  induction l generalizing previous found with
  | nil => cases previous <;> simp [selectBranch.go]
  | cons x l ih =>
    have hlast : ((x :: l).reverse.find? (·.code = code)).or found =
        (l.reverse.find? (·.code = code)).or (if x.code = code then some x else found) := by
      rw [List.reverse_cons, List.find?_append, Option.or_assoc]
      by_cases hx : x.code = code <;> simp [hx]
    rw [selectBranch.go, hlast]
    cases previous with
    | none =>
      simp only [Option.any_none, Bool.false_eq_true, if_false, ih]
      rfl
    | some p =>
      simp only [Option.any_some, decide_eq_true_eq, Option.map_some, Option.toList_some, List.map_cons,
        List.cons_append, List.nil_append, List.isChain_cons_cons]
      by_cases hle : x.code.val ≤ p.code.val
      · simp [hle, not_lt.2 hle]
      · rw [if_neg hle, ih]
        simp [not_le.1 hle]

theorem selectBranch_iff {branches : List Branch} {code : I128} {branch : Branch} :
    selectBranch branches code = some branch ↔ Chosen branches code branch := by
  unfold selectBranch
  rw [selectBranch_go, Option.or_none]
  constructor
  · rintro ⟨hchain, hfind⟩
    exact ⟨hchain, List.mem_reverse.1 (List.mem_of_find?_eq_some hfind), by simpa using List.find?_some hfind⟩
  · rintro ⟨hchain, hmem, hcode⟩
    refine ⟨hchain, ?_⟩
    have hnodup : (branches.map fun b => b.code.val).Nodup := (List.isChain_iff_pairwise.1 hchain).imp fun h => h.ne
    cases hfind : branches.reverse.find? (·.code = code) with
    | none =>
      have h := List.find?_eq_none.1 hfind branch (List.mem_reverse.2 hmem)
      simp [hcode] at h
    | some b =>
      have hb : b.code = code := by simpa using List.find?_some hfind
      have hin := List.mem_reverse.1 (List.mem_of_find?_eq_some hfind)
      rw [List.inj_on_of_nodup_map hnodup hin hmem (by rw [hb, hcode])]

/-! ## Charges -/

/-- there is room for so many units -/
def Room (m : Meter) (resource : Resource) (n : ℕ) : Prop :=
  n = 0 ∨ m.used resource + n ≤ u64Max ∧ m.used resource + n ≤ m.limits resource

/-- the account behind attempts that were all allowed -/
def Account.paid (a : Account) (resource : Resource) (entries : List Attempt) : Account :=
  ⟨{ a.meter with used := Function.update a.meter.used resource (a.meter.used resource + entries.length) },
    a.attempts ++ entries⟩

theorem paid_nil (a : Account) (resource : Resource) : a.paid resource [] = a := by
  unfold Account.paid
  simp

theorem paid_append (a : Account) (resource : Resource) (l l' : List Attempt) :
    (a.paid resource l).paid resource l' = a.paid resource (l ++ l') := by
  unfold Account.paid
  simp [Nat.add_assoc]

theorem room_append {a : Account} {r : Resource} {l : List Attempt} {n : ℕ} :
    Room a.meter r l.length ∧ Room (a.paid r l).meter r n ↔ Room a.meter r (l.length + n) := by
  unfold Room Account.paid
  simp only [Function.update_self]
  omega

theorem room_paid {a : Account} {resource : Resource} {entry : Attempt} {n : ℕ} :
    Room a.meter resource 1 ∧ Room (a.paid resource [entry]).meter resource n ↔ Room a.meter resource (n + 1) := by
  have h := room_append (a := a) (r := resource) (l := [entry]) (n := n)
  rwa [List.length_singleton, Nat.add_comm] at h

theorem room_other {a : Account} {resource resource' : Resource} {l : List Attempt} {n : ℕ} (h : resource' ≠ resource) :
    Room (a.paid resource l).meter resource' n ↔ Room a.meter resource' n := by
  unfold Room Account.paid
  simp only [Function.update_of_ne h]

theorem runs_attempt {resource : Resource} {entry : Bool → Attempt} {a a' : Account} {u : Unit} :
    Runs (attempt resource entry) a u a' ↔ Room a.meter resource 1 ∧ a' = a.paid resource [entry true] := by
  have hrun : Runs (attempt resource entry) a u a' ↔ (match a.meter.charge resource 1 with
      | .ok meter => (.ok (), ⟨meter, a.attempts ++ [entry true]⟩)
      | .error failure => (.error (.budget failure), { a with attempts := a.attempts ++ [entry false] }) :
        Except Failure Unit × Account) = (.ok u, a') := Iff.rfl
  rw [hrun]
  unfold Meter.charge Room Account.paid
  dsimp only
  split_ifs with hover hlimit
  · simp
    omega
  · simp
    omega
  · simp only [Prod.mk.injEq, true_and, List.length_singleton, false_or]
    constructor
    · intro h
      exact ⟨by omega, h.symm⟩
    · intro h
      exact h.2.symm

/-! ## Assignments -/

section Loops

variable {inputs : Inputs} {output : List Value}

/-- what an assignment makes of a field -/
structure Assigns (inputs : Inputs) (output : List Value) (entry : Assignment × Field) (f : Field) : Prop where
  field : entry.1.field = entry.2.id
  id : f.id = entry.2.id
  value : resolve inputs output entry.1.value = some f.value
  before : admitted entry.1.domain entry.2.value = true
  after : admitted entry.1.domain f.value = true

/-- the entry of a patch for a field, when its value differs -/
def change (entry : Field × Field) : Option Patch :=
  if entry.1.value = entry.2.value then none else some ⟨entry.1.id, entry.1.value, entry.2.value⟩

/-- the patch from one state to another -/
def changes (pre post : List Field) : List Patch := (pre.zip post).filterMap change

/-- the attempts of so many assignments -/
def writes (entries : List (Assignment × Field)) : List Attempt := entries.map fun e => .write e.1.field true

variable {done out : List Field × List Patch} {a a' : Account} {previous : Option UInt32}

theorem runs_assign {entry : Assignment × Field} :
    Runs (assign inputs output done entry) a out a' ↔ Room a.meter .write 1 ∧ a' = a.paid .write (writes [entry]) ∧
      ∃ f, Assigns inputs output entry f ∧ out = (done.1 ++ [f], done.2 ++ (change (entry.2, f)).toList) := by
  rcases entry with ⟨plan, pre⟩
  unfold assign
  simp only [Runs.bind_iff, Runs.demand_iff, Runs.okOr_iff, Runs.pure_iff, runs_attempt]
  constructor
  · rintro ⟨_, _, ⟨hfield, rfl⟩, _, _, ⟨hroom, rfl⟩, value, _, ⟨hvalue, rfl⟩, _, _, ⟨⟨hbefore, hafter⟩, rfl⟩, rfl, rfl⟩
    refine ⟨hroom, rfl, ⟨plan.field, value⟩, ⟨hfield, hfield, hvalue, hbefore, hafter⟩, ?_⟩
    unfold change
    by_cases heq : pre.value = value
    · simp [heq, equal_iff.2 rfl]
    · simp [heq, mt equal_iff.1 heq, hfield]
  · rintro ⟨hroom, rfl, ⟨id, value⟩, ⟨hfield, hid, hvalue, hbefore, hafter⟩, rfl⟩
    dsimp only at hfield hid hvalue hbefore hafter
    subst hid
    refine ⟨(), a, ⟨hfield, rfl⟩, (), _, ⟨hroom, rfl⟩, value, _, ⟨hvalue, rfl⟩, (), _, ⟨⟨hbefore, hafter⟩, rfl⟩, ?_, rfl⟩
    unfold change
    by_cases heq : pre.value = value
    · simp [heq, equal_iff.2 rfl, hfield]
    · simp [heq, mt equal_iff.1 heq, hfield]

theorem runs_assign_all {entries : List (Assignment × Field)} :
    Runs (entries.foldlM (assign inputs output) done) a out a' ↔
      Room a.meter .write entries.length ∧ a' = a.paid .write (writes entries) ∧
        ∃ post, List.Forall₂ (Assigns inputs output) entries post ∧
          out = (done.1 ++ post, done.2 ++ changes (entries.map Prod.snd) post) := by
  induction entries generalizing done a with
  | nil =>
    rw [List.foldlM_nil, Runs.pure_iff]
    simp [writes, paid_nil, Room, changes, and_comm]
  | cons entry entries ih =>
    rw [List.foldlM_cons, Runs.bind_iff]
    simp only [runs_assign, ih]
    constructor
    · rintro ⟨_, _, ⟨hfirst, rfl, f, hf, rfl⟩, hrest, rfl, post, hpost, rfl⟩
      refine ⟨?_, paid_append _ _ _ _, f :: post, .cons hf hpost, ?_⟩
      · exact room_paid.1 ⟨hfirst, hrest⟩
      · cases hchange : change (entry.2, f) <;> simp [changes, hchange]
    · rintro ⟨hall, rfl, post, hpost, rfl⟩
      rcases hpost with _ | ⟨hf, hpost⟩
      next f post =>
      obtain ⟨hfirst, hrest⟩ := room_paid.2 hall
      refine ⟨_, _, ⟨hfirst, rfl, f, hf, rfl⟩, hrest, (paid_append a .write (writes [entry]) (writes entries)).symm,
        post, hpost,
        ?_⟩
      cases hchange : change (entry.2, f) <;> simp [changes, hchange]

/-- **Assignments.** They run when there is one for every field, each to an admitted value, with room for all of them. -/
theorem runs_assignments {plan : List Assignment} :
    Runs (assignments inputs output plan) a out a' ↔
      plan.length = inputs.state.length ∧ Room a.meter .write plan.length ∧
        a' = a.paid .write (writes (plan.zip inputs.state)) ∧
          ∃ post, List.Forall₂ (Assigns inputs output) (plan.zip inputs.state) post ∧
            out = (post, changes inputs.state post) := by
  unfold assignments
  simp only [Runs.bind_iff, Runs.demand_iff, runs_assign_all, List.nil_append]
  constructor
  · rintro ⟨_, _, ⟨hlen, rfl⟩, hroom, ha, post, hpost, rfl⟩
    rw [List.length_zip, hlen, min_self, ← hlen] at hroom
    rw [List.map_snd_zip hlen.ge]
    exact ⟨hlen, hroom, ha, post, hpost, rfl⟩
  · rintro ⟨hlen, hroom, ha, post, hpost, rfl⟩
    refine ⟨(), a, ⟨hlen, rfl⟩, ?_, ha, post, hpost, ?_⟩
    · rwa [List.length_zip, hlen, min_self, ← hlen]
    · rw [List.map_snd_zip hlen.ge]

/-! ## Deliveries -/

/-- what a field of a payload makes of its plan -/
def Fills (inputs : Inputs) (output : List Value) (plan : PayloadField) (f : Field) : Prop :=
  f.id = plan.field ∧ resolve inputs output plan.value = some f.value

theorem payload_iff {previous : Option UInt16} {plan : List PayloadField} {fields : List Field} :
    payload inputs output previous plan = .ok fields ↔
      (previous.toList ++ plan.map PayloadField.field).IsChain (· < ·) ∧
        List.Forall₂ (Fills inputs output) plan fields := by
  induction plan generalizing previous fields with
  | nil =>
    rw [payload, Except.ok.injEq, eq_comm, List.forall₂_nil_left_iff]
    cases previous <;> simp
  | cons entry rest ih =>
    have hchain : (previous.toList ++ (entry :: rest).map PayloadField.field).IsChain (· < ·) ↔
        (∀ p ∈ previous, p < entry.field) ∧
          ((some entry.field).toList ++ rest.map PayloadField.field).IsChain (· < ·) := by
      cases previous <;> simp [List.isChain_cons_cons]
    rw [payload, hchain]
    cases hvalue : resolve inputs output entry.value with
    | none =>
      constructor
      · intro h
        obtain ⟨_, _, h⟩ := Lib.Except.bind_eq_ok.1 h
        cases h
      · rintro ⟨_, hfills⟩
        rcases hfills with _ | ⟨⟨_, hfill⟩, _⟩
        rw [hvalue] at hfill
        cases hfill
    | some value =>
      simp only [Lib.Except.bind_eq_ok, Lib.Except.ensure_eq_ok, ih, Lib.Except.pure_eq, Except.ok.injEq]
      constructor
      · rintro ⟨_, hfirst, tail, ⟨hrest, hfills⟩, rfl⟩
        exact ⟨⟨hfirst, hrest⟩, .cons ⟨rfl, hvalue⟩ hfills⟩
      · rintro ⟨⟨hfirst, hrest⟩, hfills⟩
        rcases hfills with _ | ⟨⟨hid, hfill⟩, hfills⟩
        next f tail =>
        rw [hvalue] at hfill
        refine ⟨(), hfirst, tail, ⟨hrest, hfills⟩, ?_⟩
        rw [← hid, Option.some.inj hfill]

structure Declares (inputs : Inputs) (output : List Value) (plan : DeliveryPlan) (d : Delivery) : Prop where
  ordinal : d.ordinal = plan.ordinal
  channel : d.channel = plan.channel
  destination : resolve inputs output plan.destination = some d.destination
  idempotency : resolve inputs output plan.idempotency = some d.idempotency
  increasing : (plan.payload.map PayloadField.field).IsChain (· < ·)
  payload : List.Forall₂ (Fills inputs output) plan.payload d.payload

def emission (outbox : Bool) (plan : DeliveryPlan) : Attempt := .effect outbox plan.ordinal true

theorem runs_deliver {outbox : Bool} {plan : DeliveryPlan} {d : Delivery} :
    Runs (deliver inputs output outbox plan) a d a' ↔
      Room a.meter .effect 1 ∧ a' = a.paid .effect [emission outbox plan] ∧ Declares inputs output plan d := by
  unfold deliver
  simp only [Runs.bind_iff, Runs.ofExcept_iff, Runs.okOr_iff, Runs.pure_iff, runs_attempt, payload_iff]
  constructor
  · rintro ⟨_, _, ⟨hroom, rfl⟩, destination, _, ⟨hdestination, rfl⟩, idempotency, _, ⟨hidempotency, rfl⟩, fields, _,
      ⟨⟨hchain, hfills⟩, rfl⟩, rfl, rfl⟩
    exact ⟨hroom, rfl, rfl, rfl, hdestination, hidempotency, hchain, hfills⟩
  · rintro ⟨hroom, rfl, hordinal, hchannel, hdestination, hidempotency, hchain, hfills⟩
    refine ⟨(), _, ⟨hroom, rfl⟩, _, _, ⟨hdestination, rfl⟩, _, _, ⟨hidempotency, rfl⟩, _, _,
      ⟨⟨hchain, hfills⟩, rfl⟩, ?_, rfl⟩
    rw [← hordinal, ← hchannel]

/-- the plans whose condition holds -/
def emitted (inputs : Inputs) (output : List Value) (plan : List DeliveryPlan) : List DeliveryPlan :=
  plan.filter fun entry => enabled inputs output entry = some true

/-- a family of plans is in order and every condition is a truth value -/
structure Orderly (inputs : Inputs) (output : List Value) (previous : Option UInt32)
    (plan : List DeliveryPlan) : Prop where
  increasing : (previous.toList ++ plan.map DeliveryPlan.ordinal).IsChain (· < ·)
  channel : ∀ entry ∈ plan, entry.channel ≠ 0
  condition : ∀ entry ∈ plan, ∃ b, enabled inputs output entry = some b

theorem orderly_cons {entry : DeliveryPlan} {rest : List DeliveryPlan} :
    Orderly inputs output previous (entry :: rest) ↔ (entry.channel ≠ 0 ∧ ∀ p ∈ previous, p < entry.ordinal) ∧
      (∃ b, enabled inputs output entry = some b) ∧ Orderly inputs output (some entry.ordinal) rest := by
  have hchain : (previous.toList ++ (entry :: rest).map DeliveryPlan.ordinal).IsChain (· < ·) ↔
      (∀ p ∈ previous, p < entry.ordinal) ∧
          ((some entry.ordinal).toList ++ rest.map DeliveryPlan.ordinal).IsChain (· < ·) := by
    cases previous <;> simp [List.isChain_cons_cons]
  constructor
  · rintro ⟨hinc, hchannel, hcondition⟩
    obtain ⟨hfirst, hrest⟩ := hchain.1 hinc
    rw [List.forall_mem_cons] at hchannel hcondition
    exact ⟨⟨hchannel.1, hfirst⟩, hcondition.1, hrest, hchannel.2, hcondition.2⟩
  · rintro ⟨⟨hchannel, hfirst⟩, hcondition, hrest⟩
    exact ⟨hchain.2 ⟨hfirst, hrest.increasing⟩, List.forall_mem_cons.2 ⟨hchannel, hrest.channel⟩,
      List.forall_mem_cons.2 ⟨hcondition, hrest.condition⟩⟩

/-- **Deliveries.** They run when the family is orderly and every plan whose condition holds declares a delivery, with
room for all of these; the deliveries are the declared ones in order. -/
theorem runs_deliveries {outbox : Bool} {plan : List DeliveryPlan} {out : List Delivery}
    : Runs (deliveries inputs output outbox previous plan) a out a' ↔
      Orderly inputs output previous plan ∧ Room a.meter .effect (emitted inputs output plan).length ∧
        a' = a.paid .effect ((emitted inputs output plan).map (emission outbox)) ∧
          List.Forall₂ (Declares inputs output) (emitted inputs output plan) out := by
  induction plan generalizing previous out a a' with
  | nil =>
    have hnone : emitted inputs output [] = [] := rfl
    rw [deliveries, Runs.pure_iff, hnone, List.map_nil, paid_nil, List.forall₂_nil_left_iff]
    constructor
    · rintro ⟨hout, ha⟩
      refine ⟨⟨?_, by simp, by simp⟩, Or.inl rfl, ha, hout⟩
      cases previous <;> simp
    · rintro ⟨_, _, ha, hout⟩
      exact ⟨hout, ha⟩
  | cons entry rest ih =>
    rw [deliveries, orderly_cons]
    simp only [Runs.bind_iff, Runs.demand_iff, Runs.okOr_iff]
    cases hcondition : enabled inputs output entry with
    | none => simp
    | some b =>
      cases b with
      | false =>
        have hskip : emitted inputs output (entry :: rest) = emitted inputs output rest := by simp [emitted, hcondition]
        rw [hskip]
        constructor
        · rintro ⟨_, _, ⟨hfirst, rfl⟩, _, _, ⟨hb, rfl⟩, hruns⟩
          cases hb
          rw [if_neg Bool.false_ne_true, ih] at hruns
          exact ⟨⟨hfirst, ⟨false, rfl⟩, hruns.1⟩, hruns.2⟩
        · rintro ⟨⟨hfirst, _, hrest⟩, hruns⟩
          refine ⟨(), a, ⟨hfirst, rfl⟩, false, a, ⟨rfl, rfl⟩, ?_⟩
          rw [if_neg Bool.false_ne_true, ih]
          exact ⟨hrest, hruns⟩
      | true =>
        have htake : emitted inputs output (entry :: rest) = entry :: emitted inputs output rest := by
          simp [emitted, hcondition]
        rw [htake]
        constructor
        · rintro ⟨_, _, ⟨hfirst, rfl⟩, _, _, ⟨hb, rfl⟩, hruns⟩
          cases hb
          rw [if_pos rfl] at hruns
          simp only [Runs.bind_iff, Runs.pure_iff, runs_deliver, ih] at hruns
          obtain ⟨d, _, ⟨hunit, rfl, hd⟩, tail, _, ⟨hrest, hall, rfl, htail⟩, rfl, rfl⟩ := hruns
          exact ⟨⟨hfirst, ⟨true, rfl⟩, hrest⟩, room_paid.1 ⟨hunit, hall⟩, paid_append _ _ _ _, .cons hd htail⟩
        · rintro ⟨⟨hfirst, _, hrest⟩, hall, rfl, hout⟩
          rcases hout with _ | ⟨hd, htail⟩
          obtain ⟨hunit, hall⟩ := room_paid.2 hall
          refine ⟨(), a, ⟨hfirst, rfl⟩, true, a, ⟨rfl, rfl⟩, ?_⟩
          rw [if_pos rfl]
          simp only [Runs.bind_iff, Runs.pure_iff, runs_deliver, ih]
          exact ⟨_, _, ⟨hunit, rfl, hd⟩, _, _, ⟨hrest, hall, rfl, htail⟩, rfl,
            (paid_append a .effect [emission outbox entry] _).symm⟩

end Loops

/-! ## Patches -/

/-- the fields with the changes of a patch -/
def applied (patch : List Patch) (f : Field) : Field :=
  match patch.find? (·.field = f.id) with
  | some p => { f with value := p.after }
  | none => f

/-- a patch leads from one state to another and names every change once, in order -/
structure Patches (pre post : List Field) (patch : List Patch) : Prop where
  applied : pre.map (applied patch) = post
  increasing : (patch.map fun p => p.field.toNat).Pairwise (· < ·)
  before : ∀ p ∈ patch, lookup pre p.field = some p.before
  after : ∀ p ∈ patch, lookup post p.field = some p.after
  changed : ∀ p ∈ patch, p.before ≠ p.after

variable {fields pre post : List Field}

theorem pairwise_of_ordered (h : ordered fields = true) :
    (fields.map fun f => f.id.toNat).Pairwise (· < ·) :=
  List.isChain_iff_pairwise.1 (of_decide_eq_true h)

theorem nodup_of_ordered (h : ordered fields = true) : (fields.map Field.id).Nodup := by
  have hpairwise := pairwise_of_ordered h
  rw [List.pairwise_map] at hpairwise
  rw [List.Nodup, List.pairwise_map]
  exact hpairwise.imp fun hlt heq => hlt.ne (congrArg UInt16.toNat heq)

theorem map_id_eq (hids : List.Forall₂ (fun f g : Field => g.id = f.id) pre post) :
    post.map Field.id = pre.map Field.id := by
  have h : List.Forall₂ (· = ·) (post.map Field.id) (pre.map Field.id) := by
    rw [List.forall₂_map_left_iff, List.forall₂_map_right_iff]
    exact hids.flip
  rwa [List.forall₂_eq_eq_eq] at h

theorem lookup_of_mem (hnodup : (fields.map Field.id).Nodup) {f : Field} (hf : f ∈ fields) :
    lookup fields f.id = some f.value := by
  unfold lookup
  cases hfind : fields.find? (·.id == f.id) with
  | none =>
    have h := List.find?_eq_none.1 hfind f hf
    simp at h
  | some g =>
    have hid : g.id = f.id := by simpa using List.find?_some hfind
    rw [List.inj_on_of_nodup_map hnodup (List.mem_of_find?_eq_some hfind) hf hid]
    rfl

theorem change_eq_some {f g : Field} {p : Patch} (h : change (f, g) = some p) :
    p.field = f.id ∧ p.before = f.value ∧ p.after = g.value ∧ p.before ≠ p.after := by
  unfold change at h
  split_ifs at h with hvalue
  cases h
  exact ⟨rfl, rfl, rfl, hvalue⟩

theorem mem_changes {p : Patch} (h : p ∈ changes pre post) :
    ∃ f g, (f, g) ∈ pre.zip post ∧ change (f, g) = some p := by
  obtain ⟨⟨f, g⟩, hmem, hchange⟩ := List.mem_filterMap.1 h
  exact ⟨f, g, hmem, hchange⟩

theorem field_of_mem_changes {p : Patch} (h : p ∈ changes pre post) : p.field ∈ pre.map Field.id := by
  obtain ⟨f, g, hmem, hchange⟩ := mem_changes h
  rw [(change_eq_some hchange).1]
  exact List.mem_map_of_mem (List.of_mem_zip hmem).1

theorem changes_cons (f g : Field) (fs gs : List Field) :
    changes (f :: fs) (g :: gs) = (change (f, g)).toList ++ changes fs gs := by
  unfold changes
  rw [List.zip_cons_cons]
  cases h : change (f, g) <;> simp [h]

theorem map_applied_changes (hids : List.Forall₂ (fun f g : Field => g.id = f.id) pre post)
    (hnodup : (pre.map Field.id).Nodup) : pre.map (applied (changes pre post)) = post := by
  induction hids with
  | nil => rfl
  | @cons f g fs gs hid _ ih =>
    rw [List.map_cons, List.nodup_cons] at hnodup
    have hhead : applied (changes (f :: fs) (g :: gs)) f = g := by
      rcases g with ⟨id, value⟩
      dsimp only at hid
      subst hid
      rw [changes_cons]
      unfold applied change
      split_ifs with hvalue
      · have hnone : (changes fs gs).find? (·.field = f.id) = none := by
          rw [List.find?_eq_none]
          intro p hp heq
          exact hnodup.1 (of_decide_eq_true heq ▸ field_of_mem_changes hp)
        rw [Option.toList_none, List.nil_append, hnone]
        dsimp only at hvalue ⊢
        rw [← hvalue]
      · simp
    have htail : fs.map (applied (changes (f :: fs) (g :: gs))) = fs.map (applied (changes fs gs)) := by
      refine List.map_congr_left fun x hx => ?_
      have hne : f.id ≠ x.id := fun h => hnodup.1 (h ▸ List.mem_map_of_mem hx)
      rw [changes_cons]
      unfold applied
      cases hchange : change (f, g) with
      | none => rfl
      | some p =>
        have hfield := (change_eq_some hchange).1
        rw [Option.toList_some, List.singleton_append, List.find?_cons_of_neg (by simp [hfield, hne])]
    rw [List.map_cons, hhead, htail, ih hnodup.2]

theorem map_field_changes : ((changes pre post).map Patch.field).Sublist (pre.map Field.id) := by
  induction pre generalizing post with
  | nil => simp [changes]
  | cons f fs ih =>
    rcases post with _ | ⟨g, gs⟩
    · simp [changes]
    · rw [changes_cons]
      cases hchange : change (f, g) with
      | none => exact ih.cons _
      | some p =>
        rw [Option.toList_some, List.singleton_append, List.map_cons, List.map_cons, (change_eq_some hchange).1]
        exact ih.cons_cons _

theorem patches_changes (hids : List.Forall₂ (fun f g : Field => g.id = f.id) pre post)
    (hordered : ordered pre = true) : Patches pre post (changes pre post) := by
  have hnodup := nodup_of_ordered hordered
  have hsame := map_id_eq hids
  have hsub : ((changes pre post).map fun p => p.field.toNat).Sublist (pre.map fun f => f.id.toNat) := by
    have hfields : ((changes pre post).map Patch.field).Sublist (pre.map Field.id) := map_field_changes
    have h := hfields.map UInt16.toNat
    rwa [List.map_map, List.map_map] at h
  refine ⟨map_applied_changes hids hnodup, (pairwise_of_ordered hordered).sublist hsub, ?_, ?_, ?_⟩
  · intro p hp
    obtain ⟨f, g, hmem, hchange⟩ := mem_changes hp
    obtain ⟨hfield, hbefore, -, -⟩ := change_eq_some hchange
    rw [hfield, hbefore]
    exact lookup_of_mem hnodup (List.of_mem_zip hmem).1
  · intro p hp
    obtain ⟨f, g, hmem, hchange⟩ := mem_changes hp
    obtain ⟨hfield, -, hafter, -⟩ := change_eq_some hchange
    have hid : g.id = f.id := List.forall₂_zip hids hmem
    rw [hfield, hafter, ← hid]
    exact lookup_of_mem (hsame.symm ▸ hnodup) (List.of_mem_zip hmem).2
  · intro p hp
    obtain ⟨f, g, -, hchange⟩ := mem_changes hp
    exact (change_eq_some hchange).2.2.2

/-! ## Construction is exact -/

section Exactness

variable {inputs : Inputs} {output : List Value}

/-- the records of the inputs are in order -/
def InOrder (inputs : Inputs) : Prop :=
  ordered inputs.state = true ∧ orderedValue inputs.command = true ∧ orderedValue inputs.context = true

/-- the assigned fields have their assigned values and every other field is unchanged -/
structure Replaces (inputs : Inputs) (output : List Value) (plan : List Assignment) (post : List Field) : Prop where
  fields : post.map Field.id = inputs.state.map Field.id
  assigned : ∀ a ∈ plan, ∃ v, resolve inputs output a.value = some v ∧ lookup post a.field = some v
  unchanged : ∀ id, (∀ a ∈ plan, a.field ≠ id) → lookup post id = lookup inputs.state id

/-- the decision that a branch declares -/
structure Exact (inputs : Inputs) (output : List Value) (branch : Branch) (c : Candidate) : Prop where
  class' : c.class' = branch.class'
  reason : c.reason = branch.reason
  pre : c.pre = inputs.state
  reject : branch.class' = .reject →
    c.post = [] ∧ c.patch = [] ∧ c.effects = [] ∧ c.outbox = [] ∧ ∃ r, r ≠ 0 ∧ branch.reason = some r
  successor : branch.class' ≠ .reject → Replaces inputs output branch.assignments c.post
  patch : branch.class' ≠ .reject → Patches inputs.state c.post c.patch
  effects : branch.class' ≠ .reject →
    List.Forall₂ (Declares inputs output) (emitted inputs output branch.effects) c.effects
  outbox : branch.class' ≠ .reject → List.Forall₂ (Declares inputs output) (emitted inputs output branch.outbox) c.outbox

/-- a family of plans whose every emitted member declares a delivery -/
def Deliverable (inputs : Inputs) (output : List Value) (plan : List DeliveryPlan) : Prop :=
  Orderly inputs output none plan ∧ ∀ entry ∈ emitted inputs output plan, ∃ d, Declares inputs output entry d

/-- no part of a branch fails -/
structure Complete (inputs : Inputs) (output : List Value) (branch : Branch) : Prop where
  reason : reasonValid branch.class' branch.reason = true
  reject : branch.class' = .reject → branch.assignments = [] ∧ branch.effects = [] ∧ branch.outbox = []
  fields : branch.class' ≠ .reject → branch.assignments.length = inputs.state.length
  assigned : branch.class' ≠ .reject →
    ∀ entry ∈ branch.assignments.zip inputs.state, ∃ f, Assigns inputs output entry f
  effects : branch.class' ≠ .reject → Deliverable inputs output branch.effects
  outbox : branch.class' ≠ .reject → Deliverable inputs output branch.outbox

/-- the meter pays for a branch -/
structure Affords (inputs : Inputs) (output : List Value) (m : Meter) (branch : Branch) : Prop where
  candidate : Room m .candidate 1
  write : branch.class' ≠ .reject → Room m .write branch.assignments.length
  effect : branch.class' ≠ .reject →
    Room m .effect ((emitted inputs output branch.effects).length + (emitted inputs output branch.outbox).length)

theorem replaces_of_assigns {plan : List Assignment} {post : List Field} (hordered : ordered inputs.state = true)
    (hlen : plan.length = inputs.state.length)
    (h : List.Forall₂ (Assigns inputs output) (plan.zip inputs.state) post) :
    List.Forall₂ (fun f g : Field => g.id = f.id) inputs.state post ∧ Replaces inputs output plan post := by
  have hids : List.Forall₂ (fun f g : Field => g.id = f.id) inputs.state post := by
    have h : List.Forall₂ (fun f g : Field => g.id = f.id) ((plan.zip inputs.state).map Prod.snd) post := by
      rw [List.forall₂_map_left_iff]
      exact h.imp fun _ _ ha => ha.id
    rwa [List.map_snd_zip hlen.ge] at h
  have hsame := map_id_eq hids
  have hnodup : (post.map Field.id).Nodup := hsame.symm ▸ nodup_of_ordered hordered
  have hplan : plan.map Assignment.field = post.map Field.id := by
    have h : List.Forall₂ (· = ·) (plan.map Assignment.field) (post.map Field.id) := by
      rw [List.forall₂_map_left_iff, List.forall₂_map_right_iff, ← List.map_fst_zip hlen.le, List.forall₂_map_left_iff]
      exact h.imp fun _ _ ha => ha.field.trans ha.id.symm
    rwa [List.forall₂_eq_eq_eq] at h
  refine ⟨hids, hsame, ?_, ?_⟩
  · intro a ha
    rw [← List.map_fst_zip hlen.le] at ha
    obtain ⟨⟨a, f⟩, hmem, rfl⟩ := List.mem_map.1 ha
    obtain ⟨i, hi, hget⟩ := List.mem_iff_getElem.1 hmem
    have hi' : i < post.length := h.length_eq ▸ hi
    have hassign := h.get hi hi'
    rw [List.get_eq_getElem, List.get_eq_getElem, hget] at hassign
    refine ⟨_, hassign.value, ?_⟩
    have hfield : a.field = post[i].id := hassign.field.trans hassign.id.symm
    rw [hfield]
    exact lookup_of_mem hnodup (List.getElem_mem hi')
  · intro id hid
    have hnone (fields : List Field) (hfields : plan.map Assignment.field = fields.map Field.id) :
        lookup fields id = none := by
      unfold lookup
      rw [Option.map_eq_none_iff, List.find?_eq_none]
      intro f hf heq
      have hmem : f.id ∈ plan.map Assignment.field := hfields ▸ List.mem_map_of_mem hf
      obtain ⟨a, ha, hafield⟩ := List.mem_map.1 hmem
      exact hid a ha (hafield.trans (by simpa using heq))
    rw [hnone post hplan, hnone inputs.state (hplan.trans hsame)]

/-- **The runs of the construction.** -/
theorem runs_construct {code : I128} {branches : List Branch} {c : Candidate} {a : Account} :
    (∃ a', Runs (construct inputs output code branches) a c a') ↔ InOrder inputs ∧ ∃ branch, Chosen branches code branch ∧
      Affords inputs output a.meter branch ∧ Complete inputs output branch ∧ c.class' = branch.class' ∧
        c.reason = branch.reason ∧ c.pre = inputs.state ∧
          if branch.class' = .reject then c.post = [] ∧ c.patch = [] ∧ c.effects = [] ∧ c.outbox = []
          else List.Forall₂ (Assigns inputs output) (branch.assignments.zip inputs.state) c.post ∧
            c.patch = changes inputs.state c.post ∧
            List.Forall₂ (Declares inputs output) (emitted inputs output branch.effects) c.effects ∧
            List.Forall₂ (Declares inputs output) (emitted inputs output branch.outbox) c.outbox := by
  unfold construct
  simp only [Runs.bind_iff, Runs.demand_iff, Runs.okOr_iff, runs_attempt, selectBranch_iff]
  constructor
  · rintro ⟨a', _, _, ⟨hinputs, rfl⟩, _, _, ⟨hroom, rfl⟩, branch, _, ⟨hchosen, rfl⟩, _, _, ⟨hreason, rfl⟩, hruns⟩
    refine ⟨hinputs, branch, hchosen, ?_⟩
    by_cases hreject : branch.class' = .reject
    · rw [if_pos hreject] at hruns ⊢
      simp only [Runs.bind_iff, Runs.demand_iff, Runs.pure_iff] at hruns
      obtain ⟨_, _, ⟨hplans, rfl⟩, rfl, rfl⟩ := hruns
      have hnot {p : Prop} (h : branch.class' ≠ .reject) : p := absurd hreject h
      exact ⟨⟨hroom, hnot, hnot⟩, ⟨hreason, fun _ => hplans, hnot, hnot, hnot, hnot⟩, rfl, rfl, rfl, rfl, rfl, rfl, rfl⟩
    · rw [if_neg hreject] at hruns ⊢
      simp only [Runs.bind_iff, Runs.pure_iff, runs_assignments, runs_deliveries] at hruns
      obtain ⟨_, _, ⟨hlen, hwrite, rfl, post, hpost, rfl⟩, effects, _, ⟨horderly, heffect, rfl, heffects⟩, outbox, _,
        ⟨horderly', houtbox, rfl, houtboxes⟩, rfl, rfl⟩ := hruns
      have heffects' := room_append.1 ⟨(List.length_map _).symm ▸ heffect, houtbox⟩
      rw [List.length_map, room_other (by decide), room_other (by decide)] at heffects'
      rw [room_other (by decide)] at hwrite
      refine ⟨⟨hroom, fun _ => hwrite, fun _ => heffects'⟩, ⟨hreason,
        fun h => absurd h hreject, fun _ => hlen, fun _ => ?_,
        fun _ => ⟨horderly, ?_⟩, fun _ => ⟨horderly', ?_⟩⟩, rfl, rfl, rfl, hpost, rfl, heffects, houtboxes⟩
      · exact exists_forall₂.1 ⟨post, hpost⟩
      · exact exists_forall₂.1 ⟨effects, heffects⟩
      · exact exists_forall₂.1 ⟨outbox, houtboxes⟩
  · rintro ⟨hinputs, branch, hchosen, hroom, hcomplete, hclass, hreason, hpre, hparts⟩
    have hpaid : ∃ a', Runs (if branch.class' = .reject then do
          Attempting.demand (branch.assignments = [] ∧ branch.effects = [] ∧ branch.outbox = []) .rejectPlan
          return ⟨branch.class', branch.reason, inputs.state, [], [], [], []⟩
        else do
          let (post, patch) ← assignments inputs output branch.assignments
          let effects ← deliveries inputs output false none branch.effects
          let outbox ← deliveries inputs output true none branch.outbox
          return ⟨branch.class', branch.reason, inputs.state, post, patch, effects, outbox⟩)
        (a.paid .candidate [.candidate true]) c a' := by
      rcases c with ⟨class', reason, pre, post, patch, effects, outbox⟩
      dsimp only at hclass hreason hpre hparts
      subst hclass hreason hpre
      by_cases hreject : branch.class' = .reject
      · rw [if_pos hreject] at hparts ⊢
        obtain ⟨rfl, rfl, rfl, rfl⟩ := hparts
        simp only [Runs.bind_iff, Runs.demand_iff, Runs.pure_iff]
        exact ⟨_, (), _, ⟨hcomplete.reject hreject, rfl⟩, trivial, rfl⟩
      · rw [if_neg hreject] at hparts ⊢
        obtain ⟨hpost, rfl, heffects, houtbox⟩ := hparts
        simp only [Runs.bind_iff, Runs.pure_iff, runs_assignments, runs_deliveries]
        have hwrite : Room (a.paid .candidate [.candidate true]).meter .write branch.assignments.length :=
          (room_other (by decide)).2 (hroom.write hreject)
        have hboth : Room a.meter .effect (((emitted inputs output branch.effects).map (emission false)).length +
            (emitted inputs output branch.outbox).length) := by
          rw [List.length_map]
          exact hroom.effect hreject
        have hlater : Room ((a.paid .candidate [.candidate true]).paid .write
            (writes (branch.assignments.zip inputs.state))).meter .effect
              (((emitted inputs output branch.effects).map (emission false)).length +
                (emitted inputs output branch.outbox).length) :=
          (room_other (by decide)).2 ((room_other (by decide)).2 hboth)
        obtain ⟨heffect, houtboxes⟩ := room_append.2 hlater
        rw [List.length_map] at heffect
        exact ⟨_, _, _, ⟨hcomplete.fields hreject, hwrite, rfl, post, hpost, rfl⟩, effects, _,
          ⟨(hcomplete.effects hreject).1, heffect, rfl, heffects⟩, outbox, _,
          ⟨(hcomplete.outbox hreject).1, houtboxes, rfl, houtbox⟩, rfl, rfl⟩
    obtain ⟨a', hruns⟩ := hpaid
    exact ⟨a', (), a, ⟨hinputs, rfl⟩, (), _, ⟨hroom.candidate, rfl⟩, branch, _, ⟨hchosen, rfl⟩, (), _,
      ⟨hcomplete.reason, rfl⟩, hruns⟩

theorem reason_of_reject {reason : Option UInt32} (h : reasonValid .reject reason = true) :
    ∃ r, r ≠ 0 ∧ reason = some r := by
  cases reason with
  | none => cases h
  | some r => exact ⟨r, by simpa [reasonValid] using h, rfl⟩

/-- **Construction is exact.** A decision that is constructed is the one that the branch of the code declares; and one is
constructed exactly when the inputs are in order, the code has a branch, no part of it fails and the meter pays for it. -/
theorem construct_exact (inputs : Inputs) (output : List Value) (code : I128) (branches : List Branch) (a : Account) :
    (∀ c a', Runs (construct inputs output code branches) a c a' →
      ∃ branch, Chosen branches code branch ∧ Exact inputs output branch c) ∧
    ((∃ c a', Runs (construct inputs output code branches) a c a') ↔ InOrder inputs ∧
      ∃ branch, Chosen branches code branch ∧ Affords inputs output a.meter branch ∧ Complete inputs output branch) := by
  constructor
  · intro c a' hruns
    obtain ⟨hinputs, branch, hchosen, -, hcomplete, hclass, hreason, hpre, hparts⟩ := runs_construct.1 ⟨a', hruns⟩
    refine ⟨branch, hchosen, ?_⟩
    by_cases hreject : branch.class' = .reject
    · rw [if_pos hreject] at hparts
      obtain ⟨hpost, hpatch, heffects, houtbox⟩ := hparts
      have hvalid := hcomplete.reason
      rw [hreject] at hvalid
      exact ⟨hclass, hreason, hpre, fun _ => ⟨hpost, hpatch, heffects, houtbox, reason_of_reject hvalid⟩,
        fun h => absurd hreject h, fun h => absurd hreject h, fun h => absurd hreject h, fun h => absurd hreject h⟩
    · rw [if_neg hreject] at hparts
      obtain ⟨hassigns, hpatch, heffects, houtbox⟩ := hparts
      obtain ⟨hids, hreplaces⟩ := replaces_of_assigns hinputs.1 (hcomplete.fields hreject) hassigns
      exact ⟨hclass, hreason, hpre, fun h => absurd h hreject, fun _ => hreplaces,
        fun _ => hpatch ▸ patches_changes hids hinputs.1, fun _ => heffects, fun _ => houtbox⟩
  · constructor
    · rintro ⟨c, a', hruns⟩
      obtain ⟨hinputs, branch, hchosen, hafford, hcomplete, -⟩ := runs_construct.1 ⟨a', hruns⟩
      exact ⟨hinputs, branch, hchosen, hafford, hcomplete⟩
    · rintro ⟨hinputs, branch, hchosen, hafford, hcomplete⟩
      by_cases hreject : branch.class' = .reject
      · refine ⟨⟨branch.class', branch.reason, inputs.state, [], [], [], []⟩, runs_construct.2 ⟨hinputs, branch, hchosen,
          hafford, hcomplete, rfl, rfl, rfl, ?_⟩⟩
        rw [if_pos hreject]
        exact ⟨rfl, rfl, rfl, rfl⟩
      · obtain ⟨post, hpost⟩ := exists_forall₂.2 (hcomplete.assigned hreject)
        obtain ⟨effects, heffects⟩ := exists_forall₂.2 (hcomplete.effects hreject).2
        obtain ⟨outbox, houtbox⟩ := exists_forall₂.2 (hcomplete.outbox hreject).2
        refine ⟨⟨branch.class', branch.reason, inputs.state, post, changes inputs.state post, effects, outbox⟩,
          runs_construct.2 ⟨hinputs, branch, hchosen, hafford, hcomplete, rfl, rfl, rfl, ?_⟩⟩
        rw [if_neg hreject]
        exact ⟨hpost, rfl, heffects, houtbox⟩

end Exactness

end ZenoFcis.Finite.Decision
