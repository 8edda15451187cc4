/-
The joint step of a composed domain and its reachable pairs
(`zeno-fcis-contract/src/checked_composition/joint.rs`, `resolve.rs` and the field domains of `domain.rs`).

A table is the function that it looks up. Construction decides every row and checks no obligation: the declared genesis
is stored as it is, and only `split` compares a state with its domains.
-/
import ZenoFcis.Finite.Space
import ZenoFcis.Lib.Exploration

namespace ZenoFcis.Contract.Joint

open Lib Lib.Except Lib.Labelling Lib.Exploration

/-! ## Field domains -/

def i128Max : I128 := ⟨2 ^ 127 - 1, by norm_num, by norm_num⟩

def u128Max : ℕ := 2 ^ 128 - 1

def integer0 : I128 := ⟨0, I128.lo_zero, I128.hi_zero⟩

def integer1 : I128 := ⟨1, I128.lo_one, I128.hi_one⟩

/-- the values of a field or a request field -/
inductive FieldDomain where
  | bool
  | int (min max : I128)
  | variants (ids : List I128)
deriving DecidableEq

namespace FieldDomain

/-- every value in enumeration order -/
def values : FieldDomain → List I128
  | bool => [integer0, integer1]
  | int min max => if min.val ≤ max.val then (Finite.Domain.int min max).values else []
  | variants ids => ids

def contains : FieldDomain → I128 → Bool
  | bool, value => decide (value.val = 0) || decide (value.val = 1)
  | int min max, value => decide (min.val ≤ value.val) && decide (value.val ≤ max.val)
  | variants ids, value => ids.contains value

/-- the number of values, capped -/
def size : FieldDomain → ℕ
  | bool => 2
  | int min max => if min.val > max.val then 0 else Min.min ((max.val - min.val).toNat + 1) u128Max
  | variants ids => ids.length

/-- the value at an offset below the size -/
def nth : FieldDomain → ℕ → I128
  | bool, offset => if offset ≠ 0 then integer1 else integer0
  | int min _, offset => (Finite.checkedAdd min ((Finite.narrow offset).getD i128Max)).getD i128Max
  | variants ids, offset => ids.getD offset integer0

end FieldDomain

structure RequestSlot where
  name : String
  domain : FieldDomain

structure StateSlot where
  component : String
  field : String
  domain : FieldDomain

/-! ## Requests -/

/-- every request in enumeration order, one at a time -/
structure Odometer where
  slots : List RequestSlot
  offsets : List ℕ
  done : Bool

namespace Odometer

def new (slots : List RequestSlot) : Odometer := ⟨slots, slots.map fun _ => 0, false⟩

/-- the offsets from the last one down; true when all of them start again -/
def carry : List RequestSlot → List ℕ → List ℕ × Bool
  | slot :: slots, offset :: offsets =>
    match carry slots offsets with
    | (next, false) => (offset :: next, false)
    | (next, true) => if offset + 1 < slot.domain.size then ((offset + 1) :: next, false) else (0 :: next, true)
  | _, _ => ([], true)

def tuple (o : Odometer) : List I128 := List.zipWith (fun slot offset => slot.domain.nth offset) o.slots o.offsets

def nextTuple (o : Odometer) : Option (List I128 × Odometer) :=
  if o.done then none
  else some (o.tuple, ⟨o.slots, (carry o.slots o.offsets).1, (carry o.slots o.offsets).2⟩)

/-- at most `n` tuples -/
def tuples : ℕ → Odometer → List (List I128)
  | 0, _ => []
  | n + 1, o =>
    match o.nextTuple with
    | none => []
    | some (tuple, o) => tuple :: tuples n o

end Odometer

/-- the complete enumeration of the requests -/
def requests (slots : List RequestSlot) : List (List I128) :=
  (Odometer.new slots).tuples (slots.map fun slot => slot.domain.size).prod

/-! ## Components -/

/-- why a component refused a step -/
inductive RefusedClass where
  | bindingUndefined | bindingOutsideDomain | readOnlyStateChanged | law | domain | arithmetic | meter | input | other
deriving DecidableEq

inductive Read where
  | request (at_ : ℕ)
  | state (component field : ℕ)
  | local (at_ : ℕ)

inductive Delivered where
  | value (value : I128)
  | outside
  | undefined

/-- a formula's reads and its table -/
structure Resolved (α : Type) where
  reads : List Read
  table : List I128 → α

inductive Decided where
  | accept
  | reject
  | committedFailure
  | refused (class_ : RefusedClass)

structure StateField where
  name : String
  domain : FieldDomain

/-- one component with its tables; every assigned value of a committing decision is admitted in its declared domain -/
structure Component where
  name : String
  owns : Bool
  stateFields : List StateField
  participates : Resolved Bool
  bindings : List (Resolved Delivered)
  stateBindings : List (Resolved Delivered)
  genesis : List I128
  decisions : List I128 → Option (Decided × Option UInt32 × List I128)
  genesis_length : genesis.length = stateFields.length
  commits : ∀ tuple kind reason post, decisions tuple = some (kind, reason, post) →
    kind = .accept ∨ kind = .committedFailure →
    List.Forall₂ (fun field value => field.domain.contains value = true) stateFields post

def gather (reads : List Read) (request : List I128) (states : List (List I128)) (own : List I128) : List I128 :=
  reads.map fun
    | .request at_ => request.getD at_ integer0
    | .state component field => (states.getD component []).getD field integer0
    | .local at_ => own.getD at_ integer0

/-- what one component does in a step -/
inductive Local where
  | skip
  | reject (reason : Option UInt32)
  | refused (class_ : RefusedClass)
  | commit (failure : Bool) (reason : Option UInt32) (post : List I128)

def deliver (request : List I128) (pre : List (List I128)) (resolved : Resolved Delivered) : Except RefusedClass I128 :=
  match resolved.table (gather resolved.reads request pre []) with
  | .value value => .ok value
  | .outside => .error .bindingOutsideDomain
  | .undefined => .error .bindingUndefined

/-- the delivered state and inputs of a component -/
def delivered (component : Component) (request : List I128) (pre : List (List I128)) (own : List I128) :
    Except RefusedClass (List I128) := do
  let state ← if component.owns then .ok own else component.stateBindings.mapM (deliver request pre)
  let inputs ← component.bindings.mapM (deliver request pre)
  return state ++ inputs

/-- one component's part of a step -/
def localStep (component : Component) (index : ℕ) (pre : List (List I128)) (request : List I128) : Local :=
  if component.participates.table (gather component.participates.reads request pre []) = false then .skip
  else
    match delivered component request pre (pre.getD index []) with
    | .error class_ => .refused class_
    | .ok tuple =>
      match component.decisions tuple with
      | none => .refused .bindingOutsideDomain
      | some (.refused class_, _, _) => .refused class_
      | some (.reject, reason, _) => .reject reason
      | some (.accept, reason, post) =>
        if component.owns = false ∧ post ≠ tuple.take component.stateFields.length then .refused .readOnlyStateChanged
        else .commit false reason post
      | some (.committedFailure, reason, post) =>
        if component.owns = false ∧ post ≠ tuple.take component.stateFields.length then .refused .readOnlyStateChanged
        else .commit true reason post

/-! ## One step -/

/-- how a step ended, by component position -/
inductive Ended where
  | accept
  | reject (index : ℕ) (reason : Option UInt32)
  | refused (index : ℕ) (class_ : RefusedClass)
  | committedFailure (index : ℕ) (reason : Option UInt32)

/-- how a step ended, how many components committed and the successors collected on the way -/
structure Resolution where
  ended : Ended
  committed : ℕ
  posts : List (Option (List I128))

/-- the components in merge order, from a position on; a terminating one is the last one asked -/
def resolve (pre : List (List I128)) (request : List I128) :
    List Component → ℕ → List (Option (List I128)) → Resolution
  | [], index, posts => ⟨.accept, index, posts⟩
  | component :: components, index, posts =>
    match localStep component index pre request with
    | .skip => resolve pre request components (index + 1) (posts ++ [none])
    | .reject reason => ⟨.reject index reason, 0, posts⟩
    | .refused class_ => ⟨.refused index class_, 0, posts⟩
    | .commit true reason post => ⟨.committedFailure index reason, index + 1, posts ++ [some post]⟩
    | .commit false _ post => resolve pre request components (index + 1) (posts ++ [some post])

/-- the state of one component after a resolution -/
def applyAt (resolution : Resolution) (component : Component) (index : ℕ) (own : List I128) : List I128 :=
  if index < resolution.committed ∧ component.owns = true then (resolution.posts.getD index none).getD own else own

def apply (resolution : Resolution) : List Component → ℕ → List (List I128) → List (List I128)
  | component :: components, index, own :: pre =>
    applyAt resolution component index own :: apply resolution components (index + 1) pre
  | _, _, _ => []

def step (components : List Component) (pre : List (List I128)) (request : List I128) : Ended × List (List I128) :=
  let resolution := resolve pre request components 0 []
  (resolution.ended, apply resolution components 0 pre)

/-! ## Joint compositions -/

inductive OutcomeKind where
  | accept
  | reject (component : String) (reason : Option UInt32)
  | refused (component : String) (class_ : RefusedClass)
  | committedFailure (component : String) (reason : Option UInt32)

structure JointOutcome where
  kind : OutcomeKind
  successor : List I128

structure JointRow where
  state : List I128
  request : List I128
  outcome : JointOutcome

structure JointInputError where
  reason : String

/-- a validated composition; a manifest's request domains are Boolean or nonempty intervals -/
structure JointComposition where
  components : List Component
  request : List RequestSlot
  requestDomains : ∀ slot ∈ request, slot.domain = .bool ∨
    ∃ min max : I128, min.val ≤ max.val ∧ slot.domain = .int min max

def Component.width (component : Component) : ℕ := if component.owns then component.stateFields.length else 0

def Component.slots (component : Component) : List StateSlot :=
  if component.owns then component.stateFields.map fun field => ⟨component.name, field.name, field.domain⟩ else []

/-- the states of the components of a global state -/
def splitStates : List Component → List I128 → List (List I128)
  | [], _ => []
  | component :: components, rest => rest.take component.width :: splitStates components (rest.drop component.width)

namespace JointComposition

variable (joint : JointComposition)

def layout : List StateSlot := joint.components.flatMap Component.slots

def genesis : List I128 := joint.components.flatMap fun component => if component.owns then component.genesis else []

def outsideState (slot : StateSlot × I128) : Bool := !slot.1.domain.contains slot.2

def outsideRequest (slot : RequestSlot × I128) : Bool := !slot.1.domain.contains slot.2

def split (globalState request : List I128) : Except JointInputError (List (List I128)) :=
  if globalState.length ≠ joint.layout.length then
    .error ⟨"the global state has " ++ toString globalState.length ++ " values; the layout has " ++
      toString joint.layout.length ++ " slots"⟩
  else if request.length ≠ joint.request.length then
    .error ⟨"the request has " ++ toString request.length ++ " values; it has " ++ toString joint.request.length ++
      " fields"⟩
  else
    match (joint.layout.zip globalState).find? outsideState with
    | some (slot, value) =>
      .error ⟨slot.component ++ "." ++ slot.field ++ " = " ++ toString value.val ++ " lies outside its domain"⟩
    | none =>
      match (joint.request.zip request).find? outsideRequest with
      | some (slot, value) =>
        .error ⟨"request field " ++ slot.name ++ " = " ++ toString value.val ++ " lies outside its domain"⟩
      | none => .ok (splitStates joint.components globalState)

def nameAt (index : ℕ) : String := ((joint.components[index]?).map Component.name).getD ""

def outcome (ended : Ended) (after : List (List I128)) : JointOutcome where
  kind := match ended with
    | .accept => .accept
    | .reject index reason => .reject (joint.nameAt index) reason
    | .refused index class_ => .refused (joint.nameAt index) class_
    | .committedFailure index reason => .committedFailure (joint.nameAt index) reason
  successor := after.flatten

def jointStep (globalState request : List I128) : Except JointInputError JointOutcome := do
  let pre ← joint.split globalState request
  let (ended, after) := step joint.components pre request
  return joint.outcome ended after

/-- the sets and buffers of an exploration -/
structure Walk where
  seen : List (List I128)
  next : List (List I128)
  rows : List JointRow
  pairs : ℕ

/-- the body of the innermost loop -/
def visit (maxPairs : ℕ) (state : List I128) (walk : Walk) (request : List I128) : Except ℕ Walk :=
  if walk.pairs + 1 > maxPairs then .error maxPairs
  else
    match joint.jointStep state request with
    | .error _ => .error (walk.pairs + 1)
    | .ok outcome =>
      let rows := walk.rows ++ [⟨state, request, outcome⟩]
      if outcome.successor ∈ walk.seen then .ok ⟨walk.seen, walk.next, rows, walk.pairs + 1⟩
      else .ok ⟨walk.seen ++ [outcome.successor], walk.next ++ [outcome.successor], rows, walk.pairs + 1⟩

def pass (maxPairs : ℕ) (frontier : List (List I128)) (walk : Walk) : Except ℕ Walk :=
  frontier.foldlM (fun walk state => (requests joint.request).foldlM (joint.visit maxPairs state) walk) walk

/-- the frontiers; each pass counts a pair, so that `maxPairs + 1` of them are never used up -/
def explore (maxPairs : ℕ) : ℕ → List (List I128) → Walk → Except ℕ (List JointRow)
  | _, [], walk => .ok walk.rows
  | 0, _ :: _, _ => .error maxPairs
  | fuel + 1, state :: frontier, walk => do
    let walk ← joint.pass maxPairs (state :: frontier) ⟨walk.seen, [], walk.rows, walk.pairs⟩
    explore maxPairs fuel walk.next walk

def reachable (maxPairs : UInt64) : Except ℕ (List JointRow) :=
  joint.explore maxPairs.toNat (maxPairs.toNat + 1) [joint.genesis] ⟨[joint.genesis], [], [], 0⟩

end JointComposition

/-! ## The enumeration of the requests -/

section Requests

variable {slots : List RequestSlot}

/-- the offset above, below the size -/
def above (slot : RequestSlot) (offset : ℕ) : Option ℕ :=
  if offset + 1 < slot.domain.size then some (offset + 1) else none

theorem visits_range {slot : RequestSlot} (h : 0 < slot.domain.size) :
    Visits (above slot) 0 (List.range slot.domain.size) := by
  have hfrom : ∀ n offset, offset + (n + 1) = slot.domain.size →
      Visits (above slot) offset (List.range' offset (n + 1)) := by
    intro n
    induction n with
    | zero =>
      intro offset hsize
      exact .last (if_neg (by omega))
    | succ n ih =>
      intro offset hsize
      have hnext : above slot offset = some (offset + 1) := if_pos (by omega)
      exact .step hnext (ih (offset + 1) (by omega))
  obtain ⟨n, hn⟩ := Nat.exists_eq_add_of_lt h
  have hvisits := hfrom n 0 (by omega)
  rw [List.range_eq_range']
  rwa [show n + 1 = slot.domain.size by omega] at hvisits

variable {offsets : List ℕ}

theorem carry_eq (h : offsets.length = slots.length) :
    Odometer.carry slots offsets = match Lib.advance (fun _ => 0) above slots offsets with
      | some next => (next, false)
      | none => (slots.map fun _ => 0, true) := by
  induction slots generalizing offsets with
  | nil =>
    obtain rfl := List.length_eq_zero_iff.1 h
    rfl
  | cons slot slots ih =>
    obtain ⟨offset, offsets, rfl⟩ := List.exists_cons_of_length_eq_add_one h
    rw [List.length_cons, List.length_cons, Nat.add_right_cancel_iff] at h
    rw [Odometer.carry, ih h]
    cases htail : Lib.advance (fun _ => 0) above slots offsets with
    | some next => rw [advance_some _ _ htail]
    | none =>
      rw [advance_none _ _ htail]
      dsimp only
      unfold above
      split_ifs <;> rfl

theorem length_carry (h : offsets.length = slots.length) :
    (Odometer.carry slots offsets).1.length = slots.length := by
  induction slots generalizing offsets with
  | nil =>
    obtain rfl := List.length_eq_zero_iff.1 h
    rfl
  | cons slot slots ih =>
    obtain ⟨offset, offsets, rfl⟩ := List.exists_cons_of_length_eq_add_one h
    rw [List.length_cons, List.length_cons, Nat.add_right_cancel_iff] at h
    have hlen := ih h
    rw [Odometer.carry]
    rcases hcarry : Odometer.carry slots offsets with ⟨next, _ | _⟩
    · rw [hcarry] at hlen
      exact congrArg (· + 1) hlen
    · rw [hcarry] at hlen
      dsimp only
      split_ifs
      · exact congrArg (· + 1) hlen
      · exact congrArg (· + 1) hlen

theorem tuples_eq (n : ℕ) (h : offsets.length = slots.length) :
    (⟨slots, offsets, false⟩ : Odometer).tuples n = (trace (Lib.advance (fun _ => 0) above slots) n offsets).map
      (List.zipWith (fun slot offset => slot.domain.nth offset) slots) := by
  induction n generalizing offsets with
  | zero => rfl
  | succ n ih =>
    have hlen := length_carry h
    rw [Odometer.tuples, Odometer.nextTuple, if_neg Bool.false_ne_true, trace, List.map_cons]
    dsimp only
    rw [carry_eq h] at hlen ⊢
    refine congrArg (Odometer.tuple ⟨slots, offsets, false⟩ :: ·) ?_
    cases hnext : Lib.advance (fun _ => 0) above slots offsets with
    | some next =>
      rw [hnext] at hlen
      exact ih hlen
    | none =>
      cases n <;> rfl

/-- **Requests.** The odometer passes through the product of the offsets. -/
theorem requests_eq (h : ∀ slot ∈ slots, 0 < slot.domain.size) : requests slots =
    (Axes.tuples (slots.map fun slot => List.range slot.domain.size)).map
      (List.zipWith (fun slot offset => slot.domain.nth offset) slots) := by
  have hvisits : Visits (Lib.advance (fun _ => 0) above slots) (slots.map fun _ => 0)
      (Axes.tuples (slots.map fun slot => List.range slot.domain.size)) :=
    visits_advance fun slot hslot => visits_range (h slot hslot)
  have hlength : (Axes.tuples (slots.map fun slot => List.range slot.domain.size)).length =
      (slots.map fun slot => slot.domain.size).prod := by
    rw [Axes.length_tuples, Axes.size_eq_prod, List.map_map]
    refine congrArg List.prod (List.map_congr_left fun slot _ => ?_)
    exact List.length_range
  rw [requests, Odometer.new, tuples_eq _ (List.length_map _), hvisits.trace_eq hlength.le]

theorem length_requests (h : ∀ slot ∈ slots, 0 < slot.domain.size) :
    (requests slots).length = (slots.map fun slot => slot.domain.size).prod := by
  rw [requests_eq h, List.length_map, Axes.length_tuples, Axes.size_eq_prod, List.map_map]
  refine congrArg List.prod (List.map_congr_left fun slot _ => ?_)
  exact List.length_range

/-- the product of the values of the request fields -/
def product (slots : List RequestSlot) : List (List I128) := Axes.tuples (slots.map fun slot => slot.domain.values)

/-- a domain whose offsets give its values in order -/
def Exact (domain : FieldDomain) : Prop := (List.range domain.size).map domain.nth = domain.values

theorem requests_eq_product (h : ∀ slot ∈ slots, 0 < slot.domain.size) (hexact : ∀ slot ∈ slots, Exact slot.domain) :
    requests slots = product slots := by
  rw [requests_eq h, product]
  clear h
  induction slots with
  | nil => rfl
  | cons slot slots ih =>
    rw [List.map_cons, List.map_cons, Axes.tuples, Axes.tuples, ← ih fun s hs => hexact s (List.mem_cons_of_mem _ hs),
      ← hexact slot List.mem_cons_self, List.map_flatMap, List.flatMap_map]
    refine List.flatMap_congr fun offset _ => ?_
    rw [List.map_map, List.map_map]
    rfl

end Requests

/-! ## Domains of a manifest -/

/-- a request domain of a manifest -/
def Listed (domain : FieldDomain) : Prop := domain = .bool ∨ ∃ min max : I128, min.val ≤ max.val ∧ domain = .int min max

theorem getElem_visits {min max v : I128} {l : List I128} (h : Visits (Finite.Domain.above (.int min max)) v l) (k : ℕ)
    (hk : k < l.length) : (l[k]).val = v.val + k := by
  induction h generalizing k with
  | last hnone =>
    rw [List.length_singleton, Nat.lt_one_iff] at hk
    subst hk
    simp
  | step hsome _ ih =>
    cases k with
    | zero => simp
    | succ k =>
      rw [List.getElem_cons_succ, ih k (Nat.lt_of_succ_lt_succ hk), (Finite.Domain.above_some.1 hsome).2]
      push_cast
      ring

variable {domain : FieldDomain}

/-- a listed domain has a value -/
theorem Listed.values_ne_nil (h : Listed domain) : domain.values ≠ [] := by
  rcases h with rfl | ⟨min, max, hle, rfl⟩
  · exact List.cons_ne_nil _ _
  · rw [FieldDomain.values, if_pos hle]
    exact (Finite.Domain.climb_values (d := .int min max) (decide_eq_true hle)).visits.ne_nil

/-- a listed domain has each value once -/
theorem Listed.nodup_values (h : Listed domain) : domain.values.Nodup := by
  rcases h with rfl | ⟨min, max, hle, rfl⟩
  · decide
  · rw [FieldDomain.values, if_pos hle]
    refine (Finite.Domain.climb_values (d := .int min max) (decide_eq_true hle)).sorted.imp fun {a b} hlt heq => ?_
    rw [heq] at hlt
    exact lt_irrefl _ hlt

theorem mem_values {v : I128} : v ∈ domain.values ↔ domain.contains v = true := by
  cases domain with
  | bool =>
    simp only [FieldDomain.values, FieldDomain.contains, List.mem_cons, List.not_mem_nil, or_false, Bool.or_eq_true,
      decide_eq_true_eq, ← Finite.val_inj]
    exact Iff.rfl
  | int min max =>
    rw [FieldDomain.contains, Bool.and_eq_true, decide_eq_true_eq, decide_eq_true_eq]
    by_cases hle : min.val ≤ max.val
    · rw [FieldDomain.values, if_pos hle, (Finite.Domain.climb_values (d := .int min max) (decide_eq_true hle)).mem]
      exact Iff.rfl
    · rw [FieldDomain.values, if_neg hle]
      exact iff_of_false List.not_mem_nil fun h => hle (h.1.trans h.2)
  | variants ids => rw [FieldDomain.values, FieldDomain.contains, List.contains_iff_mem]

/-- the size of a listed domain saturates at `u128::MAX` -/
theorem Listed.size_eq (h : Listed domain) :
    domain.size = Min.min domain.values.length u128Max := by
  rcases h with rfl | ⟨min, max, hle, rfl⟩
  · rfl
  · rw [FieldDomain.values, if_pos hle, FieldDomain.size, if_neg (not_lt.2 hle),
      Finite.Domain.length_values (d := .int min max) (decide_eq_true hle)]
    rfl

theorem narrow_of {z : ℤ} (hlo : -2 ^ 127 ≤ z) (hhi : z < 2 ^ 127) : ∃ v, Finite.narrow z = some v ∧ v.val = z := by
  cases hv : Finite.narrow z with
  | none =>
    have hout := Finite.narrow_eq_none.1 hv
    omega
  | some v => exact ⟨v, rfl, Finite.narrow_eq_some.1 hv⟩

theorem nth_int {min max offset sum : I128} {k : ℕ} (hoffset : Finite.narrow k = some offset)
    (hsum : Finite.narrow (min.val + k) = some sum) : (FieldDomain.int min max).nth k = sum := by
  have hadd : Finite.checkedAdd min offset = some sum := by
    rw [Finite.checkedAdd, Finite.narrow_eq_some.1 hoffset, hsum]
  change (Finite.checkedAdd min ((Finite.narrow k).getD i128Max)).getD i128Max = sum
  rw [hoffset, Option.getD_some, hadd, Option.getD_some]

theorem Listed.exact (h : Listed domain) (hsize : domain.size < 2 ^ 64) : Exact domain := by
  have heq := h.size_eq
  have hcap : 2 ^ 64 ≤ u128Max := by norm_num [u128Max]
  have hlength : domain.size = domain.values.length := by
    rw [heq] at hsize
    rw [heq]
    exact Nat.min_eq_left (Nat.le_of_not_lt fun hlt => by rw [Nat.min_eq_right hlt.le] at hsize; omega)
  unfold Exact
  rw [hlength] at hsize ⊢
  clear heq hlength hcap
  rcases h with rfl | ⟨min, max, hle, rfl⟩
  · rfl
  have hclimb := Finite.Domain.climb_values (d := .int min max) (decide_eq_true hle)
  have hvalues : (FieldDomain.int min max).values = (Finite.Domain.int min max).values := if_pos hle
  rw [hvalues] at hsize ⊢
  refine List.ext_getElem (by rw [List.length_map, List.length_range]) fun k hk hk' => ?_
  have hlast : (Finite.Domain.int min max).values.length = (max.val - min.val).toNat + 1 := hclimb.length
  rw [List.getElem_map, List.getElem_range, ← Finite.val_inj, getElem_visits hclimb.visits k hk']
  have hlo := min.lo
  have hhi := max.hi
  obtain ⟨offset, hoffset, -⟩ := @narrow_of k (by omega) (by omega)
  obtain ⟨sum, hsum, hvalue⟩ := @narrow_of (min.val + k) (by omega) (by omega)
  rw [nth_int hoffset hsum, hvalue]
  rfl

/-! ## What a step preserves -/

/-- a state inside its slots' domains -/
def Holds (slots : List StateSlot) (state : List I128) : Prop :=
  List.Forall₂ (fun slot value => slot.domain.contains value = true) slots state

/-- a request inside its fields' domains -/
def Asked (slots : List RequestSlot) (request : List I128) : Prop :=
  List.Forall₂ (fun slot value => slot.domain.contains value = true) slots request

/-- a successor inside a component's domains -/
def Fits (component : Component) (post : List I128) : Prop :=
  List.Forall₂ (fun field value => field.domain.contains value = true) component.stateFields post

/-- the states of the components, each inside its own domains -/
def HoldsEach (components : List Component) (states : List (List I128)) : Prop :=
  List.Forall₂ (fun component own => Holds component.slots own) components states

section Step

variable {component : Component} {components : List Component} {pre : List (List I128)} {request : List I128}

theorem length_slots : component.slots.length = component.width := by
  unfold Component.slots Component.width
  split_ifs
  · exact List.length_map _
  · rfl

theorem Fits.holds {post : List I128} (h : Fits component post) (howns : component.owns = true) :
    Holds component.slots post := by
  unfold Holds Component.slots
  rw [if_pos howns, List.forall₂_map_left_iff]
  exact h

theorem holdsEach_splitStates {state : List I128} (h : Holds (components.flatMap Component.slots) state) :
    HoldsEach components (splitStates components state) := by
  induction components generalizing state with
  | nil => exact .nil
  | cons component components ih =>
    rw [List.flatMap_cons] at h
    have htake := List.forall₂_take_append state component.slots (components.flatMap Component.slots) h.flip
    have hdrop := List.forall₂_drop_append state component.slots (components.flatMap Component.slots) h.flip
    rw [length_slots] at htake hdrop
    exact .cons htake.flip (ih hdrop.flip)

theorem HoldsEach.flatten {states : List (List I128)} (h : HoldsEach components states) :
    Holds (components.flatMap Component.slots) states.flatten := by
  induction h with
  | nil => exact .nil
  | cons hown _ ih =>
    rw [List.flatMap_cons, List.flatten_cons]
    exact List.rel_append hown ih

theorem fits_of_localStep {index : ℕ} {failure : Bool} {reason : Option UInt32} {post : List I128}
    (h : localStep component index pre request = .commit failure reason post) : Fits component post := by
  unfold localStep at h
  split at h
  · cases h
  · split at h
    · cases h
    · split at h
      · cases h
      · cases h
      · cases h
      · next hdecision =>
        split at h
        · cases h
        · cases h
          exact component.commits _ _ _ _ hdecision (Or.inl rfl)
      · next hdecision =>
        split at h
        · cases h
        · cases h
          exact component.commits _ _ _ _ hdecision (Or.inr rfl)

/-- every collected successor fits its component -/
def Collected (components : List Component) (posts : List (Option (List I128))) : Prop :=
  ∀ (i : ℕ) (component : Component) (post : List I128), components[i]? = some component →
    posts[i]? = some (some post) → Fits component post

variable {posts : List (Option (List I128))} {all : List Component}

theorem Collected.concat {entry : Option (List I128)}
    (h : Collected all posts) (hnew : ∀ component post, all[posts.length]? = some component → entry = some post →
      Fits component post) : Collected all (posts ++ [entry]) := by
  intro i component post hcomponent hpost
  rcases Nat.lt_trichotomy i posts.length with hlt | rfl | hgt
  · rw [List.getElem?_append_left hlt] at hpost
    exact h i component post hcomponent hpost
  · rw [List.getElem?_concat_length] at hpost
    exact hnew component post hcomponent (Option.some.inj hpost)
  · rw [List.getElem?_eq_none (by rw [List.length_append, List.length_singleton]; omega)] at hpost
    cases hpost

theorem collected_resolve (hdrop : all.drop posts.length = components) (hposts : Collected all posts) :
    Collected all (resolve pre request components posts.length posts).posts := by
  induction components generalizing posts with
  | nil => exact hposts
  | cons component components ih =>
    have hcomponent : all[posts.length]? = some component := by
      rw [← List.head?_drop, hdrop]
      rfl
    have hrest : all.drop (posts.length + 1) = components := by
      rw [← List.drop_drop, hdrop]
      rfl
    have hnext {entry : Option (List I128)} (hentry : ∀ post, entry = some post → Fits component post) :
        Collected all (posts ++ [entry]) :=
      hposts.concat fun component' post hcomponent' heq => by
        rw [hcomponent] at hcomponent'
        cases hcomponent'
        exact hentry post heq
    have hgo {entry : Option (List I128)} (hentry : ∀ post, entry = some post → Fits component post) :
        Collected all (resolve pre request components (posts.length + 1) (posts ++ [entry])).posts := by
      have hlen : (posts ++ [entry]).length = posts.length + 1 := by rw [List.length_append, List.length_singleton]
      have hrun := ih (hlen ▸ hrest) (hnext hentry)
      rwa [hlen] at hrun
    rw [resolve]
    cases hlocal : localStep component posts.length pre request with
    | skip => exact hgo nofun
    | reject reason => exact hposts
    | refused class_ => exact hposts
    | commit failure reason post =>
      have hfits : ∀ post', some post = some post' → Fits component post' := by
        rintro post' heq
        cases heq
        exact fits_of_localStep hlocal
      cases failure with
      | true => exact hnext hfits
      | false => exact hgo hfits

theorem holdsEach_apply {resolution : Resolution} (hposts : Collected all resolution.posts)
    {index : ℕ} (hdrop : all.drop index = components) (h : HoldsEach components pre) :
    HoldsEach components (apply resolution components index pre) := by
  induction h generalizing index with
  | nil => exact .nil
  | cons hown _ ih =>
    rename_i component own components pre _
    have hcomponent : all[index]? = some component := by
      rw [← List.head?_drop, hdrop]
      rfl
    refine .cons ?_ (@ih (index + 1) (by rw [← List.drop_drop, hdrop]; rfl))
    unfold applyAt
    split_ifs with hcommits
    · rw [List.getD_eq_getElem?_getD]
      rcases hpost : resolution.posts[index]? with _ | _ | post
      · exact hown
      · exact hown
      · exact (hposts index _ post hcomponent hpost).holds hcommits.2
    · exact hown

/-- **Steps.** A step keeps every state inside its domains. -/
theorem holdsEach_step (h : HoldsEach components pre) : HoldsEach components (step components pre request).2 := by
  have hnone : Collected components [] := fun i component post _ hpost => by cases hpost
  have hposts : Collected components (resolve pre request components 0 []).posts := collected_resolve rfl hnone
  exact holdsEach_apply hposts rfl h

end Step

/-! ## The joint step -/

namespace JointComposition

variable {joint : JointComposition} {state request : List I128}

/-- the outcome of a step, without the checks of its input -/
def run (joint : JointComposition) (state request : List I128) : JointOutcome :=
  joint.outcome (step joint.components (splitStates joint.components state) request).1
    (step joint.components (splitStates joint.components state) request).2

theorem split_eq_ok {pre : List (List I128)} : joint.split state request = .ok pre ↔
    (Holds joint.layout state ∧ Asked joint.request request) ∧ pre = splitStates joint.components state := by
  rw [Holds, Asked, List.forall₂_iff_zip, List.forall₂_iff_zip]
  unfold split
  split_ifs with hstate hrequest
  · exact iff_of_false nofun fun h => hstate h.1.1.1.symm
  · exact iff_of_false nofun fun h => hrequest h.1.2.1.symm
  cases houtside : (joint.layout.zip state).find? outsideState with
  | some slot =>
    refine iff_of_false nofun fun h => ?_
    have hslot := List.find?_some houtside
    rw [outsideState, Bool.not_eq_true'] at hslot
    have hin : slot.1.domain.contains slot.2 = true := h.1.1.2 (List.mem_of_find?_eq_some houtside)
    rw [hin] at hslot
    cases hslot
  | none =>
    have hin : ∀ {slot : StateSlot} {value : I128}, (slot, value) ∈ joint.layout.zip state →
        slot.domain.contains value = true := by
      intro slot value hmem
      have hslot := List.find?_eq_none.1 houtside _ hmem
      rw [outsideState, Bool.not_eq_true', Bool.not_eq_false] at hslot
      exact hslot
    cases hwrong : (joint.request.zip request).find? outsideRequest with
    | some slot =>
      refine iff_of_false nofun fun h => ?_
      have hslot := List.find?_some hwrong
      rw [outsideRequest, Bool.not_eq_true'] at hslot
      have hasked : slot.1.domain.contains slot.2 = true := h.1.2.2 (List.mem_of_find?_eq_some hwrong)
      rw [hasked] at hslot
      cases hslot
    | none =>
      have hasked : ∀ {slot : RequestSlot} {value : I128}, (slot, value) ∈ joint.request.zip request →
          slot.domain.contains value = true := by
        intro slot value hmem
        have hslot := List.find?_eq_none.1 hwrong _ hmem
        rw [outsideRequest, Bool.not_eq_true', Bool.not_eq_false] at hslot
        exact hslot
      dsimp only
      rw [Except.ok.injEq]
      constructor
      · intro h
        exact ⟨⟨⟨(not_not.1 hstate).symm, hin⟩, (not_not.1 hrequest).symm, hasked⟩, h.symm⟩
      · intro h
        exact h.2.symm

/-- a joint step at an admitted state runs the components -/
theorem jointStep_eq (hstate : Holds joint.layout state) (hrequest : Asked joint.request request) :
    joint.jointStep state request = .ok (joint.run state request) := by
  rw [jointStep, split_eq_ok.2 ⟨⟨hstate, hrequest⟩, rfl⟩]
  rfl

theorem holds_of_jointStep {outcome : JointOutcome} (h : joint.jointStep state request = .ok outcome) :
    Holds joint.layout state := by
  obtain ⟨_, hsplit, _⟩ := bind_eq_ok.1 h
  exact (split_eq_ok.1 hsplit).1.1

theorem holds_run (h : Holds joint.layout state) : Holds joint.layout (joint.run state request).successor :=
  (holdsEach_step (holdsEach_splitStates h)).flatten

/-! ### Reachable states -/

/-- the successors of a state under the complete product of the request fields -/
def successors (joint : JointComposition) (state : List I128) : List (List I128) :=
  (product joint.request).filterMap fun request =>
    match joint.jointStep state request with
    | .ok outcome => some outcome.successor
    | .error _ => none

/-- reachable from genesis by joint steps -/
def Reachable (joint : JointComposition) : List I128 → Prop := Reaches joint.successors joint.genesis

theorem listed {slot : RequestSlot} (h : slot ∈ joint.request) : Listed slot.domain := joint.requestDomains slot h

/-- the product lists the requests -/
theorem mem_product : request ∈ product joint.request ↔ Asked joint.request request := by
  rw [product, Axes.mem_tuples, List.forall₂_map_right_iff, Asked]
  constructor
  · intro h
    exact List.Forall₂.flip (h.imp fun _ _ hmem => mem_values.1 hmem)
  · intro h
    exact List.Forall₂.flip (h.imp fun _ _ hmem => mem_values.2 hmem)

theorem nodup_product : (product joint.request).Nodup :=
  Axes.nodup_tuples fun axis haxis => by
    obtain ⟨slot, hslot, rfl⟩ := List.mem_map.1 haxis
    exact (listed hslot).nodup_values

theorem successors_eq (h : Holds joint.layout state) :
    joint.successors state = (product joint.request).map fun request => (joint.run state request).successor := by
  unfold successors
  rw [← List.filterMap_eq_map]
  refine List.filterMap_congr fun request hrequest => ?_
  rw [jointStep_eq h (mem_product.1 hrequest)]
  rfl

/-- reachable states hold the layout -/
theorem holds_reachable (hgenesis : Holds joint.layout joint.genesis) (h : joint.Reachable state) :
    Holds joint.layout state := by
  induction h with
  | refl => exact hgenesis
  | tail _ hstep ih =>
    rw [successors_eq ih] at hstep
    obtain ⟨request, _, rfl⟩ := List.mem_map.1 hstep
    exact holds_run ih

/-- from a genesis outside its domain nothing else is reached -/
theorem reachable_outside_iff (hgenesis : ¬Holds joint.layout joint.genesis) :
    joint.Reachable state ↔ state = joint.genesis := by
  have hnone : joint.successors joint.genesis = [] := by
    refine List.filterMap_eq_nil_iff.2 fun request _ => ?_
    cases hstep : joint.jointStep joint.genesis request with
    | ok outcome => exact absurd (holds_of_jointStep hstep) hgenesis
    | error _ => rfl
  constructor
  · intro h
    induction h with
    | refl => rfl
    | tail _ hstep ih =>
      rw [ih, hnone] at hstep
      exact absurd hstep List.not_mem_nil
  · rintro rfl
    exact .refl

theorem finite_reachable : {state | joint.Reachable state}.Finite := by
  by_cases hgenesis : Holds joint.layout joint.genesis
  · refine (List.finite_toSet (Axes.tuples (joint.layout.map fun slot => slot.domain.values))).subset fun state h => ?_
    have hholds := holds_reachable hgenesis h
    change state ∈ Axes.tuples _
    rw [Axes.mem_tuples, List.forall₂_map_right_iff]
    exact List.Forall₂.flip (hholds.imp fun _ _ hin => mem_values.2 hin)
  · exact (Set.finite_singleton joint.genesis).subset fun state h => (reachable_outside_iff hgenesis).1 h

/-! ### The innermost loop -/

section Scan

variable {maxPairs : ℕ} {walk walk' : Walk}

theorem pairs_scan {asked : List (List I128)} (hle : walk.pairs ≤ maxPairs)
    (h : asked.foldlM (joint.visit maxPairs state) walk = .ok walk') :
    walk'.pairs = walk.pairs + asked.length ∧ walk'.pairs ≤ maxPairs := by
  induction asked generalizing walk with
  | nil =>
    cases h
    exact ⟨rfl, hle⟩
  | cons request asked ih =>
    rw [List.foldlM_cons] at h
    obtain ⟨next, hvisit, hrest⟩ := bind_eq_ok.1 h
    have hnext : next.pairs = walk.pairs + 1 ∧ next.pairs ≤ maxPairs := by
      unfold visit at hvisit
      split_ifs at hvisit with hover
      split at hvisit
      · cases hvisit
      · dsimp only at hvisit
        split_ifs at hvisit
        · cases hvisit
          exact ⟨rfl, not_lt.1 hover⟩
        · cases hvisit
          exact ⟨rfl, not_lt.1 hover⟩
    obtain ⟨hpairs, hbound⟩ := ih hnext.2 hrest
    exact ⟨by rw [hpairs, hnext.1, List.length_cons]; omega, hbound⟩

/-- the row of a pair -/
def row (joint : JointComposition) (state request : List I128) : JointRow := ⟨state, request, joint.run state request⟩

theorem scan_eq {asked : List (List I128)} (hstate : Holds joint.layout state)
    (hasked : ∀ request ∈ asked, Asked joint.request request) (hle : walk.pairs ≤ maxPairs) :
    ∃ new, firsts walk.seen (asked.map fun request => (joint.run state request).successor) = walk.seen ++ new ∧
      asked.foldlM (joint.visit maxPairs state) walk =
        if walk.pairs + asked.length ≤ maxPairs then
          .ok ⟨walk.seen ++ new, walk.next ++ new, walk.rows ++ asked.map (joint.row state), walk.pairs + asked.length⟩
        else .error maxPairs := by
  induction asked generalizing walk with
  | nil =>
    refine ⟨[], (List.append_nil _).symm, ?_⟩
    have hle' : walk.pairs + ([] : List (List I128)).length ≤ maxPairs := hle
    rw [if_pos hle', List.append_nil, List.append_nil, List.map_nil, List.append_nil]
    rfl
  | cons request asked ih =>
    rw [List.forall_mem_cons] at hasked
    rw [List.map_cons, List.foldlM_cons, firsts]
    by_cases hover : walk.pairs + 1 > maxPairs
    · obtain ⟨new, hnew⟩ : ∃ new, walk.seen ++ new =
          firsts walk.seen (((request :: asked)).map fun request => (joint.run state request).successor) :=
        prefix_firsts _ _
      refine ⟨new, ?_, ?_⟩
      · rw [hnew, List.map_cons, firsts]
      · rw [visit, if_pos hover, error_bind, if_neg (by rw [List.length_cons]; omega)]
    have hvisit : joint.visit maxPairs state walk request =
        if (joint.run state request).successor ∈ walk.seen then
          .ok ⟨walk.seen, walk.next, walk.rows ++ [joint.row state request], walk.pairs + 1⟩
        else .ok ⟨walk.seen ++ [(joint.run state request).successor],
          walk.next ++ [(joint.run state request).successor], walk.rows ++ [joint.row state request],
          walk.pairs + 1⟩ := by
      rw [visit, if_neg hover, jointStep_eq hstate hasked.1]
      rfl
    rw [hvisit]
    have hsum : walk.pairs + 1 + asked.length = walk.pairs + (asked.length + 1) := by omega
    by_cases hseen : (joint.run state request).successor ∈ walk.seen
    · rw [if_pos hseen, if_pos hseen, ok_bind]
      obtain ⟨new, hnew, hrun⟩ := @ih
        ⟨walk.seen, walk.next, walk.rows ++ [joint.row state request], walk.pairs + 1⟩ hasked.2 (not_lt.1 hover)
      refine ⟨new, hnew, hrun.trans ?_⟩
      dsimp only
      rw [hsum, List.append_assoc, List.singleton_append, List.length_cons, List.map_cons]
    · rw [if_neg hseen, if_neg hseen, ok_bind]
      obtain ⟨new, hnew, hrun⟩ := @ih ⟨walk.seen ++ [(joint.run state request).successor],
        walk.next ++ [(joint.run state request).successor], walk.rows ++ [joint.row state request], walk.pairs + 1⟩
        hasked.2 (not_lt.1 hover)
      refine ⟨(joint.run state request).successor :: new, ?_, hrun.trans ?_⟩
      · rw [hnew, List.append_assoc, List.singleton_append]
      · dsimp only
        rw [hsum, List.append_assoc, List.append_assoc, List.append_assoc, List.singleton_append,
          List.singleton_append, List.length_cons, List.map_cons]

end Scan

/-! ### The frontiers -/

/-- the rows of a state -/
def rowsAt (joint : JointComposition) (state : List I128) : List JointRow :=
  (product joint.request).map (joint.row state)

/-- an exploration that has visited some states and has a frontier left -/
structure Exploring (joint : JointComposition) (maxPairs : ℕ) (visited frontier : List (List I128)) (walk : Walk) :
    Prop where
  search : Search joint.successors joint.genesis visited (frontier ++ walk.next)
  seen : walk.seen = visited ++ (frontier ++ walk.next)
  rows : walk.rows = visited.flatMap joint.rowsAt
  pairs : walk.pairs = visited.length * (product joint.request).length
  le : walk.pairs ≤ maxPairs

/-- more pairs are reachable than the budget allows -/
def Exceeds (joint : JointComposition) (maxPairs : ℕ) : Prop :=
  ∃ states : List (List I128), states.Nodup ∧ (∀ state ∈ states, joint.Reachable state) ∧
    maxPairs < states.length * (product joint.request).length

section Frontier

variable {maxPairs : ℕ} {visited frontier : List (List I128)} {walk : Walk}

theorem Exploring.visit (hgenesis : Holds joint.layout joint.genesis)
    (h : Exploring joint maxPairs visited (state :: frontier) walk) :
    (∃ walk', (product joint.request).foldlM (joint.visit maxPairs state) walk = .ok walk' ∧
      Exploring joint maxPairs (visited ++ [state]) frontier walk') ∨
    (product joint.request).foldlM (joint.visit maxPairs state) walk = .error maxPairs ∧ joint.Exceeds maxPairs := by
  have hreach : joint.Reachable state :=
    h.search.reaches (List.mem_append_right _ (List.mem_append_left _ List.mem_cons_self))
  have hstate := holds_reachable hgenesis hreach
  obtain ⟨new, hnew, hrun⟩ := scan_eq hstate (fun request hrequest => mem_product.1 hrequest) h.le
  have hcount : (visited.length + 1) * (product joint.request).length =
      walk.pairs + (product joint.request).length := by rw [h.pairs, Nat.add_mul, Nat.one_mul]
  split_ifs at hrun with hle
  · refine Or.inl ⟨_, hrun, ?_⟩
    have hseen : walk.seen = visited ++ state :: (frontier ++ walk.next) := h.seen
    have hfound : firsts (visited ++ state :: (frontier ++ walk.next)) (joint.successors state) =
        (visited ++ state :: (frontier ++ walk.next)) ++ new := by rw [successors_eq hstate, ← hseen, hnew]
    have hsearch := h.search.visit hfound
    constructor
    · rw [← List.append_assoc]
      exact hsearch
    · rw [h.seen]
      simp
    · rw [h.rows, List.flatMap_append, List.flatMap_singleton]
      rfl
    · rw [List.length_append, List.length_singleton, hcount]
    · exact hle
  · refine Or.inr ⟨hrun, visited ++ [state], ?_, fun s hs => ?_, ?_⟩
    · have hnodup := h.search.nodup
      rw [List.cons_append, List.append_cons] at hnodup
      exact (List.nodup_append.1 hnodup).1
    · refine h.search.reaches ?_
      rw [List.cons_append, List.append_cons]
      exact List.mem_append_left _ hs
    · rw [List.length_append, List.length_singleton, hcount]
      omega

theorem Exploring.pass (hgenesis : Holds joint.layout joint.genesis)
    (hrequests : requests joint.request = product joint.request) (h : Exploring joint maxPairs visited frontier walk) :
    (∃ walk', joint.pass maxPairs frontier walk = .ok walk' ∧
      Exploring joint maxPairs (visited ++ frontier) [] walk') ∨
    joint.pass maxPairs frontier walk = .error maxPairs ∧ joint.Exceeds maxPairs := by
  unfold JointComposition.pass
  rw [hrequests]
  induction frontier generalizing visited walk with
  | nil => exact Or.inl ⟨walk, rfl, by rwa [List.append_nil]⟩
  | cons state frontier ih =>
    rw [List.foldlM_cons]
    rcases h.visit hgenesis with ⟨walk', hvisit, hnext⟩ | ⟨herror, hexceeds⟩
    · rw [hvisit, ok_bind]
      have hrest := ih hnext
      rwa [List.append_assoc, List.singleton_append] at hrest
    · rw [herror, error_bind]
      exact Or.inr ⟨rfl, hexceeds⟩

/-- **Exploration.** With a frontier a pass counts a pair, so that the passes suffice; the run ends with every reachable
state visited, or over the budget. -/
theorem Exploring.explore (hgenesis : Holds joint.layout joint.genesis)
    (hrequests : requests joint.request = product joint.request) (hpos : 0 < (product joint.request).length)
    {fuel : ℕ} (hfuel : maxPairs < walk.pairs + fuel)
    (h : Exploring joint maxPairs visited frontier ⟨walk.seen, [], walk.rows, walk.pairs⟩) :
    (∃ order, joint.explore maxPairs fuel frontier walk = .ok (order.flatMap joint.rowsAt) ∧
      BreadthFirst joint.successors joint.genesis order ∧ order.length * (product joint.request).length ≤ maxPairs) ∨
    joint.explore maxPairs fuel frontier walk = .error maxPairs ∧ joint.Exceeds maxPairs := by
  induction fuel generalizing visited frontier walk with
  | zero =>
    have hle : walk.pairs ≤ maxPairs := h.le
    omega
  | succ fuel ih =>
    cases frontier with
    | nil =>
      refine Or.inl ⟨visited, ?_, h.search.breadthFirst, h.pairs ▸ h.le⟩
      rw [JointComposition.explore]
      exact congrArg Except.ok h.rows
    | cons state frontier =>
      rw [JointComposition.explore]
      rcases h.pass hgenesis hrequests with ⟨walk', hpass, hdone⟩ | ⟨herror, hexceeds⟩
      · rw [hpass, ok_bind]
        have hpairs : walk.pairs = visited.length * (product joint.request).length := h.pairs
        have hcount := hdone.pairs
        rw [List.length_append, List.length_cons, Nat.add_mul, ← hpairs, Nat.add_mul, Nat.one_mul] at hcount
        refine ih (by omega) ⟨?_, ?_, hdone.rows, hdone.pairs, hdone.le⟩
        · rw [List.append_nil]
          exact hdone.search
        · rw [List.append_nil]
          exact hdone.seen
      · rw [herror, error_bind]
        exact Or.inr ⟨rfl, hexceeds⟩

end Frontier

/-! ## Exploration is exact -/

theorem size_pos {slot : RequestSlot} (h : slot ∈ joint.request) : 0 < slot.domain.size := by
  rw [(listed h).size_eq]
  exact lt_min (List.length_pos_of_ne_nil (listed h).values_ne_nil) (by norm_num [u128Max])

theorem length_requests_le : (requests joint.request).length ≤ (product joint.request).length := by
  rw [length_requests fun slot hslot => size_pos hslot, product, Axes.length_tuples, Axes.size_eq_prod, List.map_map]
  refine List.prod_le_prod' fun slot hslot => ?_
  rw [(listed hslot).size_eq]
  exact Nat.min_le_left _ _

theorem prod_size_pos : 0 < (joint.request.map fun slot => slot.domain.size).prod :=
  List.prod_pos fun n hn => by
    obtain ⟨slot, hslot, rfl⟩ := List.mem_map.1 hn
    exact size_pos hslot

theorem requests_eq_of_le (h : (requests joint.request).length < 2 ^ 64) :
    requests joint.request = product joint.request := by
  refine requests_eq_product (fun slot hslot => size_pos hslot) fun slot hslot => (listed hslot).exact ?_
  rw [length_requests fun slot hslot => size_pos hslot] at h
  have hdvd : slot.domain.size ∣ (joint.request.map fun slot => slot.domain.size).prod :=
    List.dvd_prod (List.mem_map_of_mem (f := fun slot : RequestSlot => slot.domain.size) hslot)
  exact lt_of_le_of_lt (Nat.le_of_dvd prod_size_pos hdvd) h

theorem product_pos : 0 < (product joint.request).length := by
  rw [product, Axes.length_tuples]
  refine Axes.size_pos fun axis haxis => ?_
  obtain ⟨slot, hslot, rfl⟩ := List.mem_map.1 haxis
  exact (listed hslot).values_ne_nil

/-- a search from such a genesis fails -/
theorem reachable_outside (maxPairs : UInt64) (h : ¬Holds joint.layout joint.genesis) :
    ∃ e, joint.reachable maxPairs = .error e := by
  have hfirst (walk : Walk) (request : List I128) :
      ∃ e, joint.visit maxPairs.toNat joint.genesis walk request = .error e := by
    unfold visit
    split_ifs
    · exact ⟨_, rfl⟩
    · cases hstep : joint.jointStep joint.genesis request with
      | ok outcome => exact absurd (holds_of_jointStep hstep) h
      | error _ => exact ⟨_, rfl⟩
  have hne : requests joint.request ≠ [] := by
    intro hnil
    have hpos : 0 < (joint.request.map fun slot => slot.domain.size).prod := prod_size_pos
    rw [← length_requests fun slot hslot => size_pos hslot, hnil] at hpos
    exact absurd hpos (Nat.lt_irrefl 0)
  obtain ⟨request, asked, hasked⟩ := List.exists_cons_of_ne_nil hne
  obtain ⟨e, he⟩ := hfirst ⟨[joint.genesis], [], [], 0⟩ request
  refine ⟨e, ?_⟩
  rw [reachable, JointComposition.explore, JointComposition.pass, List.foldlM_cons, hasked, List.foldlM_cons, he]
  rfl

theorem reachable_over {maxPairs : UInt64} (h : maxPairs.toNat < (requests joint.request).length) :
    ∃ e, joint.reachable maxPairs = .error e := by
  rcases ok_or_error ((requests joint.request).foldlM (joint.visit maxPairs.toNat joint.genesis)
    ⟨[joint.genesis], [], [], 0⟩) with ⟨walk, hwalk⟩ | ⟨e, he⟩
  · obtain ⟨hpairs, hle⟩ := pairs_scan (Nat.zero_le _) hwalk
    dsimp only at hpairs
    omega
  · refine ⟨e, ?_⟩
    rw [reachable, JointComposition.explore, JointComposition.pass, List.foldlM_cons, he]
    rfl

theorem reachable_holds {maxPairs : UInt64} (hgenesis : Holds joint.layout joint.genesis)
    (hrequests : requests joint.request = product joint.request) :
    (∃ order, joint.reachable maxPairs = .ok (order.flatMap joint.rowsAt) ∧
      BreadthFirst joint.successors joint.genesis order ∧
      order.length * (product joint.request).length ≤ maxPairs.toNat) ∨
    joint.reachable maxPairs = .error maxPairs.toNat ∧ joint.Exceeds maxPairs.toNat := by
  have hstart : Exploring joint maxPairs.toNat [] [joint.genesis] ⟨[joint.genesis], [], [], 0⟩ :=
    ⟨search_start _ _, rfl, rfl, (Nat.zero_mul _).symm, Nat.zero_le _⟩
  exact Exploring.explore hgenesis hrequests product_pos (by dsimp only; omega) hstart

/-- A result has one row for each reachable state and each request of the complete product, with the outcome of its joint
step: states in breadth-first discovery order, requests in lexicographic order. The reachable pairs are finitely many; an
error means that they exceed the budget or that the genesis lies outside its domains. -/
theorem reachable_answers (joint : JointComposition) (maxPairs : UInt64) :
    (∀ rows, joint.reachable maxPairs = .ok rows → ∃ order, BreadthFirst joint.successors joint.genesis order ∧
      order.Nodup ∧ (∀ state, state ∈ order ↔ joint.Reachable state) ∧ (product joint.request).Nodup ∧
      (rows.map fun row => (row.state, row.request)) =
        order.flatMap (fun state => (product joint.request).map fun request => (state, request)) ∧
      ∀ row ∈ rows, joint.jointStep row.state row.request = .ok row.outcome) ∧
    ∃ pairs : Finset (List I128 × List I128),
      (∀ state request, (state, request) ∈ pairs ↔ joint.Reachable state ∧ request ∈ product joint.request) ∧
      ((∃ e, joint.reachable maxPairs = .error e) ↔
        ¬Holds joint.layout joint.genesis ∨ maxPairs.toNat < pairs.card) := by
  obtain ⟨states, hstates⟩ : ∃ states : Finset (List I128), ∀ state, state ∈ states ↔ joint.Reachable state :=
    ⟨finite_reachable.toFinset, fun state => Set.Finite.mem_toFinset _⟩
  have hcard : (states ×ˢ (product joint.request).toFinset).card = states.card * (product joint.request).length := by
    rw [Finset.card_product, List.toFinset_card_of_nodup nodup_product]
  have hmax : maxPairs.toNat < 2 ^ 64 := maxPairs.toNat_lt
  by_cases hgenesis : Holds joint.layout joint.genesis
  swap
  · obtain ⟨e, he⟩ := reachable_outside maxPairs hgenesis
    refine ⟨fun rows hrows => ?_, states ×ˢ (product joint.request).toFinset, fun state request => ?_,
      iff_of_true ⟨e, he⟩ (Or.inl hgenesis)⟩
    · rw [he] at hrows
      cases hrows
    · rw [Finset.mem_product, hstates, List.mem_toFinset]
  by_cases hover : maxPairs.toNat < (requests joint.request).length
  · obtain ⟨e, he⟩ := reachable_over hover
    refine ⟨fun rows hrows => ?_, states ×ˢ (product joint.request).toFinset, fun state request => ?_,
      iff_of_true ⟨e, he⟩ (Or.inr ?_)⟩
    · rw [he] at hrows
      cases hrows
    · rw [Finset.mem_product, hstates, List.mem_toFinset]
    · have hpos : 0 < states.card := Finset.card_pos.2 ⟨joint.genesis, (hstates _).2 .refl⟩
      rw [hcard]
      exact (hover.trans_le length_requests_le).trans_le (Nat.le_mul_of_pos_left _ hpos)
  have hrequests : requests joint.request = product joint.request := requests_eq_of_le (by omega)
  rcases @reachable_holds joint maxPairs hgenesis hrequests with ⟨order, hok, horder, hle⟩ | ⟨herror, hexceeds⟩
  · refine ⟨fun rows hrows => ⟨order, horder, horder.nodup, fun state => horder.mem_iff, nodup_product, ?_, ?_⟩,
      states ×ˢ (product joint.request).toFinset, fun state request => ?_, iff_of_false ?_ ?_⟩
    · obtain rfl := Except.ok.inj (hok.symm.trans hrows)
      rw [List.map_flatMap]
      refine List.flatMap_congr fun state _ => ?_
      rw [rowsAt, List.map_map]
      rfl
    · obtain rfl := Except.ok.inj (hok.symm.trans hrows)
      intro row hrow
      obtain ⟨state, hstate, hrow⟩ := List.mem_flatMap.1 hrow
      obtain ⟨request, hrequest, rfl⟩ := List.mem_map.1 hrow
      exact jointStep_eq (holds_reachable hgenesis (horder.mem_iff.1 hstate)) (mem_product.1 hrequest)
    · rw [Finset.mem_product, hstates, List.mem_toFinset]
    · rintro ⟨e, he⟩
      rw [hok] at he
      cases he
    · have hsame : states = order.toFinset := by
        ext state
        rw [hstates, List.mem_toFinset, horder.mem_iff]
        rfl
      rw [hcard, hsame, List.toFinset_card_of_nodup horder.nodup]
      exact not_or.2 ⟨not_not.2 hgenesis, not_lt.2 hle⟩
  · refine ⟨fun rows hrows => ?_, states ×ˢ (product joint.request).toFinset, fun state request => ?_,
      iff_of_true ⟨_, herror⟩ (Or.inr ?_)⟩
    · rw [herror] at hrows
      cases hrows
    · rw [Finset.mem_product, hstates, List.mem_toFinset]
    · obtain ⟨reached, hnodup, hreached, hexceeds⟩ := hexceeds
      have hsub : reached.toFinset ⊆ states := fun state h => (hstates state).2 (hreached state (List.mem_toFinset.1 h))
      have hcount := Finset.card_le_card hsub
      rw [List.toFinset_card_of_nodup hnodup] at hcount
      rw [hcard]
      exact hexceeds.trans_le (Nat.mul_le_mul_right _ hcount)

/-- **Exact exploration.** A result has one row for each reachable state and each request of the complete product, with
the outcome of its joint step: states in breadth-first discovery order, requests in lexicographic order. The reachable
pairs are finitely many; an error means that they exceed the budget or that the genesis lies outside its domains. Errors
are therefore those of the budget exactly where the genesis lies inside, or where one state exceeds the budget already. -/
theorem reachable_exact (joint : JointComposition) (maxPairs : UInt64) :
    (∀ rows, joint.reachable maxPairs = .ok rows → ∃ order, BreadthFirst joint.successors joint.genesis order ∧
      order.Nodup ∧ (∀ state, state ∈ order ↔ joint.Reachable state) ∧ (product joint.request).Nodup ∧
      (rows.map fun row => (row.state, row.request)) =
        order.flatMap (fun state => (product joint.request).map fun request => (state, request)) ∧
      ∀ row ∈ rows, joint.jointStep row.state row.request = .ok row.outcome) ∧
    ∃ pairs : Finset (List I128 × List I128),
      (∀ state request, (state, request) ∈ pairs ↔ joint.Reachable state ∧ request ∈ product joint.request) ∧
      ((∃ e, joint.reachable maxPairs = .error e) ↔
        ¬Holds joint.layout joint.genesis ∨ maxPairs.toNat < pairs.card) ∧
      (((∃ e, joint.reachable maxPairs = .error e) ↔ maxPairs.toNat < pairs.card) ↔
        Holds joint.layout joint.genesis ∨ maxPairs.toNat < (product joint.request).length) := by
  obtain ⟨hrows, pairs, hpairs, herror⟩ := reachable_answers joint maxPairs
  refine ⟨hrows, pairs, hpairs, herror, ?_⟩
  by_cases hgenesis : Holds joint.layout joint.genesis
  · have hbudget : (∃ e, joint.reachable maxPairs = .error e) ↔ maxPairs.toNat < pairs.card := by
      rw [herror, or_iff_right (not_not.2 hgenesis)]
    exact iff_of_true hbudget (Or.inl hgenesis)
  · -- nothing but the genesis is reachable, and the exploration is an error
    have hcard : pairs.card = (product joint.request).length := by
      have hsame : pairs = {joint.genesis} ×ˢ (product joint.request).toFinset := by
        ext ⟨state, request⟩
        rw [hpairs, reachable_outside_iff hgenesis, Finset.mem_product, Finset.mem_singleton, List.mem_toFinset]
      rw [hsame, Finset.card_product, Finset.card_singleton, Nat.one_mul, List.toFinset_card_of_nodup nodup_product]
    rw [or_iff_right hgenesis, iff_true_left (reachable_outside maxPairs hgenesis), hcard]

/-! ### A genesis outside its domain -/

def counterDomain : FieldDomain := .int integer0 ⟨5, by norm_num, by norm_num⟩

theorem nine_lo : (-2 ^ 127 : ℤ) ≤ 9 := by norm_num

theorem nine_hi : (9 : ℤ) < 2 ^ 127 := by norm_num

/-- a component that accepts every input and keeps its state, with a declared genesis above the domain -/
def counter : Component where
  name := "counter"
  owns := true
  stateFields := [⟨"count", counterDomain⟩]
  participates := ⟨[], fun _ => true⟩
  bindings := []
  stateBindings := []
  genesis := [⟨9, nine_lo, nine_hi⟩]
  decisions
    | [value] => if counterDomain.contains value then some (.accept, none, [value]) else none
    | _ => none
  genesis_length := rfl
  commits := by
    intro tuple kind reason post h _
    split at h
    · split_ifs at h with hin
      cases h
      exact .cons hin .nil
    · cases h

def counterJoint : JointComposition where
  components := [counter]
  request := []
  requestDomains := fun _ h => absurd h List.not_mem_nil

/-- one pair is reachable and ten are allowed, yet the exploration is an error -/
theorem reachable_error_within : ∃ pairs : Finset (List I128 × List I128),
    (∀ state request, (state, request) ∈ pairs ↔
      counterJoint.Reachable state ∧ request ∈ product counterJoint.request) ∧
    pairs.card ≤ (10 : UInt64).toNat ∧ ∃ e, counterJoint.reachable 10 = .error e := by
  have hgenesis : ¬Holds counterJoint.layout counterJoint.genesis := by
    intro h
    cases h with
    | cons hin _ => cases hin
  refine ⟨{(counterJoint.genesis, [])}, fun state request => ?_, ?_, reachable_outside 10 hgenesis⟩
  · rw [Finset.mem_singleton, Prod.mk.injEq, reachable_outside_iff hgenesis]
    exact and_congr_right fun _ => (List.mem_singleton (a := request) (b := [])).symm
  · rw [Finset.card_singleton]
    decide

end JointComposition

end ZenoFcis.Contract.Joint
