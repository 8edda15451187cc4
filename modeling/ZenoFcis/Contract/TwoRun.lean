/-
The two-run noninterference check (`two_run.rs`): one step from every admissible state on every complete input, each
state compared with the first of its group only. A group is the states that agree on every field not listed secret.

The Authority is any function of complete tuples, and so is its law evaluator's verdict on a state. The program's
positions are given; reading the contract's sources and the packet's digests are left out.
-/
import ZenoFcis.Contract.Domain

namespace ZenoFcis.Contract

open Lib Lib.Except

structure ContractError where
  place : String
  reason : String
deriving DecidableEq

/-- the bound Authority on complete tuples, and whether every state law holds of a tuple -/
structure Authority where
  evaluate : List ℤ → Outcome
  lawful : List ℤ → Bool

namespace TwoRun

def maxTuples : ℕ := 2 ^ 20

def invalid (reason : String) : ContractError := ⟨"two-run", reason⟩

/-- `str::replacen` with a count of one -/
def replaceFirst (pattern new : List Char) : List Char → List Char
  | [] => if pattern = [] then new else []
  | c :: text => if pattern.isPrefixOf (c :: text) then new ++ (c :: text).drop pattern.length
    else c :: replaceFirst pattern new text

def preName (path : String) : String := .ofList (replaceFirst "post.".toList "pre.".toList path.toList)

def postName (name : String) : String := .ofList (replaceFirst "pre.".toList "post.".toList name.toList)

/-- the loop of `fields`; `seen` holds the indices resolved so far -/
def fieldsFrom (positions : List Position) (seen : List ℕ) : List String → Except ContractError (List ℕ)
  | [] => .ok []
  | path :: paths =>
    match positions.findIdx? fun p => p.source = .state ∧ p.name = preName path with
    | none => .error (invalid ("unknown state field: " ++ path))
    | some index =>
      if index ∈ seen then .error (invalid ("duplicate state field: " ++ path))
      else do
        let rest ← fieldsFrom positions (index :: seen) paths
        pure (index :: rest)

/-- the positions some paths name -/
def fields (paths : List String) (positions : List Position) : Except ContractError (List ℕ) :=
  if paths = [] then .error (invalid "at least one state field is required") else fieldsFrom positions [] paths

/-- every assignment of some positions -/
def assignments (positions : List Position) : List (List ℤ) := positions.foldl (fun rows position =>
  let values := (position.domain.valuesWithin maxTuples).getD []
  rows.flatMap fun row => values.map fun v => row ++ [v]) [[]]

def tuple (state input : List ℤ) : List ℤ := state ++ input

def className : Outcome → String
  | .decision d => d.class_.name
  | .refused _ => "Refused"

inductive Difference where
  | decisionClass (left right : String)
  | refusal (left right : Refusal)
  | reason (left right : Option ℕ)
  | publicField (path : String)
  | outbox
deriving DecidableEq

/-- the first public field whose successors differ -/
def publicDifference (left right : Fields) (positions : List Position) : List ℕ → Option Difference
  | [] => none
  | i :: rest =>
    let id := positions[i]?.bind Position.field
    if entry left id ≠ entry right id then some (.publicField (postName ((positions[i]?.map Position.name).getD "")))
    else publicDifference left right positions rest

/-- `ni_difference` -/
def niDifference (l r : Outcome) (observed : List ℕ) (positions : List Position) : Option Difference :=
  if className l ≠ className r then some (.decisionClass (className l) (className r))
  else match l, r with
    | .refused a, .refused b => if a ≠ b then some (.refusal a b) else none
    | .decision a, .decision b =>
      if a.reason ≠ b.reason then some (.reason a.reason b.reason)
      else match publicDifference a.post b.post positions observed with
        | some difference => some difference
        | none => if a.outbox ≠ b.outbox then some .outbox else none
    | _, _ => none

/-! ## The search -/

structure Measured where
  states : ℕ
  inputs : ℕ
  invocations : ℕ
  comparisons : ℕ
deriving DecidableEq

/-- a pair of runs that differ -/
structure Refutation where
  state : List ℤ
  otherState : List ℤ
  input : List ℤ
  outcome : Outcome
  otherOutcome : Outcome
  difference : Difference

/-- the group of an ordinal: its digits from the last radix on, those of `groupFields` kept -/
def groupKey (stateSizes groupFields : List ℕ) (ordinal : ℕ) : ℕ :=
  (stateSizes.zipIdx.foldr (fun (radix, i) (remaining, key, scale) =>
    let digit := remaining % radix
    let remaining := remaining / radix
    if i ∈ groupFields then (remaining, key + digit * scale, scale * radix) else (remaining, key, scale))
    (ordinal, 0, 1)).2.1

/-- the state fields that are not secret -/
def groupFields (stateSizes secret : List ℕ) : List ℕ := (List.range stateSizes.length).filter fun i => i ∉ secret

/-- the number of groups -/
def groupCount (stateSizes groupFields : List ℕ) : ℕ := (groupFields.map fun i => stateSizes.getD i 1).prod

abbrev Groups := List (Option (List ℤ × Outcome))

section Search

variable (a : Authority) (key : ℕ → ℕ) (observed : List ℕ) (positions : List Position)

/-- one input: each state against the representative of its group -/
def scan (input : List ℤ) : List (ℕ × List ℤ) → Groups → Measured → Option Refutation × Measured
  | [], _, m => (none, m)
  | (ordinal, state) :: states, groups, m =>
    let outcome := a.evaluate (tuple state input)
    let m := { m with invocations := m.invocations + 1 }
    match (groups[key ordinal]?).join with
    | some (other, previous) =>
      let m := { m with comparisons := m.comparisons + 1 }
      match niDifference previous outcome observed positions with
      | some difference => (some ⟨other, state, input, previous, outcome, difference⟩, m)
      | none => scan input states groups m
    | none => scan input states (groups.set (key ordinal) (some (state, outcome))) m

/-- every input with a fresh table -/
def search (states : List (ℕ × List ℤ)) (groupCount : ℕ) :
    List (List ℤ) → Measured → Option Refutation × Measured
  | [], m => (none, m)
  | input :: inputs, m =>
    match scan a key observed positions input states (List.replicate groupCount none) m with
    | (some refutation, m) => (some refutation, m)
    | (none, m) => search states groupCount inputs m

end Search

inductive Verdict where
  | checked
  | refuted
  | unknown
deriving DecidableEq

inductive Report where
  | allComparisonsEqual
  | difference (refutation : Refutation)
  | reason (text : String)

structure CheckResult where
  verdict : Verdict
  domainSize : Option ℕ
  measured : Measured
  report : Report

/-- the states with their ordinals that satisfy the state laws -/
def admissible (a : Authority) (states inputs : List (List ℤ)) : List (ℕ × List ℤ) :=
  (states.zipIdx.filter fun x => a.lawful (tuple x.1 (inputs.headD []))).map Prod.swap

/-- `u64::from(usize)` of a known size -/
def radix (position : Position) : Except ContractError ℕ :=
  match position.domain.size with
  | none => .error (invalid "state domain cardinality")
  | some n => if n < 2 ^ 64 then .ok n else .error (invalid "state domain cardinality")

/-- the noninterference branch of `check` -/
def check (a : Authority) (ps : Positions) (secret observed : List String) (limit : ℕ) :
    Except ContractError CheckResult := do
  let secret ← fields secret ps.all
  let observed ← fields observed ps.all
  ensure (¬ ∃ i ∈ secret, i ∈ observed) (invalid "a field is both secret and public")
  let size := domainSize ps.all
  if ∀ n ∈ size, n = 0 ∨ min limit maxTuples < n then
    pure ⟨.unknown, size, ⟨0, 0, 0, 0⟩, .reason "declared domain exceeds tuple limit or is empty"⟩
  else
    let states := assignments ps.state
    let inputs := assignments ps.input
    let stateSizes ← ps.state.mapM radix
    let kept := groupFields stateSizes secret
    let states := admissible a states inputs
    let m : Measured := ⟨states.length, inputs.length, 0, 0⟩
    if states = [] then pure ⟨.unknown, size, m, .reason "no admissible states"⟩
    else match search a (groupKey stateSizes kept) observed ps.all states (groupCount stateSizes kept) inputs m with
      | (some refutation, m) => pure ⟨.refuted, size, m, .difference refutation⟩
      | (none, m) => pure ⟨.checked, size, m, .allComparisonsEqual⟩

/-! ## What an observer sees -/

/-- a successor's value at a position -/
def postValue (post : Fields) (positions : List Position) (i : ℕ) : Option Value :=
  (entry post (positions[i]?.bind Position.field)).map Prod.snd

/-- class, reason, values of the observed positions and outbox of an outcome -/
inductive View where
  | refused (text : String) (law : Option ℕ)
  | decision (class_ : Class) (reason : Option ℕ) (values : List (Option Value)) (outbox : List Delivery)
deriving DecidableEq

def view (observed : List ℕ) (positions : List Position) : Outcome → View
  | .refused r => .refused r.text r.law
  | .decision d => .decision d.class_ d.reason (observed.map (postValue d.post positions)) d.outbox

theorem entry_eq_iff (left right : Fields) (field : Option ℕ) :
    entry left field = entry right field ↔
      (entry left field).map Prod.snd = (entry right field).map Prod.snd := by
  have hfield : ∀ {post : Fields} {x : ℕ × Value}, entry post field = some x → some x.1 = field := fun h => by
    simpa using List.find?_some h
  constructor
  · intro h
    rw [h]
  · intro h
    cases hl : entry left field with
    | none => simpa [hl, eq_comm] using h
    | some x =>
      cases hr : entry right field with
      | none => simp [hl, hr] at h
      | some y =>
        have hids : x.1 = y.1 := Option.some.inj ((hfield hl).trans (hfield hr).symm)
        have hvalues : x.2 = y.2 := by simpa [hl, hr] using h
        rw [Prod.ext hids hvalues]

theorem publicDifference_eq_none (left right : Fields) (positions : List Position) (observed : List ℕ) :
    publicDifference left right positions observed = none ↔
      observed.map (postValue left positions) = observed.map (postValue right positions) := by
  induction observed with
  | nil => simp [publicDifference]
  | cons i rest ih =>
    have hentry := entry_eq_iff left right (positions[i]?.bind Position.field)
    rw [publicDifference, List.map_cons, List.map_cons, List.cons.injEq]
    split_ifs with h
    · have hne : postValue left positions i ≠ postValue right positions i := fun heq => h (hentry.2 heq)
      simp [hne]
    · rw [not_not] at h
      simp [postValue, hentry.1 h, ih]

theorem Class.name_injective {a b : Class} (h : a.name = b.name) : a = b := by
  cases a <;> cases b <;> first | rfl | exact absurd h (by decide)

theorem Class.name_ne_refused (c : Class) : c.name ≠ "Refused" := by
  cases c <;> decide

/-- **No difference is one view.** -/
theorem niDifference_eq_none (l r : Outcome) (observed : List ℕ) (positions : List Position) :
    niDifference l r observed positions = none ↔ view observed positions l = view observed positions r := by
  cases l with
  | refused a =>
    cases r with
    | refused b =>
      simp only [niDifference, className, ne_eq, not_true, if_false, view, View.refused.injEq]
      cases a
      cases b
      simp
    | decision b => simp [niDifference, className, view, (Class.name_ne_refused b.class_).symm]
  | decision a =>
    cases r with
    | refused b => simp [niDifference, className, view, Class.name_ne_refused]
    | decision b =>
      simp only [niDifference, className, view, View.decision.injEq, ← publicDifference_eq_none]
      by_cases hclass : a.class_ = b.class_
      · by_cases hreason : a.reason = b.reason
        · cases hpublic : publicDifference a.post b.post positions observed with
          | some difference => simp [hclass, hreason]
          | none => simp [hclass, hreason]
        · simp [hclass, hreason]
      · have hname : a.class_.name ≠ b.class_.name := fun h => hclass (Class.name_injective h)
        simp [hclass, hname]

/-! ## One input -/

section Scan

variable {a : Authority} {key : ℕ → ℕ} {observed : List ℕ} {positions : List Position} {input : List ℤ}

/-- the views of two entries on an input agree -/
def SameView (a : Authority) (observed : List ℕ) (positions : List Position) (input : List ℤ) (s t : List ℤ) : Prop :=
  view observed positions (a.evaluate (tuple s input)) = view observed positions (a.evaluate (tuple t input))

/-- a table holds, for the group of every state seen, a state seen of that group with the same view -/
structure Represents (a : Authority) (key : ℕ → ℕ) (observed : List ℕ) (positions : List Position) (input : List ℤ)
    (seen : List (ℕ × List ℤ)) (groups : Groups) : Prop where
  sound : ∀ k s o, (groups[k]?).join = some (s, o) →
    o = a.evaluate (tuple s input) ∧ ∃ n, (n, s) ∈ seen ∧ key n = k
  complete : ∀ x ∈ seen, ∃ s o, (groups[key x.1]?).join = some (s, o) ∧ SameView a observed positions input s x.2

/-- what a scan has to find out about the states it saw -/
def Uniform (a : Authority) (key : ℕ → ℕ) (observed : List ℕ) (positions : List Position) (input : List ℤ)
    (states : List (ℕ × List ℤ)) : Prop :=
  ∀ x ∈ states, ∀ y ∈ states, key x.1 = key y.1 → SameView a observed positions input x.2 y.2

/-- a reported pair is two states of one group with different views -/
def Genuine (a : Authority) (key : ℕ → ℕ) (observed : List ℕ) (positions : List Position) (input : List ℤ)
    (states : List (ℕ × List ℤ)) (r : Refutation) : Prop :=
  r.input = input ∧ ∃ n m, (n, r.state) ∈ states ∧ (m, r.otherState) ∈ states ∧ key n = key m ∧
    r.outcome = a.evaluate (tuple r.state input) ∧ r.otherOutcome = a.evaluate (tuple r.otherState input) ∧
    niDifference r.outcome r.otherOutcome observed positions = some r.difference ∧
    ¬ SameView a observed positions input r.state r.otherState

theorem Represents.start (n : ℕ) : Represents a key observed positions input [] (List.replicate n none) where
  sound k s o h := by
    rw [List.getElem?_replicate] at h
    split_ifs at h <;> cases h
  complete x hx := absurd hx List.not_mem_nil

theorem Represents.uniform {seen : List (ℕ × List ℤ)} {groups : Groups}
    (h : Represents a key observed positions input seen groups) : Uniform a key observed positions input seen := by
  intro x hx y hy hkey
  obtain ⟨s, o, hs, hsx⟩ := h.complete x hx
  obtain ⟨t, p, ht, hty⟩ := h.complete y hy
  rw [hkey, ht] at hs
  obtain ⟨rfl, -⟩ := Prod.mk.inj (Option.some.inj hs)
  exact hsx.symm.trans hty

theorem Represents.same {seen : List (ℕ × List ℤ)} {groups : Groups}
    (h : Represents a key observed positions input seen groups) {x : ℕ × List ℤ} {s : List ℤ} {o : Outcome}
    (hentry : (groups[key x.1]?).join = some (s, o)) (hsame : SameView a observed positions input s x.2) :
    Represents a key observed positions input (seen ++ [x]) groups where
  sound k t p ht := by
    obtain ⟨hp, n, hn, hk⟩ := h.sound k t p ht
    exact ⟨hp, n, List.mem_append_left _ hn, hk⟩
  complete y hy := by
    rcases List.mem_append.1 hy with hold | hnew
    · exact h.complete y hold
    · obtain rfl := List.mem_singleton.1 hnew
      exact ⟨s, o, hentry, hsame⟩

theorem Represents.first {seen : List (ℕ × List ℤ)} {groups : Groups}
    (h : Represents a key observed positions input seen groups) {x : ℕ × List ℤ} (hlt : key x.1 < groups.length)
    (hentry : (groups[key x.1]?).join = none) :
    Represents a key observed positions input (seen ++ [x])
      (groups.set (key x.1) (some (x.2, a.evaluate (tuple x.2 input)))) where
  sound k t p ht := by
    by_cases hk : key x.1 = k
    · subst hk
      rw [List.getElem?_set_self hlt] at ht
      obtain ⟨rfl, rfl⟩ := Prod.mk.inj (Option.some.inj ht)
      exact ⟨rfl, x.1, List.mem_append_right _ (List.mem_singleton.2 rfl), rfl⟩
    · rw [List.getElem?_set_ne hk] at ht
      obtain ⟨hp, n, hn, hkey⟩ := h.sound k t p ht
      exact ⟨hp, n, List.mem_append_left _ hn, hkey⟩
  complete y hy := by
    by_cases hk : key x.1 = key y.1
    · rcases List.mem_append.1 hy with hold | hnew
      · obtain ⟨s, o, hs, -⟩ := h.complete y hold
        rw [← hk, hentry] at hs
        cases hs
      · obtain rfl := List.mem_singleton.1 hnew
        exact ⟨y.2, _, by rw [List.getElem?_set_self hlt]; rfl, rfl⟩
    · rcases List.mem_append.1 hy with hold | hnew
      · obtain ⟨s, o, hs, hsame⟩ := h.complete y hold
        exact ⟨s, o, by rw [List.getElem?_set_ne hk]; exact hs, hsame⟩
      · exact absurd (congrArg (fun z => key z.1) (List.mem_singleton.1 hnew).symm) hk

/-- **One input is decided**: no pair is reported when all groups are uniform, and a reported pair is genuine. -/
theorem scan_spec {states seen : List (ℕ × List ℤ)} {groups : Groups} (m : Measured)
    (h : Represents a key observed positions input seen groups) (hlt : ∀ x ∈ states, key x.1 < groups.length) :
    match (scan a key observed positions input states groups m).1 with
    | none => Uniform a key observed positions input (seen ++ states)
    | some r => Genuine a key observed positions input (seen ++ states) r := by
  induction states generalizing seen groups m with
  | nil => simpa [scan] using h.uniform
  | cons x states ih =>
    obtain ⟨n, state⟩ := x
    rw [List.forall_mem_cons] at hlt
    rw [scan]
    have hsplit : seen ++ (n, state) :: states = seen ++ [(n, state)] ++ states := by simp
    cases hentry : (groups[key n]?).join with
    | none =>
      simp only [hsplit]
      exact ih _ (h.first (x := (n, state)) hlt.1 hentry) fun x hx => by simpa using hlt.2 x hx
    | some found =>
      obtain ⟨other, previous⟩ := found
      obtain ⟨rfl, k, hk, hkey⟩ := h.sound _ _ _ hentry
      cases hdiff : niDifference (a.evaluate (tuple other input)) (a.evaluate (tuple state input)) observed
          positions with
      | none =>
        have hsame : SameView a observed positions input other state := (niDifference_eq_none _ _ _ _).1 hdiff
        simp only [hsplit, hdiff]
        exact ih _ (h.same (x := (n, state)) hentry hsame) hlt.2
      | some difference =>
        simp only [hdiff]
        refine ⟨rfl, k, n, List.mem_append_left _ hk, List.mem_append_right _ List.mem_cons_self, hkey, rfl, rfl,
          hdiff, fun hsame => ?_⟩
        have hnone := (niDifference_eq_none _ _ observed positions).2 hsame
        rw [hdiff] at hnone
        cases hnone

/-- **Every input is decided.** -/
theorem search_spec {states : List (ℕ × List ℤ)} {groupCount : ℕ} (inputs : List (List ℤ)) (m : Measured)
    (hlt : ∀ x ∈ states, key x.1 < groupCount) :
    match (search a key observed positions states groupCount inputs m).1 with
    | none => ∀ input ∈ inputs, Uniform a key observed positions input states
    | some r => ∃ input ∈ inputs, Genuine a key observed positions input states r := by
  induction inputs generalizing m with
  | nil => simp [search]
  | cons input inputs ih =>
    have hscan := @scan_spec a key observed positions input states [] _ m (Represents.start groupCount)
      (by simpa using hlt)
    rw [search]
    rcases hresult : scan a key observed positions input states (List.replicate groupCount none) m with ⟨found, m'⟩
    rw [hresult] at hscan
    cases found with
    | some r => exact ⟨input, List.mem_cons_self, hscan⟩
    | none =>
      have hrest := ih m'
      simp only
      cases hsearch : (search a key observed positions states groupCount inputs m').1 with
      | none =>
        rw [hsearch] at hrest
        exact List.forall_mem_cons.2 ⟨hscan, hrest⟩
      | some r =>
        rw [hsearch] at hrest
        obtain ⟨i, hi, hr⟩ := hrest
        exact ⟨i, List.mem_cons_of_mem _ hi, hr⟩

end Scan

/-! ## The enumeration -/

theorem assignments_from (positions : List Position)
    (h : ∀ p ∈ positions, ∃ m, p.domain.size = some m ∧ m ≤ maxTuples) (rows : List (List ℤ)) :
    positions.foldl (fun rows position =>
      let values := (position.domain.valuesWithin maxTuples).getD []
      rows.flatMap fun row => values.map fun v => row ++ [v]) rows =
    rows.flatMap fun row => (Axes.tuples (axes positions)).map (row ++ ·) := by
  induction positions generalizing rows with
  | nil => simp [axes, Axes.tuples]
  | cons p positions ih =>
    rw [List.forall_mem_cons] at h
    obtain ⟨⟨m, hm, hle⟩, h⟩ := h
    rw [List.foldl_cons, ih h, LeafDomain.valuesWithin_eq hm hle]
    simp [axes, Axes.tuples, List.flatMap_assoc, List.map_flatMap, List.flatMap_map, List.map_map, Function.comp_def]

theorem assignments_eq {positions : List Position}
    (h : ∀ p ∈ positions, ∃ m, p.domain.size = some m ∧ m ≤ maxTuples) :
    assignments positions = Axes.tuples (axes positions) := by
  unfold assignments
  rw [assignments_from positions h]
  simp

theorem mapM_radix {positions : List Position} (h : ∀ p ∈ positions, ∃ m, p.domain.size = some m ∧ m ≤ maxTuples) :
    positions.mapM radix = .ok ((axes positions).map List.length) := by
  induction positions with
  | nil => rfl
  | cons p positions ih =>
    rw [List.forall_mem_cons] at h
    obtain ⟨⟨m, hm, hle⟩, h⟩ := h
    have hword : m < 2 ^ 64 := lt_of_le_of_lt hle (by decide)
    have hradix : radix p = .ok p.domain.values.length := by
      rw [LeafDomain.length_values hm, radix, hm]
      exact if_pos hword
    rw [List.mapM_cons, hradix, ok_bind, ih h, ok_bind]
    rfl

theorem mem_admissible {a : Authority} {states inputs : List (List ℤ)} {n : ℕ} {s : List ℤ} :
    (n, s) ∈ admissible a states inputs ↔ states[n]? = some s ∧ a.lawful (tuple s (inputs.headD [])) = true := by
  simp only [admissible, List.mem_map, List.mem_filter, List.mem_zipIdx_iff_getElem?, Prod.exists, Prod.swap_prod_mk,
    Prod.mk.injEq]
  constructor
  · rintro ⟨t, m, ⟨hget, hlaw⟩, rfl, rfl⟩
    exact ⟨hget, hlaw⟩
  · rintro ⟨hget, hlaw⟩
    exact ⟨s, n, ⟨hget, hlaw⟩, rfl, rfl⟩

/-! ## Groups -/

/-- the axes with a flag for those kept -/
def flagged (axes : List (List ℤ)) (kept : List ℕ) : List (List ℤ × Bool) :=
  axes.zipIdx.map fun x => (x.1, decide (x.2 ∈ kept))

theorem flagged_fst (axes : List (List ℤ)) (kept : List ℕ) : (flagged axes kept).map Prod.fst = axes := by
  simp only [flagged, List.map_map, Function.comp_def]
  exact List.zipIdx_map_fst 0 axes

theorem radices_flagged (axes : List (List ℤ)) (kept : List ℕ) : Axes.radices (flagged axes kept) =
    (axes.map List.length).zipIdx.map fun x => (x.1, decide (x.2 ∈ kept)) := by
  simp [Axes.radices, flagged, List.zipIdx_map, List.map_map, Function.comp_def]

theorem groupKey_eq (axes : List (List ℤ)) (kept : List ℕ) (n : ℕ) :
    groupKey (axes.map List.length) kept n = Axes.key (Axes.radices (flagged axes kept)) n := by
  rw [radices_flagged]
  unfold groupKey Axes.key
  generalize (axes.map List.length).zipIdx = l
  congr 2
  induction l with
  | nil => rfl
  | cons x l ih =>
    rw [List.foldr_cons, ih, List.map_cons, Axes.projectFrom]
    by_cases h : x.2 ∈ kept <;> simp [h]

theorem groupCount_eq (sizes secret : List ℕ) : groupCount sizes (groupFields sizes secret) =
    Axes.keys (sizes.zipIdx.map fun x => (x.1, decide (x.2 ∈ groupFields sizes secret))) := by
  have hzip : sizes.zipIdx = (List.range sizes.length).map fun i => (sizes.getD i 1, i) := by
    refine List.ext_getElem (by simp) fun i hi _ => ?_
    have hlt : i < sizes.length := by simpa using hi
    rw [List.getElem_zipIdx, List.getElem_map, List.getElem_range, List.getD_eq_getElem _ _ hlt, Nat.zero_add]
  have hkept : (List.range sizes.length).filter (fun i => decide (i ∈ groupFields sizes secret)) =
      groupFields sizes secret := by
    unfold groupFields
    refine List.filter_congr fun i hi => ?_
    simp [List.mem_range.1 hi]
  rw [Axes.keys_eq_prod, hzip, List.map_map, List.filter_map, List.map_map]
  simp only [groupCount, Function.comp_def]
  rw [hkept]

theorem groupKey_lt {axes : List (List ℤ)} (hne : ∀ axis ∈ axes, axis ≠ []) (secret : List ℕ) (n : ℕ) :
    groupKey (axes.map List.length) (groupFields (axes.map List.length) secret) n <
      groupCount (axes.map List.length) (groupFields (axes.map List.length) secret) := by
  have hmem : ∀ kept, ∀ x ∈ flagged axes kept, x.1 ∈ axes := fun kept x hx => by
    rw [← flagged_fst axes kept]
    exact List.mem_map_of_mem hx
  rw [groupKey_eq, groupCount_eq, ← radices_flagged]
  exact Axes.key_lt (fun x hx => hne _ (hmem _ x hx)) n

/-- two states agree on every field that is not secret -/
def AgreeOutside (secret : List ℕ) (s t : List ℤ) : Prop := ∀ i, i ∉ secret → s[i]? = t[i]?

/-- **A group is the states that agree on every nonsecret field.** -/
theorem groupKey_eq_iff {axes : List (List ℤ)} (hne : ∀ axis ∈ axes, axis ≠ []) (hnodup : ∀ axis ∈ axes, axis.Nodup)
    (secret : List ℕ) (n m : ℕ) :
    let kept := groupFields (axes.map List.length) secret
    groupKey (axes.map List.length) kept n = groupKey (axes.map List.length) kept m ↔
      AgreeOutside secret (Axes.element axes n) (Axes.element axes m) := by
  intro kept
  have hmem : ∀ x ∈ flagged axes kept, x.1 ∈ axes := fun x hx => by
    rw [← flagged_fst axes kept]
    exact List.mem_map_of_mem hx
  have hflag : ∀ i : ℕ, ((flagged axes kept).map Prod.snd)[i]? = some true ↔ i < axes.length ∧ i ∉ secret := fun i => by
    by_cases hlt : i < axes.length
    · simp [flagged, kept, groupFields, hlt]
    · simp [flagged, hlt]
  rw [groupKey_eq, groupKey_eq, Axes.key_eq_iff (fun x hx => hne _ (hmem x hx)) (fun x hx => hnodup _ (hmem x hx)),
    flagged_fst, Axes.agree_iff (by simp [Axes.length_element, flagged]) (by simp [Axes.length_element, flagged])]
  simp only [hflag]
  constructor
  · intro h i hi
    by_cases hlt : i < axes.length
    · exact h i ⟨hlt, hi⟩
    · rw [List.getElem?_eq_none (by simpa [Axes.length_element] using hlt),
        List.getElem?_eq_none (by simpa [Axes.length_element] using hlt)]
  · intro h i hi
    exact h i hi.2

/-! ## Noninterference -/

section Noninterference

variable (a : Authority) (ps : Positions)

/-- a value of its domain at every position -/
def Complete (positions : List Position) (values : List ℤ) : Prop :=
  List.Forall₂ (fun v p => v ∈ p.domain.values) values positions

/-- a complete state that satisfies the state laws, which read it with the first input -/
def Admissible (state : List ℤ) : Prop :=
  Complete ps.state state ∧ a.lawful (tuple state ((assignments ps.input).headD [])) = true

/-- secrets do not reach an observer: admissible states that agree outside the secret fields give one view -/
def Noninterferent (secret observed : List ℕ) : Prop :=
  ∀ s t, Admissible a ps s → Admissible a ps t → AgreeOutside secret s t →
    ∀ input, Complete ps.input input → SameView a observed ps.all input s t

/-- two admissible states and an input that leak a secret -/
def Leak (secret observed : List ℕ) (r : Refutation) : Prop :=
  Admissible a ps r.state ∧ Admissible a ps r.otherState ∧ Complete ps.input r.input ∧
    AgreeOutside secret r.state r.otherState ∧ ¬ SameView a observed ps.all r.input r.state r.otherState ∧
    r.outcome = a.evaluate (tuple r.state r.input) ∧ r.otherOutcome = a.evaluate (tuple r.otherState r.input) ∧
    niDifference r.outcome r.otherOutcome observed ps.all = some r.difference

end Noninterference

theorem complete_iff {positions : List Position} {values : List ℤ} :
    Complete positions values ↔ values ∈ Axes.tuples (axes positions) := by
  rw [Axes.mem_tuples, axes, List.forall₂_map_right_iff]
  rfl

/-- what a product within the limit gives of its factors -/
structure Within (ps : Positions) : Prop where
  state : ∀ p ∈ ps.state, ∃ m, p.domain.size = some m ∧ m ≤ maxTuples
  input : ∀ p ∈ ps.input, ∃ m, p.domain.size = some m ∧ m ≤ maxTuples
  nonempty : ∀ axis ∈ axes ps.state, axis ≠ []

section Within

variable {a : Authority} {ps : Positions} {n : ℕ}

theorem Within.of_size (hsize : domainSize ps.all = some n) (hpos : n ≠ 0) (hle : n ≤ maxTuples) : Within ps where
  state p hp := by
    obtain ⟨m, hm, -, hmn⟩ := factor_le hsize hpos p (List.mem_append_left _ hp)
    exact ⟨m, hm, hmn.trans hle⟩
  input p hp := by
    obtain ⟨m, hm, -, hmn⟩ := factor_le hsize hpos p (List.mem_append_right _ hp)
    exact ⟨m, hm, hmn.trans hle⟩
  nonempty axis haxis := by
    obtain ⟨p, hp, rfl⟩ := List.mem_map.1 haxis
    obtain ⟨m, hm, hne, -⟩ := factor_le hsize hpos p (List.mem_append_left _ hp)
    intro hnil
    have hlength := LeafDomain.length_values hm
    rw [hnil] at hlength
    exact hne hlength.symm

theorem mem_admissible_iff (h : Within ps) {k : ℕ} {s : List ℤ} :
    (k, s) ∈ admissible a (assignments ps.state) (assignments ps.input) ↔
      k < Axes.size (axes ps.state) ∧ Axes.element (axes ps.state) k = s ∧ Admissible a ps s := by
  rw [mem_admissible, assignments_eq h.state, Admissible, complete_iff]
  constructor
  · intro h
    obtain ⟨hget, hlaw⟩ := h
    have hs := List.mem_of_getElem? hget
    have hk : k < Axes.size (axes ps.state) := by
      rw [← Axes.length_tuples]
      exact (List.getElem?_eq_some_iff.1 hget).1
    rw [Axes.tuples_eq_map, List.getElem?_map, List.getElem?_range hk] at hget
    exact ⟨hk, Option.some.inj hget, hs, hlaw⟩
  · rintro ⟨hk, rfl, hs, hlaw⟩
    refine ⟨?_, hlaw⟩
    rw [Axes.tuples_eq_map, List.getElem?_map, List.getElem?_range hk]
    rfl

theorem exists_ordinal (h : Within ps) {s : List ℤ} (hs : Admissible a ps s) :
    ∃ k, (k, s) ∈ admissible a (assignments ps.state) (assignments ps.input) := by
  obtain ⟨k, hk, helement⟩ := Axes.exists_element (complete_iff.1 hs.1)
  exact ⟨k, (mem_admissible_iff h).2 ⟨hk, helement, hs⟩⟩

theorem admissible_key_iff (h : Within ps) (hidden : List ℕ) {x y : ℕ × List ℤ}
    (hx : x ∈ admissible a (assignments ps.state) (assignments ps.input))
    (hy : y ∈ admissible a (assignments ps.state) (assignments ps.input)) :
    groupKey ((axes ps.state).map List.length) (groupFields ((axes ps.state).map List.length) hidden) x.1 =
        groupKey ((axes ps.state).map List.length) (groupFields ((axes ps.state).map List.length) hidden) y.1 ↔
      AgreeOutside hidden x.2 y.2 := by
  obtain ⟨-, hx, -⟩ := (mem_admissible_iff (k := x.1) (s := x.2) h).1 hx
  obtain ⟨-, hy, -⟩ := (mem_admissible_iff (k := y.1) (s := y.2) h).1 hy
  have hiff := groupKey_eq_iff h.nonempty (axes_nodup ps.state) hidden x.1 y.1
  rw [hx, hy] at hiff
  exact hiff

end Within

section Exact

variable {a : Authority} {ps : Positions} {secret observed : List String} {limit n : ℕ} {hidden seen : List ℕ}

theorem check_eq (hsecret : fields secret ps.all = .ok hidden) (hobserved : fields observed ps.all = .ok seen)
    (hdisjoint : ∀ i ∈ hidden, i ∉ seen) (hsize : domainSize ps.all = some n) (hpos : n ≠ 0)
    (hle : n ≤ min limit maxTuples) (hne : admissible a (assignments ps.state) (assignments ps.input) ≠ []) :
    let sizes := (axes ps.state).map List.length
    let kept := groupFields sizes hidden
    let states := admissible a (assignments ps.state) (assignments ps.input)
    check a ps secret observed limit =
      match search a (groupKey sizes kept) seen ps.all states (groupCount sizes kept) (assignments ps.input)
        ⟨states.length, (assignments ps.input).length, 0, 0⟩ with
      | (some refutation, m) => .ok ⟨.refuted, some n, m, .difference refutation⟩
      | (none, m) => .ok ⟨.checked, some n, m, .allComparisonsEqual⟩ := by
  have hwithin := Within.of_size hsize hpos (hle.trans (Nat.min_le_right _ _))
  have hradix := mapM_radix hwithin.state
  have hfits : ¬ ∀ k ∈ some n, k = 0 ∨ min limit maxTuples < k := fun h => by
    rcases h n rfl with hzero | hlt
    · exact hpos hzero
    · exact absurd hle (not_le.2 hlt)
  unfold check
  rw [hsecret, ok_bind, hobserved, ok_bind, ensure_bind (by simpa using hdisjoint), hsize]
  simp only [if_neg hfits, hradix, ok_bind, if_neg hne]
  rfl

/-- **The noninterference check is exact.** -/
theorem noninterference_exact (hsecret : fields secret ps.all = .ok hidden)
    (hobserved : fields observed ps.all = .ok seen) (hdisjoint : ∀ i ∈ hidden, i ∉ seen)
    (hsize : domainSize ps.all = some n) (hpos : n ≠ 0) (hle : n ≤ min limit maxTuples)
    (hadmissible : ∃ s, Admissible a ps s) :
    (∃ result, check a ps secret observed limit = .ok result ∧
      (result.verdict = .checked ↔ Noninterferent a ps hidden seen) ∧
      (result.verdict = .refuted ↔ ¬ Noninterferent a ps hidden seen) ∧
      (result.verdict = .refuted → ∃ r, result.report = .difference r ∧ Leak a ps hidden seen r)) ∧
    ∃ sizes, ps.state.mapM radix = .ok sizes ∧
      ∀ x ∈ admissible a (assignments ps.state) (assignments ps.input),
        ∀ y ∈ admissible a (assignments ps.state) (assignments ps.input),
          groupKey sizes (groupFields sizes hidden) x.1 = groupKey sizes (groupFields sizes hidden) y.1 ↔
            AgreeOutside hidden x.2 y.2 := by
  have hwithin := Within.of_size hsize hpos (hle.trans (Nat.min_le_right _ _))
  refine ⟨?_, _, mapM_radix hwithin.state, fun x hx y hy => admissible_key_iff hwithin hidden hx hy⟩
  have hne : admissible a (assignments ps.state) (assignments ps.input) ≠ [] := by
    obtain ⟨s, hs⟩ := hadmissible
    obtain ⟨k, hk⟩ := exists_ordinal hwithin hs
    exact List.ne_nil_of_mem hk
  rw [check_eq hsecret hobserved hdisjoint hsize hpos hle hne]
  have hlt : ∀ x ∈ admissible a (assignments ps.state) (assignments ps.input), _ :=
    fun x _ => groupKey_lt hwithin.nonempty hidden x.1
  have hsearch := @search_spec a _ seen ps.all _ _ (assignments ps.input)
    ⟨(admissible a (assignments ps.state) (assignments ps.input)).length, (assignments ps.input).length, 0, 0⟩ hlt
  revert hsearch
  rcases search a _ seen ps.all (admissible a (assignments ps.state) (assignments ps.input)) _ _ _ with ⟨found, m⟩
  intro hsearch
  cases found with
  | none =>
    have hni : Noninterferent a ps hidden seen := by
      intro s t hs ht hagree input hcomplete
      obtain ⟨k, hk⟩ := exists_ordinal hwithin hs
      obtain ⟨l, hl⟩ := exists_ordinal hwithin ht
      refine hsearch input ?_ (k, s) hk (l, t) hl ((admissible_key_iff hwithin hidden hk hl).2 hagree)
      rw [assignments_eq hwithin.input]
      exact complete_iff.1 hcomplete
    exact ⟨_, rfl, iff_of_true rfl hni, iff_of_false nofun (not_not.2 hni), nofun⟩
  | some r =>
    obtain ⟨input, hin, hrinput, k, l, hk, hl, heq, hout, hother, hdiff, hviews⟩ := hsearch
    have hagree := (admissible_key_iff hwithin hidden hk hl).1 heq
    obtain ⟨-, -, hs⟩ := (mem_admissible_iff hwithin).1 hk
    obtain ⟨-, -, ht⟩ := (mem_admissible_iff hwithin).1 hl
    have hcomplete : Complete ps.input input := by
      rw [complete_iff, ← assignments_eq hwithin.input]
      exact hin
    have hleak : ¬ Noninterferent a ps hidden seen := fun hni => hviews (hni _ _ hs ht hagree input hcomplete)
    refine ⟨_, rfl, iff_of_false nofun hleak, iff_of_true rfl hleak, fun _ => ⟨r, rfl, ?_⟩⟩
    subst hrinput
    exact ⟨hs, ht, hcomplete, hagree, hviews, hout, hother, hdiff⟩

end Exact

/-- a secret flag, a public flag and one command flag -/
def flags : Positions where
  state := [⟨"pre.100.1", .state, some 1, 110, .bool⟩, ⟨"pre.100.2", .state, some 2, 110, .bool⟩]
  input := [⟨"command.101", .command, none, 101, .bool⟩]
  stateSource := by decide
  inputSource := by decide
  stateField := by decide

/-- it keeps the secret and stores the command; a law excludes the state with both flags up -/
def store : Authority where
  evaluate t := .decision ⟨.accept, none, [(1, .bool (t[0]? = some 1)), (2, .bool (t[2]? = some 1))], []⟩
  lawful t := ¬ (t[0]? = some 1 ∧ t[1]? = some 1)

theorem noninterference_exact_flags : ∃ result, check store flags ["pre.100.1"] ["post.100.2"] 64 = .ok result ∧
    (result.verdict = .checked ↔ Noninterferent store flags [0] [1]) := by
  have hadmissible : ∃ s, Admissible store flags s :=
    ⟨[0, 0], .cons (by decide) (.cons (by decide) .nil), by decide⟩
  obtain ⟨⟨result, hcheck, hverdict, -⟩, -⟩ := @noninterference_exact store flags ["pre.100.1"]
    ["post.100.2"] 64 8 [0] [1] (by rfl) (by rfl) (by decide) (by decide) (by decide) (by decide) hadmissible
  exact ⟨result, hcheck, hverdict⟩

end TwoRun

end ZenoFcis.Contract
