/-
A checked refinement lifts to runs of any length, and a counterexample row is the first row that fails.
-/
import ZenoFcis.Contract.RefinementSpace

namespace ZenoFcis.Contract.Refinement

open Lib Lib.Except

/-! ## Runs over values -/

structure Observation where
  kind : Kind
  reason : Option ℕ
  effects : Bytes
  outbox : Bytes
deriving DecidableEq

/-- what one input shows of a machine, and the values of its next state -/
def Machine.observe (m : Machine) (fields : List ℕ) (state input : List ℤ) : Observation × Option (List ℤ) :=
  match m.evaluate (state ++ input) with
  | .error refusal => (⟨.refused refusal, none, [], []⟩, some state)
  | .ok candidate => match candidate.class_ with
    | none => (⟨.refused .other, none, [], []⟩, none)
    | some class_ =>
      match encodeDeliveries m candidate.effects, encodeDeliveries m candidate.outbox with
      | some effects, some outbox => (⟨kindOf class_, candidate.reason, effects, outbox⟩,
          if class_ = .reject then some state else postNumbers fields candidate.post)
      | _, _ => (⟨.refused .other, none, [], []⟩, none)

/-- the observations of some inputs in order, and the last state -/
def Machine.run (m : Machine) (fields : List ℕ) : List ℤ → List (List ℤ) → Option (List Observation × List ℤ)
  | state, [] => some ([], state)
  | state, input :: inputs => do
    let next ← (m.observe fields state input).2
    let (observations, last) ← run m fields next inputs
    some ((m.observe fields state input).1 :: observations, last)

def Step.observation (s : Step) : Observation := ⟨s.kind, s.reason, s.effects, s.outbox⟩

section Steps

variable {m : Machine} {loaded : Loaded} {s : Space} {state input : ℕ}

/-- **A step observes its machine**, and its successor is the ordinal of the next values. -/
theorem step_observe (h : Space.Sized loaded s) (hstate : state < s.states) :
    (step m s state input).observation =
        (m.observe s.fields (element s.stateAxes state) (element s.inputAxes input)).1 ∧
      (step m s state input).successor =
        (m.observe s.fields (element s.stateAxes state) (element s.inputAxes input)).2.bind s.ordinal := by
  unfold step Machine.observe Space.tuple
  cases m.evaluate (element s.stateAxes state ++ element s.inputAxes input) with
  | error refusal => exact ⟨rfl, (h.ordinal_element hstate).symm⟩
  | ok candidate =>
    simp only
    cases candidate.class_ with
    | none => exact ⟨rfl, rfl⟩
    | some class_ =>
      cases encodeDeliveries m candidate.effects with
      | none => exact ⟨rfl, rfl⟩
      | some effects =>
        cases encodeDeliveries m candidate.outbox with
        | none => exact ⟨rfl, rfl⟩
        | some outbox =>
          refine ⟨rfl, ?_⟩
          by_cases hreject : class_ = .reject
          · simp [hreject, h.ordinal_element hstate]
          · simp [hreject]

theorem next_of_successor (h : Space.Sized loaded s) (hstate : state < s.states) {next : ℕ}
    (hnext : (step m s state input).successor = some next) : next < s.states ∧
      (m.observe s.fields (element s.stateAxes state) (element s.inputAxes input)).2 =
        some (element s.stateAxes next) := by
  rw [(step_observe h hstate).2, Option.bind_eq_some_iff] at hnext
  obtain ⟨values, hvalues, hordinal⟩ := hnext
  obtain ⟨hlt, helement⟩ := h.element_ordinal hordinal
  exact ⟨hlt, by rw [hvalues, helement]⟩

end Steps

/-! ## Rows -/

section Rows

variable {mapping : Mapping} {c a : Machine} {cSpace aSpace : Space} {state input : ℕ}

theorem row_pass_some {abstractState : ℕ} (h : row mapping c a cSpace aSpace state input = .pass)
    (hget : mapping.get state = some abstractState) :
    (step c cSpace state input).observation = (step a aSpace abstractState input).observation ∧
      ∃ next abstractNext, (step c cSpace state input).successor = some next ∧
        (step a aSpace abstractState input).successor = some abstractNext ∧
        mapping.get next = some abstractNext := by
  unfold row at h
  simp only [hget] at h
  split_ifs at h with h1 h2 h3 h4 h5 h6 h7
  constructor
  · simp only [observationsEqual, Bool.and_eq_true, decide_eq_true_eq] at h7
    obtain ⟨⟨⟨hkind, hreason⟩, heffects⟩, houtbox⟩ := h7
    simp only [Step.observation, hkind, hreason, heffects, houtbox]
  · simp only [successorEqual, Bool.and_eq_true, decide_eq_true_eq] at h6
    obtain ⟨abstractNext, hbind⟩ := Option.isSome_iff_exists.1 h6.1
    obtain ⟨next, hnext, hmap⟩ := Option.bind_eq_some_iff.1 hbind
    exact ⟨next, abstractNext, hnext, by rw [← h6.2, hbind], hmap⟩

theorem row_pass_none (h : row mapping c a cSpace aSpace state input = .pass) (hget : mapping.get state = none) :
    (step c cSpace state input).kind = .refused (.law (some mapping.invalidStateLaw) .violated) ∧
      (step c cSpace state input).successor = some state := by
  unfold row at h
  simp only [hget] at h
  split_ifs at h with h1 h2 h3
  push Not at h3
  obtain ⟨hkind, hsuccessor, -⟩ := h3
  exact ⟨by simpa [nullLawEqual] using hkind, hsuccessor⟩

/-- the order of rows -/
def Before (x y : ℕ × ℕ) : Prop := x.1 < y.1 ∨ x.1 = y.1 ∧ x.2 < y.2

/-- the pairs are the states with the inputs -/
theorem mem_pairs {states inputs : ℕ} {x : ℕ × ℕ} : x ∈ pairs states inputs ↔ x.1 < states ∧ x.2 < inputs := by
  obtain ⟨state, input⟩ := x
  simp [pairs]

theorem pairs_ordered (states inputs : ℕ) : (pairs states inputs).Pairwise Before := by
  refine List.pairwise_flatMap.2 ⟨fun state _ => ?_, ?_⟩
  · refine List.pairwise_map.2 (List.pairwise_lt_range.imp fun hlt => ?_)
    exact Or.inr ⟨rfl, hlt⟩
  · refine List.pairwise_lt_range.imp fun hlt x hx y hy => ?_
    obtain ⟨i, -, rfl⟩ := List.mem_map.1 hx
    obtain ⟨j, -, rfl⟩ := List.mem_map.1 hy
    exact Or.inl hlt

/-- how a comparison ends: all rows pass, one fails after rows that pass, or it is cut short -/
inductive Compared (judge : ℕ → ℕ → Row) (report : Report) (rows : List (ℕ × ℕ)) : Report → Prop
  | refines {r} (verdict : r.verdict = .refines) (pass : ∀ x ∈ rows,
    judge x.1 x.2 = .pass) : Compared judge report rows r
  | fails {r done x rest obligation} (verdict : r.verdict = .counterexample) (split : rows = done ++ x :: rest)
      (pass : ∀ y ∈ done, judge y.1 y.2 = .pass) (fail : judge x.1 x.2 = .fail obligation)
      (witness : r.witness = some ⟨obligation, some x.1, some x.2⟩) : Compared judge report rows r
  | cut {r} (verdict : r.verdict = report.verdict) : Compared judge report rows r

theorem compare_spec (judge : ℕ → ℕ → Row) (report : Report) (rows : List (ℕ × ℕ)) :
    Compared judge report rows (compare judge report rows) := by
  induction rows generalizing report with
  | nil => exact .refines rfl (by simp)
  | cons x rows ih =>
    obtain ⟨state, input⟩ := x
    rw [compare]
    split_ifs with hbudget
    · exact .cut rfl
    · cases hrow : judge state input with
      | stop reason => exact .cut rfl
      | fail obligation => exact .fails rfl (List.nil_append _).symm (by simp) hrow rfl
      | pass =>
        simp only
        cases ih { report with checkedRows := report.checkedRows + 1 } with
        | refines verdict pass => exact .refines verdict (List.forall_mem_cons.2 ⟨hrow, pass⟩)
        | @fails done y rest obligation verdict split pass fail witness =>
          have hsplit : (state, input) :: rows = (state, input) :: done ++ y :: rest := by
            rw [split]
            rfl
          exact .fails verdict hsplit (List.forall_mem_cons.2 ⟨hrow, pass⟩) fail witness
        | cut verdict => exact .cut verdict

end Rows

/-! ## The check -/

/-- two loaded contracts with their spaces and initial ordinals, as a check gets to its obligations -/
structure Setting (mapping : Mapping) (a c : Loaded) (aSpace cSpace : Space) (aInitial cInitial : ℕ) : Prop where
  aNew : Space.new a = some aSpace
  cNew : Space.new c = some cSpace
  same : a.sameInputs c = true
  length : mapping.abstraction.length = cSpace.states
  bounded : ∀ abstractState, some abstractState ∈ mapping.abstraction → abstractState < aSpace.states
  aInitial : aSpace.initial a = some aInitial
  cInitial : cSpace.initial c = some cInitial

section Check

variable {mapping : Mapping} {a c : Loaded} {aSpace cSpace : Space} {aInitial cInitial limit : ℕ} {report : Report}

theorem check_ok (h : check mapping a c limit = .ok report) : report.verdict = .inconclusive ∨
    ∃ aSpace cSpace aInitial cInitial start, Setting mapping a c aSpace cSpace aInitial cInitial ∧
      start.verdict = .inconclusive ∧ report = judge mapping a c aSpace cSpace aInitial cInitial start := by
  unfold check at h
  obtain ⟨_, hlimit, h⟩ := bind_eq_ok.1 h
  obtain ⟨_, hschema, h⟩ := bind_eq_ok.1 h
  obtain ⟨_, hsame, h⟩ := bind_eq_ok.1 h
  cases haNew : Space.new a with
  | none =>
    simp only [haNew] at h
    cases h
    exact Or.inl rfl
  | some aSpace =>
    cases hcNew : Space.new c with
    | none =>
      simp only [haNew, hcNew] at h
      cases h
      exact Or.inl rfl
    | some cSpace =>
      simp only [haNew, hcNew] at h
      obtain ⟨_, hmapping, h⟩ := bind_eq_ok.1 h
      obtain ⟨_, hlaw, h⟩ := bind_eq_ok.1 h
      obtain ⟨hlength, hbounded⟩ := ensure_eq_ok.1 hmapping
      cases haInitial : aSpace.initial a with
      | none =>
        rw [haInitial] at h
        cases h
      | some aInitial =>
        cases hcInitial : cSpace.initial c with
        | none =>
          simp only [haInitial, hcInitial] at h
          cases h
        | some cInitial =>
          simp only [haInitial, hcInitial] at h
          cases h
          refine Or.inr ⟨aSpace, cSpace, aInitial, cInitial, _, ⟨haNew, hcNew, ensure_eq_ok.1 hsame, hlength, ?_,
            haInitial, hcInitial⟩, ?_, rfl⟩
          · intro abstractState hmem
            exact hbounded abstractState (List.mem_filterMap.2 ⟨some abstractState, hmem, rfl⟩)
          · rfl

/-- the obligations before the rows -/
structure Initial (mapping : Mapping) (a c : Loaded) (aSpace cSpace : Space) (aInitial cInitial : ℕ) : Prop where
  abstractAdmitted : a.machine.genesis (aSpace.tuple aInitial 0) = none
  concreteAdmitted : c.machine.genesis (cSpace.tuple cInitial 0) = none
  related : mapping.get cInitial = some aInitial
  covered : ∀ abstractState < aSpace.states, some abstractState ∈ mapping.abstraction

/-- a failed obligation before the rows -/
inductive Unmet (mapping : Mapping) (a c : Loaded) (aSpace cSpace : Space) (aInitial cInitial : ℕ) : Witness → Prop
  | admission (h : a.machine.genesis (aSpace.tuple aInitial 0) ≠ none ∨
      c.machine.genesis (cSpace.tuple cInitial 0) ≠ none) :
      Unmet mapping a c aSpace cSpace aInitial cInitial ⟨"initial-admission", some cInitial, none⟩
  | unrelated (h : mapping.get cInitial ≠ some aInitial) :
      Unmet mapping a c aSpace cSpace aInitial cInitial ⟨"initial-state", some cInitial, none⟩
  | uncovered (h : ∃ abstractState < aSpace.states, some abstractState ∉ mapping.abstraction) :
      Unmet mapping a c aSpace cSpace aInitial cInitial ⟨"abstract-state-coverage", none, none⟩

/-- how the obligations end -/
inductive Judged (mapping : Mapping) (a c : Loaded) (aSpace cSpace : Space) (aInitial cInitial : ℕ) : Report → Prop
  | unmet {r w} (verdict : r.verdict = .counterexample) (witness : r.witness = some w)
      (h : Unmet mapping a c aSpace cSpace aInitial cInitial w) : Judged mapping a c aSpace cSpace aInitial cInitial r
  | rows {start r} (h : Initial mapping a c aSpace cSpace aInitial cInitial) (verdict : start.verdict = .inconclusive)
      (compared : Compared (row mapping c.machine a.machine cSpace aSpace) start
        (pairs cSpace.states cSpace.inputs) r) : Judged mapping a c aSpace cSpace aInitial cInitial r
  | open_ {r} (verdict : r.verdict = .inconclusive) : Judged mapping a c aSpace cSpace aInitial cInitial r

theorem refuseGenesis_spec {refusal : AuthorityRefusal} (hreport : report.verdict = .inconclusive)
    (h : a.machine.genesis (aSpace.tuple aInitial 0) ≠ none ∨ c.machine.genesis (cSpace.tuple cInitial 0) ≠ none) :
    Judged mapping a c aSpace cSpace aInitial cInitial (refuseGenesis report refusal cInitial) := by
  unfold refuseGenesis
  simp only
  split_ifs
  · exact .open_ hreport
  · exact .open_ hreport
  · exact .unmet rfl rfl (.admission h)

theorem judge_spec (hreport : report.verdict = .inconclusive) :
    Judged mapping a c aSpace cSpace aInitial cInitial (judge mapping a c aSpace cSpace aInitial cInitial report) := by
  unfold judge
  cases ha : a.machine.genesis (aSpace.tuple aInitial 0) with
  | some refusal => exact refuseGenesis_spec hreport (Or.inl (by rw [ha]; nofun))
  | none =>
    cases hc : c.machine.genesis (cSpace.tuple cInitial 0) with
    | some refusal => exact refuseGenesis_spec hreport (Or.inr (by rw [hc]; nofun))
    | none =>
      simp only
      split_ifs with hrelated hcovered
      · exact .unmet rfl rfl (.unrelated hrelated)
      · obtain ⟨abstractState, hlt, hnot⟩ := hcovered
        exact .unmet rfl rfl (.uncovered ⟨abstractState, List.mem_range.1 hlt, hnot⟩)
      · push Not at hrelated hcovered
        exact .rows ⟨ha, hc, hrelated, fun abstractState hlt => hcovered abstractState (List.mem_range.2 hlt)⟩ hreport
          (compare_spec _ _ _)

/-! ## Runs -/

/-- related values: those of a concrete state and of the abstract state it is mapped to -/
def Related (mapping : Mapping) (cSpace aSpace : Space) (concrete abstract_ : List ℤ) : Prop :=
  ∃ state abstractState, state < cSpace.states ∧ abstractState < aSpace.states ∧
    mapping.get state = some abstractState ∧ concrete = element cSpace.stateAxes state ∧
    abstract_ = element aSpace.stateAxes abstractState

theorem inputAxes_eq (ha : Space.Sized a aSpace) (hc : Space.Sized c cSpace) (h : a.sameInputs c = true) :
    aSpace.inputAxes = cSpace.inputAxes := by
  rw [ha.input, hc.input]
  simp only [Loaded.sameInputs, Bool.and_eq_true, decide_eq_true_eq] at h
  obtain ⟨hlength, hall⟩ := h
  generalize a.positions.drop a.width = left at hlength hall
  generalize c.positions.drop c.width = right at hlength hall
  induction left generalizing right with
  | nil =>
    obtain rfl := List.length_eq_zero_iff.1 hlength.symm
    rfl
  | cons x left ih =>
    cases right with
    | nil => cases hlength
    | cons y right =>
      simp only [List.zip_cons_cons, List.all_cons, Bool.and_eq_true, decide_eq_true_eq] at hall
      have hrest := ih right (Nat.succ.inj hlength) hall.2
      simp only [axes, List.map_cons, hall.1.2] at hrest ⊢
      rw [hrest]

/-- **One related step.** -/
theorem step_related (ha : Space.Sized a aSpace) (hc : Space.Sized c cSpace)
    (hinputs : aSpace.inputAxes = cSpace.inputAxes)
    (hpass : ∀ x ∈ pairs cSpace.states cSpace.inputs,
      row mapping c.machine a.machine cSpace aSpace x.1 x.2 = .pass)
    {concrete abstract_ input : List ℤ} (hrelated : Related mapping cSpace aSpace concrete abstract_)
    (hinput : input ∈ Axes.tuples cSpace.inputAxes) :
    ∃ observation next abstractNext,
      c.machine.observe cSpace.fields concrete input = (observation, some next) ∧
      a.machine.observe aSpace.fields abstract_ input = (observation, some abstractNext) ∧
      Related mapping cSpace aSpace next abstractNext := by
  obtain ⟨state, abstractState, hstate, habstract, hget, rfl, rfl⟩ := hrelated
  obtain ⟨ordinal, hordinal, rfl⟩ := Axes.exists_element hinput
  have hordinal' : ordinal < cSpace.inputs := hc.inputs ▸ hordinal
  obtain ⟨hobservation, next, abstractNext, hnext, habstractNext, hmap⟩ :=
    row_pass_some (hpass (state, ordinal) (mem_pairs.2 ⟨hstate, hordinal'⟩)) hget
  have hobserve := (@step_observe c.machine c cSpace state ordinal hc hstate).1
  have habstractObserve := (@step_observe a.machine a aSpace abstractState ordinal ha habstract).1
  obtain ⟨hlt, hvalues⟩ := next_of_successor hc hstate hnext
  obtain ⟨habstractLt, habstractValues⟩ := next_of_successor ha habstract habstractNext
  rw [hinputs] at habstractObserve habstractValues
  refine ⟨_, _, _, Prod.ext rfl hvalues, Prod.ext ?_ habstractValues, next, abstractNext, hlt, habstractLt, hmap, rfl,
    rfl⟩
  exact habstractObserve.symm.trans (hobservation.symm.trans hobserve)

/-- **Related runs.** -/
theorem run_related (ha : Space.Sized a aSpace) (hc : Space.Sized c cSpace) (hinputs : aSpace.inputAxes = cSpace.inputAxes)
    (hpass : ∀ x ∈ pairs cSpace.states cSpace.inputs,
      row mapping c.machine a.machine cSpace aSpace x.1 x.2 = .pass)
    {inputs : List (List ℤ)} (hcomplete : ∀ input ∈ inputs, input ∈ Axes.tuples cSpace.inputAxes)
    {concrete abstract_ : List ℤ} (hrelated : Related mapping cSpace aSpace concrete abstract_) :
    ∃ observations last abstractLast,
      c.machine.run cSpace.fields concrete inputs = some (observations, last) ∧
      a.machine.run aSpace.fields abstract_ inputs = some (observations, abstractLast) ∧
      Related mapping cSpace aSpace last abstractLast := by
  induction inputs generalizing concrete abstract_ with
  | nil => exact ⟨[], concrete, abstract_, rfl, rfl, hrelated⟩
  | cons input inputs ih =>
    rw [List.forall_mem_cons] at hcomplete
    obtain ⟨observation, next, abstractNext, hnext, habstractNext, hnextRelated⟩ :=
      step_related ha hc hinputs hpass hrelated hcomplete.1
    obtain ⟨observations, last, abstractLast, hrun, habstractRun, hlast⟩ := ih hcomplete.2 hnextRelated
    refine ⟨observation :: observations, last, abstractLast, ?_, ?_, hlast⟩
    · simp only [Machine.run, hnext, Option.bind_eq_bind, Option.bind_some, hrun]
    · simp only [Machine.run, habstractNext, Option.bind_eq_bind, Option.bind_some, habstractRun]

end Check

/-! ## The verdict -/

theorem evaluate_of_kind {m : Machine} {s : Space} {state input : ℕ} {law : ℕ}
    (h : (step m s state input).kind = .refused (.law (some law) .violated)) :
    m.evaluate (s.tuple state input) = .error (.law (some law) .violated) := by
  unfold step at h
  cases hevaluate : m.evaluate (s.tuple state input) with
  | error refusal =>
    rw [hevaluate] at h
    rw [Kind.refused.inj h]
  | ok candidate =>
    simp only [hevaluate] at h
    cases hclass : candidate.class_ with
    | none =>
      rw [hclass] at h
      cases h
    | some class_ =>
      simp only [hclass] at h
      cases heffects : encodeDeliveries m candidate.effects with
      | none =>
        rw [heffects] at h
        cases h
      | some effects =>
        cases houtbox : encodeDeliveries m candidate.outbox with
        | none =>
          rw [heffects, houtbox] at h
          cases h
        | some outbox =>
          rw [heffects, houtbox] at h
          cases class_ <;> cases h

/-- what a refinement says of every run -/
structure Refines (mapping : Mapping) (a c : Loaded) (aSpace cSpace : Space) (aInitial cInitial : ℕ) : Prop where
  setting : Setting mapping a c aSpace cSpace aInitial cInitial
  initial : Initial mapping a c aSpace cSpace aInitial cInitial
  starts : Related mapping cSpace aSpace (element cSpace.stateAxes cInitial) (element aSpace.stateAxes aInitial)
  runs : ∀ concrete abstract_ inputs, Related mapping cSpace aSpace concrete abstract_ →
    (∀ input ∈ inputs, input ∈ Axes.tuples cSpace.inputAxes) → ∃ observations last abstractLast,
      c.machine.run cSpace.fields concrete inputs = some (observations, last) ∧
      a.machine.run aSpace.fields abstract_ inputs = some (observations, abstractLast) ∧
      Related mapping cSpace aSpace last abstractLast
  malformed : ∀ state < cSpace.states, mapping.get state = none → ∀ input ∈ Axes.tuples cSpace.inputAxes,
    c.machine.evaluate (element cSpace.stateAxes state ++ input) =
      .error (.law (some mapping.invalidStateLaw) .violated)

/-- the first row that fails -/
def FirstFailure (mapping : Mapping) (a c : Loaded) (aSpace cSpace : Space) (w : Witness) : Prop :=
  ∃ state < cSpace.states, ∃ input < cSpace.inputs, w.state = some state ∧ w.input = some input ∧
    row mapping c.machine a.machine cSpace aSpace state input = .fail w.obligation ∧
    ∀ y ∈ pairs cSpace.states cSpace.inputs, Before y (state, input) →
      row mapping c.machine a.machine cSpace aSpace y.1 y.2 = .pass

section Verdict

variable {mapping : Mapping} {a c : Loaded} {limit : ℕ} {report : Report}

theorem before_mem {states inputs : ℕ} {done rest : List (ℕ × ℕ)} {x y : ℕ × ℕ}
    (hsplit : pairs states inputs = done ++ x :: rest) (hy : y ∈ pairs states inputs) (hbefore : Before y x) :
    y ∈ done := by
  have hordered := pairs_ordered states inputs
  rw [hsplit] at hordered hy
  rcases List.mem_append.1 hy with hdone | hrest
  · exact hdone
  · exfalso
    have htail := (List.pairwise_append.1 hordered).2.1
    rcases List.mem_cons.1 hrest with rfl | hafter
    · unfold Before at hbefore
      omega
    · have hlater := (List.pairwise_cons.1 htail).1 y hafter
      unfold Before at hbefore hlater
      omega

theorem refines_of_rows {aSpace cSpace : Space} {aInitial cInitial : ℕ}
    (hsetting : Setting mapping a c aSpace cSpace aInitial cInitial)
    (hinitial : Initial mapping a c aSpace cSpace aInitial cInitial)
    (hpass : ∀ x ∈ pairs cSpace.states cSpace.inputs,
      row mapping c.machine a.machine cSpace aSpace x.1 x.2 = .pass) :
    Refines mapping a c aSpace cSpace aInitial cInitial := by
  have ha := Space.new_sized hsetting.aNew
  have hc := Space.new_sized hsetting.cNew
  have hinputs := inputAxes_eq ha hc hsetting.same
  refine ⟨hsetting, hinitial, ?_, ?_, ?_⟩
  · have hlt : cInitial < cSpace.states := by
      rw [← hsetting.length]
      by_contra hge
      have hget := hinitial.related
      rw [Mapping.get, List.getElem?_eq_none (not_lt.1 hge)] at hget
      cases hget
    refine ⟨cInitial, aInitial, hlt, ?_, hinitial.related, rfl, rfl⟩
    apply hsetting.bounded
    have hget := hinitial.related
    rw [Mapping.get, Option.join_eq_some_iff] at hget
    exact List.mem_of_getElem? hget
  · intro concrete abstract_ inputs hrelated hcomplete
    exact run_related ha hc hinputs hpass hcomplete hrelated
  · intro state hstate hget input hinput
    obtain ⟨ordinal, hordinal, rfl⟩ := Axes.exists_element hinput
    have hrow := hpass (state, ordinal) (mem_pairs.2 ⟨hstate, hc.inputs ▸ hordinal⟩)
    exact evaluate_of_kind (row_pass_none hrow hget).1

/-- **A refinement holds of runs of any length**, a counterexample is an unmet initial obligation or the first row that
fails, and ordinals are the states. -/
theorem refinement_check (h : check mapping a c limit = .ok report) :
    (report.verdict = .refines → ∃ aSpace cSpace aInitial cInitial,
      Refines mapping a c aSpace cSpace aInitial cInitial) ∧
    (report.verdict = .counterexample → ∃ aSpace cSpace aInitial cInitial w,
      Setting mapping a c aSpace cSpace aInitial cInitial ∧ report.witness = some w ∧
      (w.input ≠ none ∧ FirstFailure mapping a c aSpace cSpace w ∨
        w.input = none ∧ Unmet mapping a c aSpace cSpace aInitial cInitial w)) ∧
    ∀ loaded s, Space.new loaded = some s →
      (∀ values state, s.ordinal values = some state ↔ state < s.states ∧ element s.stateAxes state = values) ∧
      (∀ values ∈ Axes.tuples s.stateAxes, ∃ state, s.ordinal values = some state) ∧
      ∀ state < s.states, ∀ state' < s.states, ∀ input < s.inputs, ∀ input' < s.inputs,
        s.tuple state input = s.tuple state' input' → state = state' ∧ input = input' := by
  refine ⟨?_, ?_, ?_⟩
  · intro hverdict
    rcases check_ok h with hopen | ⟨aSpace, cSpace, aInitial, cInitial, start, hsetting, hstart, rfl⟩
    · rw [hverdict] at hopen
      cases hopen
    · refine ⟨aSpace, cSpace, aInitial, cInitial, ?_⟩
      cases @judge_spec mapping a c aSpace cSpace aInitial cInitial start hstart with
      | unmet verdict witness hunmet => rw [hverdict] at verdict; cases verdict
      | open_ verdict => rw [hverdict] at verdict; cases verdict
      | rows hinitial hbegin compared =>
        cases compared with
        | refines verdict pass => exact refines_of_rows hsetting hinitial pass
        | fails verdict split pass fail witness => rw [hverdict] at verdict; cases verdict
        | cut verdict => rw [hverdict, hbegin] at verdict; cases verdict
  · intro hverdict
    rcases check_ok h with hopen | ⟨aSpace, cSpace, aInitial, cInitial, start, hsetting, hstart, rfl⟩
    · rw [hverdict] at hopen
      cases hopen
    · refine ⟨aSpace, cSpace, aInitial, cInitial, ?_⟩
      cases @judge_spec mapping a c aSpace cSpace aInitial cInitial start hstart with
      | @unmet _ w verdict witness hunmet =>
        refine ⟨w, hsetting, witness, Or.inr ⟨?_, hunmet⟩⟩
        cases hunmet <;> rfl
      | open_ verdict => rw [hverdict] at verdict; cases verdict
      | rows hinitial hbegin compared =>
        cases compared with
        | refines verdict pass => rw [hverdict] at verdict; cases verdict
        | @fails done x rest obligation verdict split pass fail witness =>
          have hx : x ∈ pairs cSpace.states cSpace.inputs := by
            rw [split]
            exact List.mem_append_right _ List.mem_cons_self
          obtain ⟨hstate, hinput⟩ := mem_pairs.1 hx
          refine ⟨_, hsetting, witness, Or.inl ⟨nofun, x.1, hstate, x.2, hinput, rfl, rfl, fail, ?_⟩⟩
          intro y hy hbefore
          exact pass y (before_mem split hy hbefore)
        | cut verdict => rw [hverdict, hbegin] at verdict; cases verdict
  · intro loaded s hs
    have hsized := Space.new_sized hs
    refine ⟨fun values state => hsized.ordinal_iff, fun values hvalues => hsized.exists_ordinal hvalues, ?_⟩
    intro state hstate state' hstate' input hinput input' hinput' heq
    exact hsized.tuple_injective hstate hstate' hinput hinput' heq

end Verdict

/-! ## A refinement with a state outside -/

/-- the shared command -/
def commandFlag : Position := ⟨"command.120", .command, some 120, 120, .bool⟩

/-- one flag, and a machine that stores every command -/
def flag : Loaded where
  positions := [⟨"pre.100.110", .state, some 110, 110, .bool⟩, commandFlag]
  laws := []
  initial := [(110, .bool false)]
  machine := ⟨fun values => .ok ⟨some .accept, some 1, [(110, .i128 (values.getD 1 0))], [], [], []⟩,
    fun _ => none, fun _ => some [], fun _ => some []⟩

/-- three positions, of which a law admits the first two -/
def dial : Loaded where
  positions := [⟨"pre.200.210", .state, some 210, 210, .int 0 2⟩, commandFlag]
  laws := [5]
  initial := [(210, .i128 0)]
  machine := ⟨fun values => if values.getD 0 0 = 2 then .error (.law (some 5) .violated)
      else .ok ⟨some .accept, some 1, [(210, .i128 (values.getD 1 0))], [], [], []⟩,
    fun _ => none, fun _ => some [], fun _ => some []⟩

/-- the third position of the dial is no state of the flag -/
def dialMapping : Mapping := ⟨[some 0, some 1, none], 5⟩

theorem refinement_check_dial : ∃ report, check dialMapping flag dial 6 = .ok report ∧
    report.verdict = .refines ∧ report.checkedRows = 6 ∧ dialMapping.get 2 = none ∧
    (∃ observations, dial.machine.run [210] [0] [[1], [0], [1]] = some (observations, [1]) ∧
      observations.map (fun o => o.kind) = [.accept, .accept, .accept]) ∧
    ∃ aSpace cSpace aInitial cInitial, Refines dialMapping flag dial aSpace cSpace aInitial cInitial :=
  ⟨_, rfl, rfl, rfl, rfl, ⟨_, rfl, rfl⟩, (@refinement_check dialMapping flag dial 6 _ rfl).1 rfl⟩

/-! ## Uncovered states -/

/-- one flag, and a machine that rejects every input -/
def rejecting : Loaded where
  positions := [⟨"pre.100.110", .state, some 110, 110, .bool⟩]
  laws := []
  initial := [(110, .bool false)]
  machine := ⟨fun _ => .ok ⟨some .reject, some 1, [], [], [], []⟩, fun _ => none, fun _ => some [], fun _ => some []⟩

/-- both states are mapped to the first -/
def collapsing : Mapping := ⟨[some 0, some 0], 0⟩

/-- every row passes, and the counterexample has neither a state nor an input -/
theorem uncovered_counterexample : ∃ report space, check collapsing rejecting rejecting 2 = .ok report ∧
    report.verdict = .counterexample ∧ report.witness = some ⟨"abstract-state-coverage", none, none⟩ ∧
    Space.new rejecting = some space ∧ ∀ state < space.states, ∀ input < space.inputs,
      row collapsing rejecting.machine rejecting.machine space space state input = .pass := by
  refine ⟨_, _, rfl, rfl, rfl, rfl, ?_⟩
  decide

end ZenoFcis.Contract.Refinement
