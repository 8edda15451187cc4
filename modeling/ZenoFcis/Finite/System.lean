/-
Exhaustive system properties of a finite transition program (`zeno-fcis-synthesis/src/system.rs`): totality on every
admitted input, then the property on every admitted input, then the property on every pair that the domains admit.

`checkSystemProperty_eq` says what each stage finds, for both enumerations pass through all tuples of their domains.
-/
import ZenoFcis.Finite.Meaning
import ZenoFcis.Finite.Space

namespace ZenoFcis.Finite

open Lib Lib.Except

/-- a reviewed relation over input followed by output fields -/
structure Contract where
  inputs : List Domain
  outputs : List Domain
  relation : Program
  shape : inputs.length ≤ maxFields ∧ outputs.length ≤ maxFields ∧ outputs ≠ [] ∧
    relation.inputs = inputs ++ outputs ∧ relation.outputs = [.bool]

namespace Contract

def tryNew (inputs outputs : List Domain) (relation : Program) : Except Error Contract :=
  if h : inputs.length ≤ maxFields ∧ outputs.length ≤ maxFields ∧ outputs ≠ [] ∧
      relation.inputs = inputs ++ outputs ∧ relation.outputs = [.bool] then .ok ⟨inputs, outputs, relation, h⟩
  else .error (.invalid "contract-shape")

/-- `matches!(result, [1])` -/
def isOne : List I128 → Bool
  | [v] => decide (v.val = 1)
  | _ => false

def holdsInto (c : Contract) (input output : List I128) (buffers : Buffers) : Except Error Bool × Buffers :=
  if ¬admitted c.inputs input ∨ ¬admitted c.outputs output then (.error (.invalid "contract-domain"), buffers)
  else
    match c.relation.evaluateInto (input ++ output) buffers with
    | (.ok (), buffers) => (.ok (isOne buffers.output), buffers)
    | (.error error, buffers) => (.error error, buffers)

def holds (c : Contract) (input output : List I128) : Except Error Bool := (c.holdsInto input output .empty).1

def inputSpace (c : Contract) : Except Error Space := Space.tryNew c.inputs maxInputs

end Contract

structure SystemLimits where
  maxInputs : UInt64
  maxPairs : UInt64

/-- the outcome of checking one property of a finite transition -/
inductive SystemCheck where
  | systemProperty (inputs : ℕ)
  | domainImplied (inputs pairs : ℕ)
  | notTotal (input : List I128)
  | violated (input output : List I128)
  | undefined (input output : List I128)
deriving DecidableEq

namespace SystemCheck

def countWidth (count : ℕ) (d : Domain) : Except Error ℕ :=
  match d.width with
  | none => .error (.limit "system-space")
  | some width => if count * width < 2 ^ 64 then .ok (count * width) else .error (.limit "system-space")

def cardinality (domains : List Domain) : Except Error ℕ := domains.foldlM countWidth 1

/-- the fields with their domains, from the last one back -/
def advanceFields : List (I128 × Domain) → List I128 × Bool
  | [] => ([], false)
  | (value, d) :: rest =>
    match d.above value with
    | some next => (next :: rest.map Prod.fst, true)
    | none => (d.bounds.1 :: (advanceFields rest).1, (advanceFields rest).2)

def advance (domains : List Domain) (tuple : List I128) : List I128 × Bool :=
  ((advanceFields (tuple.zip domains).reverse).1.reverse ++ tuple.drop domains.length,
    (advanceFields (tuple.zip domains).reverse).2)

/-- the totality stage -/
def firstPartial (transition : Program) : List (List I128) → Option SystemCheck
  | [] => none
  | input :: rest =>
    match transition.evaluate input with
    | .error _ => some (.notTotal input)
    | .ok _ => firstPartial transition rest

/-- the property stage -/
def firstFailure (transition : Program) (property : Contract) : List (List I128) → Option SystemCheck
  | [] => none
  | input :: rest =>
    match transition.evaluate input with
    | .error _ => some (.notTotal input)
    | .ok output =>
      match property.holds input output with
      | .ok true => firstFailure transition property rest
      | .ok false => some (.violated input output)
      | .error _ => some (.undefined input output)

/-- the output tuples of one input, from the given one on -/
def everyOutput (property : Contract) (outputs : List Domain) (input : List I128) : ℕ → List I128 → Bool
  | 0, _ => true
  | fuel + 1, output =>
    match property.holds input output with
    | .ok true =>
      match advance outputs output with
      | (next, true) => everyOutput property outputs input fuel next
      | (_, false) => true
    | _ => false

end SystemCheck

open SystemCheck in
def checkSystemProperty (transition : Program) (property : Contract) (limits : SystemLimits) :
    Except Error SystemCheck := do
  ensure (¬(property.inputs ≠ transition.inputs ∨ property.outputs ≠ transition.outputs)) (.invalid "property-shape")
  let space ← property.inputSpace
  ensure (¬limits.maxInputs.toNat < space.count) (.limit "system-inputs")
  match firstPartial transition (space.items space.count) with
  | some check => return check
  | none =>
    match firstFailure transition property (space.items space.count) with
    | some check => return check
    | none =>
      let count ← cardinality transition.outputs
      ensure (count * space.count < 2 ^ 64 ∧ count * space.count ≤ limits.maxPairs.toNat) (.limit "system-pairs")
      -- `count` turns of the output odometer are a whole one
      if (space.items space.count).all fun input =>
          everyOutput property transition.outputs input count (Space.first transition.outputs) then
        return .domainImplied space.count (count * space.count)
      else return .systemProperty space.count

/-! ## Shapes -/

/-- the domains of a program are valid -/
theorem Program.valid (program : Program) :
    validDomains program.inputs = true ∧ validDomains program.outputs = true := by
  rcases program.validated with h | h
  · obtain ⟨_, hshape, -⟩ := bind_eq_ok.1 h
    unfold validateShape at hshape
    split_ifs at hshape with hbad
    simp only [not_or, not_not] at hbad
    exact ⟨hbad.2.2.2.2.2.2.1, hbad.2.2.2.2.2.2.2⟩
  · obtain ⟨_, hshape, -⟩ := bind_eq_ok.1 h
    unfold validateExtendedShape at hshape
    split_ifs at hshape with hbad
    simp only [not_or, not_not] at hbad
    exact ⟨hbad.2.2.2.2.2.2.1, hbad.2.2.2.2.2.2.2⟩

theorem Program.evaluate_error {program : Program} {input : List I128} (hin : admitted program.inputs input = true) :
    (∃ e, program.evaluate input = .error e) ↔ program.NodeFails input ∨ program.RootOutside input := by
  unfold evaluate
  rcases program.evaluateInto_spec hin .empty with ⟨hfails, hrun⟩ | ⟨_, houtside, hrun⟩ | ⟨hnone, hinside, values,
    output, hrun, -⟩
  · rw [hrun]
    exact iff_of_true ⟨_, rfl⟩ (.inl hfails)
  · rw [hrun]
    exact iff_of_true ⟨_, rfl⟩ (.inr houtside)
  · rw [hrun]
    exact iff_of_false nofun fun h => h.elim hnone hinside

theorem Program.evaluate_ok {program : Program} {input output : List I128} (hin : admitted program.inputs input = true)
    (h : program.evaluate input = .ok output) : admitted program.outputs output = true := by
  unfold evaluate at h
  rcases program.evaluateInto_spec hin .empty with ⟨_, hrun⟩ | ⟨_, _, hrun⟩ | ⟨_, _, values, output', hrun, hout, -⟩
  · rw [hrun] at h
    cases h
  · rw [hrun] at h
    cases h
  · rw [hrun] at h
    cases h
    exact hout

/-- the number of tuples of the domains -/
def tupleCount (domains : List Domain) : ℕ :=
  (domains.map fun d => (d.bounds.2.val - d.bounds.1.val + 1).toNat).prod

theorem length_tuples {domains : List Domain} (h : validDomains domains = true) :
    (Space.tuples domains).length = tupleCount domains := by
  induction domains with
  | nil => rfl
  | cons d domains ih =>
    rw [validDomains, List.all_cons, Bool.and_eq_true] at h
    rw [Space.length_cons, ih h.2, Domain.length_values h.1, tupleCount, tupleCount, List.map_cons, List.prod_cons]
    have hvalid := of_decide_eq_true h.1
    congr 1
    omega

namespace SystemCheck

/-! ## The second odometer -/

/-- a step in place as a successor -/
def stepped (step : List I128 → List I128 × Bool) (tuple : List I128) : Option (List I128) :=
  match step tuple with
  | (next, true) => some next
  | (_, false) => none

variable {domains : List Domain} {tuple t : List I128} {P : List I128 → Prop}

theorem advanceFields_eq (h : tuple.length = domains.length) :
    advanceFields (tuple.zip domains).reverse =
      match Space.successor domains tuple with
      | some u => (u.reverse, true)
      | none => ((Space.first domains).reverse, false) := by
  induction domains using List.reverseRecOn generalizing tuple with
  | nil =>
    obtain rfl := List.length_eq_zero_iff.1 h
    rfl
  | append_singleton domains d ih =>
    rw [List.length_append, List.length_singleton] at h
    obtain ⟨tuple, v, rfl⟩ : ∃ t v, tuple = t ++ [v] :=
      ⟨tuple.dropLast, tuple.getLast (List.ne_nil_of_length_eq_add_one h), (List.dropLast_append_getLast _).symm⟩
    rw [List.length_append, List.length_singleton, Nat.add_right_cancel_iff] at h
    have hsnoc : Space.successor (domains ++ [d]) (tuple ++ [v]) = match d.above v with
        | some w => some (tuple ++ [w])
        | none => (Space.successor domains tuple).map (· ++ [d.bounds.1]) := by
      rw [Space.successor, advance_snoc _ _ h]
      cases d.above v <;> rfl
    rw [List.zip_append h, List.reverse_append, hsnoc]
    change advanceFields ((v, d) :: (tuple.zip domains).reverse) = _
    rw [advanceFields]
    cases hnext : d.above v with
    | some w =>
      dsimp only
      rw [List.map_reverse, List.map_fst_zip h.le, List.reverse_append]
      rfl
    | none =>
      dsimp only
      rw [ih h]
      cases Space.successor domains tuple <;> simp [Space.first]

theorem advance_eq (h : tuple.length = domains.length) :
    advance domains tuple =
      match Space.successor domains tuple with
      | some u => (u, true)
      | none => (Space.first domains, false) := by
  have hdrop : tuple.drop domains.length = [] := List.drop_eq_nil_of_le h.le
  rw [advance, advanceFields_eq h, hdrop, List.append_nil]
  cases Space.successor domains tuple <;> simp

theorem visits_stepped {step : List I128 → List I128 × Bool}
    (hstep : ∀ tuple, tuple.length = domains.length → step tuple =
      match Space.successor domains tuple with
      | some u => (u, true)
      | none => (Space.first domains, false))
    (hlen : tuple.length = domains.length) {l : List (List I128)}
    (h : Visits (Space.successor domains) tuple l) : Visits (stepped step) tuple l := by
  induction h with
  | last hnone =>
    refine .last ?_
    rw [stepped, hstep _ hlen, hnone]
  | step hsome _ ih =>
    refine .step ?_ (ih (Space.length_successor hsome))
    rw [stepped, hstep _ hlen, hsome]

/-- **One enumeration.** Both odometers pass through all tuples of the domains, in the same order. -/
theorem visits_both (h : validDomains domains = true) :
    Visits (stepped (Space.advance domains)) (Space.first domains) (Space.tuples domains) ∧
      Visits (stepped (advance domains)) (Space.first domains) (Space.tuples domains) :=
  ⟨visits_stepped (fun _ => Space.advance_eq) (List.length_map _) (Space.visits_tuples h),
    visits_stepped (fun _ => advance_eq) (List.length_map _) (Space.visits_tuples h)⟩

/-! ## The stages -/

section Stages

variable (transition : Program) (property : Contract)

/-- the transition has no output inside its domains -/
def fails (input : List I128) : Bool :=
  match transition.evaluate input with
  | .error _ => true
  | .ok _ => false

/-- the property is defined and true -/
def holdsTrue (input output : List I128) : Bool :=
  match property.holds input output with
  | .ok true => true
  | _ => false

/-- the property is not established for the transition's own output -/
def refuted (input : List I128) : Bool :=
  match transition.evaluate input with
  | .error _ => true
  | .ok output => !holdsTrue property input output

/-- what the property stage reports for an input -/
def verdict (input : List I128) : SystemCheck :=
  match transition.evaluate input with
  | .error _ => .notTotal input
  | .ok output =>
    match property.holds input output with
    | .ok _ => .violated input output
    | .error _ => .undefined input output

variable {transition property}

variable {input output : List I128}

theorem fails_iff : fails transition input = true ↔ ∃ e, transition.evaluate input = .error e := by
  unfold fails
  cases transition.evaluate input <;> simp

theorem holdsTrue_iff :
    holdsTrue property input output = true ↔ property.holds input output = .ok true := by
  unfold holdsTrue
  rcases property.holds input output with e | b
  · simp
  · cases b <;> simp

theorem firstPartial_eq (l : List (List I128)) :
    firstPartial transition l = (l.find? (fails transition)).map .notTotal := by
  induction l with
  | nil => rfl
  | cons input rest ih =>
    rw [firstPartial, List.find?_cons, fails]
    cases transition.evaluate input with
    | error e => rfl
    | ok output => exact ih

theorem firstFailure_eq (l : List (List I128)) :
    firstFailure transition property l = (l.find? (refuted transition property)).map (verdict transition property) := by
  induction l with
  | nil => rfl
  | cons input rest ih =>
    rw [firstFailure, List.find?_cons, refuted]
    cases heval : transition.evaluate input with
    | error e =>
      dsimp only
      rw [Option.map_some, verdict, heval]
    | ok output =>
      dsimp only
      rw [holdsTrue]
      rcases hholds : property.holds input output with e | b
      · change _ = some (verdict transition property input)
        rw [verdict, heval]
        dsimp only
        rw [hholds]
      · cases b with
        | true => exact ih
        | false =>
          change _ = some (verdict transition property input)
          rw [verdict, heval]
          dsimp only
          rw [hholds]

theorem everyOutput_eq {outputs : List Domain} {l : List (List I128)}
    (h : Visits (stepped (advance outputs)) output l) {fuel : ℕ} (hfuel : l.length ≤ fuel) :
    everyOutput property outputs input fuel output = l.all (holdsTrue property input) := by
  induction h generalizing fuel with
  | @last output hnone =>
    obtain ⟨fuel, rfl⟩ := Nat.exists_eq_add_of_le' hfuel
    rw [List.all_cons, List.all_nil, Bool.and_true, holdsTrue]
    change everyOutput property outputs input (fuel + 1) output = _
    rw [everyOutput]
    rw [stepped] at hnone
    rcases property.holds input output with e | b
    · rfl
    · cases b with
      | false => rfl
      | true =>
        dsimp only
        split at hnone
        · cases hnone
        · rfl
  | @step output next l hsome _ ih =>
    rw [List.length_cons] at hfuel
    obtain ⟨fuel, rfl⟩ := Nat.exists_eq_add_of_le' (Nat.le_trans (Nat.succ_le_succ (Nat.zero_le _)) hfuel)
    rw [List.all_cons, holdsTrue]
    change everyOutput property outputs input (fuel + 1) output = _
    rw [everyOutput]
    rw [stepped] at hsome
    rcases property.holds input output with e | b
    · rfl
    · cases b with
      | false => rfl
      | true =>
        dsimp only
        split at hsome
        · cases hsome
          rw [Bool.true_and]
          exact ih (Nat.le_of_succ_le_succ hfuel)
        · cases hsome

theorem foldlM_countWidth {domains : List Domain} (h : validDomains domains = true) {count : ℕ} (hcount : 0 < count)
    (hfits : count * (Space.tuples domains).length < 2 ^ 64) :
    domains.foldlM countWidth count = .ok (count * (Space.tuples domains).length) := by
  induction domains generalizing count with
  | nil =>
    have hone : (Space.tuples []).length = 1 := rfl
    rw [hone, Nat.mul_one]
    rfl
  | cons d domains ih =>
    rw [validDomains, List.all_cons, Bool.and_eq_true] at h
    rw [Space.length_cons, ← Nat.mul_assoc] at hfits ⊢
    have hpos := Space.values_pos h.1
    have hrest : 0 < (Space.tuples domains).length := List.length_pos_of_ne_nil (Space.visits_tuples h.2).ne_nil
    have hgrow : count * d.values.length ≤ count * d.values.length * (Space.tuples domains).length :=
      Nat.le_mul_of_pos_right _ hrest
    have hwide : d.values.length ≤ count * d.values.length := Nat.le_mul_of_pos_left _ hcount
    rw [List.foldlM_cons, countWidth, Domain.width_eq h.1, if_pos (by omega)]
    dsimp only
    rw [if_pos (by omega), ok_bind, ih h.2 (Nat.mul_pos hcount hpos) hfits]

end Stages

/-- the enumeration fits the limits -/
structure Fits (transition : Program) (limits : SystemLimits) : Prop where
  hard : tupleCount transition.inputs ≤ maxInputs
  inputs : tupleCount transition.inputs ≤ limits.maxInputs.toNat
  pairs : tupleCount transition.inputs * tupleCount transition.outputs ≤ limits.maxPairs.toNat

/-- **The check.** Each stage reports its first finding in the order of the inputs. -/
theorem checkSystemProperty_eq {transition : Program} {property : Contract} {limits : SystemLimits}
    (hinputs : property.inputs = transition.inputs) (houtputs : property.outputs = transition.outputs)
    (h : Fits transition limits) : checkSystemProperty transition property limits =
      .ok (match (Space.tuples transition.inputs).find? (fails transition) with
        | some input => .notTotal input
        | none =>
          match (Space.tuples transition.inputs).find? (refuted transition property) with
          | some input => verdict transition property input
          | none =>
            if (Space.tuples transition.inputs).all fun input =>
                (Space.tuples transition.outputs).all (holdsTrue property input) then
              .domainImplied (tupleCount transition.inputs)
                (tupleCount transition.inputs * tupleCount transition.outputs)
            else .systemProperty (tupleCount transition.inputs)) := by
  obtain ⟨hvalid, hvalid'⟩ := transition.valid
  have hcount := length_tuples hvalid
  have hcount' := length_tuples hvalid'
  have hpairs := limits.maxPairs.toNat_lt
  have hle := h.pairs
  have hspace : property.inputSpace =
      .ok ⟨transition.inputs, some (Space.first transition.inputs), tupleCount transition.inputs⟩ := by
    rw [Contract.inputSpace, hinputs, Space.tryNew_eq hvalid (by decide) (by decide), hcount, if_pos h.hard]
  have hitems := Space.items_tuples hvalid (tupleCount transition.inputs) hcount.le
  -- the product of the inputs is at least one
  have hone : 0 < tupleCount transition.inputs := by
    rw [← hcount]
    exact List.length_pos_of_ne_nil (Space.visits_tuples hvalid).ne_nil
  have hsmall : tupleCount transition.outputs ≤ tupleCount transition.inputs * tupleCount transition.outputs :=
    Nat.le_mul_of_pos_left _ hone
  have hcardinality : cardinality transition.outputs = .ok (tupleCount transition.outputs) := by
    rw [cardinality, foldlM_countWidth hvalid' Nat.one_pos (by omega), Nat.one_mul, hcount']
  have hall (input : List I128) : everyOutput property transition.outputs input (tupleCount transition.outputs)
      (Space.first transition.outputs) = (Space.tuples transition.outputs).all (holdsTrue property input) :=
    everyOutput_eq (visits_both hvalid').2 hcount'.le
  unfold checkSystemProperty
  rw [ensure_bind (by rw [hinputs, houtputs]; simp), hspace, ok_bind, ensure_bind (not_lt.2 h.inputs)]
  dsimp only
  rw [hitems, firstPartial_eq, firstFailure_eq]
  cases (Space.tuples transition.inputs).find? (fails transition) with
  | some input => rfl
  | none =>
    dsimp only [Option.map_none]
    cases (Space.tuples transition.inputs).find? (refuted transition property) with
    | some input => rfl
    | none =>
      dsimp only [Option.map_none]
      rw [hcardinality, ok_bind, ensure_bind (by rw [Nat.mul_comm]; omega)]
      simp only [hall]
      rw [Nat.mul_comm (tupleCount transition.outputs)]
      split_ifs <;> rfl

/-- the lexicographically first admitted tuple with a property -/
structure First (domains : List Domain) (P : List I128 → Prop) (t : List I128) : Prop where
  admitted : admitted domains t = true
  holds : P t
  least (s : List I128) : Finite.admitted domains s = true → Space.Before s t → ¬P s

theorem find?_eq_some_iff_first (h : validDomains domains = true) {p : List I128 → Bool}
    (hp : ∀ t, p t = true ↔ P t) :
    (Space.tuples domains).find? p = some t ↔ First domains P t := by
  rw [find?_eq_some_of_pairwise (Space.sorted_tuples h) Space.before_asymm, Space.mem_tuples h, hp]
  constructor
  · rintro ⟨hadmitted, hP, hleast⟩
    refine ⟨hadmitted, hP, fun s hs hbefore hPs => ?_⟩
    have hfalse := hleast s ((Space.mem_tuples h).2 hs) hbefore
    rw [(hp s).2 hPs] at hfalse
    cases hfalse
  · rintro ⟨hadmitted, hP, hleast⟩
    refine ⟨hadmitted, hP, fun s hs hbefore => ?_⟩
    rw [← Bool.not_eq_true, hp]
    exact hleast s ((Space.mem_tuples h).1 hs) hbefore

theorem find?_eq_none_iff (h : validDomains domains = true) {p : List I128 → Bool}
    (hp : ∀ t, p t = true ↔ P t) :
    (Space.tuples domains).find? p = none ↔ ∀ t, admitted domains t = true → ¬P t := by
  rw [List.find?_eq_none]
  refine forall_congr' fun t => ?_
  rw [Space.mem_tuples h, hp]

/-! ## Classification -/

/-- the transition traps on the input or leaves its output domains -/
def Trapped (transition : Program) (input : List I128) : Prop :=
  transition.NodeFails input ∨ transition.RootOutside input

def Total (transition : Program) : Prop := ∀ input, admitted transition.inputs input = true → ¬Trapped transition input

/-- the property is false or undefined for the transition's output -/
def Broken (transition : Program) (property : Contract) (input : List I128) : Prop :=
  ∃ output, transition.evaluate input = .ok output ∧ property.holds input output ≠ .ok true

/-- the property holds on every pair of tuples that the domains admit -/
def Implied (transition : Program) (property : Contract) : Prop :=
  ∀ input output, admitted transition.inputs input = true → admitted transition.outputs output = true →
    property.holds input output = .ok true

theorem First.congr {Q : List I128 → Prop}
    (h : ∀ s, Finite.admitted domains s = true → (P s ↔ Q s)) : First domains P t ↔ First domains Q t :=
  ⟨fun ⟨ha, hP, hleast⟩ => ⟨ha, (h t ha).1 hP, fun s hs hbefore hQ => hleast s hs hbefore ((h s hs).2 hQ)⟩,
    fun ⟨ha, hQ, hleast⟩ => ⟨ha, (h t ha).2 hQ, fun s hs hbefore hP => hleast s hs hbefore ((h s hs).1 hP)⟩⟩

section Classification

variable {transition : Program} {property : Contract}

variable {input : List I128}

theorem refuted_iff : refuted transition property input = true ↔
    (∃ e, transition.evaluate input = .error e) ∨ Broken transition property input := by
  unfold refuted Broken
  cases heval : transition.evaluate input with
  | error e => exact iff_of_true rfl (.inl ⟨e, rfl⟩)
  | ok output =>
    dsimp only
    rw [Bool.not_eq_true', ← Bool.not_eq_true, holdsTrue_iff]
    constructor
    · exact fun h => .inr ⟨output, rfl, h⟩
    · rintro (⟨e, he⟩ | ⟨o, ho, h⟩)
      · cases he
      · cases ho
        exact h

theorem find?_fails :
    (Space.tuples transition.inputs).find? (fails transition) = some input ↔
      First transition.inputs (Trapped transition) input :=
  (find?_eq_some_iff_first transition.valid.1 fun _ => fails_iff).trans
    (First.congr fun _ hs => Program.evaluate_error hs)

theorem find?_fails_none : (Space.tuples transition.inputs).find? (fails transition) = none ↔ Total transition :=
  (find?_eq_none_iff transition.valid.1 fun _ => fails_iff).trans
    (forall₂_congr fun _ hs => not_congr (Program.evaluate_error hs))

theorem Total.refuted_iff (h : Total transition) (hin : admitted transition.inputs input = true) :
    ((∃ e, transition.evaluate input = .error e) ∨ Broken transition property input) ↔
      Broken transition property input :=
  or_iff_right fun herror => h input hin ((Program.evaluate_error hin).1 herror)

theorem find?_refuted (h : Total transition) :
    (Space.tuples transition.inputs).find? (refuted transition property) = some input ↔
      First transition.inputs (Broken transition property) input :=
  (find?_eq_some_iff_first transition.valid.1 fun _ => SystemCheck.refuted_iff).trans
    (First.congr fun _ hs => h.refuted_iff hs)

theorem find?_refuted_none (h : Total transition) :
    (Space.tuples transition.inputs).find? (refuted transition property) = none ↔
      ∀ input, admitted transition.inputs input = true → ¬Broken transition property input :=
  (find?_eq_none_iff transition.valid.1 fun _ => SystemCheck.refuted_iff).trans
    (forall₂_congr fun _ hs => not_congr (h.refuted_iff hs))

theorem all_iff : ((Space.tuples transition.inputs).all fun input =>
    (Space.tuples transition.outputs).all (holdsTrue property input)) = true ↔ Implied transition property := by
  simp only [List.all_eq_true, Space.mem_tuples transition.valid.1, Space.mem_tuples transition.valid.2, holdsTrue_iff]
  exact ⟨fun h i o hi ho => h i hi o ho, fun h i hi o ho => h i o hi ho⟩

theorem Implied.not_broken (h : Implied transition property)
    (hin : admitted transition.inputs input = true) : ¬Broken transition property input := by
  rintro ⟨output, houtput, hne⟩
  exact hne (h input output hin (Program.evaluate_ok hin houtput))

/-- what a check of equal domains within the limits says -/
structure Classifies (transition : Program) (property : Contract) (check : SystemCheck) : Prop where
  notTotal (input : List I128) : check = .notTotal input ↔ First transition.inputs (Trapped transition) input
  violated (input output : List I128) : check = .violated input output ↔ Total transition ∧
    First transition.inputs (Broken transition property) input ∧ transition.evaluate input = .ok output ∧
    property.holds input output = .ok false
  undefined (input output : List I128) : check = .undefined input output ↔ Total transition ∧
    First transition.inputs (Broken transition property) input ∧ transition.evaluate input = .ok output ∧
    ∃ e, property.holds input output = .error e
  domainImplied (inputs pairs : ℕ) : check = .domainImplied inputs pairs ↔ Total transition ∧
    Implied transition property ∧ inputs = tupleCount transition.inputs ∧
    pairs = tupleCount transition.inputs * tupleCount transition.outputs
  systemProperty (inputs : ℕ) : check = .systemProperty inputs ↔ Total transition ∧
    (∀ input, admitted transition.inputs input = true → ¬Broken transition property input) ∧
    ¬Implied transition property ∧ inputs = tupleCount transition.inputs

theorem classifies_notTotal (h : First transition.inputs (Trapped transition) input) :
    Classifies transition property (.notTotal input) := by
  have hpartial : ¬Total transition := fun htotal => htotal input h.admitted h.holds
  refine ⟨fun i => ?_, fun i o => iff_of_false nofun fun hi => hpartial hi.1,
    fun i o => iff_of_false nofun fun hi => hpartial hi.1, fun n m => iff_of_false nofun fun hi => hpartial hi.1,
    fun n => iff_of_false nofun fun hi => hpartial hi.1⟩
  rw [SystemCheck.notTotal.injEq, ← find?_fails, find?_fails.2 h, Option.some_inj]

theorem classifies_verdict (htotal : Total transition)
    (h : First transition.inputs (Broken transition property) input) :
    Classifies transition property (verdict transition property input) := by
  obtain ⟨output, houtput, hne⟩ := h.holds
  have hunique (i : List I128) : First transition.inputs (Broken transition property) i ↔ input = i := by
    rw [← find?_refuted htotal, (find?_refuted htotal).2 h, Option.some_inj]
  have hnotTotal (i : List I128) : ¬First transition.inputs (Trapped transition) i := fun hi =>
    htotal i hi.admitted hi.holds
  have himplied : ¬Implied transition property := fun hi => hi.not_broken h.admitted h.holds
  unfold verdict
  rw [houtput]
  dsimp only
  cases hholds : property.holds input output with
  | error e =>
    refine ⟨fun i => iff_of_false nofun (hnotTotal i), fun i o => iff_of_false nofun fun hi => ?_, fun i o => ?_,
      fun n m => iff_of_false nofun fun hi => himplied hi.2.1,
      fun n => iff_of_false nofun fun hi => hi.2.1 input h.admitted h.holds⟩
    · obtain rfl := (hunique i).1 hi.2.1
      obtain rfl := Except.ok.inj (houtput.symm.trans hi.2.2.1)
      exact nomatch hholds.symm.trans hi.2.2.2
    · rw [SystemCheck.undefined.injEq, hunique]
      constructor
      · rintro ⟨rfl, rfl⟩
        exact ⟨htotal, rfl, houtput, e, hholds⟩
      · rintro ⟨-, rfl, ho, -⟩
        exact ⟨rfl, Except.ok.inj (houtput.symm.trans ho)⟩
  | ok b =>
    have hfalse : b = false := Bool.eq_false_iff.2 fun hb => hne (hb ▸ hholds)
    refine ⟨fun i => iff_of_false nofun (hnotTotal i), fun i o => ?_, fun i o => iff_of_false nofun fun hi => ?_,
      fun n m => iff_of_false nofun fun hi => himplied hi.2.1,
      fun n => iff_of_false nofun fun hi => hi.2.1 input h.admitted h.holds⟩
    · rw [SystemCheck.violated.injEq, hunique]
      constructor
      · rintro ⟨rfl, rfl⟩
        exact ⟨htotal, rfl, houtput, hfalse ▸ hholds⟩
      · rintro ⟨-, rfl, ho, -⟩
        exact ⟨rfl, Except.ok.inj (houtput.symm.trans ho)⟩
    · obtain ⟨-, hi, ho, e, he⟩ := hi
      obtain rfl := (hunique i).1 hi
      obtain rfl := Except.ok.inj (houtput.symm.trans ho)
      exact nomatch hholds.symm.trans he

theorem classifies_established (htotal : Total transition)
    (h : ∀ input, admitted transition.inputs input = true → ¬Broken transition property input) :
    (Implied transition property → Classifies transition property (.domainImplied (tupleCount transition.inputs)
      (tupleCount transition.inputs * tupleCount transition.outputs))) ∧
    (¬Implied transition property →
      Classifies transition property (.systemProperty (tupleCount transition.inputs))) := by
  have hnotTotal (i : List I128) : ¬First transition.inputs (Trapped transition) i := fun hi =>
    htotal i hi.admitted hi.holds
  have hnone (i : List I128) : ¬First transition.inputs (Broken transition property) i := fun hi =>
    h i hi.admitted hi.holds
  refine ⟨fun himplied => ?_, fun himplied => ?_⟩
  · refine ⟨fun i => iff_of_false nofun (hnotTotal i), fun i o => iff_of_false nofun fun hi => hnone i hi.2.1,
      fun i o => iff_of_false nofun fun hi => hnone i hi.2.1, fun n m => ?_,
      fun n => iff_of_false nofun fun hi => hi.2.2.1 himplied⟩
    rw [SystemCheck.domainImplied.injEq]
    exact ⟨fun hi => ⟨htotal, himplied, hi.1.symm, hi.2.symm⟩, fun hi => ⟨hi.2.2.1.symm, hi.2.2.2.symm⟩⟩
  · refine ⟨fun i => iff_of_false nofun (hnotTotal i), fun i o => iff_of_false nofun fun hi => hnone i hi.2.1,
      fun i o => iff_of_false nofun fun hi => hnone i hi.2.1,
      fun n m => iff_of_false nofun fun hi => himplied hi.2.1, fun n => ?_⟩
    rw [SystemCheck.systemProperty.injEq]
    exact ⟨fun hi => ⟨htotal, h, himplied, hi.symm⟩, fun hi => hi.2.2.2.symm⟩

end Classification

/-- **Exhaustive checks.** Within the limits the check classifies the transition and its property exactly, and both of
its odometers pass through every tuple of their domains once, in lexicographic order. -/
theorem system_check {transition : Program} {property : Contract} {limits : SystemLimits}
    (hinputs : property.inputs = transition.inputs) (houtputs : property.outputs = transition.outputs)
    (h : Fits transition limits) :
    (∃ check, checkSystemProperty transition property limits = .ok check ∧ Classifies transition property check) ∧
    ∀ domains, validDomains domains = true →
      Visits (stepped (Space.advance domains)) (Space.first domains) (Space.tuples domains) ∧
      Visits (stepped (advance domains)) (Space.first domains) (Space.tuples domains) ∧
      (∀ t, t ∈ Space.tuples domains ↔ admitted domains t = true) ∧ (Space.tuples domains).Nodup ∧
      (Space.tuples domains).Pairwise Space.Before := by
  refine ⟨⟨_, checkSystemProperty_eq hinputs houtputs h, ?_⟩, fun domains hvalid => ⟨(visits_both hvalid).1,
    (visits_both hvalid).2, fun t => Space.mem_tuples hvalid, Space.nodup_tuples hvalid, Space.sorted_tuples hvalid⟩⟩
  cases hfails : (Space.tuples transition.inputs).find? (fails transition) with
  | some input => exact classifies_notTotal (find?_fails.1 hfails)
  | none =>
    have htotal := find?_fails_none.1 hfails
    dsimp only
    cases hrefuted : (Space.tuples transition.inputs).find? (refuted transition property) with
    | some input => exact classifies_verdict htotal ((find?_refuted htotal).1 hrefuted)
    | none =>
      have hestablished := classifies_established htotal ((find?_refuted_none htotal).1 hrefuted)
      dsimp only
      split_ifs with hall
      · exact hestablished.1 (all_iff.1 hall)
      · exact hestablished.2 (mt all_iff.2 hall)

/-- one bit, kept -/
def keepBit : Program where
  inputs := [.bool]
  outputs := [.bool]
  nodes := [.input 0]
  roots := [0]
  validated := .inl rfl

/-- the output is the input -/
def unchanged : Contract where
  inputs := [.bool]
  outputs := [.bool]
  relation := { inputs := [.bool, .bool], outputs := [.bool], nodes := [.input 0, .input 1, .eq 0 1], roots := [2],
                validated := .inl rfl }
  shape := by decide

theorem system_check_keepBit : (∃ check, checkSystemProperty keepBit unchanged ⟨65536, 4194304⟩ = .ok check ∧
    Classifies keepBit unchanged check) :=
  (system_check rfl rfl ⟨by decide, by decide, by decide⟩).1

end SystemCheck

end ZenoFcis.Finite
