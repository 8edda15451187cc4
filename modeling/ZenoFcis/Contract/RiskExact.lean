/-
What the risk engine answers: extremes over all input sequences up to a horizon, counts of reachable states and counts
of complete tuples, and when it does not answer.
-/
import ZenoFcis.Contract.RiskRuns
import Mathlib.Data.Set.Card

namespace ZenoFcis.Contract.Risk

open Lib Lib.Except Lib.Metered

/-! ## Counting -/

section Count

variable {ι ω : Type} {judge : ι → Except Stop (Bool × ω)} {l : List ι} {c : Counts ω}

/-- what a judgement decides -/
def verdict (judge : ι → Except Stop (Bool × ω)) (x : ι) : Option Bool := (judge x).toOption.map Prod.fst

/-- counts of some judged items, with their witnesses -/
structure Tally (judge : ι → Except Stop (Bool × ω)) (l : List ι) (c : Counts ω) : Prop where
  judged : ∀ x ∈ l, ∃ r, judge x = .ok r
  yes : c.yes = l.countP fun x => verdict judge x = some true
  total : c.total = l.length
  positive : ∀ w ∈ c.positive, ∃ x ∈ l, judge x = .ok (true, w)
  negative : ∀ w ∈ c.negative, ∃ x ∈ l, judge x = .ok (false, w)
  shown : (0 < c.yes → c.positive.isSome) ∧ (0 < c.no → c.negative.isSome)

theorem Tally.empty : Tally judge [] (.empty : Counts ω) where
  judged := by simp
  yes := rfl
  total := rfl
  positive w hw := by cases hw
  negative w hw := by cases hw
  shown := ⟨fun h => absurd h (lt_irrefl 0), fun h => absurd h (lt_irrefl 0)⟩

theorem Tally.add (h : Tally judge l c) {x : ι} {b : Bool} {w : ω} (hx : judge x = .ok (b, w)) :
    Tally judge (l ++ [x]) (c.add b w) := by
  have hverdict : verdict judge x = some b := by
    rw [verdict, hx]
    rfl
  have hjudged : ∀ y ∈ l ++ [x], ∃ r, judge y = .ok r := by
    intro y hy
    rcases List.mem_append.1 hy with hold | hnew
    · exact h.judged y hold
    · rw [List.mem_singleton.1 hnew]
      exact ⟨_, hx⟩
  have hold : ∀ {b' : Bool} {w' : ω}, (∃ y ∈ l, judge y = .ok (b', w')) → ∃ y ∈ l ++ [x], judge y = .ok (b', w') :=
    fun ⟨y, hy, hj⟩ => ⟨y, List.mem_append_left _ hy, hj⟩
  have hnew : ∃ y ∈ l ++ [x], judge y = .ok (b, w) := ⟨x, List.mem_append_right _ (List.mem_singleton.2 rfl), hx⟩
  have htotal := h.total
  unfold Counts.total at htotal
  cases b with
  | true =>
    refine ⟨hjudged, ?_, ?_, ?_, fun w' hw' => hold (h.negative w' hw'), ?_, h.shown.2⟩
    · simp [Counts.add, h.yes, hverdict]
    · simp only [Counts.add, Counts.total, if_true, List.length_append, List.length_singleton]
      omega
    · intro w' hw'
      simp only [Counts.add, if_true] at hw'
      cases hpositive : c.positive with
      | some v =>
        rw [hpositive] at hw'
        exact hold (h.positive w' (hpositive ▸ hw'))
      | none =>
        rw [hpositive] at hw'
        cases hw'
        exact hnew
    · intro _
      cases hpositive : c.positive <;> simp [Counts.add, hpositive]
  | false =>
    refine ⟨hjudged, ?_, ?_, fun w' hw' => hold (h.positive w' hw'), ?_, h.shown.1, ?_⟩
    · simp [Counts.add, h.yes, hverdict]
    · simp only [Counts.add, Counts.total, Bool.false_eq_true, if_false, List.length_append, List.length_singleton]
      omega
    · intro w' hw'
      simp only [Counts.add, Bool.false_eq_true, if_false] at hw'
      cases hnegative : c.negative with
      | some v =>
        rw [hnegative] at hw'
        exact hold (h.negative w' (hnegative ▸ hw'))
      | none =>
        rw [hnegative] at hw'
        cases hw'
        exact hnew
    · intro _
      cases hnegative : c.negative <;> simp [Counts.add, hnegative]

end Count

namespace Engine

variable {e : Engine} {reward : Option (ℕ × Option ℤ)} {question : Question} {genesis : List ℤ}

/-! ## Runs by their inputs -/

/-- the run from a state on some inputs: its tuples, last state and accumulated reward -/
def follow (e : Engine) (reward : Option (ℕ × Option ℤ)) :
    List ℤ → List (List ℤ) → Except Stop (List (List ℤ) × List ℤ × ℚ)
  | state, [] => .ok ([], state, 0)
  | state, input :: inputs => do
    let (post, cost) ← (e.move reward (state ++ input)).result
    let (tuples, last, value) ← follow e reward post inputs
    .ok ((state ++ input) :: tuples, last, cost.value + value)

/-- a run is extended by one input -/
theorem follow_append (state : List ℤ) (inputs : List (List ℤ)) (input : List ℤ) :
    e.follow reward state (inputs ++ [input]) = (do
      let (tuples, last, value) ← e.follow reward state inputs
      let (post, cost) ← (e.move reward (last ++ input)).result
      .ok (tuples ++ [last ++ input], post, value + cost.value)) := by
  induction inputs generalizing state with
  | nil =>
    simp only [List.nil_append, follow, ok_bind]
    cases (e.move reward (state ++ input)).result with
    | error stop => rfl
    | ok x => simp [ok_bind, add_comm]
  | cons i inputs ih =>
    simp only [List.cons_append, follow]
    cases (e.move reward (state ++ i)).result with
    | error stop => rfl
    | ok x =>
      simp only [ok_bind, ih]
      cases e.follow reward x.1 inputs with
      | error stop => rfl
      | ok y =>
        simp only [ok_bind]
        cases (e.move reward (y.2.1 ++ input)).result with
        | error stop => rfl
        | ok z => simp [ok_bind, add_assoc]

/-- a complete input sequence of a length -/
def Inputs (e : Engine) (length : ℕ) (inputs : List (List ℤ)) : Prop := inputs.length = length ∧ ∀ i ∈ inputs, e.Input i

/-- a run has its inputs -/
theorem Run.inputs {tuples : List (List ℤ)} {state : List ℤ} {value : ℚ} (h : Run e reward genesis tuples state value) :
    ∃ inputs, e.Inputs tuples.length inputs ∧ e.follow reward genesis inputs = .ok (tuples, state, value) := by
  induction h with
  | start => exact ⟨[], ⟨rfl, by simp⟩, rfl⟩
  | @step tuples state value input post cost run complete move ih =>
    obtain ⟨inputs, ⟨hlength, hin⟩, hfollow⟩ := ih
    refine ⟨inputs ++ [input], ⟨by simp [hlength], ?_⟩, ?_⟩
    · intro i hi
      rcases List.mem_append.1 hi with hold | hnew
      · exact hin i hold
      · rw [List.mem_singleton.1 hnew]
        exact complete
    · rw [follow_append, hfollow]
      simp only [ok_bind, move]

/-- inputs that can be followed give a run -/
theorem follow_run {inputs : List (List ℤ)} (hin : ∀ i ∈ inputs, e.Input i) {tuples : List (List ℤ)} {state : List ℤ}
    {value : ℚ} (h : e.follow reward genesis inputs = .ok (tuples, state, value)) :
    Run e reward genesis tuples state value ∧ tuples.length = inputs.length := by
  induction inputs using List.reverseRecOn generalizing tuples state value with
  | nil =>
    obtain ⟨rfl, rfl, rfl⟩ : [] = tuples ∧ genesis = state ∧ 0 = value := by simpa [follow] using h
    exact ⟨.start, rfl⟩
  | append_singleton inputs input ih =>
    rw [follow_append] at h
    obtain ⟨⟨before, last, v⟩, hbefore, h⟩ := bind_eq_ok.1 h
    obtain ⟨⟨post, cost⟩, hmove, h⟩ := bind_eq_ok.1 h
    obtain ⟨rfl, rfl, rfl⟩ : before ++ [last ++ input] = tuples ∧ post = state ∧ v + cost.value = value := by
      simpa using h
    obtain ⟨hrun, hlength⟩ := ih (fun i hi => hin i (List.mem_append_left _ hi)) hbefore
    exact ⟨hrun.step (hin input (List.mem_append_right _ (List.mem_singleton.2 rfl))) hmove, by simp [hlength]⟩

theorem Layer.follows {s : Search} {n : ℕ} (h : Layer e reward genesis question n s) {inputs : List (List ℤ)}
    (hin : ∀ i ∈ inputs, e.Input i) (hlength : inputs.length ≤ n) :
    ∃ tuples state value, e.follow reward genesis inputs = .ok (tuples, state, value) := by
  induction inputs using List.reverseRecOn with
  | nil => exact ⟨[], genesis, 0, rfl⟩
  | append_singleton inputs input ih =>
    simp only [List.length_append, List.length_singleton] at hlength
    have hbefore : ∀ i ∈ inputs, e.Input i := fun i hi => hin i (List.mem_append_left _ hi)
    obtain ⟨tuples, state, value, hfollow⟩ := ih hbefore (by omega)
    obtain ⟨hrun, hsame⟩ := follow_run hbefore hfollow
    obtain ⟨⟨post, cost⟩, hmove⟩ := h.moves tuples state value input hrun (by omega)
      (hin input (List.mem_append_right _ (List.mem_singleton.2 rfl)))
    refine ⟨tuples ++ [state ++ input], post, value + cost.value, ?_⟩
    rw [follow_append, hfollow]
    simp only [ok_bind, hmove]

/-! ## Answers -/

/-- a state with a run of at most `n` inputs to it -/
def Reachable (e : Engine) (reward : Option (ℕ × Option ℤ)) (genesis : List ℤ) (n : ℕ) (state : List ℤ) : Prop :=
  ∃ k ≤ n, ∃ inputs, e.Inputs k inputs ∧ ∃ tuples value, e.follow reward genesis inputs = .ok (tuples, state, value)

/-- every input sequence up to the horizon has a run -/
def Total (e : Engine) (reward : Option (ℕ × Option ℤ)) (genesis : List ℤ) (n : ℕ) : Prop :=
  ∀ k ≤ n, ∀ inputs, e.Inputs k inputs → ∃ tuples last value, e.follow reward genesis inputs = .ok (tuples, last, value)

/-- a path is the run of some input sequence up to the horizon, with its reward -/
def Attained (e : Engine) (reward : Option (ℕ × Option ℤ)) (genesis : List ℤ) (n : ℕ) (p : Path) : Prop :=
  ∃ k ≤ n, ∃ inputs, e.Inputs k inputs ∧ ∃ last, e.follow reward genesis inputs = .ok (p.run, last, p.cost.value)

structure ExactExtremes (e : Engine) (reward : Option (ℕ × Option ℤ)) (genesis : List ℤ) (n : ℕ) (best worst : Path) :
    Prop where
  total : e.Total reward genesis n
  least : ∀ k ≤ n, ∀ inputs, e.Inputs k inputs → ∀ tuples last value,
    e.follow reward genesis inputs = .ok (tuples, last, value) → best.cost.value ≤ value
  greatest : ∀ k ≤ n, ∀ inputs, e.Inputs k inputs → ∀ tuples last value,
    e.follow reward genesis inputs = .ok (tuples, last, value) → value ≤ worst.cost.value
  best : e.Attained reward genesis n best
  worst : e.Attained reward genesis n worst

/-- the verdict of the property on a state, which is read with the first input -/
def stateVerdict (e : Engine) (property : Property) (state : List ℤ) : Option Bool :=
  property.onState (state ++ element e.commands 0)

structure ExactStates (e : Engine) (property : Property) (reward : Option (ℕ × Option ℤ)) (genesis : List ℤ) (n : ℕ)
    (c : Counts (List ℤ × List (List ℤ))) : Prop where
  total : e.Total reward genesis n
  finite : {s | e.Reachable reward genesis n s}.Finite
  judged : ∀ s, e.Reachable reward genesis n s → (e.stateVerdict property s).isSome
  yes : c.yes = {s | e.Reachable reward genesis n s ∧ e.stateVerdict property s = some true}.ncard
  all : c.total = {s | e.Reachable reward genesis n s}.ncard
  positive : ∀ w ∈ c.positive, e.stateVerdict property w.1 = some true ∧
    ∃ k ≤ n, ∃ inputs, e.Inputs k inputs ∧ ∃ value, e.follow reward genesis inputs = .ok (w.2, w.1, value)
  negative : ∀ w ∈ c.negative, e.stateVerdict property w.1 = some false ∧
    ∃ k ≤ n, ∃ inputs, e.Inputs k inputs ∧ ∃ value, e.follow reward genesis inputs = .ok (w.2, w.1, value)
  shown : (0 < c.yes → c.positive.isSome) ∧ (0 < c.no → c.negative.isSome)

section Answers

variable {n : ℕ} {s : Search}

variable {state tuple : List ℤ} {property : Property}

theorem Layer.total (h : Layer e reward genesis question n s) : e.Total reward genesis n := by
  rintro k hk inputs ⟨hlength, hin⟩
  exact h.follows hin (by omega)

/-- what a question about runs answers, without a budget -/
def Exact (e : Engine) (constants : ℕ → Option Constant) (reward : Option (ℕ × Option ℤ)) :
    Question → Answer → Prop
  | .extremes n, a => ∃ genesis best worst, (e.genesis constants).result = .ok genesis ∧ a = .extremes best worst ∧
      ExactExtremes e reward genesis n best worst
  | .states n, a => ∃ genesis property counts, (e.genesis constants).result = .ok genesis ∧
      e.predicates = some property ∧ a = .states counts ∧ ExactStates e property reward genesis n counts

end Answers

end Engine

end ZenoFcis.Contract.Risk
