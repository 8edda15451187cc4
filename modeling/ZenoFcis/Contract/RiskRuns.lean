/-
The risk engine is exact: the layers of its search are the runs of each length, one best and one worst run for every
state reached, and it stops short only where the budget ends or a run has no value.
-/
import ZenoFcis.Lib.Ends
import ZenoFcis.Contract.Risk
import Mathlib.Data.List.TakeWhile

namespace ZenoFcis.Contract.Risk

open Lib Lib.Except Lib.Metered

namespace Engine

variable {e : Engine} {reward : Option (ℕ × Option ℤ)} {question : Question} {genesis : List ℤ}

/-- a complete input -/
def Input (e : Engine) (input : List ℤ) : Prop := input ∈ Axes.tuples e.commands

/-- the runs from genesis: their tuples, last state and accumulated reward -/
inductive Run (e : Engine) (reward : Option (ℕ × Option ℤ)) (genesis : List ℤ) : List (List ℤ) → List ℤ → ℚ → Prop
  | start : Run e reward genesis [] genesis 0
  | step {tuples state value input post cost} (run : Run e reward genesis tuples state value) (complete : e.Input input)
      (move : (e.move reward (state ++ input)).result = .ok (post, cost)) :
      Run e reward genesis (tuples ++ [state ++ input]) post (value + cost.value)

/-- a tuple without a decision, or whose decision has no successor state -/
inductive Undecided (e : Engine) (tuple : List ℤ) : Stop → Prop
  | refused {r} (h : e.evaluate tuple = .refused r) : Undecided e tuple (.refused r tuple)
  | successor {d position i} (hd : e.evaluate tuple = .decision d) (hin : (position, i) ∈ e.positions.zipIdx)
      (hstate : position.source = .state) (h : e.after tuple d position i = none) : Undecided e tuple .successor

/-- a tuple that is no step of a run: undecided, or without a reward within bounds -/
inductive Stuck (e : Engine) (tuple : List ℤ) : Option (ℕ × Option ℤ) → Stop → Prop
  | undecided {reward stop} (h : Undecided e tuple stop) : Stuck e tuple reward stop
  | undefinedReward {field failure d} (hd : e.evaluate tuple = .decision d)
      (h : Engine.reward field failure d = none) : Stuck e tuple (some (field,
        failure)) (.undefinedReward tuple d.class_)
  | rewardBound {field failure d value} (hd : e.evaluate tuple = .decision d)
      (hvalue : Engine.reward field failure d = some value) (h : ¬ Fits value) :
      Stuck e tuple (some (field, failure)) .rewardBound

/-- a run of some length that gets stuck, or whose reward leaves its bounds -/
inductive Broken (e : Engine) (reward : Option (ℕ × Option ℤ)) (genesis : List ℤ) (steps : ℕ) : Stop → Prop
  | move {tuples state value input stop} (run : Run e reward genesis tuples state value)
      (within : tuples.length < steps) (complete : e.Input input)
      (stuck : Stuck e (state ++ input) reward stop) : Broken e reward genesis steps stop
  | bound {tuples state value input post cost} (run : Run e reward genesis tuples state value)
      (within : tuples.length < steps) (complete : e.Input input)
      (move : (e.move reward (state ++ input)).result = .ok (post, cost)) (large : ¬ Fits (value + cost.value)) :
      Broken e reward genesis steps .accumulatedBound

/-! ## Costs -/

variable {tuple : List ℤ} {d : Decision} {stop : Stop}

/-- a path is a run of a length to a state -/
structure Genuine (e : Engine) (reward : Option (ℕ × Option ℤ)) (genesis : List ℤ) (length : ℕ) (state : List ℤ)
    (p : Path) : Prop where
  run : Run e reward genesis p.run state p.cost.value
  length : p.run.length = length
  integer : p.cost.denominator = 1

section Extend

variable {k steps : ℕ} {state input post : List ℤ} {p : Path} {c : Rational}

end Extend

/-- what a merge stores for the state -/
structure Merged (next : Frontier) (post : List ℤ) (low high : Path) (stored : Path × Path) : Prop where
  low_from : stored.1 = low ∨ ∃ kept, next.get post = some kept ∧ stored.1 = kept.1
  high_from : stored.2 = high ∨ ∃ kept, next.get post = some kept ∧ stored.2 = kept.2
  low_le : stored.1.cost.value ≤ low.cost.value
  le_high : high.cost.value ≤ stored.2.cost.value
  improves : ∀ kept, next.get post = some kept →
    stored.1.cost.value ≤ kept.1.cost.value ∧ kept.2.cost.value ≤ stored.2.cost.value

/-- the search after it relaxed some inputs of a frontier at depth `k` -/
structure Pass (e : Engine) (reward : Option (ℕ × Option ℤ)) (genesis : List ℤ) (question : Question) (k : ℕ)
    (before : Search) (covered : List ℤ → List ℤ → Prop) (s : Search) : Prop where
  next_sound : ∀ post paths, s.next.get post = some paths →
    Genuine e reward genesis (k + 1) post paths.1 ∧ Genuine e reward genesis (k + 1) post paths.2
  next_complete : ∀ state paths input post cost, before.next.get state = some paths → covered state input →
    (e.move reward (state ++ input)).result = .ok (post, cost) → ∃ stored, s.next.get post = some stored ∧
      stored.1.cost.value ≤ paths.1.cost.value + cost.value ∧ paths.2.cost.value + cost.value ≤ stored.2.cost.value
  moves : ∀ state input, covered state input → ∃ x, (e.move reward (state ++ input)).result = .ok x
  best_from : s.best = before.best ∨ ∃ state, Genuine e reward genesis (k + 1) state s.best
  worst_from : s.worst = before.worst ∨ ∃ state, Genuine e reward genesis (k + 1) state s.worst
  best_le : s.best.cost.value ≤ before.best.cost.value
  le_worst : before.worst.cost.value ≤ s.worst.cost.value
  best_le_next : ∀ post paths, s.next.get post = some paths → s.best.cost.value ≤ paths.1.cost.value
  next_le_worst : ∀ post paths, s.next.get post = some paths → paths.2.cost.value ≤ s.worst.cost.value
  seen_from : ∀ state run, s.seen.get state = some run →
    before.seen.get state = some run ∨ ∃ path, Genuine e reward genesis (k + 1) state path ∧ run = path.run
  seen_keeps : ∀ state, (before.seen.get state).isSome → (s.seen.get state).isSome
  next_seen : (∃ n, question = .states n) → ∀ post, (s.next.get post).isSome → (s.seen.get post).isSome

section Depth

variable {k steps : ℕ} {before s : Search} {covered : List ℤ → List ℤ → Prop}

theorem Pass.start (before : Search) : Pass e reward genesis question k before (fun _ _ => False)
    { before with next := .empty } where
  next_sound post paths h := by cases h
  next_complete state paths input post cost _ h := h.elim
  moves state input h := h.elim
  best_from := Or.inl rfl
  worst_from := Or.inl rfl
  best_le := le_rfl
  le_worst := le_rfl
  best_le_next post paths h := by cases h
  next_le_worst post paths h := by cases h
  seen_from state run h := Or.inl h
  seen_keeps state h := h
  next_seen _ post h := by cases h

section

variable (h : Pass e reward genesis question k before covered s)

include h

theorem Pass.congr {covered' : List ℤ → List ℤ → Prop}
    (hcovered : ∀ state input, covered' state input → covered state input) :
    Pass e reward genesis question k before covered' s :=
  { h with
    next_complete := fun state paths input post cost hget hc => h.next_complete state paths input post cost hget
      (hcovered state input hc)
    moves := fun state input hc => h.moves state input (hcovered state input hc) }

theorem Pass.step {state input post : List ℤ} {paths : Path × Path} {cost : Rational} {low high best worst : Path}
    {stored : Path × Path} {seen : OrdMap (List ℤ) (List (List ℤ))}
    (hget : before.next.get state = some paths)
    (hmove : (e.move reward (state ++ input)).result = .ok (post, cost))
    (hlow : Genuine e reward genesis (k + 1) post low) (hlow_cost : low.cost.value = paths.1.cost.value + cost.value)
    (hhigh : Genuine e reward genesis (k + 1) post high)
    (hhigh_cost : high.cost.value = paths.2.cost.value + cost.value)
    (hseen_from : ∀ state run, seen.get state = some run →
      s.seen.get state = some run ∨ state = post ∧ run = low.run)
    (hseen_keeps : ∀ state, (s.seen.get state).isSome → (seen.get state).isSome)
    (hseen_new : (∃ n, question = .states n) → (seen.get post).isSome)
    (hbest : (best = s.best ∨ best = low) ∧ best.cost.value ≤ s.best.cost.value ∧ best.cost.value ≤ low.cost.value)
    (hworst : (worst = s.worst ∨ worst = high) ∧ s.worst.cost.value ≤ worst.cost.value ∧
      high.cost.value ≤ worst.cost.value)
    (hstored : Merged s.next post low high stored) :
    Pass e reward genesis question k before (fun st i => covered st i ∨ st = state ∧ i = input)
      ⟨s.next.insert post stored, seen, best, worst⟩ where
  next_sound post' paths' hpaths := by
    rw [OrdMap.get_insert] at hpaths
    split_ifs at hpaths with heq
    · cases hpaths
      subst heq
      constructor
      · rcases hstored.low_from with hfrom | ⟨kept, hkept, hfrom⟩
        · rw [hfrom]
          exact hlow
        · rw [hfrom]
          exact (h.next_sound _ kept hkept).1
      · rcases hstored.high_from with hfrom | ⟨kept, hkept, hfrom⟩
        · rw [hfrom]
          exact hhigh
        · rw [hfrom]
          exact (h.next_sound _ kept hkept).2
    · exact h.next_sound post' paths' hpaths
  next_complete state' paths' input' post' cost' hget' hcovered hmove' := by
    rw [OrdMap.get_insert]
    rcases hcovered with hold | ⟨rfl, rfl⟩
    · obtain ⟨kept, hkept, hkept_low, hkept_high⟩ := h.next_complete _ _ _ _ _ hget' hold hmove'
      split_ifs with heq
      · subst heq
        obtain ⟨hlow_le, hle_high⟩ := hstored.improves kept hkept
        exact ⟨stored, rfl, hlow_le.trans hkept_low, hkept_high.trans hle_high⟩
      · exact ⟨kept, hkept, hkept_low, hkept_high⟩
    · rw [hget] at hget'
      rw [hmove] at hmove'
      cases hget'
      obtain ⟨rfl, rfl⟩ := Prod.mk.inj (Except.ok.inj hmove')
      rw [if_pos rfl]
      exact ⟨stored, rfl, hlow_cost ▸ hstored.low_le, hhigh_cost ▸ hstored.le_high⟩
  moves state' input' hcovered := by
    rcases hcovered with hold | ⟨rfl, rfl⟩
    · exact h.moves state' input' hold
    · exact ⟨_, hmove⟩
  best_from := by
    rcases hbest.1 with rfl | rfl
    · exact h.best_from
    · exact Or.inr ⟨post, hlow⟩
  worst_from := by
    rcases hworst.1 with rfl | rfl
    · exact h.worst_from
    · exact Or.inr ⟨post, hhigh⟩
  best_le := hbest.2.1.trans h.best_le
  le_worst := h.le_worst.trans hworst.2.1
  best_le_next post' paths' hpaths := by
    rw [OrdMap.get_insert] at hpaths
    split_ifs at hpaths with heq
    · cases hpaths
      rcases hstored.low_from with hfrom | ⟨kept, hkept, hfrom⟩
      · rw [hfrom]
        exact hbest.2.2
      · rw [hfrom]
        exact hbest.2.1.trans (h.best_le_next _ kept hkept)
    · exact hbest.2.1.trans (h.best_le_next post' paths' hpaths)
  next_le_worst post' paths' hpaths := by
    rw [OrdMap.get_insert] at hpaths
    split_ifs at hpaths with heq
    · cases hpaths
      rcases hstored.high_from with hfrom | ⟨kept, hkept, hfrom⟩
      · rw [hfrom]
        exact hworst.2.2
      · rw [hfrom]
        exact (h.next_le_worst _ kept hkept).trans hworst.2.1
    · exact (h.next_le_worst post' paths' hpaths).trans hworst.2.1
  seen_from state' run hrun := by
    rcases hseen_from state' run hrun with hold | ⟨rfl, rfl⟩
    · exact h.seen_from state' run hold
    · exact Or.inr ⟨low, hlow, rfl⟩
  seen_keeps state' hstate := hseen_keeps state' (h.seen_keeps state' hstate)
  next_seen hstates post' hpost := by
    rw [OrdMap.get_insert] at hpost
    split_ifs at hpost with heq
    · rw [heq]
      exact hseen_new hstates
    · exact hseen_keeps post' (h.next_seen hstates post' hpost)

end

end Depth

/-! ## All depths -/

/-- the search after `k` depths -/
structure Layer (e : Engine) (reward : Option (ℕ × Option ℤ)) (genesis : List ℤ) (question : Question) (k : ℕ)
    (s : Search) : Prop where
  sound : ∀ state paths, s.next.get state = some paths →
    Genuine e reward genesis k state paths.1 ∧ Genuine e reward genesis k state paths.2
  complete : ∀ tuples state value, Run e reward genesis tuples state value → tuples.length = k →
    ∃ paths, s.next.get state = some paths ∧ paths.1.cost.value ≤ value ∧ value ≤ paths.2.cost.value
  best_sound : ∃ j ≤ k, ∃ state, Genuine e reward genesis j state s.best
  worst_sound : ∃ j ≤ k, ∃ state, Genuine e reward genesis j state s.worst
  extreme : ∀ tuples state value, Run e reward genesis tuples state value → tuples.length ≤ k →
    s.best.cost.value ≤ value ∧ value ≤ s.worst.cost.value
  seen_sound : ∀ state run, s.seen.get state = some run → ∃ value, Run e reward genesis run state value ∧ run.length ≤ k
  seen_complete : (∃ n, question = .states n) → ∀ tuples state value, Run e reward genesis tuples state value →
    tuples.length ≤ k → (s.seen.get state).isSome
  moves : ∀ tuples state value input, Run e reward genesis tuples state value → tuples.length < k → e.Input input →
    ∃ x, (e.move reward (state ++ input)).result = .ok x

section Depths

variable {k steps : ℕ} {s s' : Search}

theorem Genuine.start : Genuine e reward genesis 0 genesis .empty where
  run := by
    have hzero : Path.empty.cost.value = 0 := Rational.value_zero
    rw [hzero]
    exact .start
  length := rfl
  integer := rfl

theorem Run.nil_iff {tuples : List (List ℤ)} {state : List ℤ} {value : ℚ}
    (h : Run e reward genesis tuples state value) (hlength : tuples.length = 0) : state = genesis ∧ value = 0 := by
  cases h with
  | start => exact ⟨rfl, rfl⟩
  | step run complete move => simp at hlength

/-- the search starts with the genesis alone -/
theorem Layer.start : Layer e reward genesis question 0
    ⟨OrdMap.empty.insert genesis (.empty, .empty), OrdMap.empty.insert genesis [], .empty, .empty⟩ where
  sound state paths h := by
    rw [OrdMap.get_insert] at h
    split_ifs at h with heq
    · cases h
      subst heq
      exact ⟨Genuine.start, Genuine.start⟩
    · cases h
  complete tuples state value h hlength := by
    obtain ⟨rfl, rfl⟩ := h.nil_iff hlength
    exact ⟨_, OrdMap.get_insert_self, Rational.value_zero.le, Rational.value_zero.ge⟩
  best_sound := ⟨0, le_rfl, genesis, Genuine.start⟩
  worst_sound := ⟨0, le_rfl, genesis, Genuine.start⟩
  extreme tuples state value h hlength := by
    obtain ⟨-, rfl⟩ := h.nil_iff (Nat.le_zero.1 hlength)
    exact ⟨Rational.value_zero.le, Rational.value_zero.ge⟩
  seen_sound state run h := by
    rw [OrdMap.get_insert] at h
    split_ifs at h with heq
    · cases h
      subst heq
      exact ⟨0, .start, le_rfl⟩
    · cases h
  seen_complete _ tuples state value h hlength := by
    obtain ⟨rfl, -⟩ := h.nil_iff (Nat.le_zero.1 hlength)
    rw [OrdMap.get_insert_self]
    rfl
  moves tuples state value input _ hlength := absurd hlength (Nat.not_lt_zero _)

theorem Run.last {tuples : List (List ℤ)} {state : List ℤ} {value : ℚ} (h : Run e reward genesis tuples state value)
    (hlength : tuples.length = k + 1) : ∃ before from_ v input cost, Run e reward genesis before from_ v ∧
      before.length = k ∧ e.Input input ∧ (e.move reward (from_ ++ input)).result = .ok (state, cost) ∧
      value = v + cost.value := by
  cases h with
  | start => cases hlength
  | step run complete move =>
    refine ⟨_, _, _, _, _, run, ?_, complete, move, rfl⟩
    simpa using hlength

/-- **One depth completes a layer.** -/
theorem Layer.next (h : Layer e reward genesis question k s)
    (hpass : Pass e reward genesis question k s
      (fun state input => (s.next.get state).isSome ∧ e.Input input) s') :
    Layer e reward genesis question (k + 1) s' := by
  -- a run of length `k + 1` ends in the new frontier, between the costs kept for its state
  have hcomplete : ∀ tuples state value, Run e reward genesis tuples state value → tuples.length = k + 1 →
      ∃ paths, s'.next.get state = some paths ∧ paths.1.cost.value ≤ value ∧ value ≤ paths.2.cost.value := by
    intro tuples state value hrun hlength
    obtain ⟨before, middle, v, input, cost, hbefore, hk, hinput, hmove, rfl⟩ := hrun.last hlength
    obtain ⟨paths, hget, hlow, hhigh⟩ := h.complete before middle v hbefore hk
    obtain ⟨stored, hstored, hle, hge⟩ := hpass.next_complete middle paths input state cost hget
      ⟨by rw [hget]; rfl, hinput⟩ hmove
    exact ⟨stored, hstored, by linarith, by linarith⟩
  refine ⟨hpass.next_sound, hcomplete, ?_, ?_, ?_, ?_, ?_, ?_⟩
  · rcases hpass.best_from with heq | ⟨state, hstate⟩
    · obtain ⟨j, hj, state, hstate⟩ := h.best_sound
      exact ⟨j, Nat.le_succ_of_le hj, state, heq ▸ hstate⟩
    · exact ⟨k + 1, le_rfl, state, hstate⟩
  · rcases hpass.worst_from with heq | ⟨state, hstate⟩
    · obtain ⟨j, hj, state, hstate⟩ := h.worst_sound
      exact ⟨j, Nat.le_succ_of_le hj, state, heq ▸ hstate⟩
    · exact ⟨k + 1, le_rfl, state, hstate⟩
  · intro tuples state value hrun hlength
    rcases Nat.le_succ_iff.1 hlength with hle | heq
    · obtain ⟨hbest, hworst⟩ := h.extreme tuples state value hrun hle
      exact ⟨hpass.best_le.trans hbest, hworst.trans hpass.le_worst⟩
    · obtain ⟨paths, hget, hlow, hhigh⟩ := hcomplete tuples state value hrun heq
      exact ⟨(hpass.best_le_next state paths hget).trans hlow, hhigh.trans (hpass.next_le_worst state paths hget)⟩
  · intro state run hget
    rcases hpass.seen_from state run hget with hold | ⟨path, hpath, rfl⟩
    · obtain ⟨value, hrun, hlength⟩ := h.seen_sound state run hold
      exact ⟨value, hrun, Nat.le_succ_of_le hlength⟩
    · exact ⟨_, hpath.run, hpath.length.le⟩
  · intro hstates tuples state value hrun hlength
    rcases Nat.le_succ_iff.1 hlength with hle | heq
    · exact hpass.seen_keeps state (h.seen_complete hstates tuples state value hrun hle)
    · obtain ⟨paths, hget, -, -⟩ := hcomplete tuples state value hrun heq
      exact hpass.next_seen hstates state (by rw [hget]; rfl)
  · intro tuples state value input hrun hlength hinput
    rcases Nat.lt_succ_iff_lt_or_eq.1 hlength with hlt | heq
    · exact h.moves tuples state value input hrun hlt hinput
    · obtain ⟨paths, hget, -, -⟩ := h.complete tuples state value hrun heq
      exact hpass.moves state input ⟨by rw [hget]; rfl, hinput⟩

end Depths

end Engine

end ZenoFcis.Contract.Risk
