/-
Whole runs of the price relation. A run is a sequence of commands under arbitrary contexts, clocks, premises and work
limits; a command that is refused or fails leaves the state as it is. From any valid state:
- `reach_sound`: the state stays valid, so its rounds ascend and the committed price is the last one of the history;
- `reach_grows`: a run only appends to the history, and what it appends never goes back behind the committed price;
- `history_safety`: these and what a commit and a read require, in full.
-/
import ZenoFcis.Oracle.PriceLaws
import ZenoFcis.Oracle.PriceStates

namespace ZenoFcis.Oracle

open Lib Lib.Except Prices

/-- a command with its context and its work limits -/
structure PriceStep where
  context : PriceContext
  command : PriceCommand
  limits : Resource → ℕ

/-- the state after a command: its successor when it is accepted -/
def PriceState.next (r : FeedRules) (s : PriceState) (step : PriceStep) : PriceState :=
  match (measured step.limits (Prices.checked r step.context s step.command)).1 with
  | .ok (.ok plan) => plan.state
  | _ => s

/-- the state after a run -/
def PriceState.reach (r : FeedRules) (s : PriceState) (steps : List PriceStep) : PriceState :=
  steps.foldl (PriceState.next r) s

section Steps

variable {r : FeedRules} {s : PriceState} {step : PriceStep}

theorem checked_ok {x : PriceContext} {c : PriceCommand} {plan : PricePlan}
    (h : (Prices.checked r x s c).result = .ok (.ok plan)) : (Prices.run r x s c).result = .ok plan := by
  simp only [Prices.checked, Metered.result_bind, result_settle, Metered.result_pure, bind_eq_ok, exists_unit,
    Except.ok.injEq] at h
  obtain ⟨result, hresult, -, rfl⟩ := h
  exact outcome_eq_accept.1 hresult

/-- a step is refused or has a plan -/
theorem next_cases (r : FeedRules) (s : PriceState) (step : PriceStep) : s.next r step = s ∨
    ∃ plan, (Prices.run r step.context s step.command).result = .ok plan ∧ s.next r step = plan.state := by
  unfold PriceState.next
  cases hrun : (measured step.limits (Prices.checked r step.context s step.command)).1 with
  | error failure => exact Or.inl rfl
  | ok result =>
    cases result with
    | error reason => exact Or.inl rfl
    | ok plan => exact Or.inr ⟨plan, checked_ok (Metered.run_ok _ _ hrun), rfl⟩

/-- the later one of two states of a run -/
structure PriceState.Grows (s t : PriceState) : Prop where
  epoch : s.epoch ≤ t.epoch
  watermark : s.watermark ≤ t.watermark
  nonce : s.nonce ≤ t.nonce
  history : ∃ added, t.history = s.history ++ added ∧
    (s.history.getLast?.toList ++ added).Pairwise PriceAggregate.After

theorem PriceState.Grows.refl (s : PriceState) : s.Grows s := by
  refine ⟨le_rfl, le_rfl, le_rfl, [], (List.append_nil _).symm, ?_⟩
  cases s.history.getLast? <;> simp

instance : IsTrans PriceAggregate PriceAggregate.After where
  trans _ _ _ hab hbc := ⟨hab.1.trans hbc.1, hab.2.1.trans hbc.2.1, hab.2.2.trans hbc.2.2⟩

theorem pairwise_continue {start added more : List PriceAggregate}
    (h : (start.getLast?.toList ++ added).Pairwise PriceAggregate.After)
    (hmore : ((start ++ added).getLast?.toList ++ more).Pairwise PriceAggregate.After) :
    (start.getLast?.toList ++ (added ++ more)).Pairwise PriceAggregate.After := by
  have hlast : (start.getLast?.toList ++ added).getLast? = (start ++ added).getLast?.toList.getLast? := by
    rw [List.getLast?_append, List.getLast?_append]
    cases added.getLast? <;> cases start.getLast? <;> rfl
  rw [← List.isChain_iff_pairwise] at h hmore ⊢
  obtain ⟨-, htail, hlink⟩ := List.isChain_append.1 hmore
  rw [← List.append_assoc]
  exact List.isChain_append.2 ⟨h, htail, fun x hx => hlink x (hlast ▸ hx)⟩

theorem PriceState.Grows.trans {s t u : PriceState} (hst : s.Grows t) (htu : t.Grows u) : s.Grows u := by
  obtain ⟨added, hadded, hpairs⟩ := hst.history
  obtain ⟨more, hmore, hrest⟩ := htu.history
  refine ⟨hst.epoch.trans htu.epoch, hst.watermark.trans htu.watermark, hst.nonce.trans htu.nonce, added ++ more, ?_,
    ?_⟩
  · rw [hmore, hadded, List.append_assoc]
  · rw [hadded] at hrest
    exact pairwise_continue hpairs hrest

theorem run_grows {x : PriceContext} {c : PriceCommand} {plan : PricePlan}
    (h : (Prices.run r x s c).result = .ok plan) : s.Grows plan.state := by
  obtain ⟨hsound, -, hepoch, t, next, hevidence, hnext, hplan⟩ := run_evidence h
  have hnonce : s.nonce ≤ next := by
    rw [Unsigned.le_def]
    omega
  have hsame : (s.history.getLast?.toList ++ []).Pairwise PriceAggregate.After := by
    cases s.history.getLast? <;> simp
  rw [hplan]
  cases hevidence with
  | same | staged _ _ | quarantined target => exact ⟨hepoch, le_rfl, hnonce, [], (List.append_nil _).symm, hsame⟩
  | @committed p _ _ _ hfollows =>
    refine ⟨hepoch, le_rfl, hnonce, [p.aggregate], rfl, ?_⟩
    rw [← hsound.last]
    cases hcommitted : s.committed with
    | none => simp
    | some old => simpa using hfollows old hcommitted
  | timed seconds => exact ⟨hepoch, le_max_left _ _, hnonce, [], (List.append_nil _).symm, hsame⟩

theorem next_grows : s.Grows (s.next r step) := by
  rcases next_cases r s step with hsame | ⟨plan, hplan, hnext⟩
  · rw [hsame]
    exact .refl s
  · rw [hnext]
    exact run_grows hplan

theorem next_sound (h : s.Sound r) : (s.next r step).Sound r := by
  rcases next_cases r s step with hsame | ⟨plan, hplan, hnext⟩
  · rwa [hsame]
  · rw [hnext]
    exact (run_evidence hplan).2.1

theorem reach_sound (steps : List PriceStep) (h : s.Sound r) : (s.reach r steps).Sound r := by
  induction steps generalizing s with
  | nil => exact h
  | cons step steps ih => exact ih (next_sound h)

theorem reach_grows (steps : List PriceStep) : s.Grows (s.reach r steps) := by
  induction steps generalizing s with
  | nil => exact .refl s
  | cons step steps ih => exact next_grows.trans ih

theorem PriceState.Sound.rounds (h : s.Sound r) : s.history.Pairwise fun old a => old.round < a.round :=
  h.ascending.imp And.right

theorem next_commits (h : (s.next r step).history ≠ s.history) : ∃ p, s.pending = some p ∧
    (s.next r step).history = s.history ++ [p.aggregate] ∧
    p.published.val + (max r.clock.confirmation r.clock.disputeOpen).val ≤ step.context.clock.epoch.val ∧
    ∀ id ∈ s.quarantines, p.aggregate.names id = false := by
  rcases next_cases r s step with hsame | ⟨plan, hplan, hnext⟩
  · rw [hsame] at h
    exact absurd rfl h
  · obtain ⟨hsound, -, -, t, next, hevidence, -, hstate⟩ := run_evidence hplan
    rw [hnext, hstate] at h ⊢
    cases hevidence with
    | same => exact absurd rfl h
    | staged _ _ => exact absurd rfl h
    | @committed p hpending hmature hfree _ =>
      refine ⟨p, hpending, rfl, ?_, fun id hid => ?_⟩
      · rw [← (hsound.pending p hpending).earliest]
        exact hmature
      · simpa using List.any_eq_false.1 hfree id hid
    | timed seconds => exact absurd rfl h
    | quarantined target => exact absurd rfl h

theorem next_stages {p : Pending} (h : (s.next r step).pending = some p) (hnew : s.pending ≠ some p) :
    p.published = step.context.clock.epoch := by
  rcases next_cases r s step with hsame | ⟨plan, hplan, hnext⟩
  · rw [hsame] at h
    exact absurd h hnew
  · obtain ⟨-, -, -, t, next, hevidence, -, hstate⟩ := run_evidence hplan
    rw [hnext, hstate] at h
    cases hevidence with
    | same => exact absurd h hnew
    | staged hpublished _ => exact Option.some.inj h ▸ hpublished
    | committed _ _ _ _ => cases h
    | timed seconds => exact absurd h hnew
    | quarantined target => exact absurd h hnew

theorem checkedView_ok {p : Parameters} {caps : ExposureCaps} {clock : ClockView} {security : SecurityInputs}
    {view : PriceView} (h : (checkedView r p caps s clock security).result = .ok view) :
    s.committed = some view.aggregate ∧ (∀ id ∈ s.quarantines, view.aggregate.names id = false) ∧
      view.aggregate.numbers.oldestEpoch ≤ clock.epoch ∧ view.aggregate.numbers.medianSeconds ≤ s.watermark ∧
      clock.epoch.val - view.aggregate.numbers.oldestEpoch.val ≤ r.clock.maxAge.val ∧
      s.watermark.val - view.aggregate.numbers.medianSeconds.val ≤ r.clock.maxTimeLag.val := by
  unfold checkedView at h
  simp only [Metered.result_bind, Metered.result_lift, bind_eq_ok, exists_unit, result_arm, mapError_eq_ok,
    Metered.result_okOr_eq_ok, refuseIf_ok, not_lt, result_quarantined, mapError_ok, Except.ok.injEq, exists_eq_left',
    Bool.not_eq_true] at h
  obtain ⟨-, -, -, -, -, -, a, hcommitted, hmedian, past, -, hstale, -, hfree, capacity, -, hview⟩ := h
  have hsame : view.aggregate = a := by
    cases capacity with
    | available capacity =>
      simp only [Metered.result_bind, Metered.result_pure, ok_bind, bind_eq_ok, Except.ok.injEq] at hview
      obtain ⟨_, -, _, -, rfl⟩ := hview
      rfl
    | overCap capacity => cases hview
    | unavailable => cases hview
  subst hsame
  simp only [stale, Bool.or_eq_false_iff, decide_eq_false_iff_not, dif_pos hmedian, not_lt] at hstale
  exact ⟨hcommitted, fun id hid => by simpa using List.any_eq_false.1 hfree id hid, past.down, hmedian, hstale.1,
    hstale.2⟩

end Steps

/-- the rounds ascend strictly, and the two times never go back -/
def PriceState.Ordered (s : PriceState) : Prop := s.history.Pairwise PriceAggregate.After

/-- **History safety.** From any valid state and along any run: the state stays valid, so the rounds of the history
ascend strictly and the committed price is its last entry; the epoch, the watermark and the nonce never decrease; the
history only grows, its new entries continue the last committed one in round and in both times, and so the whole history
is ordered when it was ordered at the start; an aggregate is committed only after its publication and both delays, and
never when it is quarantined; a read gives neither a quarantined nor a stale price; and a command that is not accepted
leaves the state unchanged. -/
theorem history_safety (r : FeedRules) (s : PriceState) (steps : List PriceStep) (h : (validate r s).result = .ok ()) :
    ((s.reach r steps).Sound r ∧ (s.reach r steps).history.Pairwise (fun old a => old.round < a.round) ∧
      (s.reach r steps).committed = (s.reach r steps).history.getLast?) ∧
    s.Grows (s.reach r steps) ∧
    (s.Ordered ↔ ∀ run, (s.reach r run).Ordered) ∧
    (∀ pre step post, steps = pre ++ step :: post →
      (s.reach r pre).Grows ((s.reach r pre).next r step) ∧
      (((s.reach r pre).next r step).history ≠ (s.reach r pre).history →
        ∃ p, (s.reach r pre).pending = some p ∧
          ((s.reach r pre).next r step).history = (s.reach r pre).history ++ [p.aggregate] ∧
          p.published.val + (max r.clock.confirmation r.clock.disputeOpen).val ≤ step.context.clock.epoch.val ∧
          ∀ id ∈ (s.reach r pre).quarantines, p.aggregate.names id = false) ∧
      (∀ p, ((s.reach r pre).next r step).pending = some p → (s.reach r pre).pending ≠ some p →
        p.published = step.context.clock.epoch) ∧
      ((¬ ∃ plan, (measured step.limits (Prices.checked r step.context (s.reach r pre) step.command)).1 =
        .ok (.ok plan)) → (s.reach r pre).next r step = s.reach r pre)) ∧
    ∀ p caps clock security view, (checkedView r p caps (s.reach r steps) clock security).result = .ok view →
      (s.reach r steps).committed = some view.aggregate ∧
      (∀ id ∈ (s.reach r steps).quarantines, view.aggregate.names id = false) ∧
      view.aggregate.numbers.oldestEpoch ≤ clock.epoch ∧
      view.aggregate.numbers.medianSeconds ≤ (s.reach r steps).watermark ∧
      clock.epoch.val - view.aggregate.numbers.oldestEpoch.val ≤ r.clock.maxAge.val ∧
      (s.reach r steps).watermark.val - view.aggregate.numbers.medianSeconds.val ≤ r.clock.maxTimeLag.val := by
  have hsound := validate_sound.1 h
  have hreach := reach_sound steps hsound
  refine ⟨⟨hreach, hreach.rounds, hreach.last⟩, reach_grows steps, ⟨fun hordered run => ?_, fun hrun => hrun []⟩,
    fun pre step post _ => ⟨next_grows, next_commits, fun p hp hnew => next_stages hp hnew, fun hrefused => ?_⟩,
    fun p caps clock security view hview => checkedView_ok hview⟩
  · obtain ⟨added, hadded, hpairs⟩ := (reach_grows run : s.Grows (s.reach r run)).history
    have hlast : s.history.getLast? = (s.history.getLast?.toList).getLast? := by cases s.history.getLast? <;> rfl
    unfold PriceState.Ordered at hordered ⊢
    rw [← List.isChain_iff_pairwise] at hordered hpairs ⊢
    obtain ⟨-, htail, hlink⟩ := List.isChain_append.1 hpairs
    rw [hadded]
    exact List.isChain_append.2 ⟨hordered, htail, fun x hx => hlink x (hlast ▸ hx)⟩
  · unfold PriceState.next
    cases hrun : (measured step.limits (Prices.checked r step.context (s.reach r pre) step.command)).1 with
    | error failure => rfl
    | ok result =>
      cases result with
      | error reason => rfl
      | ok plan => exact absurd ⟨plan, hrun⟩ hrefused

/-- the run that commits the buffered price -/
def priceCommit : List PriceStep := [⟨priceContext (quorumHash 1), .commit, fun _ => 1000000⟩]

theorem history_safety_commit : (priceState.reach quorumRules priceCommit).history.length = 2 ∧
    (priceState.reach quorumRules priceCommit).Sound quorumRules ∧
      priceState.Grows (priceState.reach quorumRules priceCommit) := by
  have h := history_safety quorumRules priceState priceCommit (by decide +kernel)
  exact ⟨by decide +kernel, h.1.1, h.2.1⟩

/-- two committed prices of ascending rounds, the later one from older observations -/
def backwardState : PriceState where
  committed := some (priceAggregate 42 (.of 2) (.of 4) (.of 60))
  pending := none
  history := [priceAggregate 41 (.of 1) (.of 5) (.of 60),
    priceAggregate 42 (.of 2) (.of 4) (.of 60)]
  quarantines := []
  watermark := .of 60
  epoch := .of 6
  nonce := .of 3

/-- validation does not order the times inside the starting history -/
theorem history_unordered : ¬ ∀ r s steps, (validate r s).result = .ok () → (s.reach r steps).history.Pairwise
    fun old a => old.numbers.oldestEpoch ≤ a.numbers.oldestEpoch := by
  intro h
  have hpairs := h quorumRules backwardState [] (by decide +kernel)
  exact absurd hpairs (by decide)

end ZenoFcis.Oracle
