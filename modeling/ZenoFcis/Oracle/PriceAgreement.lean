/-
The price producer against its law reference. Over a valid profile and a valid state:
- `change_eq`: a command stops at exactly the first fact that the law finds, or leads to the successor of the law;
- `run_eq`: so does the whole producer, apart from premises that are no evidence and successors that are not storable;
- `price_agreement`: the agreement in full, with the law check adding no failure of its own.
-/
import ZenoFcis.Oracle.PriceLaws
import ZenoFcis.Oracle.PriceStates
import ZenoFcis.Oracle.QuorumExact

namespace ZenoFcis.Oracle

open Lib Lib.Except Prices PriceLaws
open Lib.Metered (result_bind result_lift result_okOr_some result_pure)

/-! ## Deciding facts in order -/

section Decided

variable {α β : Type}

/-- stop at a fact that was found, or go on -/
def stopAt (found : Option Reason) (rest : Except Stop α) : Except Stop α := match found with
  | some reason => .error (.refuse reason)
  | none => rest

theorem stopAt_nil (f : Facts) (rest : Except Stop α) : stopAt ([].find? f) rest = rest := rfl

/-- reasons are checked in order -/
theorem stopAt_cons (f : Facts) (reason : Reason) (l : List Reason) (rest : Except Stop α) :
    stopAt ((reason :: l).find? f) rest =
      (ensure (f reason = false) (.refuse reason) >>= fun _ => stopAt (l.find? f) rest) := by
  rw [List.find?_cons]
  unfold ensure
  cases f reason <;> rfl

theorem stopAt_bind (found : Option Reason) (x : Except Stop α) (f : α → Except Stop β) :
    (stopAt found x >>= f) = stopAt found (x >>= f) := by
  cases found <;> rfl

theorem ensure_bind_congr {ε : Type} {p q : Prop} [Decidable p] [Decidable q] {e : ε} {f g : Unit → Except ε α}
    (h : p ↔ q) (hf : p → f () = g ()) : (ensure p e >>= f) = (ensure q e >>= g) := by
  unfold ensure
  by_cases hp : p
  · rw [if_pos hp, if_pos (h.1 hp)]
    exact hf hp
  · rw [if_neg hp, if_neg (fun hq => hp (h.2 hq))]
    rfl

theorem ensure_stop {ε : Type} {p : Prop} [Decidable p] {e : ε} {f : Unit → Except ε α} (h : ¬ p) :
    (ensure p e >>= f) = .error e := by
  rw [ensure, if_neg h]
  rfl

theorem notFuture_bind_congr {oldest epoch : U64} {q : Prop} [Decidable q] {f : PLift (oldest ≤ epoch) → Except Stop α}
    {g : Unit → Except Stop α} (h : oldest ≤ epoch ↔ q) (hf : ∀ past, f past = g ()) :
    ((notFuture oldest epoch).result >>= f) = (ensure q (.refuse .futureObservation) >>= g) := by
  unfold notFuture ensure
  by_cases hpast : oldest ≤ epoch
  · rw [dif_pos hpast, if_pos (h.1 hpast)]
    exact hf ⟨hpast⟩
  · rw [dif_neg hpast, if_neg (fun hq => hpast (h.2 hq))]
    rfl

end Decided

/-! ## Results of the parts -/

section Parts

variable {r : FeedRules} {s : PriceState} {a : PriceAggregate} {c : PriceCommand} {clock : ClockView} {nonce : U64}

theorem stale_eq {c : ClockParameters} {epoch watermark : U64} (h : a.numbers.oldestEpoch ≤ epoch) :
    stale c a epoch watermark h = (decide (c.maxAge < epoch.sub a.numbers.oldestEpoch) ||
      (decide (a.numbers.medianSeconds ≤ watermark) &&
        decide (c.maxTimeLag < watermark.sub a.numbers.medianSeconds))) := by
  unfold stale minus
  by_cases hw : a.numbers.medianSeconds ≤ watermark <;> simp [hw]

theorem not_stale_iff (h : a.numbers.oldestEpoch ≤ clock.epoch) :
    (¬ (decide (r.clock.maxAge < clock.epoch.sub a.numbers.oldestEpoch) ||
      (decide (a.numbers.medianSeconds ≤ s.watermark) &&
        decide (r.clock.maxTimeLag < s.watermark.sub a.numbers.medianSeconds))) = true) ↔
      staleFact r s clock a = false := by
  unfold staleFact
  rw [decide_eq_true h, Bool.true_and, Bool.not_eq_true]

theorem binding_iff : binding r a = true ↔
    (decide (a.feed ≠ r.feed) || decide (a.profile ≠ r.profile) || decide (a.query ≠ r.query)) = false := by
  simp [binding, and_assoc]

theorem follows_iff (old : PriceAggregate) : follows old a = true ↔ backwards old a = false := by
  simp [follows, backwards, and_assoc]

theorem all_follows_iff (o : Option PriceAggregate) :
    o.all (follows · a) = true ↔ o.any (backwards · a) = false := by
  cases o with
  | none => simp
  | some old => simpa using follows_iff old

theorem result_firstFact (f : Facts) (l : List Reason) : (firstFact f l).result = .ok (l.find? f) := by
  induction l with
  | nil => rfl
  | cons reason l ih =>
    simp only [firstFact, result_bind, result_step, ok_bind, Metered.result_ite, result_pure, ih,
      List.find?_cons]
    cases f reason <;> rfl

theorem result_priceReason : (priceReason r s nonce c clock).result = .ok (facts r s nonce c clock).first := by
  unfold priceReason
  by_cases htarget : (target s c).isSome = true
  · simp only [htarget, if_true, result_bind, result_visitAll, ok_bind, result_firstFact, Facts.first]
  · simp only [htarget, if_false, Bool.false_eq_true, result_firstFact, Facts.first]

end Parts

/-! ## One command -/

section Change

variable {r : FeedRules} {s : PriceState} {c : PriceCommand} {clock : ClockView} {nonce next : U64}

attribute [local simp] facts target commandFacts aggregateFacts

/-- the reasons that are decided after the clock, in their order -/
def commandReasons : List Reason :=
  [.unknownReference, .alreadyExists, .wrongPhase, .bindingMismatch, .futureObservation, .staleObservation,
    .excessUncertainty, .bufferNotMature, .disputedOrFrozen, .nonMonotoneCommit, .full]

/-- a command with the retention check behind it -/
def changed (r : FeedRules) (clock : ClockView) (s : PriceState) (c : PriceCommand) (next : U64) :
    Except Stop PriceState := do
  let out ← (change r clock s c).result
  ensure (¬ oversized r { out with epoch := clock.epoch, nonce := next }) (.refuse .full)
  return { out with epoch := clock.epoch, nonce := next }

theorem changed_advance (hsize : ¬ oversized r s) (hnext : s.nonce.checkedSucc = some next) :
    changed r clock s .advanceEpoch next = stopAt (commandReasons.find? (facts r s nonce .advanceEpoch clock))
      ((successor r clock s .advanceEpoch).result.mapError .fail) := by
  have hout : ¬ oversized r { s with epoch := clock.epoch, nonce := next } := hsize
  have hfacts : commandReasons.find? (facts r s nonce .advanceEpoch clock) = none := rfl
  rw [hfacts, changed, change, result_pure, ok_bind, ensure_bind hout, successor, hnext]
  rfl

theorem changed_syncTime {q : TimeQuorum} (hsize : ¬ oversized r s) (hnext : s.nonce.checkedSucc = some next) :
    changed r clock s (.syncTime q) next = stopAt (commandReasons.find? (facts r s nonce (.syncTime q) clock))
      ((successor r clock s (.syncTime q)).result.mapError .fail) := by
  have hfind : commandReasons.find? (facts r s nonce (.syncTime q) clock) =
    [.bindingMismatch, .futureObservation, .staleObservation].find? (facts r s nonce (.syncTime q) clock) := by
    simp [commandReasons, List.find?_cons]
  rw [hfind, stopAt_cons, stopAt_cons, stopAt_cons, stopAt_nil, changed, change]
  simp only [result_bind, refuseIf_eq, result_pure, bind_assoc, ok_bind]
  refine ensure_bind_congr (by simp) fun _ => ?_
  refine notFuture_bind_congr (by simp) fun past => ?_
  refine ensure_bind_congr (by simp [past.down, minus]) fun _ => ?_
  have hout : ¬ oversized r { s with
    watermark := max s.watermark q.seconds, epoch := clock.epoch, nonce := next } := hsize
  rw [ensure_bind hout, successor, hnext]
  rfl

theorem changed_quarantine {id : Hash} (hsize : ¬ oversized r s) (hnext : s.nonce.checkedSucc = some next) :
    changed r clock s (.quarantine id) next = stopAt (commandReasons.find? (facts r s nonce (.quarantine id) clock))
      ((successor r clock s (.quarantine id)).result.mapError .fail) := by
  have hfind : commandReasons.find? (facts r s nonce (.quarantine id) clock) =
    [.unknownReference, .alreadyExists, .full].find? (facts r s nonce (.quarantine id) clock) := by
    simp [commandReasons, List.find?_cons]
  rw [hfind, stopAt_cons, stopAt_cons, stopAt_cons, stopAt_nil, changed, change]
  simp only [result_bind, refuseIf_eq, result_pure, bind_assoc, ok_bind]
  refine ensure_bind_congr (by simp) fun _ => ?_
  refine ensure_bind_congr (by simp) fun hnew => ?_
  refine ensure_bind_congr ?_ fun _ => ?_
  · have hhistory : ¬ r.bounds.maxEntries.val < s.history.length := fun h => hsize (Or.inl h)
    simp [hnew, oversized, hhistory]
  · rw [successor, hnext]
    rfl

theorem changed_commit (hsize : ¬ oversized r s) (hnext : s.nonce.checkedSucc = some next)
    (hbound : ∀ p ∈ s.pending, binding r p.aggregate = true) :
    changed r clock s .commit next = stopAt (commandReasons.find? (facts r s nonce .commit clock))
      ((successor r clock s .commit).result.mapError .fail) := by
  cases hpending : s.pending with
  | none =>
    have hphase : facts r s nonce .commit clock .wrongPhase = true := by
      simp [hpending]
    have hfind : commandReasons.find? (facts r s nonce .commit clock) = some .wrongPhase := by
      simp [commandReasons, hpending]
    rw [hfind, changed, change, hpending]
    rfl
  | some pending =>
    have hbinding := binding_iff.1 (hbound pending hpending)
    have hfind : commandReasons.find? (facts r s nonce .commit clock) =
        [.futureObservation, .staleObservation, .excessUncertainty, .bufferNotMature, .disputedOrFrozen,
          .nonMonotoneCommit, .full].find? (facts r s nonce .commit clock) := by
      refine find_among (by decide) fun reason hreason hother => ?_
      cases reason <;> first
        | exact absurd (by decide) hother
        | exact absurd hreason (by decide)
        | (simp [hpending]; done)
        | simpa [hpending] using hbinding
    rw [hfind]
    simp only [stopAt_cons, stopAt_nil, changed, change, hpending, result_bind, result_okOr_some,
      refuseIf_eq, result_pure, bind_assoc, ok_bind, result_arm, result_quarantined, mapError_ok]
    refine notFuture_bind_congr (by simp [hpending]) fun past => ?_
    refine ensure_bind_congr ?_ fun _ => ?_
    · rw [stale_eq, not_stale_iff past.down]
      simp [hpending]
    refine ensure_bind_congr (by simp [hpending]) fun _ => ?_
    refine ensure_bind_congr (by simp [hpending]) fun _ => ?_
    refine ensure_bind_congr (by simp [hpending]) fun _ => ?_
    refine ensure_bind_congr ?_ fun _ => ?_
    · rw [not_not, all_follows_iff]
      simp [hpending]
    refine ensure_bind_congr ?_ fun _ => ?_
    · have hquarantines : ¬ r.bounds.maxEntries.val < s.quarantines.length := fun h => hsize (Or.inr h)
      simp [hpending, oversized, hquarantines]
    · rw [successor, hnext, hpending]
      rfl

theorem changed_stage {a : PriceAggregate} (hsize : ¬ oversized r s) (hnext : s.nonce.checkedSucc = some next) :
    changed r clock s (.stage a) next = stopAt (commandReasons.find? (facts r s nonce (.stage a) clock))
      ((successor r clock s (.stage a)).result.mapError .fail) := by
  have hfind : commandReasons.find? (facts r s nonce (.stage a) clock) =
      [.bindingMismatch, .futureObservation, .staleObservation, .excessUncertainty, .disputedOrFrozen,
        .nonMonotoneCommit].find? (facts r s nonce (.stage a) clock) := by
    refine find_among (by decide) fun reason hreason hother => ?_
    cases reason <;> first
      | exact absurd (by decide) hother
      | exact absurd hreason (by decide)
      | simp
  rw [hfind]
  simp only [stopAt_cons, stopAt_nil, changed, change, result_bind, refuseIf_eq, result_pure,
    bind_assoc, ok_bind, result_arm, result_quarantined, mapError_ok]
  refine ensure_bind_congr ?_ fun _ => ?_
  · rw [not_not, binding_iff]
    simp
  refine notFuture_bind_congr (by simp) fun past => ?_
  refine ensure_bind_congr ?_ fun _ => ?_
  · rw [stale_eq, not_stale_iff past.down]
    simp
  refine ensure_bind_congr (by simp) fun _ => ?_
  refine ensure_bind_congr (by simp) fun _ => ?_
  refine ensure_bind_congr ?_ fun _ => ?_
  · rw [not_not, monotone, Bool.and_eq_true, all_follows_iff]
    cases hpending : s.pending <;> simp [hpending]
  · have hout (p : Option Pending) :
        ¬ oversized r { s with pending := p, epoch := clock.epoch, nonce := next } := hsize
    rw [successor, hnext, max_comm r.clock.disputeOpen]
    cases clock.epoch.checkedAdd r.clock.disputeOpen with
    | none => rfl
    | some disputeUntil =>
      cases clock.epoch.checkedAdd (max r.clock.confirmation r.clock.disputeOpen) with
      | none => rfl
      | some earliest =>
        simp only [result_okOr_some, ok_bind, ensure_bind (hout _)]
        rfl

theorem change_eq (c : PriceCommand) (hsize : ¬ oversized r s) (hnext : s.nonce.checkedSucc = some next)
    (hbound : ∀ p ∈ s.pending, binding r p.aggregate = true) :
    changed r clock s c next = stopAt (commandReasons.find? (facts r s nonce c clock))
      ((successor r clock s c).result.mapError .fail) := by
  cases c with
  | stage a => exact changed_stage hsize hnext
  | commit => exact changed_commit hsize hnext hbound
  | syncTime q => exact changed_syncTime hsize hnext
  | quarantine id => exact changed_quarantine hsize hnext
  | advanceEpoch => exact changed_advance hsize hnext

end Change

/-! ## The producer -/

/-- a valid profile and a valid state that fits its frame -/
structure Valid (r : FeedRules) (p : Parameters) (s : PriceState) : Prop where
  rules : r.validate = .ok ()
  parameters : p.validate = .ok ()
  clock : p.clock = some r.clock
  state : (validate r s).result = .ok ()
  framed : ∃ before, (frame r s).result = .ok before

/-- premises of another backend or without finality -/
def unproven (r : FeedRules) (clock : ClockView) : Prop :=
  clock.backend ≠ r.clock.backend ∨ clock.finalityRoot = .zero

instance (r : FeedRules) (clock : ClockView) : Decidable (unproven r clock) := by
  unfold unproven
  infer_instance

section Run

variable {r : FeedRules} {x : PriceContext} {s : PriceState} {c : PriceCommand}

/-- the plan for a successor: it has to be storable -/
def planned (r : FeedRules) (status : CapacityStatus) (out : PriceState) : Except Stop PricePlan := do
  (store r out).result.mapError .fail
  return ⟨out, status⟩

/-- the outcome that the law determines -/
def lawOutcome (r : FeedRules) (x : PriceContext) (s : PriceState) (c : PriceCommand) (status : CapacityStatus) :
    Except Stop PricePlan := do
  ensure (x.nonce = s.nonce) (.refuse .replay)
  ensure (s.nonce ≠ .max) (.refuse .counterExhausted)
  ensure (¬ unproven r x.clock) (.fail .invalidEvidence)
  stopAt (facts r s x.nonce c x.clock).first
    ((successor r x.clock s c).result.mapError .fail >>= planned r status)

theorem Valid.size (h : Valid r x.parameters s) : ¬ oversized r s := by
  have hstate := h.state
  unfold validate at hstate
  simp only [result_bind, bind_eq_ok, exists_unit, failIf_ok] at hstate
  exact hstate.1

theorem Valid.bound (h : Valid r x.parameters s) : ∀ p ∈ s.pending, binding r p.aggregate = true := by
  intro p hp
  have hstate := h.state
  unfold validate at hstate
  simp only [result_bind, bind_eq_ok, exists_unit, failIf_ok, Option.mem_def.1 hp] at hstate
  obtain ⟨-, _, -, -, -, -, hpending⟩ := hstate
  unfold validatePending at hpending
  simp only [result_bind, bind_eq_ok, exists_unit, failIf_ok, not_not] at hpending
  exact hpending.1

theorem first_facts (hnonce : x.nonce = s.nonce) (hmax : s.nonce ≠ .max) :
    (facts r s x.nonce c x.clock).first =
      if x.clock.epoch < s.epoch then some .badClockOrSync
      else commandReasons.find? (facts r s x.nonce c x.clock) := by
  have hfirst : (facts r s x.nonce c x.clock).first =
      (.badClockOrSync :: commandReasons).find? (facts r s x.nonce c x.clock) := by
    refine find_among (by decide) fun reason _ hother => ?_
    cases reason <;> first
      | exact absurd (by decide) hother
      | simp [facts, hnonce, hmax, commandFacts, aggregateFacts]
  rw [hfirst, List.find?_cons]
  by_cases hepoch : x.clock.epoch < s.epoch <;> simp [facts, hepoch]

theorem Valid.scanned (h : Valid r x.parameters s) : ∃ rows,
    checkedAdd usizeMax s.history.length s.quarantines.length Failure.arithmetic = .ok rows ∧
      (reserveScans rows).result = .ok () := by
  have hstate := h.state
  unfold validate at hstate
  simp only [result_bind, result_lift, bind_eq_ok, exists_unit] at hstate
  obtain ⟨-, rows, hrows, hscans, -⟩ := hstate
  exact ⟨rows, hrows, hscans⟩

theorem Valid.charged (h : Valid r x.parameters s) : ∃ before size,
    value s = .ok before ∧ (frame r s).result = .ok before ∧ (Wire.charge before).result = .ok size := by
  obtain ⟨before, hbefore⟩ := h.framed
  have hframe := hbefore
  unfold frame at hframe
  simp only [result_bind, result_lift, result_pure, bind_eq_ok] at hframe
  obtain ⟨projected, hvalue, size, hcharge, _, -, _, -, hsame⟩ := hframe
  obtain rfl := Except.ok.inj hsame
  exact ⟨projected, size, hvalue, hbefore, hcharge⟩

variable {d : DisputeParameters} {e : EconomicParameters} {status : CapacityStatus}

/-- **Run.** The producer has the outcome that the law determines. -/
theorem run_eq (h : Valid r x.parameters s)
    (hbound : x.parameters.Bound r.clock d e) :
    (Prices.run r x s c).result = lawOutcome r x s c (exactStatus x.caps x.security d e) := by
  obtain ⟨before, size, -, hbefore, hcharge⟩ := h.charged
  have hclock : ¬ x.parameters.clock ≠ some r.clock := not_not.2 h.clock
  unfold Prices.run lawOutcome
  simp only [result_bind, result_arm, result_lift, h.rules, h.parameters, failIf_eq, ensure_bind hclock,
    h.state, hbefore, hcharge, status_exact hbound, mapError_ok, ok_bind, result_step, refuseIf_eq]
  refine ensure_bind_congr not_not fun hnonce => ?_
  by_cases hmax : s.nonce = .max
  · rw [Unsigned.checkedSucc_eq_none.2 hmax, Metered.result_okOr_none, error_bind, ensure_stop (not_not.2 hmax)]
  · obtain ⟨next, hnext⟩ := Option.ne_none_iff_exists'.1 (mt Unsigned.checkedSucc_eq_none.1 hmax)
    rw [hnext, ensure_bind hmax, result_okOr_some, ok_bind]
    refine ensure_bind_congr Iff.rfl fun _ => ?_
    rw [first_facts (not_not.1 hnonce) hmax]
    by_cases hepoch : x.clock.epoch < s.epoch
    · rw [ensure_stop (not_not.2 hepoch), if_pos hepoch, stopAt]
    · rw [ensure_bind hepoch, if_neg hepoch, ← stopAt_bind, ← change_eq c h.size hnext h.bound, changed]
      simp only [bind_assoc, pure_eq, ok_bind, planned, result_pure]

/-! ## The law check -/

theorem planned_ne_refuse {reason : Reason} :
    ((successor r x.clock s c).result.mapError .fail >>= planned r status) ≠ .error (.refuse reason) := by
  intro h
  rcases bind_eq_error.1 h with hsuccessor | ⟨out, -, hplan⟩
  · cases hresult : (successor r x.clock s c).result with
    | error e | ok out =>
      rw [hresult] at hsuccessor
      cases hsuccessor
  · rcases bind_eq_error.1 hplan with hstore | ⟨_, -, hreturn⟩
    · cases hresult : (store r out).result with
      | error e | ok u =>
        rw [hresult] at hstore
        cases hstore
    · cases hreturn

theorem stored_parts {out : PriceState} (h : (store r out).result = .ok ()) : ∃ post size,
    value out = .ok post ∧ (Wire.charge post).result = .ok size ∧ ¬ oversized r out := by
  unfold store validate at h
  simp only [result_bind, result_lift, bind_eq_ok, exists_unit, failIf_ok] at h
  obtain ⟨post, hpost, size, hcharge, _, -, _, -, -, hsize, -⟩ := h
  exact ⟨post, size, hpost, hcharge, hsize⟩

theorem first_replay (hnonce : x.nonce ≠ s.nonce) : (facts r s x.nonce c x.clock).first = some .replay := by
  simp [Facts.first, reasons, facts, hnonce, commandFacts, aggregateFacts]

theorem first_exhausted (hnonce : x.nonce = s.nonce) (hmax : s.nonce = .max) :
    (facts r s x.nonce c x.clock).first = some .counterExhausted := by
  simp [Facts.first, reasons, facts, hnonce, hmax, commandFacts, aggregateFacts]

theorem lawOutcome_refuse {reason : Reason}
    (h : lawOutcome r x s c status = .error (.refuse reason)) :
    (facts r s x.nonce c x.clock).first = some reason := by
  unfold lawOutcome at h
  by_cases hnonce : x.nonce = s.nonce
  · by_cases hmax : s.nonce = .max
    · rw [ensure_bind hnonce, ensure_stop (not_not.2 hmax)] at h
      obtain rfl := Stop.refuse.inj (Except.error.inj h)
      exact first_exhausted hnonce hmax
    · rw [ensure_bind hnonce, ensure_bind hmax] at h
      by_cases hproven : ¬ unproven r x.clock
      · rw [ensure_bind hproven] at h
        cases hfirst : (facts r s x.nonce c x.clock).first with
        | some found =>
          rw [hfirst] at h
          rw [Stop.refuse.inj (Except.error.inj h)]
        | none =>
          rw [hfirst] at h
          exact absurd h planned_ne_refuse
      · rw [ensure_stop hproven] at h
        cases h
  · rw [ensure_stop hnonce] at h
    obtain rfl := Stop.refuse.inj (Except.error.inj h)
    exact first_replay hnonce

theorem lawOutcome_accept {plan : PricePlan} (h : lawOutcome r x s c status = .ok plan) :
    (facts r s x.nonce c x.clock).first = none ∧ (successor r x.clock s c).result = .ok plan.state ∧
      (store r plan.state).result = .ok () ∧ plan.status = status := by
  unfold lawOutcome at h
  simp only [bind_eq_ok, exists_unit, ensure_eq_ok] at h
  obtain ⟨-, -, -, h⟩ := h
  cases hfirst : (facts r s x.nonce c x.clock).first with
  | some reason =>
    rw [hfirst] at h
    cases h
  | none =>
    rw [hfirst, stopAt, bind_eq_ok] at h
    obtain ⟨out, hout, hplan⟩ := h
    unfold planned at hplan
    simp only [bind_eq_ok, exists_unit, mapError_eq_ok, pure_eq, Except.ok.injEq] at hplan
    obtain ⟨hstore, rfl⟩ := hplan
    exact ⟨rfl, mapError_eq_ok.1 hout, hstore, rfl⟩

/-- **Law check.** The law accepts every result of the producer. -/
theorem price_accepts {result : Except Reason PricePlan}
    (h : Valid r x.parameters s) (hbound : x.parameters.Bound r.clock d e)
    (hrun : outcome (Prices.run r x s c).result = .ok result) : (price r x s c result).result = .ok () := by
  obtain ⟨rows, hrows, hscans⟩ := h.scanned
  obtain ⟨before, size, hvalue, -, hcharge⟩ := h.charged
  rw [run_eq h hbound] at hrun
  unfold price
  cases hlaw : lawOutcome r x s c (exactStatus x.caps x.security d e) with
  | error stop =>
    rw [hlaw] at hrun
    cases stop with
    | fail failure => cases hrun
    | refuse reason =>
      cases hrun
      have hagree : ¬ refusal (.error reason) ≠ (facts r s x.nonce c x.clock).first :=
        not_not.2 (lawOutcome_refuse hlaw).symm
      simp only [result_bind, failIf_eq, ensure_bind h.size, result_lift, hrows, hscans, ok_bind,
        result_priceReason, result_pure, ensure_bind hagree]
  | ok plan =>
    rw [hlaw] at hrun
    cases hrun
    obtain ⟨hfirst, hsuccessor, hstore, hstatus⟩ := lawOutcome_accept hlaw
    obtain ⟨post, posted, hpost, hposted, hsize⟩ := stored_parts hstore
    have hlawful := (security_law_iff hbound x.caps x.security plan.status).2 hstatus
    have hagree : ¬ refusal (.ok plan) ≠ (facts r s x.nonce c x.clock).first := not_not.2 hfirst.symm
    simp only [result_bind, failIf_eq, ensure_bind h.size, ensure_bind hsize, result_lift, hrows,
      hscans,
      ok_bind, result_priceReason, ensure_bind hagree, acceptedLaw, hvalue, hcharge, hpost, hposted, hsuccessor,
      result_step, hlawful]
    exact ensure_bind (not_not.2 rfl) _

theorem successor_sound_iff {out : PriceState} (h : Valid r x.parameters s)
    (hfirst : (facts r s x.nonce c x.clock).first = none) (hout : (successor r x.clock s c).result = .ok out) :
    (validate r out).result = .ok () ↔
      out.history.length + out.quarantines.length + 4 < 2 ^ 31 ∧ (out.history.map PriceAggregate.id).Nodup := by
  have hfalse := List.find?_eq_none.1 hfirst
  have hepoch : ¬ x.clock.epoch < s.epoch := by simpa [facts] using hfalse .badClockOrSync (by decide)
  have hmax : s.nonce ≠ .max := by simpa [facts] using hfalse .counterExhausted (by decide)
  obtain ⟨next, hnext⟩ := Option.ne_none_iff_exists'.1 (mt Unsigned.checkedSucc_eq_none.1 hmax)
  have hnone : commandReasons.find? (facts r s x.nonce c x.clock) = none :=
    List.find?_eq_none.2 fun reason hreason => hfalse reason (by revert reason; decide)
  have hchanged : changed r x.clock s c next = .ok out := by
    rw [change_eq c h.size hnext h.bound, hnone, stopAt, hout]
    rfl
  unfold changed at hchanged
  simp only [bind_eq_ok, exists_unit, ensure_eq_ok, pure_eq, Except.ok.injEq] at hchanged
  obtain ⟨t, ht, hsize, rfl⟩ := hchanged
  rw [validate_sound]
  exact (change_ok ht).sound_iff (validate_sound.1 h.state) (not_lt.1 hepoch) hsize

theorem lawOutcome_fail {failure : Failure} :
    lawOutcome r x s c status = .error (.fail failure) ↔
      (unproven r x.clock ∧ (facts r s x.nonce c x.clock).first ≠ some .replay ∧
        (facts r s x.nonce c x.clock).first ≠ some .counterExhausted ∧ failure = .invalidEvidence) ∨
      (¬ unproven r x.clock ∧ (facts r s x.nonce c x.clock).first = none ∧
        ((successor r x.clock s c).result = .error failure ∨
          ∃ out, (successor r x.clock s c).result = .ok out ∧ (store r out).result = .error failure)) := by
  have hfact (reason : Reason) (h : facts r s x.nonce c x.clock reason = false) :
      (facts r s x.nonce c x.clock).first ≠ some reason := by
    intro hfound
    rw [List.find?_some hfound] at h
    cases h
  unfold lawOutcome
  by_cases hnonce : x.nonce = s.nonce
  · by_cases hmax : s.nonce = .max
    · rw [ensure_bind hnonce, ensure_stop (not_not.2 hmax), first_exhausted hnonce hmax]
      simp
    · rw [ensure_bind hnonce, ensure_bind hmax]
      have hreplay := hfact .replay (by simp [facts, hnonce])
      have hexhausted := hfact .counterExhausted (by simp [facts, hmax])
      by_cases hproven : unproven r x.clock
      · rw [ensure_stop (not_not.2 hproven)]
        simp [hproven, hreplay, hexhausted, eq_comm]
      · rw [ensure_bind hproven]
        cases hfirst : (facts r s x.nonce c x.clock).first with
        | some found => simp [stopAt, hproven]
        | none =>
          cases hsuccessor : (successor r x.clock s c).result with
          | error e => simp [stopAt, hproven, mapError_error, error_bind]
          | ok out =>
            cases hstore : (store r out).result with
            | error e => simp [stopAt, hproven, mapError_error, mapError_ok, ok_bind, planned, hstore]
            | ok u => simp [stopAt, hproven, mapError_ok, ok_bind, planned, hstore, pure_eq]
  · rw [ensure_stop hnonce, first_replay hnonce]
    simp

theorem lawless_failIf {p : Prop} [Decidable p] {e : Failure} (he : e.plain) :
    Lawless (failIf p e : Work Unit).result := by
  rw [failIf_eq]
  exact lawless_ensure he

theorem lawless_validateHistory (seen history : List PriceAggregate) :
    Lawless (validateHistory r seen history).result := by
  induction history generalizing seen with
  | nil => exact Lawless.ok ()
  | cons a history ih =>
    simp only [validateHistory, result_bind, result_visit, ok_bind]
    exact (lawless_failIf (by trivial)).bind fun _ => ih _

theorem lawless_checkedAdd {max a b : ℕ} {e : Failure} (he : e.plain) : Lawless (checkedAdd max a b e) := by
  unfold checkedAdd
  split_ifs
  · exact Lawless.ok _
  · exact lawless_error he

theorem lawless_workOr {α : Type} {o : Option α} {e : Failure} (he : e.plain) :
    Lawless (Metered.okOr o e : Work α).result := by
  cases o with
  | none => exact lawless_error he
  | some a => exact Lawless.ok a

theorem lawless_validate (out : PriceState) : Lawless (validate r out).result := by
  unfold validate
  simp only [result_bind, result_lift]
  refine (lawless_failIf (by trivial)).bind fun _ => (lawless_checkedAdd (by trivial)).bind fun _ => ?_
  refine (lawless_reserveScans _).bind fun _ => (lawless_validateHistory _ _).bind fun _ => ?_
  refine (lawless_failIf (by trivial)).bind fun _ => ?_
  cases out.pending with
  | none => exact Lawless.ok ()
  | some p =>
    simp only [validatePending, result_bind]
    refine (lawless_failIf (by trivial)).bind fun _ => (lawless_workOr (by trivial)).bind fun _ => ?_
    refine (lawless_failIf (by trivial)).bind fun _ => (lawless_workOr (by trivial)).bind fun _ => ?_
    exact lawless_failIf (by trivial)

theorem lawless_rows {α : Type} {project : α → Except Failure Value} (hproject : ∀ a, Lawless (project a))
    (rows : List α) : Lawless (vector project rows) := by
  have hitems : Lawless (rows.mapM project) := by
    induction rows with
    | nil => exact Lawless.ok _
    | cons a rows ih =>
      rw [List.mapM_cons]
      exact (hproject a).bind fun _ => ih.bind fun _ => Lawless.ok _
  exact hitems.bind fun _ => lawless_mapError (by trivial)

theorem lawless_option {α : Type} {project : α → Except Failure Value} (hproject : ∀ a, Lawless (project a))
    (o : Option α) : Lawless (o.mapM project) := by
  cases o with
  | none => exact Lawless.ok _
  | some a => exact (hproject a).bind fun _ => Lawless.ok _

theorem lawless_state (out : PriceState) : Lawless (value out) := by
  have hpending (p : Pending) : Lawless (pendingValue p) := by
    unfold pendingValue Wire.integers
    exact (lawless_value _).bind fun _ => (Wire.lawless_tuple _).bind fun _ => Wire.lawless_record _
  unfold value Wire.integers
  refine (lawless_option hpending _).bind fun _ => (lawless_rows lawless_value _).bind fun _ => ?_
  refine (lawless_rows (fun _ => Wire.lawless_blob _) _).bind fun _ => ?_
  exact (lawless_option lawless_value _).bind fun _ => (Wire.lawless_tuple _).bind fun _ => Wire.lawless_record _

theorem lawless_store (out : PriceState) : Lawless (store r out).result := by
  unfold store
  simp only [result_bind, result_lift]
  refine (lawless_state out).bind fun _ => (Wire.lawless_charge _).bind fun _ => (Wire.lawless_bytes _).bind fun _ => ?_
  refine (lawless_checkedAdd (by trivial)).bind fun _ => (lawless_failIf (by trivial)).bind fun _ => ?_
  exact lawless_validate out

theorem lawless_priceSuccessor (hfirst : (facts r s x.nonce c x.clock).first = none) :
    Lawless (successor r x.clock s c).result := by
  have hfalse := List.find?_eq_none.1 hfirst
  have hmax : s.nonce ≠ .max := by simpa [facts] using hfalse .counterExhausted (by decide)
  obtain ⟨next, hnext⟩ := Option.ne_none_iff_exists'.1 (mt Unsigned.checkedSucc_eq_none.1 hmax)
  cases c with
  | stage a =>
    simp only [successor, hnext, result_bind, result_okOr_some, ok_bind, result_pure]
    exact (lawless_workOr (by trivial)).bind fun _ => (lawless_workOr (by trivial)).bind fun _ => Lawless.ok _
  | commit =>
    have hphase := hfalse .wrongPhase (by decide)
    cases hpending : s.pending with
    | none => simp [facts, commandFacts, hpending] at hphase
    | some p =>
      simp only [successor, hnext, hpending, result_bind, result_okOr_some, ok_bind,
        result_pure]
      exact Lawless.ok _
  | syncTime q | quarantine id | advanceEpoch =>
    simp only [successor, hnext, result_bind, result_okOr_some, ok_bind, result_pure]
    exact Lawless.ok _

theorem lawless_run (h : Valid r x.parameters s)
    (hbound : x.parameters.Bound r.clock d e) : Lawless (outcome (Prices.run r x s c).result) := by
  intro code hrun
  have hfail : (Prices.run r x s c).result = .error (.fail (.law code)) := by
    cases hresult : (Prices.run r x s c).result with
    | ok plan =>
      rw [hresult] at hrun
      cases hrun
    | error stop =>
      rw [hresult] at hrun
      cases stop with
      | refuse reason => cases hrun
      | fail failure => rw [Except.error.inj hrun]
  rw [run_eq h hbound] at hfail
  rcases lawOutcome_fail.1 hfail with ⟨-, -, -, hevidence⟩ | ⟨-, hfirst, hsuccessor | ⟨out, -, hstore⟩⟩
  · cases hevidence
  · exact lawless_priceSuccessor hfirst code hsuccessor
  · exact lawless_store out code hstore

/-- **Price agreement.** Over a valid profile and a valid state: a refusal is exactly the first reason of the law; an
accepted plan has the successor of the law and a status that the security law accepts; a failure is that of premises
which are no evidence, or of a successor that overflows or is not storable; and the law check never fails. -/
theorem price_agreement (r : FeedRules) (x : PriceContext) (s : PriceState) (c : PriceCommand)
    (h : Valid r x.parameters s) :
    ∃ reason, (priceReason r s x.nonce c x.clock).result = .ok reason ∧
      (∀ refused, (Prices.run r x s c).result = .error (.refuse refused) → reason = some refused) ∧
      (∀ plan, (Prices.run r x s c).result = .ok plan → reason = none ∧
        (successor r x.clock s c).result = .ok plan.state ∧
        (securityLaw x.parameters x.caps x.security plan.status).result = .ok ()) ∧
      (∀ failure, (Prices.run r x s c).result = .error (.fail failure) ↔
        (unproven r x.clock ∧ reason ≠ some .replay ∧ reason ≠ some .counterExhausted ∧ failure = .invalidEvidence) ∨
        (¬ unproven r x.clock ∧ reason = none ∧ ((successor r x.clock s c).result = .error failure ∨
          ∃ out, (successor r x.clock s c).result = .ok out ∧ (store r out).result = .error failure))) ∧
      (reason = none → ∀ out, (successor r x.clock s c).result = .ok out →
        ((validate r out).result = .ok () ↔ out.history.length + out.quarantines.length + 4 < 2 ^ 31 ∧
          (out.history.map PriceAggregate.id).Nodup)) ∧
      (Prices.checked r x s c).result = outcome (Prices.run r x s c).result ∧
      (∀ limits code, (measured limits (Prices.checked r x s c)).1 ≠ .error (.law code)) ∧
      (∀ status, (securityLaw x.parameters x.caps x.security status).result = .ok () ↔
        (Oracle.status x.parameters x.caps x.security).result = .ok status) := by
  obtain ⟨clock, d, e, hpolicy⟩ := Parameters.bound_of_validate h.parameters
  obtain rfl : clock = r.clock := Option.some.inj (hpolicy.clock.symm.trans h.clock)
  have hlaws : (Prices.checked r x s c).result = outcome (Prices.run r x s c).result := by
    simp only [Prices.checked, Metered.result_bind, result_settle, Metered.result_pure]
    cases hrun : outcome (Prices.run r x s c).result with
    | error failure => rfl
    | ok result => rw [ok_bind, price_accepts h hpolicy hrun, ok_bind]
  refine ⟨_, result_priceReason, fun refused hrefused => ?_, fun plan hplan => ?_, fun failure => ?_,
    fun hfirst out hout => successor_sound_iff h hfirst hout, hlaws, fun limits code => ?_, fun status => ?_⟩
  · rw [run_eq h hpolicy] at hrefused
    exact lawOutcome_refuse hrefused
  · rw [run_eq h hpolicy] at hplan
    obtain ⟨hfirst, hsuccessor, -, hstatus⟩ := lawOutcome_accept hplan
    exact ⟨hfirst, hsuccessor, (security_law_iff hpolicy _ _ _).2 hstatus⟩
  · rw [run_eq h hpolicy]
    exact lawOutcome_fail
  · refine lawless_measured ?_ limits code
    rw [hlaws]
    exact lawless_run h hpolicy
  · rw [security_law_iff hpolicy, status_exact hpolicy, Except.ok.injEq, eq_comm]

end Run

theorem priceValid : Valid quorumRules priceParameters priceState := by
  refine ⟨by decide +kernel, by decide +kernel, rfl, by decide +kernel, ?_⟩
  cases hframe : (frame quorumRules priceState).result with
  | ok before => exact ⟨before, rfl⟩
  | error e =>
    have hsome : ((frame quorumRules priceState).result.map fun _ => ()) = .ok () := by decide +kernel
    rw [hframe] at hsome
    cases hsome

/-- premises without finality end a command in a failure, not in a refusal -/
theorem price_without_finality : ¬ ∀ r x s c, Valid r x.parameters s →
    (∃ plan, (Prices.run r x s c).result = .ok plan) ∨
      ∃ refused, (Prices.run r x s c).result = .error (.refuse refused) := by
  intro h
  have hrun := h quorumRules (priceContext .zero) priceState .commit priceValid
  have hfail : (Prices.run quorumRules (priceContext .zero) priceState .commit).result =
      .error (.fail .invalidEvidence) := by decide +kernel
  rw [hfail] at hrun
  rcases hrun with ⟨plan, hplan⟩ | ⟨refused, hrefused⟩
  · cases hplan
  · cases hrefused

theorem price_agreement_commit :
    (∃ plan, (Prices.run quorumRules (priceContext (quorumHash 1)) priceState .commit).result = .ok plan ∧
      (successor quorumRules ⟨quorumHash 4, quorumHash 1, ⟨7, by decide⟩⟩ priceState .commit).result = .ok plan.state) ∧
      (Prices.checked quorumRules (priceContext (quorumHash 1)) priceState .commit).result =
        outcome (Prices.run quorumRules (priceContext (quorumHash 1)) priceState .commit).result := by
  obtain ⟨reason, -, -, haccept, -, -, hchecked, -⟩ :=
    price_agreement quorumRules (priceContext (quorumHash 1)) priceState .commit priceValid
  refine ⟨?_, hchecked⟩
  cases hrun : (Prices.run quorumRules (priceContext (quorumHash 1)) priceState .commit).result with
  | ok plan => exact ⟨plan, rfl, (haccept plan hrun).2.1⟩
  | error stop =>
    have hsome : ((Prices.run quorumRules (priceContext (quorumHash 1)) priceState .commit).result.map fun _ => ()) =
        .ok () := by decide +kernel
    rw [hrun] at hsome
    cases hsome

end ZenoFcis.Oracle
