/-
Valid price states as a predicate:
- `validate_sound`: the producer's validation accepts exactly the sound states;
- `run_evidence`: what an accepted command requires and does.
-/
import ZenoFcis.Oracle.Prices
import ZenoFcis.Oracle.QuorumExact

namespace ZenoFcis.Oracle

open Lib Lib.Except Prices
open Lib.Metered (result_bind result_lift result_okOr_eq_ok result_pure)

/-- what validation promises of a buffered aggregate -/
structure Pending.Sound (r : FeedRules) (committed : Option PriceAggregate) (epoch : U64) (p : Pending) : Prop where
  bound : binding r p.aggregate = true
  disputeUntil : p.disputeUntil.val = p.published.val + r.clock.disputeOpen.val
  earliest : p.earliest.val = p.published.val + (max r.clock.confirmation r.clock.disputeOpen).val
  published : p.published ≤ epoch
  observed : p.aggregate.numbers.oldestEpoch ≤ p.published
  follows : committed.all (follows · p.aggregate) = true

/-- what validation promises of a state -/
structure PriceState.Sound (r : FeedRules) (s : PriceState) : Prop where
  size : ¬ oversized r s
  scans : s.history.length + s.quarantines.length + 4 < 2 ^ 31
  bound : ∀ a ∈ s.history, binding r a = true
  ascending : s.history.Pairwise fun old a => old.id ≠ a.id ∧ old.round < a.round
  last : s.committed = s.history.getLast?
  pending : ∀ p ∈ s.pending, p.Sound r s.committed s.epoch

section Validation

variable {r : FeedRules} {s : PriceState}

theorem validateHistory_ok {seen history : List PriceAggregate} : (validateHistory r seen history).result = .ok () ↔
    (∀ a ∈ history, binding r a = true) ∧ (∀ old ∈ seen, ∀ a ∈ history, old.id ≠ a.id ∧ old.round < a.round) ∧
      history.Pairwise fun old a => old.id ≠ a.id ∧ old.round < a.round := by
  induction history generalizing seen with
  | nil => simp [validateHistory]
  | cons a history ih =>
    simp only [validateHistory, result_bind, result_visit, ok_bind, bind_eq_ok, exists_unit, failIf_ok, ih,
      List.mem_cons, forall_eq_or_imp, List.pairwise_cons, List.mem_append, List.mem_nil_iff, or_false, not_or, not_not,
      not_exists, not_and, not_le]
    constructor
    · intro h
      obtain ⟨⟨hbound, hseen⟩, hrest, hafter, hpairs⟩ := h
      refine ⟨⟨hbound, hrest⟩, fun old hold => ⟨hseen old hold, fun b hb => hafter old (Or.inl hold) b hb⟩, ?_, hpairs⟩
      exact fun b hb => hafter a (Or.inr rfl) b hb
    · intro h
      obtain ⟨⟨hbound, hrest⟩, hseen, hafter, hpairs⟩ := h
      refine ⟨⟨hbound, fun old hold => (hseen old hold).1⟩, hrest, ?_, hpairs⟩
      intro old hold b hb
      rcases hold with hold | rfl
      · exact (hseen old hold).2 b hb
      · exact hafter b hb

theorem validatePending_ok {p : Pending} :
    (validatePending r s p).result = .ok () ↔ p.Sound r s.committed s.epoch := by
  simp only [validatePending, result_bind, bind_eq_ok, exists_unit, failIf_ok, not_not,
    result_okOr_eq_ok, Unsigned.checkedAdd_eq_some, not_or, not_lt]
  constructor
  · intro h
    obtain ⟨hbound, disputeUntil, hdispute, rfl, earliest, hearliest, rfl, hpublished, hobserved, hfollows⟩ := h
    exact ⟨hbound, hdispute, hearliest, hpublished, hobserved, hfollows⟩
  · intro h
    exact ⟨h.bound, p.disputeUntil, h.disputeUntil, rfl, p.earliest, h.earliest, rfl, h.published, h.observed,
      h.follows⟩

theorem pending_ok : (match s.pending with
    | none => (pure () : Work Unit)
    | some pending => validatePending r s pending).result = .ok () ↔
      ∀ p ∈ s.pending, p.Sound r s.committed s.epoch := by
  cases s.pending with
  | none => simp
  | some p => simp [validatePending_ok]

/-- **Validation.** It accepts the sound states -/
theorem validate_sound : (validate r s).result = .ok () ↔ s.Sound r := by
  have hscans : (∃ rows, checkedAdd usizeMax s.history.length s.quarantines.length Failure.arithmetic = .ok rows ∧
      (reserveScans rows).result = .ok ()) ↔ s.history.length + s.quarantines.length + 4 < 2 ^ 31 := by
    unfold checkedAdd
    constructor
    · intro h
      obtain ⟨rows, hrows, hscans⟩ := h
      split_ifs at hrows with hfit
      cases hrows
      rw [result_reserveScans] at hscans
      by_contra hlong
      rw [if_neg hlong] at hscans
      cases hscans
    · intro h
      refine ⟨_, if_pos (by unfold usizeMax; omega), ?_⟩
      rw [result_reserveScans, if_pos h]
  unfold validate
  simp only [result_bind, result_lift, bind_eq_ok, exists_unit, failIf_ok, not_not, validateHistory_ok,
    List.not_mem_nil, false_implies, implies_true, true_and]
  constructor
  · intro h
    obtain ⟨hsize, rows, hrows, htariff, ⟨hbound, hascending⟩, hlast, hbuffer⟩ := h
    exact ⟨hsize, hscans.1 ⟨rows, hrows, htariff⟩, hbound, hascending, hlast, pending_ok.1 hbuffer⟩
  · intro h
    obtain ⟨rows, hrows, htariff⟩ := hscans.2 h.scans
    exact ⟨h.size, rows, hrows, htariff, ⟨h.bound, h.ascending⟩, h.last, pending_ok.2 h.pending⟩

end Validation

/-! ## Steps -/

/-- an aggregate is quarantined when a quarantine names it -/
theorem result_quarantined (s : PriceState) (a : PriceAggregate) :
    (quarantined s a).result = .ok (s.quarantines.any a.names) := by
  have hfold (ids : List Hash) (affected : Bool) :
      (ids.foldlM (fun affected id => do
        visit
        pure (affected || a.names id)) affected : Work Bool).result = .ok (affected || ids.any a.names) := by
    induction ids generalizing affected with
    | nil => simp
    | cons id ids ih =>
      simp only [List.foldlM_cons, result_bind, result_visit, result_pure, ok_bind, ih, List.any_cons,
        Bool.or_assoc]
  rw [quarantined, hfold, Bool.false_or]

/-- a later round, and times that do not go back -/
def PriceAggregate.After (old a : PriceAggregate) : Prop :=
  old.round < a.round ∧ old.numbers.oldestEpoch ≤ a.numbers.oldestEpoch ∧
    old.numbers.medianSeconds ≤ a.numbers.medianSeconds

theorem follows_after {old a : PriceAggregate} : follows old a = true ↔ old.After a := by
  simp [follows, PriceAggregate.After, and_assoc]

/-- what an accepted command does to the evidence -/
inductive Evidence (r : FeedRules) (clock : ClockView) (s : PriceState) : PriceState → Prop where
  | same : Evidence r clock s s
  | staged {p : Pending} (published : p.published = clock.epoch) (sound : p.Sound r s.committed clock.epoch) :
      Evidence r clock s { s with pending := some p }
  | committed {p : Pending} (pending : s.pending = some p) (mature : p.earliest ≤ clock.epoch)
      (free : s.quarantines.any p.aggregate.names = false) (follows : ∀ old ∈ s.committed, old.After p.aggregate) :
      Evidence r clock s { s with
        committed := some p.aggregate, history := s.history ++ [p.aggregate], pending := none }
  | timed (seconds : U64) : Evidence r clock s { s with watermark := max s.watermark seconds }
  | quarantined (target : Hash) : Evidence r clock s { s with quarantines := s.quarantines ++ [target] }

/-- a change that succeeds has its evidence -/
theorem change_ok {r : FeedRules} {clock : ClockView} {s t : PriceState} {c : PriceCommand}
    (h : (change r clock s c).result = .ok t) : Evidence r clock s t := by
  cases c with
  | advanceEpoch =>
    cases h
    exact .same
  | stage a =>
    simp only [change, result_bind, result_pure, bind_eq_ok, exists_unit, result_okOr_eq_ok,
      refuseIf_ok, result_arm, result_quarantined, mapError_ok, Except.ok.injEq, exists_eq_left', not_not, monotone,
      Bool.and_eq_true, Unsigned.checkedAdd_eq_some] at h
    obtain ⟨hbound, past, -, -, -, -, hmonotone, disputeUntil, hdispute, earliest, hearliest, rfl⟩ := h
    exact .staged rfl ⟨hbound, hdispute, hearliest, le_rfl, past.down, hmonotone.1⟩
  | commit =>
    simp only [change, result_bind, result_pure, bind_eq_ok, exists_unit, result_okOr_eq_ok,
      refuseIf_ok, result_arm, result_quarantined, mapError_ok, Except.ok.injEq, not_lt, Bool.not_eq_true,
      exists_eq_left'] at h
    obtain ⟨p, hp, -, -, -, -, hmature, hfree, hfollows, rfl⟩ := h
    refine .committed hp hmature hfree fun old hold => ?_
    rw [Option.mem_def.1 hold] at hfollows
    exact follows_after.1 (by simpa using hfollows)
  | syncTime q =>
    simp only [change, result_bind, result_pure, bind_eq_ok] at h
    obtain ⟨-, -, -, -, -, -, h⟩ := h
    cases h
    exact .timed q.seconds
  | quarantine target =>
    simp only [change, result_bind, result_pure, bind_eq_ok] at h
    obtain ⟨-, -, -, -, h⟩ := h
    cases h
    exact .quarantined target

/-- **One command.** A plan comes from a sound state and leaves a sound state -/
theorem run_evidence {r : FeedRules} {x : PriceContext} {s : PriceState} {c : PriceCommand} {plan : PricePlan}
    (h : (Prices.run r x s c).result = .ok plan) :
    s.Sound r ∧ plan.state.Sound r ∧ s.epoch ≤ x.clock.epoch ∧
      ∃ t next, Evidence r x.clock s t ∧ next.val = s.nonce.val + 1 ∧
        plan.state = { t with epoch := x.clock.epoch, nonce := next } := by
  unfold Prices.run store at h
  simp only [result_bind, result_pure, result_lift, bind_eq_ok, exists_unit, result_arm,
    mapError_eq_ok, result_okOr_eq_ok, refuseIf_ok, not_lt, Unsigned.checkedSucc_eq_some, validate_sound] at h
  obtain ⟨-, -, -, hsound, _, -, -, -, next, hnext, -, hepoch, _, -, t, ht, -, status, -, hstore, hplan⟩ := h
  obtain ⟨_, -, _, -, _, -, _, -, -, hpost⟩ := hstore
  cases hplan
  exact ⟨hsound, hpost, hepoch, t, next, change_ok ht, hnext, rfl⟩

theorem PriceState.Sound.last_le {r : FeedRules} {s : PriceState} (h : s.Sound r) {a old : PriceAggregate}
    (ha : ∀ last ∈ s.committed, last.round < a.round) (hold : old ∈ s.history) : old.round < a.round := by
  rcases List.eq_nil_or_concat s.history with hnil | ⟨init, last, hlist⟩
  · rw [hnil] at hold
    cases hold
  · rw [List.concat_eq_append] at hlist
    have hlast : s.committed = some last := by
      rw [h.last, hlist, List.getLast?_concat]
    have hascending := h.ascending
    rw [hlist] at hold hascending
    rcases List.mem_append.1 hold with hinit | hend
    · have hpair := (List.pairwise_append.1 hascending).2.2 old hinit last List.mem_cons_self
      exact hpair.2.trans (ha last hlast)
    · obtain rfl := List.mem_singleton.1 hend
      exact ha old hlast

/-- the successor of a sound state is sound again, unless its rows are too many to scan or an identity repeats -/
theorem Evidence.sound_iff {r : FeedRules} {clock : ClockView} {s t : PriceState} {next : U64}
    (h : Evidence r clock s t) (hs : s.Sound r) (hepoch : s.epoch ≤ clock.epoch)
    (hsize : ¬ oversized r { t with epoch := clock.epoch, nonce := next }) :
    { t with epoch := clock.epoch, nonce := next }.Sound r ↔
      t.history.length + t.quarantines.length + 4 < 2 ^ 31 ∧ (t.history.map PriceAggregate.id).Nodup := by
  refine ⟨fun hsound => ⟨hsound.scans, List.pairwise_map.2 (hsound.ascending.imp And.left)⟩, fun hrows => ?_⟩
  obtain ⟨hscans, hids⟩ := hrows
  have hlater {p : Pending} (hp : p.Sound r s.committed s.epoch) : p.Sound r s.committed clock.epoch :=
    ⟨hp.bound, hp.disputeUntil, hp.earliest, hp.published.trans hepoch, hp.observed, hp.follows⟩
  cases h with
  | same | timed seconds => exact ⟨hsize, hscans, hs.bound, hs.ascending, hs.last, fun p hp => hlater (hs.pending p hp)⟩
  | staged hpublished hsound =>
    refine ⟨hsize, hscans, hs.bound, hs.ascending, hs.last, fun q hq => ?_⟩
    exact Option.some.inj hq ▸ hsound
  | @committed p hpending hmature hfree hfollows =>
    refine ⟨hsize, hscans, ?_, ?_, (List.getLast?_concat ..).symm, fun q hq => by cases hq⟩
    · intro a ha
      rcases List.mem_append.1 ha with hold | hnew
      · exact hs.bound a hold
      · exact List.mem_singleton.1 hnew ▸ (hs.pending p hpending).bound
    · refine List.pairwise_append.2 ⟨hs.ascending, List.pairwise_singleton _ _, fun old hold a ha => ?_⟩
      obtain rfl := List.mem_singleton.1 ha
      refine ⟨fun hsame => ?_, hs.last_le (fun last hlast => (hfollows last hlast).1) hold⟩
      -- the identities of the longer history are distinct
      rw [List.map_append, List.nodup_append] at hids
      exact hids.2.2 _ (List.mem_map_of_mem hold) _ List.mem_cons_self hsame
  | quarantined target =>
    exact ⟨hsize, hscans, hs.bound, hs.ascending, hs.last, fun p hp => hlater (hs.pending p hp)⟩

/-! ## A small feed -/

/-- a policy over the clock of the sample rules -/
def priceParameters : Parameters where
  clock := some quorumRules.clock
  disputes := some ⟨quorumHash 6, .of 1, .of 1, .of 1, .of 1, .of 0,
    .of 0, true, quorumId 8, .challenger, .challenger, .reporterOwner⟩
  economy := some ⟨⟨quorumId 9, 18⟩, .of 1, .of 1, .of 2, quorumHash 7, .of 1,
    .of 1, .of 4⟩

/-- an aggregate of three equal reports -/
def priceAggregate (n : UInt8) (round epoch seconds : U64) : PriceAggregate where
  id := quorumHash n
  feed := quorumRules.feed
  profile := quorumRules.profile
  query := quorumRules.query
  round := round
  reports := fun _ => quorumHash n
  admissions := fun _ => quorumHash n
  reporters := fun _ => quorumId n
  sources := fun _ => quorumId n
  numbers := ⟨samplePrice 100 hundred_price, .zero, .zero, epoch, seconds⟩

/-- one committed price, and a later one that is buffered until epoch seven -/
def priceState : PriceState where
  committed := some (priceAggregate 41 (.of 1) (.of 5) (.of 60))
  pending := some ⟨priceAggregate 42 (.of 2) (.of 6) (.of 61), .of 6, .of 7,
    .of 7⟩
  history := [priceAggregate 41 (.of 1) (.of 5) (.of 60)]
  quarantines := []
  watermark := .of 60
  epoch := .of 6
  nonce := .of 3

/-- premises of a command in epoch seven, without a stress valuation -/
def priceContext (finalityRoot : Hash) : PriceContext where
  parameters := priceParameters
  caps := ⟨.zero, .zero, .zero, .zero⟩
  nonce := .of 3
  clock := ⟨quorumHash 4, finalityRoot, .of 7⟩
  security := ⟨fun _ => .zero, none, quorumHash 7, quorumHash 9⟩

end ZenoFcis.Oracle
