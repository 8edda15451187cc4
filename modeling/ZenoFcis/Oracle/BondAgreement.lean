/-
The producer of the bonded-account relation against its law reference.

Both are brought to one shape: the order in which refusals are decided, then the successor. They decide alike on every
sound state except in three places, which `Diverges` names.
-/
import ZenoFcis.Oracle.BondLaws
import ZenoFcis.Oracle.BondSoundness

namespace ZenoFcis.Oracle

open Lib Lib.Except BondLaws
open Lib.Metered (result_bind result_lift result_okOr_none result_okOr_some result_pure)

/-! ## Searches -/

section Search

variable {α κ : Type} [DecidableEq κ] {key : α → κ} {xs : List α} {k : κ}

/-- with distinct keys the last match is the first -/
theorem find_eq_lastMatch (h : (xs.map key).Nodup) :
    xs.find? (fun x => key x = k) = (lastMatch xs fun x => key x = k).map fun i => getElem xs i (row_lt xs i) := by
  cases hlast : lastMatch xs fun x => decide (key x = k) with
  | none =>
    rw [Option.map_none, List.find?_eq_none]
    intro x hx
    simpa using lastMatch_none.1 hlast x hx
  | some i =>
    have hi : key xs[i] = k := by simpa using lastMatch_some hlast
    rw [Option.map_some]
    cases hfind : xs.find? fun x => decide (key x = k) with
    | none => exact absurd (List.find?_eq_none.1 hfind _ (List.getElem_mem i.2)) (by simpa using hi)
    | some y =>
      have hy : key y = k := by simpa using List.find?_some hfind
      rw [List.inj_on_of_nodup_map h (List.mem_of_find?_eq_some hfind) (List.getElem_mem i.2) (hy.trans hi.symm)]
      rfl

theorem updateFirst_getElem {f : α → α} {i : ℕ} (h : (xs.map key).Nodup) (hi : i < xs.length) (hk : key xs[i] = k) :
    updateFirst (fun x => key x = k) f xs = some (xs.set i (f xs[i])) := by
  induction xs generalizing i with
  | nil => cases hi
  | cons x xs ih =>
    rw [List.map_cons, List.nodup_cons] at h
    cases i with
    | zero =>
      have hx : key x = k := hk
      simp [updateFirst, hx]
    | succ i =>
      have hlt : i < xs.length := Nat.lt_of_succ_lt_succ hi
      have hget : key xs[i] = k := hk
      have hx : key x ≠ k := fun hx => h.1 (hx.trans hget.symm ▸ List.mem_map_of_mem (List.getElem_mem hlt))
      simp [updateFirst, hx, ih h.2 hlt hget]

theorem updateFirst_lastMatch {f : α → α} {i : Fin xs.length} (h : (xs.map key).Nodup)
    (hlast : lastMatch xs (fun x => decide (key x = k)) = some i) :
    updateFirst (fun x => key x = k) f xs = some (xs.set i (f (getElem xs i (row_lt xs i)))) :=
  updateFirst_getElem h i.2 (by simpa using lastMatch_some hlast)

end Search

/-! ## Facts -/

section Facts

variable {s : BondState} {actor : Id} {nonce : U64} {c : BondCommand} {clock : ClockView}

theorem ownerOnly_eq : ownerOnly c = c.ownerCommand := by cases c <;> rfl

theorem retained_eq : retained s c = c.alreadyExists s := by cases c <;> rfl

/-- a command is misplaced in the wrong phase -/
theorem misplaced_eq : misplaced s c = c.wrongPhase s := by cases c <;> rfl

theorem nothing_eq : nothing c = c.isZero := by cases c <;> rfl

/-- the reasons that are decided after the clock, in their order -/
def lateReasons : List Reason :=
  [.unknownReference, .alreadyExists, .wrongPhase, .bindingMismatch, .zeroAmountOrPrice, .insufficientBond,
    .insufficientBalance, .windowClosed, .invalidVerdict, .liabilityLocked, .alreadyClaimedOrSlashed, .full]

/-- no fact holds but those decided after the clock -/
def Facts.Late (f : Facts) : Prop := ∀ r, r ∉ lateReasons → f r = false

/-- a late reason keeps the facts late -/
theorem Facts.Late.set {f : Facts} {r : Reason} {b : Bool} (h : f.Late) (hr : r ∈ lateReasons) : (f.set r b).Late := by
  intro r' hr'
  have hne : r' ≠ r := by
    rintro rfl
    exact hr' hr
  rw [Facts.set, if_neg hne]
  exact h r' hr'

theorem Facts.Late.undecided {f : Facts} (h : f.Late) (r : Reason) :
    f.undecided r = !((reasons.takeWhile fun r' => r' ≠ r).filter (· ∈ lateReasons)).any f := by
  unfold Facts.undecided
  induction reasons.takeWhile fun r' => decide (r' ≠ r) with
  | nil => rfl
  | cons r' rs ih =>
    by_cases hr : r' ∈ lateReasons
    · rw [List.filter_cons_of_pos (by simpa using hr), List.any_cons, List.any_cons, Bool.not_or, Bool.not_or, ih]
    · rw [List.filter_cons_of_neg (by simpa using hr), List.any_cons, h r' hr, Bool.false_or, ih]

/-- decide the reasons after the clock in order, then go on -/
def decideFacts {α : Type} (f : Facts) (rest : Except Stop α) : Except Stop α :=
  if f .unknownReference then .error (.refuse .unknownReference)
  else if f .alreadyExists then .error (.refuse .alreadyExists)
  else if f .wrongPhase then .error (.refuse .wrongPhase)
  else if f .bindingMismatch then .error (.refuse .bindingMismatch)
  else if f .zeroAmountOrPrice then .error (.refuse .zeroAmountOrPrice)
  else if f .insufficientBond then .error (.refuse .insufficientBond)
  else if f .insufficientBalance then .error (.refuse .insufficientBalance)
  else if f .windowClosed then .error (.refuse .windowClosed)
  else if f .invalidVerdict then .error (.refuse .invalidVerdict)
  else if f .liabilityLocked then .error (.refuse .liabilityLocked)
  else if f .alreadyClaimedOrSlashed then .error (.refuse .alreadyClaimedOrSlashed)
  else if f .full then .error (.refuse .full)
  else rest

theorem first_decides {α : Type} {f : Facts} {rest : Except Stop α} (h : f.Late) :
    (match f.first with
      | some r => .error (.refuse r)
      | none => rest) = decideFacts f rest := by
  have hfirst : f.first = lateReasons.find? f := first_eq_find (by decide) h
  rw [hfirst]
  unfold decideFacts lateReasons
  simp only [List.find?_cons]
  cases f .unknownReference
  · cases f .alreadyExists
    · cases f .wrongPhase
      · cases f .bindingMismatch
        · cases f .zeroAmountOrPrice
          · cases f .insufficientBond
            · cases f .insufficientBalance
              · cases f .windowClosed
                · cases f .invalidVerdict
                  · cases f .liabilityLocked
                    · cases f .alreadyClaimedOrSlashed
                      · cases f .full <;> rfl
                      · rfl
                    · rfl
                  · rfl
                · rfl
              · rfl
            · rfl
          · rfl
        · rfl
      · rfl
    · rfl
  · rfl

end Facts

/-! ## One shape -/

/-- the refusals after the clock, then the arm of the command -/
def decided (timing : ClockParameters) (d : DisputeParameters) (economy : EconomicParameters) (context : AccountContext)
    (s : BondState) (c : BondCommand) : Arm BondState := do
  let index ← arm (targetIndex s c)
  refuseIf (c.target.isSome ∧ index = none) .unknownReference
  refuseIf (c.alreadyExists s) .alreadyExists
  refuseIf (c.wrongPhase s) .wrongPhase
  refuseIf c.isZero .zeroAmountOrPrice
  apply timing d economy context.actor context.clock.epoch context.capacity s index c

/-- what the reference decides after the clock -/
def lawful (timing : ClockParameters) (d : DisputeParameters) (economy : EconomicParameters) (context : AccountContext)
    (s : BondState) (c : BondCommand) (free : U128) : Except Stop BondState := do
  let f ← (commandFacts timing d s context.actor context.clock free
    (commonFacts s context.actor context.nonce c context.clock) c).mapError .fail
  match (f.set .full (fullFact s context.capacity c)).first with
  | some r => .error (.refuse r)
  | none => (successor timing d economy s context.actor c context.clock).mapError .fail

/-- the guards before the command is looked at all pass -/
structure Passed (timing : ClockParameters) (context : AccountContext) (s : BondState) (c : BondCommand) : Prop where
  authorized : ¬ (c.ownerCommand ∧ context.actor ≠ s.owner)
  nonce : context.nonce = balanceOf s.nonces context.actor
  counter : context.nonce ≠ .max
  evidence : ¬ (context.clock.backend ≠ timing.backend ∨ context.clock.finalityRoot = .zero)
  clock : ¬ context.clock.epoch < s.epoch

section Arms

variable {timing : ClockParameters} {d : DisputeParameters} {economy : EconomicParameters} {context : AccountContext}
  {s : BondState} {c : BondCommand} {free : U128}

/-- the common facts are late once the early checks have passed -/
theorem common_late (h : Passed timing context s c) :
    (commonFacts s context.actor context.nonce c context.clock).Late := by
  intro r hr
  simp only [lateReasons, List.mem_cons, List.not_mem_nil, or_false, not_or] at hr
  have hauth : (decide (context.actor ≠ s.owner) && ownerOnly c) = false := by
    rw [ownerOnly_eq, Bool.and_eq_false_iff, decide_eq_false_iff_not, Bool.eq_false_iff]
    have howner := h.authorized
    tauto
  have hnonce : decide (context.nonce ≠ balanceOf s.nonces context.actor) = false := by simpa using h.nonce
  have hcounter : decide (context.nonce = .max) = false := by simpa using h.counter
  have hclock : decide (context.clock.epoch < s.epoch) = false := by simpa using h.clock
  simp only [commonFacts, hauth, hnonce, hcounter, hclock, Facts.set, Facts.none, hr, if_false, ite_self]

/-- a command without a target is judged by its early checks and its successor -/
theorem decided_untargeted (hc : c.target = none) :
    (decided timing d economy context s c).result =
      if c.alreadyExists s then .error (.refuse .alreadyExists)
      else if c.wrongPhase s then .error (.refuse .wrongPhase)
      else if c.isZero then .error (.refuse .zeroAmountOrPrice)
      else (apply timing d economy context.actor context.clock.epoch context.capacity s none c).result := by
  simp only [decided, targetIndex, hc, result_bind, result_arm, result_pure, mapError_ok, ok_bind,
    result_refuseIf, ite_error_bind, Option.isSome_none, Bool.false_eq_true, false_and, if_false]

theorem decided_missing {id : Hash} (hc : c.target = some id)
    (hlast : lastMatch s.liabilities (fun l => decide (l.id = id)) = none) :
    (decided timing d economy context s c).result = .error (.refuse .unknownReference) := by
  simp only [decided, targetIndex, hc, result_bind, result_arm, result_position, hlast, mapError_ok, ok_bind,
    result_refuseIf, ite_error_bind, Option.isSome_some, and_self, if_true]

/-- a command with a target that is found -/
theorem decided_found {id : Hash} {i : Fin s.liabilities.length} (hc : c.target = some id)
    (hlast : lastMatch s.liabilities (fun l => decide (l.id = id)) = some i) :
    (decided timing d economy context s c).result =
      if c.alreadyExists s then .error (.refuse .alreadyExists)
      else if c.wrongPhase s then .error (.refuse .wrongPhase)
      else if c.isZero then .error (.refuse .zeroAmountOrPrice)
      else (apply timing d economy context.actor context.clock.epoch context.capacity s (some i) c).result := by
  simp only [decided, targetIndex, hc, result_bind, result_arm, result_position, hlast, mapError_ok, ok_bind,
    result_refuseIf, ite_error_bind, reduceCtorEq, and_false, if_false]

/-- the law of a command from its facts -/
theorem lawful_eq {f : Facts} (hf : commandFacts timing d s context.actor context.clock free
      (commonFacts s context.actor context.nonce c context.clock) c = .ok f) (hlate : f.Late) :
    lawful timing d economy context s c free =
      decideFacts (f.set .full (fullFact s context.capacity c))
        ((successor timing d economy s context.actor c context.clock).mapError .fail) := by
  unfold lawful
  rw [hf, mapError_ok, ok_bind]
  exact first_decides (hlate.set (by decide))

/-- with distinct ids the law finds the last match -/
theorem liability_eq (hsound : s.Sound context.capacity) {id : Hash} (hc : c.target = some id) :
    liability s c = (lastMatch s.liabilities fun l => l.id = id).map
      fun i => getElem s.liabilities i (s.liability_lt i) := by
  rw [← find_eq_lastMatch hsound.liabilityIds]
  cases c <;> cases hc <;> rfl

/-- a missing target is judged as the law says -/
theorem missing_agrees {id : Hash} (hsound : s.Sound context.capacity) (h : Passed timing context s c)
    (hc : c.target = some id) (hlast : lastMatch s.liabilities (fun l => decide (l.id = id)) = none) :
    (decided timing d economy context s c).result = lawful timing d economy context s c free := by
  have hfind : liability s c = none := by rw [liability_eq hsound hc, hlast, Option.map_none]
  have hfacts : commandFacts timing d s context.actor context.clock free
      (commonFacts s context.actor context.nonce c context.clock) c =
        .ok (commonFacts s context.actor context.nonce c context.clock) := by
    cases c <;> cases hc <;> simp only [commandFacts, hfind, pure_eq]
  have habsent : absent s c = true := by
    cases c <;> cases hc <;> simp only [absent, hfind, Option.isNone_none]
  rw [decided_missing hc hlast, lawful_eq hfacts (common_late h)]
  simp only [decideFacts, commonFacts, Facts.set, reduceCtorEq, if_true, if_false, habsent]

/-- a deposit is judged as its law says -/
theorem deposit_agrees {amount : U128} (h : Passed timing context s (.deposit amount)) :
    (decided timing d economy context s (.deposit amount)).result =
      lawful timing d economy context s (.deposit amount) free := by
  rw [decided_untargeted rfl, lawful_eq rfl ((common_late h).set (by decide))]
  simp only [apply, deposit, result_bind, result_pure, result_refuseIf, ite_error_bind, ok_bind,
    result_okOr, decideFacts, commonFacts, Facts.set, Facts.none, reduceCtorEq, if_true, if_false, absent, retained_eq,
    misplaced_eq, nothing_eq, fullFact, successor, BondLaws.add, decide_eq_true_eq, Bool.false_eq_true, mapError_bind,
    pure_eq, mapError_ok]

/-- zero identities are refused before the refusals of bond and capacity -/
def zeroMasked (d : DisputeParameters) (context : AccountContext) (s : BondState) : BondCommand → Prop
  | .reserve id report feed => (id = .zero ∨ report = .zero ∨ feed = .zero) ∧
    BondCommand.alreadyExists s (.reserve id report feed) = false ∧
    BondCommand.wrongPhase s (.reserve id report feed) = false ∧
    (s.held.val < lockedSum s.liabilities + d.minimumBond.val ∨ context.capacity.val ≤ s.liabilities.length)
  | _ => False

section Reserve

variable {id report feed : Hash} {n : U128}

theorem free_less (hlocked : (Oracle.locked s).result = .ok n) (hcovered : lockedSum s.liabilities ≤ s.held.val) :
    s.held.sub n < d.minimumBond ↔ s.held.val < lockedSum s.liabilities + d.minimumBond.val := by
  rw [Unsigned.lt_def, Unsigned.val_sub, locked_ok.1 hlocked]
  omega

variable (economy) in
theorem reserve_decided (h : Passed timing context s (.reserve id report feed))
    (hlocked : (Oracle.locked s).result = .ok n) :
    (decided timing d economy context s (.reserve id report feed)).result =
        (if BondCommand.alreadyExists s (.reserve id report feed) then .error (.refuse .alreadyExists)
        else if BondCommand.wrongPhase s (.reserve id report feed) then .error (.refuse .wrongPhase)
        else if id = .zero ∨ report = .zero ∨ feed = .zero then .error (.fail .invalidEvidence)
        else if s.held.sub n < d.minimumBond then .error (.refuse .insufficientBond)
        else if context.capacity.val ≤ s.liabilities.length then .error (.refuse .full)
        else (successor timing d economy s context.actor (.reserve id report feed) context.clock).mapError .fail) ∧
      lawful timing d economy context s (.reserve id report feed) (s.held.sub n) =
        if BondCommand.alreadyExists s (.reserve id report feed) then .error (.refuse .alreadyExists)
        else if BondCommand.wrongPhase s (.reserve id report feed) then .error (.refuse .wrongPhase)
        else if s.held.sub n < d.minimumBond then .error (.refuse .insufficientBond)
        else if context.capacity.val ≤ s.liabilities.length then .error (.refuse .full)
        else (successor timing d economy s context.actor (.reserve id report feed) context.clock).mapError .fail := by
  constructor
  · rw [decided_untargeted rfl]
    simp only [apply, reserve, result_bind, result_pure, result_refuseIf, result_failIf, result_arm,
      hlocked, mapError_ok, ite_error_bind, ok_bind, result_okOr, BondCommand.isZero, Bool.false_eq_true, if_false]
    by_cases hzero : id = .zero ∨ report = .zero ∨ feed = .zero
    · simp only [if_pos hzero]
    · simp only [if_neg hzero, successor, ensure, if_pos hzero, mapError_bind, mapError_ok, ok_bind, pure_eq]
  · rw [lawful_eq rfl ((common_late h).set (by decide))]
    simp only [decideFacts, commonFacts, Facts.set, Facts.none, reduceCtorEq, if_true, if_false, absent, retained_eq,
      misplaced_eq, nothing_eq, fullFact, decide_eq_true_eq, Bool.false_eq_true, BondCommand.isZero]

/-- a reserve is judged as its law says, unless a zero id masks it -/
theorem reserve_agrees (h : Passed timing context s (.reserve id report feed))
    (hlocked : (Oracle.locked s).result = .ok n) (hcovered : lockedSum s.liabilities ≤ s.held.val)
    (hmask : ¬ zeroMasked d context s (.reserve id report feed)) :
    (decided timing d economy context s (.reserve id report feed)).result =
      lawful timing d economy context s (.reserve id report feed) (s.held.sub n) := by
  obtain ⟨hdecided, hlawful⟩ := reserve_decided (d := d) economy h hlocked
  rw [hdecided, hlawful]
  by_cases hexists : BondCommand.alreadyExists s (.reserve id report feed) = true
  · simp only [hexists, if_true]
  by_cases hphase : BondCommand.wrongPhase s (.reserve id report feed) = true
  · simp only [hphase, if_true]
  by_cases hzero : id = .zero ∨ report = .zero ∨ feed = .zero
  · -- neither of the refusals that the reference decides first may hold
    have hpass : ¬ (s.held.val < lockedSum s.liabilities + d.minimumBond.val ∨
        context.capacity.val ≤ s.liabilities.length) :=
      fun hor => hmask ⟨hzero, by simpa using hexists, by simpa using hphase, hor⟩
    rw [not_or] at hpass
    rw [if_pos hzero, if_neg ((free_less hlocked hcovered).not.2 hpass.1), if_neg hpass.2]
    simp only [successor, ensure, if_neg (not_not.2 hzero), error_bind, mapError_error]
  · rw [if_neg hzero]

variable (economy) in
/-- a masked reserve fails with invalid evidence where its law refuses it -/
theorem reserve_masked (h : Passed timing context s (.reserve id report feed))
    (hlocked : (Oracle.locked s).result = .ok n) (hcovered : lockedSum s.liabilities ≤ s.held.val)
    (hmask : zeroMasked d context s (.reserve id report feed)) :
    (decided timing d economy context s (.reserve id report feed)).result = .error (.fail .invalidEvidence) ∧
      ∃ r, lawful timing d economy context s (.reserve id report feed) (s.held.sub n) = .error (.refuse r) := by
  obtain ⟨hdecided, hlawful⟩ := reserve_decided (d := d) economy h hlocked
  obtain ⟨hzero, hexists, hphase, hor⟩ := hmask
  rw [hdecided, hlawful]
  simp only [hexists, hphase, Bool.false_eq_true, if_false, if_pos hzero, free_less hlocked hcovered, true_and]
  by_cases hbond : s.held.val < lockedSum s.liabilities + d.minimumBond.val
  · exact ⟨.insufficientBond, if_pos hbond⟩
  · exact ⟨.full, by rw [if_neg hbond, if_pos (hor.resolve_left hbond)]⟩

end Reserve

/-- a recorded publication is judged as its law says -/
theorem recordPublication_agrees {id : Hash} {aggregate : Aggregate} (hsound : s.Sound context.capacity)
    (h : Passed timing context s (.recordPublication id aggregate)) :
    (decided timing d economy context s (.recordPublication id aggregate)).result =
      lawful timing d economy context s (.recordPublication id aggregate) free := by
  cases hlast : lastMatch s.liabilities fun l => decide (l.id = id) with
  | none => exact missing_agrees hsound h rfl hlast
  | some i =>
    have hfind : liability s (.recordPublication id aggregate) = some s.liabilities[i] := by
      rw [liability_eq hsound rfl, hlast, Option.map_some]
    rw [decided_found rfl hlast, lawful_eq (by simp only [commandFacts, hfind, pure_eq]; rfl)
      (((common_late h).set (by decide)).set (by decide))]
    simp only [apply, recordPublication, okOr, result_okOr, result_bind, result_pure, result_refuseIf,
      ite_error_bind, mapError_ok, ok_bind, decideFacts, commonFacts, Facts.set, Facts.none, reduceCtorEq, if_true,
      if_false, absent, hfind, Option.isNone_some, retained_eq, misplaced_eq, nothing_eq, fullFact, successor,
      decide_eq_true_eq, BondCommand.alreadyExists, BondCommand.wrongPhase, BondCommand.isZero, Bool.false_eq_true,
      mapError_bind, pure_eq, updateFirst_lastMatch hsound.liabilityIds hlast, Bool.or_eq_true, Bool.not_eq_true',
      Bool.not_eq_true]

/-- an unregistration is judged as its law says -/
theorem unregister_agrees (h : Passed timing context s .unregister) :
    (decided timing d economy context s .unregister).result = lawful timing d economy context s .unregister free := by
  rw [decided_untargeted rfl, lawful_eq rfl (common_late h)]
  simp only [apply, unregister, result_pure, decideFacts, commonFacts, Facts.set, Facts.none, reduceCtorEq,
    if_true, if_false, absent, retained_eq, misplaced_eq, nothing_eq, fullFact, successor, Bool.false_eq_true,
    BondCommand.alreadyExists, BondCommand.isZero, pure_eq, mapError_ok]

/-- a clearance is judged as its law says -/
theorem clear_agrees {id : Hash} (hsound : s.Sound context.capacity) (h : Passed timing context s (.clear id)) :
    (decided timing d economy context s (.clear id)).result = lawful timing d economy context s (.clear id) free := by
  cases hlast : lastMatch s.liabilities fun l => decide (l.id = id) with
  | none => exact missing_agrees hsound h rfl hlast
  | some i =>
    have hfind : liability s (.clear id) = some s.liabilities[i] := by
      rw [liability_eq hsound rfl, hlast, Option.map_some]
    rw [decided_found rfl hlast, lawful_eq (by simp only [commandFacts, hfind, pure_eq]; rfl)
      (((common_late h).set (by decide)).set (by decide))]
    simp only [apply, clear, okOr, result_okOr, result_bind, result_pure, result_refuseIf,
      ite_error_bind, mapError_ok, ok_bind, decideFacts, commonFacts, Facts.set, Facts.none, reduceCtorEq, if_true,
      if_false, absent, hfind, Option.isNone_some, retained_eq, misplaced_eq, nothing_eq, fullFact, successor,
      decide_eq_true_eq, BondCommand.alreadyExists, BondCommand.wrongPhase, BondCommand.isZero, Bool.false_eq_true,
      pure_eq, updateFirst_lastMatch hsound.liabilityIds hlast, Bool.or_eq_true, or_assoc]

theorem credit_eq (w : OrdMap Id ZdexE18) (id : Id) (amount : U128) :
    BondLaws.credit w id amount = Oracle.credit w id amount := rfl

/-- the reference pays as the code does -/
theorem pay_eq (s : BondState) (r : EscrowRecipient) (challenger treasury : Id) (amount : U128) :
    BondLaws.pay s r challenger treasury amount = Oracle.pay s r challenger treasury amount := by
  have hbind : ∀ {α : Type} (x : Except Failure α) (f : α → BondState), (do let a ← x; pure (f a)) = x.map f :=
    fun x f => by cases x <;> rfl
  cases r <;> exact hbind _ _

theorem verdict_eq : BondLaws.verdict = validVerdict := rfl

section Withdraw

variable {amount : U128} {n : U128}

/-- the refusals of a withdrawal that come before its exit delay -/
def withdrawEarly (s : BondState) (amount free : U128) : Bool :=
  decide (s.phase = .active) || decide (amount = .zero) || decide (free < amount)

variable (free) in
theorem withdraw_facts {exit : U64} (h : Passed timing context s (.withdraw amount)) (hexit : s.exitEpoch = some exit) :
    commandFacts timing d s context.actor context.clock free
        (commonFacts s context.actor context.nonce (.withdraw amount) context.clock) (.withdraw amount) =
      (exitLocked d s context.clock exit !withdrawEarly s amount free).map fun locked =>
        ((commonFacts s context.actor context.nonce (.withdraw amount) context.clock).set .insufficientBond
          (decide (free < amount))).set .liabilityLocked locked := by
  have hundecided : ((commonFacts s context.actor context.nonce (.withdraw amount) context.clock).set .insufficientBond
      (decide (free < amount))).undecided .liabilityLocked = !withdrawEarly s amount free := by
    have hlist : (reasons.takeWhile fun r' => r' ≠ .liabilityLocked).filter (· ∈ lateReasons) =
        [.unknownReference, .alreadyExists, .wrongPhase, .bindingMismatch, .zeroAmountOrPrice, .insufficientBond,
          .insufficientBalance, .windowClosed, .invalidVerdict] := by decide
    rw [((common_late h).set (by decide)).undecided, hlist]
    simp only [List.any_cons, List.any_nil, commonFacts, Facts.set, Facts.none, reduceCtorEq, if_true, if_false, absent,
      retained, misplaced, nothing, Bool.false_or, Bool.or_false, withdrawEarly, Bool.or_assoc]
  simp only [commandFacts, hexit, hundecided]
  cases exitLocked d s context.clock exit !withdrawEarly s amount free <;> rfl

/-- a withdrawal is judged as its law says -/
theorem withdraw_agrees (hsound : s.Sound context.capacity) (h : Passed timing context s (.withdraw amount))
    (hlocked : (Oracle.locked s).result = .ok n) :
    (decided timing d economy context s (.withdraw amount)).result =
      lawful timing d economy context s (.withdraw amount) (s.held.sub n) := by
  rw [decided_untargeted rfl]
  cases hexit : s.exitEpoch with
  | none =>
    -- no exit was requested, so the reporter is active
    have hactive : s.phase = .active := hsound.exit.2 hexit
    rw [lawful_eq (by simp only [commandFacts, hexit, pure_eq]; rfl) ((common_late h).set (by decide))]
    simp only [decideFacts, commonFacts, Facts.set, Facts.none, reduceCtorEq, if_true, if_false, absent, retained_eq,
      misplaced_eq, BondCommand.alreadyExists, BondCommand.wrongPhase, hactive, decide_true, Bool.false_eq_true]
  | some exit =>
    have hfacts := withdraw_facts (d := d) (s.held.sub n) h hexit
    cases hearly : withdrawEarly s amount (s.held.sub n) with
    | true =>
      -- an earlier refusal holds, and the exit delay is not looked at
      rw [hearly] at hfacts
      rw [lawful_eq hfacts (((common_late h).set (by decide)).set (by decide))]
      simp only [withdrawEarly, Bool.or_eq_true, decide_eq_true_eq] at hearly
      simp only [apply, withdraw, result_bind, result_arm, hlocked, mapError_ok, ok_bind, result_refuseIf,
        ite_error_bind, decideFacts, commonFacts, Facts.set, Facts.none, reduceCtorEq, if_true, if_false, absent,
        retained_eq, misplaced_eq, nothing_eq, BondCommand.alreadyExists, BondCommand.wrongPhase, BondCommand.isZero,
        decide_eq_true_eq, Bool.false_eq_true]
      by_cases hphase : s.phase = .active
      · rw [if_pos hphase, if_pos hphase]
      by_cases hzero : amount = .zero
      · rw [if_neg hphase, if_neg hphase, if_pos hzero, if_pos hzero]
      have hbond : s.held.sub n < amount := by tauto
      rw [if_neg hphase, if_neg hphase, if_neg hzero, if_neg hzero, if_pos hbond, if_pos hbond]
    | false =>
      rw [hearly] at hfacts
      simp only [withdrawEarly, Bool.or_eq_false_iff, decide_eq_false_iff_not] at hearly
      obtain ⟨⟨hphase, hzero⟩, hbond⟩ := hearly
      simp only [apply, withdraw, result_bind, result_arm, hlocked, mapError_ok, ok_bind, result_refuseIf,
        ite_error_bind, BondCommand.alreadyExists, BondCommand.wrongPhase, BondCommand.isZero, decide_eq_true_eq,
        Bool.false_eq_true, if_false, if_neg hphase, if_neg hzero, if_neg hbond, hexit, result_okOr, okOr]
      cases hbound : exit.checkedAdd d.exitDelay with
      | none =>
        have hfail : exitLocked d s context.clock exit true = .error .arithmetic := by
          simp only [exitLocked, hbound, okOr, if_true, error_bind]
        rw [Bool.not_false, hfail] at hfacts
        unfold lawful
        rw [hfacts]
        rfl
      | some bound =>
        have hexitLocked : exitLocked d s context.clock exit true =
            .ok (decide (context.clock.epoch < bound) || s.disputes.any fun x => x.phase = .open) := by
          simp only [exitLocked, hbound, okOr, if_true, ok_bind, pure_eq]
        rw [Bool.not_false, hexitLocked] at hfacts
        rw [lawful_eq hfacts (((common_late h).set (by decide)).set (by decide))]
        simp only [mapError_ok, ok_bind, decideFacts, commonFacts, Facts.set, Facts.none, reduceCtorEq, if_true,
          if_false, absent, retained_eq, misplaced_eq, nothing_eq, BondCommand.alreadyExists, BondCommand.wrongPhase,
          BondCommand.isZero, decide_eq_true_eq, Bool.false_eq_true, if_neg hphase, if_neg hzero, if_neg hbond,
          Bool.or_eq_true, fullFact, successor, credit_eq, mapError_bind, pure_eq, result_lift,
          result_pure, hexit]

end Withdraw

section OpenDispute

variable {id target : Hash}

/-- an overflowing window is refused although the clock precedes the publication -/
def windowMasked (timing : ClockParameters) (d : DisputeParameters) (context : AccountContext) (s : BondState) :
    BondCommand → Prop
  | .openDispute id target => BondCommand.alreadyExists s (.openDispute id target) = false ∧
    ∃ l published, s.liabilities.find? (fun l => l.id = target) = some l ∧ l.publication = some published ∧
      d.challengeBond ≤ balanceOf s.wallets context.actor ∧ context.clock.epoch < published ∧
      published.checkedAdd timing.disputeOpen = none
  | _ => False

/-- the refusals of a published dispute that come before its window -/
def disputeEarly (d : DisputeParameters) (context : AccountContext) (s : BondState) (c : BondCommand) : Bool :=
  c.alreadyExists s || decide (balanceOf s.wallets context.actor < d.challengeBond)

variable (economy free) in
/-- what an opened dispute is decided by -/
theorem openDispute_decided {i : Fin s.liabilities.length} {published : U64} (hsound : s.Sound context.capacity)
    (h : Passed timing context s (.openDispute id target))
    (hlast : lastMatch s.liabilities (fun l => decide (l.id = target)) = some i)
    (hpublished : (getElem s.liabilities i (s.liability_lt i)).publication = some published) :
    (decided timing d economy context s (.openDispute id target)).result =
        (if BondCommand.alreadyExists s (.openDispute id target) then .error (.refuse .alreadyExists)
        else if balanceOf s.wallets context.actor < d.challengeBond then .error (.refuse .insufficientBalance)
        else match published.checkedAdd timing.disputeOpen with
          | none => .error (.fail .arithmetic)
          | some bound =>
            if context.clock.epoch < published ∨ bound ≤ context.clock.epoch then .error (.refuse .windowClosed)
            else if (getElem s.liabilities i (s.liability_lt i)).cleared then .error (.refuse .liabilityLocked)
            else if context.capacity.val ≤ s.disputes.length then .error (.refuse .full)
            else (successor timing d economy s context.actor (.openDispute id target) context.clock).mapError .fail) ∧
      lawful timing d economy context s (.openDispute id target) free =
        (windowClosed timing context.clock published !disputeEarly d context s (.openDispute id target)).mapError .fail
          >>= fun closed =>
        if BondCommand.alreadyExists s (.openDispute id target) then .error (.refuse .alreadyExists)
        else if balanceOf s.wallets context.actor < d.challengeBond then .error (.refuse .insufficientBalance)
        else if closed then .error (.refuse .windowClosed)
        else if (getElem s.liabilities i (s.liability_lt i)).cleared then .error (.refuse .liabilityLocked)
        else if context.capacity.val ≤ s.disputes.length then .error (.refuse .full)
        else (successor timing d economy s context.actor (.openDispute id target) context.clock).mapError .fail := by
  have hfind : liability s (.openDispute id target) = some s.liabilities[i] := by
    rw [liability_eq hsound rfl, hlast, Option.map_some]
  have hid : s.liabilities[i].id = target := by simpa using lastMatch_some hlast
  constructor
  · rw [decided_found rfl hlast]
    simp only [apply, openDispute, result_okOr, result_bind, result_pure, result_refuseIf,
      ite_error_bind, mapError_ok, ok_bind, hpublished, BondCommand.wrongPhase, BondCommand.isZero, Bool.false_eq_true,
      if_false, successor, pure_eq, hid, result_okOr_some]
    cases published.checkedAdd timing.disputeOpen <;> rfl
  · have hundecided : (((commonFacts s context.actor context.nonce (.openDispute id target) context.clock).set
        .wrongPhase false).set .insufficientBalance
          (decide (balanceOf s.wallets context.actor < d.challengeBond))).undecided .windowClosed =
        !disputeEarly d context s (.openDispute id target) := by
      have hlist : (reasons.takeWhile fun r' => r' ≠ .windowClosed).filter (· ∈ lateReasons) =
          [.unknownReference, .alreadyExists, .wrongPhase, .bindingMismatch, .zeroAmountOrPrice, .insufficientBond,
            .insufficientBalance] := by decide
      rw [(((common_late h).set (by decide)).set (by decide)).undecided, hlist]
      simp only [List.any_cons, List.any_nil, commonFacts, Facts.set, Facts.none, reduceCtorEq, if_true, if_false,
        absent, hfind, Option.isNone_some, retained_eq, nothing_eq, BondCommand.isZero, Bool.false_or, Bool.or_false,
        disputeEarly]
    cases hclosed : windowClosed timing context.clock published
        !disputeEarly d context s (.openDispute id target) with
    | error e =>
      unfold lawful
      simp only [commandFacts, hfind, hpublished, Option.isNone_some, hundecided, hclosed]
      rfl
    | ok closed =>
      rw [lawful_eq (by simp only [commandFacts, hfind, hpublished, Option.isNone_some, hundecided, hclosed]; rfl)
        (((((common_late h).set (by decide)).set (by decide)).set (by decide)).set (by decide))]
      simp only [mapError_ok, ok_bind, decideFacts, commonFacts, Facts.set, Facts.none, reduceCtorEq, if_true, if_false,
        absent, hfind, Option.isNone_some, retained_eq, nothing_eq, BondCommand.isZero, Bool.false_eq_true, fullFact,
        decide_eq_true_eq]

theorem openDispute_unpublished {i : Fin s.liabilities.length} (hsound : s.Sound context.capacity)
    (h : Passed timing context s (.openDispute id target))
    (hlast : lastMatch s.liabilities (fun l => decide (l.id = target)) = some i)
    (hpublished : (getElem s.liabilities i (s.liability_lt i)).publication = none) :
    (decided timing d economy context s (.openDispute id target)).result =
      lawful timing d economy context s (.openDispute id target) free := by
  have hfind : liability s (.openDispute id target) = some s.liabilities[i] := by
    rw [liability_eq hsound rfl, hlast, Option.map_some]
  rw [decided_found rfl hlast, lawful_eq (by simp only [commandFacts, hfind, hpublished, Option.isNone_none]; rfl)
    ((((common_late h).set (by decide)).set (by decide)).set (by decide))]
  simp only [apply, openDispute, result_bind, result_okOr_some, result_okOr_none, error_bind,
    ok_bind, hpublished, BondCommand.wrongPhase, BondCommand.isZero, Bool.false_eq_true, decideFacts, commonFacts,
    Facts.set, Facts.none, reduceCtorEq, if_true, if_false, absent, hfind, Option.isNone_some, retained_eq]

/-- an opened dispute is judged as its law says, unless its window is masked -/
theorem openDispute_agrees (hsound : s.Sound context.capacity)
    (h : Passed timing context s (.openDispute id target))
    (hmask : ¬ windowMasked timing d context s (.openDispute id target)) :
    (decided timing d economy context s (.openDispute id target)).result =
      lawful timing d economy context s (.openDispute id target) free := by
  cases hlast : lastMatch s.liabilities fun l => decide (l.id = target) with
  | none => exact missing_agrees hsound h rfl hlast
  | some i =>
    cases hpublished : s.liabilities[i].publication with
    | none => exact openDispute_unpublished hsound h hlast hpublished
    | some published =>
      obtain ⟨hdecided, hlawful⟩ := openDispute_decided (d := d) economy free hsound h hlast
        hpublished
      rw [hdecided, hlawful]
      by_cases hexists : BondCommand.alreadyExists s (.openDispute id target) = true
      · simp only [disputeEarly, hexists, Bool.true_or, Bool.not_true, windowClosed, Bool.false_eq_true, if_false,
          pure_eq, mapError_ok, ok_bind, if_true]
      by_cases hbalance : balanceOf s.wallets context.actor < d.challengeBond
      · simp only [disputeEarly, hbalance, decide_true, Bool.or_true, Bool.not_true, windowClosed, Bool.false_eq_true,
          if_false, pure_eq, mapError_ok, ok_bind, if_true]
      have hearly : disputeEarly d context s (.openDispute id target) = false := by
        simp [disputeEarly, hexists, hbalance]
      simp only [hearly, Bool.not_false, windowClosed, if_true, if_neg hexists, if_neg hbalance]
      cases hbound : published.checkedAdd timing.disputeOpen with
      | none =>
        -- the overflow masks nothing, since the clock is past the publication
        have hnow : ¬ context.clock.epoch < published := by
          intro hnow
          refine hmask ⟨by simpa using hexists, s.liabilities[i], published, ?_, hpublished, not_lt.1 hbalance, hnow,
            hbound⟩
          rw [find_eq_lastMatch hsound.liabilityIds, hlast, Option.map_some]
        simp only [if_neg hnow, okOr, error_bind, mapError_error]
      | some bound =>
        by_cases hnow : context.clock.epoch < published
        · simp only [hnow, true_or, if_true, pure_eq, mapError_ok, ok_bind]
        · simp only [hnow, false_or, if_false, okOr, ok_bind, pure_eq, mapError_ok, decide_eq_true_eq]

variable (economy free) in
/-- a masked dispute fails in arithmetic where its law refuses it -/
theorem openDispute_masked (hsound : s.Sound context.capacity)
    (h : Passed timing context s (.openDispute id target))
    (hmask : windowMasked timing d context s (.openDispute id target)) :
    (decided timing d economy context s (.openDispute id target)).result = .error (.fail .arithmetic) ∧
      lawful timing d economy context s (.openDispute id target) free = .error (.refuse .windowClosed) := by
  obtain ⟨hexists, l, published, hfind, hpublished, hbalance, hnow, hbound⟩ := hmask
  cases hlast : lastMatch s.liabilities fun l => decide (l.id = target) with
  | none =>
    rw [find_eq_lastMatch hsound.liabilityIds, hlast] at hfind
    cases hfind
  | some i =>
    rw [find_eq_lastMatch hsound.liabilityIds, hlast, Option.map_some, Option.some.injEq] at hfind
    rw [← hfind] at hpublished
    obtain ⟨hdecided, hlawful⟩ := openDispute_decided (d := d) economy free hsound h hlast
      hpublished
    have hearly : disputeEarly d context s (.openDispute id target) = false := by
      simp [disputeEarly, hexists, hbalance]
    rw [hdecided, hlawful]
    simp only [hearly, hexists, if_neg (not_lt.2 hbalance), hbound, Bool.not_false, windowClosed, if_true, if_pos hnow,
      Bool.false_eq_true, if_false, pure_eq, mapError_ok, ok_bind, and_self]

end OpenDispute

section Penalties

variable {id : Hash} {verdict : FinalVerdict} {resolution : Verdict}

variable (id) in
theorem dispute_eq (hsound : s.Sound context.capacity) :
    s.disputes.find? (fun x => x.id = id) = (lastMatch s.disputes fun x => x.id = id).map
      fun i => getElem s.disputes i (s.dispute_lt i) :=
  find_eq_lastMatch hsound.disputeIds

theorem pay_disputes (s : BondState) (xs : List Dispute) (r : EscrowRecipient) (challenger treasury : Id)
    (amount : U128) : Oracle.pay { s with disputes := xs } r challenger treasury amount =
      (Oracle.pay s r challenger treasury amount).map fun out => { out with disputes := xs } := by
  have hmap : ∀ {α : Type} (x : Except Failure α) (f g : α → BondState), (∀ a, f a = { g a with disputes := xs }) →
      x.map f = (x.map g).map fun out => { out with disputes := xs } := by
    intro α x f g hfg
    cases x with
    | error e => rfl
    | ok a => simp only [Except.map, hfg]
  cases r <;> exact hmap _ _ _ fun a => rfl

theorem dispute_missing (h : Passed timing context s c) (hc : c.target = none)
    (hexists : c.alreadyExists s = false) (hphase : c.wrongPhase s = false) (hzero : c.isZero = false)
    (hfacts : commandFacts timing d s context.actor context.clock free
      (commonFacts s context.actor context.nonce c context.clock) c =
        .ok (commonFacts s context.actor context.nonce c context.clock)) (habsent : absent s c = true)
    (happly : (apply timing d economy context.actor context.clock.epoch context.capacity s none c).result =
      .error (.refuse .unknownReference)) :
    (decided timing d economy context s c).result = lawful timing d economy context s c free := by
  rw [decided_untargeted hc, lawful_eq hfacts (common_late h)]
  simp only [hexists, hphase, hzero, happly, Bool.false_eq_true, if_false, decideFacts, commonFacts, Facts.set,
    reduceCtorEq, if_true, habsent]

theorem violation_iff (hsound : s.Sound context.capacity) {x : Dispute} (hx : x ∈ s.disputes) :
    x.violation.isSome = x.slashVerdict.isSome := by
  have hconsistent := consistent_iff.1 (hsound.disputes x hx).consistent
  by_cases hslash : x.slash = .zero
  · obtain ⟨hviolation, hverdict⟩ := hconsistent.unpunished hslash
    rw [hviolation, hverdict]
    rfl
  · obtain ⟨v, hverdict, _, hviolation⟩ := hconsistent.punished hslash
    rw [hviolation, hverdict]
    rfl

/-- a slash is judged as its law says -/
theorem slash_agrees (hsound : s.Sound context.capacity) (h : Passed timing context s (.slash id verdict)) :
    (decided timing d economy context s (.slash id verdict)).result =
      lawful timing d economy context s (.slash id verdict) free := by
  have hfind := dispute_eq id hsound
  cases hlast : lastMatch s.disputes fun x => decide (x.id = id) with
  | none =>
    rw [hlast, Option.map_none] at hfind
    have hdispute : dispute s (.slash id verdict) = none := hfind
    refine dispute_missing h rfl rfl rfl rfl ?_ ?_ ?_
    · simp only [commandFacts, hdispute, pure_eq]
    · simp only [absent, hdispute, Option.isNone_none]
    · simp only [apply, slash, result_bind, result_arm, result_position, hlast, mapError_ok, ok_bind,
        result_okOr_none, error_bind]
  | some i =>
    rw [hlast, Option.map_some] at hfind
    have hdispute : dispute s (.slash id verdict) = some s.disputes[i] := hfind
    -- the liability of a retained dispute is retained
    obtain ⟨l, hl, hlid⟩ := (hsound.disputes _ (List.getElem_mem i.2)).target
    have hlfind := find_eq_lastMatch (k := s.disputes[i].liability) hsound.liabilityIds
    cases hj : lastMatch s.liabilities fun l => decide (l.id = s.disputes[i].liability) with
    | none =>
      have := lastMatch_none.1 hj l hl
      simp [hlid] at this
    | some j =>
      rw [hj, Option.map_some] at hlfind
      have hviolation : s.disputes[i].violation.isSome = s.disputes[i].slashVerdict.isSome :=
        violation_iff hsound (List.getElem_mem i.2)
      have hpay := pay_disputes
        { s with
          held := s.held.sub d.slash
          liabilities := s.liabilities.set j { s.liabilities[j] with locked := s.liabilities[j].locked.sub d.slash } }
        (s.disputes.set i { s.disputes[i] with
          slash := d.slash, violation := some verdict.violation, slashVerdict := some verdict })
        d.slashRecipient s.disputes[i].challenger d.treasury d.slash
      rw [decided_untargeted rfl, lawful_eq (by simp only [commandFacts, hdispute, hlfind, okOr, ok_bind, pure_eq]; rfl)
        (((((common_late h).set (by decide)).set (by decide)).set (by decide)).set (by decide))]
      simp only [apply, slash, result_bind, result_arm, result_position, hlast, hj, mapError_ok, ok_bind,
        result_okOr_some, result_refuseIf, ite_error_bind, result_lift, result_pure,
        BondCommand.alreadyExists, BondCommand.wrongPhase, BondCommand.isZero, Bool.false_eq_true, if_false,
        decideFacts, commonFacts, Facts.set, Facts.none, reduceCtorEq, if_true, absent, hdispute, Option.isNone_some,
        retained_eq, nothing_eq, fullFact, decide_eq_true_eq, Bool.or_eq_true, Bool.not_eq_true', Bool.not_eq_true,
        hviolation, verdict_eq, successor, hfind, okOr,
        updateFirst_lastMatch hsound.disputeIds hlast, updateFirst_lastMatch hsound.liabilityIds hj, pay_eq]
      rw [hpay]
      cases Oracle.pay _ d.slashRecipient s.disputes[i].challenger d.treasury d.slash <;> rfl

/-- a resolution is judged as its law says -/
theorem resolve_agrees (hsound : s.Sound context.capacity) (h : Passed timing context s (.resolve id resolution)) :
    (decided timing d economy context s (.resolve id resolution)).result =
      lawful timing d economy context s (.resolve id resolution) free := by
  have hfind := dispute_eq id hsound
  cases hlast : lastMatch s.disputes fun x => decide (x.id = id) with
  | none =>
    rw [hlast, Option.map_none] at hfind
    have hdispute : dispute s (.resolve id resolution) = none := hfind
    refine dispute_missing h rfl rfl rfl rfl ?_ ?_ ?_
    · simp only [commandFacts, hdispute, pure_eq]
    · simp only [absent, hdispute, Option.isNone_none]
    · simp only [apply, resolve, result_bind, result_arm, result_position, hlast, mapError_ok, ok_bind,
        result_okOr_none, error_bind]
  | some i =>
    rw [hlast, Option.map_some] at hfind
    have hdispute : dispute s (.resolve id resolution) = some s.disputes[i] := hfind
    cases resolution with
    | inconclusive =>
      rw [decided_untargeted rfl, lawful_eq (by simp only [commandFacts, hdispute, pure_eq]; rfl)
        ((common_late h).set (by decide))]
      simp only [apply, resolve, result_bind, result_arm, result_position, hlast, mapError_ok, ok_bind,
        result_okOr_some, result_refuseIf, ite_error_bind, result_pure,
        BondCommand.alreadyExists, BondCommand.wrongPhase, BondCommand.isZero, Bool.false_eq_true, if_false,
        decideFacts, commonFacts, Facts.set, Facts.none, reduceCtorEq, if_true, absent, hdispute, Option.isNone_some,
        retained_eq, nothing_eq, fullFact, decide_eq_true_eq, successor, pure_eq]
    | final v =>
      rw [decided_untargeted rfl, lawful_eq (by simp only [commandFacts, hdispute, pure_eq]; rfl)
        ((((common_late h).set (by decide)).set (by decide)).set (by decide))]
      simp only [apply, resolve, result_bind, result_arm, result_position, hlast, mapError_ok, ok_bind,
        result_okOr_some, result_refuseIf, ite_error_bind, result_lift, result_pure,
        BondCommand.alreadyExists, BondCommand.wrongPhase, BondCommand.isZero, Bool.false_eq_true, if_false,
        decideFacts, commonFacts, Facts.set, Facts.none, reduceCtorEq, if_true, absent, hdispute, Option.isNone_some,
        retained_eq, nothing_eq, fullFact, decide_eq_true_eq, Bool.or_eq_true, Bool.not_eq_true', Bool.not_eq_true,
        verdict_eq, successor, hfind, okOr, mapError_bind, pay_eq, pure_eq, Bool.and_eq_true, mapError_ok]
      have hrest : ∀ out, Oracle.pay s (if v.upheld then d.upheldBondRecipient else d.rejectedBondRecipient)
          s.disputes[i].challenger d.treasury s.disputes[i].escrow = .ok out → out.disputes = s.disputes := by
        intro out hout
        obtain ⟨wallets, burned, rfl, -⟩ := pay_ok hout
        rfl
      cases hpay : Oracle.pay s (if v.upheld then d.upheldBondRecipient else d.rejectedBondRecipient)
          s.disputes[i].challenger d.treasury s.disputes[i].escrow with
      | error e =>
        simp only [mapError_error, error_bind]
        cases v.upheld <;> simp [ite_or]
      | ok out =>
        simp only [mapError_ok, ok_bind, hrest out hpay, updateFirst_lastMatch hsound.disputeIds hlast]
        cases v.upheld <;> simp [ite_or]

end Penalties

end Arms

end ZenoFcis.Oracle
