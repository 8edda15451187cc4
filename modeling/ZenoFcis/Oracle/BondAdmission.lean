/-
When the law reference accepts a command past the guards, arm by arm: the condition of each command on the state, the
policy and the clock before it, which is all that the successor asks for.
-/
import ZenoFcis.Oracle.BondAgreement

namespace ZenoFcis.Oracle

open Lib Lib.Except BondLaws

/-- the part of the held bond that no liability locks -/
def freeBond (s : BondState) : U128 :=
  ⟨s.held.val - lockedSum s.liabilities, (Nat.sub_le _ _).trans_lt s.held.fits⟩

/-- a payment that its recipient has room for -/
def payable (s : BondState) (recipient : EscrowRecipient) (challenger treasury : Id) (amount : U128) : Prop :=
  match recipient with
  | .challenger => (balanceOf s.wallets challenger).val + amount.val < 2 ^ 128
  | .reporterOwner => (balanceOf s.wallets s.owner).val + amount.val < 2 ^ 128
  | .treasury => (balanceOf s.wallets treasury).val + amount.val < 2 ^ 128
  | .burn => s.burned.val + amount.val < 2 ^ 128

/-- the condition of a command that passed the guards -/
def admitted (timing : ClockParameters) (d : DisputeParameters) (economy : EconomicParameters) (context : AccountContext)
    (s : BondState) : BondCommand → Prop
  | .deposit amount => s.phase ≠ .retired ∧ amount ≠ .zero ∧ amount ≤ balanceOf s.wallets context.actor ∧
    s.held.val + amount.val < 2 ^ 128
  | .reserve id report feed => (∀ l ∈ s.liabilities, l.id ≠ id) ∧ s.phase = .active ∧
    lockedSum s.liabilities + d.minimumBond.val ≤ s.held.val ∧ s.liabilities.length < context.capacity.val ∧
    (id ≠ .zero ∧ report ≠ .zero ∧ feed ≠ .zero) ∧
    context.clock.epoch.val + timing.maxAge.val + economy.window.val < 2 ^ 64
  | .recordPublication id aggregate => ∃ l ∈ s.liabilities, l.id = id ∧ l.publication = none ∧ l.cleared = false ∧
    aggregate.selects l.report ∧ aggregate.feed = l.feed ∧
    context.clock.epoch.val + (max timing.confirmation timing.disputeOpen).val + d.finalityDelay.val +
      d.appealDelay.val < 2 ^ 64
  | .unregister => s.phase = .active
  | .clear id => ∃ l ∈ s.liabilities, l.id = id ∧ l.cleared = false ∧ l.clearAfter ≤ context.clock.epoch ∧
    l.exposureUntil ≤ context.clock.epoch ∧ ∀ x ∈ s.disputes, x.liability = id → x.phase ≠ .open
  | .withdraw amount => s.phase ≠ .active ∧ amount ≠ .zero ∧ lockedSum s.liabilities + amount.val ≤ s.held.val ∧
    (∃ exit ∈ s.exitEpoch, exit.val + d.exitDelay.val ≤ context.clock.epoch.val) ∧
    (∀ x ∈ s.disputes, x.phase ≠ .open) ∧ (balanceOf s.wallets context.actor).val + amount.val < 2 ^ 128
  | .openDispute id target => (∀ x ∈ s.disputes, x.id ≠ id) ∧
    (∃ l ∈ s.liabilities, l.id = target ∧ l.cleared = false ∧ ∃ published ∈ l.publication,
      published ≤ context.clock.epoch ∧ context.clock.epoch.val < published.val + timing.disputeOpen.val ∧
      published.val + timing.disputeOpen.val < 2 ^ 64) ∧
    d.challengeBond ≤ balanceOf s.wallets context.actor ∧ s.disputes.length < context.capacity.val
  | .slash id v => ∃ x ∈ s.disputes, x.id = id ∧ x.phase = .open ∧
    (∃ l ∈ s.liabilities, l.id = x.liability ∧ d.slash ≤ l.locked) ∧ validVerdict d x v context.clock.epoch ∧ v.upheld ∧
    x.violation = none ∧ (∀ other ∈ s.disputes, other.violation ≠ some v.violation) ∧
    payable s d.slashRecipient x.challenger d.treasury d.slash
  | .resolve id .inconclusive => ∃ x ∈ s.disputes, x.id = id ∧ x.phase = .open
  | .resolve id (.final v) => ∃ x ∈ s.disputes, x.id = id ∧ x.phase = .open ∧ validVerdict d x v context.clock.epoch ∧
    (v.upheld = true → x.slash = d.slash ∧ x.violation = some v.violation) ∧ (v.upheld = false → x.slash = .zero) ∧
    payable s (if v.upheld then d.upheldBondRecipient else d.rejectedBondRecipient) x.challenger d.treasury x.escrow

/-! ## Lookups, sums and payments -/

section Parts

variable {α κ : Type} [DecidableEq κ] {key : α → κ} {xs : List α}

/-- where keys are unique, the row of a key is the first one found -/
theorem exists_row (h : (xs.map key).Nodup) (k : κ) (P : α → Prop) :
    (∃ x ∈ xs, key x = k ∧ P x) ↔ ∃ x, xs.find? (fun x => key x = k) = some x ∧ P x := by
  constructor
  · rintro ⟨x, hx, hk, hP⟩
    refine ⟨x, ?_, hP⟩
    obtain ⟨y, hy⟩ := Option.isSome_iff_exists.1
      ((List.find?_isSome (p := fun x => decide (key x = k))).2 ⟨x, hx, decide_eq_true hk⟩)
    have hkey : key y = k := of_decide_eq_true (List.find?_some (p := fun x => decide (key x = k)) hy)
    rw [hy, List.inj_on_of_nodup_map h (List.mem_of_find?_eq_some hy) hx (hkey.trans hk.symm)]
  · rintro ⟨x, hfind, hP⟩
    exact ⟨x, List.mem_of_find?_eq_some hfind,
      of_decide_eq_true (List.find?_some (p := fun x => decide (key x = k)) hfind), hP⟩

/-- a checked sum exists while it is in range -/
theorem checkedAdd_isSome {w : ℕ} {a b : Unsigned w} : (∃ c, a.checkedAdd b = some c) ↔ a.val + b.val < 2 ^ w := by
  constructor
  · rintro ⟨c, hc⟩
    rw [← Unsigned.checkedAdd_eq_some.1 hc]
    exact c.fits
  · intro h
    exact ⟨⟨a.val + b.val, h⟩, Unsigned.checkedAdd_eq_some.2 rfl⟩

/-- the same for a sum of three -/
theorem checkedSum_isSome {w : ℕ} {a b c : Unsigned w} :
    (∃ sum, ((a.checkedAdd b).bind fun v => v.checkedAdd c) = some sum) ↔ a.val + b.val + c.val < 2 ^ w := by
  constructor
  · rintro ⟨sum, hsum⟩
    obtain ⟨v, hv, hc⟩ := Option.bind_eq_some_iff.1 hsum
    rw [← Unsigned.checkedAdd_eq_some.1 hv, ← Unsigned.checkedAdd_eq_some.1 hc]
    exact sum.fits
  · intro h
    obtain ⟨v, hv⟩ := checkedAdd_isSome.2 ((Nat.le_add_right _ c.val).trans_lt h)
    rw [hv]
    refine checkedAdd_isSome.2 ?_
    rw [Unsigned.checkedAdd_eq_some.1 hv]
    exact h

/-- and for a sum of four -/
theorem checkedTotal_isSome {w : ℕ} {a b c d : Unsigned w} :
    (∃ sum, ((a.checkedAdd b).bind fun v => (v.checkedAdd c).bind fun x => x.checkedAdd d) = some sum) ↔
      a.val + b.val + c.val + d.val < 2 ^ w := by
  cases hv : a.checkedAdd b with
  | none =>
    have hlarge : ¬ a.val + b.val < 2 ^ w := fun h => by simpa [hv] using checkedAdd_isSome.2 h
    refine iff_of_false (by simp) ?_
    omega
  | some v =>
    rw [Option.bind_some, checkedSum_isSome, Unsigned.checkedAdd_eq_some.1 hv]

variable {s : BondState} {recipient : EscrowRecipient} {challenger treasury : Id} {amount : U128}

theorem credit_accepts {wallets : OrdMap Id ZdexE18} {id : Id} :
    (∃ out, BondLaws.credit wallets id amount = .ok out) ↔ (balanceOf wallets id).val + amount.val < 2 ^ 128 := by
  rw [← checkedAdd_isSome]
  unfold BondLaws.credit BondLaws.add
  cases (balanceOf wallets id).checkedAdd amount <;> simp [okOr, ok_bind, error_bind, pure_eq]

theorem pay_accepts : (∃ out, BondLaws.pay s recipient challenger treasury amount = .ok out) ↔
    payable s recipient challenger treasury amount := by
  have hcredit : ∀ id, (∃ out, (BondLaws.credit s.wallets id amount >>= fun wallets =>
      pure { s with wallets := wallets }) = .ok out) ↔ (balanceOf s.wallets id).val + amount.val < 2 ^ 128 := by
    intro id
    rw [← credit_accepts]
    cases BondLaws.credit s.wallets id amount <;> simp [ok_bind, error_bind, pure_eq]
  cases recipient with
  | burn =>
    change _ ↔ s.burned.val + amount.val < 2 ^ 128
    rw [← checkedAdd_isSome]
    unfold BondLaws.pay BondLaws.add
    cases s.burned.checkedAdd amount <;> simp [okOr, ok_bind, error_bind, pure_eq]
  | challenger => exact hcredit _
  | reporterOwner => exact hcredit _
  | treasury => exact hcredit _

end Parts

/-! ## Acceptance -/

section Arms

variable {timing : ClockParameters} {d : DisputeParameters} {economy : EconomicParameters} {context : AccountContext}
  {s mid : BondState} {c : BondCommand} {free : U128}

/-- a lawful move passes every fact and is the successor of its command -/
theorem lawful_ok : lawful timing d economy context s c free = .ok mid ↔
    (∃ f, commandFacts timing d s context.actor context.clock free
      (commonFacts s context.actor context.nonce c context.clock) c = .ok f ∧
        (f.set .full (fullFact s context.capacity c)).first = none) ∧
      successor timing d economy s context.actor c context.clock = .ok mid := by
  unfold lawful
  rw [bind_eq_ok]
  simp only [mapError_eq_ok]
  constructor
  · rintro ⟨f, hf, h⟩
    cases hfirst : (f.set .full (fullFact s context.capacity c)).first with
    | some r =>
      rw [hfirst] at h
      cases h
    | none =>
      rw [hfirst] at h
      exact ⟨⟨f, hf, hfirst⟩, mapError_eq_ok.1 h⟩
  · rintro ⟨⟨f, hf, hfirst⟩, h⟩
    refine ⟨f, hf, ?_⟩
    rw [hfirst]
    exact mapError_eq_ok.2 h

/-- acceptance is late: the facts after the clock are all false and the successor exists -/
theorem lawful_accepts {f : Facts} (hf : commandFacts timing d s context.actor context.clock free
      (commonFacts s context.actor context.nonce c context.clock) c = .ok f) (hlate : f.Late) :
    (∃ mid, lawful timing d economy context s c free = .ok mid) ↔
      (∀ r ∈ lateReasons, f.set .full (fullFact s context.capacity c) r = false) ∧
        ∃ mid, successor timing d economy s context.actor c context.clock = .ok mid := by
  have hfirst : (f.set .full (fullFact s context.capacity c)).first = none ↔
      ∀ r ∈ lateReasons, f.set .full (fullFact s context.capacity c) r = false := by
    rw [first_eq_find (l := lateReasons) (by decide) (hlate.set (by decide)), List.find?_eq_none]
    simp only [Bool.not_eq_true]
  simp only [lawful_ok, hf, Except.ok.injEq, exists_eq_left', hfirst, exists_and_left]

theorem deposit_accepts {amount : U128} (h : Passed timing context s (.deposit amount)) :
    (∃ mid, lawful timing d economy context s (.deposit amount) free = .ok mid) ↔
      admitted timing d economy context s (.deposit amount) := by
  rw [lawful_accepts rfl ((common_late h).set (by decide))]
  have hsum : (∃ mid, successor timing d economy s context.actor (.deposit amount) context.clock = .ok mid) ↔
      s.held.val + amount.val < 2 ^ 128 := by
    rw [← checkedAdd_isSome]
    simp only [successor, BondLaws.add]
    cases s.held.checkedAdd amount <;> simp [okOr, ok_bind, error_bind, pure_eq]
  rw [hsum]
  simp [lateReasons, commonFacts, Facts.set, Facts.none, absent, retained, misplaced, nothing, fullFact,
    admitted, and_assoc]

/-- the free bond covers an amount when the held bond covers it besides what is locked -/
theorem not_free_less (hcovered : lockedSum s.liabilities ≤ s.held.val) {amount : U128} :
    ¬ freeBond s < amount ↔ lockedSum s.liabilities + amount.val ≤ s.held.val := by
  rw [Unsigned.lt_def, freeBond]
  dsimp only
  omega

theorem reserve_accepts {id report feed : Hash} (hsound : s.Sound context.capacity)
    (h : Passed timing context s (.reserve id report feed)) :
    (∃ mid, lawful timing d economy context s (.reserve id report feed) (freeBond s) = .ok mid) ↔
      admitted timing d economy context s (.reserve id report feed) := by
  rw [lawful_accepts rfl ((common_late h).set (by decide))]
  have hend : (∃ mid, successor timing d economy s context.actor (.reserve id report feed) context.clock = .ok mid) ↔
      (id ≠ .zero ∧ report ≠ .zero ∧ feed ≠ .zero) ∧
        context.clock.epoch.val + timing.maxAge.val + economy.window.val < 2 ^ 64 := by
    by_cases hzero : id = .zero ∨ report = .zero ∨ feed = .zero
    · have hnot : ¬ (id ≠ .zero ∧ report ≠ .zero ∧ feed ≠ .zero) := by tauto
      simp [successor, ensure, hzero, hnot, error_bind]
    · have hids : id ≠ .zero ∧ report ≠ .zero ∧ feed ≠ .zero := by tauto
      rw [and_iff_right hids, ← checkedSum_isSome]
      simp only [successor, ensure, if_pos hzero, ok_bind]
      cases (context.clock.epoch.checkedAdd timing.maxAge).bind fun v => v.checkedAdd economy.window <;>
        simp [okOr, ok_bind, error_bind, pure_eq]
  rw [hend]
  simp [lateReasons, commonFacts, Facts.set, Facts.none, absent, retained, misplaced, nothing, fullFact, admitted,
    and_assoc, ← not_free_less hsound.covered]

theorem unregister_accepts (h : Passed timing context s .unregister) :
    (∃ mid, lawful timing d economy context s .unregister free = .ok mid) ↔
      admitted timing d economy context s .unregister := by
  rw [lawful_accepts rfl (common_late h)]
  simp [lateReasons, commonFacts, Facts.set, Facts.none, absent, retained, misplaced, nothing, fullFact, admitted,
    successor, pure_eq]

/-- a command that names no retained record is not accepted -/
theorem absent_refused {c : BondCommand} (h : Passed timing context s c) (habsent : absent s c = true)
    (hfacts : commandFacts timing d s context.actor context.clock free
      (commonFacts s context.actor context.nonce c context.clock) c =
        .ok (commonFacts s context.actor context.nonce c context.clock)) :
    ¬ ∃ mid, lawful timing d economy context s c free = .ok mid := by
  rw [lawful_accepts hfacts (common_late h)]
  rintro ⟨hfalse, -⟩
  have hfact := hfalse .unknownReference (by decide)
  simp [commonFacts, Facts.set, habsent] at hfact

/-- a row that is found is updated -/
theorem updateFirst_isSome {α : Type} {p : α → Bool} {f : α → α} {xs : List α} {x : α} (h : xs.find? p = some x) :
    ∃ ys, updateFirst p f xs = some ys := by
  induction xs with
  | nil => cases h
  | cons y xs ih =>
    unfold updateFirst
    by_cases hy : p y = true
    · exact ⟨_, if_pos hy⟩
    · rw [List.find?_cons_of_neg hy] at h
      obtain ⟨ys, hys⟩ := ih h
      rw [if_neg hy, hys]
      exact ⟨_, rfl⟩

theorem clear_accepts {id : Hash} (hsound : s.Sound context.capacity) (h : Passed timing context s (.clear id)) :
    (∃ mid, lawful timing d economy context s (.clear id) free = .ok mid) ↔
      admitted timing d economy context s (.clear id) := by
  rw [admitted, exists_row hsound.liabilityIds]
  cases hfind : s.liabilities.find? fun l => decide (l.id = id) with
  | none =>
    have hnone : liability s (.clear id) = none := hfind
    refine iff_of_false (absent_refused h ?_ ?_) (by simp)
    · simp only [absent, hnone, Option.isNone_none]
    · simp only [commandFacts, hnone, pure_eq]
  | some l =>
    have hsome : liability s (.clear id) = some l := hfind
    have hid : l.id = id := by simpa using List.find?_some hfind
    obtain ⟨rows, hrows⟩ := updateFirst_isSome
      (f := fun row : Liability => { row with locked := .zero, cleared := true }) hfind
    rw [lawful_accepts (by simp only [commandFacts, hsome, pure_eq]; rfl)
      (((common_late h).set (by decide)).set (by decide))]
    simp [lateReasons, commonFacts, Facts.set, Facts.none, absent, hsome, retained, misplaced, nothing, fullFact,
      successor, hrows, okOr, ok_bind, pure_eq, hid, and_assoc]

theorem recordPublication_accepts {id : Hash} {aggregate : Aggregate} (hsound : s.Sound context.capacity)
    (h : Passed timing context s (.recordPublication id aggregate)) :
    (∃ mid, lawful timing d economy context s (.recordPublication id aggregate) free = .ok mid) ↔
      admitted timing d economy context s (.recordPublication id aggregate) := by
  rw [admitted, exists_row hsound.liabilityIds]
  cases hfind : s.liabilities.find? fun l => decide (l.id = id) with
  | none =>
    have hnone : liability s (.recordPublication id aggregate) = none := hfind
    refine iff_of_false (absent_refused h ?_ ?_) (by simp)
    · simp only [absent, hnone, Option.isNone_none]
    · simp only [commandFacts, hnone, pure_eq]
  | some l =>
    have hsome : liability s (.recordPublication id aggregate) = some l := hfind
    rw [lawful_accepts (by simp only [commandFacts, hsome, pure_eq]; rfl)
      (((common_late h).set (by decide)).set (by decide))]
    have hend : (∃ mid, successor timing d economy s context.actor (.recordPublication id aggregate) context.clock =
        .ok mid) ↔ context.clock.epoch.val + (max timing.confirmation timing.disputeOpen).val + d.finalityDelay.val +
          d.appealDelay.val < 2 ^ 64 := by
      rw [← checkedTotal_isSome]
      have hrows := fun v : U64 => updateFirst_isSome (f := fun row : Liability =>
        { row with publication := some context.clock.epoch, clearAfter := max row.clearAfter v }) hfind
      simp only [successor]
      cases (context.clock.epoch.checkedAdd (max timing.confirmation timing.disputeOpen)).bind fun v =>
          (v.checkedAdd d.finalityDelay).bind fun x => x.checkedAdd d.appealDelay with
      | none => simp [okOr, error_bind]
      | some bound =>
        obtain ⟨rows, hrows⟩ := hrows bound
        simp [okOr, ok_bind, pure_eq, hrows]
    rw [hend]
    simp [lateReasons, commonFacts, Facts.set, Facts.none, absent, hsome, retained, misplaced, nothing, fullFact,
      and_assoc]

theorem withdraw_accepts {amount : U128} (hsound : s.Sound context.capacity)
    (h : Passed timing context s (.withdraw amount)) :
    (∃ mid, lawful timing d economy context s (.withdraw amount) (freeBond s) = .ok mid) ↔
      admitted timing d economy context s (.withdraw amount) := by
  rw [admitted]
  cases hexit : s.exitEpoch with
  | none =>
    -- no exit was requested, so the reporter is active
    have hactive : s.phase = .active := hsound.exit.2 hexit
    rw [lawful_accepts (by simp only [commandFacts, hexit, pure_eq]; rfl) ((common_late h).set (by decide))]
    simp [lateReasons, commonFacts, Facts.set, Facts.none, misplaced, hactive]
  | some exit =>
    have hfacts := withdraw_facts (d := d) (freeBond s) h hexit
    have hcredit : (∃ mid, successor timing d economy s context.actor (.withdraw amount) context.clock = .ok mid) ↔
        (balanceOf s.wallets context.actor).val + amount.val < 2 ^ 128 := by
      rw [← credit_accepts]
      simp only [successor]
      cases BondLaws.credit s.wallets context.actor amount <;> simp [ok_bind, error_bind, pure_eq]
    cases hearly : withdrawEarly s amount (freeBond s) with
    | true =>
      -- an earlier refusal holds, and the exit delay is not looked at
      rw [hearly] at hfacts
      rw [lawful_accepts hfacts (((common_late h).set (by decide)).set (by decide))]
      simp only [withdrawEarly, Bool.or_eq_true, decide_eq_true_eq] at hearly
      have hfree := @not_free_less s hsound.covered amount
      refine iff_of_false ?_ ?_
      · rintro ⟨hfalse, -⟩
        have hphase : decide (s.phase = .active) = false := hfalse .wrongPhase (by decide)
        have hzero : decide (amount = .zero) = false := hfalse .zeroAmountOrPrice (by decide)
        have hbond : decide (freeBond s < amount) = false := hfalse .insufficientBond (by decide)
        simp only [decide_eq_false_iff_not] at hphase hzero hbond
        tauto
      · tauto
    | false =>
      rw [hearly] at hfacts
      simp only [withdrawEarly, Bool.or_eq_false_iff, decide_eq_false_iff_not] at hearly
      obtain ⟨⟨hphase, hzero⟩, hbond⟩ := hearly
      cases hbound : exit.checkedAdd d.exitDelay with
      | none =>
        have hlarge : ¬ exit.val + d.exitDelay.val < 2 ^ 64 := fun h => by simpa [hbound] using checkedAdd_isSome.2 h
        have hnow := context.clock.epoch.fits
        have hfail : exitLocked d s context.clock exit true = .error .arithmetic := by
          simp only [exitLocked, hbound, okOr, if_true, error_bind]
        rw [Bool.not_false, hfail] at hfacts
        refine iff_of_false ?_ ?_
        · rintro ⟨mid, hmid⟩
          obtain ⟨⟨f, hf, -⟩, -⟩ := lawful_ok.1 hmid
          rw [hfacts] at hf
          cases hf
        · rintro ⟨-, -, -, ⟨exit', hexit', hdelay⟩, -⟩
          obtain rfl := Option.mem_some.1 hexit'
          omega
      | some bound =>
        have hsum := Unsigned.checkedAdd_eq_some.1 hbound
        have hexitLocked : exitLocked d s context.clock exit true =
            .ok (decide (context.clock.epoch < bound) || s.disputes.any fun x => x.phase = .open) := by
          simp only [exitLocked, hbound, okOr, if_true, ok_bind, pure_eq]
        rw [Bool.not_false, hexitLocked] at hfacts
        rw [lawful_accepts hfacts (((common_late h).set (by decide)).set (by decide)), hcredit]
        simp [lateReasons, commonFacts, Facts.set, Facts.none, absent, retained, misplaced, nothing, fullFact, hphase,
          hzero, hbond, (not_free_less hsound.covered).1 hbond, and_assoc, ← hsum, Unsigned.le_def]

theorem openDispute_accepts {id target : Hash} (hsound : s.Sound context.capacity)
    (h : Passed timing context s (.openDispute id target)) :
    (∃ mid, lawful timing d economy context s (.openDispute id target) free = .ok mid) ↔
      admitted timing d economy context s (.openDispute id target) := by
  rw [admitted, exists_row hsound.liabilityIds]
  cases hlast : lastMatch s.liabilities fun l => decide (l.id = target) with
  | none =>
    have hfind := find_eq_lastMatch (k := target) hsound.liabilityIds
    rw [hlast, Option.map_none] at hfind
    have hnone : liability s (.openDispute id target) = none := hfind
    rw [hfind]
    refine iff_of_false (absent_refused h ?_ ?_) (by simp)
    · simp only [absent, hnone, Option.isNone_none]
    · simp only [commandFacts, hnone, pure_eq]
  | some i =>
    have hfind := find_eq_lastMatch (k := target) hsound.liabilityIds
    rw [hlast, Option.map_some] at hfind
    have hsome : liability s (.openDispute id target) = some s.liabilities[i] := hfind
    rw [hfind]
    simp only [Option.some.injEq, exists_eq_left']
    cases hpublished : s.liabilities[i].publication with
    | none =>
      rw [lawful_accepts (by simp only [commandFacts, hsome, hpublished, Option.isNone_none]; rfl)
        ((((common_late h).set (by decide)).set (by decide)).set (by decide))]
      refine iff_of_false ?_ (by simp)
      rintro ⟨hfalse, -⟩
      cases hfalse .wrongPhase (by decide)
    | some published =>
      rw [(openDispute_decided (d := d) economy free hsound h hlast hpublished).2]
      have hfresh : (∀ x ∈ s.disputes, x.id ≠ id) ↔ ¬ BondCommand.alreadyExists s (.openDispute id target) = true := by
        simp [BondCommand.alreadyExists]
      rw [hfresh]
      by_cases hexists : BondCommand.alreadyExists s (.openDispute id target) = true
      · simp [disputeEarly, hexists, windowClosed, pure_eq, mapError_ok, ok_bind]
      by_cases hbalance : balanceOf s.wallets context.actor < d.challengeBond
      · simp [disputeEarly, hbalance, hexists, windowClosed, pure_eq, mapError_ok, ok_bind, not_le.2 hbalance]
      have hearly : disputeEarly d context s (.openDispute id target) = false := by
        simp [disputeEarly, hexists, hbalance]
      simp only [hearly, Bool.not_false, windowClosed, if_true, if_neg hexists, if_neg hbalance]
      have hwindow := @checkedAdd_isSome _ published timing.disputeOpen
      by_cases hnow : context.clock.epoch < published
      · simp [hnow, not_le.2 hnow, pure_eq, mapError_ok, ok_bind]
      cases hbound : published.checkedAdd timing.disputeOpen with
      | none =>
        have hlarge : ¬ published.val + timing.disputeOpen.val < 2 ^ 64 := by simpa [hbound] using hwindow.2
        refine iff_of_false (by simp [hnow, okOr, error_bind, mapError_error]) ?_
        rintro ⟨-, ⟨-, published', hpublished', -, -, hsum⟩, -⟩
        obtain rfl := Option.mem_some.1 hpublished'
        exact hlarge hsum
      | some bound =>
        have hsum := Unsigned.checkedAdd_eq_some.1 hbound
        have hfits := hwindow.1 ⟨bound, hbound⟩
        have hopen : bound ≤ context.clock.epoch ↔ ¬ context.clock.epoch.val < published.val + timing.disputeOpen.val := by
          rw [Unsigned.le_def, hsum, not_lt]
        simp only [hnow, if_false, okOr, ok_bind, pure_eq, mapError_ok, decide_eq_true_eq, hopen]
        by_cases hclosed : context.clock.epoch.val < published.val + timing.disputeOpen.val
        · by_cases hcleared : s.liabilities[i.val].cleared = true
          · simp [hclosed, hcleared]
          · by_cases hfull : context.capacity.val ≤ s.disputes.length
            · simp [hclosed, hcleared, hfull]
            · simp [hclosed, hcleared, hfull, hexists, not_lt.1 hnow, not_lt.1 hbalance, successor, pure_eq,
                mapError_ok]
              exact ⟨hfits, not_le.1 hfull⟩
        · simp [hclosed]

theorem slash_accepts {id : Hash} {v : FinalVerdict} (hsound : s.Sound context.capacity)
    (h : Passed timing context s (.slash id v)) :
    (∃ mid, lawful timing d economy context s (.slash id v) free = .ok mid) ↔
      admitted timing d economy context s (.slash id v) := by
  rw [admitted, exists_row hsound.disputeIds]
  cases hfind : s.disputes.find? fun x => decide (x.id = id) with
  | none =>
    have hnone : dispute s (.slash id v) = none := hfind
    refine iff_of_false (absent_refused h ?_ ?_) (by simp)
    · simp only [absent, hnone, Option.isNone_none]
    · simp only [commandFacts, hnone, pure_eq]
  | some x =>
    have hsome : dispute s (.slash id v) = some x := hfind
    -- the liability of a retained dispute is retained
    obtain ⟨l, hl, hlid⟩ := (hsound.disputes x (List.mem_of_find?_eq_some hfind)).target
    obtain ⟨l, hlfind, -⟩ := (exists_row hsound.liabilityIds x.liability fun _ => True).1 ⟨l, hl, hlid, trivial⟩
    obtain ⟨disputes, hdisputes⟩ := updateFirst_isSome (f := fun x : Dispute =>
      { x with slash := d.slash, violation := some v.violation, slashVerdict := some v }) hfind
    obtain ⟨liabilities, hliabilities⟩ := updateFirst_isSome (f := fun l : Liability =>
      { l with locked := l.locked.sub d.slash }) hlfind
    rw [lawful_accepts (by simp only [commandFacts, hsome, hlfind, okOr, ok_bind, pure_eq]; rfl)
      (((((common_late h).set (by decide)).set (by decide)).set (by decide)).set (by decide))]
    simp only [Option.some.injEq, exists_eq_left', exists_row hsound.liabilityIds, hlfind]
    have hpay : (∃ mid, successor timing d economy s context.actor (.slash id v) context.clock = .ok mid) ↔
        payable s d.slashRecipient x.challenger d.treasury d.slash := by
      simp only [successor, hfind, hdisputes, hliabilities, okOr, ok_bind, pay_accepts]
      cases d.slashRecipient <;> rfl
    rw [hpay]
    simp [lateReasons, commonFacts, Facts.set, Facts.none, absent, hsome, retained, misplaced, nothing, fullFact,
      verdict_eq, and_assoc]

theorem resolve_accepts {id : Hash} {resolution : Verdict} (hsound : s.Sound context.capacity)
    (h : Passed timing context s (.resolve id resolution)) :
    (∃ mid, lawful timing d economy context s (.resolve id resolution) free = .ok mid) ↔
      admitted timing d economy context s (.resolve id resolution) := by
  cases hfind : s.disputes.find? fun x => decide (x.id = id) with
  | none =>
    have hnone : dispute s (.resolve id resolution) = none := hfind
    refine iff_of_false (absent_refused h ?_ ?_) ?_
    · simp only [absent, hnone, Option.isNone_none]
    · simp only [commandFacts, hnone, pure_eq]
    · cases resolution with
      | inconclusive =>
        rw [admitted, exists_row hsound.disputeIds, hfind]
        simp
      | final v =>
        rw [admitted, exists_row hsound.disputeIds, hfind]
        simp
  | some x =>
    have hsome : dispute s (.resolve id resolution) = some x := hfind
    cases resolution with
    | inconclusive =>
      rw [admitted, exists_row hsound.disputeIds, hfind,
        lawful_accepts (by simp only [commandFacts, hsome, pure_eq]; rfl) ((common_late h).set (by decide))]
      simp [lateReasons, commonFacts, Facts.set, Facts.none, absent, hsome, retained, misplaced, nothing, fullFact,
        successor, pure_eq]
    | final v =>
      rw [admitted, exists_row hsound.disputeIds, hfind,
        lawful_accepts (by simp only [commandFacts, hsome, pure_eq]; rfl)
          ((((common_late h).set (by decide)).set (by decide)).set (by decide))]
      have hpay : (∃ mid, successor timing d economy s context.actor (.resolve id (.final v)) context.clock = .ok mid) ↔
          payable s (if v.upheld then d.upheldBondRecipient else d.rejectedBondRecipient) x.challenger d.treasury
            x.escrow := by
        rw [← pay_accepts]
        simp only [successor, hfind, okOr, ok_bind]
        cases hout : BondLaws.pay s (if v.upheld then d.upheldBondRecipient else d.rejectedBondRecipient) x.challenger
            d.treasury x.escrow with
        | error e => simp [error_bind]
        | ok out =>
          rw [pay_eq] at hout
          obtain ⟨wallets, burned, rfl, -⟩ := pay_ok hout
          obtain ⟨disputes, hdisputes⟩ := updateFirst_isSome (f := fun x : Dispute => { x with
            escrow := .zero, resolutionVerdict := some v
            phase := if v.upheld then DisputePhase.resolvedUpheld else .resolvedRejected }) hfind
          simp [ok_bind, pure_eq, hdisputes]
      rw [hpay]
      cases hupheld : v.upheld <;>
        simp [lateReasons, commonFacts, Facts.set, Facts.none, absent, hsome, retained, misplaced, nothing, fullFact,
          verdict_eq, and_assoc]

/-- **Acceptance on the inputs.** Past the guards and on a sound state, the reference has a successor exactly for the
commands that are admitted. -/
theorem lawful_accepts_iff (hsound : s.Sound context.capacity) (h : Passed timing context s c) :
    (∃ mid, lawful timing d economy context s c (freeBond s) = .ok mid) ↔ admitted timing d economy context s c := by
  cases c with
  | deposit amount => exact deposit_accepts h
  | reserve id report feed => exact reserve_accepts hsound h
  | recordPublication id aggregate => exact recordPublication_accepts hsound h
  | unregister => exact unregister_accepts h
  | clear id => exact clear_accepts hsound h
  | withdraw amount => exact withdraw_accepts hsound h
  | openDispute id target => exact openDispute_accepts hsound h
  | slash id verdict => exact slash_accepts hsound h
  | resolve id resolution => exact resolve_accepts hsound h

end Arms

end ZenoFcis.Oracle
