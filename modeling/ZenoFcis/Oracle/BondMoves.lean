/-
What validation of a bond state establishes (`Sound`) and what an accepted command does (`Moves`, `Accepted`). Every
later fact about accepted commands is a case analysis over `Moves`; none unfolds the producer.
-/
import ZenoFcis.Oracle.Bonds

namespace ZenoFcis.Oracle

open Lib Lib.Except
open Lib.Metered (result_bind result_lift result_okOr_eq_ok result_pure)

/-! ## Searches and sums -/

section Position

variable {α : Type} {xs : List α} {p : α → Bool}

/-- the last matching row -/
def lastMatch (xs : List α) (p : α → Bool) : Option (Fin xs.length) :=
  (List.finRange xs.length).foldl (fun found i => if p (getElem xs i (row_lt xs i)) then some i else found) none

/-- `position` gives the last match -/
theorem result_position : (position xs p).result = .ok (lastMatch xs p) := by
  unfold position lastMatch
  rw [Metered.result_foldlM]
  simp only [result_bind, result_visit, ok_bind, result_pure]
  exact List.foldlM_pure

theorem foldl_lastMatch {ι : Type} (q : ι → Bool) (l : List ι) (found : Option ι) :
    (∀ i, l.foldl (fun found i => if q i then some i else found) found = some i → q i ∨ found = some i) ∧
      (l.foldl (fun found i => if q i then some i else found) found = none ↔ found = none ∧ ∀ i ∈ l, q i = false) := by
  induction l generalizing found with
  | nil => exact ⟨fun i hi => Or.inr hi, by simp⟩
  | cons j l ih =>
    obtain ⟨hsome, hnone⟩ := ih (if q j then some j else found)
    simp only [List.foldl_cons]
    cases hj : q j with
    | true =>
      rw [hj] at hsome hnone
      refine ⟨fun i hi => ?_, ?_⟩
      · rcases hsome i hi with h | h
        · exact Or.inl h
        · rw [if_pos rfl, Option.some.injEq] at h
          exact Or.inl (h ▸ hj)
      · simp only [if_true] at hnone
        simp [hnone, hj]
    | false =>
      rw [hj] at hsome hnone
      refine ⟨fun i hi => by simpa using hsome i hi, ?_⟩
      simp only [Bool.false_eq_true, if_false] at hnone
      simp [hnone, hj]

theorem lastMatch_some {i : Fin xs.length} (h : lastMatch xs p = some i) : p (getElem xs i (row_lt xs i)) := by
  rcases (foldl_lastMatch (fun i : Fin xs.length => p xs[i]) _ none).1 i h with h | h
  · exact h
  · cases h

/-- there is no match when nothing matches -/
theorem lastMatch_none : lastMatch xs p = none ↔ ∀ x ∈ xs, p x = false := by
  unfold lastMatch
  rw [(foldl_lastMatch (fun i : Fin xs.length => p xs[i]) _ none).2]
  simp only [true_and, List.mem_finRange, true_implies]
  refine ⟨fun h x hx => ?_, fun h i => h _ (List.getElem_mem i.2)⟩
  obtain ⟨i, hi, rfl⟩ := List.getElem_of_mem hx
  exact h ⟨i, hi⟩

end Position

/-- the sum of the locked amounts -/
def lockedSum (ls : List Liability) : ℕ := (ls.map fun l => l.locked.val).sum

variable {ls before : List Liability} {c : BondCommand}

theorem lockedFrom_ok {n m : U128} :
    (lockedFrom n ls).result = .ok m ↔ m.val = n.val + lockedSum ls := by
  induction ls generalizing n with
  | nil =>
    simp only [lockedFrom, result_pure, Except.ok.injEq, Unsigned.ext_iff, lockedSum, List.map_nil,
      List.sum_nil, Nat.add_zero]
    exact eq_comm
  | cons l ls ih =>
    simp only [lockedFrom, result_bind, result_visit, ok_bind, result_lift, bind_eq_ok, okOr_eq_ok,
      Unsigned.checkedAdd_eq_some, ih]
    have hcons : lockedSum (l :: ls) = l.locked.val + lockedSum ls := rfl
    constructor
    · rintro ⟨k, hk, hm⟩
      omega
    · intro hm
      have hfits : n.val + l.locked.val < 2 ^ 128 := by
        have := m.fits
        omega
      exact ⟨⟨_, hfits⟩, rfl, by simp only; omega⟩

/-- the locked sum of a state -/
theorem locked_ok {s : BondState} {n : U128} : (locked s).result = .ok n ↔ n.val = lockedSum s.liabilities := by
  unfold locked
  rw [lockedFrom_ok, Unsigned.val_zero, Nat.zero_add]

/-! ## Validation -/

/-- the rows of all four tables -/
def BondState.tableRows (s : BondState) : ℕ :=
  s.liabilities.length + s.disputes.length + s.wallets.size + s.nonces.size

/-- the rows of a state that is not too full -/
theorem rows_eq {s : BondState} {capacity : U32} (h : ¬ s.overfull capacity) : s.rows = .ok s.tableRows := by
  have hcap := capacity.fits
  simp only [BondState.overfull, not_or, not_lt] at h
  unfold BondState.rows BondState.tableRows
  rw [checkedAdd_of_le (by unfold usizeMax; omega), ok_bind, checkedAdd_of_le (by unfold usizeMax; omega), ok_bind,
    checkedAdd_of_le (by unfold usizeMax; omega)]

/-- the facts of one liability row -/
structure Liability.WellFormed (l : Liability) : Prop where
  id : l.id ≠ .zero
  report : l.report ≠ .zero
  feed : l.feed ≠ .zero
  released : l.cleared → l.locked = .zero

/-- the facts of one dispute row in a state -/
structure Dispute.WellFormed (s : BondState) (d : Dispute) : Prop where
  target : ∃ l ∈ s.liabilities, l.id = d.liability
  verdicts : ∀ v ∈ d.slashVerdict.toList ++ d.resolutionVerdict.toList, v.malformed d s.epoch = false
  consistent : d.inconsistent = false

/-- what validation at a capacity establishes -/
structure BondState.Sound (s : BondState) (capacity : U32) : Prop where
  fits : ¬ s.overfull capacity
  scans : s.tableRows + 4 < 2 ^ 31
  covered : lockedSum s.liabilities ≤ s.held.val
  exit : s.phase = .active ↔ s.exitEpoch = none
  liabilityIds : (s.liabilities.map Liability.id).Nodup
  liabilities : ∀ l ∈ s.liabilities, l.WellFormed
  disputeIds : (s.disputes.map Dispute.id).Nodup
  disputes : ∀ d ∈ s.disputes, d.WellFormed s

theorem liability_malformed {l : Liability} :
    l.malformed before = false ↔ l.WellFormed ∧ l.id ∉ before.map Liability.id := by
  simp only [Liability.malformed, Bool.or_eq_false_iff, decide_eq_false_iff_not, Bool.and_eq_false_iff,
    List.any_eq_false, decide_eq_true_eq, not_not, List.mem_map, not_exists, not_and]
  refine ⟨fun ⟨⟨⟨⟨hid, hreport⟩, hfeed⟩, hreleased⟩, hnew⟩ => ⟨⟨hid, hreport, hfeed, fun hc => ?_⟩, hnew⟩,
    fun ⟨h, hnew⟩ => ⟨⟨⟨⟨h.id, h.report⟩, h.feed⟩, ?_⟩, hnew⟩⟩
  · rcases hreleased with hr | hr
    · exact absurd (hc.symm.trans hr) (by decide)
    · exact hr
  · cases hc : l.cleared
    · exact Or.inl rfl
    · exact Or.inr (h.released hc)

theorem validateLiabilities_ok :
    (validateLiabilities before ls).result = .ok () ↔ (∀ l ∈ ls, l.WellFormed) ∧ (ls.map Liability.id).Nodup ∧
      ∀ l ∈ ls, l.id ∉ before.map Liability.id := by
  induction ls generalizing before with
  | nil => simp [validateLiabilities]
  | cons l ls ih =>
    simp only [validateLiabilities, result_bind, result_visit, ok_bind, bind_eq_ok, failIf_ok, exists_unit, ih,
      Bool.not_eq_true, liability_malformed, List.forall_mem_cons, List.map_cons, List.nodup_cons, List.map_append,
      List.map_nil, List.mem_append, List.mem_singleton, not_or, List.mem_map, not_exists, not_and]
    constructor
    · rintro ⟨⟨hl, hnew⟩, hls, hids, hfresh⟩
      exact ⟨⟨hl, hls⟩, ⟨fun x hx => (hfresh x hx).2, hids⟩, hnew, fun x hx => (hfresh x hx).1⟩
    · rintro ⟨⟨hl, hls⟩, ⟨hid, hids⟩, hnew, hfresh⟩
      exact ⟨⟨hl, hnew⟩, hls, hids, fun x hx => ⟨hfresh x hx, hid x hx⟩⟩

theorem dispute_malformed {s : BondState} {before : List Dispute} {d : Dispute} :
    d.malformed s before = false ↔ d.WellFormed s ∧ d.id ∉ before.map Dispute.id := by
  simp only [Dispute.malformed, Bool.or_eq_false_iff, Bool.not_eq_false', List.any_eq_true, decide_eq_true_eq,
    List.any_eq_false, List.mem_map, not_exists, not_and, Bool.not_eq_true]
  exact ⟨fun ⟨⟨⟨htarget, hnew⟩, hverdicts⟩, hconsistent⟩ => ⟨⟨htarget, hverdicts, hconsistent⟩, hnew⟩,
    fun ⟨h, hnew⟩ => ⟨⟨⟨h.target, hnew⟩, h.verdicts⟩, h.consistent⟩⟩

theorem validateDisputes_ok {s : BondState} {before ds : List Dispute} :
    (validateDisputes s before ds).result = .ok () ↔ (∀ d ∈ ds, d.WellFormed s) ∧ (ds.map Dispute.id).Nodup ∧
      ∀ d ∈ ds, d.id ∉ before.map Dispute.id := by
  induction ds generalizing before with
  | nil => simp [validateDisputes]
  | cons d ds ih =>
    simp only [validateDisputes, result_bind, result_visit, ok_bind, bind_eq_ok, failIf_ok, exists_unit, ih,
      Bool.not_eq_true, dispute_malformed, List.forall_mem_cons, List.map_cons, List.nodup_cons, List.map_append,
      List.map_nil, List.mem_append, List.mem_singleton, not_or, List.mem_map, not_exists, not_and]
    constructor
    · rintro ⟨⟨hd, hnew⟩, hds, hids, hfresh⟩
      exact ⟨⟨hd, hds⟩, ⟨fun x hx => (hfresh x hx).2, hids⟩, hnew, fun x hx => (hfresh x hx).1⟩
    · rintro ⟨⟨hd, hds⟩, ⟨hid, hids⟩, hnew, hfresh⟩
      exact ⟨⟨hd, hnew⟩, hds, hids, fun x hx => ⟨hfresh x hx, hid x hx⟩⟩

/-- validation accepts the sound states -/
theorem validate_ok {s : BondState} {capacity : U32} :
    (s.validate capacity).result = .ok () ↔ s.Sound capacity := by
  have hexit : ¬ (decide (s.phase = .active) ≠ s.exitEpoch.isNone) ↔ (s.phase = .active ↔ s.exitEpoch = none) := by
    rw [not_not, ← Option.isNone_iff_eq_none, Bool.eq_iff_iff, decide_eq_true_eq]
  simp only [BondState.validate, result_bind, bind_eq_ok, failIf_ok, exists_unit, result_lift,
    result_reserveScans, not_or, not_lt]
  constructor
  · rintro ⟨hfits, rows, hrows, hscans, n, hn, ⟨hcovered, hphase⟩, hliabilities, hdisputes⟩
    rw [locked_ok] at hn
    rw [rows_eq hfits, Except.ok.injEq] at hrows
    rw [validateLiabilities_ok] at hliabilities
    rw [validateDisputes_ok] at hdisputes
    refine ⟨hfits, ?_, ?_, hexit.1 hphase, hliabilities.2.1, hliabilities.1, hdisputes.2.1, hdisputes.1⟩
    · by_contra hbig
      rw [← hrows, if_neg hbig] at hscans
      cases hscans
    · rw [← hn]
      exact hcovered
  · intro h
    have hsum : lockedSum s.liabilities < 2 ^ 128 := h.covered.trans_lt s.held.fits
    refine ⟨h.fits, _, rows_eq h.fits, ?_, ⟨_, hsum⟩, locked_ok.2 rfl, ⟨h.covered, hexit.2 h.exit⟩, ?_, ?_⟩
    · rw [if_pos h.scans]
    · exact validateLiabilities_ok.2 ⟨h.liabilities, h.liabilityIds, by simp⟩
    · exact validateDisputes_ok.2 ⟨h.disputes, h.disputeIds, by simp⟩

/-! ## Payments -/

/-- everything a bond state holds in custody -/
def BondState.custody (s : BondState) : ℕ :=
  balances s.wallets + s.held.val + (s.disputes.map fun d => d.escrow.val).sum + s.burned.val

theorem credit_ok {w w' : OrdMap Id ZdexE18} {id : Id} {amount : U128} (h : credit w id amount = .ok w') :
    balances w' = balances w + amount.val := by
  unfold credit at h
  simp only [bind_eq_ok, okOr_eq_ok, Unsigned.checkedAdd_eq_some] at h
  obtain ⟨sum, hsum, hw⟩ := h
  cases hw
  have := balances_insert (m := w) (k := id) (a := sum)
  omega

/-- a payment credits a wallet or burns -/
theorem pay_ok {s out : BondState} {r : EscrowRecipient} {challenger treasury : Id} {amount : U128}
    (h : pay s r challenger treasury amount = .ok out) :
    ∃ wallets burned, out = { s with wallets := wallets, burned := burned } ∧
      balances wallets + burned.val = balances s.wallets + s.burned.val + amount.val := by
  have hcredit : ∀ id, (credit s.wallets id amount).map (fun w => { s with wallets := w }) = .ok out →
      ∃ wallets burned, out = { s with wallets := wallets, burned := burned } ∧
        balances wallets + burned.val = balances s.wallets + s.burned.val + amount.val := by
    intro id h
    cases hw : credit s.wallets id amount with
    | error e => rw [hw] at h; cases h
    | ok w =>
      rw [hw] at h
      cases h
      have := credit_ok hw
      exact ⟨w, s.burned, rfl, by omega⟩
  cases r with
  | challenger => exact hcredit _ h
  | reporterOwner => exact hcredit _ h
  | treasury => exact hcredit _ h
  | burn =>
    unfold pay at h
    cases hb : s.burned.checkedAdd amount with
    | none => simp [hb, okOr, Except.map] at h
    | some b =>
      simp only [hb, okOr, Except.map, Except.ok.injEq] at h
      rw [Unsigned.checkedAdd_eq_some] at hb
      exact ⟨s.wallets, b, h.symm, by omega⟩

/-! ## Moves -/

section Moves

variable (d : DisputeParameters) (actor : Id) (now : U64) (s : BondState)

/-- what an accepted command does to the tables and pools, before the nonce and the epoch advance -/
inductive Moves : BondCommand → BondState → Prop
  | deposit {amount held : U128} (hbalance : amount ≤ balanceOf s.wallets actor)
      (hheld : held.val = s.held.val + amount.val) :
      Moves (.deposit amount)
        { s with held := held, wallets := s.wallets.insert actor ((balanceOf s.wallets actor).sub amount) }
  | reserve {id report feed : Hash} {clearAfter : U64} (hids : ¬ (id = .zero ∨ report = .zero ∨ feed = .zero))
      (hfresh : ∀ l ∈ s.liabilities, l.id ≠ id)
      (hfree : lockedSum s.liabilities + d.minimumBond.val ≤ s.held.val) :
      Moves (.reserve id report feed) { s with
        liabilities := s.liabilities ++ [⟨id, report, feed, d.minimumBond, none, clearAfter, clearAfter, false⟩] }
  | recordPublication {id : Hash} {aggregate : Aggregate} {i : Fin s.liabilities.length} {l : Liability}
      {publication : Option U64} {clearAfter : U64} (hid : s.liabilities[i].id = id)
      (hl : l = { s.liabilities[i] with publication := publication, clearAfter := clearAfter }) :
      Moves (.recordPublication id aggregate) { s with liabilities := s.liabilities.set i l }
  | unregister (hphase : s.phase = .active) : Moves .unregister { s with phase := .unbonding, exitEpoch := some now }
  | clear {id : Hash} {i : Fin s.liabilities.length} {l : Liability} (hid : s.liabilities[i].id = id)
      (hl : l = { s.liabilities[i] with locked := .zero, cleared := true })
      (hopen : ∀ x ∈ s.disputes, x.liability = id → x.phase ≠ .open) :
      Moves (.clear id) { s with liabilities := s.liabilities.set i l }
  | withdraw {amount held : U128} {wallets : OrdMap Id ZdexE18} {phase : ReporterPhase}
      (hphase : s.phase ≠ .active ∧ phase ≠ .active)
      (hfree : lockedSum s.liabilities + amount.val ≤ s.held.val)
      (hopen : ∀ x ∈ s.disputes, x.phase ≠ .open) (hheld : held.val = s.held.val - amount.val)
      (hpaid : balances wallets = balances s.wallets + amount.val) :
      Moves (.withdraw amount) { s with held := held, wallets := wallets, phase := phase }
  | openDispute {id liability : Hash} {i : Fin s.liabilities.length} (hid : s.liabilities[i].id = liability)
      (hfresh : ∀ x ∈ s.disputes, x.id ≠ id) (hcleared : s.liabilities[i].cleared = false)
      (hbalance : d.challengeBond ≤ balanceOf s.wallets actor) :
      Moves (.openDispute id liability) { s with
        wallets := s.wallets.insert actor ((balanceOf s.wallets actor).sub d.challengeBond)
        disputes := s.disputes ++ [⟨id, liability, actor, d.challengeBond, now, .open, .zero, none, none, none⟩] }
  | slash {dispute : Hash} {verdict : FinalVerdict} {i : Fin s.disputes.length} {j : Fin s.liabilities.length}
      {x : Dispute} {l : Liability} {held burned : U128} {wallets : OrdMap Id ZdexE18}
      (hid : s.disputes[i].id = dispute) (hopen : s.disputes[i].phase = .open)
      (hj : s.liabilities[j].id = s.disputes[i].liability) (hunslashed : s.disputes[i].slashVerdict = none)
      (hviolation : ∀ other ∈ s.disputes, other.violation ≠ some verdict.violation)
      (hverdict : validVerdict d s.disputes[i] verdict now = true ∧ verdict.upheld = true)
      (hx : x = { s.disputes[i] with
        slash := d.slash, violation := some verdict.violation, slashVerdict := some verdict })
      (hlocked : d.slash.val ≤ s.liabilities[j].locked.val)
      (hl : l = { s.liabilities[j] with locked := s.liabilities[j].locked.sub d.slash })
      (hheld : held.val = s.held.val - d.slash.val)
      (hpaid : balances wallets + burned.val = balances s.wallets + s.burned.val + d.slash.val) :
      Moves (.slash dispute verdict) { s with
        held := held
        liabilities := s.liabilities.set j l
        disputes := s.disputes.set i x
        wallets := wallets
        burned := burned }
  | inconclusive {dispute : Hash} : Moves (.resolve dispute .inconclusive) s
  | resolve {dispute : Hash} {v : FinalVerdict} {i : Fin s.disputes.length} {x : Dispute} {burned : U128}
      {wallets : OrdMap Id ZdexE18} (hid : s.disputes[i].id = dispute) (hopen : s.disputes[i].phase = .open)
      (hverdict : validVerdict d s.disputes[i] v now = true)
      (hupheld : v.upheld = true → s.disputes[i].slash = d.slash ∧ s.disputes[i].violation = some v.violation)
      (hrejected : v.upheld = false → s.disputes[i].slash = .zero)
      (hx : x = { s.disputes[i] with
        escrow := .zero
        resolutionVerdict := some v
        phase := if v.upheld then .resolvedUpheld else .resolvedRejected })
      (hpaid : balances wallets + burned.val =
        balances s.wallets + s.burned.val + s.disputes[i].escrow.val) :
      Moves (.resolve dispute (.final v))
        { s with disputes := s.disputes.set i x, wallets := wallets, burned := burned }

end Moves

section Arms

variable {timing : ClockParameters} {d : DisputeParameters} {economy : EconomicParameters} {actor : Id} {now : U64}
  {capacity : U32} {s mid : BondState}

theorem arm_ok {α : Type} {x : Work α} {a : α} : (arm x).result = .ok a ↔ x.result = .ok a := by
  rw [result_arm, mapError_eq_ok]

theorem deposit_ok {amount : ZdexE18} (h : (deposit actor s amount).result = .ok mid) :
    Moves d actor now s (.deposit amount) mid := by
  simp only [deposit, result_bind, bind_eq_ok, refuseIf_ok, exists_unit, result_okOr_eq_ok,
    Unsigned.checkedAdd_eq_some, result_pure, Except.ok.injEq, not_lt] at h
  obtain ⟨hbalance, held, hheld, rfl⟩ := h
  exact .deposit hbalance hheld

theorem free_eq {n : U128} (h : (locked s).result = .ok n) :
    (s.held.sub n).val = s.held.val - lockedSum s.liabilities := by
  rw [Unsigned.val_sub, locked_ok.1 h]

variable {id dispute : Hash} {index : Option (Fin s.liabilities.length)}

theorem reserve_ok {report feed : Hash} (hsound : s.Sound capacity)
    (hfresh : BondCommand.alreadyExists s (.reserve id report feed) = false)
    (h : (reserve timing d economy now capacity s id report feed).result = .ok mid) :
    Moves d actor now s (.reserve id report feed) mid := by
  simp only [reserve, result_bind, bind_eq_ok, failIf_ok, refuseIf_ok, exists_unit, arm_ok,
    result_okOr_eq_ok, result_pure, Except.ok.injEq, not_lt, Unsigned.le_def] at h
  obtain ⟨hids, n, hn, hfree, -, clearAfter, -, rfl⟩ := h
  rw [free_eq hn] at hfree
  have hcovered := hsound.covered
  refine .reserve hids (fun l hl hid => ?_) (by omega)
  have := List.any_eq_false.1 hfresh l hl
  exact this (by simpa using hid)

theorem recordPublication_ok {aggregate : Aggregate}
    (hindex : ∀ i, index = some i → s.liabilities[i].id = id)
    (h : (recordPublication timing d now s index aggregate).result = .ok mid) :
    Moves d actor now s (.recordPublication id aggregate) mid := by
  simp only [recordPublication, result_bind, bind_eq_ok, refuseIf_ok, exists_unit,
    result_okOr_eq_ok, result_pure, Except.ok.injEq] at h
  obtain ⟨i, hi, -, -, «end», -, rfl⟩ := h
  exact .recordPublication (hindex i hi) rfl

theorem clear_ok (hindex : ∀ i, index = some i → s.liabilities[i].id = id) (h : (clear now s index).result = .ok mid) :
    Moves d actor now s (.clear id) mid := by
  simp only [clear, result_bind, bind_eq_ok, refuseIf_ok, exists_unit, result_okOr_eq_ok,
    result_pure, Except.ok.injEq, not_or] at h
  obtain ⟨i, hi, -, ⟨-, -, hopen⟩, rfl⟩ := h
  rw [hindex i hi, List.any_eq_true] at hopen
  refine .clear (hindex i hi) rfl fun x hx hliability hphase => hopen ⟨x, hx, ?_⟩
  simp [hliability, hphase]

theorem withdraw_ok {amount : ZdexE18} (hsound : s.Sound capacity) (hphase : s.phase ≠ .active)
    (h : (withdraw d actor now s amount).result = .ok mid) : Moves d actor now s (.withdraw amount) mid := by
  simp only [withdraw, result_bind, bind_eq_ok, refuseIf_ok, exists_unit, arm_ok, result_okOr_eq_ok,
    result_lift, result_pure, Except.ok.injEq, not_lt, not_or, Unsigned.le_def] at h
  obtain ⟨n, hn, hfree, -, -, -, -, ⟨-, hopen⟩, wallets, hcredit, rfl⟩ := h
  rw [free_eq hn] at hfree
  have hcovered := hsound.covered
  rw [List.any_eq_true] at hopen
  refine .withdraw ⟨hphase, ?_⟩ (by omega) (fun x hx hphase => hopen ⟨x, hx, by simp [hphase]⟩) rfl (credit_ok hcredit)
  split_ifs
  · simp
  · exact hphase

theorem openDispute_ok {liability : Hash}
    (hindex : ∀ i, index = some i → s.liabilities[i].id = liability)
    (hfresh : BondCommand.alreadyExists s (.openDispute id liability) = false)
    (h : (openDispute timing d actor now capacity s index id).result = .ok mid) :
    Moves d actor now s (.openDispute id liability) mid := by
  simp only [openDispute, result_bind, bind_eq_ok, refuseIf_ok, exists_unit, result_okOr_eq_ok,
    result_pure, Except.ok.injEq, not_lt] at h
  obtain ⟨i, hi, -, -, hbalance, -, -, -, hcleared, -, rfl⟩ := h
  rw [hindex i hi]
  refine .openDispute (hindex i hi) (fun x hx hid => ?_) (by simpa using hcleared) hbalance
  exact List.any_eq_false.1 hfresh x hx (by simpa using hid)

theorem slash_ok {verdict : FinalVerdict} (h : (slash d now s dispute verdict).result = .ok mid) :
    Moves d actor now s (.slash dispute verdict) mid := by
  simp only [slash, result_bind, bind_eq_ok, refuseIf_ok, exists_unit, arm_ok, result_okOr_eq_ok,
    result_lift, result_pure, Except.ok.injEq, not_lt, not_or, not_not, result_position,
    exists_eq_left', Unsigned.le_def] at h
  obtain ⟨i, hi, hopen, j, hj, hlocked, hverdict, ⟨hunslashed, hviolation⟩, out, hpay, rfl⟩ := h
  obtain ⟨wallets, burned, rfl, hpaid⟩ := pay_ok hpay
  have hid := lastMatch_some hi
  have hliability := lastMatch_some hj
  simp only [decide_eq_true_eq] at hid hliability
  rw [List.any_eq_true] at hviolation
  exact .slash hid hopen hliability (by simpa using hunslashed) (fun x hx hv => hviolation ⟨x, hx, by simp [hv]⟩)
    hverdict rfl hlocked rfl rfl hpaid

theorem resolve_ok {verdict : Verdict} (h : (resolve d now s dispute verdict).result = .ok mid) :
    Moves d actor now s (.resolve dispute verdict) mid := by
  simp only [resolve, result_bind, bind_eq_ok, refuseIf_ok, exists_unit, arm_ok, result_okOr_eq_ok,
    not_not, result_position, Except.ok.injEq, exists_eq_left'] at h
  obtain ⟨i, hi, hopen, h⟩ := h
  have hid := lastMatch_some hi
  simp only [decide_eq_true_eq] at hid
  cases verdict with
  | inconclusive =>
    cases h
    exact .inconclusive
  | final v =>
    simp only [result_bind, bind_eq_ok, refuseIf_ok, exists_unit, arm_ok, result_lift,
      result_pure, Except.ok.injEq] at h
    obtain ⟨hverdict, hupheld, hrejected, out, hpay, rfl⟩ := h
    obtain ⟨wallets, burned, rfl, hpaid⟩ := pay_ok hpay
    refine .resolve hid hopen (not_not.1 hverdict) (fun hv => ?_) (fun hv => ?_) rfl hpaid
    · simpa only [not_and, not_or, not_not, hv, true_implies] using hupheld
    · by_contra hslash
      exact hrejected ⟨by simp [hv], hslash⟩

end Arms

theorem targetIndex_ok {s : BondState} {index : Option (Fin s.liabilities.length)} {id : Hash}
    (h : (targetIndex s c).result = .ok index) (hc : c.target = some id) :
    ∀ i, index = some i → s.liabilities[i].id = id := by
  intro i hi
  simp only [targetIndex, hc, result_position, Except.ok.injEq] at h
  have := lastMatch_some (h.trans hi)
  simpa using this

/-- an accepted command: a move, the nonce and the epoch, between two sound states -/
structure Accepted (context : AccountContext) (s : BondState) (c : BondCommand) (out : BondState) : Prop where
  before : s.Sound context.capacity
  after : out.Sound context.capacity
  clock : s.epoch ≤ context.clock.epoch
  move : ∃ timing d economy mid next, context.parameters.Bound timing d economy ∧
    Moves d context.actor context.clock.epoch s c mid ∧
    out = { mid with nonces := mid.nonces.insert context.actor next, epoch := context.clock.epoch }

/-- a move of the code is a move of the law -/
theorem apply_ok {timing : ClockParameters} {d : DisputeParameters} {economy : EconomicParameters} {actor : Id}
    {now : U64} {capacity : U32} {s mid : BondState} {index : Option (Fin s.liabilities.length)}
    (hsound : s.Sound capacity) (hindex : (targetIndex s c).result = .ok index) (hfresh : c.alreadyExists s = false)
    (hphase : c.wrongPhase s = false) (h : (apply timing d economy actor now capacity s index c).result = .ok mid) :
    Moves d actor now s c mid := by
  cases c with
  | deposit amount => exact deposit_ok h
  | reserve id report feed => exact reserve_ok hsound hfresh h
  | recordPublication id aggregate => exact recordPublication_ok (targetIndex_ok hindex rfl) h
  | unregister =>
    cases h
    exact .unregister (by simpa [BondCommand.wrongPhase] using hphase)
  | clear id => exact clear_ok (targetIndex_ok hindex rfl) h
  | withdraw amount => exact withdraw_ok hsound (by simpa [BondCommand.wrongPhase] using hphase) h
  | openDispute id liability => exact openDispute_ok (targetIndex_ok hindex rfl) hfresh h
  | slash dispute verdict => exact slash_ok h
  | resolve dispute verdict => exact resolve_ok h

/-- an accepted run is an accepted command -/
theorem run_ok {context : AccountContext} {s out : BondState}
    (h : (run context s c).result = .ok (.ok out)) : Accepted context s c out := by
  rw [run, result_settle, outcome_eq_accept] at h
  simp only [body, result_bind, bind_eq_ok, refuseIf_ok, failIf_ok, exists_unit, arm_ok,
    result_okOr_eq_ok, result_lift, result_pure, Except.ok.injEq, not_lt] at h
  obtain ⟨hvalid, timing, htiming, d, hd, economy, heconomy, hsound, -, -, -, next, -, -, hclock, -, index, hindex, -,
    hfresh, hphase, -, mid, happly, -, hafter, -, rfl⟩ := h
  have hmove := apply_ok (validate_ok.1 hsound) hindex (by simpa using hfresh) (by simpa using hphase) happly
  exact ⟨validate_ok.1 hsound, validate_ok.1 hafter, hclock, timing, d, economy, mid, next,
    ⟨hvalid, htiming, hd, heconomy⟩, hmove, rfl⟩

end ZenoFcis.Oracle
