/-
Runs of the bonded-account relation: custody is conserved, locked amounts stay covered, open disputes hold their
liabilities, and penalties are applied once and within the reservation.

A run is a sequence of commands, each with a context and limits of its own. A refused or failed command leaves the state
as it was.
-/
import ZenoFcis.Lib.Ledger
import ZenoFcis.Oracle.BondMoves

namespace ZenoFcis.Oracle

open Lib Lib.Except

/-- one submitted command -/
structure BondStep where
  context : AccountContext
  command : BondCommand
  limits : Resource → ℕ

/-- the successor state, when the producer accepts within the limits -/
def accepts (s : BondState) (step : BondStep) : Option BondState :=
  match (measured step.limits (run step.context s step.command)).1 with
  | .ok (.ok out) => some out
  | _ => none

/-- an accepted step is an accepted command -/
theorem accepts_some {s out : BondState} {step : BondStep} (h : accepts s step = some out) :
    Accepted step.context s step.command out := by
  unfold accepts at h
  split at h
  · rename_i out' hrun
    cases h
    exact run_ok (Metered.run_ok _ _ hrun)
  · cases h

/-- the state after a run -/
abbrev after (s : BondState) (steps : List BondStep) : BondState := Ledger.after accepts s steps

/-! ## One step -/

section Step

variable {d : DisputeParameters} {actor : Id} {now : U64} {s mid : BondState} {c : BondCommand}

theorem custody_set_dispute {i : Fin s.disputes.length} (x : Dispute) :
    ((s.disputes.set i x).map fun d => d.escrow.val).sum + (getElem s.disputes i (s.dispute_lt i)).escrow.val =
      (s.disputes.map fun d => d.escrow.val).sum + x.escrow.val :=
  sum_map_set (f := fun d : Dispute => d.escrow.val) i.2 x

variable {capacity : U32} {x : Dispute}

/-- **Custody.** A move changes no total -/
theorem Moves.custody (hsound : s.Sound capacity) (h : Moves d actor now s c mid) :
    mid.custody = s.custody := by
  unfold BondState.custody
  cases h with
  | @deposit amount held hbalance hheld =>
    have hpaid := balances_insert (m := s.wallets) (k := actor) (a := (balanceOf s.wallets actor).sub amount)
    rw [Unsigned.le_def] at hbalance
    rw [Unsigned.val_sub] at hpaid
    simp only
    omega
  | reserve => rfl
  | recordPublication => rfl
  | unregister => rfl
  | clear => rfl
  | @withdraw amount held wallets phase hphase hfree hopen hheld hpaid =>
    simp only
    omega
  | openDispute hid hfresh hcleared hbalance =>
    have hpaid := balances_insert (m := s.wallets) (k := actor) (a := (balanceOf s.wallets actor).sub d.challengeBond)
    rw [Unsigned.le_def] at hbalance
    rw [Unsigned.val_sub] at hpaid
    simp only [sum_map_append_single]
    omega
  | @slash dispute verdict i j x l held burned wallets hid hopen hj hunslashed hviolation hverdict hx hle hl hheld
      hpaid =>
    have hescrow := custody_set_dispute (i := i) x
    have hshare : x.escrow = s.disputes[i].escrow := by rw [hx]
    have hlocked : s.liabilities[j].locked.val ≤ lockedSum s.liabilities :=
      le_sum_map (f := fun l : Liability => l.locked.val) (List.getElem_mem j.2)
    have hcovered := hsound.covered
    rw [hshare] at hescrow
    simp only
    omega
  | inconclusive => rfl
  | @resolve dispute v i x burned wallets hid hopen hverdict hupheld hrejected hx hpaid =>
    have hescrow := custody_set_dispute (i := i) x
    have hshare : x.escrow.val = 0 := by rw [hx]; rfl
    simp only
    omega

/-- the liability that a penalty is taken from, and its amount -/
def taken (d : DisputeParameters) (s : BondState) : BondCommand → Option (Hash × U128)
  | .slash dispute _ => (s.disputes.find? fun x => x.id = dispute).map fun x => (x.liability, d.slash)
  | _ => none

/-- the penalty a step takes from one liability -/
def takenFrom (d : DisputeParameters) (s : BondState) (c : BondCommand) (id : Hash) : ℕ :=
  ((taken d s c).map fun p => if p.1 = id then p.2.val else 0).getD 0

theorem find_of_nodup {ds : List Dispute} (hids : (ds.map Dispute.id).Nodup) (hx : x ∈ ds) :
    (ds.find? fun y => y.id = x.id) = some x := by
  cases hfind : ds.find? fun y => decide (y.id = x.id) with
  | none => exact absurd (List.find?_eq_none.1 hfind x hx) (by simp)
  | some y =>
    have hy := List.mem_of_find?_eq_some hfind
    have hid : y.id = x.id := by simpa using List.find?_some hfind
    rw [List.inj_on_of_nodup_map hids hy hx hid]

/-- how a liability row evolves: it stays, only a clearing without open disputes clears it, and a penalty leaves it -/
theorem Moves.liability (hsound : s.Sound capacity) (h : Moves d actor now s c mid) {l : Liability}
    (hl : l ∈ s.liabilities) :
    ∃ l' ∈ mid.liabilities, l'.id = l.id ∧
      (l'.cleared = l.cleared ∨ ∀ x ∈ s.disputes, x.liability = l.id → x.phase ≠ .open) ∧
      l'.locked.val + takenFrom d s c l.id ≤ l.locked.val := by
  -- the row an index names is replaced by a row of the same identity; every other row stays
  have hset : ∀ (i : Fin s.liabilities.length) (new : Liability), new.id = s.liabilities[i].id →
      (s.liabilities[i].id ≠ l.id → l ∈ s.liabilities.set i new) ∧
        (s.liabilities[i].id = l.id → s.liabilities[i] = l ∧ new ∈ s.liabilities.set i new) := by
    intro i new hid
    obtain ⟨k, hk, rfl⟩ := List.getElem_of_mem hl
    refine ⟨fun hne => ?_, fun heq => ⟨?_, ?_⟩⟩
    · have hki : (i : ℕ) ≠ k := by
        rintro rfl
        exact hne rfl
      exact List.mem_iff_getElem.2 ⟨k, by simpa using hk, List.getElem_set_ne hki _⟩
    · exact List.inj_on_of_nodup_map hsound.liabilityIds (List.getElem_mem i.2) hl heq
    · exact List.mem_iff_getElem.2 ⟨i, by simp, List.getElem_set_self _⟩
  cases h with
  | deposit => exact ⟨l, hl, rfl, Or.inl rfl, le_rfl⟩
  | reserve => exact ⟨l, List.mem_append_left _ hl, rfl, Or.inl rfl, le_rfl⟩
  | @recordPublication id aggregate i new publication clearAfter hid hnew =>
    obtain ⟨hother, hsame⟩ := hset i new (by rw [hnew])
    by_cases heq : s.liabilities[i].id = l.id
    · obtain ⟨hi, hmem⟩ := hsame heq
      rw [hi] at hnew
      exact ⟨new, hmem, by rw [hnew], Or.inl (by rw [hnew]), by rw [hnew]; exact le_rfl⟩
    · exact ⟨l, hother heq, rfl, Or.inl rfl, le_rfl⟩
  | unregister => exact ⟨l, hl, rfl, Or.inl rfl, le_rfl⟩
  | @clear id i new hid hnew hopen =>
    obtain ⟨hother, hsame⟩ := hset i new (by rw [hnew])
    by_cases heq : s.liabilities[i].id = l.id
    · obtain ⟨hi, hmem⟩ := hsame heq
      rw [hi] at hnew
      refine ⟨new, hmem, by rw [hnew], Or.inr fun x hx hxl => hopen x hx ?_, ?_⟩
      · rw [hxl, ← heq, hid]
      · rw [hnew]
        exact Nat.zero_le _
    · exact ⟨l, hother heq, rfl, Or.inl rfl, le_rfl⟩
  | withdraw => exact ⟨l, hl, rfl, Or.inl rfl, le_rfl⟩
  | openDispute => exact ⟨l, hl, rfl, Or.inl rfl, le_rfl⟩
  | @slash dispute verdict i j x new held burned wallets hid hopen hj hunslashed hviolation hverdict hx hle hnew =>
    have hfind := find_of_nodup hsound.disputeIds (List.getElem_mem i.2)
    have htaken : takenFrom d s (.slash dispute verdict) l.id =
        if s.disputes[i].liability = l.id then d.slash.val else 0 := by
      unfold takenFrom taken
      rw [← hid]
      simp only [Fin.getElem_fin] at hfind ⊢
      rw [hfind]
      rfl
    obtain ⟨hother, hsame⟩ := hset j new (by rw [hnew])
    rw [htaken, ← hj]
    by_cases heq : s.liabilities[j].id = l.id
    · obtain ⟨hi, hmem⟩ := hsame heq
      rw [if_pos heq]
      rw [hi] at hnew hle
      refine ⟨new, hmem, by rw [hnew], Or.inl (by rw [hnew]), ?_⟩
      rw [hnew]
      simp only [Unsigned.val_sub]
      omega
    · rw [if_neg heq]
      exact ⟨l, hother heq, rfl, Or.inl rfl, le_rfl⟩
  | inconclusive => exact ⟨l, hl, rfl, Or.inl rfl, le_rfl⟩
  | resolve => exact ⟨l, hl, rfl, Or.inl rfl, le_rfl⟩

/-- a retained verdict or violation is never replaced -/
structure Retains (x x' : Dispute) : Prop where
  id : x'.id = x.id
  verdict : x.slashVerdict.isSome → x'.slashVerdict = x.slashVerdict
  violation : x.violation.isSome → x'.violation = x.violation

theorem Retains.refl (x : Dispute) : Retains x x := ⟨rfl, fun _ => rfl, fun _ => rfl⟩

theorem violation_none (hsound : s.Sound capacity) (hx : x ∈ s.disputes)
    (h : x.slashVerdict = none) : x.violation = none := by
  have hconsistent := (hsound.disputes x hx).consistent
  simp only [Dispute.inconsistent, Bool.or_eq_false_iff, Bool.and_eq_false_iff, decide_eq_false_iff_not, h,
    Option.any_none, Bool.not_false, Bool.true_eq_false, or_false, not_not, Option.isSome_none] at hconsistent
  obtain ⟨⟨⟨⟨⟨⟨hzero | hnone, hpositive⟩, -⟩, -⟩, -⟩, -⟩, -⟩ := hconsistent
  · exact absurd hpositive hzero
  · simpa using hnone

theorem Moves.dispute (hsound : s.Sound capacity) (h : Moves d actor now s c mid) {x : Dispute}
    (hx : x ∈ s.disputes) : ∃ x' ∈ mid.disputes, Retains x x' := by
  have hset : ∀ (i : Fin s.disputes.length) (new : Dispute), Retains s.disputes[i] new →
      ∃ x' ∈ s.disputes.set i new, Retains x x' := by
    intro i new hretains
    obtain ⟨k, hk, rfl⟩ := List.getElem_of_mem hx
    by_cases hki : (i : ℕ) = k
    · subst hki
      exact ⟨new, List.mem_iff_getElem.2 ⟨i, by simp, List.getElem_set_self _⟩, hretains⟩
    · exact ⟨_, List.mem_iff_getElem.2 ⟨k, by simpa using hk, List.getElem_set_ne hki _⟩, .refl _⟩
  cases h with
  | openDispute => exact ⟨x, List.mem_append_left _ hx, .refl x⟩
  | @slash dispute verdict i j new l held burned wallets hid hopen hj hunslashed hviolation hverdict hnew =>
    refine hset i new ⟨by rw [hnew], fun hv => ?_, fun hv => ?_⟩
    · rw [hunslashed] at hv
      cases hv
    · have hnone : s.disputes[i].violation = none := violation_none hsound (List.getElem_mem i.2) hunslashed
      rw [hnone] at hv
      cases hv
  | @resolve dispute v i new burned wallets hid hopen hverdict hupheld hrejected hnew =>
    exact hset i new ⟨by rw [hnew], fun _ => by rw [hnew], fun _ => by rw [hnew]⟩
  | deposit => exact ⟨x, hx, .refl x⟩
  | reserve => exact ⟨x, hx, .refl x⟩
  | recordPublication => exact ⟨x, hx, .refl x⟩
  | unregister => exact ⟨x, hx, .refl x⟩
  | clear => exact ⟨x, hx, .refl x⟩
  | withdraw => exact ⟨x, hx, .refl x⟩
  | inconclusive => exact ⟨x, hx, .refl x⟩

end Step

/-! ## Penalties of a run -/

/-- an applied penalty -/
structure Penalty where
  dispute : Hash
  violation : Hash
  liability : Hash
  amount : U128

/-- the penalty of one step, if it is an accepted slashing -/
def penalty (s : BondState) (step : BondStep) : Option Penalty :=
  match step.command, accepts s step, step.context.parameters.disputes with
  | .slash dispute verdict, some _, some d =>
    (s.disputes.find? fun x => x.id = dispute).map fun x => ⟨dispute, verdict.violation, x.liability, d.slash⟩
  | _, _, _ => none

/-- the penalties of a run, in order -/
abbrev penalties (s : BondState) (steps : List BondStep) : List Penalty := Ledger.events accepts penalty s steps

/-- the amount locked for a liability where it first appears along a run -/
abbrev reservedFor (id : Hash) (s : BondState) (steps : List BondStep) : ℕ :=
  Ledger.firstQuota accepts (fun s => (s.liabilities.find? fun l => l.id = id).map fun l => l.locked.val) s steps

section Penalties

variable {s out : BondState} {step : BondStep}

theorem penalty_some {e : Penalty} (h : penalty s step = some e) :
    ∃ (verdict : FinalVerdict) (out : BondState), step.command = .slash e.dispute verdict ∧
      verdict.violation = e.violation ∧ accepts s step = some out ∧ ∃ x ∈ s.disputes, x.liability = e.liability := by
  unfold penalty at h
  split at h
  · rename_i dispute verdict out d hcommand haccept hparameters
    obtain ⟨x, hx, rfl⟩ := Option.map_eq_some_iff.1 h
    exact ⟨verdict, out, hcommand, rfl, haccept, x, List.mem_of_find?_eq_some hx, rfl⟩
  · cases h

theorem accepted_dispute (h : accepts s step = some out) {x : Dispute} (hx : x ∈ s.disputes) :
    ∃ x' ∈ out.disputes, Retains x x' := by
  have haccepted := accepts_some h
  obtain ⟨_, d, _, mid, _, _, hmove, rfl⟩ := haccepted.move
  exact hmove.dispute haccepted.before hx

theorem penalty_records {e : Penalty} (h : penalty s step = some e) :
    (∀ x ∈ s.disputes, x.id = e.dispute → x.slashVerdict = none) ∧
      (∀ x ∈ s.disputes, x.violation ≠ some e.violation) ∧
      ∃ x ∈ (Ledger.next accepts s step).disputes, x.id = e.dispute ∧ x.slashVerdict.isSome ∧
        x.violation = some e.violation := by
  obtain ⟨verdict, out, hcommand, hviolation, haccept, -⟩ := penalty_some h
  have haccepted := accepts_some haccept
  obtain ⟨_, d, _, mid, _, _, hmove, hout⟩ := haccepted.move
  rw [hcommand] at hmove
  rw [Ledger.next_of_accept haccept, hout]
  cases hmove with
  | @slash _ _ i j x l held burned wallets hid hopen hj hunslashed hnew hverdict hx =>
    refine ⟨fun y hy hyid => ?_, fun y hy => hviolation ▸ hnew y hy, x, ?_, ?_, ?_, ?_⟩
    · rw [List.inj_on_of_nodup_map haccepted.before.disputeIds hy (List.getElem_mem i.2) (hyid.trans hid.symm)]
      exact hunslashed
    · exact List.mem_iff_getElem.2 ⟨i, by simp, List.getElem_set_self _⟩
    · rw [hx]
      exact hid
    · rw [hx]
      rfl
    · rw [hx, hviolation]

/-- **Penalties are applied once.** No two penalties of a run share a dispute or a violation. -/
theorem penalties_once (steps : List BondStep) :
    ((penalties s steps).map Penalty.dispute).Nodup ∧ ((penalties s steps).map Penalty.violation).Nodup := by
  constructor
  · refine (Ledger.events_once (fun s k => ∃ x ∈ s.disputes, x.id = k ∧ x.slashVerdict.isSome) ?_ ?_).1
    · rintro s step out haccept k ⟨x, hx, hid, hverdict⟩
      obtain ⟨x', hx', hretains⟩ := accepted_dispute haccept hx
      exact ⟨x', hx', hretains.id.trans hid, hretains.verdict hverdict ▸ hverdict⟩
    · intro s step e he
      obtain ⟨hunslashed, -, x, hx, hid, hverdict, -⟩ := penalty_records he
      refine ⟨?_, x, hx, hid, hverdict⟩
      rintro ⟨y, hy, hyid, hyverdict⟩
      rw [hunslashed y hy hyid] at hyverdict
      cases hyverdict
  · refine (Ledger.events_once (fun s k => ∃ x ∈ s.disputes, x.violation = some k) ?_ ?_).1
    · rintro s step out haccept k ⟨x, hx, hviolation⟩
      obtain ⟨x', hx', hretains⟩ := accepted_dispute haccept hx
      exact ⟨x', hx', (hretains.violation (by simp [hviolation])).trans hviolation⟩
    · intro s step e he
      obtain ⟨-, hnew, x, hx, -, -, hviolation⟩ := penalty_records he
      refine ⟨?_, x, hx, hviolation⟩
      rintro ⟨y, hy, hyviolation⟩
      exact hnew y hy hyviolation

/-- the part of a penalty that falls on one liability -/
def Penalty.share (id : Hash) (e : Penalty) : ℕ := if e.liability = id then e.amount.val else 0

theorem penalty_share {timing : ClockParameters} {d : DisputeParameters} {economy : EconomicParameters}
    (haccept : accepts s step = some out) (hbound : step.context.parameters.Bound timing d economy) (id : Hash) :
    ((penalty s step).map (Penalty.share id)).getD 0 = takenFrom d s step.command id := by
  unfold penalty takenFrom
  rw [haccept, hbound.disputes]
  cases step.command <;> try rfl
  rename_i dispute verdict
  simp only [taken, Option.map_map]
  cases s.disputes.find? fun x => decide (x.id = dispute) <;> rfl

theorem penalty_refused (h : accepts s step = none) : penalty s step = none := by
  unfold penalty
  rw [h]
  split
  · rename_i hnone _
    cases hnone
  · rfl

theorem find_liability {l : Liability} {ls : List Liability} (hids : (ls.map Liability.id).Nodup) (hl : l ∈ ls) :
    (ls.find? fun y => y.id = l.id) = some l := by
  cases hfind : ls.find? fun y => decide (y.id = l.id) with
  | none => exact absurd (List.find?_eq_none.1 hfind l hl) (by simp)
  | some y =>
    have hid : y.id = l.id := by simpa using List.find?_some hfind
    rw [List.inj_on_of_nodup_map hids (List.mem_of_find?_eq_some hfind) hl hid]

/-- **Penalties stay within the reservation.** The penalties of a run on one liability never exceed the amount locked
for it where it first appears. -/
theorem penalties_bounded (id : Hash) (steps : List BondStep) :
    ((penalties s steps).map (Penalty.share id)).sum ≤ reservedFor id s steps := by
  refine Ledger.drawn_le (fun s step q hq => ?_) (fun s step hnone => ?_)
  · obtain ⟨l, hfind, rfl⟩ := Option.map_eq_some_iff.1 hq
    have hid : l.id = id := by simpa using List.find?_some hfind
    cases haccept : accepts s step with
    | none => exact ⟨_, by rw [Ledger.next_of_refuse haccept]; exact hq, by rw [penalty_refused haccept]; exact le_rfl⟩
    | some out =>
      have haccepted := accepts_some haccept
      obtain ⟨timing, d, economy, mid, next, hbound, hmove, hout⟩ := haccepted.move
      obtain ⟨l', hl', hid', -, hle⟩ := hmove.liability haccepted.before (List.mem_of_find?_eq_some hfind)
      have hmem : l' ∈ out.liabilities := by rw [hout]; exact hl'
      have hfind' := find_liability haccepted.after.liabilityIds hmem
      rw [hid', hid] at hfind'
      rw [Ledger.next_of_accept haccept, hfind', penalty_share haccept hbound]
      exact ⟨l'.locked.val, rfl, hid ▸ hle⟩
  · cases he : penalty s step with
    | none => rfl
    | some e =>
      obtain ⟨verdict, out, -, -, haccept, x, hx, hliability⟩ := penalty_some he
      obtain ⟨l, hl, hid⟩ := ((accepts_some haccept).before.disputes x hx).target
      -- a penalty falls on a liability of the table
      have hne : e.liability ≠ id := by
        intro heq
        have hfind := List.find?_eq_none.1 (Option.map_eq_none_iff.1 hnone) l hl
        exact hfind (by simp [hid, hliability, heq])
      simp [Penalty.share, hne]

end Penalties

/-! ## Open disputes -/

/-- an open dispute names the liability -/
def BondState.disputed (s : BondState) (id : Hash) : Prop := ∃ x ∈ s.disputes, x.liability = id ∧ x.phase = .open

section Disputed

variable {d : DisputeParameters} {actor : Id} {now : U64} {s mid out : BondState} {c : BondCommand} {step : BondStep}

theorem Moves.liability_origin (h : Moves d actor now s c mid) {l' : Liability} (hl' : l' ∈ mid.liabilities) :
    (∃ l ∈ s.liabilities, l.id = l'.id) ∨ l'.cleared = false := by
  have hset : ∀ (i : Fin s.liabilities.length) (new : Liability), new.id = s.liabilities[i].id →
      l' ∈ s.liabilities.set i new → ∃ l ∈ s.liabilities, l.id = l'.id := by
    intro i new hid hmem
    rcases List.mem_or_eq_of_mem_set hmem with hold | rfl
    · exact ⟨l', hold, rfl⟩
    · exact ⟨_, List.getElem_mem i.2, hid.symm⟩
  cases h with
  | reserve =>
    rcases List.mem_append.1 hl' with hold | hnew
    · exact Or.inl ⟨l', hold, rfl⟩
    · obtain rfl := List.mem_singleton.1 hnew
      exact Or.inr rfl
  | recordPublication hid hl
  | clear hid hl
  | slash hid hopen hj hunslashed hviolation hverdict hx hle hl => exact Or.inl (hset _ _ (by rw [hl]) hl')
  | deposit => exact Or.inl ⟨l', hl', rfl⟩
  | unregister => exact Or.inl ⟨l', hl', rfl⟩
  | withdraw => exact Or.inl ⟨l', hl', rfl⟩
  | openDispute => exact Or.inl ⟨l', hl', rfl⟩
  | inconclusive => exact Or.inl ⟨l', hl', rfl⟩
  | resolve => exact Or.inl ⟨l', hl', rfl⟩

theorem Moves.disputed_origin {capacity : U32} (hsound : s.Sound capacity) (h : Moves d actor now s c mid) {id : Hash}
    (hdisputed : mid.disputed id) :
    s.disputed id ∨ mid.liabilities = s.liabilities ∧ ∀ l ∈ s.liabilities, l.id = id → l.cleared = false := by
  obtain ⟨x, hx, hliability, hphase⟩ := hdisputed
  cases h with
  | @openDispute new liability i hid hfresh hcleared hbalance =>
    rcases List.mem_append.1 hx with hold | hnew
    · exact Or.inl ⟨x, hold, hliability, hphase⟩
    · obtain rfl := List.mem_singleton.1 hnew
      refine Or.inr ⟨rfl, fun l hl hlid => ?_⟩
      have hsame := List.inj_on_of_nodup_map hsound.liabilityIds hl (List.getElem_mem i.2)
        (hlid.trans (hliability.symm.trans hid.symm))
      rw [hsame]
      exact hcleared
  | @slash dispute verdict i j new l held burned wallets hid hopen hj hunslashed hviolation hverdict hnew
  | @resolve dispute v i new burned wallets hid hopen hverdict hupheld hrejected hnew =>
    rcases List.mem_or_eq_of_mem_set hx with hold | rfl
    · exact Or.inl ⟨x, hold, hliability, hphase⟩
    · exact Or.inl ⟨_, List.getElem_mem i.2, by rw [← hliability, hnew]; rfl, hopen⟩
  | deposit
  | reserve
  | recordPublication
  | unregister
  | clear
  | withdraw
  | inconclusive => exact Or.inl ⟨x, hx, hliability, hphase⟩

/-- every liability with an open dispute is uncleared -/
def BondState.disputedUncleared (s : BondState) : Prop :=
  ∀ l ∈ s.liabilities, s.disputed l.id → l.cleared = false

theorem disputed_kept (h : accepts s step = some out) {l : Liability} (hl : l ∈ s.liabilities)
    (hdisputed : s.disputed l.id) : ∃ l' ∈ out.liabilities, l'.id = l.id ∧ l'.cleared = l.cleared := by
  have haccepted := accepts_some h
  obtain ⟨_, d, _, mid, _, _, hmove, rfl⟩ := haccepted.move
  obtain ⟨l', hl', hid, hcleared, -⟩ := hmove.liability haccepted.before hl
  obtain ⟨x, hx, hliability, hphase⟩ := hdisputed
  rcases hcleared with hcleared | hnone
  · exact ⟨l', hl', hid, hcleared⟩
  · exact absurd hphase (hnone x hx hliability)

theorem disputedUncleared_kept (h : accepts s step = some out) (hs : s.disputedUncleared) : out.disputedUncleared := by
  have haccepted := accepts_some h
  obtain ⟨_, d, _, mid, _, _, hmove, hout⟩ := haccepted.move
  intro l' hl' hdisputed
  rw [hout] at hl' hdisputed
  rcases hmove.disputed_origin haccepted.before hdisputed with hbefore | ⟨hsame, huncleared⟩
  · rcases hmove.liability_origin hl' with ⟨l, hl, hid⟩ | hfresh
    · rw [← hid] at hbefore
      obtain ⟨l'', hl'', hid'', hcleared⟩ := disputed_kept h hl hbefore
      rw [hout] at hl''
      have hnodup := haccepted.after.liabilityIds
      rw [hout] at hnodup
      rw [List.inj_on_of_nodup_map hnodup hl' hl'' (hid.symm.trans hid''.symm), hcleared]
      exact hs l hl hbefore
    · exact hfresh
  · have hl : l' ∈ s.liabilities := hsame ▸ hl'
    exact huncleared l' hl rfl

theorem withdraw_kept (h : accepts s step = some out) {amount : ZdexE18} (hc : step.command = .withdraw amount) :
    (∀ x ∈ s.disputes, x.phase ≠ .open) ∧ out.liabilities = s.liabilities ∧
      lockedSum s.liabilities + amount.val ≤ s.held.val ∧ out.held.val = s.held.val - amount.val := by
  have haccepted := accepts_some h
  obtain ⟨_, d, _, mid, _, _, hmove, rfl⟩ := haccepted.move
  rw [hc] at hmove
  cases hmove with
  | withdraw hphase hfree hopen hheld hpaid => exact ⟨hopen, rfl, hfree, hheld⟩

end Disputed

/-! ## Runs -/

theorem sound_after {s : BondState} {capacity : U32} (h : s.Sound capacity) (steps : List BondStep) :
    ∃ capacity' ∈ capacity :: steps.map fun step => step.context.capacity, (after s steps).Sound capacity' := by
  induction steps generalizing s capacity with
  | nil => exact ⟨capacity, List.mem_cons_self, h⟩
  | cons step steps ih =>
    change ∃ capacity' ∈ _, (after (Ledger.next accepts s step) steps).Sound capacity'
    cases haccept : accepts s step with
    | none =>
      rw [Ledger.next_of_refuse haccept]
      obtain ⟨capacity', hmem, hsound⟩ := ih h
      refine ⟨capacity', ?_, hsound⟩
      rcases List.mem_cons.1 hmem with rfl | hmem
      · exact List.mem_cons_self
      · exact List.mem_cons_of_mem _ (List.mem_cons_of_mem _ hmem)
    | some out =>
      rw [Ledger.next_of_accept haccept]
      obtain ⟨capacity', hmem, hsound⟩ := ih (accepts_some haccept).after
      exact ⟨capacity', List.mem_cons_of_mem _ hmem, hsound⟩

/-- **Bond custody over whole runs.** From a state that validation accepts, after any sequence of commands with any
contexts and limits: custody is what it was, the pool covers every locked amount, cleared liabilities lock nothing, no
accepted step clears a liability that carries an open dispute or withdraws while one is open, each dispute and each
violation is punished at most once, the penalties on a liability stay within its reservation, and every state reached
validates again. -/
theorem bond_custody (s₀ : BondState) (capacity₀ : U32) (h₀ : (s₀.validate capacity₀).result = .ok ())
    (steps : List BondStep) :
    (after s₀ steps).custody = s₀.custody ∧
      lockedSum (after s₀ steps).liabilities ≤ (after s₀ steps).held.val ∧
      (∀ l ∈ (after s₀ steps).liabilities, l.cleared → l.locked = .zero) ∧
      (s₀.disputedUncleared → (after s₀ steps).disputedUncleared) ∧
      (∀ step out, accepts (after s₀ steps) step = some out →
        (∀ l ∈ (after s₀ steps).liabilities, (after s₀ steps).disputed l.id →
          ∃ l' ∈ out.liabilities, l'.id = l.id ∧ l'.cleared = l.cleared) ∧
        (∀ amount, step.command = .withdraw amount →
          (∀ x ∈ (after s₀ steps).disputes, x.phase ≠ .open) ∧ out.liabilities = (after s₀ steps).liabilities ∧
            lockedSum out.liabilities ≤ out.held.val) ∧
        (out.validate step.context.capacity).result = .ok ()) ∧
      ((penalties s₀ steps).map Penalty.dispute).Nodup ∧ ((penalties s₀ steps).map Penalty.violation).Nodup ∧
      (∀ id, ((penalties s₀ steps).map (Penalty.share id)).sum ≤ reservedFor id s₀ steps) ∧
      ∃ capacity ∈ capacity₀ :: steps.map fun step => step.context.capacity,
        ((after s₀ steps).validate capacity).result = .ok () := by
  have hsound : ∃ capacity ∈ capacity₀ :: steps.map fun step => step.context.capacity,
      (after s₀ steps).Sound capacity := sound_after (validate_ok.1 h₀) steps
  obtain ⟨capacity, hcapacity, hvalid⟩ := hsound
  refine ⟨?_, hvalid.covered, fun l hl => (hvalid.liabilities l hl).released, ?_, fun step out haccept => ⟨?_, ?_, ?_⟩,
    (penalties_once steps).1, (penalties_once steps).2, fun id => penalties_bounded id steps, capacity, hcapacity,
    validate_ok.2 hvalid⟩
  · refine Ledger.after_invariant (P := fun s : BondState => s.custody = s₀.custody) (fun s step out haccept hs => ?_) rfl
    have haccepted := accepts_some haccept
    obtain ⟨_, d, _, mid, _, _, hmove, rfl⟩ := haccepted.move
    exact (hmove.custody haccepted.before).trans hs
  · exact Ledger.after_invariant fun s step out haccept hs => disputedUncleared_kept haccept hs
  · exact fun l hl hdisputed => disputed_kept haccept hl hdisputed
  · intro amount hc
    obtain ⟨hopen, hsame, -, -⟩ := withdraw_kept haccept hc
    exact ⟨hopen, hsame, (accepts_some haccept).after.covered⟩
  · exact validate_ok.2 (accepts_some haccept).after

/-! ## A run of a small account -/

/-- a hash of one repeated byte -/
def sampleHash (n : UInt8) : Hash := ⟨List.replicate 32 n, hash_length n⟩

/-- an identity of one byte -/
def sampleId (n : UInt8) : Id := ⟨[n], Id.single_bounded n⟩

def sampleParameters : Parameters where
  clock := some ⟨sampleHash 5, .of 1, .of 1, ⟨2, by decide⟩, ⟨0, by decide⟩, ⟨4, by decide⟩,
    .of 1, ⟨2, by decide⟩⟩
  disputes := some ⟨sampleHash 6, .of 1, .of 1, .of 1, .of 1, ⟨0, by decide⟩,
    ⟨0, by decide⟩, true, sampleId 8, .challenger, .challenger, .reporterOwner⟩
  economy := some ⟨⟨sampleId 9, 18⟩, .of 1, .of 1, ⟨2, by decide⟩, sampleHash 7, .of 1,
    .of 1, ⟨4, by decide⟩⟩

/-- an active reporter with one published liability and two wallets -/
def sampleBond : BondState where
  reporter := sampleId 1
  owner := sampleId 1
  phase := .active
  held := .of 1
  liabilities := [⟨sampleHash 4, sampleHash 1, sampleHash 1, .of 1, some .zero, ⟨8, by decide⟩,
    ⟨8, by decide⟩, false⟩]
  disputes := []
  wallets := (OrdMap.empty.insert (sampleId 1) ⟨2, by decide⟩).insert (sampleId 2) ⟨2, by decide⟩
  nonces := OrdMap.empty
  burned := .zero
  exitEpoch := none
  epoch := .zero

def sampleStep (nonce : U64) (command : BondCommand) : BondStep where
  context := ⟨sampleParameters, sampleId 2, nonce, ⟨sampleHash 5, sampleHash 9, .of 1⟩, ⟨8, by decide⟩⟩
  command := command
  limits := fun _ => 10000000

/-- open a dispute, apply its penalty, and ask for the same penalty again -/
def sampleSteps : List BondStep :=
  [sampleStep .zero (.openDispute (sampleHash 30) (sampleHash 4)),
    sampleStep (.of 1) (.slash (sampleHash 30)
      ⟨sampleHash 6, sampleHash 30, sampleHash 20, true, .of 1, sampleHash 9⟩),
    sampleStep ⟨2, by decide⟩ (.slash (sampleHash 30)
      ⟨sampleHash 6, sampleHash 30, sampleHash 20, true, .of 1, sampleHash 9⟩)]

theorem bond_custody_sample : (sampleBond.validate ⟨8, by decide⟩).result = .ok () ∧
    (after sampleBond sampleSteps).custody = sampleBond.custody ∧
    ((penalties sampleBond sampleSteps).map (Penalty.share (sampleHash 4))).sum ≤
      reservedFor (sampleHash 4) sampleBond sampleSteps := by
  have hvalid : (sampleBond.validate ⟨8, by decide⟩).result = .ok () := by decide +kernel
  obtain ⟨hcustody, -, -, -, -, -, -, hbounded, -⟩ := bond_custody sampleBond ⟨8, by decide⟩ hvalid sampleSteps
  exact ⟨hvalid, hcustody, hbounded (sampleHash 4)⟩

example : (penalties sampleBond sampleSteps).length = 1 := by decide +kernel

end ZenoFcis.Oracle
