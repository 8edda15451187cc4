/-
An accepted move keeps a bond state sound, with the capacity and the scan tariff of its successor as the only
conditions. So the producer's final validation refuses nothing but oversized tables.
-/
import ZenoFcis.Oracle.BondMoves

namespace ZenoFcis.Oracle

open Lib Lib.Except

/-- the facts behind `inconsistent` -/
structure Dispute.Consistent (x : Dispute) : Prop where
  unpunished : x.slash = .zero → x.violation = none ∧ x.slashVerdict = none
  punished : x.slash ≠ .zero → ∃ v, x.slashVerdict = some v ∧ v.upheld = true ∧ x.violation = some v.violation
  opened : x.phase = .open → x.resolutionVerdict = none
  upheld : x.phase = .resolvedUpheld →
    ∃ v, x.resolutionVerdict = some v ∧ v.upheld = true ∧ x.violation = some v.violation
  rejected : x.phase = .resolvedRejected → x.slash = .zero ∧ ∃ v, x.resolutionVerdict = some v ∧ v.upheld = false
  released : x.phase ≠ .open → x.escrow = .zero

theorem consistent_iff {x : Dispute} : x.inconsistent = false ↔ x.Consistent := by
  have hany : ∀ (o : Option FinalVerdict) (p : FinalVerdict → Bool), o.any p = true ↔ ∃ v, o = some v ∧ p v = true :=
    fun o p => by cases o <;> simp
  simp only [Dispute.inconsistent, Bool.or_eq_false_iff, Bool.and_eq_false_iff, Bool.not_eq_false', hany,
    Dispute.upheldBy, Bool.and_eq_true, decide_eq_true_eq, decide_eq_false_iff_not, not_not, Bool.not_eq_true',
    Option.isSome_eq_false_iff, Option.isNone_iff_eq_none]
  constructor
  · rintro ⟨⟨⟨⟨⟨⟨h₁, h₂⟩, h₃⟩, h₄⟩, h₅⟩, h₆⟩, h₇⟩
    exact ⟨fun h => h₁.resolve_left (not_not.2 h), fun h => h₂.resolve_left h, fun h => h₃.resolve_left (not_not.2 h),
      fun h => h₄.resolve_left (not_not.2 h),
      fun h => ⟨h₆.resolve_left (not_not.2 h), h₅.resolve_left (not_not.2 h)⟩, fun h => h₇.resolve_left h⟩
  · intro h
    exact ⟨⟨⟨⟨⟨⟨not_or_of_imp h.unpunished, or_iff_not_imp_left.2 h.punished⟩, not_or_of_imp h.opened⟩,
      not_or_of_imp h.upheld⟩, not_or_of_imp fun hp => (h.rejected hp).2⟩, not_or_of_imp fun hp => (h.rejected hp).1⟩,
      or_iff_not_imp_left.2 h.released⟩

theorem validVerdict_ok {d : DisputeParameters} {x : Dispute} {v : FinalVerdict} {now : U64}
    (h : validVerdict d x v now = true) :
    v.dispute = x.id ∧ v.violation ≠ .zero ∧ v.finalityRoot ≠ .zero ∧ v.finalEpoch ≤ now := by
  simp only [validVerdict, Bool.and_eq_true, decide_eq_true_eq] at h
  obtain ⟨⟨⟨⟨⟨-, hdispute⟩, hviolation⟩, hroot⟩, hepoch⟩, -⟩ := h
  exact ⟨hdispute, hviolation, hroot, hepoch⟩

theorem verdict_wellFormed {x : Dispute} {v : FinalVerdict} {epoch : U64} :
    v.malformed x epoch = false ↔
      v.dispute = x.id ∧ v.finalityRoot ≠ .zero ∧ v.violation ≠ .zero ∧ v.finalEpoch ≤ epoch := by
  simp only [FinalVerdict.malformed, Bool.or_eq_false_iff, decide_eq_false_iff_not, not_not, not_lt, and_assoc]

theorem map_set_same {α β : Type} {f : α → β} {l : List α} {i : Fin l.length} {x : α}
    (h : f x = f (getElem l i (row_lt l i))) :
    (l.set i x).map f = l.map f := by
  rw [List.map_set, h]
  have hi : (i : ℕ) < (l.map f).length := by simp
  have hget : (l.map f)[(i : ℕ)] = f l[i] := by simp
  rw [← hget, List.set_getElem_self]

section Moves

variable {d : DisputeParameters} {actor : Id} {now : U64} {capacity : U32} {s mid : BondState} {c : BondCommand}

theorem lockedSum_set {i : Fin s.liabilities.length} (l : Liability) :
    lockedSum (s.liabilities.set i l) + (getElem s.liabilities i (s.liability_lt i)).locked.val =
      lockedSum s.liabilities + l.locked.val :=
  sum_map_set (f := fun l : Liability => l.locked.val) i.2 l

theorem Moves.covered (hsound : s.Sound capacity) (h : Moves d actor now s c mid) :
    lockedSum mid.liabilities ≤ mid.held.val := by
  have hcovered := hsound.covered
  cases h with
  | deposit hbalance hheld =>
    simp only
    omega
  | @reserve id report feed clearAfter hids hfresh hfree =>
    simp only [lockedSum, sum_map_append_single] at hfree ⊢
    omega
  | @recordPublication id aggregate i l publication clearAfter hid hl =>
    have hsum := lockedSum_set (i := i) l
    have hsame : l.locked = s.liabilities[i].locked := by rw [hl]
    rw [hsame] at hsum
    simp only
    omega
  | unregister => exact hcovered
  | @clear id i l hid hl hopen =>
    have hsum := lockedSum_set (i := i) l
    have hzero : l.locked.val = 0 := by rw [hl]; rfl
    simp only
    omega
  | withdraw hphase hfree hopen hheld =>
    simp only
    omega
  | openDispute => exact hcovered
  | @slash dispute verdict i j x l held burned wallets hid hopen hj hunslashed hviolation hverdict hx hle hl hheld =>
    have hsum := lockedSum_set (i := j) l
    have hlocked : l.locked.val = s.liabilities[j].locked.val - d.slash.val := by rw [hl]; rfl
    simp only
    omega
  | inconclusive => exact hcovered
  | resolve => exact hcovered

theorem Moves.exit (hsound : s.Sound capacity) (h : Moves d actor now s c mid) :
    mid.phase = .active ↔ mid.exitEpoch = none := by
  have hexit := hsound.exit
  cases h with
  | unregister => simp
  | withdraw hphase =>
    have hsome : s.exitEpoch ≠ none := fun hnone => hphase.1 (hexit.2 hnone)
    exact iff_of_false hphase.2 hsome
  | deposit => exact hexit
  | reserve => exact hexit
  | recordPublication => exact hexit
  | clear => exact hexit
  | openDispute => exact hexit
  | slash => exact hexit
  | inconclusive => exact hexit
  | resolve => exact hexit

theorem Moves.liabilityIds (hsound : s.Sound capacity) (h : Moves d actor now s c mid) :
    (mid.liabilities.map Liability.id).Nodup ∧
      ∀ id ∈ s.liabilities.map Liability.id, id ∈ mid.liabilities.map Liability.id := by
  have hsame : mid.liabilities.map Liability.id = s.liabilities.map Liability.id →
      (mid.liabilities.map Liability.id).Nodup ∧
        ∀ id ∈ s.liabilities.map Liability.id, id ∈ mid.liabilities.map Liability.id := by
    intro heq
    rw [heq]
    exact ⟨hsound.liabilityIds, fun id hid => hid⟩
  cases h with
  | @reserve id report feed clearAfter hids hfresh hfree =>
    rw [List.map_append, List.nodup_append]
    refine ⟨⟨hsound.liabilityIds, by simp, ?_⟩, fun id hid => List.mem_append_left _ hid⟩
    intro a ha b hb heq
    obtain ⟨l, hl, hlid⟩ := List.mem_map.1 ha
    have hbid : b = id := by simpa using hb
    exact hfresh l hl (hlid.trans (heq.trans hbid))
  | recordPublication hid hl => exact hsame (map_set_same (by rw [hl]))
  | clear hid hl => exact hsame (map_set_same (by rw [hl]))
  | slash hid hopen hj hunslashed hviolation hverdict hx hle hl => exact hsame (map_set_same (by rw [hl]))
  | deposit => exact hsame rfl
  | unregister => exact hsame rfl
  | withdraw => exact hsame rfl
  | openDispute => exact hsame rfl
  | inconclusive => exact hsame rfl
  | resolve => exact hsame rfl

theorem Moves.liabilities (hsound : s.Sound capacity) (h : Moves d actor now s c mid) :
    ∀ l ∈ mid.liabilities, l.WellFormed := by
  have hset : ∀ (i : Fin s.liabilities.length) (new : Liability), new.WellFormed →
      ∀ l ∈ s.liabilities.set i new, l.WellFormed := by
    intro i new hnew l hl
    rcases List.mem_or_eq_of_mem_set hl with hold | rfl
    · exact hsound.liabilities l hold
    · exact hnew
  cases h with
  | reserve hids =>
    intro l hl
    rcases List.mem_append.1 hl with hold | hnew
    · exact hsound.liabilities l hold
    · obtain rfl := List.mem_singleton.1 hnew
      rw [not_or, not_or] at hids
      exact ⟨hids.1, hids.2.1, hids.2.2, fun hc => by cases hc⟩
  | @recordPublication id aggregate i l publication clearAfter hid hl =>
    have hold := hsound.liabilities _ (List.getElem_mem i.2)
    refine hset i l ?_
    rw [hl]
    exact ⟨hold.id, hold.report, hold.feed, hold.released⟩
  | @clear id i l hid hl hopen =>
    have hold := hsound.liabilities _ (List.getElem_mem i.2)
    refine hset i l ?_
    rw [hl]
    exact ⟨hold.id, hold.report, hold.feed, fun _ => rfl⟩
  | @slash dispute verdict i j x l held burned wallets hid hopen hj hunslashed hviolation hverdict hx hle hl =>
    have hold := hsound.liabilities _ (List.getElem_mem j.2)
    refine hset j l ?_
    rw [hl]
    refine ⟨hold.id, hold.report, hold.feed, fun hc => ?_⟩
    have hzero : s.liabilities[j].locked = .zero := hold.released hc
    exact Unsigned.eq_zero_iff.2 (by rw [Unsigned.val_sub, hzero, Unsigned.val_zero, Nat.zero_sub])
  | deposit => exact hsound.liabilities
  | unregister => exact hsound.liabilities
  | withdraw => exact hsound.liabilities
  | openDispute => exact hsound.liabilities
  | inconclusive => exact hsound.liabilities
  | resolve => exact hsound.liabilities

theorem Moves.disputeIds (hsound : s.Sound capacity) (h : Moves d actor now s c mid) :
    (mid.disputes.map Dispute.id).Nodup := by
  cases h with
  | @openDispute id liability i hid hfresh hcleared hbalance =>
    rw [List.map_append, List.nodup_append]
    refine ⟨hsound.disputeIds, by simp, ?_⟩
    intro a ha b hb heq
    obtain ⟨x, hx, hxid⟩ := List.mem_map.1 ha
    have hbid : b = id := by simpa using hb
    exact hfresh x hx (hxid.trans (heq.trans hbid))
  | @slash dispute verdict i j x l held burned wallets hid hopen hj hunslashed hviolation hverdict hx
  | @resolve dispute v i x burned wallets hid hopen hverdict hupheld hrejected hx =>
    change ((s.disputes.set i x).map Dispute.id).Nodup
    rw [map_set_same (by rw [hx])]
    exact hsound.disputeIds
  | deposit => exact hsound.disputeIds
  | reserve => exact hsound.disputeIds
  | recordPublication => exact hsound.disputeIds
  | unregister => exact hsound.disputeIds
  | clear => exact hsound.disputeIds
  | withdraw => exact hsound.disputeIds
  | inconclusive => exact hsound.disputeIds

/-- a dispute row whose target is retained, with well-formed verdicts at the epoch -/
structure Dispute.Retained (s : BondState) (now : U64) (x : Dispute) : Prop where
  target : x.liability ∈ s.liabilities.map Liability.id
  verdicts : ∀ v ∈ x.slashVerdict.toList ++ x.resolutionVerdict.toList, v.malformed x now = false
  consistent : x.Consistent

theorem retained_of_sound (hsound : s.Sound capacity) (hclock : s.epoch ≤ now) {x : Dispute} (hx : x ∈ s.disputes) :
    x.Retained s now := by
  have h := hsound.disputes x hx
  obtain ⟨l, hl, hid⟩ := h.target
  refine ⟨List.mem_map.2 ⟨l, hl, hid⟩, fun v hv => ?_, consistent_iff.1 h.consistent⟩
  obtain ⟨hdispute, hroot, hviolation, hepoch⟩ := verdict_wellFormed.1 (h.verdicts v hv)
  exact verdict_wellFormed.2 ⟨hdispute, hroot, hviolation, hepoch.trans hclock⟩

theorem Moves.disputes (hsound : s.Sound capacity) (hclock : s.epoch ≤ now) (hslash : d.slash ≠ .zero)
    (h : Moves d actor now s c mid) : ∀ x ∈ mid.disputes, x.Retained s now := by
  have hold : ∀ x ∈ s.disputes, x.Retained s now := fun x hx => retained_of_sound hsound hclock hx
  have hset : ∀ (i : Fin s.disputes.length) (new : Dispute), new.Retained s now →
      ∀ x ∈ s.disputes.set i new, x.Retained s now := by
    intro i new hnew x hx
    rcases List.mem_or_eq_of_mem_set hx with hmem | rfl
    · exact hold x hmem
    · exact hnew
  cases h with
  | @openDispute id liability i hid hfresh hcleared hbalance =>
    intro x hx
    rcases List.mem_append.1 hx with hmem | hnew
    · exact hold x hmem
    · obtain rfl := List.mem_singleton.1 hnew
      exact ⟨List.mem_map.2 ⟨_, List.getElem_mem i.2, hid⟩, by simp, ⟨fun _ => ⟨rfl, rfl⟩, fun h => absurd rfl h,
        fun _ => rfl, nofun, nofun, fun h => absurd rfl h⟩⟩
  | @slash dispute verdict i j x l held burned wallets hid hopen hj hunslashed hviolation hverdict hx =>
    have hrow := hold _ (List.getElem_mem i.2)
    obtain ⟨hdispute, hnonzero, hroot, hepoch⟩ := validVerdict_ok hverdict.1
    refine hset i x ?_
    rw [hx]
    refine ⟨hrow.target, fun v hv => ?_, ⟨fun h => absurd h hslash, fun _ => ⟨verdict, rfl, hverdict.2, rfl⟩,
      hrow.consistent.opened, fun h => ?_, fun h => ?_, hrow.consistent.released⟩⟩
    · rcases List.mem_append.1 hv with hv | hv
      · obtain rfl : v = verdict := by simpa using hv
        exact verdict_wellFormed.2 ⟨hdispute, hroot, hnonzero, hepoch⟩
      · exact hrow.verdicts v (List.mem_append_right _ hv)
    · exact absurd (hopen.symm.trans h) (by simp)
    · exact absurd (hopen.symm.trans h) (by simp)
  | @resolve dispute v i x burned wallets hid hopen hverdict hupheld hrejected hx =>
    have hrow := hold _ (List.getElem_mem i.2)
    obtain ⟨hdispute, hnonzero, hroot, hepoch⟩ := validVerdict_ok hverdict
    refine hset i x ?_
    rw [hx]
    refine ⟨hrow.target, fun w hw => ?_, ⟨hrow.consistent.unpunished, hrow.consistent.punished, fun h => ?_,
      fun h => ?_, fun h => ?_, fun _ => rfl⟩⟩
    · rcases List.mem_append.1 hw with hw | hw
      · exact hrow.verdicts w (List.mem_append_left _ hw)
      · obtain rfl : w = v := by simpa using hw
        exact verdict_wellFormed.2 ⟨hdispute, hroot, hnonzero, hepoch⟩
    · cases hv : v.upheld <;> simp [hv] at h
    · cases hv : v.upheld with
      | false => simp [hv] at h
      | true => exact ⟨v, rfl, hv, (hupheld hv).2⟩
    · cases hv : v.upheld with
      | false => exact ⟨hrejected hv, v, rfl, hv⟩
      | true => simp [hv] at h
  | deposit => exact hold
  | reserve => exact hold
  | recordPublication => exact hold
  | unregister => exact hold
  | clear => exact hold
  | withdraw => exact hold
  | inconclusive => exact hold

/-- **A move keeps a state sound**, once the nonce and the epoch have advanced. -/
theorem Moves.sound {nonces : OrdMap Id U64} (hsound : s.Sound capacity) (hclock : s.epoch ≤ now)
    (hslash : d.slash ≠ .zero) (h : Moves d actor now s c mid)
    (hfits : ¬ ({ mid with nonces := nonces, epoch := now } : BondState).overfull capacity)
    (hscans : ({ mid with nonces := nonces, epoch := now } : BondState).tableRows + 4 < 2 ^ 31) :
    ({ mid with nonces := nonces, epoch := now } : BondState).Sound capacity := by
  have hcovered := h.covered hsound
  have hexit := h.exit hsound
  have hids := h.liabilityIds hsound
  have hliabilities := h.liabilities hsound
  have hdisputeIds := h.disputeIds hsound
  refine ⟨hfits, hscans, hcovered, hexit, hids.1, hliabilities, hdisputeIds, fun x hx => ?_⟩
  have hretained := h.disputes hsound hclock hslash x hx
  obtain ⟨l, hl, hid⟩ := List.mem_map.1 (hids.2 _ hretained.target)
  exact ⟨⟨l, hl, hid⟩, hretained.verdicts, consistent_iff.2 hretained.consistent⟩

end Moves

end ZenoFcis.Oracle
