/-
The law check of the bonded-account relation against the producer it checks. It never reports a law failure, and the
producer and the reference give one answer except on the inputs of `Diverges`.
-/
import ZenoFcis.Oracle.BondEquivalence

namespace ZenoFcis.Oracle

open Lib Lib.Except BondLaws

/-! ## Custody in two words -/

theorem foldl_overflowingAdd (xs : List U128) (sum : ℕ × U128) :
    (xs.foldl overflowingAdd sum).1 * 2 ^ 128 + (xs.foldl overflowingAdd sum).2.val =
      sum.1 * 2 ^ 128 + sum.2.val + (xs.map Unsigned.val).sum := by
  induction xs generalizing sum with
  | nil => simp only [List.foldl_nil, List.map_nil, List.sum_nil, Nat.add_zero]
  | cons x xs ih =>
    have hcarry := Nat.div_add_mod (sum.2.val + x.val) (2 ^ 128)
    rw [List.foldl_cons, ih, List.map_cons, List.sum_cons]
    simp only [overflowingAdd]
    generalize (2 ^ 128 : ℕ) = word at hcarry ⊢
    calc (sum.1 + (sum.2.val + x.val) / word) * word + (sum.2.val + x.val) % word + (xs.map Unsigned.val).sum
        = sum.1 * word + (word * ((sum.2.val + x.val) / word) + (sum.2.val + x.val) % word)
          + (xs.map Unsigned.val).sum := by ring
      _ = sum.1 * word + sum.2.val + (x.val + (xs.map Unsigned.val).sum) := by rw [hcarry]; ring

theorem custody_words (s : BondState) :
    (BondLaws.custody s).1 * 2 ^ 128 + (BondLaws.custody s).2.val = BondState.custody s := by
  have hescrow : ((s.disputes.map Dispute.escrow).map Unsigned.val).sum = (s.disputes.map fun d => d.escrow.val).sum := by
    rw [List.map_map]
    rfl
  unfold BondLaws.custody
  rw [foldl_overflowingAdd]
  unfold BondState.custody balances OrdMap.total
  simp only [List.map_append, List.sum_append, List.map_cons, List.map_nil, List.sum_cons, List.sum_nil, hescrow,
    Unsigned.val_zero]
  omega

theorem custody_eq {s t : BondState} (h : s.custody = t.custody) : BondLaws.custody s = BondLaws.custody t := by
  have hs := custody_words s
  have ht := custody_words t
  have hslow := (BondLaws.custody s).2.fits
  have htlow := (BondLaws.custody t).2.fits
  refine Prod.ext ?_ (Unsigned.ext ?_)
  · omega
  · omega

/-! ## Failures that are no law failures -/

section Lawless

variable {α β : Type}

theorem lawless_pay {s : BondState} {r : EscrowRecipient} {challenger treasury : Id} {amount : U128} :
    Lawless (BondLaws.pay s r challenger treasury amount) := by
  have hcredit : ∀ id, Lawless (BondLaws.credit s.wallets id amount) :=
    fun id => Lawless.okOr_bind (by trivial) fun _ => Lawless.ok _
  cases r with
  | burn => exact Lawless.okOr_bind (by trivial) fun _ => Lawless.ok _
  | challenger | reporterOwner | treasury => exact (hcredit _).bind fun _ => Lawless.ok _

variable {timing : ClockParameters} {d : DisputeParameters} {economy : EconomicParameters} {s : BondState} {actor : Id}
  {clock : ClockView} {free : U128} {f : Facts} {c : BondCommand}

theorem lawless_commandFacts : Lawless (commandFacts timing d s actor clock free f c) := by
  cases c with
  | deposit amount => exact Lawless.ok _
  | reserve id report feed => exact Lawless.ok _
  | unregister => exact Lawless.ok _
  | recordPublication id aggregate =>
    unfold commandFacts
    cases liability s (.recordPublication id aggregate) <;> exact Lawless.ok _
  | clear id =>
    unfold commandFacts
    cases liability s (.clear id) <;> exact Lawless.ok _
  | withdraw amount =>
    unfold commandFacts exitLocked
    cases s.exitEpoch with
    | none => exact Lawless.ok _
    | some exit =>
      refine Lawless.bind ?_ fun _ => Lawless.ok _
      split_ifs
      · exact Lawless.okOr_bind (by trivial) fun _ => Lawless.ok _
      · exact Lawless.ok _
  | openDispute id target =>
    unfold commandFacts windowClosed
    cases liability s (.openDispute id target) with
    | none => exact Lawless.ok _
    | some l =>
      cases hpublished : l.publication with
      | none =>
        simp only [hpublished]
        exact Lawless.ok _
      | some published =>
        simp only [hpublished]
        refine Lawless.bind (Lawless.map _ ?_) fun _ => Lawless.ok _
        split_ifs
        · exact Lawless.ok _
        · exact Lawless.okOr_bind (by trivial) fun _ => Lawless.ok _
        · exact Lawless.ok _
  | slash id verdict =>
    unfold commandFacts
    cases dispute s (.slash id verdict) with
    | none => exact Lawless.ok _
    | some x => exact Lawless.okOr_bind (by trivial) fun _ => Lawless.ok _
  | resolve id resolution =>
    unfold commandFacts
    cases dispute s (.resolve id resolution) with
    | none => exact Lawless.ok _
    | some x => cases resolution <;> exact Lawless.ok _

theorem lawless_successor : Lawless (successor timing d economy s actor c clock) := by
  cases c with
  | deposit amount | clear id => exact Lawless.okOr_bind (by trivial) fun _ => Lawless.ok _
  | reserve id report feed =>
    exact Lawless.ensure_bind (by trivial) fun _ => Lawless.okOr_bind (by trivial) fun _ => Lawless.ok _
  | unregister => exact Lawless.ok _
  | recordPublication id aggregate =>
    exact Lawless.okOr_bind (by trivial) fun _ => Lawless.okOr_bind (by trivial) fun _ => Lawless.ok _
  | withdraw amount =>
    exact Lawless.bind (Lawless.okOr_bind (by trivial) fun _ => Lawless.ok _) fun _ => Lawless.ok _
  | openDispute id target => exact Lawless.ok _
  | slash id verdict =>
    exact Lawless.okOr_bind (by trivial) fun _ => Lawless.okOr_bind (by trivial) fun _ =>
      Lawless.okOr_bind (by trivial) fun _ => lawless_pay
  | resolve id resolution =>
    cases resolution with
    | inconclusive => exact Lawless.ok _
    | final v =>
      exact Lawless.okOr_bind (by trivial) fun _ => lawless_pay.bind fun _ => Lawless.okOr_bind (by trivial) fun _ =>
        Lawless.ok _

theorem lawless_reference (context : AccountContext) (s : BondState) (c : BondCommand) :
    Lawless (reference context s c) := by
  have hlocked : Lawless (BondLaws.locked s) := by
    unfold BondLaws.locked
    generalize (Unsigned.zero : U128) = n
    induction s.liabilities generalizing n with
    | nil => exact Lawless.ok _
    | cons l ls ih => exact Lawless.okOr_bind (by trivial) fun n => ih n
  unfold reference
  refine (lawless_parameters _).bind fun _ => Lawless.okOr_bind (by trivial) fun timing =>
    Lawless.okOr_bind (by trivial) fun d => Lawless.okOr_bind (by trivial) fun e =>
      Lawless.ensure_bind (by trivial) fun _ =>
    hlocked.bind fun n => Lawless.okOr_bind (by trivial) fun free => lawless_commandFacts.bind fun f => ?_
  dsimp only
  cases (f.set .full (fullFact s context.capacity c)).first with
  | some r => exact Lawless.ok _
  | none =>
    refine lawless_successor.bind fun out => Lawless.okOr_bind (by trivial) fun next => ?_
    split_ifs
    · exact Lawless.ok _
    · exact Lawless.ok _

end Lawless

/-! ## The check -/

section Check

variable {context : AccountContext} {s : BondState} {c : BondCommand}

theorem Apart.lawless {ran expected : Except Failure (Except Reason BondState)} (h : Apart ran expected) :
    Lawless ran := by
  rcases h with ⟨rfl | rfl, -⟩ | ⟨⟨r, rfl⟩, -⟩
  · exact lawless_error (by trivial)
  · exact lawless_error (by trivial)
  · exact Lawless.ok _

theorem answers (hsound : s.Sound context.capacity) :
    ((run context s c).result = reference context s c ∧ ¬ Diverges context s c) ∨
      (Apart (run context s c).result (reference context s c) ∧ Diverges context s c) := by
  cases hvalid : context.parameters.validate with
  | error e =>
    left
    refine ⟨?_, ?_⟩
    · simp only [run, result_settle, body, Metered.result_bind, result_arm, Metered.result_lift, hvalid, reference,
        error_bind, mapError_error]
      rfl
    · rintro ⟨timing, d, economy, hbound, -⟩
      rw [hbound.valid] at hvalid
      cases hvalid
  | ok u =>
    obtain ⟨timing, d, economy, hbound⟩ := Parameters.bound_of_validate hvalid
    by_cases h : Divergence timing d economy context s c
    · exact Or.inr ⟨diverges_apart hsound hbound h, timing, d, economy, hbound, h⟩
    · refine Or.inl ⟨answers_agree hsound hbound h, ?_⟩
      rintro ⟨timing', d', economy', hbound', h'⟩
      obtain rfl := Option.some.inj (hbound.clock.symm.trans hbound'.clock)
      obtain rfl := Option.some.inj (hbound.disputes.symm.trans hbound'.disputes)
      obtain rfl := Option.some.inj (hbound.economy.symm.trans hbound'.economy)
      exact h h'

theorem check_accepted {out : BondState} (h : (run context s c).result = .ok (.ok out)) :
    ¬ out.overfull context.capacity ∧ BondLaws.custody out = BondLaws.custody s := by
  have haccepted := run_ok h
  obtain ⟨_, d, _, mid, _, _, hmove, hout⟩ := haccepted.move
  refine ⟨haccepted.after.fits, custody_eq ?_⟩
  rw [hout]
  change mid.custody = s.custody
  exact hmove.custody haccepted.before

/-- **The check never reports a law failure**, on any sound state. -/
theorem checked_lawless (hsound : s.Sound context.capacity) : Lawless (checked context s c).result := by
  have hran : Lawless (run context s c).result := by
    rcases answers (c := c) hsound with ⟨heq, -⟩ | ⟨hapart, -⟩
    · rw [heq]
      exact lawless_reference context s c
    · exact hapart.lawless
  have hjudge : ∀ r, (run context s c).result = .ok r →
      Lawless (reference context s c >>= fun expected => judge expected r) := by
    intro r hr
    rcases answers (c := c) hsound with ⟨heq, -⟩ | ⟨hapart, -⟩
    · rw [← heq, hr, ok_bind]
      cases r <;> simp only [judge, if_true] <;> exact Lawless.ok _
    · rcases hapart with ⟨hfail, -⟩ | ⟨-, hreference⟩
      · rw [hr] at hfail
        rcases hfail with hfail | hfail <;> cases hfail
      · rw [hreference]
        exact lawless_error (by trivial)
  cases hr : (run context s c).result with
  | error e =>
    intro code h
    unfold checked at h
    simp only [Metered.result_bind, hr, error_bind] at h
    exact hran code (hr.trans h)
  | ok r =>
    have hfits : ¬ ∃ x ∈ r.toOption, x.overfull context.capacity := by
      rintro ⟨x, hx, hover⟩
      cases r with
      | error _ => cases hx
      | ok out =>
        cases hx
        exact (check_accepted hr).1 hover
    have hcustody : ¬ ∃ x ∈ r.toOption, BondLaws.custody x ≠ BondLaws.custody s := by
      rintro ⟨x, hx, hne⟩
      cases r with
      | error _ => cases hx
      | ok out =>
        cases hx
        exact hne (check_accepted hr).2
    have hscanned : ∀ rows : ℕ, Lawless (checkedAdd usizeMax rows 8 Failure.arithmetic) := by
      intro rows
      unfold checkedAdd
      split_ifs
      · exact Lawless.ok _
      · exact lawless_error (by trivial)
    unfold checked BondLaws.check
    simp only [Metered.result_bind, hr, ok_bind, validate_ok.2 hsound, Metered.result_lift, result_failIf, if_neg hfits,
      if_neg hcustody, Metered.result_pure]
    exact Lawless.bind ((hscanned _).bind fun rows => (lawless_reserveScans rows).bind fun _ => hjudge r hr)
      fun _ => Lawless.ok _

end Check

/-- **Agreement with the law reference.** On every valid state and for all inputs, the producer gives the answer of the
reference, and the law check no law failure, exactly when the inputs are none of `Diverges`. The check never reports a law
failure, whatever the limits; and a run within limits gives the answer of the producer, unless the producer asks for more
of a resource than its limit. -/
theorem bond_agreement (context : AccountContext) (s : BondState) (c : BondCommand)
    (hvalid : (s.validate context.capacity).result = .ok ()) :
    ((run context s c).result = reference context s c ∧
        (∀ code, (checked context s c).result ≠ .error (.law code)) ↔ ¬ Diverges context s c) ∧
      ∀ limits, (∀ code, (measured limits (checked context s c)).1 ≠ .error (.law code)) ∧
        ((measured limits (run context s c)).1 = (run context s c).result ∨
          (∃ e, (measured limits (run context s c)).1 = .error (.budget e)) ∧
            ∃ r, min (limits r) u64Max < Metered.asked (run context s c).charges r) := by
  have hsound := validate_ok.1 hvalid
  have hlawless := checked_lawless (c := c) hsound
  refine ⟨?_, fun limits => ⟨?_, run_new limits _⟩⟩
  · rcases answers (c := c) hsound with ⟨heq, hagree⟩ | ⟨hapart, hdiverges⟩
    · exact iff_of_true ⟨heq, hlawless⟩ hagree
    · exact iff_of_false (fun h => hapart.ne h.1) (not_not.2 hdiverges)
  · intro code hlaw
    rcases Metered.run_result Meter.charge Failure.budget (checked context s c) (Meter.new limits) with hr | ⟨e, hr⟩
    · exact hlawless code (hr.symm.trans hlaw)
    · have hbudget := hr.symm.trans hlaw
      cases hbudget

/-! ## A reservation of zero identities -/

/-- the owner of the sample account, with evidence that binds -/
def ownerContext : AccountContext :=
  ⟨sampleParameters, sampleId 1, .zero, ⟨sampleHash 5, sampleHash 9, .of 1⟩, .of 8⟩

/-- the bond is locked already, so the reference refuses; the producer fails on the identities -/
theorem zero_identities_disagree : ownerContext.parameters.validate = .ok () ∧
    (sampleBond.validate ownerContext.capacity).result = .ok () ∧
    (measured (fun _ => 10000000) (run ownerContext sampleBond (.reserve .zero .zero .zero))).1 =
      .error .invalidEvidence ∧
    reference ownerContext sampleBond (.reserve .zero .zero .zero) = .ok (.error .insufficientBond) := by
  refine ⟨?_, ?_, ?_, ?_⟩ <;> decide +kernel

theorem bond_agreement_sample : (sampleBond.validate ownerContext.capacity).result = .ok () ∧
    Diverges ownerContext sampleBond (.reserve .zero .zero .zero) ∧
    ¬ Diverges ownerContext sampleBond .unregister := by
  have hvalid : (sampleBond.validate ownerContext.capacity).result = .ok () := by decide +kernel
  have hreference : reference ownerContext sampleBond (.reserve .zero .zero .zero) =
      .ok (.error .insufficientBond) := by decide +kernel
  have hrun : (run ownerContext sampleBond (.reserve .zero .zero .zero)).result = .error .invalidEvidence := by
    decide +kernel
  have hunregister : (run ownerContext sampleBond .unregister).result = reference ownerContext sampleBond .unregister := by
    decide +kernel
  refine ⟨hvalid, ?_, ?_⟩
  · by_contra hagree
    have hsame := ((bond_agreement ownerContext sampleBond (.reserve .zero .zero .zero) hvalid).1.2 hagree).1
    rw [hrun, hreference] at hsame
    cases hsame
  · have hagree := bond_agreement ownerContext sampleBond .unregister hvalid
    exact hagree.1.1 ⟨hunregister, checked_lawless (validate_ok.1 hvalid)⟩

end ZenoFcis.Oracle
