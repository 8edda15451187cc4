/-
When the producer of the bonded-account relation and its law reference give one answer, and why the law check between
them never reports a law failure.
-/
import ZenoFcis.Oracle.BondAdmission
import ZenoFcis.Oracle.BondHistory

namespace ZenoFcis.Oracle

open Lib Lib.Except BondLaws

/-! ## Rows a command adds -/

/-- a key that the table lacks takes a row -/
def newRow {α : Type} (m : OrdMap Id α) (id : Id) : ℕ := if (m.get id).isNone then 1 else 0

theorem size_insert_newRow {α : Type} {m : OrdMap Id α} {id : Id} {a : α} :
    (m.insert id a).size = m.size + newRow m id := by
  have h := OrdMap.size_insert (m := m) (k := id) (a := a)
  unfold newRow
  cases hget : m.get id <;> simp [hget] at h ⊢ <;> omega

/-- the wallet row a payment adds -/
def paidRow (s : BondState) (recipient : EscrowRecipient) (challenger treasury : Id) : ℕ := match recipient with
  | .challenger => newRow s.wallets challenger
  | .reporterOwner => newRow s.wallets s.owner
  | .treasury => newRow s.wallets treasury
  | .burn => 0

def addedWallets (d : DisputeParameters) (s : BondState) (actor : Id) : BondCommand → ℕ
  | .deposit _ | .withdraw _ | .openDispute .. => newRow s.wallets actor
  | .slash id verdict => (dispute s (.slash id verdict)).elim 0 fun x => paidRow s d.slashRecipient x.challenger d.treasury
  | .resolve id (.final v) => (dispute s (.resolve id (.final v))).elim 0 fun x =>
    paidRow s (if v.upheld then d.upheldBondRecipient else d.rejectedBondRecipient) x.challenger d.treasury
  | _ => 0

def addedLiabilities : BondCommand → ℕ
  | .reserve .. => 1
  | _ => 0

def addedDisputes : BondCommand → ℕ
  | .openDispute .. => 1
  | _ => 0

section Added

variable {timing : ClockParameters} {d : DisputeParameters} {economy : EconomicParameters} {s mid : BondState}
  {actor : Id} {clock : ClockView} {c : BondCommand}

/-- the tables a command grows -/
structure Grown (d : DisputeParameters) (s : BondState) (actor : Id) (c : BondCommand) (mid : BondState) : Prop where
  liabilities : mid.liabilities.length = s.liabilities.length + addedLiabilities c
  disputes : mid.disputes.length = s.disputes.length + addedDisputes c
  wallets : mid.wallets.size = s.wallets.size + addedWallets d s actor c
  nonces : mid.nonces = s.nonces

theorem updateFirst_length {α : Type} {p : α → Bool} {f : α → α} {xs ys : List α} (h : updateFirst p f xs = some ys) :
    ys.length = xs.length := by
  induction xs generalizing ys with
  | nil => cases h
  | cons x xs ih =>
    unfold updateFirst at h
    split_ifs at h
    · cases h
      rfl
    · rw [Option.map_eq_some_iff] at h
      obtain ⟨zs, hzs, rfl⟩ := h
      rw [List.length_cons, List.length_cons, ih hzs]

theorem credit_size {w w' : OrdMap Id ZdexE18} {id : Id} {amount : U128} (h : Oracle.credit w id amount = .ok w') :
    w'.size = w.size + newRow w id := by
  unfold Oracle.credit at h
  simp only [bind_eq_ok] at h
  obtain ⟨sum, -, hw⟩ := h
  cases hw
  exact size_insert_newRow

theorem pay_rows {out : BondState} {r : EscrowRecipient} {challenger treasury : Id} {amount : U128}
    (h : Oracle.pay s r challenger treasury amount = .ok out) :
    out.wallets.size = s.wallets.size + paidRow s r challenger treasury ∧ out.liabilities = s.liabilities ∧
      out.disputes = s.disputes ∧ out.nonces = s.nonces := by
  have hcredit : ∀ id, (Oracle.credit s.wallets id amount).map (fun w => { s with wallets := w }) = .ok out →
      out.wallets.size = s.wallets.size + newRow s.wallets id ∧ out.liabilities = s.liabilities ∧
        out.disputes = s.disputes ∧ out.nonces = s.nonces := by
    intro id h
    cases hw : Oracle.credit s.wallets id amount with
    | error e => rw [hw] at h; cases h
    | ok w =>
      rw [hw] at h
      cases h
      exact ⟨credit_size hw, rfl, rfl, rfl⟩
  cases r with
  | challenger => exact hcredit _ h
  | reporterOwner => exact hcredit _ h
  | treasury => exact hcredit _ h
  | burn =>
    unfold Oracle.pay at h
    cases hb : s.burned.checkedAdd amount with
    | none => simp [hb, okOr, Except.map] at h
    | some b =>
      simp only [hb, okOr, Except.map, Except.ok.injEq] at h
      obtain rfl := h
      exact ⟨rfl, rfl, rfl, rfl⟩

theorem successor_grown (h : successor timing d economy s actor c clock = .ok mid) : Grown d s actor c mid := by
  cases c with
  | deposit amount =>
    simp only [successor, bind_eq_ok, pure_eq, Except.ok.injEq] at h
    obtain ⟨held, -, rfl⟩ := h
    exact ⟨rfl, rfl, size_insert_newRow, rfl⟩
  | reserve id report feed =>
    simp only [successor, bind_eq_ok, pure_eq, Except.ok.injEq] at h
    obtain ⟨-, -, «end», -, rfl⟩ := h
    exact ⟨by simp [addedLiabilities], rfl, rfl, rfl⟩
  | recordPublication id aggregate =>
    simp only [successor, bind_eq_ok, okOr_eq_ok, pure_eq, Except.ok.injEq] at h
    obtain ⟨«end», -, rows, hrows, rfl⟩ := h
    exact ⟨updateFirst_length hrows, rfl, rfl, rfl⟩
  | unregister =>
    cases h
    exact ⟨rfl, rfl, rfl, rfl⟩
  | clear id =>
    simp only [successor, bind_eq_ok, okOr_eq_ok, pure_eq, Except.ok.injEq] at h
    obtain ⟨rows, hrows, rfl⟩ := h
    exact ⟨updateFirst_length hrows, rfl, rfl, rfl⟩
  | withdraw amount =>
    simp only [successor, bind_eq_ok, pure_eq, Except.ok.injEq] at h
    obtain ⟨wallets, hwallets, rfl⟩ := h
    exact ⟨rfl, rfl, credit_size hwallets, rfl⟩
  | openDispute id liability =>
    cases h
    exact ⟨rfl, by simp [addedDisputes], size_insert_newRow, rfl⟩
  | slash id verdict =>
    simp only [successor, bind_eq_ok, okOr_eq_ok, pay_eq] at h
    obtain ⟨x, hx, disputes, hdisputes, liabilities, hliabilities, hpay⟩ := h
    obtain ⟨hwallets, hl, hd, hn⟩ := pay_rows hpay
    have hdispute : dispute s (.slash id verdict) = some x := hx
    refine ⟨?_, ?_, ?_, hn⟩
    · rw [hl]
      exact updateFirst_length hliabilities
    · rw [hd]
      exact updateFirst_length hdisputes
    · rw [hwallets, addedWallets, hdispute]
      rfl
  | resolve id resolution =>
    cases resolution with
    | inconclusive =>
      cases h
      exact ⟨rfl, rfl, rfl, rfl⟩
    | final v =>
      simp only [successor, bind_eq_ok, okOr_eq_ok, pay_eq, pure_eq, Except.ok.injEq] at h
      obtain ⟨x, hx, out, hpay, disputes, hdisputes, rfl⟩ := h
      obtain ⟨hwallets, hl, hd, hn⟩ := pay_rows hpay
      have hdispute : dispute s (.resolve id (.final v)) = some x := hx
      refine ⟨by rw [hl]; rfl, ?_, ?_, hn⟩
      · rw [updateFirst_length hdisputes, hd]
        rfl
      · rw [hwallets, addedWallets, hdispute]
        rfl

end Added

/-! ## After the arm -/

/-- the counters advance -/
def advance (context : AccountContext) (next : U64) (mid : BondState) : BondState :=
  { mid with nonces := mid.nonces.insert context.actor next, epoch := context.clock.epoch }

/-- the producer validates and charges its outcome -/
def finish (context : AccountContext) (next : U64) (mid : BondState) : Arm BondState := do
  let out := advance context next mid
  refuseIf (out.overfull context.capacity) .full
  arm (out.validate context.capacity)
  arm out.charge
  pure out

/-- the reference only looks at the tables -/
def fits (context : AccountContext) (next : U64) (mid : BondState) : Except Stop BondState :=
  if (advance context next mid).overfull context.capacity then .error (.refuse .full)
  else .ok (advance context next mid)

theorem charge_ok {s : BondState} {capacity : U32} (hfits : ¬ s.overfull capacity) (hscans : s.tableRows + 4 < 2 ^ 31) :
    s.charge.result = .ok () := by
  have hless : s.tableRows ≤ 2 ^ 31 := by omega
  have hrows : ¬ u64Max < s.tableRows := not_lt.2 (hless.trans (by decide))
  have hmul : s.tableRows * 1024 ≤ u64Max := (Nat.mul_le_mul_right 1024 hless).trans (by decide)
  have hadd : s.tableRows * 1024 + 512 ≤ u64Max :=
    (Nat.add_le_add_right (Nat.mul_le_mul_right 1024 hless) 512).trans (by decide)
  simp [BondState.charge, rows_eq hfits, ok_bind, failIf, hrows, checkedMul_of_le hmul, checkedAdd_of_le hadd]

theorem validate_unscanned {s : BondState} {capacity : U32} (hfits : ¬ s.overfull capacity)
    (hscans : ¬ s.tableRows + 4 < 2 ^ 31) : (s.validate capacity).result = .error .arithmetic := by
  simp only [BondState.validate, Metered.result_bind, failIf, if_neg hfits, Metered.result_pure, ok_bind,
    Metered.result_lift, rows_eq hfits, result_reserveScans, if_neg hscans, error_bind]

theorem finish_eq {context : AccountContext} (next : U64) {d : DisputeParameters} {s mid : BondState} {c : BondCommand}
    (hsound : s.Sound context.capacity) (hclock : s.epoch ≤ context.clock.epoch) (hslash : d.slash ≠ .zero)
    (hmove : Moves d context.actor context.clock.epoch s c mid) :
    (finish context next mid).result =
      if ¬ (advance context next mid).overfull context.capacity ∧
        ¬ (advance context next mid).tableRows + 4 < 2 ^ 31 then .error (.fail .arithmetic)
      else fits context next mid := by
  unfold finish fits
  simp only [Metered.result_bind, result_refuseIf, ite_error_bind, ok_bind, result_arm, Metered.result_pure]
  by_cases hfits : (advance context next mid).overfull context.capacity
  · rw [if_pos hfits, if_neg (fun h => h.1 hfits), if_pos hfits]
  · rw [if_neg hfits, if_neg hfits]
    by_cases hscans : (advance context next mid).tableRows + 4 < 2 ^ 31
    · have hvalid : ((advance context next mid).validate context.capacity).result = .ok () :=
        validate_ok.2 (hmove.sound hsound hclock hslash hfits hscans)
      simp only [hvalid, charge_ok hfits hscans, mapError_ok, ok_bind, not_true_eq_false, and_false, if_false, hscans]
    · simp only [validate_unscanned hfits hscans, mapError_error, error_bind, hfits, hscans, not_false_eq_true,
      and_self,
        if_true]

/-! ## Before the arm -/

section Early

variable {timing : ClockParameters} {d : DisputeParameters} {economy : EconomicParameters} {context : AccountContext}
  {s : BondState} {c : BondCommand}

/-- the refusals decided before the arm and independent of the clock evidence -/
def refusedEarly (context : AccountContext) (s : BondState) (c : BondCommand) : Prop :=
  (c.ownerCommand ∧ context.actor ≠ s.owner) ∨ context.nonce ≠ balanceOf s.nonces context.actor ∨ context.nonce = .max

/-- the clock evidence does not bind to the policy -/
def badEvidence (timing : ClockParameters) (context : AccountContext) : Prop :=
  context.clock.backend ≠ timing.backend ∨ context.clock.finalityRoot = .zero

instance : Decidable (badEvidence timing context) := by
  unfold badEvidence
  infer_instance

/-- the refusals before the clock, in their order -/
def guarded {α : Type} (context : AccountContext) (s : BondState) (c : BondCommand) (rest : U64 → Except Stop α) :
    Except Stop α :=
  if c.ownerCommand ∧ context.actor ≠ s.owner then .error (.refuse .unauthorized)
  else if context.nonce ≠ balanceOf s.nonces context.actor then .error (.refuse .replay)
  else match context.nonce.checkedSucc with
    | none => .error (.refuse .counterExhausted)
    | some next => rest next

/-- then the clock -/
def clocked {α : Type} (context : AccountContext) (s : BondState) (rest : Except Stop α) : Except Stop α :=
  if context.clock.epoch < s.epoch then .error (.refuse .badClockOrSync) else rest

/-- the body of a command is its guarded evidence -/
theorem body_eq (hsound : s.Sound context.capacity) (hbound : context.parameters.Bound timing d economy) :
    (body context s c).result = guarded context s c fun next =>
      if badEvidence timing context then .error (.fail .invalidEvidence)
      else clocked context s
        ((decided timing d economy context s c).result >>= fun mid => (finish context next mid).result) := by
  unfold body guarded clocked decided finish advance
  simp only [Metered.result_bind, result_arm, Metered.result_lift, hbound.valid, hbound.clock, hbound.disputes,
    hbound.economy, Metered.result_okOr_some, mapError_ok, ok_bind, validate_ok.2 hsound,
    charge_ok hsound.fits hsound.scans, result_refuseIf, ite_error_bind, result_failIf, Metered.result_pure, bind_assoc]
  cases context.nonce.checkedSucc with
  | none => rfl
  | some next => simp only [Metered.result_okOr_some, ok_bind, badEvidence]

/-! ### The same for the reference -/

def earlyReasons : List Reason := [.unauthorized, .replay, .counterExhausted, .badClockOrSync]

/-- the early facts agree -/
def Facts.Same (f g : Facts) : Prop := ∀ r ∈ earlyReasons, g r = f r

theorem Facts.Same.refl (f : Facts) : f.Same f := fun _ _ => rfl

theorem Facts.Same.set {f g : Facts} {r : Reason} {b : Bool} (h : f.Same g) (hr : r ∈ lateReasons) :
    f.Same (g.set r b) := by
  intro r' hr'
  have hapart : ∀ r ∈ earlyReasons, r ∉ lateReasons := by decide
  have hne : r' ≠ r := fun heq => hapart r' hr' (heq ▸ hr)
  rw [Facts.set, if_neg hne]
  exact h r' hr'

theorem undecided_early {f g : Facts} {r r' : Reason} (h : f.Same g) (hr : r ∈ earlyReasons) (htrue : f r = true)
    (hr' : r' ∈ lateReasons) : g.undecided r' = false := by
  have hbefore : ∀ r ∈ earlyReasons, ∀ r' ∈ lateReasons, r ∈ reasons.takeWhile fun x => x ≠ r' := by decide
  rw [Facts.undecided, Bool.not_eq_false']
  exact List.any_eq_true.2 ⟨r, hbefore r hr r' hr', (h r hr).trans htrue⟩

variable {free n : U128}

theorem commandFacts_early {clock : ClockView} {actor : Id} {f : Facts} {r : Reason}
    (hsound : s.Sound context.capacity) (hr : r ∈ earlyReasons) (htrue : f r = true) :
    ∃ g, commandFacts timing d s actor clock free f c = .ok g ∧ f.Same g := by
  cases c with
  | deposit amount | reserve id report feed => exact ⟨_, rfl, (Facts.Same.refl f).set (by decide)⟩
  | unregister => exact ⟨_, rfl, Facts.Same.refl f⟩
  | recordPublication id aggregate =>
    unfold commandFacts
    cases liability s (.recordPublication id aggregate) with
    | none => exact ⟨_, rfl, Facts.Same.refl f⟩
    | some l => exact ⟨_, rfl, ((Facts.Same.refl f).set (by decide)).set (by decide)⟩
  | clear id =>
    unfold commandFacts
    cases liability s (.clear id) with
    | none => exact ⟨_, rfl, Facts.Same.refl f⟩
    | some l => exact ⟨_, rfl, ((Facts.Same.refl f).set (by decide)).set (by decide)⟩
  | withdraw amount =>
    have hbond : f.Same (f.set .insufficientBond (decide (free < amount))) := (Facts.Same.refl f).set (by decide)
    unfold commandFacts
    cases s.exitEpoch with
    | none => exact ⟨_, rfl, hbond⟩
    | some exit =>
      simp only [undecided_early hbond hr htrue (by decide : Reason.liabilityLocked ∈ lateReasons), exitLocked,
        Bool.false_eq_true, if_false, pure_eq, ok_bind]
      exact ⟨_, rfl, hbond.set (by decide)⟩
  | openDispute id target =>
    unfold commandFacts
    cases liability s (.openDispute id target) with
    | none => exact ⟨_, rfl, Facts.Same.refl f⟩
    | some l =>
      have hbalance : f.Same ((f.set .wrongPhase l.publication.isNone).set .insufficientBalance
          (decide (balanceOf s.wallets actor < d.challengeBond))) :=
        ((Facts.Same.refl f).set (by decide)).set (by decide)
      cases hpublished : l.publication with
      | none =>
        rw [hpublished] at hbalance
        simp only [hpublished, pure_eq, ok_bind]
        exact ⟨_, rfl, hbalance.set (by decide)⟩
      | some published =>
        rw [hpublished] at hbalance
        simp only [hpublished, undecided_early hbalance hr htrue (by decide : Reason.windowClosed ∈ lateReasons),
          windowClosed, Bool.false_eq_true, if_false, pure_eq, ok_bind, Except.map]
        exact ⟨_, rfl, (hbalance.set (by decide)).set (by decide)⟩
  | slash id verdict =>
    unfold commandFacts
    cases hdispute : dispute s (.slash id verdict) with
    | none => exact ⟨_, rfl, Facts.Same.refl f⟩
    | some x =>
      -- the liability of a retained dispute is retained
      have hx : x ∈ s.disputes := List.mem_of_find?_eq_some hdispute
      obtain ⟨l, hl, hid⟩ := (hsound.disputes x hx).target
      have hsome : (s.liabilities.find? fun l => l.id = x.liability).isSome := by
        rw [List.find?_isSome]
        exact ⟨l, hl, by simpa using hid⟩
      obtain ⟨l, hl⟩ := Option.isSome_iff_exists.1 hsome
      simp only [hl, okOr, ok_bind, pure_eq]
      exact ⟨_, rfl, ((((Facts.Same.refl f).set (by decide)).set (by decide)).set (by decide)).set (by decide)⟩
  | resolve id resolution =>
    unfold commandFacts
    cases dispute s (.resolve id resolution) with
    | none => exact ⟨_, rfl, Facts.Same.refl f⟩
    | some x =>
      cases resolution with
      | inconclusive => exact ⟨_, rfl, (Facts.Same.refl f).set (by decide)⟩
      | final v =>
        exact ⟨_, rfl, (((Facts.Same.refl f).set (by decide)).set (by decide)).set (by decide)⟩

theorem first_eq (f : Facts) : f.first =
    if f .unauthorized then some .unauthorized
    else if f .replay then some .replay
    else if f .counterExhausted then some .counterExhausted
    else if f .badClockOrSync then some .badClockOrSync
    else (reasons.drop 4).find? f := by
  unfold Facts.first reasons
  simp only [List.find?_cons]
  cases f .unauthorized
  · cases f .replay
    · cases f .counterExhausted
      · cases f .badClockOrSync <;> rfl
      · rfl
    · rfl
  · rfl

theorem foldl_locked {ls : List Liability} :
    ls.foldlM (fun a l => BondLaws.add a l.locked) n = (lockedFrom n ls).result := by
  induction ls generalizing n with
  | nil => rfl
  | cons l ls ih =>
    simp only [List.foldlM_cons, lockedFrom, Metered.result_bind, result_visit, ok_bind, Metered.result_lift, ih]
    rfl

/-- an owner's command of another actor is unauthorized -/
theorem common_unauthorized : commonFacts s context.actor context.nonce c context.clock .unauthorized = true ↔
    c.ownerCommand ∧ context.actor ≠ s.owner := by
  have h : commonFacts s context.actor context.nonce c context.clock .unauthorized =
      (decide (context.actor ≠ s.owner) && ownerOnly c) := rfl
  rw [h, ownerOnly_eq, Bool.and_eq_true, decide_eq_true_eq, and_comm]

/-- a nonce that is not the next is a replay -/
theorem common_replay : commonFacts s context.actor context.nonce c context.clock .replay = true ↔
    context.nonce ≠ balanceOf s.nonces context.actor := decide_eq_true_iff

/-- a nonce without a successor is exhausted -/
theorem common_counter : commonFacts s context.actor context.nonce c context.clock .counterExhausted = true ↔
    context.nonce.checkedSucc = none := decide_eq_true_iff.trans Unsigned.checkedSucc_eq_none.symm

/-- a clock behind the state is bad -/
theorem common_clock : commonFacts s context.actor context.nonce c context.clock .badClockOrSync = true ↔
    context.clock.epoch < s.epoch := decide_eq_true_iff

/-- what the reference answers once the clock evidence binds -/
def answer (timing : ClockParameters) (d : DisputeParameters) (economy : EconomicParameters) (context : AccountContext)
    (s : BondState) (c : BondCommand) (free : U128) : Except Failure (Except Reason BondState) := do
  let f ← commandFacts timing d s context.actor context.clock free
    (commonFacts s context.actor context.nonce c context.clock) c
  match (f.set .full (fullFact s context.capacity c)).first with
  | some r => pure (.error r)
  | none => do
    let out ← successor timing d economy s context.actor c context.clock
    let next ← okOr context.nonce.checkedSucc .arithmetic
    let out := advance context next out
    if out.overfull context.capacity then pure (.error .full) else pure (.ok out)

theorem answer_early {r : Reason} {rest : U64 → Except Stop BondState}
    (hsound : s.Sound context.capacity) (hr : r ∈ earlyReasons)
    (htrue : commonFacts s context.actor context.nonce c context.clock r = true) :
    answer timing d economy context s c free =
      outcome (guarded context s c fun next => clocked context s (rest next)) := by
  have hfacts : ∃ g, commandFacts timing d s context.actor context.clock free
      (commonFacts s context.actor context.nonce c context.clock) c = .ok g ∧
        (commonFacts s context.actor context.nonce c context.clock).Same g := commandFacts_early hsound hr htrue
  obtain ⟨g, hg, hsame⟩ := hfacts
  have hfull := hsame.set (b := fullFact s context.capacity c) (by decide : Reason.full ∈ lateReasons)
  have hor : (c.ownerCommand ∧ context.actor ≠ s.owner) ∨ context.nonce ≠ balanceOf s.nonces context.actor ∨
      context.nonce.checkedSucc = none ∨ context.clock.epoch < s.epoch := by
    rw [← common_unauthorized, ← common_replay, ← common_counter, ← common_clock]
    simp only [earlyReasons, List.mem_cons, List.not_mem_nil, or_false] at hr
    rcases hr with rfl | rfl | rfl | rfl
    · exact Or.inl htrue
    · exact Or.inr (Or.inl htrue)
    · exact Or.inr (Or.inr (Or.inl htrue))
    · exact Or.inr (Or.inr (Or.inr htrue))
  unfold answer
  rw [hg, ok_bind, first_eq, hfull _ (by decide), hfull _ (by decide), hfull _ (by decide), hfull _ (by decide)]
  simp only [common_unauthorized, common_replay, common_counter, common_clock, guarded, clocked]
  by_cases howner : c.ownerCommand ∧ context.actor ≠ s.owner
  · simp only [if_pos howner]
    rfl
  by_cases hnonce : context.nonce ≠ balanceOf s.nonces context.actor
  · simp only [if_neg howner, if_pos hnonce]
    rfl
  simp only [if_neg howner, if_neg hnonce]
  cases hnext : context.nonce.checkedSucc with
  | none => rfl
  | some next =>
    have hclock : context.clock.epoch < s.epoch := by
      rcases hor with h | h | h | h
      · exact absurd h howner
      · exact absurd h hnonce
      · rw [hnext] at h
        cases h
      · exact h
    simp only [reduceCtorEq, if_false, if_pos hclock]
    rfl

theorem answer_late {next : U64} (hnext : context.nonce.checkedSucc = some next) :
    answer timing d economy context s c free =
      outcome (lawful timing d economy context s c free >>= fits context next) := by
  unfold answer lawful
  cases commandFacts timing d s context.actor context.clock free
    (commonFacts s context.actor context.nonce c context.clock) c with
  | error e => rfl
  | ok f =>
    simp only [ok_bind, mapError_ok]
    cases (f.set .full (fullFact s context.capacity c)).first with
    | some r => rfl
    | none =>
      simp only
      cases successor timing d economy s context.actor c context.clock with
      | error e => rfl
      | ok out =>
        simp only [ok_bind, mapError_ok, hnext, okOr, fits]
        split_ifs <;> rfl

theorem answer_eq (hsound : s.Sound context.capacity) :
    answer timing d economy context s c free = outcome (guarded context s c fun next =>
      clocked context s (lawful timing d economy context s c free >>= fits context next)) := by
  by_cases hearly : ∃ r ∈ earlyReasons, commonFacts s context.actor context.nonce c context.clock r = true
  · obtain ⟨r, hr, htrue⟩ := hearly
    exact answer_early hsound hr htrue
  · simp only [earlyReasons, List.mem_cons, List.not_mem_nil, or_false, exists_eq_or_imp, exists_eq_left, not_or,
      common_unauthorized, common_replay, common_counter, common_clock] at hearly
    obtain ⟨howner, hnonce, hcounter, hclock⟩ := hearly
    obtain ⟨next, hnext⟩ := Option.ne_none_iff_exists'.1 hcounter
    rw [answer_late hnext]
    simp only [guarded, clocked, if_neg howner, if_neg hnonce, hnext, if_neg hclock]

/-- the reference is the guarded law -/
theorem reference_eq (hsound : s.Sound context.capacity)
    (hbound : context.parameters.Bound timing d economy) (hlocked : (Oracle.locked s).result = .ok n) :
    reference context s c =
      if badEvidence timing context then .error .invalidEvidence
      else outcome (guarded context s c fun next =>
        clocked context s (lawful timing d economy context s c (s.held.sub n) >>= fits context next)) := by
  have hfree : s.held.checkedSub n = some (s.held.sub n) := by
    have hle : n ≤ s.held := by
      rw [Unsigned.le_def, locked_ok.1 hlocked]
      exact hsound.covered
    rw [Unsigned.checkedSub, if_pos hle]
  have hsum : BondLaws.locked s = .ok n := foldl_locked.trans hlocked
  unfold reference
  simp only [hbound.valid, hbound.clock, hbound.disputes, hbound.economy, okOr, ok_bind, hsum, hfree]
  by_cases hevidence : badEvidence timing context
  · rw [if_pos hevidence]
    unfold badEvidence at hevidence
    simp only [ensure, hevidence, not_true_eq_false, if_false, error_bind]
  · rw [if_neg hevidence]
    unfold badEvidence at hevidence
    simp only [ensure, hevidence, not_false_eq_true, if_true, ok_bind]
    exact answer_eq hsound

theorem decided_ok {mid : BondState} (hsound : s.Sound context.capacity)
    (h : (decided timing d economy context s c).result = .ok mid) :
    Moves d context.actor context.clock.epoch s c mid := by
  simp only [decided, Metered.result_bind, bind_eq_ok, refuseIf_ok, exists_unit, arm_ok, Bool.not_eq_true] at h
  obtain ⟨index, hindex, -, hfresh, hphase, -, happly⟩ := h
  exact apply_ok hsound hindex hfresh hphase happly

variable (economy) in
/-- **One order of refusals.** Past the guards, the producer and the reference decide a command alike, unless zero
identities or an overflowing window come first. -/
theorem decided_agrees (hsound : s.Sound context.capacity) (h : Passed timing context s c)
    (hlocked : (Oracle.locked s).result = .ok n) (hzero : ¬ zeroMasked d context s c)
    (hwindow : ¬ windowMasked timing d context s c) :
    (decided timing d economy context s c).result = lawful timing d economy context s c (s.held.sub n) := by
  cases c with
  | deposit amount => exact deposit_agrees h
  | reserve id report feed => exact reserve_agrees h hlocked hsound.covered hzero
  | recordPublication id aggregate => exact recordPublication_agrees hsound h
  | unregister => exact unregister_agrees h
  | clear id => exact clear_agrees hsound h
  | withdraw amount => exact withdraw_agrees hsound h hlocked
  | openDispute id target => exact openDispute_agrees hsound h hwindow
  | slash id verdict => exact slash_agrees hsound h
  | resolve id resolution => exact resolve_agrees hsound h

end Early

/-! ## Where they differ -/

/-- a table is longer than the capacity once its new rows are in -/
def overfilled (d : DisputeParameters) (context : AccountContext) (s : BondState) (c : BondCommand) : Prop :=
  context.capacity.val < s.liabilities.length + addedLiabilities c ∨
    context.capacity.val < s.disputes.length + addedDisputes c ∨
    context.capacity.val < s.wallets.size + addedWallets d s context.actor c ∨
    context.capacity.val < s.nonces.size + newRow s.nonces context.actor

/-- the rows of all tables once the new ones are in -/
def rowsAfter (d : DisputeParameters) (context : AccountContext) (s : BondState) (c : BondCommand) : ℕ :=
  s.tableRows + addedLiabilities c + addedDisputes c + addedWallets d s context.actor c + newRow s.nonces context.actor

/-- the inputs on which the producer and the reference differ -/
inductive Divergence (timing : ClockParameters) (d : DisputeParameters) (economy : EconomicParameters)
    (context : AccountContext) (s : BondState) (c : BondCommand) : Prop
  /-- a command that is refused before its clock evidence is looked at, with evidence that does not bind -/
  | evidence (hbad : badEvidence timing context) (hrefused : refusedEarly context s c)
  /-- zero identities in a reservation that the bond or the table refuses -/
  | identities (hpassed : Passed timing context s c) (hmask : zeroMasked d context s c)
  /-- a dispute before the publication of its liability, whose window overflows -/
  | window (hpassed : Passed timing context s c) (hmask : windowMasked timing d context s c)
  /-- an admitted command whose rows fit the capacity and take the tables past the scan tariff -/
  | rows (hpassed : Passed timing context s c) (hadmitted : admitted timing d economy context s c)
    (hfits : ¬ overfilled d context s c) (hscans : 2 ^ 31 ≤ rowsAfter d context s c + 4)

/-- a divergence under the policy of the context -/
def Diverges (context : AccountContext) (s : BondState) (c : BondCommand) : Prop :=
  ∃ timing d economy, context.parameters.Bound timing d economy ∧ Divergence timing d economy context s c

section Divergence

variable {timing : ClockParameters} {d : DisputeParameters} {economy : EconomicParameters} {context : AccountContext}
  {s mid : BondState} {c : BondCommand} {next : U64}

/-- what is not locked is free -/
theorem freeBond_eq {n : U128} (hlocked : (Oracle.locked s).result = .ok n) : s.held.sub n = freeBond s := by
  rw [Unsigned.ext_iff, Unsigned.val_sub, locked_ok.1 hlocked]
  rfl

/-- the locked sum of a sound state fits -/
theorem locked_sound (hsound : s.Sound context.capacity) : ∃ n, (Oracle.locked s).result = .ok n :=
  ⟨⟨lockedSum s.liabilities, hsound.covered.trans_lt s.held.fits⟩, locked_ok.2 rfl⟩

theorem advance_overfull (h : Grown d s context.actor c mid) :
    (advance context next mid).overfull context.capacity ↔ overfilled d context s c := by
  unfold BondState.overfull overfilled advance
  simp only [h.liabilities, h.disputes, h.wallets, h.nonces, size_insert_newRow]

theorem advance_rows (h : Grown d s context.actor c mid) :
    (advance context next mid).tableRows = rowsAfter d context s c := by
  unfold BondState.tableRows rowsAfter advance
  simp only [h.liabilities, h.disputes, h.wallets, h.nonces, size_insert_newRow]
  unfold BondState.tableRows
  omega

theorem guarded_passed {α : Type} (rest : U64 → Except Stop α) (h : ¬ refusedEarly context s c) :
    ∃ next, guarded context s c rest = rest next ∧ context.nonce.checkedSucc = some next := by
  simp only [refusedEarly, not_or, not_not] at h
  obtain ⟨howner, hnonce, hmax⟩ := h
  have hsome : context.nonce.checkedSucc ≠ none := fun hnone => hmax (Unsigned.checkedSucc_eq_none.1 hnone)
  obtain ⟨next, hnext⟩ := Option.ne_none_iff_exists'.1 hsome
  refine ⟨next, ?_, hnext⟩
  rw [guarded, if_neg howner, if_neg (not_not.2 hnonce), hnext]

theorem guarded_refused (h : refusedEarly context s c) :
    ∃ r, ∀ {α : Type} (rest : U64 → Except Stop α), guarded context s c rest = .error (.refuse r) := by
  unfold guarded
  by_cases howner : c.ownerCommand ∧ context.actor ≠ s.owner
  · exact ⟨_, fun rest => if_pos howner⟩
  by_cases hnonce : context.nonce ≠ balanceOf s.nonces context.actor
  · exact ⟨_, fun rest => by rw [if_neg howner, if_pos hnonce]⟩
  · have hmax : context.nonce.checkedSucc = none :=
      Unsigned.checkedSucc_eq_none.2 ((h.resolve_left howner).resolve_left hnonce)
    exact ⟨_, fun rest => by rw [if_neg howner, if_neg hnonce, hmax]⟩

theorem passed_of (hearly : ¬ refusedEarly context s c) (hbad : ¬ badEvidence timing context)
    (hclock : ¬ context.clock.epoch < s.epoch) : Passed timing context s c := by
  simp only [refusedEarly, not_or, not_not] at hearly
  exact ⟨hearly.1, hearly.2.1, hearly.2.2, hbad, hclock⟩

theorem Passed.early (h : Passed timing context s c) : ¬ refusedEarly context s c := by
  rintro (howner | hnonce | hmax)
  · exact h.authorized howner
  · exact hnonce h.nonce
  · exact h.counter hmax

theorem passed_answers (hsound : s.Sound context.capacity) (hbound : context.parameters.Bound timing d economy)
    (h : Passed timing context s c) : ∃ next,
      (run context s c).result = outcome ((decided timing d economy context s c).result >>= fun mid =>
        (finish context next mid).result) ∧
      reference context s c = outcome (lawful timing d economy context s c (freeBond s) >>= fits context next) := by
  obtain ⟨n, hlocked⟩ := locked_sound hsound
  obtain ⟨next, -, hnext⟩ := guarded_passed (α := BondState) (fun _ => .error (.fail .arithmetic)) h.early
  have hguard : ∀ {α : Type} (rest : U64 → Except Stop α), guarded context s c rest = rest next := by
    intro α rest
    obtain ⟨next', heq, hnext'⟩ := guarded_passed rest h.early
    rw [heq, Option.some.inj (hnext'.symm.trans hnext)]
  have hbad : ¬ badEvidence timing context := h.evidence
  refine ⟨next, ?_, ?_⟩
  · rw [run, result_settle, body_eq hsound hbound, hguard, if_neg hbad, clocked, if_neg h.clock]
  · rw [reference_eq hsound hbound hlocked, freeBond_eq hlocked, hguard, if_neg hbad, clocked, if_neg h.clock]

/-- the two answers are different: one side refuses or accepts where the other one fails -/
def Apart (ran expected : Except Failure (Except Reason BondState)) : Prop :=
  ((ran = .error .invalidEvidence ∨ ran = .error .arithmetic) ∧ ∃ x, expected = .ok x) ∨
    ((∃ r, ran = .ok (.error r)) ∧ expected = .error .invalidEvidence)

theorem Apart.ne {ran expected : Except Failure (Except Reason BondState)} (h : Apart ran expected) :
    ran ≠ expected := by
  rcases h with ⟨rfl | rfl, x, rfl⟩ | ⟨⟨r, rfl⟩, rfl⟩ <;> nofun

/-- **Divergence.** In a divergent state the code and the reference end apart -/
theorem diverges_apart (hsound : s.Sound context.capacity) (hbound : context.parameters.Bound timing d economy)
    (h : Divergence timing d economy context s c) : Apart (run context s c).result (reference context s c) := by
  obtain ⟨n, hlocked⟩ := locked_sound hsound
  cases h with
  | evidence hbad hrefused =>
    obtain ⟨r, hr⟩ := guarded_refused hrefused
    refine Or.inr ⟨⟨r, ?_⟩, ?_⟩
    · rw [run, result_settle, body_eq hsound hbound, hr]
      rfl
    · rw [reference_eq hsound hbound hlocked, if_pos hbad]
  | identities hpassed hmask =>
    obtain ⟨next, hrun, hreference⟩ := passed_answers hsound hbound hpassed
    cases c with
    | reserve id report feed =>
      obtain ⟨hdecided, r, hlawful⟩ := reserve_masked economy hpassed hlocked hsound.covered hmask
      rw [freeBond_eq hlocked] at hlawful
      rw [hdecided, error_bind] at hrun
      rw [hlawful, error_bind] at hreference
      exact Or.inl ⟨Or.inl hrun, _, hreference⟩
    | deposit => exact hmask.elim
    | recordPublication => exact hmask.elim
    | unregister => exact hmask.elim
    | clear => exact hmask.elim
    | withdraw => exact hmask.elim
    | openDispute => exact hmask.elim
    | slash => exact hmask.elim
    | resolve => exact hmask.elim
  | window hpassed hmask =>
    obtain ⟨next, hrun, hreference⟩ := passed_answers hsound hbound hpassed
    cases c with
    | openDispute id target =>
      obtain ⟨hdecided, hlawful⟩ := openDispute_masked economy (freeBond s) hsound hpassed hmask
      rw [hdecided, error_bind] at hrun
      rw [hlawful, error_bind] at hreference
      exact Or.inl ⟨Or.inr hrun, _, hreference⟩
    | deposit => exact hmask.elim
    | reserve => exact hmask.elim
    | recordPublication => exact hmask.elim
    | unregister => exact hmask.elim
    | clear => exact hmask.elim
    | withdraw => exact hmask.elim
    | slash => exact hmask.elim
    | resolve => exact hmask.elim
  | rows hpassed hadmitted hfits hscans =>
    obtain ⟨next, hrun, hreference⟩ := passed_answers hsound hbound hpassed
    obtain ⟨mid, hlawful⟩ := (lawful_accepts_iff hsound hpassed).2 hadmitted
    have hgrown := successor_grown (lawful_ok.1 hlawful).2
    -- nothing is masked, since the reference accepts
    have hzero : ¬ zeroMasked d context s c := by
      intro hmask
      cases c with
      | reserve id report feed =>
        obtain ⟨-, r, hrefused⟩ := reserve_masked economy hpassed hlocked hsound.covered hmask
        rw [freeBond_eq hlocked, hlawful] at hrefused
        cases hrefused
      | _ => exact hmask
    have hwindow : ¬ windowMasked timing d context s c := by
      intro hmask
      cases c with
      | openDispute id target =>
        obtain ⟨-, hrefused⟩ := openDispute_masked economy (freeBond s) hsound hpassed hmask
        rw [hlawful] at hrefused
        cases hrefused
      | _ => exact hmask
    have hdecided := decided_agrees economy hsound hpassed hlocked hzero hwindow
    rw [freeBond_eq hlocked, hlawful] at hdecided
    have hoverfull : ¬ (advance context next mid).overfull context.capacity := (advance_overfull hgrown).not.2 hfits
    have hrows : ¬ (advance context next mid).tableRows + 4 < 2 ^ 31 := by
      rw [advance_rows hgrown]
      omega
    rw [hdecided, ok_bind, finish_eq next hsound (not_lt.1 hpassed.clock) (Unsigned.eq_zero_iff.not.2
      (Nat.pos_iff_ne_zero.1 hbound.amounts.1)) (decided_ok hsound hdecided), if_pos ⟨hoverfull, hrows⟩] at hrun
    rw [hlawful, ok_bind, fits, if_neg hoverfull] at hreference
    exact Or.inl ⟨Or.inr hrun, _, hreference⟩

/-- **Agreement.** In every other state they end alike -/
theorem answers_agree (hsound : s.Sound context.capacity) (hbound : context.parameters.Bound timing d economy)
    (h : ¬ Divergence timing d economy context s c) : (run context s c).result = reference context s c := by
  obtain ⟨n, hlocked⟩ := locked_sound hsound
  by_cases hbad : badEvidence timing context
  · -- the guards pass, and both sides fail on the evidence
    have hearly : ¬ refusedEarly context s c := fun hrefused => h (.evidence hbad hrefused)
    obtain ⟨next, hguard, -⟩ := guarded_passed (fun next =>
      if badEvidence timing context then .error (.fail .invalidEvidence)
      else clocked context s
        ((decided timing d economy context s c).result >>= fun mid => (finish context next mid).result)) hearly
    rw [run, result_settle, body_eq hsound hbound, hguard, if_pos hbad, reference_eq hsound hbound hlocked, if_pos hbad]
    rfl
  by_cases hearly : refusedEarly context s c
  · obtain ⟨r, hr⟩ := guarded_refused hearly
    rw [run, result_settle, body_eq hsound hbound, hr, reference_eq hsound hbound hlocked, if_neg hbad, hr]
  by_cases hclock : context.clock.epoch < s.epoch
  · obtain ⟨next, hguard, hnext⟩ := guarded_passed (fun next =>
      if badEvidence timing context then .error (.fail .invalidEvidence)
      else clocked context s
        ((decided timing d economy context s c).result >>= fun mid => (finish context next mid).result)) hearly
    obtain ⟨next', hguard', -⟩ := guarded_passed (fun next =>
      clocked context s (lawful timing d economy context s c (s.held.sub n) >>= fits context next)) hearly
    rw [run, result_settle, body_eq hsound hbound, hguard, if_neg hbad, reference_eq hsound hbound hlocked, if_neg hbad,
      hguard', clocked, clocked, if_pos hclock, if_pos hclock]
  have hpassed := passed_of hearly hbad hclock
  obtain ⟨next, hrun, hreference⟩ := passed_answers hsound hbound hpassed
  have hdecided := decided_agrees economy hsound hpassed hlocked (fun hmask => h (.identities hpassed hmask))
    fun hmask => h (.window hpassed hmask)
  rw [freeBond_eq hlocked] at hdecided
  rw [hrun, hreference, hdecided]
  cases hlawful : lawful timing d economy context s c (freeBond s) with
  | error e => rfl
  | ok mid =>
    rw [hlawful] at hdecided
    have hadmitted := (lawful_accepts_iff hsound hpassed).1 ⟨mid, hlawful⟩
    have hgrown := successor_grown (lawful_ok.1 hlawful).2
    have hfinish := finish_eq next hsound (not_lt.1 hpassed.clock) (Unsigned.eq_zero_iff.not.2
      (Nat.pos_iff_ne_zero.1 hbound.amounts.1)) (decided_ok hsound hdecided)
    have hscans : ¬ (¬ (advance context next mid).overfull context.capacity ∧
        ¬ (advance context next mid).tableRows + 4 < 2 ^ 31) := by
      rw [advance_overfull hgrown, advance_rows hgrown, not_lt]
      exact fun hboth => h (.rows hpassed hadmitted hboth.1 hboth.2)
    rw [ok_bind, ok_bind, hfinish, if_neg hscans]

end Divergence

end ZenoFcis.Oracle
