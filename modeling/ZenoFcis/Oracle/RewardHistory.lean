/-
Runs of the reward-account relation: the totals agree with the claim table, value is conserved, and claims are paid
once.

`RewardMoves` says what an accepted command does; the run results are case analyses over it, lifted by the rules for
machines with refusals.
-/
import ZenoFcis.Oracle.BondHistory
import ZenoFcis.Oracle.Rewards

namespace ZenoFcis.Oracle

open Lib Lib.Except
open Lib.Metered (result_bind result_lift result_okOr_eq_ok result_pure)

def claimSum (phase : ClaimPhase) (cs : List RewardClaim) : ℕ :=
  (cs.map fun c => if c.phase = phase then c.amount.val else 0).sum

/-- wallets and every pool that can still move -/
def RewardState.custody (s : RewardState) : ℕ :=
  balances s.wallets + s.remaining.val + claimSum .held s.claims + s.residual.val + s.burned.val

/-! ## Validation -/

/-- what validation at a capacity establishes -/
structure RewardState.Sound (s : RewardState) (capacity : U32) : Prop where
  unit : s.unit.validate = .ok ()
  fits : ¬ s.overfull capacity
  scans : s.claims.length + s.wallets.size + s.nonces.size + 4 < 2 ^ 31
  claimIds : (s.claims.map RewardClaim.id).Nodup
  funded : s.funded.val = s.remaining.val + claimSum .held s.claims + s.paid.val + s.treasuryPaid.val + s.burned.val +
    s.residual.val
  paid : s.paid.val = claimSum .paid s.claims

section Validation

variable {s : RewardState} {capacity : U32}

theorem rewardRows_eq (h : ¬ s.overfull capacity) :
    s.rows = .ok (s.claims.length + s.wallets.size + s.nonces.size) := by
  have hcap := capacity.fits
  simp only [RewardState.overfull, not_or, not_lt] at h
  unfold RewardState.rows
  rw [checkedAdd_of_le (by unfold usizeMax; omega), ok_bind, checkedAdd_of_le (by unfold usizeMax; omega)]

theorem addIf_ok {p : Prop} [Decidable p] {n a m : U128} :
    (RewardState.addIf p n a).result = .ok m ↔ m.val = n.val + if p then a.val else 0 := by
  unfold RewardState.addIf
  by_cases h : p
  · simp only [if_pos h, result_lift, okOr_eq_ok, Unsigned.checkedAdd_eq_some]
  · simp only [if_neg h, result_pure, Except.ok.injEq, Nat.add_zero, Unsigned.ext_iff]
    exact eq_comm

theorem sumClaims_ok {before cs : List RewardClaim} {held paid held' paid' : U128} :
    (RewardState.sumClaims before (held, paid) cs).result = .ok (held', paid') ↔
      (cs.map RewardClaim.id).Nodup ∧ (∀ c ∈ cs, c.id ∉ before.map RewardClaim.id) ∧
        held'.val = held.val + claimSum .held cs ∧ paid'.val = paid.val + claimSum .paid cs := by
  induction cs generalizing before held paid with
  | nil =>
    simp only [RewardState.sumClaims, result_pure, Except.ok.injEq, Prod.mk.injEq, Unsigned.ext_iff, claimSum,
      List.map_nil, List.sum_nil, Nat.add_zero, List.nodup_nil, List.not_mem_nil, false_implies, implies_true, true_and]
    exact and_congr eq_comm eq_comm
  | cons c cs ih =>
    have hcons : ∀ phase, claimSum phase (c :: cs) = (if c.phase = phase then c.amount.val else 0) + claimSum phase cs :=
      fun phase => rfl
    simp only [RewardState.sumClaims, result_bind, result_visit, ok_bind, bind_eq_ok, failIf_ok, exists_unit,
      addIf_ok, ih, hcons, List.map_cons, List.nodup_cons, List.forall_mem_cons, List.map_append, List.map_nil,
      List.mem_append, List.mem_singleton, not_or, List.any_eq_true, decide_eq_true_eq, List.mem_map, not_exists,
      not_and]
    constructor
    · rintro ⟨hnew, held₁, hheld₁, paid₁, hpaid₁, hids, hfresh, hheld, hpaid⟩
      refine ⟨⟨fun x hx => (hfresh x hx).2, hids⟩, ⟨hnew, fun x hx => (hfresh x hx).1⟩, by omega, by omega⟩
    · rintro ⟨⟨hid, hids⟩, ⟨hnew, hfresh⟩, hheld, hpaid⟩
      have hheldFits := held'.fits
      have hpaidFits := paid'.fits
      refine ⟨hnew, ⟨held.val + if c.phase = .held then c.amount.val else 0, by omega⟩, rfl,
        ⟨paid.val + if c.phase = .paid then c.amount.val else 0, by omega⟩, rfl, hids,
        fun x hx => ⟨hfresh x hx, hid x hx⟩, ?_, ?_⟩
      · simp only
        omega
      · simp only
        omega

theorem total_ok {a b c d e f n : U128} :
    (((((a.checkedAdd b).bind (·.checkedAdd c)).bind (·.checkedAdd d)).bind (·.checkedAdd e)).bind
      (·.checkedAdd f)) = some n ↔ n.val = a.val + b.val + c.val + d.val + e.val + f.val := by
  simp only [Option.bind_eq_some_iff, Unsigned.checkedAdd_eq_some]
  constructor
  · rintro ⟨x, ⟨y, ⟨z, ⟨w, hw, hz⟩, hy⟩, hx⟩, hn⟩
    omega
  · intro h
    have hfits := n.fits
    exact ⟨⟨a.val + b.val + c.val + d.val + e.val, by omega⟩, ⟨⟨a.val + b.val + c.val + d.val, by omega⟩,
      ⟨⟨a.val + b.val + c.val, by omega⟩, ⟨⟨a.val + b.val, by omega⟩, rfl, rfl⟩, rfl⟩, rfl⟩, h⟩

theorem validateReward_ok : (s.validate capacity).result = .ok () ↔ s.Sound capacity := by
  simp only [RewardState.validate, result_bind, bind_eq_ok, failIf_ok, exists_unit, result_lift,
    result_reserveScans, Prod.exists, okOr_eq_ok, total_ok, not_or, not_not, Unsigned.ext_iff]
  constructor
  · rintro ⟨hunit, hfits, rows, hrows, hscans, held, paid, hsums, total, htotal, hfunded, hpaid⟩
    rw [rewardRows_eq hfits, Except.ok.injEq] at hrows
    obtain ⟨hids, -, hheld, hpaidSum⟩ := sumClaims_ok.1 hsums
    rw [Unsigned.val_zero, Nat.zero_add] at hheld hpaidSum
    refine ⟨hunit, hfits, ?_, hids, by omega, by omega⟩
    by_contra hbig
    rw [← hrows, if_neg hbig] at hscans
    cases hscans
  · intro h
    have hfunded := h.funded
    have hpaid := h.paid
    have hfits := s.funded.fits
    refine ⟨h.unit, h.fits, _, rewardRows_eq h.fits, if_pos h.scans, ⟨claimSum .held s.claims, by omega⟩,
      ⟨claimSum .paid s.claims, by omega⟩, ?_, s.funded, hfunded, rfl, hpaid.symm⟩
    exact sumClaims_ok.2 ⟨h.claimIds, by simp, by simp, by simp⟩

end Validation

/-! ## Moves -/

theorem mulDivFloor_ok {a b den q : U128} (hden : den ≠ .zero) (h : mulDivFloor a b den = some q) :
    q.val = a.val * b.val / den.val := by
  have hword : ∀ x : U128, (BitVec.ofNat 128 x.val).toNat = x.val := by
    intro x
    rw [BitVec.toNat_ofNat, Nat.mod_eq_of_lt x.fits]
  have hzero : BitVec.ofNat 128 den.val ≠ 0 := by
    intro heq
    have hval := congrArg BitVec.toNat heq
    rw [hword] at hval
    exact hden (Unsigned.eq_zero_iff.2 hval)
  unfold mulDivFloor at h
  rw [Finite.Wide.mulDivFloor_eq hzero, hword, hword, hword] at h
  obtain ⟨w, hw, rfl⟩ := Option.map_eq_some_iff.1 h
  exact Finite.Wide.fit_eq_some.1 hw

/-- the exact split of a funded amount -/
structure Split (r : RewardRules) (amount reporter treasury burned residual : U128) : Prop where
  pool : reporter.val = amount.val * r.reporterShare.val / r.denominator.val
  share : treasury.val = amount.val * r.treasuryShare.val / r.denominator.val
  burn : burned.val = amount.val * r.burnShare.val / r.denominator.val
  whole : reporter.val + treasury.val + burned.val + residual.val = amount.val

/-- the wallets after an amount left one account and a share of it reached another, which may be the same -/
def transferred (wallets : OrdMap Id U128) (source target : Id) (amount share : ℕ) (wallets' : OrdMap Id U128) : Prop :=
  ∀ id, (balanceOf wallets' id).val + (if id = source then amount else 0) =
    (balanceOf wallets id).val + if id = target then share else 0

section Moves

variable (r : RewardRules) (actor : Id) (s : RewardState)

/-- what an accepted command does to the pools and the claims, before the nonce and the epoch advance -/
inductive RewardMoves : RewardCommand → RewardState → Prop
  | fund {amount reporter treasury burned residual funded remaining treasuryPaid burnedTotal residualTotal : U128}
      {wallets : OrdMap Id U128} (hsplit : Split r amount reporter treasury burned residual)
      (hbalance : amount ≤ balanceOf s.wallets actor)
      (hwallets : transferred s.wallets actor r.treasury amount.val treasury.val wallets)
      (htotal : balances wallets + amount.val = balances s.wallets + treasury.val)
      (hfunded : funded.val = s.funded.val + amount.val)
      (hremaining : remaining.val = s.remaining.val + reporter.val)
      (htreasury : treasuryPaid.val = s.treasuryPaid.val + treasury.val)
      (hburned : burnedTotal.val = s.burned.val + burned.val)
      (hresidual : residualTotal.val = s.residual.val + residual.val) :
      RewardMoves (.fund amount) { s with
        wallets := wallets
        funded := funded
        remaining := remaining
        treasuryPaid := treasuryPaid
        burned := burnedTotal
        residual := residualTotal }
  | accrue {aggregate : Aggregate} {report : Hash} {new : RewardClaim} {remaining : U128} (hphase : new.phase = .held)
      (hremaining : remaining.val + new.amount.val = s.remaining.val) :
      RewardMoves (.accrue aggregate report) { s with remaining := remaining, claims := s.claims ++ [new] }
  | claim {id : Hash} {i : Fin s.claims.length} {new : RewardClaim} {paid : U128} {wallets : OrdMap Id U128}
      (hid : s.claims[i].id = id) (hphase : s.claims[i].phase = .held)
      (hnew : new = { s.claims[i] with phase := .paid })
      (hwallets : balances wallets = balances s.wallets + s.claims[i].amount.val)
      (hpaid : paid.val = s.paid.val + s.claims[i].amount.val) :
      RewardMoves (.claim id) { s with wallets := wallets, paid := paid, claims := s.claims.set i new }
  | clawback {id : Hash} {i : Fin s.claims.length} {new : RewardClaim} {remaining : U128}
      (hid : s.claims[i].id = id) (hphase : s.claims[i].phase = .held)
      (hnew : new = { s.claims[i] with phase := .clawedBack })
      (hremaining : remaining.val = s.remaining.val + s.claims[i].amount.val) :
      RewardMoves (.clawback id) { s with remaining := remaining, claims := s.claims.set i new }

end Moves

section Arms

variable {r : RewardRules} {disputeRule : DisputeParameters} {actor : Id} {capacity : U32} {s mid : RewardState}
  {bond : Option BondState}

theorem allocation_ok {amount share q : U128} (hden : r.denominator ≠ .zero)
    (h : (allocation r amount share).result = .ok q) : q.val = amount.val * share.val / r.denominator.val := by
  simp only [allocation, result_bind, result_arm, result_step, Except.mapError, ok_bind,
    result_okOr_eq_ok] at h
  exact mulDivFloor_ok hden h

theorem balanceOf_insert {m : OrdMap Id U128} {k id : Id} {a : U128} :
    balanceOf (m.insert k a) id = if id = k then a else balanceOf m id := by
  unfold balanceOf
  rw [OrdMap.get_insert]
  split_ifs <;> rfl

theorem transfer_ok {wallets wallets' : OrdMap Id U128} {source target : Id} {amount share : U128}
    (hbalance : amount ≤ balanceOf wallets source)
    (h : (creditTreasury (wallets.insert source ((balanceOf wallets source).sub amount)) target share).result =
      .ok wallets') :
    transferred wallets source target amount.val share.val wallets' ∧
      balances wallets' + amount.val = balances wallets + share.val := by
  rw [Unsigned.le_def] at hbalance
  unfold creditTreasury at h
  set debited := wallets.insert source ((balanceOf wallets source).sub amount) with hdebited
  have hfirst := balances_insert (m := wallets) (k := source) (a := (balanceOf wallets source).sub amount)
  rw [Unsigned.val_sub, ← hdebited] at hfirst
  have hdebit : ∀ id, (balanceOf debited id).val + (if id = source then amount.val else 0) =
      (balanceOf wallets id).val := by
    intro id
    rw [hdebited, balanceOf_insert]
    by_cases hid : id = source
    · rw [if_pos hid, if_pos hid, hid, Unsigned.val_sub]
      omega
    · rw [if_neg hid, if_neg hid, Nat.add_zero]
  by_cases hshare : .zero < share
  · rw [if_pos hshare] at h
    simp only [result_bind, bind_eq_ok, result_okOr_eq_ok, Unsigned.checkedAdd_eq_some,
      result_pure, Except.ok.injEq] at h
    obtain ⟨sum, hsum, rfl⟩ := h
    have hsecond := balances_insert (m := debited) (k := target) (a := sum)
    refine ⟨fun id => ?_, by omega⟩
    have hd := hdebit id
    rw [balanceOf_insert]
    by_cases hid : id = target
    · rw [if_pos hid, if_pos hid, hsum]
      rw [hid] at hd ⊢
      omega
    · rw [if_neg hid, if_neg hid]
      omega
  · rw [if_neg hshare] at h
    obtain rfl := Except.ok.inj h
    have hzero : share.val = 0 := by
      rw [Unsigned.lt_def, Unsigned.val_zero] at hshare
      omega
    refine ⟨fun id => ?_, by omega⟩
    rw [hzero, ite_self, Nat.add_zero]
    exact hdebit id

theorem fund_ok {amount : U128} (hden : r.denominator ≠ .zero) (h : (fund r actor s amount).result = .ok mid) :
    RewardMoves r actor s (.fund amount) mid := by
  unfold fund at h
  simp only [result_bind, bind_eq_ok, refuseIf_ok, exists_unit, not_lt] at h
  obtain ⟨-, hbalance, reporter, hreporter, treasury, htreasury, burned, hburned, paid, hpaid, residual, hresidual,
    wallets, hwallets, funded, hfunded, remaining, hremaining, treasuryPaid, htreasuryPaid, burnedTotal, hburnedTotal,
    residualTotal, hresidualTotal, hmid⟩ := h
  simp only [result_okOr_eq_ok, Unsigned.checkedAdd_eq_some, Unsigned.checkedSub_eq_some,
    Option.bind_eq_some_iff] at hpaid hresidual hfunded hremaining htreasuryPaid hburnedTotal hresidualTotal
  cases hmid
  obtain ⟨part, hpart, hpaid⟩ := hpaid
  obtain ⟨htransferred, htotal⟩ := transfer_ok hbalance hwallets
  have hsplit : Split r amount reporter treasury burned residual :=
    ⟨allocation_ok hden hreporter, allocation_ok hden htreasury, allocation_ok hden hburned, by omega⟩
  exact .fund hsplit hbalance htransferred htotal hfunded hremaining htreasuryPaid hburnedTotal hresidualTotal

theorem accrue_ok {hash : Bytes → Hash} {aggregate : Aggregate} {report : Hash}
    (h : (accrue r capacity s bond hash aggregate report).result = .ok mid) :
    RewardMoves r actor s (.accrue aggregate report) mid := by
  simp only [accrue, result_bind, bind_eq_ok, refuseIf_ok, exists_unit, result_okOr_eq_ok,
    result_pure, Except.ok.injEq, not_lt, Unsigned.le_def] at h
  obtain ⟨b, -, index, -, liability, -, -, id, -, hremaining, -, -, rfl⟩ := h
  refine .accrue rfl ?_
  simp only [Unsigned.val_sub]
  omega

theorem entitlement_ok {b : BondState} {id : Hash} {found : Fin s.claims.length × Liability}
    (h : (entitlement s b id).result = .ok found) : s.claims[found.1].id = id := by
  simp only [entitlement, result_bind, bind_eq_ok, refuseIf_ok, exists_unit, result_okOr_eq_ok,
    result_pure, Except.ok.injEq] at h
  obtain ⟨i, hi, liability, -, -, rfl⟩ := h
  simpa using List.find?_some hi

theorem claim_ok {id : Hash} (h : (claim s bond id).result = .ok mid) : RewardMoves r actor s (.claim id) mid := by
  simp only [claim, result_bind, bind_eq_ok, refuseIf_ok, exists_unit, result_okOr_eq_ok,
    result_pure, Except.ok.injEq, not_not, Unsigned.checkedAdd_eq_some] at h
  obtain ⟨b, -, found, hfound, -, hphase, balance, hbalance, paid, hpaid, rfl⟩ := h
  have htotal := balances_insert (m := s.wallets) (k := s.claims[found.1].beneficiary) (a := balance)
  exact .claim (entitlement_ok hfound) hphase rfl (by omega) hpaid

theorem clawback_ok {id : Hash} (h : (clawback disputeRule s bond id).result = .ok mid) :
    RewardMoves r actor s (.clawback id) mid := by
  simp only [clawback, result_bind, bind_eq_ok, refuseIf_ok, exists_unit, result_okOr_eq_ok,
    result_pure, Except.ok.injEq, not_not, Unsigned.checkedAdd_eq_some] at h
  obtain ⟨b, -, found, hfound, -, hphase, remaining, hremaining, rfl⟩ := h
  exact .clawback (entitlement_ok hfound) hphase rfl hremaining

end Arms

/-- an accepted command: a move, the nonce and the epoch, between two sound states -/
structure RewardAccepted (r : RewardRules) (context : AccountContext) (s : RewardState) (c : RewardCommand)
    (out : RewardState) : Prop where
  before : s.Sound context.capacity
  after : out.Sound context.capacity
  move : ∃ mid next, RewardMoves r context.actor s c mid ∧
    out = { mid with nonces := mid.nonces.insert context.actor next, epoch := context.clock.epoch }

theorem rules_denominator {r : RewardRules} (h : r.validate = .ok ()) : r.denominator ≠ .zero := by
  unfold RewardRules.validate at h
  simp only [bind_eq_ok, exists_unit, ensure_eq_ok, not_or] at h
  obtain ⟨-, sum, -, -, -, hden, -⟩ := h
  exact hden

theorem runReward_ok {hash : Bytes → Hash} {r : RewardRules} {context : AccountContext} {s out : RewardState}
    {bond : Option BondState} {c : RewardCommand}
    (h : (runReward hash r context s bond c).result = .ok (.ok out)) : RewardAccepted r context s c out := by
  rw [runReward, result_settle, outcome_eq_accept] at h
  simp only [rewardBody, result_bind, bind_eq_ok, refuseIf_ok, failIf_ok, exists_unit, arm_ok,
    result_okOr_eq_ok, result_lift, result_pure, Except.ok.injEq] at h
  obtain ⟨hrules, -, -, economic, -, disputeRule, -, -, hsound, -, -, -, next, -, timing, -, -, -, -, mid, happly, -,
    hafter, -, rfl⟩ := h
  refine ⟨validateReward_ok.1 hsound, validateReward_ok.1 hafter, mid, next, ?_, rfl⟩
  cases c with
  | fund amount => exact fund_ok (rules_denominator hrules) happly
  | accrue aggregate report => exact accrue_ok happly
  | claim id => exact claim_ok happly
  | clawback id => exact clawback_ok happly

/-! ## One step -/

section Step

variable {r : RewardRules} {actor : Id} {s mid : RewardState} {c : RewardCommand}

theorem claimSum_set (phase : ClaimPhase) {i : Fin s.claims.length} (new : RewardClaim) :
    claimSum phase (s.claims.set i new) + (if s.claims[i].phase = phase then s.claims[i].amount.val else 0) =
      claimSum phase s.claims + if new.phase = phase then new.amount.val else 0 :=
  sum_map_set (f := fun c : RewardClaim => if c.phase = phase then c.amount.val else 0) i.2 new

theorem RewardMoves.custody (h : RewardMoves r actor s c mid) : mid.custody = s.custody := by
  unfold RewardState.custody
  cases h with
  | fund hsplit hbalance hwallets htotal hfunded hremaining htreasury hburned hresidual =>
    have hwhole := hsplit.whole
    simp only
    omega
  | @accrue aggregate report new remaining hphase hremaining =>
    have hsum : claimSum .held (s.claims ++ [new]) = claimSum .held s.claims + new.amount.val := by
      unfold claimSum
      rw [sum_map_append_single, if_pos hphase]
    simp only
    omega
  | @claim id i new paid wallets hid hphase hnew hwallets hpaid
  | @clawback id i new remaining hid hphase hnew hremaining =>
    have hsum := claimSum_set .held (i := i) new
    have hother : new.phase ≠ .held := by simp [hnew]
    rw [if_pos hphase, if_neg hother] at hsum
    simp only
    omega

theorem mem_set_of_not_held {i : Fin s.claims.length} {new x : RewardClaim} (hheld : s.claims[i].phase = .held)
    (hx : x ∈ s.claims) (hphase : x.phase ≠ .held) : x ∈ s.claims.set i new := by
  obtain ⟨k, hk, rfl⟩ := List.getElem_of_mem hx
  have hki : (i : ℕ) ≠ k := by
    rintro rfl
    exact hphase hheld
  exact List.mem_iff_getElem.2 ⟨k, by simpa using hk, List.getElem_set_ne hki _⟩

theorem RewardMoves.paid_kept (h : RewardMoves r actor s c mid) {x : RewardClaim} (hx : x ∈ s.claims)
    (hpaid : x.phase = .paid) : x ∈ mid.claims := by
  have hphase : x.phase ≠ .held := by simp [hpaid]
  cases h with
  | fund => exact hx
  | accrue => exact List.mem_append_left _ hx
  | claim hid hheld | clawback hid hheld => exact mem_set_of_not_held hheld hx hphase

theorem RewardMoves.paid_origin (h : RewardMoves r actor s c mid) {x : RewardClaim} (hx : x ∈ mid.claims)
    (hpaid : x.phase = .paid) : x ∈ s.claims ∨
      c = .claim x.id ∧ ∃ old ∈ s.claims, old.phase = .held ∧ x = { old with phase := .paid } := by
  cases h with
  | fund => exact Or.inl hx
  | @accrue aggregate report new remaining hphase =>
    rcases List.mem_append.1 hx with hold | hnew
    · exact Or.inl hold
    · obtain rfl := List.mem_singleton.1 hnew
      rw [hphase] at hpaid
      cases hpaid
  | @claim id i new paid wallets hid hheld hnew =>
    rcases List.mem_or_eq_of_mem_set hx with hold | rfl
    · exact Or.inl hold
    · refine Or.inr ⟨?_, _, List.getElem_mem i.2, hheld, hnew⟩
      rw [hnew]
      exact congrArg RewardCommand.claim hid.symm
  | @clawback id i new remaining hid hheld hnew =>
    rcases List.mem_or_eq_of_mem_set hx with hold | rfl
    · exact Or.inl hold
    · rw [hnew] at hpaid
      cases hpaid

end Step

/-! ## Runs -/

/-- one submitted command, with the bond account it refers to -/
structure RewardStep where
  rules : RewardRules
  context : AccountContext
  bond : Option BondState
  command : RewardCommand
  limits : Resource → ℕ

section Runs

variable (hash : Bytes → Hash)

/-- the successor state, when the producer accepts within the limits -/
def acceptsReward (s : RewardState) (step : RewardStep) : Option RewardState :=
  match (measured step.limits (runReward hash step.rules step.context s step.bond step.command)).1 with
  | .ok (.ok out) => some out
  | _ => none

/-- the state after a run -/
abbrev afterRewards (s : RewardState) (steps : List RewardStep) : RewardState :=
  Ledger.after (acceptsReward hash) s steps

/-- the claim that a step pays -/
def payment (s : RewardState) (step : RewardStep) : Option Hash := match step.command, acceptsReward hash s step with
  | .claim id, some _ => some id
  | _, _ => none

/-- the claims that a run pays, in order -/
abbrev payments (s : RewardState) (steps : List RewardStep) : List Hash :=
  Ledger.events (acceptsReward hash) (payment hash) s steps

variable {hash} {s out : RewardState} {step : RewardStep}

/-- an accepted step is an accepted command of the rewards -/
theorem acceptsReward_some (h : acceptsReward hash s step = some out) :
    RewardAccepted step.rules step.context s step.command out := by
  unfold acceptsReward at h
  split at h
  · rename_i out' hrun
    cases h
    exact runReward_ok (Metered.run_ok _ _ hrun)
  · cases h

theorem paid_kept (h : acceptsReward hash s step = some out) {x : RewardClaim} (hx : x ∈ s.claims)
    (hpaid : x.phase = .paid) : x ∈ out.claims := by
  obtain ⟨mid, next, hmove, rfl⟩ := (acceptsReward_some h).move
  exact hmove.paid_kept hx hpaid

theorem payment_records {id : Hash} (h : payment hash s step = some id) :
    (∀ x ∈ s.claims, x.id = id → x.phase = .held) ∧
      ∃ x ∈ (Ledger.next (acceptsReward hash) s step).claims, x.id = id ∧ x.phase = .paid := by
  unfold payment at h
  split at h
  · rename_i id' out hcommand haccept
    cases h
    have haccepted := acceptsReward_some haccept
    obtain ⟨mid, next, hmove, hout⟩ := haccepted.move
    rw [Ledger.next_of_accept haccept, hout]
    rw [hcommand] at hmove
    cases hmove with
    | @claim _ i new paid wallets hid hheld hnew =>
      refine ⟨fun x hx hxid => ?_, new, List.mem_iff_getElem.2 ⟨i, by simp, List.getElem_set_self _⟩, ?_, ?_⟩
      · rw [List.inj_on_of_nodup_map haccepted.before.claimIds hx (List.getElem_mem i.2) (hxid.trans hid.symm)]
        exact hheld
      · rw [hnew]
        exact hid
      · rw [hnew]
  · cases h

/-- **Claims are paid once.** -/
theorem payments_once (steps : List RewardStep) : (payments hash s steps).Nodup := by
  have honce : ((payments hash s steps).map id).Nodup := by
    refine (Ledger.events_once (fun s k => ∃ x ∈ s.claims, x.id = k ∧ x.phase = .paid) ?_ ?_).1
    · rintro s step out haccept k ⟨x, hx, hid, hpaid⟩
      exact ⟨x, paid_kept haccept hx hpaid, hid, hpaid⟩
    · intro s step k hk
      obtain ⟨hheld, x, hx, hid, hpaid⟩ := payment_records hk
      refine ⟨?_, x, hx, hid, hpaid⟩
      rintro ⟨y, hy, hyid, hypaid⟩
      rw [hheld y hy hyid] at hypaid
      cases hypaid
  simpa using honce

variable (hash) in
theorem rewards_sound {capacity : U32} (h : s.Sound capacity) (steps : List RewardStep) :
    ∃ capacity', (afterRewards hash s steps).Sound capacity' :=
  Ledger.after_invariant (P := fun s : RewardState => ∃ capacity, s.Sound capacity)
    (fun _ step _ haccept _ => ⟨step.context.capacity, (acceptsReward_some haccept).after⟩) ⟨capacity, h⟩

/-- **Reward accounting over whole runs.** From a state that validation accepts, after any sequence of commands with any
rules, contexts, bonds and limits: the totals add up to what was funded, the paid total is that of the paid claims,
custody is what it was, every claim is paid at most once and a paid claim stays as it is, an accepted funding splits its
amount exactly, and a refused command leaves the state unchanged. -/
theorem reward_accounting (hash : Bytes → Hash) (s₀ : RewardState) (capacity₀ : U32)
    (h₀ : (s₀.validate capacity₀).result = .ok ()) (steps : List RewardStep) :
    let s := afterRewards hash s₀ steps
    (s.funded.val = s.remaining.val + claimSum .held s.claims + s.paid.val + s.treasuryPaid.val + s.burned.val +
        s.residual.val) ∧
      s.paid.val = claimSum .paid s.claims ∧ s.custody = s₀.custody ∧ (payments hash s₀ steps).Nodup ∧
      (∀ step, acceptsReward hash s step = none → Ledger.next (acceptsReward hash) s step = s) ∧
      ∀ step out, acceptsReward hash s step = some out →
        (∀ x ∈ s.claims, x.phase = .paid → x ∈ out.claims) ∧
        (∀ x ∈ out.claims, x.phase = .paid → x ∈ s.claims ∨ step.command = .claim x.id ∧
          ∃ old ∈ s.claims, old.phase = .held ∧ x = { old with phase := .paid }) ∧
        (∀ amount, step.command = .fund amount → ∃ reporter treasury burned residual,
          Split step.rules amount reporter treasury burned residual ∧
          transferred s.wallets step.context.actor step.rules.treasury amount.val treasury.val out.wallets ∧
          out.funded.val = s.funded.val + amount.val ∧ out.remaining.val = s.remaining.val + reporter.val ∧
          out.treasuryPaid.val = s.treasuryPaid.val + treasury.val ∧ out.burned.val = s.burned.val + burned.val ∧
          out.residual.val = s.residual.val + residual.val) ∧
        (out.validate step.context.capacity).result = .ok () := by
  intro s
  obtain ⟨capacity, hsound⟩ := rewards_sound hash (validateReward_ok.1 h₀) steps
  refine ⟨hsound.funded, hsound.paid, ?_, payments_once steps, fun step hnone => Ledger.next_of_refuse hnone,
    fun step out haccept => ⟨fun x hx hpaid => paid_kept haccept hx hpaid, ?_, ?_,
      validateReward_ok.2 (acceptsReward_some haccept).after⟩⟩
  · refine Ledger.after_invariant (P := fun s : RewardState => s.custody = s₀.custody)
      (fun s step out haccept hs => ?_) rfl
    obtain ⟨mid, next, hmove, rfl⟩ := (acceptsReward_some haccept).move
    exact hmove.custody.trans hs
  · obtain ⟨mid, next, hmove, rfl⟩ := (acceptsReward_some haccept).move
    exact fun x hx hpaid => hmove.paid_origin hx hpaid
  · intro amount hcommand
    obtain ⟨mid, next, hmove, rfl⟩ := (acceptsReward_some haccept).move
    rw [hcommand] at hmove
    cases hmove with
    | fund hsplit hbalance hwallets htotal hfunded hremaining htreasury hburned hresidual =>
      exact ⟨_, _, _, _, hsplit, hwallets, hfunded, hremaining, htreasury, hburned, hresidual⟩

end Runs

/-! ## A run of a small pool -/

/-- quarters to the pool, to the treasury and to the burned total; the last quarter is residue -/
def sampleRules : RewardRules :=
  ⟨sampleHash 1, sampleHash 2, ⟨sampleId 9, 18⟩, .of 1, .of 1, .of 1, .of 1,
    .of 4, sampleId 2⟩

def sampleReward : RewardState :=
  ⟨sampleHash 1, sampleHash 2, ⟨sampleId 9, 18⟩, .zero, .zero, .zero, .zero, .zero, .zero,
    OrdMap.empty.insert (sampleId 2) (.of 10), [], OrdMap.empty, .zero⟩

/-- a bond whose only liability is cleared -/
def clearedBond : BondState :=
  { sampleBond with liabilities := [⟨sampleHash 4, sampleHash 1, sampleHash 1, .zero, some .zero, .of 8, .of 8, true⟩] }

/-- an aggregate of one report -/
def sampleAggregate : Aggregate :=
  ⟨sampleHash 3, sampleHash 1, sampleHash 2, fun _ => sampleHash 1, fun _ => sampleId 1⟩

def rewardStep (actor : Id) (nonce : U64) (command : RewardCommand) : RewardStep where
  rules := sampleRules
  context := ⟨sampleParameters, actor, nonce, ⟨sampleHash 5, sampleHash 9, .of 1⟩, .of 8⟩
  bond := some clearedBond
  command := command
  limits := fun _ => 10000000

/-- the treasury itself funds the pool, a reward accrues, and its beneficiary claims it twice -/
def rewardSteps : List RewardStep :=
  [rewardStep (sampleId 2) .zero (.fund (.of 10)),
    rewardStep (sampleId 2) (.of 1) (.accrue sampleAggregate (sampleHash 1)),
    rewardStep (sampleId 1) .zero (.claim (sampleHash 1)), rewardStep (sampleId 1) (.of 1) (.claim (sampleHash 1))]

/-- one claim is paid -/
theorem rewardSteps_paid : payments (fun _ => sampleHash 1) sampleReward rewardSteps = [sampleHash 1] := by
  decide +kernel

theorem reward_accounting_sample : (sampleReward.validate ⟨8, by decide⟩).result = .ok () ∧
    (afterRewards (fun _ => sampleHash 1) sampleReward rewardSteps).custody = sampleReward.custody ∧
    (payments (fun _ => sampleHash 1) sampleReward rewardSteps).Nodup ∧
    payments (fun _ => sampleHash 1) sampleReward rewardSteps = [sampleHash 1] := by
  have hvalid : (sampleReward.validate ⟨8, by decide⟩).result = .ok () := by decide +kernel
  obtain ⟨-, -, hcustody, honce, -⟩ :=
    reward_accounting (fun _ => sampleHash 1) sampleReward ⟨8, by decide⟩ hvalid rewardSteps
  exact ⟨hvalid, hcustody, honce, rewardSteps_paid⟩

/-- the payer is charged ten and receives two, one stays in the pool, one is paid, two are burned and four are residue -/
example : (fun s : RewardState => ((balanceOf s.wallets (sampleId 2)).val, (balanceOf s.wallets (sampleId 1)).val,
    s.remaining.val, s.paid.val, s.burned.val, s.residual.val))
    (afterRewards (fun _ => sampleHash 1) sampleReward rewardSteps) = (2, 1, 1, 1, 2, 4) := by
  decide +kernel

end ZenoFcis.Oracle
