/-
Whether an offset of a reachable pool can be stuck. A first deposit opens the pool of the reference state
(`deposit_reachable`), and after a small offset the loss that is fed back can exceed the loss of the next small one.

Result: `offset_liveness`. When an offset of a reachable pool goes through, and how it ends otherwise.
-/
import ZenoFcis.Zusd.StabilityRuns

namespace ZenoFcis.Zusd.Stability

open Lib Lib.Except
open Lib.Metered (result_bind result_lift result_okOr_some result_pure)

/-! ## A fresh pool -/

/-- room for four of everything -/
def roomy : Bounds :=
  ⟨⟨4, by decide⟩, ⟨4, by decide⟩, ⟨4, by decide⟩, ⟨4, by decide⟩, ⟨4, by decide⟩⟩

/-- the pool of a book without positions -/
def poolOf (total : U128) (stock : Stock) : State where
  total := total
  p := Q
  epoch := .zero
  scale := .zero
  errorS := .zero
  errorLoss := .zero
  errorG := .zero
  collateral := .zero
  stock := stock
  history := [emptyCell .zero .zero]
  epochs := [⟨.zero, .zero, false⟩]

def fullStock : Stock := ⟨FUNDED_CAP, .zero, .zero, .zero, .zero⟩

theorem genesis_eq : State.referenceGenesis FUNDED_CAP = .ok (poolOf .zero fullStock) := by
  simp [State.referenceGenesis, Stock.fundedReference, ensure, poolOf, fullStock, pure_eq, ok_bind]

theorem poolOf_valid (total : U128) : Valid (poolOf total fullStock) roomy := by
  have hhistory : 1 ≤ roomy.history.val := by decide
  have hepochs : 1 ≤ roomy.epochs.val := by decide
  have hsealed : false = decide ((Unsigned.zero : U64) < .zero) := by decide
  have hpos : 0 < Q.val := by decide
  exact ⟨⟨hhistory, hepochs, rfl, ⟨⟨rfl, hsealed, Nat.zero_lt_one⟩, trivial⟩, rfl, rfl⟩, hpos, le_rfl, ⟨rfl,
    Nat.add_zero _, le_rfl⟩⟩

theorem mul_ok (a : Wide) (b : U128) (h : a.val * b.val < Wide.bound) :
    (Wide.mul a b).result = .ok (Wide.ofNat (a.val * b.val)) := by
  rw [Wide.result_mul, Wide.exact, if_pos h]

theorem growth_zero : (growth .zero .zero .zero).result = .ok .zero := by
  have hsub : (Accumulator256.sub .zero .zero).result = .ok .zero := by
    have hz : (Wide.ofAccumulator Accumulator256.zero).val = 0 := by rw [Wide.val_ofAccumulator]; rfl
    rw [Accumulator256.sub, result_bind, Wide.result_sub, if_pos le_rfl, ok_bind, result_lift,
      Wide.accumulator_eq, Nat.sub_self, Wide.val_ofNat (by decide), accumulatorOf_eq_ok]
    rfl
  have hz : (Wide.ofAccumulator Accumulator256.zero).val = 0 := by rw [Wide.val_ofAccumulator]; rfl
  have hacc : Wide.accumulatorOf 0 = .ok .zero := accumulatorOf_eq_ok.2 rfl
  rw [growth, result_bind, hsub, ok_bind, result_bind, Wide.result_quotientWide, Wide.val_ofU128,
    if_neg (by decide), ok_bind, hz, Nat.zero_div, result_bind, result_lift, Wide.accumulator_eq,
    Wide.val_ofNat (by decide), hacc, ok_bind, Accumulator256.result_add]
  exact hacc

theorem share_zero (initial : U128) {d : Wide} (hd : d.val ≠ 0) : (share .zero initial d).result = .ok .zero := by
  have hz : (Wide.ofAccumulator Accumulator256.zero).val = 0 := by rw [Wide.val_ofAccumulator]; rfl
  have hb : 0 < Wide.bound := by decide
  rw [share, result_bind, mul_ok _ _ (by rw [hz, zero_mul]; exact hb), ok_bind, hz, zero_mul,
    result_bind, Wide.result_quotient, Wide.val_ofNat hb, dif_pos ⟨hd,
    by rw [Nat.zero_div]; decide⟩, ok_bind, result_pure]
  exact congrArg Except.ok (Unsigned.ext (Nat.zero_div _))

theorem compounded_fresh (total initial : U128) :
    (compounded (poolOf total fullStock) initial Q .zero .zero).result = .ok initial := by
  have hq : 0 < Q.val := by decide
  have hproduct : initial.val * Q.val < Wide.bound := product_lt (initial.fits.trans (by decide)) Q.fits
  have hdiff : (poolOf total fullStock).scale.checkedSub .zero = some .zero := rfl
  have hdomain : ¬ ((poolOf total fullStock).epoch < .zero ∨ Q = .zero ∨ Q < Q) := by
    change ¬ ((Unsigned.zero : U64) < .zero ∨ Q = .zero ∨ Q < Q)
    decide
  have hepoch : ¬ (Unsigned.zero : U64) < (poolOf total fullStock).epoch := by
    change ¬ (Unsigned.zero : U64) < .zero
    decide
  have hquot : initial.val * Q.val / Q.val = initial.val := Nat.mul_div_cancel _ hq
  have hsame : initial.val * Q.val / Q.val < 2 ^ 128 := hquot.trans_lt initial.fits
  have hkeep : ¬ initial.val < initial.val / SCALE.val := not_lt.2 (Nat.div_le_self _ _)
  have hresult : (do
      let product ← (Wide.ofU128 initial).mul (poolOf total fullStock).p
      let out ← product.quotient (Wide.ofU128 Q)
      pure (if out.1.val < initial.val / SCALE.val then .zero else out.1) : Work U128).result = .ok initial := by
    have hp : (poolOf total fullStock).p = Q := rfl
    rw [result_bind, hp, mul_ok _ _ (by rw [Wide.val_ofU128]; exact hproduct), ok_bind, Wide.val_ofU128,
      result_bind, Wide.result_quotient, Wide.val_ofU128, Wide.val_ofNat hproduct,
      dif_pos ⟨Nat.pos_iff_ne_zero.1 hq, hsame⟩, ok_bind, result_pure]
    have hval : (⟨initial.val * Q.val / Q.val, hsame⟩ : U128) = initial := Unsigned.ext hquot
    rw [hval, if_neg hkeep]
  have hshort : ¬ 2 ≤ (Unsigned.zero : U64).val := by decide
  have hscaled : (scaled Q (.zero : U64)).result = .ok (Wide.ofU128 Q) := by
    rw [scaled, if_neg (by decide), result_pure]
  rw [result_bind] at hresult
  rw [compounded, result_bind, result_failIf, ensure_bind hdomain, if_neg hepoch, result_bind, hdiff,
    result_okOr_some, ok_bind, if_neg hshort, result_bind, hscaled, ok_bind, result_bind]
  exact hresult

theorem cell_zero (total : U128) : (cell (poolOf total fullStock) .zero .zero).result =
    .ok (emptyCell .zero .zero) := rfl

theorem cell_one (total : U128) {above : U64} (h : above.val = 1) :
    (cell (poolOf total fullStock) .zero above).result = .ok (emptyCell .zero above) := by
  have hlt : (Unsigned.zero : U64) < above := Unsigned.lt_def.2 (by rw [h]; exact Nat.zero_lt_one)
  have hrecord : (poolOf total fullStock).epochs[(Unsigned.zero : U64).val]? = some ⟨.zero, .zero, false⟩ := rfl
  rw [cell, result_bind, result_charge, ok_bind, result_bind, hrecord, result_okOr_some,
    ok_bind, if_pos hlt, result_pure]

theorem gains_fresh (total initial : U128) :
    (gains (poolOf total fullStock) initial (current (poolOf total fullStock))).result = .ok (initial, .zero,
      .zero) := by
  have hcurrent : current (poolOf total fullStock) = ⟨Q, .zero, .zero, .zero, .zero⟩ := rfl
  by_cases hzero : initial = .zero
  · rw [gains, if_pos hzero, result_pure, hzero]
  · have habove : (Unsigned.zero : U64).checkedSucc = some ⟨1, by decide⟩ := rfl
    have hq : (Wide.ofU128 Q).val * Q.val < Wide.bound := by rw [Wide.val_ofU128]; decide
    have hne : (Wide.ofNat ((Wide.ofU128 Q).val * Q.val)).val ≠ 0 := by
      rw [Wide.val_ofNat hq, Wide.val_ofU128]
      decide
    rw [gains, if_neg hzero, hcurrent, result_bind, cell_zero, ok_bind, result_bind, habove,
      result_okOr_some, ok_bind, result_bind, @cell_one total ⟨1, by decide⟩ rfl, ok_bind]
    simp only [emptyCell, result_bind, growth_zero, ok_bind, mul_ok _ _ hq, compounded_fresh, share_zero _ hne,
      result_pure]

def firstPosition (amount : U128) : Deposit := ⟨.zero, amount, none, current (poolOf amount fullStock)⟩

theorem add_zero_result (x : U128) : (Wide.add (.ofU128 .zero) (.ofU128 x)).result = .ok (.ofU128 x) := by
  have hx : x.val < Wide.bound := x.fits.trans (by decide)
  rw [Wide.result_add, Wide.val_ofU128, Wide.val_ofU128, Unsigned.val_zero, Nat.zero_add, Wide.exact, if_pos hx]
  exact congrArg Except.ok (Wide.val_inj ((Wide.val_ofNat hx).trans (Wide.val_ofU128 x).symm))

theorem sub_self_result (x : U128) : (Wide.sub (.ofU128 x) (.ofU128 x)).result = .ok (.ofU128 .zero) := by
  rw [Wide.result_sub, if_pos le_rfl, Nat.sub_self]
  exact congrArg Except.ok (Wide.val_inj ((Wide.val_ofNat (by decide)).trans (Wide.val_ofU128 .zero).symm))

theorem narrow_zero : (Wide.ofU128 .zero).narrow = .ok .zero := by
  rw [Wide.narrow_eq, Wide.val_ofU128]
  rfl

theorem muldiv_zero (k : U128) : (muldiv .zero k Q).result = .ok .zero := by
  have hzero : (Unsigned.zero : U128).val * k.val / Q.val = 0 := by rw [Unsigned.val_zero, Nat.zero_mul, Nat.zero_div]
  rw [result_muldiv, dif_pos ⟨by decide, by rw [hzero]; decide⟩]
  exact congrArg Except.ok (Unsigned.ext hzero)

theorem sub_zero_result : (sub (.zero : U128) .zero).result = .ok .zero := rfl

theorem not_above (x y : U128) (h : x ≤ y) : ¬ (Wide.ofU128 x).cmp (.ofU128 y) = .gt := by
  rw [Wide.cmp_eq, Wide.val_ofU128, Wide.val_ofU128, compare_gt_iff_gt]
  exact not_lt.2 (Unsigned.le_def.1 h)

theorem validateDeposit_first {amount : U128} (hpos : amount ≠ .zero) (t : Sums) (ht : t.principal = .ofU128 .zero)
    (hc : t.coll = .ofU128 .zero) (hk : t.token = .ofU128 .zero) :
    (validateDeposit ⟨poolOf amount fullStock, [firstPosition amount], []⟩ t (firstPosition amount)).result =
      .ok { t with principal := .ofU128 amount, eligible := t.eligible || decide (Unsigned.zero < amount) } := by
  have hgains : (gains (poolOf amount fullStock) (firstPosition amount).initial
      (firstPosition amount).snapshot).result = .ok (amount, .zero, .zero) := gains_fresh amount amount
  have hinitial : ¬ (firstPosition amount).initial = .zero := hpos
  rw [validateDeposit, result_bind, result_failIf, ensure_bind hinitial, result_bind, hgains, ok_bind]
  simp only [result_bind, firstPosition, kickback, result_pure, ok_bind, ht, hc, hk, add_zero_result,
    muldiv_zero]

theorem validate_fresh (total : U128) : (validate (poolOf total fullStock) roomy).result = .ok () :=
  validate_eq.2 (poolOf_valid total)

theorem validateBook_fresh {total : U128} {deposits : List Deposit} {eligible : Bool}
    (hroom : deposits.length ≤ roomy.deposits.val) (hchain : (deposits.map Deposit.owner).IsChain (· < ·))
    (hfold : deposits.foldlM (fun t d => (validateDeposit ⟨poolOf total fullStock, deposits, []⟩ t d).result)
      (⟨.ofU128 .zero, .ofU128 .zero, .ofU128 .zero, .ofU128 .zero, false⟩ : Sums) =
        .ok ⟨.ofU128 total, .ofU128 .zero, .ofU128 .zero, .ofU128 .zero, eligible⟩) :
    ∃ l, (validateBook ⟨poolOf total fullStock, deposits, []⟩ roomy).result = .ok l := by
  have hfits : ¬ (roomy.deposits.val < deposits.length ∨ roomy.frontEnds.val < ([] : List FrontEnd).length) := by
    rintro (h | h)
    · exact absurd h (not_lt.2 hroom)
    · exact absurd h (Nat.not_lt_zero _)
  have hchains : ¬ (¬ (deposits.map Deposit.owner).IsChain (· < ·) ∨
      ¬ (([] : List FrontEnd).map FrontEnd.owner).IsChain (· < ·)) := by simp [hchain]
  have hzero : ¬ (Wide.ofU128 (.zero : U128)).cmp (.ofU128 .zero) = .gt := not_above _ _ le_rfl
  have hfront : ¬ (Wide.ofU128 (.zero : U128)).cmp (.ofU128 total) = .gt :=
    not_above _ _ (Unsigned.le_def.2 (Nat.zero_le _))
  have htotal : ¬ (Wide.ofU128 total).cmp (.ofU128 total) = .gt := not_above _ _ le_rfl
  unfold validateBook
  simp only [result_bind, validate_fresh, ok_bind, result_failIf, ensure_bind hfits, ensure_bind hchains,
    result_charge, Metered.result_foldlM, hfold, List.foldlM_nil, result_pure, result_lift]
  have hpool : (poolOf total fullStock).total = total ∧ (poolOf total fullStock).collateral = .zero ∧
      (poolOf total fullStock).stock.allocated = .zero ∧ (poolOf total fullStock).stock.paid = .zero :=
    ⟨rfl, rfl, rfl, rfl⟩
  obtain ⟨htot, hcoll, hallocated, hpaid⟩ := hpool
  rw [ensure_bind (by simp), htot, hcoll, hallocated, hpaid, ensure_bind hfront, ensure_bind htotal, ensure_bind hzero]
  rw [sub_zero_result, ok_bind, ensure_bind hzero, sub_self_result, ok_bind, narrow_zero, ok_bind, sub_self_result,
    ok_bind, narrow_zero, ok_bind, ok_bind, sub_self_result, ok_bind, narrow_zero, ok_bind]
  exact ⟨_, rfl⟩

theorem validateBook_empty : ∃ l, (validateBook ⟨poolOf .zero fullStock, [], []⟩ roomy).result = .ok l :=
  validateBook_fresh (Nat.zero_le _) .nil rfl

theorem validateBook_first {amount : U128} (hpos : amount ≠ .zero) :
    ∃ l, (validateBook ⟨poolOf amount fullStock, [firstPosition amount], []⟩ roomy).result = .ok l := by
  have hroom : [firstPosition amount].length ≤ roomy.deposits.val := by
    change 1 ≤ 4
    decide
  refine @validateBook_fresh amount _ (false || decide (Unsigned.zero < amount)) hroom (.singleton _) ?_
  rw [List.foldlM_cons, validateDeposit_first hpos _ rfl rfl rfl]
  rfl

/-- the first deposit into the pool of the reference state -/
def firstDeposit (amount : U128) : ChangeInputs where
  pre := ⟨poolOf .zero fullStock, [], []⟩
  actor := .zero
  command := .deposit amount none
  walletZusd := amount
  issuance := some .zero
  prices := ⟨.zero, none, .usable, false⟩
  inventory := []
  system := ⟨.zero, .zero, .zero, .zero, .zero, .zero, .zero, .zero⟩
  bounds := roomy

theorem issue_zero : (issue (poolOf .zero fullStock) (some .zero)).result = .ok (poolOf .zero fullStock) := rfl

theorem sub_zero_self (x : U128) : (sub x .zero).result = .ok x := by
  rw [result_sub, if_pos (Unsigned.le_def.2 (Nat.zero_le _))]
  exact congrArg Except.ok (Unsigned.ext (Nat.sub_zero _))

theorem zero_add_self (x : U128) : (add .zero x).result = .ok x := by
  have hval : (Unsigned.zero : U128).val + x.val = x.val := Nat.zero_add _
  rw [result_add, dif_pos (hval.trans_lt x.fits)]
  exact congrArg Except.ok (Unsigned.ext hval)

theorem settle_new {i : ChangeInputs} {pool : State} {input : U128} {l : Liabilities}
    (hissue : (issue i.pre.pool i.issuance).result = .ok pool) (htag : tagOf i.command none = none)
    (hwithdrawn : withdrawnBy i.command .zero = .zero) (hpos : .zero < input) (htotal : pool.total = .zero)
    (hcollateral : pool.collateral = .zero) (hpaid : pool.stock.paid = .zero) (hdeposits : i.pre.deposits = [])
    (hfronts : i.pre.frontEnds = []) (hroom : 0 < i.bounds.deposits.val)
    (hbook : (validateBook ⟨{ pool with total := input },
      [⟨i.actor, input, none, current { pool with total := input }⟩], []⟩ i.bounds).result = .ok l) :
    ∃ out, (settle i none input).result = .ok out ∧ out.book.pool = { pool with total := input } := by
  have hsame : ({ pool with total := input, collateral := .zero, stock := { pool.stock with paid := .zero } } : State) =
      { pool with total := input } := by
    have hstock : { pool.stock with paid := .zero } = pool.stock := by rw [← hpaid]
    rw [hstock, ← hcollateral]
  have hfront : settleFront pool [] input .zero none = pure ([], .zero) := rfl
  have hrefuse : ¬ (.zero < input ∧ i.bounds.deposits.val ≤
      (([] : List Deposit).filter fun d => decide (d.owner ≠ i.actor)).length) := fun h => absurd h.2 (not_le.2 hroom)
  rw [settle, result_bind, hissue, ok_bind, htag, hdeposits, hfronts, oldGains, result_bind,
    result_pure, ok_bind, kickback, result_bind, result_pure, ok_bind, result_bind,
    muldiv_zero, ok_bind, hwithdrawn]
  dsimp only
  rw [hfront, result_bind, result_pure, ok_bind, result_bind, htotal, zero_add_self, ok_bind,
    result_bind, sub_zero_self, ok_bind, result_bind, hcollateral, sub_zero_self, ok_bind,
    result_bind, zero_add_self, ok_bind, result_bind, hpaid, zero_add_self, ok_bind,
    result_bind, zero_add_self, ok_bind, result_bind, sub_zero_self, ok_bind]
  dsimp only
  rw [if_pos hpos, result_bind, result_failIf, ensure_bind hrefuse, hsame, result_bind]
  change ∃ out, ((validateBook ⟨{ pool with total := input },
    [⟨i.actor, input, none, current { pool with total := input }⟩], []⟩ i.bounds).result >>= _) = _ ∧ _
  rw [hbook, ok_bind]
  exact ⟨_, rfl, by rw [hcollateral]⟩

theorem change_new {i : ChangeInputs} {pool : State} {amount : U128} {l l' : Liabilities}
    (hcommand : i.command = .deposit amount none) (hpre : (validateBook i.pre i.bounds).result = .ok l')
    (hissue : (issue i.pre.pool i.issuance).result = .ok pool) (hpos : .zero < amount)
    (hwallet : amount ≤ i.walletZusd)
    (htotal : pool.total = .zero) (hcollateral : pool.collateral = .zero) (hpaid : pool.stock.paid = .zero)
    (hdeposits : i.pre.deposits = []) (hfronts : i.pre.frontEnds = []) (hvaults : i.inventory = [])
    (hroom : 0 < i.bounds.deposits.val)
    (hbook : (validateBook ⟨{ pool with total := amount },
      [⟨i.actor, amount, none, current { pool with total := amount }⟩], []⟩ i.bounds).result = .ok l) :
    ∃ out, (change i).result = .ok out ∧ out.book.pool = { pool with total := amount } := by
  have hsettle := settle_new hissue (by rw [hcommand]; rfl) (by rw [hcommand]; rfl) hpos htotal hcollateral hpaid
    hdeposits hfronts hroom hbook
  have hfits : ¬ i.bounds.vaults.val < ([] : List Vaults.Vault).length := Nat.not_lt_zero _
  have hne : ¬ amount = .zero := fun h => by rw [h] at hpos; exact absurd hpos (lt_irrefl _)
  have hinput : (inputOf i none none (.deposit amount none)).result = .ok amount := by
    rw [inputOf, result_bind, result_failIf, ensure_bind hne, result_bind, result_failIf,
      ensure_bind (by simp), result_bind, result_failIf, ensure_bind (by simp), result_bind,
      result_failIf, ensure_bind (not_lt.2 hwallet)]
    rfl
  have hgate : (gate i none).result = .ok () := by
    rw [gate, hcommand]
    rfl
  rw [change, result_bind, hpre, ok_bind, result_bind, hvaults, result_failIf, ensure_bind hfits,
    result_bind, result_charge, ok_bind, hdeposits, hfronts, hcommand]
  dsimp only [List.find?_nil]
  rw [result_bind, hinput, ok_bind, result_bind, hgate, ok_bind, result_bind, result_charge,
    ok_bind]
  exact hsettle

theorem deposit_reachable (amount : U128) (hpos : .zero < amount) :
    ∃ book, Reachable roomy book ∧ book.pool = poolOf amount fullStock := by
  have hne : amount ≠ .zero := fun h => by rw [h] at hpos; exact absurd hpos (lt_irrefl _)
  obtain ⟨l, hl⟩ := validateBook_first hne
  obtain ⟨l', hl'⟩ := validateBook_empty
  have hgenesis : Reachable roomy (firstDeposit amount).pre := .genesis genesis_eq
  have hroom : 0 < (firstDeposit amount).bounds.deposits.val := by
    change 0 < 4
    decide
  obtain ⟨out, hout, hpool⟩ := @change_new (firstDeposit amount) (poolOf .zero fullStock) amount l l' rfl hl'
    issue_zero hpos le_rfl rfl rfl rfl rfl rfl rfl hroom hl
  exact ⟨out.book, .change hgenesis rfl hout, hpool⟩

/-! ## Liveness -/

/-- **Liveness of offsets.** In every reachable pool the product is positive and the loss per unit never exceeds `Q`. An
offset of an available issuance succeeds or is refused for its capacity exactly when it proceeds; otherwise it fails
with `Arithmetic`. -/
theorem offset_liveness {b : Bounds} {book : Book} (h : Reachable b book) {debt collateral : U128}
    {delta : Option U128} (hd : 0 < debt.val) (hle : debt ≤ book.pool.total) :
    0 < book.pool.p.val ∧ unitLoss book.pool debt ≤ Q.val ∧
      (((∃ s, (offsetInner book.pool debt collateral delta b).result = .ok s) ∨
          (offsetInner book.pool debt collateral delta b).result = .error (.reject 1061)) ↔
        Available book.pool delta ∧ Proceeds book.pool b debt collateral) ∧
      (Available book.pool delta → ¬ Proceeds book.pool b debt collateral →
        (offsetInner book.pool debt collateral delta b).result = .error .arithmetic) := by
  have hhealthy := reachable_healthy h
  have hv : Valid book.pool b := hhealthy.valid.resolve_right fun h0 => by
    have hle' := Unsigned.le_def.1 hle
    omega
  have hended := @offset_outcome book.pool b debt collateral delta hv hhealthy.sound hd hle
  generalize (offsetInner book.pool debt collateral delta b).result = res at hended
  refine ⟨hv.p_pos, unitLoss_le hle, ?_⟩
  cases hended with
  | unavailable ha he =>
    refine ⟨⟨fun hr => ?_, fun hp => absurd hp.1 ha⟩, fun ha' => absurd ha' ha⟩
    rcases hr with ⟨s, hr⟩ | hr
    · exact nomatch hr
    · rcases he with rfl | rfl <;> exact nomatch hr
  | stuck ha hp =>
    refine ⟨⟨fun hr => ?_, fun hp' => absurd hp'.2 hp⟩, fun _ _ => rfl⟩
    rcases hr with ⟨s, hr⟩ | hr
    · exact nomatch hr
    · exact nomatch hr
  | full ha hp hfull => exact ⟨⟨fun _ => ⟨ha, hp⟩, fun _ => Or.inr rfl⟩, fun _ hp' => absurd hp hp'⟩
  | settled ha hp hs => exact ⟨⟨fun _ => ⟨ha, hp⟩, fun _ => Or.inl ⟨_, rfl⟩⟩, fun _ hp' => absurd hp hp'⟩

def large : U128 := ⟨10 ^ 30, by decide⟩

def one : U128 := ⟨1, one_fits⟩

/-- a pool of `large`, before the smallest offset and after it -/
theorem fresh_loss : unitLoss (poolOf large fullStock) one = 1 ∧
    nextLoss (poolOf large fullStock) one = 10 ^ 30 - 10 ^ 18 := by
  have hne : ¬ one = (poolOf large fullStock).total := by
    change ¬ one = large
    decide
  have hdebt : one.val = 1 := rfl
  have hq : Q.val = 10 ^ 18 := by norm_num [Q]
  have htotal : (poolOf large fullStock).total.val = 10 ^ 30 := rfl
  have herror : (poolOf large fullStock).errorLoss.val = 0 := rfl
  have hloss : unitLoss (poolOf large fullStock) one = 1 := by
    rw [unitLoss, if_neg hne, hdebt, hq, htotal, herror]
    norm_num
  refine ⟨hloss, ?_⟩
  rw [nextLoss, if_neg hne, hloss, hdebt, hq, htotal, herror]
  norm_num

theorem fresh_factor : factorOf (poolOf large fullStock) one = 10 ^ 18 - 1 := by
  rw [factorOf, fresh_loss.1]
  rfl

theorem fresh_proceeds : Proceeds (poolOf large fullStock) roomy one .zero ∧
    ¬ Full (poolOf large fullStock) roomy (factorOf (poolOf large fullStock) one) := by
  have hne : ¬ (10 ^ 18 - 1 = 0) := by norm_num
  have hproduct : (poolOf large fullStock).p.val * (10 ^ 18 - 1) / Q.val = 10 ^ 18 - 1 := by
    change 10 ^ 18 * (10 ^ 18 - 1) / 10 ^ 18 = 10 ^ 18 - 1
    norm_num
  have hscale : ¬ (10 ^ 18 - 1 < SCALE.val) := by
    change ¬ (10 ^ 18 - 1 < 10 ^ 9)
    norm_num
  rw [fresh_factor]
  refine ⟨⟨Or.inr (Nat.zero_le _), ?_, Or.inr ⟨?_, ?_⟩⟩, ?_⟩
  · have hsum : nextSum (poolOf large fullStock) .zero = 0 := by
      have hcell : (lastCell (poolOf large fullStock)).s.val = 0 := rfl
      have herror : (poolOf large fullStock).errorS.val = 0 := rfl
      rw [nextSum, hcell, herror, Unsigned.val_zero, Nat.zero_mul, Nat.zero_add, Nat.zero_div, Nat.zero_mul]
    rw [hsum]
    norm_num
  · rw [fresh_factor, nextP, if_neg hne, hproduct, if_neg hscale]
    norm_num
  · change 0 + 0 < 2 ^ 128
    norm_num
  · rw [Full, if_neg hne, hproduct]
    exact fun h => hscale h.1

theorem zero_available (s : State) : Available s (some .zero) := ⟨.zero, rfl, Unsigned.le_def.2 (Nat.zero_le _)⟩

/-- an offset can be stuck: after the smallest offset of a large pool the next one is refused as arithmetic -/
theorem stuck_offset : ¬ ∀ (b : Bounds) (book : Book) (debt collateral : U128) (delta : Option U128),
    Reachable b book → 0 < debt.val → debt ≤ book.pool.total → Available book.pool delta →
      (∃ s, (offsetInner book.pool debt collateral delta b).result = .ok s) ∨
        (offsetInner book.pool debt collateral delta b).result = .error (.reject 1061) := by
  intro hall
  obtain ⟨book, hbook, hpool⟩ := deposit_reachable large (Unsigned.lt_def.2 (by decide))
  have hone : 0 < one.val := Nat.one_pos
  have hle : one ≤ (poolOf large fullStock).total := by
    change one ≤ large
    decide
  obtain ⟨hproceeds, hroom⟩ := fresh_proceeds
  have hended := @offset_outcome (poolOf large fullStock) roomy one .zero (some .zero) (poolOf_valid large)
    (hpool ▸ (reachable_healthy hbook).sound) hone hle
  generalize hres : (offsetInner (poolOf large fullStock) one .zero (some .zero) roomy).result = res at hended
  cases hended with
  | unavailable ha _ => exact ha (zero_available _)
  | stuck _ h => exact h hproceeds
  | full _ _ hfull => exact hroom hfull
  | @settled s _ _ hs =>
    have hnext : Reachable roomy { book with pool := s } := .offset hbook (hpool ▸ hres)
    have htotal : s.total.val = 10 ^ 30 - 1 := hs.total_eq
    have hloss : s.errorLoss.val = 10 ^ 30 - 10 ^ 18 := hs.errorLoss_eq.trans fresh_loss.2
    have hle' : one ≤ s.total := Unsigned.le_def.2 (by rw [htotal]; norm_num [one])
    have hunfed : ¬ Proceeds s roomy one .zero := by
      rintro ⟨h | h, _⟩
      · rw [← h] at htotal
        norm_num [one] at htotal
      · rw [hloss] at h
        change 10 ^ 30 - 10 ^ 18 ≤ 1 * 10 ^ 18 at h
        norm_num at h
    have hwent := hall roomy { book with pool := s } one .zero (some .zero) hnext hone hle' (zero_available _)
    have hended' := @offset_outcome s roomy one .zero (some .zero) hs.valid hs.sound hone hle'
    generalize (offsetInner s one .zero (some .zero) roomy).result = res' at hended' hwent
    cases hended' with
    | unavailable ha _ => exact ha (zero_available _)
    | stuck _ _ => rcases hwent with ⟨_, h⟩ | h <;> cases h
    | full _ h _ => exact hunfed h
    | settled _ h _ => exact hunfed h

theorem offset_liveness_first : ∃ book, Reachable roomy book ∧
    ((∃ s, (offsetInner book.pool one .zero (some .zero) roomy).result = .ok s) ∨
      (offsetInner book.pool one .zero (some .zero) roomy).result = .error (.reject 1061)) := by
  obtain ⟨book, hbook, hpool⟩ := deposit_reachable large (Unsigned.lt_def.2 (by decide))
  have hle : one ≤ book.pool.total := by
    rw [hpool]
    change one ≤ large
    decide
  refine ⟨book, hbook, ?_⟩
  have hgoes := (@offset_liveness roomy book hbook one .zero (some .zero) Nat.one_pos hle).2.2.1
  exact hgoes.2 ⟨zero_available _, hpool ▸ fresh_proceeds.1⟩

end ZenoFcis.Zusd.Stability
