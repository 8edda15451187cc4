/-
The liquidation quote of one vault (`liquidation.rs`) beside the law that recomputes it (`laws.rs`). Results:
- `result_quote`: both give the same partition, the same refusal or the same failure on every input;
- `checkQuote_exact`: the law accepts the quote and nothing else, where there is one;
- `partition_capped`: what the capped branch seizes is at most the collateral of the vault.
-/
import ZenoFcis.Zusd.Vaults

namespace ZenoFcis.Zusd

open Lib Lib.Except
open Lib.Metered (result_bind result_lift result_pure)

/-- `a.quotient(d)?.0` -/
def Wide.floor (a d : Wide) : Work U128 := do
  return (← a.quotient d).1

namespace Vaults

theorem scale_fits : 10000000000 < 2 ^ 128 := by decide

/-- the precision of a price in a ratio -/
def RATIO_SCALE : U128 := ⟨10000000000, scale_fits⟩

def recovery (s : System) (p : U128) : Work Bool := do
  if .zero < s.debt then return decide ((← ratio s.collateral s.debt p) < CCR) else pure false

end Vaults

namespace Liquidation

open Vaults

structure Partition where
  debt : U128
  collateral : U128
  offset : U128
  redistributedDebt : U128
  spCollateral : U128
  redistributedCollateral : U128
  keeperCollateral : U128
  surplus : U128
  reserve : U128
deriving DecidableEq

/-- `x / 200` -/
def keeperShare (x : U128) : U128 := ⟨x.val / 200, (Nat.div_le_self _ _).trans_lt x.fits⟩

/-- a partition of the vault in which nothing is distributed yet -/
def Partition.empty (v : Vault) : Partition :=
  { debt := v.debt, collateral := v.collateral, offset := .zero, redistributedDebt := .zero, spCollateral := .zero,
    redistributedCollateral := .zero, keeperCollateral := .zero, surplus := .zero, reserve := v.reserve }

/-- the branch of recovery mode above the minimum ratio: the pool takes the whole debt for a capped collateral -/
def cappedShares (v : Vault) (price : U128) : Work Partition := do
  let denominator ← (Wide.ofU128 price).mul RATIO_SCALE
  let cap ← (← (Wide.ofU128 v.debt).mul MCR).floor denominator
  let keeperCollateral := keeperShare cap
  let spCollateral ← sub cap keeperCollateral
  let surplus ← sub v.collateral cap
  return { Partition.empty v with keeperCollateral, spCollateral, offset := v.debt, surplus }

/-- the debt the pool takes and the collateral it gets for that, unless recovery mode leaves it out -/
def poolShare (v : Vault) (c icr available : U128) (mode : Bool) : Work (U128 × U128) :=
  if mode = false ∨ Q < icr then do
    let offset := min v.debt available
    return (offset, ← muldiv c offset v.debt)
  else pure (.zero, .zero)

/-- the other branches: what the pool does not take is redistributed -/
def ordinaryShares (v : Vault) (icr available : U128) (mode : Bool) : Work Partition := do
  let keeperCollateral := keeperShare v.collateral
  let c ← sub v.collateral keeperCollateral
  let (offset, spCollateral) ← poolShare v c icr available mode
  let redistributedDebt ← sub v.debt offset
  let redistributedCollateral ← sub c spCollateral
  return { Partition.empty v with
    keeperCollateral, offset, spCollateral, redistributedDebt, redistributedCollateral }

/-- the partition equations; no reserve enters the offset twice -/
def balanced (out : Partition) : Work Unit := do
  let debt ← add out.offset out.redistributedDebt
  failIf (debt ≠ out.debt) .conservation
  let pooled ← add out.spCollateral out.redistributedCollateral
  let kept ← add out.keeperCollateral out.surplus
  let collateral ← add pooled kept
  failIf (collateral ≠ out.collateral) .conservation

def partition (v : Vault) (system : System) (price available : U128) (mode : Bool) : Work (Option Partition) := do
  let icr ← ratio v.collateral v.debt price
  let tcr ← ratio system.collateral system.debt price
  if mode = true ∧ system.active.val ≤ 1 then pure none
  else if (mode = false ∧ MCR ≤ icr) ∨ (mode = true ∧ MCR ≤ icr ∧ (tcr ≤ icr ∨ available < v.debt)) then pure none
  else do
    let out ← if mode = true ∧ MCR ≤ icr then cappedShares v price else ordinaryShares v icr available mode
    balanced out
    return some out

def quote (v : Vault) (system : System) (prices : Prices) (available : U128) : Work Partition := do
  failIf (v.status ≠ .active) (.reject 1011)
  prices.usable
  failIf (system.active.val ≤ 1) (.reject 1041)
  let v ← effective v system
  let mode ← recovery system prices.committed
  .okOr (← partition v system prices.committed available mode) (.reject 1044)

end Liquidation

/-! ## The law -/

namespace Laws

open Vaults Liquidation

/-- `delta * stake / Q` -/
def gain (delta : Accumulator256) (stake : U128) : Work U128 := do
  (← (Wide.ofAccumulator delta).mul stake).floor (.ofU128 Q)

def expectedPending (v : Vault) (s : System) : Work Vault := do
  failIf (v.status ≠ .active) (.reject 1011)
  let deltaC ← s.rewardC.sub v.snapshotC
  let deltaD ← s.rewardD.sub v.snapshotD
  let collateral ← add v.collateral (← gain deltaC v.stake)
  let debt ← add v.debt (← gain deltaD v.stake)
  return { v with collateral, debt, snapshotC := s.rewardC, snapshotD := s.rewardD }

/-- the law's ratio, which expects a usable price -/
def ratio (c d p : U128) : Work U128 :=
  if d = .zero then pure .max
  else do (← (← (Wide.ofU128 c).mul p).mul RATIO_SCALE).floor (.ofU128 d)

def priceReason : PriceStatus → Option ℕ
  | .usable => none
  | .unavailable => some 1020
  | .stale => some 1021
  | .disputed => some 1022
  | .uncertain => some 1023
  | .overBudget => some 1024

def refuseWith : Option ℕ → Work Unit
  | none => pure ()
  | some r => .fail (.reject r)

/-- the partition of an eligible vault -/
def expectedShares (v : Vault) (price available icr : U128) (recovery : Bool) : Work Partition := do
  let capped := recovery && decide (MCR ≤ icr)
  let seized ←
    if capped then do
      let numerator ← (Wide.ofU128 v.debt).mul MCR
      let denominator ← (Wide.ofU128 price).mul RATIO_SCALE
      numerator.floor denominator
    else pure v.collateral
  let keeper := keeperShare seized
  let offset := if capped then v.debt else if recovery = true ∧ icr ≤ Q then .zero else min available v.debt
  let distributable ← sub seized keeper
  let sp ← if capped then pure distributable else muldiv distributable offset v.debt
  let redistributedDebt ← sub v.debt offset
  let redistributedCollateral ← if capped then pure .zero else sub distributable sp
  let surplus ← sub v.collateral seized
  return {
    debt := v.debt, collateral := v.collateral, offset, redistributedDebt, spCollateral := sp, redistributedCollateral,
    keeperCollateral := keeper, surplus, reserve := v.reserve }

def expectedQuote (v : Vault) (s : System) (p : Prices) (available : U128) : Work Partition := do
  failIf (v.status ≠ .active) (.reject 1011)
  refuseWith (priceReason p.status)
  failIf (p.committed = .zero ∨ p.pending = some .zero) .domain
  failIf (s.active.val ≤ 1) (.reject 1041)
  let v ← expectedPending v s
  let icr ← ratio v.collateral v.debt p.committed
  let tcr ← ratio s.collateral s.debt p.committed
  let recovery := decide (.zero < s.debt ∧ tcr < CCR)
  let eligible := if recovery then decide (icr < MCR ∨ (icr < tcr ∧ v.debt ≤ available)) else decide (icr < MCR)
  failIf (eligible = false) (.reject 1044)
  expectedShares v p.committed available icr recovery

/-- a reference that fails without a refusal fails the check, whatever the candidate -/
def checkQuote (v : Vault) (s : System) (p : Prices) (available : U128) (candidate : Except Failure Partition) :
    Work Unit := do
  let reference ← attempt (expectedQuote v s p available)
  match reference with
  | .error (.reject _) | .ok _ => failIf (reference ≠ candidate) (.law 2001)
  | .error e => .fail e

end Laws

/-! ## What the parts compute -/

/-- a number that has to fit 128 bits -/
def fit (n : ℕ) : Except Failure U128 := if h : n < 2 ^ 128 then .ok ⟨n, h⟩ else .error .arithmetic

/-- a number that fits -/
theorem fit_ok {n : ℕ} (h : n < 2 ^ 128) : fit n = .ok ⟨n, h⟩ := dif_pos h

theorem fit_val (x : U128) : fit x.val = .ok x := dif_pos x.fits

theorem fit_cases (n : ℕ) : (∃ x : U128, x.val = n ∧ fit n = .ok x) ∨ fit n = .error .arithmetic := by
  by_cases h : n < 2 ^ 128
  · exact .inl ⟨⟨n, h⟩, rfl, fit_ok h⟩
  · exact .inr (dif_neg h)

/-- **Addition** is exact or fails -/
theorem add_fit (a b : U128) : (add a b).result = fit (a.val + b.val) := result_add a b

variable {b c d icr price cap available offset tcr : U128} {v : Vault} {mode : Bool}
  {out : Liquidation.Partition} {s : System}
  {p : Prices}

/-- **Subtraction** of a smaller number is exact -/
theorem sub_fit {a : U128} (h : b.val ≤ a.val) : (sub a b).result = .ok (a.sub b) := by
  rw [result_sub, if_pos (Unsigned.le_def.2 h)]

/-- **Multiplication and division** are exact or fail -/
theorem muldiv_fit (a b d : U128) (hd : d.val ≠ 0) : (muldiv a b d).result = fit (a.val * b.val / d.val) := by
  rw [result_muldiv]
  unfold fit
  by_cases h : a.val * b.val / d.val < 2 ^ 128
  · rw [dif_pos h, dif_pos ⟨hd, h⟩]
  · rw [dif_neg h, dif_neg (fun hboth => h hboth.2)]

theorem floor_fit {n m : ℕ} (hn : n < Wide.bound) (hm : m < Wide.bound) (hpos : m ≠ 0) :
    ((Wide.ofNat n).floor (.ofNat m)).result = fit (n / m) := by
  unfold Wide.floor
  rw [result_bind, Wide.result_quotient, Wide.val_ofNat hn, Wide.val_ofNat hm]
  simp only [result_pure]
  unfold fit
  by_cases h : n / m < 2 ^ 128
  · rw [dif_pos h, dif_pos ⟨hpos, h⟩, ok_bind]
  · rw [dif_neg h, dif_neg (fun hboth => h hboth.2)]
    rfl

theorem mul_exact {a : Wide} (h : a.val * b.val < Wide.bound) :
    (a.mul b).result = .ok (.ofNat (a.val * b.val)) := by
  rw [Wide.result_mul, Wide.exact, if_pos h]

namespace Vaults

/-- the ratio of a usable price, as a number -/
def ratioOf (c d p : U128) : Except Failure U128 :=
  if d = .zero then .ok .max else fit (c.val * p.val * RATIO_SCALE.val / d.val)

theorem scaled_lt (c p : U128) : c.val * p.val * RATIO_SCALE.val < Wide.bound :=
  product_lt ((Nat.mul_lt_mul'' c.fits p.fits).trans_eq (by decide)) RATIO_SCALE.fits

theorem result_ratio (c d p : U128) (hp : p ≠ .zero) : (ratio c d p).result = ratioOf c d p := by
  have hproduct : c.val * p.val < Wide.bound := product_lt (c.fits.trans (by decide)) p.fits
  unfold ratioOf
  by_cases hd : d = .zero
  · rw [if_pos hd, ratio, if_pos hd, result_pure]
  · have hfloor := floor_fit (scaled_lt c p) (d.fits.trans (by decide)) (mt Unsigned.eq_zero_iff.2 hd)
    have hratio : ratio c d p = (Wide.ofU128 c).mul p >>= fun x => x.mul RATIO_SCALE >>= fun y => y.floor (.ofU128 d) := by
      rw [ratio, if_neg hd, if_neg hp]
      rfl
    rw [if_neg hd, hratio, result_bind, mul_exact (by rw [Wide.val_ofU128]; exact hproduct), ok_bind,
      Wide.val_ofU128, result_bind, mul_exact (by rw [Wide.val_ofNat hproduct]; exact scaled_lt c p), ok_bind,
      Wide.val_ofNat hproduct]
    exact hfloor

end Vaults

namespace Accumulator256

/-- a smaller accumulator can be subtracted -/
theorem result_sub_ok {x y : Accumulator256} (h : y.val ≤ x.val) :
    ∃ z : Accumulator256, (sub x y).result = .ok z ∧ z.val = x.val - y.val := by
  have hbound : x.val < Wide.bound := x.val_lt.trans (by decide)
  have hrest : x.val - y.val < 2 ^ 256 := (Nat.sub_le _ _).trans_lt x.val_lt
  refine ⟨⟨⟨(x.val - y.val) / 2 ^ 128, by omega⟩, ⟨(x.val - y.val) % 2 ^ 128, Nat.mod_lt _ (by decide)⟩⟩, ?_, ?_⟩
  · simp only [sub, result_bind, Wide.result_sub, Wide.val_ofAccumulator, result_lift,
      Wide.accumulator_eq]
    rw [if_pos h, ok_bind, Wide.val_ofNat ((Nat.sub_le _ _).trans_lt hbound), Wide.accumulatorOf, dif_pos hrest]
  · exact Nat.mod_add_div _ _

theorem result_sub_error {x y : Accumulator256} (h : ¬ y.val ≤ x.val) : (sub x y).result = .error .arithmetic := by
  simp only [sub, result_bind, Wide.result_sub, Wide.val_ofAccumulator]
  rw [if_neg h]
  rfl

end Accumulator256

open Vaults Liquidation Laws

/-- a gain is the floor of the share of the growth -/
theorem result_gain (delta : Accumulator256) (stake : U128) :
    (gain delta stake).result = fit (delta.val * stake.val / Q.val) := by
  have hproduct : delta.val * stake.val < Wide.bound := product_lt delta.val_lt stake.fits
  unfold gain
  rw [result_bind, mul_exact (by rw [Wide.val_ofAccumulator]; exact hproduct), ok_bind, Wide.val_ofAccumulator]
  exact floor_fit hproduct (by decide) (by decide)

/-- a pending gain is a gain on the growth -/
theorem pending_eq (reward snapshot : Accumulator256) (stake : U128) :
    pending reward snapshot stake = reward.sub snapshot >>= fun delta => gain delta stake := by
  unfold pending gain
  rfl

/-- **Pending gains.** The law takes both deltas before either product; all its failures are `Arithmetic`. -/
theorem Laws.result_expectedPending (v : Vault) (s : System) :
    (expectedPending v s).result = (effective v s).result := by
  unfold expectedPending effective
  simp only [pending_eq, result_bind, result_pure, result_failIf, add_fit, result_gain]
  by_cases hactive : v.status ≠ .active
  · simp only [ensure, if_neg (not_not.2 hactive), error_bind]
  · rw [ensure_bind hactive, ensure_bind hactive]
    by_cases hC : v.snapshotC.val ≤ s.rewardC.val
    · obtain ⟨deltaC, hdeltaC, -⟩ := Accumulator256.result_sub_ok hC
      by_cases hD : v.snapshotD.val ≤ s.rewardD.val
      · obtain ⟨deltaD, hdeltaD, -⟩ := Accumulator256.result_sub_ok hD
        rw [hdeltaC, hdeltaD]
        rfl
      · rw [hdeltaC, Accumulator256.result_sub_error hD, ok_bind, error_bind, ok_bind]
        rcases fit_cases (deltaC.val * v.stake.val / Q.val) with ⟨gained, -, hgained⟩ | hgained
        · rw [hgained, ok_bind]
          rcases fit_cases (v.collateral.val + gained.val) with ⟨collateral, -, hsum⟩ | hsum
          · rw [hsum, ok_bind, error_bind, error_bind]
          · rw [hsum, error_bind]
        · rw [hgained, error_bind]
    · rw [Accumulator256.result_sub_error hC]
      rfl

/-! ## The two quotes -/

theorem ratioOf_ok {p : U128} (hd : d ≠ .zero) (h : ratioOf c d p = .ok icr) :
    icr.val = c.val * p.val * RATIO_SCALE.val / d.val := by
  unfold ratioOf fit at h
  rw [if_neg hd] at h
  split_ifs at h
  cases h
  rfl

theorem debt_ne_zero {p : U128} (h : ratioOf c d p = .ok icr) (hlow : ¬ MCR ≤ icr) : d ≠ .zero := by
  intro hd
  unfold ratioOf at h
  rw [if_pos hd] at h
  cases h
  exact hlow (by decide)

/-- **The cap.** At the minimum ratio or above it, the collateral covers what the capped branch seizes. -/
theorem cap_le {p : U128} (h : ratioOf c d p = .ok icr) (hhigh : MCR ≤ icr) :
    d.val * MCR.val / (p.val * RATIO_SCALE.val) ≤ c.val := by
  by_cases hd : d = .zero
  · rw [hd, Unsigned.val_zero, zero_mul, Nat.zero_div]
    exact Nat.zero_le _
  · have hpos : 0 < d.val := Nat.pos_of_ne_zero (mt Unsigned.eq_zero_iff.2 hd)
    have hratio : MCR.val ≤ c.val * p.val * RATIO_SCALE.val / d.val := by
      rw [← ratioOf_ok hd h]
      exact hhigh
    have hproduct := (Nat.le_div_iff_mul_le hpos).1 hratio
    apply Nat.div_le_of_le_mul
    calc d.val * MCR.val = MCR.val * d.val := Nat.mul_comm _ _
      _ ≤ c.val * p.val * RATIO_SCALE.val := hproduct
      _ = p.val * RATIO_SCALE.val * c.val := by ring

theorem keeperShare_le (x : U128) : (keeperShare x).val ≤ x.val := Nat.div_le_self _ _

/-- the partition that seizes a cap -/
def cappedOf (v : Vault) (cap : U128) : Partition :=
  { Partition.empty v with
    keeperCollateral := keeperShare cap, spCollateral := cap.sub (keeperShare cap), offset := v.debt,
    surplus := v.collateral.sub cap }

/-- the partition that seizes the whole collateral -/
def ordinaryOf (v : Vault) (offset sp : U128) : Partition :=
  { Partition.empty v with
    keeperCollateral := keeperShare v.collateral, offset, spCollateral := sp, redistributedDebt := v.debt.sub offset,
    redistributedCollateral := (v.collateral.sub (keeperShare v.collateral)).sub sp }

theorem scaled_price_lt (price : U128) : price.val * RATIO_SCALE.val < Wide.bound :=
  product_lt (price.fits.trans (by decide)) RATIO_SCALE.fits

theorem minimum_debt_lt (debt : U128) : debt.val * MCR.val < Wide.bound :=
  product_lt (debt.fits.trans (by decide)) MCR.fits

theorem result_cap (debt price : U128) (hprice : price ≠ .zero) :
    ((Wide.ofNat (debt.val * MCR.val)).floor (.ofNat (price.val * RATIO_SCALE.val))).result =
      fit (debt.val * MCR.val / (price.val * RATIO_SCALE.val)) :=
  floor_fit (minimum_debt_lt debt) (scaled_price_lt price)
    (Nat.mul_ne_zero (mt Unsigned.eq_zero_iff.2 hprice) (by decide))

theorem result_cappedShares (hprice : price ≠ .zero)
    (hcap : cap.val = v.debt.val * MCR.val / (price.val * RATIO_SCALE.val)) (hle : cap.val ≤ v.collateral.val) :
    (cappedShares v price).result = .ok (cappedOf v cap) := by
  unfold cappedShares
  simp only [result_bind, result_pure]
  rw [mul_exact (by rw [Wide.val_ofU128]; exact scaled_price_lt price), ok_bind,
    mul_exact (by rw [Wide.val_ofU128]; exact minimum_debt_lt v.debt), ok_bind, Wide.val_ofU128, Wide.val_ofU128,
    result_cap _ _ hprice, ← hcap, fit_val, ok_bind, sub_fit (keeperShare_le cap), ok_bind, sub_fit hle, ok_bind]
  rfl

theorem Laws.result_expectedShares_capped (hprice : price ≠ .zero)
    (hhigh : MCR ≤ icr) (hcap : cap.val = v.debt.val * MCR.val / (price.val * RATIO_SCALE.val))
    (hle : cap.val ≤ v.collateral.val) :
    (expectedShares v price available icr true).result = .ok (cappedOf v cap) := by
  have hcapped : (true && decide (MCR ≤ icr)) = true := by
    rw [Bool.true_and, decide_eq_true hhigh]
  have hnone : v.debt.sub v.debt = .zero := Unsigned.ext (Nat.sub_self _)
  unfold expectedShares
  simp only [hcapped, if_true, result_bind, result_pure, ok_bind]
  rw [mul_exact (by rw [Wide.val_ofU128]; exact minimum_debt_lt v.debt), ok_bind,
    mul_exact (by rw [Wide.val_ofU128]; exact scaled_price_lt price), ok_bind, Wide.val_ofU128, Wide.val_ofU128,
    result_cap _ _ hprice, ← hcap, fit_val, ok_bind, sub_fit (keeperShare_le cap), ok_bind, sub_fit le_rfl, ok_bind,
    sub_fit hle, ok_bind, hnone]
  rfl

/-- the debt that the pool takes in the ordinary branches -/
def pooledDebt (v : Vault) (icr available : U128) (mode : Bool) : U128 :=
  if mode = false ∨ Q < icr then min v.debt available else .zero

theorem pooledDebt_le (v : Vault) (icr available : U128) (mode : Bool) :
    (pooledDebt v icr available mode).val ≤ v.debt.val := by
  unfold pooledDebt
  split_ifs
  · exact Unsigned.le_def.1 (min_le_left _ _)
  · exact Nat.zero_le _

theorem share_le {debt : U128} (h : offset.val ≤ debt.val) : c.val * offset.val / debt.val ≤ c.val := by
  apply Nat.div_le_of_le_mul
  rw [mul_comm]
  exact Nat.mul_le_mul_right _ h

/-- the collateral that the pool receives for a part of the debt -/
def pooledCollateral (v : Vault) (offset : U128) (h : offset.val ≤ v.debt.val) : U128 :=
  ⟨(v.collateral.sub (keeperShare v.collateral)).val * offset.val / v.debt.val, (share_le h).trans_lt (Unsigned.fits _)⟩

theorem muldiv_pooled (hdebt : v.debt ≠ .zero) (h : offset.val ≤ v.debt.val) :
    (muldiv (v.collateral.sub (keeperShare v.collateral)) offset v.debt).result = .ok (pooledCollateral v offset h) := by
  rw [muldiv_fit _ _ _ (mt Unsigned.eq_zero_iff.2 hdebt)]
  exact fit_ok _

theorem result_poolShare (icr available : U128) (mode : Bool) (hdebt : v.debt ≠ .zero) :
    (poolShare v (v.collateral.sub (keeperShare v.collateral)) icr available mode).result =
      .ok (pooledDebt v icr available mode, pooledCollateral v _ (pooledDebt_le v icr available mode)) := by
  unfold poolShare
  by_cases h : mode = false ∨ Q < icr
  · have hoffset : pooledDebt v icr available mode = min v.debt available := if_pos h
    rw [if_pos h, result_bind, ← hoffset, muldiv_pooled hdebt (pooledDebt_le _ _ _ _), ok_bind,
      result_pure]
  · have hoffset : pooledDebt v icr available mode = .zero := if_neg h
    rw [if_neg h, result_pure]
    refine congrArg Except.ok (Prod.ext hoffset.symm (Unsigned.ext ?_))
    change 0 = _ * (pooledDebt v icr available mode).val / _
    rw [hoffset, Unsigned.val_zero, Nat.mul_zero, Nat.zero_div]

theorem result_ordinaryShares (icr available : U128) (mode : Bool) (hdebt : v.debt ≠ .zero) :
    (ordinaryShares v icr available mode).result = .ok (ordinaryOf v (pooledDebt v icr available mode)
      (pooledCollateral v _ (pooledDebt_le v icr available mode))) := by
  unfold ordinaryShares
  simp only [result_bind, result_pure]
  rw [sub_fit (keeperShare_le v.collateral), ok_bind, result_poolShare icr available mode hdebt, ok_bind,
    sub_fit (pooledDebt_le _ _ _ _), ok_bind, sub_fit (share_le (pooledDebt_le _ _ _ _)), ok_bind]
  rfl

theorem Laws.result_expectedShares_ordinary (hdebt : v.debt ≠ .zero) (hlow : ¬ (mode = true ∧ MCR ≤ icr)) :
    (expectedShares v price available icr mode).result = .ok (ordinaryOf v (pooledDebt v icr available mode)
      (pooledCollateral v _ (pooledDebt_le v icr available mode))) := by
  have hcapped : (mode && decide (MCR ≤ icr)) = false := by
    rw [← Bool.not_eq_true, Bool.and_eq_true, decide_eq_true_iff]
    exact hlow
  have hoffset : (if mode = true ∧ icr ≤ Q then .zero else min available v.debt) = pooledDebt v icr available mode := by
    unfold pooledDebt
    cases mode
    · simp [min_comm]
    · by_cases h : icr ≤ Q
      · simp [h, not_lt.2 h]
      · simp [h, not_le.1 h, min_comm]
  have hnone : v.collateral.sub v.collateral = .zero := Unsigned.ext (Nat.sub_self _)
  unfold expectedShares
  simp only [hcapped, Bool.false_eq_true, if_false, result_bind, result_pure, ok_bind, hoffset]
  rw [sub_fit (keeperShare_le v.collateral), ok_bind, muldiv_pooled hdebt (pooledDebt_le _ _ _ _), ok_bind,
    sub_fit (pooledDebt_le _ _ _ _), ok_bind, sub_fit (share_le (pooledDebt_le _ _ _ _)), ok_bind, sub_fit le_rfl,
    ok_bind, hnone]
  rfl

theorem result_balanced (hdebt : out.offset.val + out.redistributedDebt.val = out.debt.val)
    (hcollateral : out.spCollateral.val + out.redistributedCollateral.val +
      (out.keeperCollateral.val + out.surplus.val) = out.collateral.val) :
    (balanced out).result = .ok () := by
  have hd := out.debt.fits
  have hc := out.collateral.fits
  have hpooled : out.spCollateral.val + out.redistributedCollateral.val < 2 ^ 128 := by omega
  have hkept : out.keeperCollateral.val + out.surplus.val < 2 ^ 128 := by omega
  unfold balanced
  simp only [result_bind, add_fit, result_failIf]
  rw [hdebt, fit_val, ok_bind, ensure_bind (not_not.2 rfl), fit_ok hpooled, ok_bind, fit_ok hkept, ok_bind, hcollateral,
    fit_val, ok_bind, ensure, if_pos (not_not.2 rfl)]

theorem balanced_capped (v : Vault) (hle : cap.val ≤ v.collateral.val) :
    (balanced (cappedOf v cap)).result = .ok () := by
  have hkeeper := keeperShare_le cap
  refine result_balanced (Nat.add_zero _) ?_
  change cap.val - (keeperShare cap).val + 0 + ((keeperShare cap).val + (v.collateral.val - cap.val)) = v.collateral.val
  omega

theorem balanced_ordinary (v : Vault) (h : offset.val ≤ v.debt.val) :
    (balanced (ordinaryOf v offset (pooledCollateral v offset h))).result = .ok () := by
  have hkeeper := keeperShare_le v.collateral
  have hshare : (pooledCollateral v offset h).val ≤ v.collateral.val - (keeperShare v.collateral).val := share_le h
  refine result_balanced ?_ ?_
  · change offset.val + (v.debt.val - offset.val) = v.debt.val
    omega
  · change (pooledCollateral v offset h).val +
      (v.collateral.val - (keeperShare v.collateral).val - (pooledCollateral v offset h).val) +
      ((keeperShare v.collateral).val + 0) = v.collateral.val
    omega

theorem result_recovery (s : System) (p : U128) (hp : p ≠ .zero) :
    (recovery s p).result = (ratioOf s.collateral s.debt p).map (fun tcr => decide (.zero < s.debt ∧ tcr < CCR)) := by
  unfold recovery
  by_cases hd : Unsigned.zero < s.debt
  · rw [if_pos hd, result_bind, result_ratio _ _ _ hp]
    simp only [result_pure, hd, true_and]
    cases ratioOf s.collateral s.debt p <;> rfl
  · have hzero : s.debt = .zero := by
      rw [Unsigned.eq_zero_iff]
      exact Nat.eq_zero_of_not_pos hd
    rw [if_neg hd, result_pure, ratioOf, if_pos hzero]
    simp [hd, Except.map]

theorem Laws.result_ratio (c d p : U128) (hp : p ≠ .zero) : (Laws.ratio c d p).result = ratioOf c d p := by
  have heq : Laws.ratio c d p = Vaults.ratio c d p := by
    unfold Laws.ratio Vaults.ratio
    rw [if_neg hp]
    rfl
  rw [heq, Vaults.result_ratio c d p hp]

theorem usable_cases (p : Prices) :
    p.usable.result = (refuseWith (priceReason p.status)).result >>= fun _ =>
      (failIf (p.committed = .zero ∨ p.pending = some .zero) .domain).result := by
  unfold Prices.usable
  rw [result_bind, result_lift]
  cases p.status <;> rfl

theorem ratioOf_cases (c d p : U128) : (∃ r, ratioOf c d p = .ok r) ∨ ratioOf c d p = .error .arithmetic := by
  unfold ratioOf
  split_ifs
  · exact .inl ⟨_, rfl⟩
  · rcases fit_cases (c.val * p.val * RATIO_SCALE.val / d.val) with ⟨r, -, hr⟩ | hr
    · exact .inl ⟨r, hr⟩
    · exact .inr hr

/-- whether a vault may be liquidated -/
def Eligible (v : Vault) (icr tcr available : U128) (mode : Bool) : Prop :=
  icr < MCR ∨ (mode = true ∧ icr < tcr ∧ v.debt ≤ available)

instance (v : Vault) (icr tcr available : U128) (mode : Bool) : Decidable (Eligible v icr tcr available mode) :=
  inferInstanceAs (Decidable (_ ∨ _))

/-- the partition of an eligible vault -/
def shares (v : Vault) (price available icr : U128) (mode : Bool) : Except Failure Partition :=
  (Laws.expectedShares v price available icr mode).result

theorem result_shares (hprice : price ≠ .zero)
    (hicr : ratioOf v.collateral v.debt price = .ok icr) (heligible : Eligible v icr tcr available mode) :
    ∃ out, shares v price available icr mode = .ok out ∧ (balanced out).result = .ok () ∧
      (if mode = true ∧ MCR ≤ icr then cappedShares v price else ordinaryShares v icr available mode).result =
        .ok out := by
  by_cases h : mode = true ∧ MCR ≤ icr
  · have hle := cap_le hicr h.2
    have hcap : v.debt.val * MCR.val / (price.val * RATIO_SCALE.val) < 2 ^ 128 := hle.trans_lt v.collateral.fits
    refine ⟨cappedOf v ⟨_, hcap⟩, ?_, balanced_capped v hle, ?_⟩
    · rw [shares, h.1]
      exact Laws.result_expectedShares_capped hprice h.2 rfl hle
    · rw [if_pos h]
      exact result_cappedShares hprice rfl hle
  · have hlow : ¬ MCR ≤ icr := by
      rcases heligible with hlow | ⟨hmode, -⟩
      · exact not_le.2 hlow
      · exact fun hhigh => h ⟨hmode, hhigh⟩
    have hdebt := debt_ne_zero hicr hlow
    refine ⟨_, Laws.result_expectedShares_ordinary hdebt h, balanced_ordinary v _, ?_⟩
    rw [if_neg h]
    exact result_ordinaryShares icr available mode hdebt

theorem result_partition
    (hprice : price ≠ .zero) (hactive : ¬ s.active.val ≤ 1) (hicr : ratioOf v.collateral v.debt price = .ok icr)
    (htcr : ratioOf s.collateral s.debt price = .ok tcr) :
    (partition v s price available mode).result = if Eligible v icr tcr available mode
      then (shares v price available icr mode).map some else .ok none := by
  have hguard : (mode = false ∧ MCR ≤ icr) ∨ (mode = true ∧ MCR ≤ icr ∧ (tcr ≤ icr ∨ available < v.debt)) ↔
      ¬ Eligible v icr tcr available mode := by
    unfold Eligible
    rw [not_or, not_lt, ← not_lt (b := tcr), ← not_le (a := v.debt)]
    cases mode
    · simp
    · simp only [Bool.true_eq_false, false_and, false_or, true_and]
      tauto
  unfold partition
  simp only [result_bind, Vaults.result_ratio _ _ _ hprice, hicr, htcr, ok_bind, hactive, and_false, if_false,
    hguard]
  by_cases heligible : Eligible v icr tcr available mode
  · obtain ⟨out, hshares, hbalanced, hout⟩ := result_shares hprice hicr heligible
    rw [if_pos heligible, if_neg (not_not.2 heligible), hshares]
    by_cases hcapped : mode = true ∧ MCR ≤ icr
    · rw [if_pos hcapped] at hout ⊢
      rw [result_bind, hout, ok_bind, result_bind, hbalanced, ok_bind, result_pure]
      rfl
    · rw [if_neg hcapped] at hout ⊢
      rw [result_bind, hout, ok_bind, result_bind, hbalanced, ok_bind, result_pure]
      rfl
  · rw [if_neg heligible, if_pos heligible, result_pure]

/-- **The quote and its law.** They give the same partition, the same refusal or the same failure. -/
theorem result_quote (v : Vault) (s : System) (p : Prices) (available : U128) :
    (quote v s p available).result = (expectedQuote v s p available).result := by
  unfold quote expectedQuote
  simp only [result_bind, usable_cases, bind_assoc, Laws.result_expectedPending]
  refine bind_congr fun _ => bind_congr fun _ => ?_
  by_cases hzero : p.committed = .zero ∨ p.pending = some .zero
  · simp only [result_failIf, ensure, if_neg (not_not.2 hzero), error_bind]
  have hprice : p.committed ≠ .zero := fun h => hzero (.inl h)
  refine bind_congr fun _ => ?_
  by_cases hactive : s.active.val ≤ 1
  · simp only [result_failIf, ensure, if_neg (not_not.2 hactive), error_bind]
  refine bind_congr fun _ => bind_congr fun v => ?_
  rw [result_recovery s _ hprice, Laws.result_ratio _ _ _ hprice, Laws.result_ratio _ _ _ hprice]
  rcases ratioOf_cases v.collateral v.debt p.committed with ⟨icr, hicr⟩ | hicr
  · rcases ratioOf_cases s.collateral s.debt p.committed with ⟨tcr, htcr⟩ | htcr
    · rw [hicr, htcr, ok_bind, ok_bind]
      change ((partition v s p.committed available (decide (.zero < s.debt ∧ tcr < CCR))).result >>= fun out =>
        (Metered.okOr out (.reject 1044) : Work Partition).result) = _
      set mode := decide (.zero < s.debt ∧ tcr < CCR)
      rw [result_partition hprice hactive hicr htcr]
      have heligible : (if mode then decide (icr < MCR ∨ (icr < tcr ∧ v.debt ≤ available)) else decide (icr < MCR)) =
          decide (Eligible v icr tcr available mode) := by
        unfold Eligible
        cases mode <;> simp
      rw [heligible, result_failIf]
      by_cases h : Eligible v icr tcr available mode
      · rw [if_pos h, decide_eq_true h, ensure_bind (by decide)]
        change _ = shares v p.committed available icr mode
        cases shares v p.committed available icr mode <;> rfl
      · rw [if_neg h, decide_eq_false h]
        rfl
    · rw [hicr, htcr, ok_bind, error_bind]
      rfl
  · rw [hicr, error_bind]
    rcases ratioOf_cases s.collateral s.debt p.committed with ⟨tcr, htcr⟩ | htcr
    · rw [htcr]
      change ((partition v s p.committed available _).result >>= _) = _
      unfold partition
      simp only [result_bind, Vaults.result_ratio _ _ _ hprice, hicr, error_bind]
    · rw [htcr]
      rfl

/-- what a quote says about its vault -/
structure Quoted (v : Vault) (s : System) (p : Prices) (available : U128) (out : Partition) (entire : Vault)
    (icr tcr : U128) : Prop where
  price_ne : p.committed ≠ .zero
  entire_eq : (effective v s).result = .ok entire
  icr_eq : ratioOf entire.collateral entire.debt p.committed = .ok icr
  tcr_eq : ratioOf s.collateral s.debt p.committed = .ok tcr
  eligible : Eligible entire icr tcr available (decide (.zero < s.debt ∧ tcr < CCR))
  shares_eq : shares entire p.committed available icr (decide (.zero < s.debt ∧ tcr < CCR)) = .ok out

theorem quoted_of_quote
    (h : (quote v s p available).result = .ok out) : ∃ entire icr tcr, Quoted v s p available out entire icr tcr := by
  unfold quote at h
  simp only [result_bind, usable_cases, bind_assoc, bind_eq_ok, result_failIf, ensure_eq_ok, exists_const] at h
  obtain ⟨-, -, -, hzero, hactive, entire, hentire, mode, hmode, found, hfound, hout⟩ := h
  have hprice : p.committed ≠ .zero := fun h => hzero (.inl h)
  rw [result_recovery s _ hprice] at hmode
  rcases ratioOf_cases s.collateral s.debt p.committed with ⟨tcr, htcr⟩ | htcr
  · rw [htcr] at hmode
    cases hmode
    rcases ratioOf_cases entire.collateral entire.debt p.committed with ⟨icr, hicr⟩ | hicr
    · rw [result_partition hprice hactive hicr htcr] at hfound
      rw [Metered.result_okOr_eq_ok] at hout
      split_ifs at hfound with heligible
      · refine ⟨entire, icr, tcr, hprice, hentire, hicr, htcr, heligible, ?_⟩
        cases hshares : shares entire p.committed available icr (decide (.zero < s.debt ∧ tcr < CCR)) with
        | error e =>
          rw [hshares] at hfound
          cases hfound
        | ok out' =>
          rw [hshares] at hfound
          cases hfound
          cases hout
          rfl
      · cases hfound
        cases hout
    · unfold partition at hfound
      simp only [result_bind, Vaults.result_ratio _ _ _ hprice, hicr, error_bind] at hfound
      cases hfound
  · rw [htcr] at hmode
    cases hmode

/-- **The capped branch.** In recovery mode, above the minimum ratio, a quote seizes the cap and no more than there is. -/
theorem quote_capped {entire : Vault} (hentire : (effective v s).result = .ok entire)
    (hicr : (Vaults.ratio entire.collateral entire.debt p.committed).result = .ok icr)
    (hrecovery : (recovery s p.committed).result = .ok true) (hhigh : MCR ≤ icr)
    (hquote : (quote v s p available).result = .ok out) :
    out.spCollateral.val + out.keeperCollateral.val =
        entire.debt.val * MCR.val / (p.committed.val * RATIO_SCALE.val) ∧
      out.spCollateral.val + out.keeperCollateral.val ≤ entire.collateral.val ∧
      out.redistributedCollateral = .zero ∧ out.redistributedDebt = .zero ∧ out.offset = entire.debt ∧
      out.surplus.val = entire.collateral.val - (out.spCollateral.val + out.keeperCollateral.val) := by
  obtain ⟨entire', icr', tcr, h⟩ := quoted_of_quote hquote
  cases hentire.symm.trans h.entire_eq
  cases ((Vaults.result_ratio _ _ _ h.price_ne).symm.trans hicr).symm.trans h.icr_eq
  rw [result_recovery s _ h.price_ne, h.tcr_eq] at hrecovery
  have hmode : decide (.zero < s.debt ∧ tcr < CCR) = true := Except.ok.inj hrecovery
  have hle := cap_le h.icr_eq hhigh
  have hcap : (Laws.expectedShares entire p.committed available icr true).result =
      .ok (cappedOf entire ⟨_, hle.trans_lt entire.collateral.fits⟩) :=
    Laws.result_expectedShares_capped h.price_ne hhigh rfl hle
  have hshares := h.shares_eq
  rw [hmode, shares, hcap] at hshares
  cases hshares
  have hkeeper := keeperShare_le ⟨_, hle.trans_lt entire.collateral.fits⟩
  have hsum := Nat.sub_add_cancel hkeeper
  exact ⟨hsum, hsum.trans_le hle, rfl, rfl, rfl, congrArg (entire.collateral.val - ·) hsum.symm⟩

theorem ensure_congr {p q : Prop} [Decidable p] [Decidable q] (h : p ↔ q) (e : Failure) : ensure p e = ensure q e := by
  unfold ensure
  simp only [h]

/-- a reference is an answer when it is a partition or a refusal -/
def Answered : Except Failure Partition → Prop
  | .ok _ => True
  | .error (.reject _) => True
  | .error _ => False

theorem checkQuote_answered (h : Answered (quote v s p available).result) (candidate : Except Failure Partition) :
    (checkQuote v s p available candidate).result =
      ensure (candidate = (quote v s p available).result) (.law 2001) := by
  unfold checkQuote
  rw [result_bind, result_attempt, ok_bind]
  rw [result_quote] at h ⊢
  cases hreference : (expectedQuote v s p available).result with
  | ok out =>
    rw [result_failIf]
    exact ensure_congr (not_not.trans eq_comm) _
  | error e =>
    rw [hreference] at h
    cases e with
    | reject r =>
      rw [result_failIf]
      exact ensure_congr (not_not.trans eq_comm) _
    | _ => exact h.elim

theorem checkQuote_failed {e : Failure}
    (hquote : (quote v s p available).result = .error e) (h : ¬ Answered (.error e))
    (candidate : Except Failure Partition) : (checkQuote v s p available candidate).result = .error e := by
  unfold checkQuote
  rw [result_bind, result_attempt, ok_bind, ← result_quote, hquote]
  cases e with
  | reject r => exact absurd trivial h
  | _ => rfl

/-- **The law of the quote.** The quote and the law agree on every input. Where they answer, the law accepts the quote and
nothing else; where they fail, it fails the same way. In the capped branch what is seized is no more than there is. -/
theorem quote_law_exact (v : Vault) (s : System) (p : Prices) (available : U128) :
    (quote v s p available).result = (expectedQuote v s p available).result ∧
    (Answered (quote v s p available).result → ∀ candidate, (checkQuote v s p available candidate).result =
      if candidate = (quote v s p available).result then .ok () else .error (.law 2001)) ∧
    (∀ e, (quote v s p available).result = .error e → ¬ Answered (.error e) →
      ∀ candidate, (checkQuote v s p available candidate).result = .error e) ∧
    ∀ entire icr out, (effective v s).result = .ok entire →
      (Vaults.ratio entire.collateral entire.debt p.committed).result = .ok icr →
      (recovery s p.committed).result = .ok true → MCR ≤ icr → (quote v s p available).result = .ok out →
      out.spCollateral.val + out.keeperCollateral.val =
          entire.debt.val * MCR.val / (p.committed.val * RATIO_SCALE.val) ∧
        out.spCollateral.val + out.keeperCollateral.val ≤ entire.collateral.val ∧
        out.redistributedCollateral = .zero ∧ out.redistributedDebt = .zero ∧ out.offset = entire.debt ∧
        out.surplus.val = entire.collateral.val - (out.spCollateral.val + out.keeperCollateral.val) := by
  exact ⟨result_quote v s p available, fun h candidate => checkQuote_answered h candidate,
    fun e he hfail => checkQuote_failed he hfail, fun entire icr out hentire hicr hrecovery hhigh hquote =>
      quote_capped hentire hicr hrecovery hhigh hquote⟩

/-- a vault that is settled is its own effective vault -/
theorem effective_settled (hactive : v.status = .active) (hC : v.snapshotC = s.rewardC)
    (hD : v.snapshotD = s.rewardD) : (effective v s).result = .ok v := by
  have hpending (x : Accumulator256) : (pending x x v.stake).result = .ok .zero := by
    obtain ⟨delta, hdelta, hval⟩ := @Accumulator256.result_sub_ok x x le_rfl
    rw [pending_eq, result_bind, hdelta, ok_bind, result_gain, hval, Nat.sub_self, zero_mul, Nat.zero_div]
    exact fit_ok (Nat.two_pow_pos 128)
  unfold effective
  simp only [result_bind, result_failIf, hC, hD, hpending, ok_bind, add_fit, Unsigned.val_zero, add_zero,
    fit_val, result_pure]
  rw [ensure_bind (not_not.2 hactive)]
  exact congrArg Except.ok (by rw [← hC, ← hD])

/-- a vault with a small debt for its collateral -/
def richVault : Vault :=
  { parameterVersion := .of 1, id := .zero, owner := .zero, status := .active, collateral := .max,
    debt := .of 1000, reserve := .zero, stake := .zero, snapshotC := .zero, snapshotD := .zero }

def richSystem : System :=
  { collateral := .max, debt := .of 1000, active := .of 2, stakes := .zero, stakesSnapshot := .zero,
    collateralSnapshot := .zero, rewardC := .zero, rewardD := .zero }

def unitPrices : Prices := { committed := Q, pending := none, status := .usable, pendingBlocked := false }

/-- the ratio of the vault has no place, so that the law accepts nothing, not even what the quote gives -/
theorem checkQuote_overflow :
    ¬ ∀ (v : Vault) (s : System) (p : Prices) (available : U128) (candidate : Except Failure Partition),
      (checkQuote v s p available candidate).result = .ok () ↔ candidate = (quote v s p available).result := by
  intro h
  have hquote : (quote richVault richSystem unitPrices .zero).result = .error .arithmetic := by
    rw [result_quote]
    unfold expectedQuote
    simp only [Metered.result_bind, Laws.result_expectedPending]
    have hratio : ratioOf richVault.collateral richVault.debt unitPrices.committed = .error .arithmetic := by
      rw [ratioOf, if_neg (by decide), fit, dif_neg (by decide)]
    have hstatus : richVault.status = .active := rfl
    have husable : (refuseWith (priceReason unitPrices.status)).result = .ok () := rfl
    rw [effective_settled rfl rfl rfl, result_failIf, ensure_bind (not_not.2 hstatus), husable, ok_bind, result_failIf,
      ensure_bind (by decide), result_failIf, ensure_bind (by decide), ok_bind, Laws.result_ratio _ _ _ (by decide),
      hratio, error_bind]
  have haccepts := (h richVault richSystem unitPrices .zero (.error .arithmetic)).2 hquote.symm
  rw [checkQuote_failed hquote (fun h => h)] at haccepts
  cases haccepts

end ZenoFcis.Zusd
