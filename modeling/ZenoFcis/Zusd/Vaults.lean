/-
Vault positions and the views that other relations take of them (`vaults.rs`): the collateral ratio, the effective
position, the inventory guard and the price guard.
-/
import ZenoFcis.Zusd.Wide

namespace ZenoFcis.Zusd

open Lib Lib.Except

/-- `[u8; 32]`, as the big-endian number it spells; that is how identities are compared -/
abbrev Id := Unsigned 256

/-- fixed-point rate precision -/
def Q : U128 := ⟨1000000000000000000, by decide⟩

def SCALE : U128 := ⟨1000000000, by decide⟩

@[simp] theorem Q_val : Q.val = 1000000000000000000 := rfl

@[simp] theorem SCALE_val : SCALE.val = 1000000000 := rfl

namespace Vaults

def MCR : U128 := ⟨1100000000000000000, by decide⟩

def CCR : U128 := ⟨1500000000000000000, by decide⟩

inductive Status where
  | active
  | closedOwner
  | closedLiquidation
  | closedRedemption
deriving DecidableEq

structure Vault where
  parameterVersion : U64
  id : Id
  owner : Id
  status : Status
  collateral : U128
  debt : U128
  reserve : U128
  stake : U128
  snapshotC : Accumulator256
  snapshotD : Accumulator256
deriving DecidableEq

structure System where
  collateral : U128
  debt : U128
  active : U32
  stakes : U128
  stakesSnapshot : U128
  collateralSnapshot : U128
  rewardC : Accumulator256
  rewardD : Accumulator256
deriving DecidableEq

inductive PriceStatus where
  | usable
  | unavailable
  | stale
  | disputed
  | uncertain
  | overBudget
deriving DecidableEq

structure Prices where
  committed : U128
  pending : Option U128
  status : PriceStatus
  pendingBlocked : Bool
deriving DecidableEq

/-- the reason code of a price status -/
def PriceStatus.check : PriceStatus → Except Failure Unit
  | .usable => .ok ()
  | .unavailable => .error (.reject 1020)
  | .stale => .error (.reject 1021)
  | .disputed => .error (.reject 1022)
  | .uncertain => .error (.reject 1023)
  | .overBudget => .error (.reject 1024)

def Prices.usable (p : Prices) : Work Unit := do
  .lift p.status.check
  failIf (p.committed = .zero ∨ p.pending = some .zero) .domain

def ratio (c d p : U128) : Work U128 :=
  if d = .zero then pure .max
  else if p = .zero then .fail .domain
  else do return (← (← (← (Wide.ofU128 c).mul p).mul ⟨10000000000, by decide⟩).quotient (.ofU128 d)).1

/-- `reward.sub(snapshot) * stake / Q` -/
def pending (reward snapshot : Accumulator256) (stake : U128) : Work U128 := do
  return (← (← (Wide.ofAccumulator (← reward.sub snapshot)).mul stake).quotient (.ofU128 Q)).1

def effective (v : Vault) (s : System) : Work Vault := do
  failIf (v.status ≠ .active) (.reject 1011)
  let collateral ← add v.collateral (← pending s.rewardC v.snapshotC v.stake)
  let debt ← add v.debt (← pending s.rewardD v.snapshotD v.stake)
  return { v with collateral, debt, snapshotC := s.rewardC, snapshotD := s.rewardD }

/-- the totals of an inventory -/
structure Totals where
  n : U32
  c : Wide
  d : Wide
  stakes : Wide

/-- the loop of `inventory` over the rows that are left, of `count` in all -/
def inventoryRows (s : System) (count : ℕ) : List Vault → Totals → Work Totals
  | [], t => pure t
  | v :: rows, t =>
    if v.status ≠ .active then inventoryRows s count rows t
    else do
      charge count count 0
      failIf (∃ other ∈ rows, other.status = .active ∧ other.owner = v.owner) .domain
      let n ← .okOr t.n.checkedSucc .arithmetic
      let entire ← effective v s
      let c ← t.c.add (.ofU128 entire.collateral)
      let d ← t.d.add (.ofU128 entire.debt)
      let stakes ← t.stakes.add (.ofU128 v.stake)
      inventoryRows s count rows ⟨n, c, d, stakes⟩

def inventory (rows : List Vault) (s : System) : Work Unit := do
  charge rows.length rows.length (rows.length * 288)
  failIf (¬ (rows.map Vault.id).IsChain (· < ·)) .canonical
  let t ← inventoryRows s rows.length rows ⟨.zero, .ofU128 .zero, .ofU128 .zero, .ofU128 .zero⟩
  failIf (t.n ≠ s.active ∨ t.stakes ≠ .ofU128 s.stakes ∨ t.c.cmp (.ofU128 s.collateral) = .gt ∨
    t.d.cmp (.ofU128 s.debt) = .gt) .conservation

end Vaults

end ZenoFcis.Zusd
