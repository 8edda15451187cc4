/-
The reward-account relation (`oracle/rewards.rs`): a funded pool, the table of claims and the producer `run`.

The fixed SHA-256 provider is the parameter `hash`, a function on bytes. `RewardPlan` holds its successor state only, so
an accepted outcome is that state.
-/
import ZenoFcis.Finite.Wide
import ZenoFcis.Oracle.Bonds
import ZenoFcis.Oracle.Wire

namespace ZenoFcis.Oracle

open Lib Lib.Except

/-- denomination-bound reward rates and recipient shares -/
structure RewardRules where
  feed : Hash
  profile : Hash
  unit : RewardUnit
  perReport : U128
  reporterShare : U128
  treasuryShare : U128
  burnShare : U128
  denominator : U128
  treasury : Id
deriving DecidableEq

def RewardRules.validate (r : RewardRules) : Except Failure Unit := do
  r.unit.validate
  let sum ← okOr ((r.reporterShare.checkedAdd r.treasuryShare).bind (·.checkedAdd r.burnShare)) .arithmetic
  ensure (¬ (r.feed = .zero ∨ r.profile = .zero ∨ r.denominator = .zero ∨ r.denominator < sum)) .invalidProfile

inductive ClaimPhase where
  | held
  | paid
  | clawedBack
deriving DecidableEq

/-- reward entitlement bound to a selected report and liability -/
structure RewardClaim where
  id : Hash
  aggregate : Hash
  report : Hash
  liability : Hash
  beneficiary : Id
  amount : U128
  phase : ClaimPhase
deriving DecidableEq

/-- funded reward pool, claims and replay counters -/
structure RewardState where
  feed : Hash
  profile : Hash
  unit : RewardUnit
  funded : U128
  remaining : U128
  paid : U128
  treasuryPaid : U128
  burned : U128
  residual : U128
  wallets : OrdMap Id U128
  claims : List RewardClaim
  nonces : OrdMap Id U64
  epoch : U64
deriving DecidableEq

theorem RewardState.claim_lt (s : RewardState) (i : Fin s.claims.length) : i.val < s.claims.length := i.isLt

inductive RewardCommand where
  | fund (amount : U128)
  | accrue (aggregate : Aggregate) (report : Hash)
  | claim (id : Hash)
  | clawback (id : Hash)

/-! ## Claim identities -/

def claimId (hash : Bytes → Hash) (r : RewardRules) (aggregate report : Hash) (beneficiary : Id) :
    Except Failure Hash := do
  let feed ← Wire.blob r.feed.bytes
  let profile ← Wire.blob r.profile.bytes
  let aggregate ← Wire.blob aggregate.bytes
  let report ← Wire.blob report.bytes
  let beneficiary ← Wire.blob beneficiary.bytes
  let asset ← Wire.blob r.unit.asset.bytes
  let scale := Value.u128 (BitVec.ofNat 128 r.unit.scale.toNat)
  let value ← Wire.record [feed, profile, aggregate, report, beneficiary, asset, scale]
  Wire.hash hash (literal "zeno.oracle.reward/1" ++ [0]) value

/-! ## Validation -/

namespace RewardState

/-- one of the three tables is longer than the capacity -/
def overfull (s : RewardState) (capacity : U32) : Prop :=
  capacity.val < s.claims.length ∨ capacity.val < s.wallets.size ∨ capacity.val < s.nonces.size

instance (s : RewardState) (capacity : U32) : Decidable (s.overfull capacity) := by
  unfold overfull
  infer_instance

def rows (s : RewardState) : Except Failure ℕ := do
  let n ← checkedAdd usizeMax s.claims.length s.wallets.size .arithmetic
  checkedAdd usizeMax n s.nonces.size .arithmetic

/-- add an amount to a sum when its phase is the one summed -/
def addIf (p : Prop) [Decidable p] (sum amount : U128) : Work U128 :=
  if p then .lift (okOr (sum.checkedAdd amount) .arithmetic) else pure sum

/-- the checked sum of the held and of the paid claims, with the uniqueness of their identities -/
def sumClaims : List RewardClaim → U128 × U128 → List RewardClaim → Work (U128 × U128)
  | _, sums, [] => pure sums
  | before, (held, paid), c :: cs => do
    visit
    failIf (before.any fun old => old.id = c.id) .invalidState
    let held ← addIf (c.phase = .held) held c.amount
    let paid ← addIf (c.phase = .paid) paid c.amount
    sumClaims (before ++ [c]) (held, paid) cs

def validate (s : RewardState) (capacity : U32) : Work Unit := do
  .lift s.unit.validate
  failIf (s.overfull capacity) .invalidState
  let rows ← .lift s.rows
  reserveScans rows
  let (held, paid) ← sumClaims [] (.zero, .zero) s.claims
  let total ← .lift (okOr ((((((s.remaining.checkedAdd held).bind (·.checkedAdd s.paid)).bind
    (·.checkedAdd s.treasuryPaid)).bind (·.checkedAdd s.burned)).bind (·.checkedAdd s.residual))) .arithmetic)
  failIf (total ≠ s.funded ∨ paid ≠ s.paid) .invalidState

def charge (s : RewardState) : Work Unit := do
  let rows ← .lift s.rows
  failIf (u64Max < rows) .arithmetic
  let bound ← .lift (checkedMul u64Max rows 512 .arithmetic)
  let bound ← .lift (checkedAdd u64Max bound 256 .arithmetic)
  .charge .byte bound
  visitAll rows

end RewardState

/-! ## Commands -/

theorem bits_fit (q : Finite.U128) : q.toNat < 2 ^ 128 := q.isLt

/-- `wide::mul_div_floor` on the operands' bits -/
def mulDivFloor (a b den : U128) : Option U128 :=
  (Finite.Wide.mulDivFloor (BitVec.ofNat 128 a.val) (BitVec.ofNat 128 b.val) (BitVec.ofNat 128 den.val)).map fun q =>
    ⟨q.toNat, bits_fit q⟩

/-- the treasury's wallet, touched only when it receives something -/
def creditTreasury (wallets : OrdMap Id U128) (treasury : Id) (amount : U128) : Arm (OrdMap Id U128) :=
  if .zero < amount then do
    let sum ← .okOr ((balanceOf wallets treasury).checkedAdd amount) (.fail .arithmetic)
    pure (wallets.insert treasury sum)
  else pure wallets

/-- the share of a funded amount -/
def allocation (r : RewardRules) (amount share : U128) : Arm U128 := do
  arm step
  .okOr (mulDivFloor amount share r.denominator) (.fail .arithmetic)

section Arms

variable (r : RewardRules) (disputeRule : DisputeParameters) (actor : Id) (capacity : U32) (s : RewardState)
  (bond : Option BondState)

def fund (amount : U128) : Arm RewardState := do
  refuseIf (amount = .zero) .zeroAmountOrPrice
  let wallet := balanceOf s.wallets actor
  refuseIf (wallet < amount) .insufficientBalance
  let reporter ← allocation r amount r.reporterShare
  let treasury ← allocation r amount r.treasuryShare
  let burned ← allocation r amount r.burnShare
  let paid ← .okOr ((reporter.checkedAdd treasury).bind (·.checkedAdd burned)) (.fail .arithmetic)
  let residual ← .okOr (amount.checkedSub paid) (.fail .arithmetic)
  let wallets ← creditTreasury (s.wallets.insert actor (wallet.sub amount)) r.treasury treasury
  let funded ← .okOr (s.funded.checkedAdd amount) (.fail .arithmetic)
  let remaining ← .okOr (s.remaining.checkedAdd reporter) (.fail .arithmetic)
  let treasuryPaid ← .okOr (s.treasuryPaid.checkedAdd treasury) (.fail .arithmetic)
  let burnedTotal ← .okOr (s.burned.checkedAdd burned) (.fail .arithmetic)
  let residualTotal ← .okOr (s.residual.checkedAdd residual) (.fail .arithmetic)
  pure { s with
    wallets := wallets
    funded := funded
    remaining := remaining
    treasuryPaid := treasuryPaid
    burned := burnedTotal
    residual := residualTotal }

def accrue (hash : Bytes → Hash) (aggregate : Aggregate) (report : Hash) : Arm RewardState := do
  let bond ← .okOr bond (.fail .invalidState)
  let index ← .okOr (aggregate.position report) (.refuse .unknownReference)
  let liability ← .okOr (bond.liabilities.find? fun x => x.report = report ∧ x.feed = r.feed)
    (.refuse .unknownReference)
  refuseIf (aggregate.feed ≠ r.feed ∨ aggregate.profile ≠ r.profile ∨ aggregate.reporters index ≠ bond.reporter)
    .bindingMismatch
  let id ← arm (.lift (claimId hash r aggregate.id report bond.owner))
  refuseIf (s.remaining < r.perReport) .insufficientRewardBudget
  refuseIf (s.claims.any fun x => x.id = id) .alreadyClaimedOrSlashed
  refuseIf (capacity.val ≤ s.claims.length) .full
  pure { s with
    remaining := s.remaining.sub r.perReport
    claims := s.claims ++ [⟨id, aggregate.id, report, liability.id, bond.owner, r.perReport, .held⟩] }

/-- the claim a command names, with the liability it is bound to -/
def entitlement (bond : BondState) (id : Hash) : Arm (Fin s.claims.length × Liability) := do
  let index ← .okOr ((List.finRange s.claims.length).find? fun i =>
    (getElem s.claims i (s.claim_lt i)).id = id) (.refuse .unknownReference)
  let claim := getElem s.claims index (s.claim_lt index)
  let liability ← .okOr (bond.liabilities.find? fun x => x.id = claim.liability) (.refuse .unknownReference)
  refuseIf (bond.owner ≠ claim.beneficiary ∨ liability.report ≠ claim.report) .bindingMismatch
  pure (index, liability)

def claim (id : Hash) : Arm RewardState := do
  let bond ← .okOr bond (.fail .invalidState)
  let (index, liability) ← entitlement s bond id
  let claim := getElem s.claims index (s.claim_lt index)
  refuseIf (¬ liability.cleared ∨ bond.disputes.any fun d => d.liability = liability.id ∧ d.phase = .open)
    .liabilityLocked
  refuseIf (claim.phase ≠ .held) .alreadyClaimedOrSlashed
  let balance ← .okOr ((balanceOf s.wallets claim.beneficiary).checkedAdd claim.amount) (.fail .arithmetic)
  let paid ← .okOr (s.paid.checkedAdd claim.amount) (.fail .arithmetic)
  let claim := { claim with phase := .paid }
  pure { s with
    wallets := s.wallets.insert claim.beneficiary balance
    paid := paid
    claims := s.claims.set index claim }

/-- the dispute lets the reward of its report be reclaimed -/
def Dispute.reclaims (x : Dispute) : Bool :=
  decide (x.phase = .resolvedUpheld) ||
    (decide (x.phase = .open) && decide (x.slash = disputeRule.slash) && x.slashVerdict.any x.upheldBy)

def clawback (id : Hash) : Arm RewardState := do
  let bond ← .okOr bond (.fail .invalidState)
  let (index, liability) ← entitlement s bond id
  let claim := getElem s.claims index (s.claim_lt index)
  refuseIf (¬ bond.disputes.any fun d => d.liability = liability.id ∧ d.reclaims disputeRule) .invalidVerdict
  refuseIf (claim.phase ≠ .held) .alreadyClaimedOrSlashed
  let remaining ← .okOr (s.remaining.checkedAdd claim.amount) (.fail .arithmetic)
  let claim := { claim with phase := .clawedBack }
  pure { s with remaining := remaining, claims := s.claims.set index claim }

/-- the `match` on the command -/
def applyReward (hash : Bytes → Hash) : RewardCommand → Arm RewardState
  | .fund amount => fund r actor s amount
  | .accrue aggregate report => accrue r capacity s bond hash aggregate report
  | .claim id => claim s bond id
  | .clawback id => clawback disputeRule s bond id

end Arms

/-- a claim by someone other than its beneficiary -/
def RewardCommand.foreign (s : RewardState) (actor : Id) : RewardCommand → Bool
  | .claim id => s.claims.any fun x => x.id = id ∧ x.beneficiary ≠ actor
  | _ => false

/-- the bond, when there is one, is valid -/
def validateBond (bond : Option BondState) (capacity : U32) : Work Unit := match bond with
  | some b => b.validate capacity
  | none => pure ()

/-! ## The producer -/

def rewardBody (hash : Bytes → Hash) (r : RewardRules) (context : AccountContext) (s : RewardState)
    (bond : Option BondState) (c : RewardCommand) : Arm RewardState := do
  let p := context.parameters
  arm (.lift r.validate)
  arm (.lift p.validate)
  arm (validateBond bond context.capacity)
  let economic ← .okOr p.economy (.fail .unboundParameter)
  let disputeRule ← .okOr p.disputes (.fail .unboundParameter)
  failIf (r.unit ≠ economic.rewardUnit ∨ r.perReport ≠ economic.rewardPerReport ∨ r.unit ≠ s.unit ∨ r.feed ≠ s.feed ∨
    r.profile ≠ s.profile) (.fail .invalidProfile)
  arm (s.validate context.capacity)
  arm s.charge
  refuseIf (c.foreign s context.actor) .unauthorized
  refuseIf (context.nonce ≠ balanceOf s.nonces context.actor) .replay
  let next ← .okOr context.nonce.checkedSucc (.refuse .counterExhausted)
  let timing ← .okOr p.clock (.fail .unboundParameter)
  failIf (context.clock.backend ≠ timing.backend ∨ context.clock.finalityRoot = .zero) (.fail .invalidEvidence)
  refuseIf (context.clock.epoch < s.epoch) .badClockOrSync
  arm s.charge
  let out ← applyReward r disputeRule context.actor context.capacity s bond hash c
  let out := { out with nonces := out.nonces.insert context.actor next, epoch := context.clock.epoch }
  refuseIf (out.overfull context.capacity) .full
  arm (out.validate context.capacity)
  arm out.charge
  pure out

/-- `run` -/
def runReward (hash : Bytes → Hash) (r : RewardRules) (context : AccountContext) (s : RewardState)
    (bond : Option BondState) (c : RewardCommand) : Work (Except Reason RewardState) :=
  settle (rewardBody hash r context s bond c)

end ZenoFcis.Oracle
