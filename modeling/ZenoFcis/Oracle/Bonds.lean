/-
The bonded-account relation (`oracle/bonds.rs`): reporter custody, liabilities, disputes and the producer `run`.

The arms of the command `match` are definitions of their own, under the names of the commands. `BondPlan` holds its
successor state only, so an accepted outcome is that state.
-/
import ZenoFcis.Oracle.Types

namespace ZenoFcis.Oracle

open Lib Lib.Except

inductive ReporterPhase where
  | active
  | unbonding
  | retired
deriving DecidableEq

/-- collectible bond reservation and release schedule for one report -/
structure Liability where
  id : Hash
  report : Hash
  feed : Hash
  locked : ZdexE18
  publication : Option U64
  exposureUntil : U64
  clearAfter : U64
  cleared : Bool
deriving DecidableEq

inductive DisputePhase where
  | open
  | resolvedUpheld
  | resolvedRejected
deriving DecidableEq

/-- final adjudication evidence bound to one dispute and violation -/
structure FinalVerdict where
  adjudicator : Hash
  dispute : Hash
  violation : Hash
  upheld : Bool
  finalEpoch : U64
  finalityRoot : Hash
deriving DecidableEq

inductive Verdict where
  | inconclusive
  | final (verdict : FinalVerdict)
deriving DecidableEq

/-- challenge escrow, verdicts and permanent penalty history -/
structure Dispute where
  id : Hash
  liability : Hash
  challenger : Id
  escrow : ZdexE18
  opened : U64
  phase : DisputePhase
  slash : ZdexE18
  violation : Option Hash
  slashVerdict : Option FinalVerdict
  resolutionVerdict : Option FinalVerdict
deriving DecidableEq

/-- reporter custody, liabilities and replay counters -/
structure BondState where
  reporter : Id
  owner : Id
  phase : ReporterPhase
  held : ZdexE18
  liabilities : List Liability
  disputes : List Dispute
  wallets : OrdMap Id ZdexE18
  nonces : OrdMap Id U64
  burned : ZdexE18
  exitEpoch : Option U64
  epoch : U64
deriving DecidableEq

theorem BondState.liability_lt (s : BondState) (i : Fin s.liabilities.length) : i.val < s.liabilities.length := i.isLt

theorem BondState.dispute_lt (s : BondState) (i : Fin s.disputes.length) : i.val < s.disputes.length := i.isLt

inductive BondCommand where
  | deposit (amount : ZdexE18)
  | reserve (id report feed : Hash)
  | recordPublication (liability : Hash) (aggregate : Aggregate)
  | unregister
  | clear (liability : Hash)
  | withdraw (amount : ZdexE18)
  | openDispute (id liability : Hash)
  | slash (dispute : Hash) (verdict : FinalVerdict)
  | resolve (dispute : Hash) (verdict : Verdict)

/-! ## Tables -/

theorem row_lt {α : Type} (xs : List α) (i : Fin xs.length) : i.val < xs.length := i.isLt

/-- visit every row; the last match is kept -/
def position {α : Type} (xs : List α) (predicate : α → Bool) : Work (Option (Fin xs.length)) :=
  (List.finRange xs.length).foldlM (fun found i => do
    visit
    pure (if predicate (getElem xs i (row_lt xs i)) then some i else found)) none

/-- the checked sum of the locked amounts -/
def lockedFrom : U128 → List Liability → Work U128
  | n, [] => pure n
  | n, l :: ls => do
    visit
    let n ← .lift (okOr (n.checkedAdd l.locked) .arithmetic)
    lockedFrom n ls

def locked (s : BondState) : Work U128 := lockedFrom .zero s.liabilities

/-- one of the four tables is longer than the capacity -/
def BondState.overfull (s : BondState) (capacity : U32) : Prop :=
  capacity.val < s.liabilities.length ∨ capacity.val < s.disputes.length ∨ capacity.val < s.wallets.size ∨
    capacity.val < s.nonces.size

instance (s : BondState) (capacity : U32) : Decidable (s.overfull capacity) := by
  unfold BondState.overfull
  infer_instance

def BondState.rows (s : BondState) : Except Failure ℕ := do
  let n ← checkedAdd usizeMax s.liabilities.length s.disputes.length .arithmetic
  let n ← checkedAdd usizeMax n s.wallets.size .arithmetic
  checkedAdd usizeMax n s.nonces.size .arithmetic

/-- the refusal of one liability row, after the rows before it -/
def Liability.malformed (before : List Liability) (l : Liability) : Bool :=
  decide (l.id = .zero) || decide (l.report = .zero) || decide (l.feed = .zero) ||
    (l.cleared && decide (l.locked ≠ .zero)) || before.any fun x => x.id = l.id

def validateLiabilities : List Liability → List Liability → Work Unit
  | _, [] => pure ()
  | before, l :: ls => do
    visit
    failIf (l.malformed before) .invalidState
    validateLiabilities (before ++ [l]) ls

/-- the verdict names another dispute, lacks evidence or is not final yet -/
def FinalVerdict.malformed (d : Dispute) (epoch : U64) (v : FinalVerdict) : Bool :=
  decide (v.dispute ≠ d.id) || decide (v.finalityRoot = .zero) || decide (v.violation = .zero) ||
    decide (epoch < v.finalEpoch)

/-- the verdict upholds the dispute for its recorded violation -/
def Dispute.upheldBy (d : Dispute) (v : FinalVerdict) : Bool := v.upheld && decide (d.violation = some v.violation)

/-- phase, penalty and verdicts of a dispute disagree -/
def Dispute.inconsistent (d : Dispute) : Bool :=
  (decide (d.slash = .zero) && (d.violation.isSome || d.slashVerdict.isSome)) ||
    (decide (d.slash ≠ .zero) && !d.slashVerdict.any d.upheldBy) ||
    (decide (d.phase = .open) && d.resolutionVerdict.isSome) ||
    (decide (d.phase = .resolvedUpheld) && !d.resolutionVerdict.any d.upheldBy) ||
    (decide (d.phase = .resolvedRejected) && !d.resolutionVerdict.any fun v => !v.upheld) ||
    (decide (d.phase = .resolvedRejected) && decide (d.slash ≠ .zero)) ||
    (decide (d.phase ≠ .open) && decide (d.escrow ≠ .zero))

/-- the refusal of one dispute row, after the rows before it -/
def Dispute.malformed (s : BondState) (before : List Dispute) (d : Dispute) : Bool :=
  (!s.liabilities.any fun l => l.id = d.liability) || (before.any fun x => x.id = d.id) ||
    ((d.slashVerdict.toList ++ d.resolutionVerdict.toList).any fun v => v.malformed d s.epoch) || d.inconsistent

def validateDisputes (s : BondState) : List Dispute → List Dispute → Work Unit
  | _, [] => pure ()
  | before, d :: ds => do
    visit
    failIf (d.malformed s before) .invalidState
    validateDisputes s (before ++ [d]) ds

namespace BondState

def validate (s : BondState) (capacity : U32) : Work Unit := do
  failIf (s.overfull capacity) .invalidState
  let rows ← .lift s.rows
  reserveScans rows
  let locked ← locked s
  failIf (s.held < locked ∨ decide (s.phase = .active) ≠ s.exitEpoch.isNone) .invalidState
  validateLiabilities [] s.liabilities
  validateDisputes s [] s.disputes

def charge (s : BondState) : Work Unit := do
  let rows ← .lift s.rows
  failIf (u64Max < rows) .arithmetic
  let bytes ← .lift (checkedMul u64Max rows 1024 .arithmetic)
  let bytes ← .lift (checkedAdd u64Max bytes 512 .arithmetic)
  .charge .byte bytes
  visitAll rows

end BondState

/-! ## Payments -/

def credit (wallets : OrdMap Id ZdexE18) (id : Id) (amount : U128) : Except Failure (OrdMap Id ZdexE18) := do
  let sum ← okOr ((balanceOf wallets id).checkedAdd amount) .arithmetic
  pure (wallets.insert id sum)

def pay (s : BondState) (recipient : EscrowRecipient) (challenger treasury : Id) (amount : U128) :
    Except Failure BondState :=
  match recipient with
  | .challenger => (credit s.wallets challenger amount).map fun w => { s with wallets := w }
  | .reporterOwner => (credit s.wallets s.owner amount).map fun w => { s with wallets := w }
  | .treasury => (credit s.wallets treasury amount).map fun w => { s with wallets := w }
  | .burn => (okOr (s.burned.checkedAdd amount) .arithmetic).map fun b => { s with burned := b }

/-- equality and ordering of a supplied adjudication premise -/
def validVerdict (d : DisputeParameters) (x : Dispute) (v : FinalVerdict) (now : U64) : Bool :=
  decide (v.adjudicator = d.adjudicator) && decide (v.dispute = x.id) && decide (v.violation ≠ .zero) &&
    decide (v.finalityRoot ≠ .zero) && decide (v.finalEpoch ≤ now) &&
    ((x.opened.checkedAdd d.finalityDelay).bind (·.checkedAdd d.appealDelay)).any fun n => n ≤ v.finalEpoch

/-! ## Commands -/

namespace BondCommand

/-- commands only the owner may submit -/
def ownerCommand : BondCommand → Bool
  | reserve .. | unregister | withdraw _ => true
  | _ => false

def target : BondCommand → Option Hash
  | recordPublication liability _ | clear liability | openDispute _ liability => some liability
  | _ => none

/-- a deposit or withdrawal of nothing -/
def isZero : BondCommand → Bool
  | deposit x | withdraw x => decide (x = .zero)
  | _ => false

/-- the identity the command would retain is retained already -/
def alreadyExists (s : BondState) : BondCommand → Bool
  | reserve id _ _ => s.liabilities.any fun l => l.id = id
  | openDispute id _ => s.disputes.any fun x => x.id = id
  | _ => false

def wrongPhase (s : BondState) : BondCommand → Bool
  | deposit _ => decide (s.phase = .retired)
  | reserve .. | unregister => decide (s.phase ≠ .active)
  | withdraw _ => decide (s.phase = .active)
  | _ => false

end BondCommand

section Arms

variable (timing : ClockParameters) (d : DisputeParameters) (economy : EconomicParameters) (actor : Id) (now : U64)
  (capacity : U32) (s : BondState)

def deposit (amount : ZdexE18) : Arm BondState := do
  let balance := balanceOf s.wallets actor
  refuseIf (balance < amount) .insufficientBalance
  let held ← .okOr (s.held.checkedAdd amount) (.fail .arithmetic)
  pure { s with held := held, wallets := s.wallets.insert actor (balance.sub amount) }

def reserve (id report feed : Hash) : Arm BondState := do
  failIf (id = .zero ∨ report = .zero ∨ feed = .zero) (.fail .invalidEvidence)
  let locked ← arm (locked s)
  refuseIf (s.held.sub locked < d.minimumBond) .insufficientBond
  refuseIf (capacity.val ≤ s.liabilities.length) .full
  let clearAfter ← .okOr ((now.checkedAdd timing.maxAge).bind (·.checkedAdd economy.window)) (.fail .arithmetic)
  pure { s with
    liabilities := s.liabilities ++ [⟨id, report, feed, d.minimumBond, none, clearAfter, clearAfter, false⟩] }

def recordPublication (index : Option (Fin s.liabilities.length)) (aggregate : Aggregate) : Arm BondState := do
  let i ← .okOr index (.fail .invalidState)
  let l := getElem s.liabilities i (s.liability_lt i)
  refuseIf (l.publication.isSome ∨ l.cleared) .wrongPhase
  refuseIf (¬ aggregate.selects l.report ∨ aggregate.feed ≠ l.feed) .bindingMismatch
  let «end» ← .okOr ((now.checkedAdd (max timing.confirmation timing.disputeOpen)).bind fun x =>
    (x.checkedAdd d.finalityDelay).bind (·.checkedAdd d.appealDelay)) (.fail .arithmetic)
  let l := { l with publication := some now, clearAfter := max l.clearAfter «end» }
  pure { s with liabilities := s.liabilities.set i l }

def unregister : BondState := { s with phase := .unbonding, exitEpoch := some now }

def clear (index : Option (Fin s.liabilities.length)) : Arm BondState := do
  let i ← .okOr index (.fail .invalidState)
  let l := getElem s.liabilities i (s.liability_lt i)
  refuseIf l.cleared .wrongPhase
  refuseIf (now < l.clearAfter ∨ now < l.exposureUntil ∨ s.disputes.any fun x => x.liability = l.id ∧ x.phase = .open)
    .liabilityLocked
  let l := { l with locked := .zero, cleared := true }
  pure { s with liabilities := s.liabilities.set i l }

def withdraw (amount : ZdexE18) : Arm BondState := do
  let locked ← arm (locked s)
  refuseIf (s.held.sub locked < amount) .insufficientBond
  let exitEpoch ← .okOr s.exitEpoch (.fail .invalidState)
  let exit ← .okOr (exitEpoch.checkedAdd d.exitDelay) (.fail .arithmetic)
  refuseIf (now < exit ∨ s.disputes.any fun x => x.phase = .open) .liabilityLocked
  let held := s.held.sub amount
  let wallets ← arm (.lift (credit s.wallets actor amount))
  let retired := held = .zero ∧ s.liabilities.all fun x => x.cleared
  pure { s with held := held, wallets := wallets, phase := if retired then .retired else s.phase }

def openDispute (index : Option (Fin s.liabilities.length)) (id : Hash) : Arm BondState := do
  let i ← .okOr index (.fail .invalidState)
  let l := getElem s.liabilities i (s.liability_lt i)
  let published ← .okOr l.publication (.refuse .wrongPhase)
  let balance := balanceOf s.wallets actor
  refuseIf (balance < d.challengeBond) .insufficientBalance
  let «until» ← .okOr (published.checkedAdd timing.disputeOpen) (.fail .arithmetic)
  refuseIf (now < published ∨ «until» ≤ now) .windowClosed
  refuseIf l.cleared .liabilityLocked
  refuseIf (capacity.val ≤ s.disputes.length) .full
  pure { s with
    wallets := s.wallets.insert actor (balance.sub d.challengeBond)
    disputes := s.disputes ++ [⟨id, l.id, actor, d.challengeBond, now, .open, .zero, none, none, none⟩] }

def slash (dispute : Hash) (verdict : FinalVerdict) : Arm BondState := do
  let found ← arm (position s.disputes fun x => x.id = dispute)
  let i ← .okOr found (.refuse .unknownReference)
  let x := getElem s.disputes i (s.dispute_lt i)
  refuseIf (x.phase ≠ .open) .wrongPhase
  let found ← arm (position s.liabilities fun l => l.id = x.liability)
  let li ← .okOr found (.fail .invalidState)
  let l := getElem s.liabilities li (s.liability_lt li)
  refuseIf (l.locked < d.slash) .insufficientBond
  refuseIf (¬ validVerdict d x verdict now ∨ ¬ verdict.upheld) .invalidVerdict
  -- the recorded verdict and every retained violation are permanent punishment nullifiers
  refuseIf (x.slashVerdict.isSome ∨ s.disputes.any fun other => other.violation = some verdict.violation)
    .alreadyClaimedOrSlashed
  let l := { l with locked := l.locked.sub d.slash }
  let out := { s with held := s.held.sub d.slash, liabilities := s.liabilities.set li l }
  let out ← arm (.lift (pay out d.slashRecipient x.challenger d.treasury d.slash))
  let x := { x with slash := d.slash, violation := some verdict.violation, slashVerdict := some verdict }
  pure { out with disputes := s.disputes.set i x }

def resolve (dispute : Hash) (verdict : Verdict) : Arm BondState := do
  let found ← arm (position s.disputes fun x => x.id = dispute)
  let i ← .okOr found (.refuse .unknownReference)
  let x := getElem s.disputes i (s.dispute_lt i)
  refuseIf (x.phase ≠ .open) .wrongPhase
  match verdict with
  | .inconclusive => pure s
  | .final v => do
    refuseIf (¬ validVerdict d x v now) .invalidVerdict
    refuseIf (v.upheld ∧ (x.slash ≠ d.slash ∨ x.violation ≠ some v.violation)) .liabilityLocked
    refuseIf (¬ v.upheld ∧ x.slash ≠ .zero) .invalidVerdict
    let recipient := if v.upheld then d.upheldBondRecipient else d.rejectedBondRecipient
    let out ← arm (.lift (pay s recipient x.challenger d.treasury x.escrow))
    let phase := if v.upheld then .resolvedUpheld else .resolvedRejected
    let x := { x with escrow := .zero, resolutionVerdict := some v, phase := phase }
    pure { out with disputes := s.disputes.set i x }

/-- the `match` on the command -/
def apply (index : Option (Fin s.liabilities.length)) : BondCommand → Arm BondState
  | .deposit amount => deposit actor s amount
  | .reserve id report feed => reserve timing d economy now capacity s id report feed
  | .recordPublication _ aggregate => recordPublication timing d now s index aggregate
  | .unregister => pure (unregister now s)
  | .clear _ => clear now s index
  | .withdraw amount => withdraw d actor now s amount
  | .openDispute id _ => openDispute timing d actor now capacity s index id
  | .slash dispute verdict => slash d now s dispute verdict
  | .resolve dispute verdict => resolve d now s dispute verdict

end Arms

/-! ## The producer -/

/-- the index of the liability a command names -/
def targetIndex (s : BondState) (c : BondCommand) : Work (Option (Fin s.liabilities.length)) := match c.target with
  | none => pure none
  | some id => position s.liabilities fun l => l.id = id

def body (context : AccountContext) (s : BondState) (c : BondCommand) : Arm BondState := do
  let p := context.parameters
  arm (.lift p.validate)
  let timing ← .okOr p.clock (.fail .unboundParameter)
  let d ← .okOr p.disputes (.fail .unboundParameter)
  let economy ← .okOr p.economy (.fail .unboundParameter)
  arm (s.validate context.capacity)
  arm s.charge
  refuseIf (c.ownerCommand ∧ context.actor ≠ s.owner) .unauthorized
  refuseIf (context.nonce ≠ balanceOf s.nonces context.actor) .replay
  let next ← .okOr context.nonce.checkedSucc (.refuse .counterExhausted)
  failIf (context.clock.backend ≠ timing.backend ∨ context.clock.finalityRoot = .zero) (.fail .invalidEvidence)
  refuseIf (context.clock.epoch < s.epoch) .badClockOrSync
  arm s.charge
  let now := context.clock.epoch
  let index ← arm (targetIndex s c)
  refuseIf (c.target.isSome ∧ index = none) .unknownReference
  refuseIf (c.alreadyExists s) .alreadyExists
  refuseIf (c.wrongPhase s) .wrongPhase
  refuseIf c.isZero .zeroAmountOrPrice
  let out ← apply timing d economy context.actor now context.capacity s index c
  let out := { out with nonces := out.nonces.insert context.actor next, epoch := now }
  refuseIf (out.overfull context.capacity) .full
  arm (out.validate context.capacity)
  arm out.charge
  pure out

/-- `run` -/
def run (context : AccountContext) (s : BondState) (c : BondCommand) : Work (Except Reason BondState) :=
  settle (body context s c)

end ZenoFcis.Oracle
