/-
The law reference of the bonded-account relation (`oracle/bond_laws.rs`): an ordered set of refusal facts, a separate
exact successor, and the check of a proposed outcome against them.
-/
import ZenoFcis.Oracle.Bonds

namespace ZenoFcis.Oracle

open Lib Lib.Except

/-- the refusal facts, one for each reason -/
abbrev Facts := Reason → Bool

namespace Facts

def none : Facts := fun _ => false

/-- `f[index] = value` -/
def set (f : Facts) (reason : Reason) (value : Bool) : Facts := fun r => if r = reason then value else f r

/-- the first true fact in the order of the reasons -/
def first (f : Facts) : Option Reason := reasons.find? f

/-- every earlier fact is false -/
def undecided (f : Facts) (reason : Reason) : Bool := !(reasons.takeWhile fun r => r ≠ reason).any f

end Facts

/-- the first reason among some is the first of all when the others do not hold -/
theorem find_among {f : Facts} {l l' : List Reason} (hl : l.filter (· ∈ l') = l')
    (h : ∀ r ∈ l, r ∉ l' → f r = false) : l.find? f = l'.find? f := by
  have hfind : ∀ rs : List Reason, (∀ r ∈ rs, r ∉ l' → f r = false) → rs.find? f = (rs.filter (· ∈ l')).find? f := by
    intro rs hrs
    induction rs with
    | nil => rfl
    | cons r rs ih =>
      have hrest := ih fun r' hr' => hrs r' (List.mem_cons_of_mem _ hr')
      by_cases hr : r ∈ l'
      · rw [List.filter_cons_of_pos (by simpa using hr), List.find?_cons, List.find?_cons, hrest]
      · have hfalse := hrs r List.mem_cons_self hr
        rw [List.filter_cons_of_neg (by simpa using hr), List.find?_cons_of_neg (by simp [hfalse]), hrest]
  rw [hfind l h, hl]

/-- the first failing reason -/
theorem first_eq_find {f : Facts} {l : List Reason} (hl : reasons.filter (· ∈ l) = l)
    (h : ∀ r, r ∉ l → f r = false) : f.first = l.find? f := find_among hl fun r _ hr => h r hr

namespace BondLaws

def add (a b : U128) : Except Failure U128 := okOr (a.checkedAdd b) .arithmetic

def credit (w : OrdMap Id ZdexE18) (id : Id) (amount : U128) : Except Failure (OrdMap Id ZdexE18) := do
  let sum ← add (balanceOf w id) amount
  pure (w.insert id sum)

def pay (s : BondState) (r : EscrowRecipient) (challenger treasury : Id) (amount : U128) : Except Failure BondState :=
  match r with
  | .burn => do
    let burned ← add s.burned amount
    pure { s with burned := burned }
  | .challenger => do
    let wallets ← credit s.wallets challenger amount
    pure { s with wallets := wallets }
  | .reporterOwner => do
    let wallets ← credit s.wallets s.owner amount
    pure { s with wallets := wallets }
  | .treasury => do
    let wallets ← credit s.wallets treasury amount
    pure { s with wallets := wallets }

def verdict (d : DisputeParameters) (x : Dispute) (v : FinalVerdict) (now : U64) : Bool :=
  let «end» := (x.opened.checkedAdd d.finalityDelay).bind (·.checkedAdd d.appealDelay)
  decide (v.adjudicator = d.adjudicator) && decide (v.dispute = x.id) && decide (v.violation ≠ .zero) &&
    decide (v.finalityRoot ≠ .zero) && decide (v.finalEpoch ≤ now) && «end».any fun t => t ≤ v.finalEpoch

/-- one step of a sum in two words: the carry and the low word -/
def overflowingAdd (sum : ℕ × U128) (n : U128) : ℕ × U128 :=
  (sum.1 + (sum.2.val + n.val) / 2 ^ 128, ⟨(sum.2.val + n.val) % 2 ^ 128, Nat.mod_lt _ (Nat.two_pow_pos _)⟩)

/-- exact custody as (carry, low) -/
def custody (s : BondState) : ℕ × U128 :=
  (s.wallets.values ++ [s.held, s.burned] ++ s.disputes.map Dispute.escrow).foldl overflowingAdd (0, .zero)

/-- the first row that matches, changed -/
def updateFirst {α : Type} (p : α → Bool) (f : α → α) : List α → Option (List α)
  | [] => none
  | x :: xs => if p x then some (f x :: xs) else (updateFirst p f xs).map (x :: ·)

/-! ## Facts -/

/-- the liability a command names -/
def liability (s : BondState) (c : BondCommand) : Option Liability := match c with
  | .clear id | .recordPublication id _ | .openDispute _ id => s.liabilities.find? fun x => x.id = id
  | _ => none

/-- the dispute a command names -/
def dispute (s : BondState) (c : BondCommand) : Option Dispute := match c with
  | .slash id _ | .resolve id _ => s.disputes.find? fun x => x.id = id
  | _ => none

/-- `matches!(c, Reserve | Unregister | Withdraw)` -/
def ownerOnly : BondCommand → Bool
  | .reserve .. | .unregister | .withdraw _ => true
  | _ => false

/-- the record a command names is absent -/
def absent (s : BondState) (c : BondCommand) : Bool := match c with
  | .clear _ | .recordPublication .. | .openDispute .. => (liability s c).isNone
  | .slash .. | .resolve .. => (dispute s c).isNone
  | _ => false

/-- the identity a command would retain is retained already -/
def retained (s : BondState) (c : BondCommand) : Bool := match c with
  | .reserve id _ _ => s.liabilities.any fun x => x.id = id
  | .openDispute id _ => s.disputes.any fun x => x.id = id
  | _ => false

/-- the reporter's phase excludes the command -/
def misplaced (s : BondState) (c : BondCommand) : Bool := match c with
  | .deposit _ => decide (s.phase = .retired)
  | .reserve .. | .unregister => decide (s.phase ≠ .active)
  | .withdraw _ => decide (s.phase = .active)
  | _ => false

/-- a deposit or withdrawal of nothing -/
def nothing : BondCommand → Bool
  | .deposit a | .withdraw a => decide (a = .zero)
  | _ => false

/-- the facts decided before the arm of the command -/
def commonFacts (s : BondState) (actor : Id) (nonce : U64) (c : BondCommand) (clock : ClockView) : Facts :=
  let f := Facts.none
  let f := f.set .unauthorized (decide (actor ≠ s.owner) && ownerOnly c)
  let f := f.set .replay (decide (nonce ≠ balanceOf s.nonces actor))
  let f := f.set .counterExhausted (decide (nonce = .max))
  let f := f.set .badClockOrSync (decide (clock.epoch < s.epoch))
  let f := f.set .unknownReference (absent s c)
  let f := f.set .alreadyExists (retained s c)
  let f := f.set .wrongPhase (misplaced s c)
  f.set .zeroAmountOrPrice (nothing c)

/-- the exit delay of a withdrawal, looked at only while no earlier fact holds -/
def exitLocked (d : DisputeParameters) (s : BondState) (clock : ClockView) (exit : U64) (undecided : Bool) :
    Except Failure Bool :=
  if undecided then do
    let bound ← okOr (exit.checkedAdd d.exitDelay) .arithmetic
    pure (decide (clock.epoch < bound) || s.disputes.any fun x => x.phase = .open)
  else pure false

/-- the dispute window, looked at only while no earlier fact holds -/
def windowClosed (timing : ClockParameters) (clock : ClockView) (published : U64) (undecided : Bool) :
    Except Failure Bool :=
  if undecided then
    if clock.epoch < published then pure true
    else do
      let bound ← okOr (published.checkedAdd timing.disputeOpen) .arithmetic
      pure (decide (bound ≤ clock.epoch))
  else pure false

def commandFacts (timing : ClockParameters) (d : DisputeParameters) (s : BondState) (actor : Id) (clock : ClockView)
    (free : U128) (f : Facts) (c : BondCommand) : Except Failure Facts :=
  match c with
  | .deposit a => pure (f.set .insufficientBalance (decide (balanceOf s.wallets actor < a)))
  | .reserve .. => pure (f.set .insufficientBond (decide (free < d.minimumBond)))
  | .withdraw a =>
    let f := f.set .insufficientBond (decide (free < a))
    match s.exitEpoch with
    | some exit => do
      let locked ← exitLocked d s clock exit (f.undecided .liabilityLocked)
      pure (f.set .liabilityLocked locked)
    | none => pure f
  | .recordPublication _ aggregate => match liability s c with
    | some l =>
      let f := f.set .wrongPhase (l.publication.isSome || l.cleared)
      pure (f.set .bindingMismatch (!aggregate.selects l.report || decide (aggregate.feed ≠ l.feed)))
    | none => pure f
  | .clear _ => match liability s c with
    | some l =>
      let f := f.set .wrongPhase l.cleared
      pure (f.set .liabilityLocked (decide (clock.epoch < l.clearAfter) || decide (clock.epoch < l.exposureUntil) ||
        s.disputes.any fun x => x.liability = l.id ∧ x.phase = .open))
    | none => pure f
  | .openDispute .. => match liability s c with
    | some l => do
      let f := f.set .wrongPhase l.publication.isNone
      let f := f.set .insufficientBalance (decide (balanceOf s.wallets actor < d.challengeBond))
      let f ← match l.publication with
        | some published =>
          (windowClosed timing clock published (f.undecided .windowClosed)).map fun closed => f.set .windowClosed closed
        | none => pure f
      pure (f.set .liabilityLocked l.cleared)
    | none => pure f
  | .slash _ v => match dispute s c with
    | some x => do
      let f := f.set .wrongPhase (decide (x.phase ≠ .open))
      let liability ← okOr (s.liabilities.find? fun l => l.id = x.liability) .invalidState
      let f := f.set .insufficientBond (decide (liability.locked < d.slash))
      let f := f.set .invalidVerdict (!verdict d x v clock.epoch || !v.upheld)
      pure (f.set .alreadyClaimedOrSlashed
        (x.violation.isSome || s.disputes.any fun other => other.violation = some v.violation))
    | none => pure f
  | .resolve _ resolution => match dispute s c with
    | some x =>
      let f := f.set .wrongPhase (decide (x.phase ≠ .open))
      match resolution with
      | .final v =>
        let f := f.set .invalidVerdict (!verdict d x v clock.epoch || (!v.upheld && decide (x.slash ≠ .zero)))
        pure (f.set .liabilityLocked
          (v.upheld && (decide (x.slash ≠ d.slash) || decide (x.violation ≠ some v.violation))))
      | .inconclusive => pure f
    | none => pure f
  | .unregister => pure f

def fullFact (s : BondState) (capacity : U32) (c : BondCommand) : Bool := match c with
  | .reserve .. => decide (capacity.val ≤ s.liabilities.length)
  | .openDispute .. => decide (capacity.val ≤ s.disputes.length)
  | _ => false

/-! ## The exact successor -/

def successor (timing : ClockParameters) (d : DisputeParameters) (e : EconomicParameters) (s : BondState) (actor : Id)
    (c : BondCommand) (clock : ClockView) : Except Failure BondState :=
  match c with
  | .deposit a => do
    let held ← add s.held a
    pure { s with held := held, wallets := s.wallets.insert actor ((balanceOf s.wallets actor).sub a) }
  | .reserve id report feed => do
    ensure (¬ (id = .zero ∨ report = .zero ∨ feed = .zero)) .invalidEvidence
    let «end» ← okOr ((clock.epoch.checkedAdd timing.maxAge).bind (·.checkedAdd e.window)) .arithmetic
    pure { s with liabilities := s.liabilities ++ [⟨id, report, feed, d.minimumBond, none, «end», «end», false⟩] }
  | .recordPublication id _ => do
    let «end» ← okOr ((clock.epoch.checkedAdd (max timing.confirmation timing.disputeOpen)).bind fun v =>
      (v.checkedAdd d.finalityDelay).bind (·.checkedAdd d.appealDelay)) .arithmetic
    let rows ← okOr (updateFirst (fun x : Liability => x.id = id)
      (fun row => { row with publication := some clock.epoch, clearAfter := max row.clearAfter «end» })
      s.liabilities) .invalidState
    pure { s with liabilities := rows }
  | .unregister => pure { s with phase := .unbonding, exitEpoch := some clock.epoch }
  | .clear id => do
    let rows ← okOr (updateFirst (fun x : Liability => x.id = id)
      (fun row => { row with locked := .zero, cleared := true }) s.liabilities) .invalidState
    pure { s with liabilities := rows }
  | .withdraw a => do
    let held := s.held.sub a
    let wallets ← credit s.wallets actor a
    let retired := held = .zero ∧ s.liabilities.all fun x => x.cleared
    pure { s with held := held, wallets := wallets, phase := if retired then .retired else s.phase }
  | .openDispute id liability =>
    pure { s with
      wallets := s.wallets.insert actor ((balanceOf s.wallets actor).sub d.challengeBond)
      disputes := s.disputes ++ [⟨id, liability, actor, d.challengeBond, clock.epoch, .open, .zero, none, none, none⟩] }
  | .slash id v => do
    let x ← okOr (s.disputes.find? fun x => x.id = id) .invalidState
    let disputes ← okOr (updateFirst (fun x : Dispute => x.id = id)
      (fun x => { x with slash := d.slash, violation := some v.violation, slashVerdict := some v }) s.disputes)
      .invalidState
    let liabilities ← okOr (updateFirst (fun l : Liability => l.id = x.liability)
      (fun l => { l with locked := l.locked.sub d.slash }) s.liabilities) .invalidState
    let out := { s with disputes := disputes, liabilities := liabilities, held := s.held.sub d.slash }
    pay out d.slashRecipient x.challenger d.treasury d.slash
  | .resolve id resolution => match resolution with
    | .final v => do
      let old ← okOr (s.disputes.find? fun x => x.id = id) .invalidState
      let r := if v.upheld then d.upheldBondRecipient else d.rejectedBondRecipient
      let out ← pay s r old.challenger d.treasury old.escrow
      let phase := if v.upheld then DisputePhase.resolvedUpheld else .resolvedRejected
      let disputes ← okOr (updateFirst (fun x : Dispute => x.id = id)
        (fun x => { x with escrow := .zero, resolutionVerdict := some v, phase := phase }) out.disputes) .invalidState
      pure { out with disputes := disputes }
    | .inconclusive => pure s

/-! ## The reference and its check -/

/-- the checked sum of the locked amounts, as a fold -/
def locked (s : BondState) : Except Failure U128 := s.liabilities.foldlM (fun a l => add a l.locked) .zero

def reference (context : AccountContext) (s : BondState) (c : BondCommand) :
    Except Failure (Except Reason BondState) := do
  let p := context.parameters
  p.validate
  let timing ← okOr p.clock .unboundParameter
  let d ← okOr p.disputes .unboundParameter
  let e ← okOr p.economy .unboundParameter
  let clock := context.clock
  ensure (¬ (clock.backend ≠ timing.backend ∨ clock.finalityRoot = .zero)) .invalidEvidence
  let f := commonFacts s context.actor context.nonce c clock
  let locked ← locked s
  let free ← okOr (s.held.checkedSub locked) .invalidState
  let f ← commandFacts timing d s context.actor clock free f c
  let f := f.set .full (fullFact s context.capacity c)
  match f.first with
  | some r => pure (.error r)
  | none => do
    let out ← successor timing d e s context.actor c clock
    let next ← okOr context.nonce.checkedSucc .arithmetic
    let out := { out with nonces := out.nonces.insert context.actor next, epoch := clock.epoch }
    if out.overfull context.capacity then pure (.error .full) else pure (.ok out)

/-- the verdict on a proposed outcome, given the expected one -/
def judge (expected proposed : Except Reason BondState) : Except Failure Unit :=
  match expected, proposed with
  | .ok want, .ok actual => if want = actual then .ok () else .error (.law 113201)
  | .error want, .error actual => if want = actual then .ok () else .error (.law 113201)
  | .ok _, .error r => .error (.law (113100 + r.code))
  | .error _, .ok _ => .error (.law 113200)

def check (context : AccountContext) (s : BondState) (c : BondCommand) (proposed : Except Reason BondState) :
    Work Unit := do
  s.validate context.capacity
  let rows := s.wallets.size + s.nonces.size + s.liabilities.length + s.disputes.length
  let scanned ← .lift (checkedAdd usizeMax rows 8 .arithmetic)
  reserveScans scanned
  failIf (∃ x ∈ proposed.toOption, x.overfull context.capacity) (.law 113001)
  -- conservation is checked apart from both successor computations
  failIf (∃ x ∈ proposed.toOption, custody x ≠ custody s) (.law 113400)
  let expected ← .lift (reference context s c)
  .lift (judge expected proposed)

end BondLaws

/-- `checked`: the producer, then the law check of its outcome -/
def checked (context : AccountContext) (s : BondState) (c : BondCommand) : Work (Except Reason BondState) := do
  let result ← run context s c
  BondLaws.check context s c result
  pure result

end ZenoFcis.Oracle
