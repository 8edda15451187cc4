/-
The stability pool (`stability.rs`): the running product, the two sums over epochs and scales, issuance against the
funded stock, offsets, and the positions with their snapshots. The loops over a table walk the list; a table is
replaced by an edited copy, as the source edits its clone.
-/
import ZenoFcis.Zusd.Vaults

namespace ZenoFcis.Zusd.Stability

open Lib Lib.Except

def FUNDED_CAP : U128 := ⟨35000000 * Q.val, by decide⟩

structure Cell where
  epoch : U64
  scale : U64
  s : Accumulator256
  g : Accumulator256
deriving DecidableEq

structure Epoch where
  epoch : U64
  lastScale : U64
  isSealed : Bool
deriving DecidableEq

structure Stock where
  remaining : U128
  scheduled : U128
  allocated : U128
  missed : U128
  paid : U128
deriving DecidableEq

def Stock.fundedReference (funded : U128) : Except Failure Stock := do
  ensure (funded = FUNDED_CAP) .unboundProfile
  return ⟨funded, .zero, .zero, .zero, .zero⟩

structure State where
  total : U128
  p : U128
  epoch : U64
  scale : U64
  errorS : Accumulator256
  errorLoss : Accumulator256
  errorG : Accumulator256
  collateral : U128
  stock : Stock
  history : List Cell
  epochs : List Epoch
deriving DecidableEq

structure Bounds where
  history : U32
  epochs : U32
  deposits : U32
  frontEnds : U32
  vaults : U32
deriving DecidableEq

structure Snapshot where
  p : U128
  s : Accumulator256
  g : Accumulator256
  epoch : U64
  scale : U64
deriving DecidableEq

structure Deposit where
  owner : Id
  initial : U128
  tag : Option Id
  snapshot : Snapshot
deriving DecidableEq

structure FrontSnapshot where
  p : U128
  g : Accumulator256
  epoch : U64
  scale : U64
deriving DecidableEq

structure FrontEnd where
  owner : Id
  kickback : U128
  initial : U128
  snapshot : FrontSnapshot
deriving DecidableEq

structure Book where
  pool : State
  deposits : List Deposit
  frontEnds : List FrontEnd
deriving DecidableEq

structure Gains where
  principal : U128
  collateral : U128
  depositorZdex : U128
  frontEndZdex : U128
deriving DecidableEq

structure Outcome where
  book : Book
  gains : Gains
  principalIn : U128
  principalOut : U128
  frontEnd : Option Id
  gainToVault : Bool
deriving DecidableEq

/-- a cell without sums -/
def emptyCell (epoch scale : U64) : Cell := ⟨epoch, scale, .zero, .zero⟩

def State.referenceGenesis (funded : U128) : Except Failure State := do
  let stock ← Stock.fundedReference funded
  return {
    total := .zero, p := Q, epoch := .zero, scale := .zero, errorS := .zero, errorLoss := .zero, errorG := .zero,
    collateral := .zero, stock, history := [emptyCell .zero .zero], epochs := [⟨.zero, .zero, false⟩] }

/-! ## Validation -/

/-- the cell at a place must be that of the scale -/
def validateScale (history : List Cell) (record : Epoch) (place scale : ℕ) : Except Failure ℕ :=
  match history[place]? with
  | none => .error .domain
  | some cell => do
    ensure (cell.epoch = record.epoch ∧ cell.scale.val = scale) .canonical
    return place + 1

/-- the scales of one epoch: the cells of the history from `place` on -/
def validateScales (history : List Cell) (record : Epoch) (place : ℕ) (scales : List ℕ) : Except Failure ℕ :=
  scales.foldlM (validateScale history record) place

/-- the loop over the epoch records, of which the first has the number `e` -/
def validateEpochs (s : State) : ℕ → ℕ → List Epoch → Except Failure ℕ
  | _, place, [] => .ok place
  | e, place, record :: rest => do
    ensure (record.epoch.val = e ∧ record.isSealed = decide (record.epoch < s.epoch) ∧
      record.lastScale.val < s.history.length) .domain
    let place ← validateScales s.history record place (List.range (record.lastScale.val + 1))
    validateEpochs s (e + 1) place rest

def validate (s : State) (b : Bounds) : Work Unit := do
  charge 1 0 0
  failIf (b.history.val < s.history.length ∨ b.epochs.val < s.epochs.length) .capacity
  charge (s.history.length + s.epochs.length) (s.history.length + s.epochs.length)
    (s.history.length * 96 + s.epochs.length * 24)
  failIf (s.p = .zero ∨ Q < s.p) .domain
  let count ← .okOr s.epoch.checkedSucc .arithmetic
  failIf (s.epochs.length ≠ count.val) .domain
  let place ← .lift (validateEpochs s 0 0 s.epochs)
  failIf (place ≠ s.history.length ∨ s.epochs.getLast?.map Epoch.lastScale ≠ some s.scale) .domain
  let scheduled ← add s.stock.allocated s.stock.missed
  failIf (scheduled ≠ s.stock.scheduled) .conservation
  let funded ← add s.stock.remaining scheduled
  failIf (funded ≠ FUNDED_CAP ∨ s.stock.allocated < s.stock.paid) .conservation

/-! ## Issuance and offsets -/

def cell (s : State) (e scale : U64) : Work Cell := do
  charge s.history.length s.history.length 0
  let record ← .okOr s.epochs[e.val]? .domain
  if record.lastScale < scale then pure (emptyCell e scale)
  else .okOr (s.history.find? (fun c => c.epoch = e ∧ c.scale = scale)) .domain

/-- the last cell; the source indexes it, after a validation that finds one -/
def lastCell (s : State) : Cell := s.history.getLast?.getD (emptyCell .zero .zero)

def current (s : State) : Snapshot := ⟨s.p, (lastCell s).s, (lastCell s).g, s.epoch, s.scale⟩

def currentFront (s : State) : FrontSnapshot := ⟨s.p, (lastCell s).g, s.epoch, s.scale⟩

/-- the quotient and the remainder of `amount * Q + error` by the total -/
def accumulator (amount : U128) (error : Accumulator256) (total : U128) : Work (Accumulator256 × Accumulator256) := do
  let n ← (← (Wide.ofU128 amount).mul Q).add (.ofAccumulator error)
  let out ← n.quotientWide (.ofU128 total)
  return (← .lift out.1.accumulator, ← .lift out.2.accumulator)

/-- `sums.add(gain * p)` -/
def raise (sums gain : Accumulator256) (p : U128) : Work Accumulator256 := do
  sums.add (← .lift (← (Wide.ofAccumulator gain).mul p).accumulator)

def issue (s : State) (delta : Option U128) : Work State := do
  let amount ← .okOr delta .unboundProfile
  failIf (s.stock.remaining < amount) .conservation
  let remaining ← sub s.stock.remaining amount
  let scheduled ← add s.stock.scheduled amount
  if s.total = .zero then do
    let missed ← add s.stock.missed amount
    return { s with stock := { s.stock with remaining, scheduled, missed } }
  else if .zero < amount then do
    let allocated ← add s.stock.allocated amount
    let part ← accumulator amount s.errorG s.total
    let last ← .okOr s.history.getLast? .domain
    let sums ← raise last.g part.1 s.p
    return { s with
      stock := { s.stock with remaining, scheduled, allocated }, errorG := part.2,
      history := s.history.dropLast ++ [{ last with g := sums }] }
  else return { s with stock := { s.stock with remaining, scheduled } }

theorem one_fits : 1 < 2 ^ 128 := by decide

/-- the loss of a unit of the pool and the loss that is fed back -/
def lossPerUnit (s : State) (debt : U128) : Work (U128 × Accumulator256) :=
  if debt = s.total then pure (Q, .zero)
  else do
    let n ← (← (Wide.ofU128 debt).mul Q).sub (.ofAccumulator s.errorLoss)
    let floor := (← n.quotient (.ofU128 s.total)).1
    let loss ← add floor ⟨1, one_fits⟩
    let fed ← (← (Wide.ofU128 loss).mul s.total).sub n
    return (loss, ← .lift fed.accumulator)

/-- the product after a loss: a new epoch, a new scale, or the shrunk product -/
def shrink (s : State) (factor : U128) (b : Bounds) : Work State :=
  if factor = .zero then do
    failIf (b.epochs.val ≤ s.epochs.length ∨ b.history.val ≤ s.history.length) (.reject 1061)
    let last ← .okOr s.epochs.getLast? .domain
    let epoch ← .okOr s.epoch.checkedSucc .arithmetic
    return { s with
      epoch, scale := .zero, p := Q,
      epochs := s.epochs.dropLast ++ [{ last with isSealed := true }, ⟨epoch, .zero, false⟩],
      history := s.history ++ [emptyCell epoch .zero] }
  else do
    let shrunk ← muldiv s.p factor Q
    if shrunk < SCALE then do
      failIf (b.history.val ≤ s.history.length) (.reject 1061)
      let p := (← (← (← (Wide.ofU128 s.p).mul factor).mul SCALE).quotient (.ofU128 Q)).1
      let scale ← .okOr s.scale.checkedSucc .arithmetic
      let last ← .okOr s.epochs.getLast? .domain
      return { s with
        p, scale,
        epochs := s.epochs.dropLast ++ [{ last with lastScale := scale }],
        history := s.history ++ [emptyCell s.epoch scale] }
    else return { s with p := ← muldiv s.p factor Q }

def offsetInner (pre : State) (debt collateral : U128) (delta : Option U128) (b : Bounds) : Work State := do
  validate pre b
  charge 1 0 (pre.history.length * 96 + pre.epochs.length * 24 + 304)
  if pre.total = .zero ∨ debt = .zero then return pre
  else
    failIf (pre.total < debt) .domain
    let s ← issue pre delta
    let gain ← accumulator collateral s.errorS s.total
    let loss ← lossPerUnit s debt
    let factor ← sub Q loss.1
    let last ← .okOr s.history.getLast? .domain
    let sums ← raise last.s gain.1 s.p
    let s ← shrink { s with
      errorS := gain.2, errorLoss := loss.2, history := s.history.dropLast ++ [{ last with s := sums }] } factor b
    failIf (s.p = .zero) .arithmetic
    let total ← sub s.total debt
    let collateral ← add s.collateral collateral
    let s := { s with total, collateral }
    validate s b
    return s

/-! ## Positions -/

/-- the product of a snapshot, scaled when one scale has passed since -/
def scaled (p : U128) (diff : U64) : Work Wide :=
  if diff.val = 1 then (Wide.ofU128 p).mul SCALE else pure (Wide.ofU128 p)

def compounded (s : State) (initial p : U128) (epoch scale : U64) : Work U128 := do
  failIf (s.epoch < epoch ∨ p = .zero ∨ Q < p) .domain
  if epoch < s.epoch then pure .zero
  else
    let diff ← .okOr (s.scale.checkedSub scale) .domain
    if 2 ≤ diff.val then pure .zero
    else
      let denominator ← scaled p diff
      let result := (← (← (Wide.ofU128 initial).mul s.p).quotient denominator).1
      pure (if result.val < initial.val / SCALE.val then .zero else result)

/-- the growth of a sum since a snapshot, over the scale of the snapshot and the next one -/
def growth (here snapshot next : Accumulator256) : Work Accumulator256 := do
  let first ← here.sub snapshot
  let second ← .lift (← (Wide.ofAccumulator next).quotientWide (.ofU128 SCALE)).1.accumulator
  first.add second

/-- `sums * initial / denominator` -/
def share (sums : Accumulator256) (initial : U128) (denominator : Wide) : Work U128 := do
  return (← (← (Wide.ofAccumulator sums).mul initial).quotient denominator).1

def gains (s : State) (initial : U128) (snap : Snapshot) : Work (U128 × U128 × U128) :=
  if initial = .zero then pure (.zero, .zero, .zero)
  else do
    let a ← cell s snap.epoch snap.scale
    let above ← .okOr snap.scale.checkedSucc .arithmetic
    let next ← cell s snap.epoch above
    let ds ← growth a.s snap.s next.s
    let dg ← growth a.g snap.g next.g
    let denominator ← (Wide.ofU128 snap.p).mul Q
    let principal ← compounded s initial snap.p snap.epoch snap.scale
    let collateral ← share ds initial denominator
    let raw ← share dg initial denominator
    return (principal, collateral, raw)

def frontGains (s : State) (initial : U128) (snap : FrontSnapshot) : Work (U128 × U128) :=
  if initial = .zero then pure (.zero, .zero)
  else do
    let a ← cell s snap.epoch snap.scale
    let above ← .okOr snap.scale.checkedSucc .arithmetic
    let next ← cell s snap.epoch above
    let delta ← growth a.g snap.g next.g
    let principal ← compounded s initial snap.p snap.epoch snap.scale
    -- the product with the initial stake is taken before the denominator
    let product ← (Wide.ofAccumulator delta).mul initial
    let denominator ← (Wide.ofU128 snap.p).mul Q
    return (principal, (← product.quotient denominator).1)

structure Liabilities where
  principalCollective : U128
  residualOnly : U128
  collateralCollective : U128
  zdexCollective : U128
deriving DecidableEq

/-- the sums of `validate_book` -/
structure Sums where
  principal : Wide
  coll : Wide
  token : Wide
  frontPrincipal : Wide
  eligible : Bool

/-- the kickback of a tagged position, or the whole -/
def kickback (frontEnds : List FrontEnd) : Option Id → Work U128
  | some tag => do return (← .okOr (frontEnds.find? (fun f => f.owner = tag)) .domain).kickback
  | none => pure Q

def validateDeposit (book : Book) (t : Sums) (d : Deposit) : Work Sums := do
  failIf (d.initial = .zero) .domain
  let gain ← gains book.pool d.initial d.snapshot
  let k ← kickback book.frontEnds d.tag
  let principal ← t.principal.add (.ofU128 gain.1)
  let coll ← t.coll.add (.ofU128 gain.2.1)
  let token ← t.token.add (.ofU128 (← muldiv gain.2.2 k Q))
  return { t with principal, coll, token, eligible := t.eligible || decide (.zero < gain.1) }

def validateFrontEnd (book : Book) (t : Sums) (f : FrontEnd) : Work Sums :=
  if .zero < f.initial then do
    let gain ← frontGains book.pool f.initial f.snapshot
    let frontPrincipal ← t.frontPrincipal.add (.ofU128 gain.1)
    let token ← t.token.add (.ofU128 (← muldiv gain.2 (Q.sub f.kickback) Q))
    return { t with frontPrincipal, token }
  else pure t

def validateBook (book : Book) (b : Bounds) : Work Liabilities := do
  validate book.pool b
  failIf (b.deposits.val < book.deposits.length ∨ b.frontEnds.val < book.frontEnds.length) .capacity
  charge (book.deposits.length + book.frontEnds.length) (book.deposits.length + book.frontEnds.length)
    ((book.deposits.length + book.frontEnds.length) * 224)
  failIf (¬ (book.deposits.map Deposit.owner).IsChain (· < ·) ∨ ¬ (book.frontEnds.map FrontEnd.owner).IsChain (· < ·))
    .canonical
  failIf (∃ f ∈ book.frontEnds, Q < f.kickback ∨ ∃ d ∈ book.deposits, d.owner = f.owner) .domain
  let start : Sums := ⟨.ofU128 .zero, .ofU128 .zero, .ofU128 .zero, .ofU128 .zero, false⟩
  let t ← book.deposits.foldlM (validateDeposit book) start
  let t ← book.frontEnds.foldlM (validateFrontEnd book) t
  failIf (t.frontPrincipal.cmp (.ofU128 book.pool.total) = .gt) .conservation
  failIf (t.principal.cmp (.ofU128 book.pool.total) = .gt) .conservation
  failIf (t.coll.cmp (.ofU128 book.pool.collateral) = .gt) .conservation
  let owed ← sub book.pool.stock.allocated book.pool.stock.paid
  failIf (t.token.cmp (.ofU128 owed) = .gt) .conservation
  let complement ← .lift (← (Wide.ofU128 book.pool.total).sub t.principal).narrow
  let collateralCollective ← .lift (← (Wide.ofU128 book.pool.collateral).sub t.coll).narrow
  let owed ← sub book.pool.stock.allocated book.pool.stock.paid
  let zdexCollective ← .lift (← (Wide.ofU128 owed).sub t.token).narrow
  return ⟨if t.eligible then complement else .zero, if t.eligible then .zero else complement,
    collateralCollective, zdexCollective⟩

/-! ## Commands -/

inductive Command where
  | deposit (amount : U128) (tag : Option Id)
  | withdraw (amount : U128)
  | claim
  | moveGainToVault
  | registerFrontEnd (kickback : U128)
deriving DecidableEq

/-- immutable inputs of `change` -/
structure ChangeInputs where
  pre : Book
  actor : Id
  command : Command
  walletZusd : U128
  issuance : Option U128
  prices : Vaults.Prices
  inventory : List Vaults.Vault
  system : Vaults.System
  bounds : Bounds

/-- insertion at the partition point of an owner -/
def insertAt {α : Type} (owner : α → Id) (xs : List α) (x : α) : List α :=
  xs.takeWhile (fun y => owner y < owner x) ++ x :: xs.dropWhile (fun y => owner y < owner x)

def copyBytes (book : Book) : ℕ :=
  (book.deposits.length + book.frontEnds.length) * 224 + book.pool.history.length * 96 + 640

/-- no active vault below the minimum ratio at a price -/
def collateralized (inventory : List Vaults.Vault) (system : Vaults.System) (p : U128) : Work Unit :=
  inventory.forM fun v => do
    charge 1 1 288
    if v.status = .active then do
      let v ← Vaults.effective v system
      failIf ((← Vaults.ratio v.collateral v.debt p) < Vaults.MCR) (.reject 1044)
    else pure ()

/-- the checks of a withdrawal of a positive amount -/
def withdrawable (i : ChangeInputs) : Work Unit := do
  Vaults.inventory i.inventory i.system
  i.prices.usable
  failIf (i.prices.pendingBlocked = true) (.reject 1020)
  ([some i.prices.committed, i.prices.pending].reduceOption).forM (collateralized i.inventory i.system)

def register (i : ChangeInputs) (front : Option FrontEnd) (old : Option Deposit) (k : U128) : Work Outcome := do
  failIf (front.isSome ∨ old.isSome) (.reject 1011)
  failIf (Q < k) (.reject 1012)
  failIf (i.bounds.frontEnds.val ≤ i.pre.frontEnds.length) (.reject 1061)
  charge 1 0 (copyBytes i.pre)
  return {
    book := { i.pre with
      frontEnds := insertAt FrontEnd.owner i.pre.frontEnds ⟨i.actor, k, .zero, currentFront i.pre.pool⟩ },
    gains := ⟨.zero, .zero, .zero, .zero⟩, principalIn := .zero, principalOut := .zero, frontEnd := none,
    gainToVault := false }

/-- the amount that a command brings into the pool -/
def inputOf (i : ChangeInputs) (front : Option FrontEnd) (old : Option Deposit) : Command → Work U128
  | .deposit amount tag => do
    failIf (amount = .zero) (.reject 1010)
    failIf (front.isSome) (.reject 1011)
    failIf (∃ id ∈ tag, ¬ ∃ f ∈ i.pre.frontEnds, f.owner = id) (.reject 1012)
    failIf (i.walletZusd < amount) (.reject 1033)
    return amount
  | _ => do
    failIf (old.isNone) (.reject 1011)
    return .zero

/-- the checks that a withdrawal and a move of gains add -/
def gate (i : ChangeInputs) (old : Option Deposit) : Work Unit :=
  match i.command with
  | .withdraw x => if .zero < x then withdrawable i else pure ()
  | .moveGainToVault => do
    Vaults.inventory i.inventory i.system
    failIf (¬ ∃ v ∈ i.inventory, v.owner = i.actor ∧ v.status = .active) (.reject 1011)
    let d ← .okOr old .domain
    failIf ((← gains i.pre.pool d.initial d.snapshot).2.1 = .zero) (.reject 1045)
  | _ => pure ()

/-- the tag of an old position, or that of a new deposit -/
def tagOf (command : Command) : Option Deposit → Option Id
  | some d => d.tag
  | none => match command with
    | .deposit _ tag => tag
    | _ => none

/-- the stake and the reward of the front end of a position, both zero without a stake; its snapshot is renewed -/
def settleFront (pool : State) (frontEnds : List FrontEnd) (input withdraw : U128) :
    Option Id → Work (List FrontEnd × U128)
  | none => pure (frontEnds, .zero)
  | some id => do
    let f ← .okOr (frontEnds.find? (fun f => f.owner = id)) .domain
    let stake ← frontGains pool f.initial f.snapshot
    let gain ← muldiv stake.2 (Q.sub f.kickback) Q
    let initial ← sub (← add stake.1 input) withdraw
    let f := { f with initial, snapshot := currentFront pool }
    return (frontEnds.map (fun g => if g.owner = id then f else g), gain)

/-- the gains of an old position -/
def oldGains (pool : State) : Option Deposit → Work (U128 × U128 × U128)
  | some d => gains pool d.initial d.snapshot
  | none => pure (.zero, .zero, .zero)

/-- the principal that a command takes out of the pool -/
def withdrawnBy (command : Command) (principal : U128) : U128 :=
  match command with
  | .withdraw x => min x principal
  | _ => .zero

def settle (i : ChangeInputs) (old : Option Deposit) (input : U128) : Work Outcome := do
  let pool ← issue i.pre.pool i.issuance
  let tag := tagOf i.command old
  let gain ← oldGains pool old
  let k ← kickback i.pre.frontEnds tag
  let depGain ← muldiv gain.2.2 k Q
  let withdraw := withdrawnBy i.command gain.1
  let front ← settleFront pool i.pre.frontEnds input withdraw tag
  let total ← sub (← add pool.total input) withdraw
  let held ← sub pool.collateral gain.2.1
  let paid ← add pool.stock.paid (← add depGain front.2)
  let amount ← sub (← add gain.1 input) withdraw
  let pool := { pool with total, collateral := held, stock := { pool.stock with paid } }
  let others := i.pre.deposits.filter (fun d => d.owner ≠ i.actor)
  failIf (.zero < amount ∧ i.bounds.deposits.val ≤ others.length) (.reject 1061)
  let deposits :=
    if .zero < amount then insertAt Deposit.owner others ⟨i.actor, amount, tag, current pool⟩ else others
  let book : Book := ⟨pool, deposits, front.1⟩
  let _ ← validateBook book i.bounds
  return {
    book, gains := ⟨gain.1, gain.2.1, depGain, front.2⟩, principalIn := input, principalOut := withdraw,
    frontEnd := tag, gainToVault := decide (i.command = .moveGainToVault) }

/-- after `validate_book` owners are strictly increasing, so a binary search finds the one row of the actor -/
def change (i : ChangeInputs) : Work Outcome := do
  let _ ← validateBook i.pre i.bounds
  failIf (i.bounds.vaults.val < i.inventory.length) .capacity
  charge i.inventory.length i.inventory.length (i.inventory.length * 288)
  let old := i.pre.deposits.find? (fun d => d.owner = i.actor)
  let front := i.pre.frontEnds.find? (fun f => f.owner = i.actor)
  match i.command with
  | .registerFrontEnd k => register i front old k
  | _ =>
    let input ← inputOf i front old i.command
    gate i old
    charge 1 0 (copyBytes i.pre)
    settle i old input

end ZenoFcis.Zusd.Stability
