/-
Vault states of the redemption tables and the repair of their order after a redistribution
(`zeno-fcis-synthesis/src/finite/execution_v2/tables/redemption.rs`), with the law that checks it (`redistribution` of
`redemption_laws.rs`).

A traversal that only charges is a loop of charges; a loop that only reads its rows and keeps one value is a fold. The
positions that a search returns are positions of the list that it searched, so reading there never fails.
-/
import ZenoFcis.Codec.Decode
import ZenoFcis.Finite.Wide
import ZenoFcis.Lib.WordOrder
import ZenoFcis.Oracle.Meter

namespace ZenoFcis.Tables

open Lib Lib.Except Lib.Metered ZenoFcis.Finite
open Oracle (Resource MeterFailure Meter failIf)

inductive Failure where
  | wire
  | kind
  | arithmetic
  | undefined
  | law (code : ℕ)
  | budget (failure : MeterFailure)
deriving DecidableEq

abbrev Work := Metered Resource Failure

def Q : U128 := 1000000000000000000

def NICR_Q : U128 := 100000000000000000000

structure Vault where
  id : UInt32
  owner : UInt32
  active : Bool
  collateral : U128
  debt : U128
  stake : U128
  snapshotC : U128
  snapshotD : U128
deriving DecidableEq

structure State where
  vaults : List Vault
  order : List UInt32
  priorities : List (UInt32 × U128)
  rewardC : U128
  rewardD : U128
  stakesSnapshot : U128
  collateralSnapshot : U128
  activeCollateral : U128
  defaultCollateral : U128
  activeDebt : U128
  defaultDebt : U128
  holder : UInt32
  holderBalance : U128
  reserveBalance : U128
  supply : U128
  holderCollateral : U128
  stakingCollateral : U128
  surplus : List (UInt32 × U128)
  nonce : UInt64
  priceE8 : U128
  priceEpoch : UInt64
  oracleProfile : Hash32
  baseRate : U128
  lastFeeEpoch : UInt64
deriving DecidableEq

/-- the policy as far as admission reads it -/
structure Policy where
  capacity : UInt32
  inventoryCapacity : UInt32
  retainedBytes : UInt64
  reserve : U128
  limits : Resource → ℕ

/-! ## Metered steps -/

def step : Work Unit := charge .step 1

@[simp] theorem result_step : step.result = .ok () := rfl

def visit : Work Unit := do
  step
  charge .read 1

/-- one body after another -/
def forEach {α : Type} : List α → (α → Work Unit) → Work Unit
  | [], _ => pure ()
  | a :: l, body => do
    body a
    forEach l body

/-- `windows(2)` -/
def windows {α : Type} (l : List α) : List (α × α) := l.zip l.tail

/-- a charge of so many bytes for each of `count` rows -/
def chargeRows (count bytes : ℕ) : Work Unit := do
  failIf (u64Max < count * bytes) .arithmetic
  charge .byte (count * bytes)

def add (a b : U128) : Work U128 := do
  step
  okOr (Wide.checkedAdd a b) .arithmetic

def sub (a b : U128) : Work U128 := do
  step
  okOr (if b ≤ a then some (a - b) else none) .arithmetic

def muldiv (a b d : U128) : Work U128 := do
  charge .step 1024
  charge .byte 51
  failIf (d = 0) .arithmetic
  okOr (Wide.mulDivFloor a b d) .arithmetic

def nicr (c d : U128) : Work U128 := muldiv c NICR_Q d

/-- a vault with its share of what was redistributed since its snapshots -/
def effective (s : State) (v : Vault) : Work (U128 × U128) :=
  if ¬v.active then pure (v.collateral, v.debt)
  else do
    let dc ← sub s.rewardC v.snapshotC
    let dd ← sub s.rewardD v.snapshotD
    let shareC ← muldiv v.stake dc Q
    let c ← add v.collateral shareC
    let shareD ← muldiv v.stake dd Q
    let d ← add v.debt shareD
    pure (c, d)

/-- the declared bound of the retained bytes -/
def stateBytes (s : State) : Except Failure ℕ := do
  let bytes := 1024 + s.vaults.length * 192 + s.order.length * 8 + s.priorities.length * 32 + s.surplus.length * 32
  ensure (bytes ≤ u64Max) .arithmetic
  pure bytes

def chargeState (s : State) : Work Unit := do
  let bytes ← lift (stateBytes s)
  charge .byte bytes
  forEach s.vaults fun _ => do
    visit
    charge .step 16
  forEach s.order fun _ => visit
  forEach s.priorities fun _ => visit
  forEach s.surplus fun _ => visit

/-- the position of a vault -/
def index (s : State) (id : UInt32) : Work ℕ := do
  let out ← s.vaults.zipIdx.foldlM (fun out row => do
    visit
    charge .byte 192
    pure (if row.1.id = id then some row.2 else out)) none
  okOr out .undefined

/-- `s.vaults[index(s, id, m)?]` -/
def vaultAt (s : State) (id : UInt32) : Work Vault := do
  let i ← index s id
  okOr s.vaults[i]? .undefined

def pcmp (a b : U128) : Work Ordering := do
  step
  charge .byte 34
  pure (compare a.toNat b.toNat)

def priority (s : State) (id : UInt32) : Work U128 := do
  let out ← s.priorities.foldlM (fun out row => do
    visit
    charge .byte 32
    pure (if row.1 = id then some row.2 else out)) none
  okOr out .undefined

/-! ## Admission -/

/-- what a vault adds to the totals -/
structure Totals where
  active : ℕ
  rawC : U128
  rawD : U128
  pendingC : U128
  pendingD : U128

/-- one vault: an inactive one is empty; an active one has debt, the only one of its owner, and a fresh priority -/
def admitVault (p : Policy) (s : State) (t : Totals) (row : Vault × ℕ) : Work Totals := do
  let v := row.1
  visit
  forEach (List.range 5) fun _ => step
  if ¬v.active then
    failIf (v.collateral ≠ 0 ∨ v.debt ≠ 0 ∨ v.stake ≠ 0 ∨ v.snapshotC ≠ 0 ∨ v.snapshotD ≠ 0) (.law 982)
    pure t
  else
    failIf (v.debt ≤ p.reserve) (.law 982)
    forEach (s.vaults.take row.2) fun prev => do
      visit
      failIf (prev.active ∧ prev.owner = v.owner) (.law 982)
    let rawC ← add t.rawC v.collateral
    let rawD ← add t.rawD v.debt
    let (c, d) ← effective s v
    let gainC ← sub c v.collateral
    let pendingC ← add t.pendingC gainC
    let gainD ← sub d v.debt
    let pendingD ← add t.pendingD gainD
    let fresh ← nicr c d
    failIf (fresh = 0) (.law 983)
    let held ← priority s v.id
    let comparison ← pcmp held fresh
    failIf (comparison ≠ .eq) (.law 983)
    pure ⟨t.active + 1, rawC, rawD, pendingC, pendingD⟩

/-- one entry of the order: an active vault, not listed before, not above the entry before it -/
def admitEntry (s : State) (row : UInt32 × ℕ) : Work Unit := do
  visit
  let v ← vaultAt s row.1
  failIf (v.active = false) (.law 984)
  forEach (s.order.take row.2) fun other => do
    visit
    visit
    failIf (row.1 = other) (.law 984)
  match s.order[row.2 - 1]? with
  | some previous =>
    if 0 < row.2 then
      let above ← priority s previous
      let own ← priority s row.1
      let comparison ← pcmp above own
      failIf (comparison = .lt) (.law 985)
    else pure ()
  | none => pure ()

/-- a surplus belongs to the owner of a vault -/
def admitSurplus (s : State) (row : UInt32 × U128) : Work Unit := do
  visit
  forEach s.vaults fun _ => do
    visit
    step
    charge .byte 200
  failIf (∀ v ∈ s.vaults, v.owner ≠ row.1) (.law 984)

/-- the keys of a table are strictly increasing -/
def admitKeys (table : List (UInt32 × U128)) : Work Unit :=
  forEach (windows table) fun pair => do
    visit
    visit
    step
    charge .byte 72
    failIf (pair.2.1 ≤ pair.1.1) .wire

def validate (p : Policy) (s : State) : Work Unit := do
  failIf (p.inventoryCapacity.toNat < s.vaults.length ∨ p.capacity.toNat < s.order.length ∨
    p.capacity.toNat < s.priorities.length ∨ p.inventoryCapacity.toNat < s.surplus.length) .wire
  let bytes ← lift (stateBytes s)
  failIf (p.retainedBytes.toNat < bytes) .wire
  chargeState s
  forEach (windows s.vaults) fun pair => do
    visit
    visit
    step
    charge .byte 392
    failIf (pair.2.id ≤ pair.1.id) .wire
  admitKeys s.priorities
  admitKeys s.surplus
  forEach (List.range 14) fun _ => step
  failIf (Q < s.baseRate) (.law 981)
  let debt ← add s.activeDebt s.defaultDebt
  failIf (s.supply ≠ debt) (.law 981)
  let held ← add s.holderBalance s.reserveBalance
  failIf (s.supply < held) (.law 981)
  let t ← s.vaults.zipIdx.foldlM (admitVault p s) ⟨0, 0, 0, 0, 0⟩
  failIf (t.active ≠ s.order.length ∨ t.active ≠ s.priorities.length ∨ t.rawC ≠ s.activeCollateral ∨
    t.rawD ≠ s.activeDebt ∨ s.defaultCollateral < t.pendingC ∨ s.defaultDebt < t.pendingD) (.law 984)
  forEach s.order.zipIdx (admitEntry s)
  forEach s.surplus (admitSurplus s)

/-! ## Reinsertion -/

/-- the order without an entry -/
def detach (s : State) (id : UInt32) : Work (List UInt32) :=
  s.order.foldlM (fun detached x => do
    visit
    pure (if x ≠ id then detached ++ [x] else detached)) []

/-- the positions of two anchors -/
def anchors (detached : List UInt32) (upper lower : Option UInt32) : Work (Option ℕ × Option ℕ) :=
  detached.zipIdx.foldlM (fun found row => do
    visit
    pure (if some row.1 = upper then some row.2 else found.1, if some row.1 = lower then some row.2 else found.2))
    (none, none)

/-- whether a priority may stand before a cut -/
def aboveCut (s : State) (detached : List UInt32) (p : U128) (j : ℕ) : Work Bool :=
  match j with
  | 0 => pure true
  | i + 1 => do
    let q ← priority s (detached.getD i 0)
    let comparison ← pcmp q p
    pure (decide (comparison ≠ .lt))

/-- whether a priority may stand behind a cut -/
def belowCut (s : State) (detached : List UInt32) (p : U128) (j : ℕ) : Work Bool :=
  match detached[j]? with
  | none => pure true
  | some x => do
    let q ← priority s x
    let comparison ← pcmp p q
    pure (decide (comparison ≠ .lt))

/-- all valid cuts -/
def cuts (s : State) (detached : List UInt32) (p : U128) : Work (List ℕ) :=
  (List.range (detached.length + 1)).foldlM (fun gaps j => do
    step
    let above ← aboveCut s detached p j
    let valid ← if above then belowCut s detached p j else pure false
    pure (if valid then gaps ++ [j] else gaps)) []

/-- the cut that two anchors name -/
def hintedCut (detached : List UInt32) (upper lower : Option UInt32) : Option ℕ × Option ℕ → Option ℕ
  | (none, none) => if upper.isNone ∧ lower.isNone ∧ detached = [] then some 0 else none
  | (none, some j) => if j = 0 ∧ upper.isNone then some 0 else none
  | (some i, none) => if lower.isNone ∧ i + 1 = detached.length then some detached.length else none
  | (some i, some j) => if i + 1 = j then some j else none

/-- the cut that a search from the valid anchors finds -/
def searchedCut (s : State) (detached : List UInt32) (gaps : List ℕ) (p : U128) (found : Option ℕ × Option ℕ) :
    Work (Option ℕ) := do
  let u ← match found.1 with
    | none => pure none
    | some i => do
      let q ← priority s (detached.getD i 0)
      let comparison ← pcmp q p
      pure (if comparison = .lt then none else some i)
  let l ← match found.2 with
    | none => pure none
    | some i => do
      let q ← priority s (detached.getD i 0)
      let comparison ← pcmp q p
      pure (if comparison = .gt then none else some i)
  match u, l with
  | none, some j =>
    let atEnd ← if j + 1 = detached.length then do
        let q ← priority s (detached.getD j 0)
        let comparison ← pcmp p q
        pure (decide (comparison ≠ .gt))
      else pure false
    pure (if atEnd then some detached.length else gaps.reverse.find? fun x => x ≤ j)
  | u, _ =>
    let i := u.getD 0
    let atStart ← match detached with
      | [] => pure true
      | x :: _ =>
        if i = 0 then do
          let q ← priority s x
          let comparison ← pcmp p q
          pure (decide (comparison ≠ .lt))
        else pure false
    pure (if atStart then some 0 else gaps.find? fun x => i < x)

/-- removing and inserting one entry -/
def reinsert (s : State) (id : UInt32) (p : U128) (upper lower : Option UInt32) : Work State := do
  chargeRows s.order.length 8
  let detached ← detach s id
  let found ← anchors detached upper lower
  chargeRows (detached.length + 1) 8
  let gaps ← cuts s detached p
  forEach (List.range 2) fun _ => forEach gaps fun _ => do
    visit
    charge .byte 8
  let hint := (hintedCut detached upper lower found).filter fun j => gaps.contains j
  let chosen ← match hint with
    | some j => pure (some j)
    | none => searchedCut s detached gaps p found
  let cut ← okOr chosen .undefined
  forEach s.priorities fun _ => visit
  pure { s with order := detached.insertIdx cut id,
                priorities := s.priorities.map fun row => if row.1 = id then (row.1, p) else row }

/-! ## The law -/

/-- the last position of an entry of the order -/
def place (order : List UInt32) (id : UInt32) : Option ℕ :=
  order.zipIdx.foldl (fun out row => if row.1 = id then some row.2 else out) none

/-- one pair of the order before: it stands as it was exactly when its first priority is not smaller -/
def checkPair (post : State) (left right : UInt32) : Work Unit := do
  visit
  forEach post.order fun _ => do
    visit
    charge .byte 12
  let above ← priority post left
  let below ← priority post right
  let comparison ← pcmp above below
  let li ← okOr (place post.order left) (.law 988)
  let ri ← okOr (place post.order right) (.law 988)
  failIf (decide (li < ri) ≠ decide (comparison ≠ .lt)) (.law 988)

def checkPairs (post : State) : List UInt32 → Work Unit
  | [] => pure ()
  | left :: rest => do
    visit
    forEach rest (checkPair post left)
    checkPairs post rest

/-- the relation of a state before and a state after a redistribution -/
def redistributionLaw (pre post : State) : Work Unit := do
  charge .step 2
  failIf (post.rewardC < pre.rewardC ∨ post.rewardD < pre.rewardD) .arithmetic
  chargeState pre
  chargeState post
  failIf ({ pre with rewardC := post.rewardC, rewardD := post.rewardD, priorities := post.priorities,
                     order := post.order } ≠ post) (.law 988)
  checkPairs post pre.order

def checkRedistribution (p : Policy) (pre candidate : State) : Work Unit := do
  validate p pre
  validate p candidate
  redistributionLaw pre candidate

/-! ## Redistribution -/

/-- a cached priority computed again -/
def refresh (s : State) (row : UInt32 × U128) : Work (UInt32 × U128) := do
  visit
  let v ← vaultAt s row.1
  let (c, d) ← effective s v
  let fresh ← nicr c d
  charge .write 1
  pure (row.1, fresh)

/-- the last entry that is not smaller and the first that is -/
def neighbours (s : State) (p : U128) : Work (Option UInt32 × Option UInt32) :=
  s.order.foldlM (fun found x => do
    visit
    let q ← priority s x
    let comparison ← pcmp q p
    pure (if comparison ≠ .lt then (some x, found.2) else (found.1, found.2.or (some x)))) (none, none)

/-- whether an entry inverts the order before it -/
def inverts (s : State) (p : U128) : Work Bool :=
  match s.order.getLast? with
  | some last => do
    let q ← priority s last
    let comparison ← pcmp q p
    pure (decide (comparison = .lt))
  | none => pure false

/-- one entry after the repaired entries before it -/
def repair (s : State) (id : UInt32) : Work State := do
  visit
  let p ← priority s id
  let inversion ← inverts s p
  let next ← if inversion then do
      let (upper, lower) ← neighbours s p
      reinsert { s with order := s.order ++ [id] } id p upper lower
    else pure { s with order := s.order ++ [id] }
  charge .write 1
  pure next

def redistribute (p : Policy) (pre : State) (rewardC rewardD : U128) : Work State := do
  validate p pre
  charge .step 2
  charge .byte 34
  failIf (rewardC < pre.rewardC ∨ rewardD < pre.rewardD) .arithmetic
  chargeState pre
  let s := { pre with rewardC, rewardD }
  let priorities ← s.priorities.mapM (refresh s)
  charge .byte (pre.order.length * 8)
  let repaired ← pre.order.foldlM repair { s with priorities, order := [] }
  validate p repaired
  redistributionLaw pre repaired
  chargeState repaired
  charge .candidate 1
  pure repaired

/-- a fresh meter for a whole redistribution -/
def orderRepair (p : Policy) (pre : State) (rewardC rewardD : U128) : Except Failure State × Meter :=
  (redistribute p pre rewardC rewardD).run Meter.charge .budget (Meter.new p.limits)

/-- a fresh meter for a whole check -/
def orderCheck (p : Policy) (pre candidate : State) : Except Failure Unit × Meter :=
  (checkRedistribution p pre candidate).run Meter.charge .budget (Meter.new p.limits)

end ZenoFcis.Tables
