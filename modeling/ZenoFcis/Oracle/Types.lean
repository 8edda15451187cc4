/-
Nominal types and explicit policy of the oracle relations (`oracle/types.rs`, with `ClockView` of `prices.rs` and
`Aggregate` of `aggregation.rs`).

The nominal amounts are newtypes over one unsigned integer, and the model keeps their names as abbreviations. Fields
that no account relation reads (the exposure caps, the numbers and sources of an aggregate) are left out.
-/
import ZenoFcis.Codec.Commitment
import ZenoFcis.Lib.OrdMap
import ZenoFcis.Oracle.Meter

namespace ZenoFcis.Oracle

open Lib Lib.Except

abbrev Hash := Hash32

theorem hash_length (n : UInt8) : (List.replicate 32 n).length = 32 := List.length_replicate

/-- the three slots of a quorum are told apart by one instance -/
instance neZeroThree : NeZero 3 := ⟨by decide⟩

/-- an opaque identity of one through 64 bytes -/
structure Id where
  bytes : Bytes
  bounded : bytes ≠ [] ∧ bytes.length ≤ 64
deriving DecidableEq

namespace Id

theorem single_bounded (n : UInt8) : [n] ≠ [] ∧ [n].length ≤ 64 := by simp

def new (bytes : Bytes) : Except Failure Id :=
  if h : bytes ≠ [] ∧ bytes.length ≤ 64 then .ok ⟨bytes, h⟩ else .error .canonical

theorem bytes_inj : Function.Injective Id.bytes := by
  intro a b h
  cases a
  cases b
  cases h
  rfl

/-- the derived order: the bytes, lexicographically -/
instance : LinearOrder Id := LinearOrder.lift' Id.bytes bytes_inj

end Id

/-- zDEX amount with 18 decimal places -/
abbrev ZdexE18 := U128

/-- nominal reward denomination and decimal scale -/
structure RewardUnit where
  asset : Id
  scale : UInt8
deriving DecidableEq

def RewardUnit.validate (u : RewardUnit) : Except Failure Unit := ensure (u.scale ≤ 38) .invalidProfile

/-! ## Policy -/

structure ClockParameters where
  backend : Hash
  heartbeat : U64
  confirmation : U64
  disputeOpen : U64
  inclusion : U64
  maxAge : U64
  maxEpochSeconds : U64
  maxTimeLag : U64
deriving DecidableEq

/-- `option.ok_or(error)` -/
def okOr {ε α : Type} (x : Option α) (error : ε) : Except ε α := match x with
  | some a => .ok a
  | none => .error error

theorem okOr_eq_ok {ε α : Type} {x : Option α} {e : ε} {a : α} : okOr x e = .ok a ↔ x = some a := by
  cases x <;> simp [okOr]

theorem result_okOr {α : Type} (x : Option α) (e : Failure) :
    (Metered.okOr x (.fail e) : Arm α).result = (okOr x e).mapError .fail := by
  cases x <;> rfl

/-! ## Failures of the laws -/

section Lawless

variable {α β : Type}

/-- a computation that ends in no failure of a law -/
def Lawless (x : Except Failure α) : Prop := ∀ code, x ≠ .error (.law code)

theorem Lawless.ok (a : α) : Lawless (.ok a) := nofun

/-- computations without laws compose -/
theorem Lawless.bind {x : Except Failure α} {f : α → Except Failure β} (hx : Lawless x) (hf : ∀ a, Lawless (f a)) :
    Lawless (x >>= f) := by
  intro code h
  rcases bind_eq_error.1 h with h | ⟨a, -, h⟩
  · exact hx code h
  · exact hf a code h

theorem Lawless.map {x : Except Failure α} (f : α → β) (hx : Lawless x) : Lawless (x.map f) := by
  cases x with
  | error e => exact fun code h => hx code (by cases h; rfl)
  | ok a => exact Lawless.ok _

/-- the failures of a state, a profile or a sum -/
def Failure.plain : Failure → Prop
  | .law _ => False
  | _ => True

theorem lawless_error {e : Failure} (he : e.plain) : Lawless (.error e : Except Failure α) := by
  rintro code ⟨⟩
  exact he

theorem lawless_reserveScans (rows : ℕ) : Lawless (reserveScans rows).result := by
  rw [result_reserveScans]
  split_ifs
  · exact Lawless.ok ()
  · exact lawless_error (by trivial)

theorem lawless_okOr {x : Option α} {e : Failure} (he : e.plain) : Lawless (okOr x e) := by
  cases x with
  | none => exact lawless_error he
  | some a => exact Lawless.ok a

theorem lawless_ensure {p : Prop} [Decidable p] {e : Failure} (he : e.plain) : Lawless (ensure p e) := by
  unfold ensure
  split_ifs
  · exact Lawless.ok ()
  · exact lawless_error he

theorem Lawless.okOr_bind {x : Option α} {e : Failure} {f : α → Except Failure β} (he : e.plain)
    (hf : ∀ a, Lawless (f a)) : Lawless (okOr x e >>= f) := Lawless.bind (lawless_okOr he) hf

theorem Lawless.ensure_bind {p : Prop} [Decidable p] {e : Failure} {f : Unit → Except Failure β}
    (he : e.plain) (hf : ∀ u, Lawless (f u)) : Lawless (ensure p e >>= f) :=
  Lawless.bind (lawless_ensure he) hf

theorem lawless_mapError {ε : Type} {x : Except ε α} {e : Failure} (he : e.plain) : Lawless (x.mapError fun _ => e) := by
  cases x with
  | error _ => exact lawless_error he
  | ok a => exact Lawless.ok a

/-- the body of a relation that stops at no failure of a law -/
def LawlessArm (x : Except Stop α) : Prop := Lawless (outcome x)

theorem LawlessArm.ok (a : α) : LawlessArm (.ok a) := nofun

theorem LawlessArm.bind {x : Except Stop α} {f : α → Except Stop β} (hx : LawlessArm x) (hf : ∀ a, LawlessArm (f a)) :
    LawlessArm (x >>= f) := by
  cases x with
  | ok a => exact hf a
  | error e =>
    cases e with
    | refuse r => exact nofun
    | fail e => exact fun code h => hx code (by cases h; rfl)

theorem Lawless.arm {x : Except Failure α} (h : Lawless x) : LawlessArm (x.mapError .fail) := by
  cases x with
  | ok a => exact nofun
  | error e => exact fun code he => h code (by cases he; rfl)

theorem lawlessArm_ensure {p : Prop} [Decidable p] {e : Stop} (he : ∀ code, e ≠ .fail (.law code)) :
    LawlessArm (ensure p e) := by
  unfold ensure
  split_ifs
  · exact nofun
  · intro code h
    cases e with
    | refuse r => cases h
    | fail f =>
      cases h
      exact he code rfl

end Lawless

/-! ## Clock and policy checks -/

def ClockParameters.validate (c : ClockParameters) : Except Failure Unit := do
  ensure (¬ (c.backend = .zero ∨ c.heartbeat = .zero ∨ c.confirmation = .zero ∨ c.disputeOpen = .zero ∨
    c.maxEpochSeconds = .zero ∨ c.maxTimeLag = .zero)) .invalidProfile
  let bound ← okOr ((c.heartbeat.checkedAdd (max c.confirmation c.disputeOpen)).bind (·.checkedAdd c.inclusion))
    .arithmetic
  ensure (¬ c.maxAge < bound) .invalidProfile

/-- bound destination of an applied penalty or challenge escrow -/
inductive EscrowRecipient where
  | challenger
  | reporterOwner
  | treasury
  | burn
deriving DecidableEq

structure DisputeParameters where
  adjudicator : Hash
  minimumBond : ZdexE18
  challengeBond : ZdexE18
  slash : ZdexE18
  exitDelay : U64
  finalityDelay : U64
  appealDelay : U64
  falsePriceSlashable : Bool
  treasury : Id
  slashRecipient : EscrowRecipient
  upheldBondRecipient : EscrowRecipient
  rejectedBondRecipient : EscrowRecipient
deriving DecidableEq

structure EconomicParameters where
  rewardUnit : RewardUnit
  rewardPerReport : U128
  alphaNumerator : U128
  alphaDenominator : U128
  stressSource : Hash
  stressHaircutNumerator : U128
  stressHaircutDenominator : U128
  window : U64
deriving DecidableEq

/-- an absent part is a binding refusal, never a default -/
structure Parameters where
  clock : Option ClockParameters
  disputes : Option DisputeParameters
  economy : Option EconomicParameters
deriving DecidableEq

def Parameters.validate (p : Parameters) : Except Failure Unit := do
  let c ← okOr p.clock .unboundParameter
  let d ← okOr p.disputes .unboundParameter
  let e ← okOr p.economy .unboundParameter
  c.validate
  e.rewardUnit.validate
  ensure (¬ (d.adjudicator = .zero ∨ d.minimumBond = .zero ∨ d.challengeBond = .zero ∨ d.slash = .zero ∨
    d.minimumBond < d.slash ∨ e.stressSource = .zero ∨ e.alphaNumerator = .zero ∨
    e.alphaDenominator ≤ e.alphaNumerator ∨ e.stressHaircutNumerator = .zero ∨
    e.stressHaircutDenominator < e.stressHaircutNumerator ∨ e.window = .zero)) .invalidProfile
  let horizon ← okOr (((max c.confirmation c.disputeOpen).checkedAdd c.inclusion).bind fun x =>
    (x.checkedAdd d.finalityDelay).bind (·.checkedAdd d.appealDelay)) .arithmetic
  ensure (¬ e.window < horizon) .invalidProfile

theorem lawless_clock (c : ClockParameters) : Lawless c.validate := by
  unfold ClockParameters.validate
  exact Lawless.ensure_bind (by trivial) fun _ => Lawless.okOr_bind (by trivial) fun _ => lawless_ensure (by trivial)

theorem lawless_parameters (p : Parameters) : Lawless p.validate := by
  unfold Parameters.validate RewardUnit.validate
  refine Lawless.okOr_bind (by trivial) fun c => Lawless.okOr_bind (by trivial) fun d => ?_
  refine Lawless.okOr_bind (by trivial) fun e => Lawless.bind (lawless_clock c) fun _ => ?_
  refine Lawless.ensure_bind (by trivial) fun _ => Lawless.ensure_bind (by trivial) fun _ => ?_
  exact Lawless.okOr_bind (by trivial) fun _ => lawless_ensure (by trivial)

/-- what validation promises the account relations -/
structure Parameters.Bound (p : Parameters) (c : ClockParameters) (d : DisputeParameters) (e : EconomicParameters) :
    Prop where
  valid : p.validate = .ok ()
  clock : p.clock = some c
  disputes : p.disputes = some d
  economy : p.economy = some e

namespace Parameters

variable {p : Parameters} {c : ClockParameters} {d : DisputeParameters} {e : EconomicParameters}

/-- validated parameters bind a clock, disputes and an economy -/
theorem bound_of_validate (h : p.validate = .ok ()) : ∃ c d e, p.Bound c d e := by
  have hparts := h
  unfold validate at hparts
  simp only [bind_eq_ok, okOr_eq_ok] at hparts
  obtain ⟨c, hc, d, hd, e, he, -⟩ := hparts
  exact ⟨c, d, e, h, hc, hd, he⟩

/-- bound amounts are positive, and a slash is within the bond -/
theorem Bound.amounts (h : p.Bound c d e) : 0 < d.slash.val ∧ d.slash.val ≤ d.minimumBond.val ∧
    0 < d.minimumBond.val ∧ 0 < d.challengeBond.val := by
  have hparts := h.valid
  unfold validate at hparts
  simp only [h.clock, h.disputes, h.economy, bind_eq_ok, okOr_eq_ok, Option.some.injEq, exists_eq_left',
    ensure_eq_ok, not_or, Unsigned.eq_zero_iff, Unsigned.lt_def] at hparts
  omega

end Parameters

/-! ## Evidence -/

/-- an authenticated clock premise -/
structure ClockView where
  backend : Hash
  finalityRoot : Hash
  epoch : U64
deriving DecidableEq

/-- an aggregate of three selected reports -/
structure Aggregate where
  id : Hash
  feed : Hash
  profile : Hash
  reports : Fin 3 → Hash
  reporters : Fin 3 → Id

namespace Aggregate

/-- `aggregate.reports().iter().position(|x| x == report)` -/
def position (a : Aggregate) (report : Hash) : Option (Fin 3) := (List.finRange 3).find? fun i => a.reports i = report

/-- `aggregate.reports().contains(report)` -/
def selects (a : Aggregate) (report : Hash) : Bool := (a.position report).isSome

end Aggregate

/-- immutable actor, clock and policy inputs shared by account relations -/
structure AccountContext where
  parameters : Parameters
  actor : Id
  nonce : U64
  clock : ClockView
  capacity : U32
deriving DecidableEq

/-- `map.get(id).copied().unwrap_or(0)` -/
def balanceOf {w : ℕ} (m : OrdMap Id (Unsigned w)) (id : Id) : Unsigned w := (m.get id).getD .zero

/-- the sum of all balances -/
def balances (m : OrdMap Id U128) : ℕ := m.total Unsigned.val

/-- an inserted balance changes the total by the difference -/
theorem balances_insert {m : OrdMap Id U128} {k : Id} {a : U128} :
    balances (m.insert k a) + (balanceOf m k).val = balances m + a.val := by
  have h := OrdMap.total_insert (m := m) (k := k) (a := a) (f := Unsigned.val)
  unfold balances balanceOf
  cases hk : m.get k with
  | none => rw [hk] at h; exact h
  | some b => rw [hk] at h; exact h

end ZenoFcis.Oracle
