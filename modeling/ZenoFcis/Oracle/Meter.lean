/-
Work accounting of the oracle relations (`zeno-fcis-core/src/resource.rs`, `finite/execution_v2/meter.rs`,
`oracle/wire.rs`): resources, the meter, failures and ordered refusal reasons.

A relation with a `&mut Meter` is a computation with charges. An early `return Ok(Err(reason))` and a `?` on a failure
are the two ways in which the body of a relation stops; `settle` gives them their places in the result.
-/
import ZenoFcis.Lib.Except
import ZenoFcis.Lib.Metered
import ZenoFcis.Lib.Unsigned
import ZenoFcis.Value.Basic

namespace ZenoFcis.Oracle

open Lib Lib.Except

abbrev U32 := Unsigned 32

abbrev U64 := Unsigned 64

abbrev U128 := Unsigned 128

/-- resource classes of the logical-work profile -/
inductive Resource where
  | read
  | write
  | candidate
  | effect
  | byte
  | witnessByte
  | depth
  | step
deriving DecidableEq

/-- a charge prevented by overflow or by a limit -/
structure MeterFailure where
  resource : Resource
  limit : ℕ
  attempted : ℕ
  overflow : Bool
deriving DecidableEq

structure Meter where
  limits : Resource → ℕ
  used : Resource → ℕ

namespace Meter

def new (limits : Resource → ℕ) : Meter := ⟨limits, fun _ => 0⟩

def charge (m : Meter) (resource : Resource) (amount : ℕ) : Except MeterFailure Meter :=
  let limit := m.limits resource
  let next := m.used resource + amount
  if u64Max < next then .error ⟨resource, limit, u64Max, true⟩
  else if limit < next then .error ⟨resource, limit, next, false⟩
  else .ok { m with used := Function.update m.used resource next }

end Meter

/-- a resource takes what its limit leaves, up to the range of its counter -/
theorem meter_rooms : Metered.Rooms Meter.charge fun m resource n =>
    m.used resource + n ≤ min (m.limits resource) u64Max where
  refused {m r n e} h := by
    unfold Meter.charge at h
    dsimp only at h
    split_ifs at h <;> omega
  paid {m r n m'} h q k hfits := by
    unfold Meter.charge at h
    dsimp only at h
    split_ifs at h
    obtain rfl := Except.ok.inj h
    dsimp only
    by_cases hq : r = q
    · subst hq
      rw [if_pos rfl] at hfits
      rw [Function.update_self]
      omega
    · rw [if_neg hq] at hfits
      rw [Function.update_of_ne (Ne.symm hq)]
      omega
  less k h := by omega

/-- preparation, validation or independent-law failure -/
inductive Failure where
  | unboundParameter
  | unsupportedScheme
  | backendUnavailable
  | invalidEvidence
  | invalidState
  | invalidProfile
  | canonical
  | arithmetic
  | law (code : ℕ)
  | budget (failure : MeterFailure)
deriving DecidableEq

/-- business refusal codes; the codes are 1 to 32 in this order -/
inductive Reason where
  | unauthorized
  | replay
  | counterExhausted
  | badClockOrSync
  | unknownReference
  | alreadyExists
  | wrongPhase
  | badSignature
  | badPoPOrRotation
  | bindingMismatch
  | badSequence
  | zeroAmountOrPrice
  | futureObservation
  | backwardObservation
  | staleObservation
  | wrongSourceOrDiversity
  | insufficientBond
  | insufficientBalance
  | noCompleteQuorum
  | excessUncertainty
  | windowClosed
  | bufferNotMature
  | disputedOrFrozen
  | nonMonotoneCommit
  | invalidVerdict
  | liabilityLocked
  | insufficientRewardBudget
  | alreadyClaimedOrSlashed
  | securityBudgetExceeded
  | itemTooLarge
  | full
  | snapshotTooLarge
deriving DecidableEq

def reasons : List Reason :=
  [.unauthorized, .replay, .counterExhausted, .badClockOrSync, .unknownReference, .alreadyExists, .wrongPhase,
    .badSignature, .badPoPOrRotation, .bindingMismatch, .badSequence, .zeroAmountOrPrice, .futureObservation,
    .backwardObservation, .staleObservation, .wrongSourceOrDiversity, .insufficientBond, .insufficientBalance,
    .noCompleteQuorum, .excessUncertainty, .windowClosed, .bufferNotMature, .disputedOrFrozen, .nonMonotoneCommit,
    .invalidVerdict, .liabilityLocked, .insufficientRewardBudget, .alreadyClaimedOrSlashed, .securityBudgetExceeded,
    .itemTooLarge, .full, .snapshotTooLarge]

/-- `reason as u32` -/
def Reason.code (r : Reason) : ℕ := r.ctorIdx + 1

/-! ## Computations -/

abbrev Work := Metered Resource Failure

/-- `measured`: run a relation against a fresh meter -/
def measured {α : Type} (limits : Resource → ℕ) (x : Work α) : Except Failure α × Meter :=
  x.run Meter.charge Failure.budget (Meter.new limits)

/-- a relation against fresh usage ends as it does without one, unless it asks for more of a resource than its limit -/
theorem run_new {ε α : Type} {budget : MeterFailure → ε} (limits : Resource → ℕ) (x : Metered Resource ε α) :
    (x.run Meter.charge budget (Meter.new limits)).1 = x.result ∨
      (∃ e, (x.run Meter.charge budget (Meter.new limits)).1 = .error (budget e)) ∧
        ∃ r, min (limits r) u64Max < Metered.asked x.charges r := by
  refine (meter_rooms.run_cases x (Meter.new limits)).imp_right ?_
  rintro ⟨hbudget, r, hshort⟩
  refine ⟨hbudget, r, ?_⟩
  rw [not_le] at hshort
  change min (limits r) u64Max < 0 + Metered.asked x.charges r at hshort
  rwa [zero_add] at hshort

/-- how the body of a relation stops early -/
inductive Stop where
  | refuse (reason : Reason)
  | fail (failure : Failure)
deriving DecidableEq

abbrev Arm := Metered Resource Stop

section Arm

variable {α β : Type}

/-- `return Ok(Err(reason))` -/
def refuseIf (p : Prop) [Decidable p] (reason : Reason) : Arm Unit := if p then .fail (.refuse reason) else pure ()

/-- `return Err(failure)` -/
def failIf {ε : Type} (p : Prop) [Decidable p] (failure : ε) : Metered Resource ε Unit :=
  if p then .fail failure else pure ()

/-- `?` on a computation that cannot refuse -/
def arm (x : Work α) : Arm α := x.mapError .fail

/-- the outer result holds failures, the inner one refusals -/
def outcome : Except Stop α → Except Failure (Except Reason α)
  | .ok a => .ok (.ok a)
  | .error (.refuse r) => .ok (.error r)
  | .error (.fail f) => .error f

def settle (x : Arm α) : Work (Except Reason α) := ⟨x.charges, outcome x.result⟩

theorem exists_unit {q : Unit → Prop} : (∃ u, q u) ↔ q () := Unique.exists_iff

theorem outcome_eq_accept {x : Except Stop α} {a : α} : outcome x = .ok (.ok a) ↔ x = .ok a := by
  rcases x with (r | f) | a <;> simp [outcome]

/-- settling keeps the outcome -/
@[simp] theorem result_settle (x : Arm α) : (settle x).result = outcome x.result := rfl

/-- an arm ends as its computation -/
@[simp] theorem result_arm (x : Work α) : (arm x).result = x.result.mapError .fail := rfl

variable {p : Prop} {r : Reason}

/-- a refusal passes when its condition fails -/
theorem refuseIf_ok [Decidable p] {u : Unit} : (refuseIf p r).result = .ok u ↔ ¬ p := by
  by_cases h : p <;> simp [refuseIf, h]

/-- a failure passes when its condition fails -/
theorem failIf_ok {ε : Type} [Decidable p] {e : ε} {u : Unit} : (failIf p e).result = .ok u ↔ ¬ p := by
  by_cases h : p <;> simp [failIf, h]

theorem result_refuseIf [Decidable p] :
    (refuseIf p r).result = if p then .error (.refuse r) else .ok () := by
  unfold refuseIf
  split_ifs <;> rfl

theorem result_failIf {ε : Type} [Decidable p] {e : ε} :
    (failIf p e).result = if p then .error e else .ok () := by
  unfold failIf
  split_ifs <;> rfl

theorem ite_error_bind {ε α β : Type} [Decidable p] {e : ε} {x : Except ε α} {f : α → Except ε β} :
    ((if p then .error e else x) >>= f) = if p then .error e else x >>= f := by
  split_ifs <;> rfl

theorem mapError_bind {ε ε' α β : Type} (g : ε → ε') (x : Except ε α) (f : α → Except ε β) :
    (x >>= f).mapError g = (x.mapError g >>= fun a => (f a).mapError g) := by
  cases x <;> rfl

theorem mapError_ok {ε ε' α : Type} (g : ε → ε') (a : α) : (Except.ok a).mapError g = .ok a := rfl

theorem mapError_error {ε ε' α : Type} (g : ε → ε') (e : ε) : (Except.error e : Except ε α).mapError g = .error (g e) :=
  rfl

theorem refuseIf_eq [Decidable p] : (refuseIf p r).result = ensure (¬ p) (.refuse r) := by
  unfold refuseIf ensure
  split_ifs <;> rfl

theorem failIf_eq [Decidable p] {ε : Type} {e : ε} : (failIf p e).result = ensure (¬ p) e := by
  unfold failIf ensure
  split_ifs <;> rfl

theorem ensure_congr {ε : Type} {q : Prop} [Decidable p] [Decidable q] {e : ε} (h : p ↔ q) : ensure p e = ensure q e := by
  unfold ensure
  simp only [h]

theorem mapError_ensure {ε ε' : Type} [Decidable p] {e : ε} (g : ε → ε') :
    (ensure p e).mapError g = ensure p (g e) := by
  unfold ensure
  split_ifs <;> rfl

end Arm

/-! ## Tariffs -/

def checkedMul {ε : Type} (max left right : ℕ) (error : ε) : Except ε ℕ :=
  if left * right ≤ max then .ok (left * right) else .error error

def step : Work Unit := .charge .step 1

def visit : Work Unit := do
  step
  .charge .read 1

/-- `for _ in 0..rows { wire::visit(m)?; }` -/
def visitAll : ℕ → Work Unit
  | 0 => pure ()
  | rows + 1 => do
    visit
    visitAll rows

def reserveScans (rows : ℕ) : Work Unit := do
  failIf (u64Max < rows) .arithmetic
  let n ← .lift (checkedAdd u64Max rows 4 .arithmetic)
  let square ← .lift (checkedMul u64Max n n .arithmetic)
  let scans ← .lift (checkedMul u64Max square 4 .arithmetic)
  .charge .step scans
  .charge .read scans
  let bytes ← .lift (checkedMul u64Max n 4096 .arithmetic)
  .charge .byte bytes

theorem checkedAdd_of_le {ε : Type} {max a b : ℕ} {e : ε} (h : a + b ≤ max) : checkedAdd max a b e = .ok (a + b) :=
  if_pos h

theorem checkedMul_of_le {ε : Type} {max a b : ℕ} {e : ε} (h : a * b ≤ max) : checkedMul max a b e = .ok (a * b) :=
  if_pos h

@[simp] theorem result_visit : visit.result = .ok () := rfl

@[simp] theorem result_step : step.result = .ok () := rfl

@[simp] theorem result_visitAll (rows : ℕ) : (visitAll rows).result = .ok () := by
  induction rows with
  | zero => rfl
  | succ rows ih => simp [visitAll, ok_bind, ih]

/-- the scan tariff is a `u64` for fewer than `2 ^ 31` rows and four, and is refused beyond -/
theorem result_reserveScans (rows : ℕ) :
    (reserveScans rows).result = if rows + 4 < 2 ^ 31 then .ok () else .error .arithmetic := by
  by_cases h : rows + 4 < 2 ^ 31
  · have hsquare : (rows + 4) * (rows + 4) < 2 ^ 62 := by nlinarith
    have hrows : ¬ u64Max < rows := by unfold u64Max; omega
    have hadd : rows + 4 ≤ u64Max := by unfold u64Max; omega
    have hmul : (rows + 4) * (rows + 4) ≤ u64Max := by unfold u64Max; omega
    have hscans : (rows + 4) * (rows + 4) * 4 ≤ u64Max := by unfold u64Max; omega
    have hbytes : (rows + 4) * 4096 ≤ u64Max := by unfold u64Max; omega
    rw [if_pos h]
    simp [reserveScans, failIf, hrows, checkedAdd_of_le hadd, checkedMul_of_le hmul, checkedMul_of_le hscans,
      checkedMul_of_le hbytes, ok_bind]
  · rw [if_neg h]
    have hsquare : 2 ^ 62 ≤ (rows + 4) * (rows + 4) := by nlinarith
    simp only [reserveScans, Metered.result_bind, failIf, Metered.result_ite, Metered.result_fail, Metered.result_lift,
      Metered.result_charge, Metered.result_pure, checkedAdd, checkedMul]
    by_cases hrows : u64Max < rows
    · simp [hrows, error_bind]
    · by_cases hadd : rows + 4 ≤ u64Max
      · by_cases hmul : (rows + 4) * (rows + 4) ≤ u64Max
        · have hscans : ¬ (rows + 4) * (rows + 4) * 4 ≤ u64Max := by unfold u64Max; omega
          simp [hrows, hadd, hmul, hscans, error_bind, ok_bind]
        · simp [hrows, hadd, hmul, error_bind, ok_bind]
      · simp [hrows, hadd, error_bind, ok_bind]

end ZenoFcis.Oracle
