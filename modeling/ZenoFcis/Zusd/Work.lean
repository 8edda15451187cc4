/-
Failures and work accounting of the zUSD relations (`core-apps/zusd-v1/src/lib.rs`). A relation with a `&mut Work` is a
computation with charges on three lanes; `run` pays them against fresh usage.
-/
import ZenoFcis.Lib.Except
import ZenoFcis.Lib.Metered
import ZenoFcis.Lib.Unsigned
import ZenoFcis.Value.Basic

namespace ZenoFcis.Zusd

open Lib Lib.Except

abbrev U32 := Unsigned 32

abbrev U64 := Unsigned 64

abbrev U128 := Unsigned 128

/-- the lanes of a work budget, numbered 0 to 2 in this order -/
inductive Lane where
  | steps
  | reads
  | bytes
deriving DecidableEq

inductive Failure where
  | arithmetic
  | domain
  | canonical
  | capacity
  | conservation
  | law (code : ℕ)
  | unboundProfile
  | budget (lane : Lane) (limit attempted : ℕ)
  | reject (code : ℕ)
deriving DecidableEq

/-- exclusive invocation scratch: what was used against the limits -/
structure Usage where
  limits : Lane → ℕ
  used : Lane → ℕ

/-- one lane of `Work::charge` -/
def Usage.pay (m : Usage) (lane : Lane) (amount : ℕ) : Except Failure Usage :=
  let limit := m.limits lane
  let next := m.used lane + amount
  if u64Max < next then .error (.budget lane limit u64Max)
  else if limit < next then .error (.budget lane limit next)
  else .ok { m with used := Function.update m.used lane next }

abbrev Work := Metered Lane Failure

def charge (steps reads bytes : ℕ) : Work Unit := do
  .charge .steps steps
  .charge .reads reads
  .charge .bytes bytes

/-- `run`: evaluate a relation against fresh usage -/
def run {α : Type} (limits : Lane → ℕ) (x : Work α) : Except Failure α × Usage :=
  x.run Usage.pay id ⟨limits, fun _ => 0⟩

/-- what a computation asks for on a lane -/
def spent {α : Type} (x : Work α) (lane : Lane) : ℕ := ((x.charges.filter fun c => c.1 = lane).map Prod.snd).sum

/-- a lane takes what its limit leaves, up to the range of its counter -/
theorem usage_rooms : Metered.Rooms Usage.pay fun m lane n => m.used lane + n ≤ min (m.limits lane) u64Max where
  refused {m r n e} h := by
    unfold Usage.pay at h
    dsimp only at h
    split_ifs at h <;> omega
  paid {m r n m'} h q k hfits := by
    unfold Usage.pay at h
    dsimp only at h
    split_ifs at h
    obtain rfl := Except.ok.inj h
    dsimp only
    by_cases hq : r = q
    · subst hq
      rw [if_pos rfl] at hfits
      rw [Function.update_self]
      omega
    · rw [if_neg hq] at hfits
      rw [Function.update_of_ne (Ne.symm hq)]
      omega
  less k h := by omega

/-- **Enough budget.** A computation whose charges fit the limits ends with its result. -/
theorem run_enough {α : Type} {x : Work α} {limits : Lane → ℕ} (hspent : ∀ lane, spent x lane ≤ limits lane)
    (hmax : ∀ lane, limits lane ≤ u64Max) : (run limits x).1 = x.result := by
  refine usage_rooms.run_enough fun lane => ?_
  change 0 + spent x lane ≤ min (limits lane) u64Max
  rw [min_eq_left (hmax lane), zero_add]
  exact hspent lane

/-- a failure that is refused work -/
def Failure.IsBudget (e : Failure) : Prop := ∃ lane limit attempted, e = .budget lane limit attempted

theorem payAll_error {charges : List (Lane × ℕ)} {m : Usage} {e : Failure}
    (h : (Metered.payAll Usage.pay charges m).1 = some e) : e.IsBudget := by
  induction charges generalizing m with
  | nil => cases h
  | cons c charges ih =>
    unfold Metered.payAll at h
    cases hpay : m.pay c.1 c.2 with
    | error refused =>
      rw [hpay] at h
      cases h
      unfold Usage.pay at hpay
      dsimp only at hpay
      split_ifs at hpay <;> cases hpay <;> exact ⟨_, _, _, rfl⟩
    | ok m' =>
      rw [hpay] at h
      exact ih h

/-- a metered run fails as its computation does or by a budget -/
theorem run_error {α : Type} {x : Work α} {limits : Lane → ℕ} {e : Failure} (h : (run limits x).1 = .error e) :
    x.result = .error e ∨ e.IsBudget := by
  have herror := @payAll_error x.charges ⟨limits, fun _ => 0⟩
  unfold run Metered.run at h
  generalize Metered.payAll Usage.pay x.charges ⟨limits, fun _ => 0⟩ = paid at h herror
  rcases paid with ⟨refused | refused, m⟩
  · exact .inl h
  · cases h
    exact .inr (herror rfl)

section Work

variable {α β : Type}

/-- `return Err(failure)` -/
def failIf (p : Prop) [Decidable p] (failure : Failure) : Work Unit := if p then .fail failure else pure ()

/-- the outcome of a computation as a value; a refused charge still ends the computation -/
def attempt (x : Work α) : Work (Except Failure α) := ⟨x.charges, .ok x.result⟩

@[simp] theorem result_charge (steps reads bytes : ℕ) : (charge steps reads bytes).result = .ok () := rfl

@[simp] theorem result_attempt (x : Work α) : (attempt x).result = .ok x.result := rfl

theorem result_failIf {p : Prop} [Decidable p] {e : Failure} : (failIf p e).result = ensure (¬ p) e := by
  unfold failIf ensure
  split_ifs <;> rfl

end Work

end ZenoFcis.Zusd
