/-
Fallible computations over a state that a failure leaves behind. `Runs x s a s'` says that a computation started in `s`
returns `a` and leaves `s'`. The rules give a run of a composite exactly in terms of the runs of its parts, so that the
runs of a loop follow from the runs of its steps.
-/
import ZenoFcis.Lib.Except

namespace ZenoFcis.Lib

variable {ε σ α β : Type}

/-- a computation with failures `ε` over a state `σ` -/
abbrev Attempting (ε σ : Type) := ExceptT ε (StateM σ)

namespace Attempting

/-- a failure unless `p` holds -/
def demand (p : Prop) [Decidable p] (e : ε) : Attempting ε σ Unit := if p then pure () else throw e

/-- a result that does not depend on the state -/
def ofExcept (x : Except ε α) : Attempting ε σ α := ExceptT.mk fun s => (x, s)

/-- the value of an option, or a failure -/
def okOr (x : Option α) (e : ε) : Attempting ε σ α := match x with
  | some a => pure a
  | none => throw e

end Attempting

/-- the computation returns -/
def Runs (x : Attempting ε σ α) (s : σ) (a : α) (s' : σ) : Prop := x.run s = (.ok a, s')

namespace Runs

variable {s s' : σ} {a b : α} {e : ε}

/-- returning keeps the state -/
theorem pure_iff : Runs (pure a : Attempting ε σ α) s b s' ↔ b = a ∧ s' = s := by
  change ((Except.ok a, s) : Except ε α × σ) = (.ok b, s') ↔ _
  rw [Prod.mk.injEq, Except.ok.injEq, eq_comm, eq_comm (a := s)]

theorem throw_iff : Runs (throw e : Attempting ε σ α) s b s' ↔ False := by
  change ((Except.error e, s) : Except ε α × σ) = (.ok b, s') ↔ _
  simp

theorem run_bind_ok {x : Attempting ε σ α} {f : α → Attempting ε σ β} {t : σ} (h : x.run s = (.ok a, t)) :
    (x >>= f).run s = (f a).run t := by
  rw [ExceptT.run_bind]
  change StateT.bind x.run _ s = _
  unfold StateT.bind
  rw [h]
  rfl

theorem run_bind_error {x : Attempting ε σ α} {f : α → Attempting ε σ β} {t : σ} (h : x.run s = (.error e, t)) :
    (x >>= f).run s = (.error e, t) := by
  rw [ExceptT.run_bind]
  change StateT.bind x.run _ s = _
  unfold StateT.bind
  rw [h]
  rfl

/-- a sequence runs through a state between -/
theorem bind_iff {x : Attempting ε σ α} {f : α → Attempting ε σ β} {b : β} :
    Runs (x >>= f) s b s' ↔ ∃ a t, Runs x s a t ∧ Runs (f a) t b s' := by
  unfold Runs
  rcases hx : x.run s with ⟨r, t⟩
  cases r with
  | ok a =>
    rw [run_bind_ok hx]
    constructor
    · intro h
      exact ⟨a, t, rfl, h⟩
    · rintro ⟨_, _, heq, h⟩
      cases heq
      exact h
  | error e =>
    rw [run_bind_error hx]
    constructor
    · intro h
      cases h
    · rintro ⟨_, _, heq, _⟩
      cases heq

/-- a demand that holds keeps the state -/
theorem demand_iff {p : Prop} [Decidable p] {u : Unit} :
    Runs (Attempting.demand p e : Attempting ε σ Unit) s u s' ↔ p ∧ s' = s := by
  unfold Attempting.demand
  split_ifs with h
  · rw [pure_iff]
    simp [h]
  · rw [throw_iff]
    simp [h]

/-- a pure computation keeps the state -/
theorem ofExcept_iff {x : Except ε α} : Runs (Attempting.ofExcept x : Attempting ε σ α) s b s' ↔ x = .ok b ∧ s' = s := by
  change ((x, s) : Except ε α × σ) = (.ok b, s') ↔ _
  rw [Prod.mk.injEq, eq_comm (a := s)]

/-- a value that is there is returned -/
theorem okOr_iff {x : Option α} : Runs (Attempting.okOr x e : Attempting ε σ α) s b s' ↔ x = some b ∧ s' = s := by
  cases x with
  | none => simp [Attempting.okOr, throw_iff]
  | some a => simp [Attempting.okOr, pure_iff, eq_comm]

end Runs

end ZenoFcis.Lib
