/-
Inversion rules for `Except` programs: how an `ok` or an `error` result of a composite program splits into results of
its parts. Every proof about a fallible function of the development starts from these rules; none unfolds `bind`.
-/
import Mathlib.Tactic

namespace ZenoFcis.Lib.Except

variable {ε ε' α β : Type}

variable {x : Except ε α} {f : α → Except ε β}

/-- a sequence succeeds when both parts do -/
theorem bind_eq_ok {b : β} :
    (x >>= f) = .ok b ↔ ∃ a, x = .ok a ∧ f a = .ok b := by
  cases x <;> simp [bind, Except.bind]

/-- a sequence fails where one of its parts does -/
theorem bind_eq_error {e : ε} :
    (x >>= f) = .error e ↔ x = .error e ∨ ∃ a, x = .ok a ∧ f a = .error e := by
  cases x <;> simp [bind, Except.bind]

theorem ok_bind (a : α) (f : α → Except ε β) : ((.ok a : Except ε α) >>= f) = f a := rfl

theorem error_bind (e : ε) (f : α → Except ε β) : ((.error e : Except ε α) >>= f) = .error e := rfl

theorem pure_eq (a : α) : (pure a : Except ε α) = .ok a := rfl

theorem mapError_eq_ok {f : ε → ε'} {a : α} : x.mapError f = .ok a ↔ x = .ok a := by
  cases x <;> simp [Except.mapError]

theorem mapError_eq_error {f : ε → ε'} {e : ε'} :
    x.mapError f = .error e ↔ ∃ e', x = .error e' ∧ f e' = e := by
  cases x <;> simp [Except.mapError]

section Related

/-! ### Lists related member by member -/

variable {R : α → β → Prop} {l : List α} {bs : List β} {a : α} {b : β}

theorem forall₂_right (h : List.Forall₂ R l bs) (ha : a ∈ l) : ∃ b ∈ bs, R a b := by
  induction h with
  | nil => cases ha
  | cons hfirst _ ih =>
    rcases List.mem_cons.1 ha with rfl | ha
    · exact ⟨_, List.mem_cons_self, hfirst⟩
    · obtain ⟨b, hb, hrel⟩ := ih ha
      exact ⟨b, List.mem_cons_of_mem _ hb, hrel⟩

theorem forall₂_left (h : List.Forall₂ R l bs) (hb : b ∈ bs) : ∃ a ∈ l, R a b := forall₂_right h.flip hb

theorem exists_forall₂ : (∃ bs, List.Forall₂ R l bs) ↔ ∀ a ∈ l, ∃ b, R a b := by
  induction l with
  | nil => simp
  | cons a l ih =>
    rw [List.forall_mem_cons, ← ih]
    constructor
    · rintro ⟨_, hall⟩
      rcases hall with _ | ⟨hb, hbs⟩
      exact ⟨⟨_, hb⟩, _, hbs⟩
    · rintro ⟨⟨b, hb⟩, bs, hbs⟩
      exact ⟨b :: bs, .cons hb hbs⟩

end Related

/-- a list of calls succeeds when each of them does -/
theorem mapM_eq_ok {l : List α} {bs : List β} : l.mapM f = .ok bs ↔ List.Forall₂ (fun a b => f a = .ok b) l bs := by
  induction l generalizing bs with
  | nil =>
    rw [List.mapM_nil, pure_eq, List.forall₂_nil_left_iff, Except.ok.injEq, eq_comm]
  | cons a l ih =>
    simp only [List.mapM_cons, bind_eq_ok, ih, pure_eq, Except.ok.injEq]
    constructor
    · rintro ⟨b, hb, rest, hrest, rfl⟩
      exact .cons hb hrest
    · rintro (_ | ⟨hb, hrest⟩)
      exact ⟨_, hb, _, hrest, rfl⟩

theorem ok_or_error (x : Except ε α) : (∃ a, x = .ok a) ∨ ∃ e, x = .error e := by
  cases x with
  | ok a => exact Or.inl ⟨a, rfl⟩
  | error e => exact Or.inr ⟨e, rfl⟩

/-- a check that refuses with `e` unless `p` holds -/
def ensure (p : Prop) [Decidable p] (e : ε) : Except ε Unit := if p then .ok () else .error e

section Ensure

variable {p : Prop} [Decidable p] {e : ε}

/-- a check passes when its condition holds -/
theorem ensure_eq_ok {u : Unit} : ensure p e = .ok u ↔ p := by
  by_cases h : p <;> simp [ensure, h]

theorem ensure_bind (h : p) (f : Unit → Except ε α) : (ensure p e >>= f) = f () := by
  rw [ensure, if_pos h, ok_bind]

end Ensure

end ZenoFcis.Lib.Except
