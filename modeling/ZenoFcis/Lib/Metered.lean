/-
Computations that account for their work. A computation is given by the charges it makes, in order, and by how it ends
when none of them is refused; a meter is paid charge by charge, and the first charge it refuses ends the computation.
`run_bind` says that this is the usual threading of a meter through a program, and `run_result` that a meter can only
cut a computation short, never change what it computes. `Rooms.run_cases` adds when it does: a run is cut short only where
the charges ask for more of a resource than the meter had room for.
-/
import Mathlib.Tactic

namespace ZenoFcis.Lib

/-- a computation over resources `ρ` with failures `ε` -/
structure Metered (ρ ε α : Type) where
  charges : List (ρ × ℕ)
  outcome : Except ε α

namespace Metered

variable {ρ ε ε' φ μ α β : Type}

/-- how the computation ends. It is no projection, so that two results are compared without running either -/
def result (x : Metered ρ ε α) : Except ε α := x.outcome

/-- one computation after another; a failure ends both -/
protected def bind (x : Metered ρ ε α) (f : α → Metered ρ ε β) : Metered ρ ε β :=
  match x.result with
  | .error e => ⟨x.charges, .error e⟩
  | .ok a => ⟨x.charges ++ (f a).charges, (f a).result⟩

instance : Monad (Metered ρ ε) where
  pure a := ⟨[], .ok a⟩
  bind := Metered.bind

def charge (resource : ρ) (amount : ℕ) : Metered ρ ε Unit := ⟨[(resource, amount)], .ok ()⟩

def fail (e : ε) : Metered ρ ε α := ⟨[], .error e⟩

/-- a computation without charges -/
def lift (x : Except ε α) : Metered ρ ε α := ⟨[], x⟩

/-- the value of an option, or a failure -/
def okOr (x : Option α) (e : ε) : Metered ρ ε α := match x with
  | some a => pure a
  | none => fail e

/-- the same charges with the failures renamed -/
def mapError (f : ε → ε') (x : Metered ρ ε α) : Metered ρ ε' α := ⟨x.charges, x.result.mapError f⟩

/-! ## Results -/

@[simp] theorem result_pure (a : α) : (pure a : Metered ρ ε α).result = .ok a := rfl

@[simp] theorem result_bind (x : Metered ρ ε α) (f : α → Metered ρ ε β) :
    (x >>= f).result = (x.result >>= fun a => (f a).result) := by
  rcases x with ⟨c, r⟩
  cases r <;> rfl

@[simp] theorem result_charge (r : ρ) (n : ℕ) : (charge r n : Metered ρ ε Unit).result = .ok () := rfl

@[simp] theorem result_fail (e : ε) : (fail e : Metered ρ ε α).result = .error e := rfl

@[simp] theorem result_lift (x : Except ε α) : (lift x : Metered ρ ε α).result = x := rfl

@[simp] theorem result_okOr_some (a : α) (e : ε) : (okOr (some a) e : Metered ρ ε α).result = .ok a := rfl

@[simp] theorem result_okOr_none (e : ε) : (okOr none e : Metered ρ ε α).result = .error e := rfl

@[simp] theorem result_mapError (f : ε → ε') (x : Metered ρ ε α) : (x.mapError f).result = x.result.mapError f := rfl

theorem result_okOr_eq_ok {x : Option α} {e : ε} {a : α} :
    (okOr x e : Metered ρ ε α).result = .ok a ↔ x = some a := by
  cases x <;> simp

theorem result_ite (p : Prop) [Decidable p] (x y : Metered ρ ε α) :
    (if p then x else y).result = if p then x.result else y.result := apply_ite result p x y

theorem result_foldlM (f : β → α → Metered ρ ε β) (b : β) (l : List α) :
    (l.foldlM f b).result = l.foldlM (fun b a => (f b a).result) b := by
  induction l generalizing b with
  | nil => rfl
  | cons a l ih =>
    simp only [List.foldlM_cons, result_bind]
    congr 1
    funext c
    exact ih c

theorem result_mapM (f : α → Metered ρ ε β) (l : List α) : (l.mapM f).result = l.mapM fun a => (f a).result := by
  have hloop : ∀ (l : List α) (acc : List β),
      (List.mapM.loop f l acc).result = List.mapM.loop (fun a => (f a).result) l acc := by
    intro l
    induction l with
    | nil => exact fun acc => rfl
    | cons a l ih =>
      intro acc
      simp only [List.mapM.loop, result_bind, ih]
  exact hloop l []

theorem result_foldlM_ok {f : β → α → Metered ρ ε β} {g : β → α → β} {l : List α}
    (h : ∀ b, ∀ a ∈ l, (f b a).result = .ok (g b a)) (b : β) : (l.foldlM f b).result = .ok (l.foldl g b) := by
  induction l generalizing b with
  | nil => rfl
  | cons a l ih =>
    rw [List.foldlM_cons, result_bind, h b a List.mem_cons_self, List.foldl_cons]
    exact ih (fun c d hd => h c d (List.mem_cons_of_mem _ hd)) _

theorem result_mapM_ok {f : α → Metered ρ ε β} {g : α → β} {l : List α} (h : ∀ a ∈ l, (f a).result = .ok (g a)) :
    (l.mapM f).result = .ok (l.map g) := by
  rw [result_mapM]
  induction l with
  | nil => rfl
  | cons a l ih =>
    rw [List.forall_mem_cons] at h
    rw [List.mapM_cons, h.1, ih h.2]
    rfl

/-! ## Meters -/

section Meter

variable (pay : μ → ρ → ℕ → Except φ μ) (budget : φ → ε)

/-- pay charges in order until one is refused -/
def payAll : List (ρ × ℕ) → μ → Option φ × μ
  | [], m => (none, m)
  | (r, n) :: l, m => match pay m r n with
    | .error e => (some e, m)
    | .ok m' => payAll l m'

/-- run a computation against a meter -/
def run (x : Metered ρ ε α) (m : μ) : Except ε α × μ := match payAll pay x.charges m with
  | (some e, m') => (.error (budget e), m')
  | (none, m') => (x.result, m')

theorem payAll_append (l l' : List (ρ × ℕ)) (m : μ) :
    payAll pay (l ++ l') m = match payAll pay l m with
      | (some e, m') => (some e, m')
      | (none, m') => payAll pay l' m' := by
  induction l generalizing m with
  | nil => rfl
  | cons c l ih =>
    rcases c with ⟨r, n⟩
    simp only [List.cons_append, payAll]
    cases pay m r n with
    | error e => rfl
    | ok m' => exact ih m'

theorem run_bind (x : Metered ρ ε α) (f : α → Metered ρ ε β) (m : μ) :
    run pay budget (x >>= f) m = match run pay budget x m with
      | (.error e, m') => (.error e, m')
      | (.ok a, m') => run pay budget (f a) m' := by
  rcases x with ⟨c, r⟩
  cases r with
  | error e =>
    change run pay budget (⟨c, .error e⟩ : Metered ρ ε β) m = _
    unfold run
    rcases payAll pay c m with ⟨e' | e', m'⟩ <;> rfl
  | ok a =>
    change run pay budget (⟨c ++ (f a).charges, (f a).result⟩ : Metered ρ ε β) m = _
    unfold run
    rw [payAll_append]
    rcases payAll pay c m with ⟨e' | e', m'⟩ <;> rfl

/-- a meter cuts a computation short or leaves its result -/
theorem run_result (x : Metered ρ ε α) (m : μ) :
    (run pay budget x m).1 = x.result ∨ ∃ e, (run pay budget x m).1 = .error (budget e) := by
  unfold run
  rcases payAll pay x.charges m with ⟨e | e, m'⟩
  · exact Or.inl rfl
  · exact Or.inr ⟨e, rfl⟩

/-- what a metered run returns is the result -/
theorem run_ok {x : Metered ρ ε α} {m : μ} {a : α} (h : (run pay budget x m).1 = .ok a) : x.result = .ok a := by
  rcases run_result pay budget x m with hr | ⟨e, hr⟩
  · rw [← hr, h]
  · rw [hr] at h
    cases h

/-! ## Room -/

section Room

variable [DecidableEq ρ]

/-- what charges ask of a resource -/
def asked (charges : List (ρ × ℕ)) (r : ρ) : ℕ := ((charges.filter fun c => c.1 = r).map Prod.snd).sum

/-- the first charge counts for its own resource -/
theorem asked_cons (r q : ρ) (n : ℕ) (l : List (ρ × ℕ)) :
    asked ((r, n) :: l) q = (if r = q then n else 0) + asked l q := by
  by_cases h : r = q <;> simp [asked, h]

/-- a meter for which it is known what fits: it refuses only what does not, and what it pays takes no more than was
asked -/
structure Rooms (pay : μ → ρ → ℕ → Except φ μ) (Fits : μ → ρ → ℕ → Prop) : Prop where
  refused : ∀ {m r n e}, pay m r n = .error e → ¬ Fits m r n
  paid : ∀ {m r n m'}, pay m r n = .ok m' → ∀ q k, Fits m q ((if r = q then n else 0) + k) → Fits m' q k
  less : ∀ {m r n} k, Fits m r (n + k) → Fits m r n

variable {pay budget} {Fits : μ → ρ → ℕ → Prop}

/-- charges are refused only where they ask for more than fits -/
theorem Rooms.payAll_some (h : Rooms pay Fits) {charges : List (ρ × ℕ)} {m : μ} {e : φ}
    (hrefused : (payAll pay charges m).1 = some e) : ∃ r, ¬ Fits m r (asked charges r) := by
  induction charges generalizing m with
  | nil => cases hrefused
  | cons c l ih =>
    obtain ⟨r, n⟩ := c
    unfold payAll at hrefused
    cases hpay : pay m r n with
    | error e' =>
      refine ⟨r, fun hfits => h.refused hpay (h.less (asked l r) ?_)⟩
      rw [asked_cons, if_pos rfl] at hfits
      exact hfits
    | ok m' =>
      rw [hpay] at hrefused
      obtain ⟨q, hq⟩ := ih hrefused
      refine ⟨q, fun hfits => hq (h.paid hpay q _ ?_)⟩
      rw [asked_cons] at hfits
      exact hfits

/-- **A run is cut short for a reason.** It ends as the computation does, or the budget ends and the computation asks for
more of a resource than fits. -/
theorem Rooms.run_cases (h : Rooms pay Fits) (x : Metered ρ ε α) (m : μ) :
    (run pay budget x m).1 = x.result ∨
      (∃ e, (run pay budget x m).1 = .error (budget e)) ∧ ∃ r, ¬ Fits m r (asked x.charges r) := by
  have hsome : ∀ e, (payAll pay x.charges m).1 = some e → ∃ r, ¬ Fits m r (asked x.charges r) := fun e => h.payAll_some
  unfold run
  generalize payAll pay x.charges m = paid at hsome
  obtain ⟨e | e, m'⟩ := paid
  · exact Or.inl rfl
  · exact Or.inr ⟨⟨e, rfl⟩, hsome e rfl⟩

/-- where all that is asked fits, a run ends as the computation does -/
theorem Rooms.run_enough (h : Rooms pay Fits) {x : Metered ρ ε α} {m : μ} (hfits : ∀ r, Fits m r (asked x.charges r)) :
    (run pay budget x m).1 = x.result := by
  rcases h.run_cases x m with hrun | ⟨-, r, hshort⟩
  · exact hrun
  · exact absurd (hfits r) hshort

end Room

end Meter

end Metered

end ZenoFcis.Lib
