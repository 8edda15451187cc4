/-
Definitions that refer to each other by name. A name refers to the names of its definition; an order is a dependency
order when every definition in it refers only to defined names before it, and evaluating the definitions along such an
order solves them: every name has the value of its definition under the values of all names.
-/
import Mathlib.Logic.Relation
import Mathlib.Logic.Function.Basic
import Mathlib.Tactic

namespace ZenoFcis.Lib.Definitions

open Relation

variable {ν τ β : Type} {lookup : ν → Option τ} {names : τ → List ν}

/-- a name occurs in the definition of another -/
def Refers (lookup : ν → Option τ) (names : τ → List ν) (x y : ν) : Prop := ∃ d, lookup x = some d ∧ y ∈ names d

/-- a name that a term reaches refers to itself, directly or through others -/
def Cyclic (lookup : ν → Option τ) (names : τ → List ν) (t : τ) : Prop :=
  ∃ x ∈ names t, ∃ y, ReflTransGen (Refers lookup names) x y ∧ TransGen (Refers lookup names) y y

/-- every definition refers only to defined names before it -/
inductive Ordered (lookup : ν → Option τ) (names : τ → List ν) : List ν → Prop
  | nil : Ordered lookup names []
  | snoc {order : List ν} {x : ν} {d : τ} (hx : lookup x = some d) (hnew : x ∉ order)
      (hbefore : ∀ y ∈ names d, (lookup y).isSome → y ∈ order) (h : Ordered lookup names order) :
      Ordered lookup names (order ++ [x])

/-- two ordered listings merge -/
theorem Ordered.merge {order order' : List ν} (h : Ordered lookup names order) (h' : Ordered lookup names order') :
    ∃ all, Ordered lookup names all ∧ ∀ x, x ∈ all ↔ x ∈ order ∨ x ∈ order' := by
  induction h' with
  | nil => exact ⟨order, h, by simp⟩
  | @snoc order' x d hx hnew hbefore h' ih =>
    obtain ⟨all, hall, hmem⟩ := ih
    by_cases hxall : x ∈ all
    · refine ⟨all, hall, fun y => ?_⟩
      rw [hmem, List.mem_append, List.mem_singleton, ← or_assoc, iff_self_or]
      intro hy
      rw [hy]
      exact (hmem x).1 hxall
    · refine ⟨all ++ [x], .snoc hx hxall ?_ hall, fun y => ?_⟩
      · intro y hy hdefined
        exact (hmem y).2 (Or.inr (hbefore y hy hdefined))
      · rw [List.mem_append, hmem, List.mem_append, or_assoc]

/-- what a definition names is listed with it -/
theorem Ordered.closed {order : List ν} (h : Ordered lookup names order) {x : ν} {d : τ} (hx : x ∈ order)
    (hd : lookup x = some d) {y : ν} (hy : y ∈ names d) (hdefined : (lookup y).isSome) : y ∈ order := by
  induction h with
  | nil => cases hx
  | snoc hz hnew hbefore h ih =>
    apply List.mem_append_left
    rcases List.mem_append.1 hx with hx | hx
    · exact ih hx
    · obtain rfl := List.mem_singleton.1 hx
      obtain rfl := Option.some.inj (hd.symm.trans hz)
      exact hbefore y hy hdefined

theorem Ordered.defined {order : List ν} (h : Ordered lookup names order) {x : ν} (hx : x ∈ order) :
    (lookup x).isSome := by
  induction h with
  | nil => cases hx
  | snoc hd hnew hbefore h ih =>
    rcases List.mem_append.1 hx with hx | hx
    · exact ih hx
    · rw [List.mem_singleton.1 hx, hd]
      rfl

/-! ## Evaluation -/

section Evaluation

variable [DecidableEq ν] {eval : (ν → β) → τ → β} {ρ : ν → β}

/-- one definition after another, each under the values before it -/
def evaluate (lookup : ν → Option τ) (eval : (ν → β) → τ → β) (ρ : ν → β) (order : List ν) : ν → β :=
  order.foldl (fun env x => match lookup x with
    | some d => Function.update env x (eval env d)
    | none => env) ρ

theorem evaluate_snoc (order : List ν) (x : ν) : evaluate lookup eval ρ (order ++ [x]) =
    match lookup x with
    | some d => Function.update (evaluate lookup eval ρ order) x (eval (evaluate lookup eval ρ order) d)
    | none => evaluate lookup eval ρ order := by
  rw [evaluate, List.foldl_append]
  rfl

theorem evaluate_of_notMem {order : List ν} {x : ν} (h : x ∉ order) : evaluate lookup eval ρ order x = ρ x := by
  induction order using List.reverseRecOn with
  | nil => rfl
  | append_singleton order y ih =>
    rw [List.mem_append, List.mem_singleton, not_or] at h
    rw [evaluate_snoc]
    cases lookup y with
    | none => exact ih h.1
    | some d => exact (Function.update_of_ne h.2 _ _).trans (ih h.1)

/-- a name without a definition keeps its value -/
theorem Ordered.evaluate_free {order : List ν} (h : Ordered lookup names order) {x : ν} (hx : lookup x = none) :
    evaluate lookup eval ρ order x = ρ x := by
  apply evaluate_of_notMem
  intro hmem
  have hdefined := h.defined hmem
  rw [hx] at hdefined
  cases hdefined

/-- **Evaluation.** Each definition holds in the environment of the listing -/
theorem Ordered.solves (hlocal : ∀ t env env', (∀ x ∈ names t, env x = env' x) → eval env t = eval env' t)
    {order : List ν} (h : Ordered lookup names order) {x : ν} {d : τ} (hx : x ∈ order) (hd : lookup x = some d) :
    evaluate lookup eval ρ order x = eval (evaluate lookup eval ρ order) d := by
  induction h with
  | nil => cases hx
  | @snoc order y d' hy hnew hbefore h ih =>
    have hkeep : ∀ t, (∀ z ∈ names t, (lookup z).isSome → z ∈ order) →
        eval (evaluate lookup eval ρ (order ++ [y])) t = eval (evaluate lookup eval ρ order) t := by
      intro t ht
      apply hlocal
      intro z hz
      rw [evaluate_snoc, hy]
      apply Function.update_of_ne
      intro heq
      have hdefined : (lookup z).isSome := by
        rw [heq, hy]
        rfl
      exact hnew (heq ▸ ht z hz hdefined)
    rcases List.mem_append.1 hx with hx | hx
    · have hne : x ≠ y := fun heq => hnew (heq ▸ hx)
      rw [hkeep d fun z hz hdefined => h.closed hx hd hz hdefined, ← ih hx, evaluate_snoc, hy]
      exact Function.update_of_ne hne _ _
    · obtain rfl := List.mem_singleton.1 hx
      obtain rfl := Option.some.inj (hd.symm.trans hy)
      rw [hkeep d hbefore, evaluate_snoc, hd]
      exact Function.update_self _ _ _

end Evaluation

end ZenoFcis.Lib.Definitions
