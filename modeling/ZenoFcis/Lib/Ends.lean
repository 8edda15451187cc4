/-
How a fallible program ends, with a postcondition for each way: rules for the sequence and for loops.
-/
import Mathlib.Tactic

namespace ZenoFcis.Lib

variable {ε α β : Type}

/-- a program ends in a value of `P` or in a failure of `Q` -/
def Ends (P : α → Prop) (Q : ε → Prop) : Except ε α → Prop
  | .ok a => P a
  | .error e => Q e

namespace Ends

variable {P P' : α → Prop} {R : β → Prop} {Q Q' : ε → Prop} {x : Except ε α}

/-- a weaker postcondition -/
theorem mono (h : Ends P Q x) (hp : ∀ a, P a → P' a) (hq : ∀ e, Q e → Q' e) : Ends P' Q' x := by
  cases x with
  | ok a => exact hp a h
  | error e => exact hq e h

/-- **Sequence.** The second program starts from what the first ends in -/
theorem bind {f : α → Except ε β} (h : Ends P Q x) (hf : ∀ a, P a → Ends R Q (f a)) : Ends R Q (x >>= f) := by
  cases x with
  | ok a => exact hf a h
  | error e => exact h

/-- a failure is one of the listed failures -/
theorem error_of {e : ε} (h : Ends P Q x) (hx : x = .error e) : Q e := by
  rw [hx] at h
  exact h

theorem foldlM_from {f : β → α → Except ε β} {l : List α} {I : List α → β → Prop}
    (step : ∀ done a rest b, l = done ++ a :: rest → I done b → Ends (I (done ++ [a])) Q (f b a)) {done rest : List α}
    {b : β} (hl : l = done ++ rest) (h : I done b) : Ends (I l) Q (rest.foldlM f b) := by
  induction rest generalizing done b with
  | nil =>
    obtain rfl : l = done := by simpa using hl
    exact h
  | cons a rest ih =>
    rw [List.foldlM_cons]
    apply (step done a rest b hl h).bind
    intro c hc
    exact ih (by simpa using hl) hc

/-- **Loops.** The invariant speaks of the members that are done -/
theorem foldlM {f : β → α → Except ε β} {l : List α} (I : List α → β → Prop)
    (step : ∀ done a rest b, l = done ++ a :: rest → I done b → Ends (I (done ++ [a])) Q (f b a)) {b : β}
    (h : I [] b) : Ends (I l) Q (l.foldlM f b) := foldlM_from step (List.nil_append l).symm h

/-- each member ends in its own result -/
theorem mapM {f : α → Except ε β} {R : α → β → Prop} {l : List α} (h : ∀ a ∈ l, Ends (R a) Q (f a)) :
    Ends (List.Forall₂ R l) Q (l.mapM f) := by
  induction l with
  | nil => exact .nil
  | cons a l ih =>
    rw [List.forall_mem_cons] at h
    rw [List.mapM_cons]
    apply h.1.bind
    intro b hb
    apply (ih h.2).bind
    intro bs hbs
    exact .cons hb hbs

end Ends

end ZenoFcis.Lib
