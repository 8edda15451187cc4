/-
Dialogues: a state that may have one outstanding question, and moves on when it is answered.

A run is a list of answers. `exchanges` is what was asked and answered, oldest first, and `reach` is the state after it;
a run stops at the first state that asks nothing. `invariant` is the induction rule for a property of the pair.
-/
import Mathlib.Tactic

namespace ZenoFcis.Lib

/-- a state machine that asks `ο` and is answered `ρ` -/
structure Dialogue (σ ο ρ : Type) where
  outstanding : σ → Option ο
  answer : σ → ρ → σ

namespace Dialogue

variable {σ ο ρ : Type} (d : Dialogue σ ο ρ)

def exchanges : σ → List ρ → List (ο × ρ)
  | _, [] => []
  | s, r :: rs =>
    match d.outstanding s with
    | none => []
    | some o => (o, r) :: exchanges (d.answer s r) rs

def reach : σ → List ρ → σ
  | s, [] => s
  | s, r :: rs =>
    match d.outstanding s with
    | none => s
    | some _ => reach (d.answer s r) rs

/-- the questions asked, with the one that the answers leave open -/
def asked : σ → List ρ → List ο
  | s, [] => (d.outstanding s).toList
  | s, r :: rs =>
    match d.outstanding s with
    | none => []
    | some o => o :: asked (d.answer s r) rs

variable {d}

/-- a rank that falls with each answer bounds the requests -/
theorem length_asked_le (rank : σ → List ρ → ℕ) (hopen : ∀ s o, d.outstanding s = some o → 0 < rank s [])
    (hstep : ∀ s o r rs, d.outstanding s = some o → rank (d.answer s r) rs < rank s (r :: rs)) (rs : List ρ) :
    ∀ s, (d.asked s rs).length ≤ rank s rs := by
  induction rs with
  | nil =>
    intro s
    rw [asked]
    cases ho : d.outstanding s with
    | none => exact Nat.zero_le _
    | some o => exact hopen s o ho
  | cons r rs ih =>
    intro s
    rw [asked]
    cases ho : d.outstanding s with
    | none => exact Nat.zero_le _
    | some o =>
      calc (o :: d.asked (d.answer s r) rs).length
          = (d.asked (d.answer s r) rs).length + 1 := rfl
        _ ≤ rank (d.answer s r) rs + 1 := Nat.succ_le_succ (ih _)
        _ ≤ rank s (r :: rs) := hstep s o r rs ho

theorem invariant_from {P : List (ο × ρ) → σ → Prop}
    (hstep : ∀ log s o r, P log s → d.outstanding s = some o → P (log ++ [(o, r)]) (d.answer s r)) (rs : List ρ) :
    ∀ log s, P log s → P (log ++ d.exchanges s rs) (d.reach s rs) := by
  induction rs with
  | nil =>
    intro log s h
    rwa [exchanges, reach, List.append_nil]
  | cons r rs ih =>
    intro log s h
    rw [exchanges, reach]
    cases ho : d.outstanding s with
    | none => rwa [List.append_nil]
    | some o =>
      have := ih _ _ (hstep log s o r h ho)
      rwa [List.append_assoc, List.singleton_append] at this

/-- **Runs.** What each exchange keeps holds after the dialogue -/
theorem invariant {P : List (ο × ρ) → σ → Prop} {s : σ} (h : P [] s)
    (hstep : ∀ log s o r, P log s → d.outstanding s = some o → P (log ++ [(o, r)]) (d.answer s r)) (rs : List ρ) :
    P (d.exchanges s rs) (d.reach s rs) := by
  simpa using invariant_from hstep rs [] s h

end Dialogue

/-! ## Logs -/

/-- the latest event of a log that `f` reads -/
def latest {α β : Type} (f : α → Option β) (log : List α) : Option β := (log.filterMap f).getLast?

section Latest

variable {α β : Type} {f : α → Option β} {log : List α} {x : α}

/-- an entry of the kind is the latest one -/
theorem latest_snoc_some {b : β} (h : f x = some b) : latest f (log ++ [x]) = some b := by
  simp [latest, h]

/-- an entry of another kind leaves the latest one -/
theorem latest_snoc_none (h : f x = none) : latest f (log ++ [x]) = latest f log := by
  simp [latest, h]

end Latest

end ZenoFcis.Lib
