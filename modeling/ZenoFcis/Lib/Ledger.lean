/-
Machines whose refused commands leave the state as it was: runs, what an accepted step preserves over a run, events
that can happen at most once, and draws that stay within a quota.
-/
import Mathlib.Tactic

namespace ZenoFcis.Lib.Ledger

variable {σ ι ε κ : Type} (accept : σ → ι → Option σ)

/-- the successor of an accepted command, or the same state -/
def next (s : σ) (i : ι) : σ := (accept s i).getD s

/-- the state after a sequence of commands -/
def after (s : σ) (is : List ι) : σ := is.foldl (next accept) s

/-- the events of a sequence of commands, in order -/
def events (event : σ → ι → Option ε) : σ → List ι → List ε
  | _, [] => []
  | s, i :: is => (event s i).toList ++ events event (next accept s i) is

/-- the quota where it first exists along a sequence of commands -/
def firstQuota (quota : σ → Option ℕ) : σ → List ι → ℕ
  | s, [] => (quota s).getD 0
  | s, i :: is => match quota s with
    | some q => q
    | none => firstQuota quota (next accept s i) is

variable {accept} {event : σ → ι → Option ε} {s s' : σ} {i : ι} {is : List ι}

/-- an accepted step gives the next state -/
theorem next_of_accept (h : accept s i = some s') : next accept s i = s' := by rw [next, h, Option.getD_some]

/-- a refused step keeps the state -/
theorem next_of_refuse (h : accept s i = none) : next accept s i = s := by rw [next, h, Option.getD_none]

theorem after_cons : after accept s (i :: is) = after accept (next accept s i) is := rfl

/-- **Runs.** What each accepted step keeps holds after the run -/
theorem after_invariant {P : σ → Prop} (hstep : ∀ s i s', accept s i = some s' → P s → P s') (h : P s) :
    P (after accept s is) := by
  induction is generalizing s with
  | nil => exact h
  | cons i is ih =>
    rw [after_cons]
    cases hi : accept s i with
    | none =>
      rw [next_of_refuse hi]
      exact ih h
    | some s' =>
      rw [next_of_accept hi]
      exact ih (hstep s i s' hi h)

/-- **Once.** An event that spends its key happens once -/
theorem events_once {key : ε → κ} (spent : σ → κ → Prop)
    (hkeep : ∀ s i s', accept s i = some s' → ∀ k, spent s k → spent s' k)
    (hevent : ∀ s i e, event s i = some e → ¬ spent s (key e) ∧ spent (next accept s i) (key e)) :
    ((events accept event s is).map key).Nodup ∧ ∀ e ∈ events accept event s is, ¬ spent s (key e) := by
  have hnext : ∀ s i k, spent s k → spent (next accept s i) k := by
    intro s i k hk
    cases hi : accept s i with
    | none => rwa [next_of_refuse hi]
    | some s' =>
      rw [next_of_accept hi]
      exact hkeep s i s' hi k hk
  induction is generalizing s with
  | nil => simp [events]
  | cons i is ih =>
    obtain ⟨hnodup, hunspent⟩ := @ih (next accept s i)
    simp only [events]
    cases he : event s i with
    | none => exact ⟨hnodup, fun e hmem hk => hunspent e hmem (hnext s i _ hk)⟩
    | some e =>
      obtain ⟨hbefore, hafter⟩ := hevent s i e he
      simp only [Option.toList_some, List.singleton_append, List.map_cons, List.nodup_cons, List.forall_mem_cons]
      refine ⟨⟨fun hmem => ?_, hnodup⟩, hbefore, fun e' hmem hk => hunspent e' hmem (hnext s i _ hk)⟩
      obtain ⟨e', he', hkey⟩ := List.mem_map.1 hmem
      exact hunspent e' he' (hkey ▸ hafter)

/-- **Quotas.** What is drawn over a run stays within the quota -/
theorem drawn_le {quota : σ → Option ℕ} {draw : ε → ℕ}
    (hdraw : ∀ s i q, quota s = some q →
      ∃ q', quota (next accept s i) = some q' ∧ q' + ((event s i).map draw).getD 0 ≤ q)
    (hnone : ∀ s i, quota s = none → ((event s i).map draw).getD 0 = 0) :
    ((events accept event s is).map draw).sum ≤ firstQuota accept quota s is := by
  have hsum : ∀ (s : σ) (i : ι) (is : List ι), ((events accept event s (i :: is)).map draw).sum =
      ((event s i).map draw).getD 0 + ((events accept event (next accept s i) is).map draw).sum := by
    intro s i is
    cases he : event s i <;> simp [events, he]
  induction is generalizing s with
  | nil => simp [events]
  | cons i is ih =>
    have ih := @ih (next accept s i)
    rw [hsum]
    unfold firstQuota
    cases hq : quota s with
    | none =>
      rw [hnone s i hq, Nat.zero_add]
      exact ih
    | some q =>
      obtain ⟨q', hq', hle⟩ := hdraw s i q hq
      have hfirst : firstQuota accept quota (next accept s i) is = q' := by cases is <;> simp [firstQuota, hq']
      rw [hfirst] at ih
      simp only
      omega

end ZenoFcis.Lib.Ledger
