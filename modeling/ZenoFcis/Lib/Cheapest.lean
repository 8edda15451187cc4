/-
Searches for a cheapest candidate within a ceiling. A search keeps the best candidate so far; the ceiling comes down to
its cost, a group of candidates above the ceiling is skipped, and of any other group its cheapest one is offered.

- `Cheapest.skip`, `Cheapest.offer`: one group;
- `Cheapest.foldlM`: a loop over groups.
-/
import ZenoFcis.Lib.Ends

namespace ZenoFcis.Lib

variable {α β ε : Type}

/-- a cheapest candidate, or none within the ceiling -/
def Cheapest (cost : α → ℕ) (P : α → Prop) (ceiling : ℕ) : Option α → Prop
  | none => ∀ a, P a → ceiling < cost a
  | some a => P a ∧ cost a ≤ ceiling ∧ ∀ b, P b → cost a ≤ cost b

/-- the ceiling for the next candidate -/
def limit (cost : α → ℕ) (ceiling : ℕ) (best : Option α) : ℕ := (best.map fun b => min ceiling (cost b)).getD ceiling

namespace Cheapest

variable {cost : α → ℕ} {P Q : α → Prop} {ceiling : ℕ} {best : Option α}

/-- a description of the candidates can be replaced -/
theorem congr (h : Cheapest cost P ceiling best) (hiff : ∀ a, P a ↔ Q a) : Cheapest cost Q ceiling best := by
  obtain rfl : P = Q := funext fun a => propext (hiff a)
  exact h

/-- the limit never exceeds the ceiling -/
theorem limit_le (ceiling : ℕ) (best : Option α) : limit cost ceiling best ≤ ceiling := by
  cases best with
  | none => exact le_rfl
  | some b => exact min_le_left _ _

theorem limit_some (h : Cheapest cost P ceiling (some a)) : limit cost ceiling (some a) = cost a :=
  min_eq_right h.2.1

/-- candidates that cost more than the limit can be skipped -/
theorem skip (h : Cheapest cost P ceiling best) (hq : ∀ a, Q a → limit cost ceiling best < cost a) :
    Cheapest cost (fun a => P a ∨ Q a) ceiling best := by
  cases best with
  | none =>
    rintro a (ha | ha)
    · exact h a ha
    · exact hq a ha
  | some b =>
    refine ⟨.inl h.1, h.2.1, ?_⟩
    rintro a (ha | ha)
    · exact h.2.2 a ha
    · have hlt := hq a ha
      rw [limit_some h] at hlt
      exact hlt.le

/-- a cheapest candidate is offered -/
theorem offer (h : Cheapest cost P ceiling best) {a : α} (ha : Q a) (hleast : ∀ b, Q b → cost a ≤ cost b) :
    Cheapest cost (fun a => P a ∨ Q a) ceiling
      (if cost a ≤ limit cost ceiling best ∧ best.all (fun b => decide (cost a < cost b)) then some a else best) := by
  split
  next hkeep =>
    refine ⟨.inr ha, hkeep.1.trans (limit_le ceiling best), ?_⟩
    rintro b (hb | hb)
    · cases best with
      | none => exact (hkeep.1.trans_lt (h b hb)).le
      | some c => exact (of_decide_eq_true hkeep.2).le.trans (h.2.2 b hb)
    · exact hleast b hb
  next hdrop =>
    cases best with
    | none =>
      refine h.skip fun b hb => ?_
      have habove : limit cost ceiling none < cost a := by
        by_contra hle
        exact hdrop ⟨not_lt.1 hle, rfl⟩
      exact habove.trans_le (hleast b hb)
    | some c =>
      have habove : cost c ≤ cost a := by
        by_contra hlt
        refine hdrop ⟨?_, decide_eq_true (not_le.1 hlt)⟩
        rw [limit_some h]
        exact (not_le.1 hlt).le
      refine ⟨.inl h.1, h.2.1, ?_⟩
      rintro b (hb | hb)
      · exact h.2.2 b hb
      · exact habove.trans (hleast b hb)

/-- **Loops.** A loop whose steps each keep the cheapest candidate keeps it over all -/
theorem foldlM {F : Option α → β → Except ε (Option α)} {G : β → α → Prop} {l : List β}
    (step : ∀ b ∈ l, ∀ P best, Cheapest cost P ceiling best →
      ∃ next, F best b = .ok next ∧ Cheapest cost (fun a => P a ∨ G b a) ceiling next)
    (h : Cheapest cost P ceiling best) :
    ∃ found, l.foldlM F best = .ok found ∧ Cheapest cost (fun a => P a ∨ ∃ b ∈ l, G b a) ceiling found := by
  induction l generalizing P best with
  | nil => exact ⟨best, rfl, h.congr fun a => by simp⟩
  | cons b l ih =>
    obtain ⟨next, hnext, hcheapest⟩ := step b List.mem_cons_self P best h
    obtain ⟨found, hfound, hall⟩ := ih (fun c hc => step c (List.mem_cons_of_mem _ hc)) hcheapest
    refine ⟨found, ?_, hall.congr fun a => ?_⟩
    · rw [List.foldlM_cons, hnext]
      exact hfound
    · simp only [List.mem_cons, exists_eq_or_imp, or_assoc]

end Cheapest

end ZenoFcis.Lib
