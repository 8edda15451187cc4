/-
Encodings that may refuse. `Reveals enc view` says of an encoding what `Reads` says of a total one: its words are read
off the front of a string, and two sources with one word agree in `view`. A word put together from parts reveals what
its parts reveal.
-/
import ZenoFcis.Lib.Except

namespace ZenoFcis.Lib

open Lib.Except

variable {α β γ δ ε σ : Type}

/-- the parts one after another, up to the first refusal -/
def concat : List (Except ε (List σ)) → Except ε (List σ)
  | [] => .ok []
  | part :: parts => do return (← part) ++ (← concat parts)

/-- the word of a source stands at the front of one string only with its view -/
def Reveals (enc : α → Except ε (List σ)) (view : α → γ) : Prop :=
  ∀ ⦃a b u v r s⦄, enc a = .ok u → enc b = .ok v → u ++ r = v ++ s → view a = view b ∧ r = s

namespace Reveals

variable {enc enc' : α → Except ε (List σ)} {view : α → γ} {view' : α → δ}

/-- equal codes reveal equal views -/
theorem same (h : Reveals enc view) {a b : α} {u : List σ} (ha : enc a = .ok u) (hb : enc b = .ok u) :
    view a = view b := (h (r := []) (s := []) ha hb rfl).1

/-- a view can be replaced by a coarser one -/
theorem imp (h : Reveals enc view) (himp : ∀ a b, view a = view b → view' a = view' b) : Reveals enc view' := by
  intro a b u v r s ha hb heq
  obtain ⟨hview, hrest⟩ := h ha hb heq
  exact ⟨himp a b hview, hrest⟩

/-- a view of a part -/
theorem of (h : Reveals enc view) (f : β → α) : Reveals (fun b => enc (f b)) fun b => view (f b) :=
  fun _ _ _ _ _ _ ha hb heq => h ha hb heq

/-- a constant reveals nothing -/
theorem const (word : List σ) : Reveals (fun _ : α => (.ok word : Except ε (List σ))) fun _ => () := by
  intro a b u v r s ha hb heq
  cases ha
  cases hb
  exact ⟨rfl, List.append_cancel_left heq⟩

theorem nil : Reveals (fun _ : α => concat ([] : List (Except ε (List σ)))) fun _ => () := const []

/-- one part after another -/
theorem cons {parts : α → List (Except ε (List σ))} (h : Reveals enc view)
    (hparts : Reveals (fun a => concat (parts a)) view') :
    Reveals (fun a => concat (enc a :: parts a)) fun a => (view a, view' a) := by
  intro a b u v r s ha hb heq
  obtain ⟨u₁, hu₁, ha⟩ := bind_eq_ok.1 ha
  obtain ⟨u₂, hu₂, ha⟩ := bind_eq_ok.1 ha
  obtain ⟨v₁, hv₁, hb⟩ := bind_eq_ok.1 hb
  obtain ⟨v₂, hv₂, hb⟩ := bind_eq_ok.1 hb
  cases ha
  cases hb
  rw [List.append_assoc, List.append_assoc] at heq
  obtain ⟨hview, hrest⟩ := h hu₁ hv₁ heq
  obtain ⟨hview', hrest'⟩ := hparts hu₂ hv₂ hrest
  exact ⟨Prod.ext hview hview', hrest'⟩

theorem map_eq (h : Reveals enc view) (hview : Function.Injective view) {l l' : List α} (hlen : l.length = l'.length)
    {u v r s : List σ} (hu : concat (l.map enc) = .ok u) (hv : concat (l'.map enc) = .ok v) (heq : u ++ r = v ++ s) :
    l = l' ∧ r = s := by
  induction l generalizing l' u v with
  | nil =>
    obtain rfl := List.length_eq_zero_iff.1 hlen.symm
    cases hu
    cases hv
    exact ⟨rfl, heq⟩
  | cons a l ih =>
    obtain ⟨b, l', rfl⟩ := List.exists_cons_of_length_eq_add_one hlen.symm
    obtain ⟨u₁, hu₁, hu⟩ := bind_eq_ok.1 hu
    obtain ⟨u₂, hu₂, hu⟩ := bind_eq_ok.1 hu
    obtain ⟨v₁, hv₁, hv⟩ := bind_eq_ok.1 hv
    obtain ⟨v₂, hv₂, hv⟩ := bind_eq_ok.1 hv
    cases hu
    cases hv
    rw [List.append_assoc, List.append_assoc] at heq
    obtain ⟨hab, hrest⟩ := h hu₁ hv₁ heq
    obtain ⟨rfl, hr⟩ := ih (Nat.succ.inj hlen) hu₂ hv₂ hrest
    exact ⟨by rw [hview hab], hr⟩

/-- **A list behind its length.** -/
theorem counted {count : ℕ → Except ε (List σ)} (hcount : Reveals count fun n => n) (h : Reveals enc view)
    (hview : Function.Injective view) :
    Reveals (fun l : List α => concat (count l.length :: l.map enc)) fun l => l := by
  intro l l' u v r s ha hb heq
  obtain ⟨u₁, hu₁, ha⟩ := bind_eq_ok.1 ha
  obtain ⟨u₂, hu₂, ha⟩ := bind_eq_ok.1 ha
  obtain ⟨v₁, hv₁, hb⟩ := bind_eq_ok.1 hb
  obtain ⟨v₂, hv₂, hb⟩ := bind_eq_ok.1 hb
  cases ha
  cases hb
  rw [List.append_assoc, List.append_assoc] at heq
  obtain ⟨hlen, hrest⟩ := hcount hu₁ hv₁ heq
  exact h.map_eq hview hlen hu₂ hv₂ hrest

/-- **A word behind its length.** -/
theorem nested {wrap : List σ → Except ε (List σ)} (hwrap : Reveals wrap fun word => word) (h : Reveals enc view) :
    Reveals (fun a => enc a >>= wrap) view := by
  intro a b u v r s ha hb heq
  obtain ⟨u₁, hu₁, ha⟩ := bind_eq_ok.1 ha
  obtain ⟨v₁, hv₁, hb⟩ := bind_eq_ok.1 hb
  obtain ⟨rfl, hrest⟩ := hwrap ha hb heq
  exact ⟨h.same hu₁ hv₁, hrest⟩

end Reveals

end ZenoFcis.Lib
