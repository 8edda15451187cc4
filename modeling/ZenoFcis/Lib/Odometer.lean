/-
Enumerations by steps. `Visits` says which values a partial successor passes through from a start, in order; an odometer
steps a tuple digit by digit, the last digit fastest, and passes through the product of what its digits pass through.
-/
import ZenoFcis.Lib.Axes

namespace ZenoFcis.Lib

variable {α β δ : Type}

/-- the values from `b` on, up to the first one without a successor -/
inductive Visits (next : β → Option β) : β → List β → Prop where
  | last {b : β} : next b = none → Visits next b [b]
  | step {b c : β} {l : List β} : next b = some c → Visits next c l → Visits next b (b :: l)

/-- at most `n` values from `b` on -/
def trace (next : β → Option β) : ℕ → β → List β
  | 0, _ => []
  | n + 1, b =>
    b :: match next b with
      | none => []
      | some c => trace next n c

namespace Visits

variable {next : β → Option β} {b : β} {l : List β}

theorem exists_cons (h : Visits next b l) : ∃ rest, l = b :: rest := by
  cases h with
  | last hnone => exact ⟨[], rfl⟩
  | step hsome htail => exact ⟨_, rfl⟩

theorem ne_nil (h : Visits next b l) : l ≠ [] := by
  obtain ⟨rest, rfl⟩ := h.exists_cons
  exact List.cons_ne_nil _ _

/-- enough steps trace the whole visit -/
theorem trace_eq (h : Visits next b l) {n : ℕ} (hn : l.length ≤ n) : trace next n b = l := by
  induction h generalizing n with
  | last hnone =>
    obtain ⟨n, rfl⟩ := Nat.exists_eq_add_of_le' hn
    change _ :: (match next _ with | none => [] | some c => trace next n c) = _
    rw [hnone]
  | step hsome _ ih =>
    rw [List.length_cons] at hn
    obtain ⟨n, rfl⟩ := Nat.exists_eq_add_of_le' (Nat.le_trans (Nat.succ_le_succ (Nat.zero_le _)) hn)
    change _ :: (match next _ with | none => [] | some c => trace next n c) = _
    rw [hsome]
    exact congrArg _ (ih (Nat.le_of_succ_le_succ hn))

end Visits

/-! ## Odometers -/

section Odometer

variable (first : δ → α) (next : δ → α → Option α)

/-- the successor of a tuple: the last digit that can step does, and the digits after it start again -/
def advance : List δ → List α → Option (List α)
  | d :: ds, a :: t =>
    match advance ds t with
    | some u => some (a :: u)
    | none => (next d a).map (· :: ds.map first)
  | _, _ => none

/-- the last axes step first -/
theorem advance_some {d : δ} {ds : List δ} {a : α} {t u : List α} (h : advance first next ds t = some u) :
    advance first next (d :: ds) (a :: t) = some (a :: u) := by
  rw [advance, h]

/-- an axis steps when those behind it start over -/
theorem advance_none {d : δ} {ds : List δ} {a : α} {t : List α} (h : advance first next ds t = none) :
    advance first next (d :: ds) (a :: t) = (next d a).map (· :: ds.map first) := by
  rw [advance, h]

/-- stepping at the last axis -/
theorem advance_snoc {ds : List δ} {d : δ} {t : List α} {a : α} (h : t.length = ds.length) :
    advance first next (ds ++ [d]) (t ++ [a]) =
      match next d a with
      | some b => some (t ++ [b])
      | none => (advance first next ds t).map (· ++ [first d]) := by
  induction ds generalizing t with
  | nil =>
    obtain rfl := List.length_eq_zero_iff.1 h
    rw [List.nil_append, List.nil_append, advance_none first next rfl]
    cases next d a <;> rfl
  | cons e ds ih =>
    obtain ⟨x, t, rfl⟩ := List.exists_cons_of_length_eq_add_one h
    rw [List.length_cons, List.length_cons, Nat.add_right_cancel_iff] at h
    have hsnoc := ih h
    cases hlast : next d a with
    | some b =>
      rw [hlast] at hsnoc
      exact advance_some first next hsnoc
    | none =>
      rw [hlast] at hsnoc
      cases htail : advance first next ds t with
      | some u =>
        rw [htail] at hsnoc
        rw [List.cons_append, List.cons_append, advance_some first next hsnoc, advance_some first next htail]
        rfl
      | none =>
        rw [htail] at hsnoc
        rw [List.cons_append, List.cons_append, advance_none first next hsnoc, advance_none first next htail,
          Option.map_map, List.map_append]
        rfl

variable {first next}

theorem Visits.cons {d : δ} {ds : List δ} {t : List α} {m : List (List α)}
    (h : Visits (advance first next ds) t m) (a : α) :
    (next d a = none → Visits (advance first next (d :: ds)) (a :: t) (m.map (a :: ·))) ∧
      ∀ b l, next d a = some b → Visits (advance first next (d :: ds)) (b :: ds.map first) l →
        Visits (advance first next (d :: ds)) (a :: t) (m.map (a :: ·) ++ l) := by
  induction h with
  | last hnone =>
    refine ⟨fun hend => .last ?_, fun b l hnext hl => .step ?_ hl⟩
    · rw [advance_none first next hnone, hend]
      rfl
    · rw [advance_none first next hnone, hnext]
      rfl
  | step hsome _ ih =>
    have hstep := advance_some first next (d := d) (a := a) hsome
    exact ⟨fun hend => .step hstep (ih.1 hend), fun b l hnext hl => .step hstep (ih.2 b l hnext hl)⟩

/-- **Odometers.** Digits that pass through their values make an odometer that passes through every tuple of them. -/
theorem visits_advance {ds : List δ} {values : δ → List α} (h : ∀ d ∈ ds, Visits (next d) (first d) (values d)) :
    Visits (advance first next ds) (ds.map first) (Axes.tuples (ds.map values)) := by
  induction ds with
  | nil => exact .last rfl
  | cons d ds ih =>
    rw [List.forall_mem_cons] at h
    have htail := ih h.2
    -- every turn of the first digit is one whole turn of the others
    have hturn {a : α} {l : List α} (hl : Visits (next d) a l) : Visits (advance first next (d :: ds))
        (a :: ds.map first) (l.flatMap fun a => (Axes.tuples (ds.map values)).map (a :: ·)) := by
      induction hl with
      | last hnone =>
        rw [List.flatMap_singleton]
        exact (htail.cons _).1 hnone
      | step hsome _ ihl =>
        rw [List.flatMap_cons]
        exact (htail.cons _).2 _ _ hsome ihl
    exact hturn h.1

end Odometer

namespace Axes

/-- ordered axes give tuples in lexicographic order -/
theorem pairwise_tuples {r : α → α → Prop} {axes : List (List α)} (h : ∀ axis ∈ axes, axis.Pairwise r) :
    (tuples axes).Pairwise (List.Lex r) := by
  induction axes with
  | nil => exact List.pairwise_singleton _ _
  | cons axis axes ih =>
    rw [List.forall_mem_cons] at h
    refine List.pairwise_flatMap.2 ⟨fun a _ => ?_, h.1.imp fun {a b} hab s hs t ht => ?_⟩
    · rw [List.pairwise_map]
      exact (ih h.2).imp .cons
    · obtain ⟨u, -, rfl⟩ := List.mem_map.1 hs
      obtain ⟨v, -, rfl⟩ := List.mem_map.1 ht
      exact .rel hab

end Axes

/-- the first match in an ordered list is the least one -/
theorem find?_eq_some_of_pairwise {r : α → α → Prop} {l : List α} (hl : l.Pairwise r) (hasymm : ∀ a b, r a b → ¬r b a)
    {p : α → Bool} {a : α} : l.find? p = some a ↔ a ∈ l ∧ p a = true ∧ ∀ b ∈ l, r b a → p b = false := by
  induction l with
  | nil => simp
  | cons c l ih =>
    rw [List.pairwise_cons] at hl
    rw [List.find?_cons]
    cases hc : p c with
    | true =>
      constructor
      · intro h
        cases h
        refine ⟨List.mem_cons_self, hc, fun b hb hba => ?_⟩
        rcases List.mem_cons.1 hb with rfl | hb
        · exact absurd hba (hasymm _ _ hba)
        · exact absurd (hl.1 b hb) (hasymm _ _ hba)
      · rintro ⟨ha, _, hleast⟩
        rcases List.mem_cons.1 ha with rfl | ha
        · rfl
        · rw [hleast c List.mem_cons_self (hl.1 a ha)] at hc
          cases hc
    | false =>
      refine (ih hl.2).trans ⟨fun ⟨ha, hp, hleast⟩ => ⟨List.mem_cons_of_mem _ ha, hp, fun b hb hba => ?_⟩,
        fun ⟨ha, hp, hleast⟩ => ⟨?_, hp, fun b hb hba => hleast b (List.mem_cons_of_mem _ hb) hba⟩⟩
      · rcases List.mem_cons.1 hb with rfl | hb
        · exact hc
        · exact hleast b hb hba
      · rcases List.mem_cons.1 ha with rfl | ha
        · rw [hp] at hc
          cases hc
        · exact ha

end ZenoFcis.Lib
