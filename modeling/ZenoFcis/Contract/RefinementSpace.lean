/-
Spaces of the refinement check: ordinals and tuples are inverse to each other, and an index never leaves its word.
-/
import ZenoFcis.Contract.Refinement

namespace ZenoFcis.Contract.Refinement

open Lib

theorem mapM_eq_map {α β : Type} {f : α → Option β} {g : α → β} {l : List α} {ys : List β}
    (hf : ∀ x ∈ l, ∀ y, f x = some y → y = g x) (h : l.mapM f = some ys) : ys = l.map g := by
  induction l generalizing ys with
  | nil =>
    cases h
    rfl
  | cons x l ih =>
    rw [List.forall_mem_cons] at hf
    simp only [List.mapM_cons, Option.bind_eq_bind, Option.bind_eq_some_iff] at h
    obtain ⟨y, hy, zs, hzs, h⟩ := h
    cases h
    rw [hf.1 y hy, ih hf.2 hzs]
    rfl

namespace Space

/-- what a constructed space knows of its contract -/
structure Sized (loaded : Loaded) (s : Space) : Prop where
  state : s.stateAxes = axes (loaded.positions.take loaded.width)
  input : s.inputAxes = axes (loaded.positions.drop loaded.width)
  states : s.states = Axes.size s.stateAxes
  inputs : s.inputs = Axes.size s.inputAxes
  positive : s.states ≠ 0 ∧ s.inputs ≠ 0
  bounded : s.states ≤ maxStates
  width : s.stateAxes.length = s.width

variable {loaded : Loaded} {s : Space}

/-- a space that is built has the sizes of its axes -/
theorem new_sized (h : Space.new loaded = some s) : Sized loaded s := by
  simp only [Space.new, Option.bind_eq_bind, Option.bind_eq_some_iff] at h
  obtain ⟨states, hstates, inputs, hinputs, h⟩ := h
  split_ifs at h with hbounds
  simp only [Option.bind_eq_some_iff] at h
  obtain ⟨values, hvalues, fields, -, h⟩ := h
  cases h
  push Not at hbounds
  obtain ⟨hstates_ne, hinputs_ne, hle, -⟩ := hbounds
  have hmap : values = axes loaded.positions := mapM_eq_map (fun p _ y hy => by
    unfold LeafDomain.valuesWithin at hy
    split at hy
    · cases hy
    · split_ifs at hy
      exact (Option.some.inj hy).symm) hvalues
  have hstate : values.take loaded.width = axes (loaded.positions.take loaded.width) := by
    rw [hmap, axes, axes, List.map_take]
  have hinput : values.drop loaded.width = axes (loaded.positions.drop loaded.width) := by
    rw [hmap, axes, axes, List.map_drop]
  refine ⟨hstate, hinput, ?_, ?_, ⟨hstates_ne, hinputs_ne⟩, hle, ?_⟩
  · rw [stateAxes, hstate]
    exact domainSize_eq hstates
  · rw [inputAxes, hinput]
    exact domainSize_eq hinputs
  · have hwidth : loaded.width ≤ loaded.positions.length := (List.takeWhile_prefix _).length_le
    rw [stateAxes, hstate, axes, List.length_map, List.length_take]
    exact Nat.min_eq_left hwidth

theorem index_eq {axes : List (List ℤ)} {values : List ℤ} {start : ℕ} (hlength : values.length = axes.length)
    (hne : ∀ axis ∈ axes, axis ≠ []) (hbound : (start + 1) * Axes.size axes ≤ 2 ^ 64) :
    index axes values start = Axes.ordinalFrom axes values start := by
  induction axes generalizing values start with
  | nil =>
    obtain rfl := List.length_eq_zero_iff.1 hlength
    rfl
  | cons axis axes ih =>
    cases values with
    | nil => cases hlength
    | cons v values =>
      rw [List.forall_mem_cons] at hne
      have hrest : 0 < Axes.size axes := Axes.size_pos hne.2
      have hfactor : (start + 1) * axis.length ≤ 2 ^ 64 := by
        calc (start + 1) * axis.length ≤ (start + 1) * axis.length * Axes.size axes := Nat.le_mul_of_pos_right _ hrest
          _ = (start + 1) * Axes.size (axis :: axes) := by rw [Axes.size, Nat.mul_assoc]
          _ ≤ 2 ^ 64 := hbound
      have hexpand : (start + 1) * axis.length = start * axis.length + axis.length := Nat.succ_mul _ _
      have hlen : 0 < axis.length := List.length_pos_iff.2 hne.1
      have hscaled : usize (start * axis.length) = some (start * axis.length) := if_pos (by omega)
      simp only [index, List.zip_cons_cons, List.foldlM_cons, hscaled, Option.bind_eq_bind, Option.bind_some,
        Axes.ordinalFrom]
      cases hidx : axis.idxOf? v with
      | none => rfl
      | some d =>
        obtain ⟨hlt, -⟩ := List.idxOf?_eq_some_iff.1 hidx
        have hplace : usize (start * axis.length + d) = some (start * axis.length + d) := if_pos (by omega)
        simp only [Option.bind_some, hplace]
        apply ih (Nat.succ.inj hlength) hne.2
        calc (start * axis.length + d + 1) * Axes.size axes ≤ (start + 1) * axis.length * Axes.size axes :=
              Nat.mul_le_mul_right _ (by omega)
          _ = (start + 1) * Axes.size (axis :: axes) := by rw [Axes.size, Nat.mul_assoc]
          _ ≤ 2 ^ 64 := hbound

theorem axes_ne_nil_of_size {axes : List (List ℤ)} (h : Axes.size axes ≠ 0) : ∀ axis ∈ axes, axis ≠ [] := by
  induction axes with
  | nil => simp
  | cons axis axes ih =>
    rw [Axes.size] at h
    rw [List.forall_mem_cons]
    refine ⟨?_, ih (Nat.mul_ne_zero_iff.1 h).2⟩
    rintro rfl
    simp at h

namespace Sized

variable (h : Sized loaded s)

include h

variable {values : List ℤ} {state : ℕ}

theorem ordinal_eq (hlength : values.length = s.width) :
    s.ordinal values = Axes.ordinalFrom s.stateAxes values 0 := by
  have hsize : Axes.size s.stateAxes ≠ 0 := h.states ▸ h.positive.1
  unfold ordinal
  rw [if_neg (not_not.2 hlength), index_eq (hlength.trans h.width.symm) (axes_ne_nil_of_size hsize)]
  rw [Nat.zero_add, Nat.one_mul, ← h.states]
  exact h.bounded.trans (by decide)

theorem length_element (n : ℕ) : (element s.stateAxes n).length = s.width := by
  rw [element, Axes.length_element, h.width]

/-- an element has its own ordinal -/
theorem ordinal_element (hstate : state < s.states) : s.ordinal (element s.stateAxes state) = some state := by
  have hnodup : ∀ axis ∈ s.stateAxes, axis.Nodup := by
    rw [h.state]
    exact axes_nodup _
  rw [h.ordinal_eq (h.length_element state), element, Axes.ordinalFrom_element hnodup (h.states ▸ hstate)]
  rw [Nat.zero_mul, Nat.zero_add]

/-- a tuple is the element of its ordinal -/
theorem element_ordinal (hordinal : s.ordinal values = some state) :
    state < s.states ∧ element s.stateAxes state = values := by
  by_cases hlength : values.length = s.width
  · rw [h.ordinal_eq hlength] at hordinal
    obtain ⟨n, hn, hstate, helement⟩ := Axes.ordinalFrom_some hordinal
    rw [Nat.zero_mul, Nat.zero_add] at hstate
    subst hstate
    rw [h.states]
    exact ⟨hn, helement⟩
  · rw [ordinal, if_pos hlength] at hordinal
    cases hordinal

/-- **Ordinals and state tuples are inverse bijections.** -/
theorem ordinal_iff :
    s.ordinal values = some state ↔ state < s.states ∧ element s.stateAxes state = values := by
  constructor
  · exact h.element_ordinal
  · rintro ⟨hstate, rfl⟩
    exact h.ordinal_element hstate

/-- each tuple of the axes has an ordinal -/
theorem exists_ordinal (hmem : values ∈ Axes.tuples s.stateAxes) : ∃ state, s.ordinal values = some state := by
  obtain ⟨n, hn, helement⟩ := Axes.exists_element hmem
  exact ⟨n, h.ordinal_iff.2 ⟨h.states ▸ hn, helement⟩⟩

/-- a tuple tells its state and its input -/
theorem tuple_injective {state' input input' : ℕ} (hs : state < s.states) (hs' : state' < s.states)
    (hi : input < s.inputs) (hi' : input' < s.inputs) (heq : s.tuple state input = s.tuple state' input') :
    state = state' ∧ input = input' := by
  have hparts := List.append_inj heq (by rw [h.length_element, h.length_element])
  have hnodup : ∀ axis ∈ s.inputAxes, axis.Nodup := by
    rw [h.input]
    exact axes_nodup _
  have hin := Axes.ordinalFrom_element hnodup (k := 0) (h.inputs ▸ hi)
  have hin' := Axes.ordinalFrom_element hnodup (k := 0) (h.inputs ▸ hi')
  constructor
  · have hord := h.ordinal_element hs
    rw [hparts.1, h.ordinal_element hs'] at hord
    exact (Option.some.inj hord).symm
  · have helement : Axes.element s.inputAxes input = Axes.element s.inputAxes input' := hparts.2
    rw [helement, hin'] at hin
    have hsame := Option.some.inj hin
    omega

end Sized

end Space

end ZenoFcis.Contract.Refinement
