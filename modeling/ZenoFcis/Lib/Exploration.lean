/-
Breadth-first exploration of a graph of listed successors. A search has visited some states and discovered others;
visiting the first pending one appends what it discovers. When nothing is pending the visited states are the reachable
ones, in the order of their discovery.
-/
import Mathlib.Logic.Relation
import ZenoFcis.Lib.Labelling

namespace ZenoFcis.Lib.Exploration

open Labelling

variable {α : Type} [DecidableEq α]

/-! ## First occurrences -/

section Firsts

variable {seen ks ks' : List α} {k : α}

theorem firsts_append : firsts seen (ks ++ ks') = firsts (firsts seen ks) ks' := by
  induction ks generalizing seen with
  | nil => rfl
  | cons k ks ih =>
    rw [List.cons_append, firsts, firsts]
    split_ifs
    · exact ih
    · exact ih

theorem mem_firsts_iff : k ∈ firsts seen ks ↔ k ∈ seen ∨ k ∈ ks := by
  induction ks generalizing seen with
  | nil => simp [firsts]
  | cons a ks ih =>
    rw [firsts, List.mem_cons]
    split_ifs with ha
    · rw [ih]
      constructor
      · rintro (h | h)
        · exact Or.inl h
        · exact Or.inr (Or.inr h)
      · rintro (h | rfl | h)
        · exact Or.inl h
        · exact Or.inl ha
        · exact Or.inr h
    · rw [ih, List.mem_append, List.mem_singleton, or_assoc]

theorem nodup_firsts (h : seen.Nodup) : (firsts seen ks).Nodup := by
  induction ks generalizing seen with
  | nil => exact h
  | cons a ks ih =>
    rw [firsts]
    split_ifs with ha
    · exact ih h
    · refine ih (List.nodup_append.2 ⟨h, List.nodup_singleton a, ?_⟩)
      intro x hx y hy
      rw [List.mem_singleton.1 hy]
      rintro rfl
      exact ha hx

end Firsts

/-! ## Searches -/

section Search

variable (succs : α → List α) (start : α)

/-- reachable by listed successors -/
def Reaches : α → Prop := Relation.ReflTransGen (fun a b => b ∈ succs a) start

/-- an order of breadth-first discovery: it lists the start and the successors of its own states at their first
occurrence, and each state is discovered from the states before it -/
structure BreadthFirst (order : List α) : Prop where
  closed : firsts [start] (order.flatMap succs) = order
  early : ∀ k < order.length, k < (firsts [start] ((order.take k).flatMap succs)).length

/-- a search under way: the states visited, then those discovered but not visited yet -/
structure Search (visited pending : List α) : Prop where
  found : firsts [start] (visited.flatMap succs) = visited ++ pending
  early : ∀ k < visited.length, k < (firsts [start] ((visited.take k).flatMap succs)).length

/-- a search starts with one state that is pending -/
theorem search_start : Search succs start [] [start] := ⟨rfl, fun k hk => absurd hk (Nat.not_lt_zero k)⟩

variable {succs start} {visited pending order : List α}

/-- visiting a state appends its new successors -/
theorem Search.visit {s : α} {new : List α} (h : Search succs start visited (s :: pending))
    (hnew : firsts (visited ++ s :: pending) (succs s) = (visited ++ s :: pending) ++ new) :
    Search succs start (visited ++ [s]) (pending ++ new) := by
  constructor
  · rw [List.flatMap_append, List.flatMap_singleton, firsts_append, h.found, hnew]
    simp
  · intro k hk
    rw [List.length_append, List.length_singleton] at hk
    rcases Nat.lt_succ_iff_lt_or_eq.1 hk with hlt | rfl
    · rw [List.take_append_of_le_length hlt.le]
      exact h.early k hlt
    · rw [List.take_left, h.found, List.length_append, List.length_cons]
      omega

/-- no state is found twice -/
theorem Search.nodup (h : Search succs start visited pending) : (visited ++ pending).Nodup := by
  rw [← h.found]
  exact nodup_firsts (List.nodup_singleton start)

/-- every state that is found is reached -/
theorem Search.reaches (h : Search succs start visited pending) {s : α} (hs : s ∈ visited ++ pending) :
    Reaches succs start s := by
  have hstep : ∀ k ≤ visited.length, ∀ t ∈ firsts [start] ((visited.take k).flatMap succs), Reaches succs start t := by
    intro k
    induction k with
    | zero =>
      intro _ t ht
      rw [List.mem_singleton.1 ht]
      exact .refl
    | succ k ih =>
      intro hk t ht
      have hlt : k < visited.length := hk
      rw [← List.take_concat_get' visited k hlt, List.flatMap_append, List.flatMap_singleton, firsts_append,
        mem_firsts_iff] at ht
      rcases ht with ht | ht
      · exact ih hlt.le t ht
      -- the visited state was discovered before it was visited
      have hprefix : firsts [start] ((visited.take k).flatMap succs) <+: visited ++ pending := by
        rw [← h.found]
        conv_rhs => rw [← List.take_append_drop k visited, List.flatMap_append, firsts_append]
        exact prefix_firsts _ _
      have hget := List.IsPrefix.getElem hprefix (h.early k hlt)
      have hmem := List.getElem_mem (h.early k hlt)
      rw [hget, List.getElem_append_left hlt] at hmem
      exact (ih hlt.le _ hmem).tail ht
  have hall := hstep visited.length le_rfl s
  rw [List.take_length, h.found] at hall
  exact hall hs

/-- **Search.** When nothing is pending, the visits are in breadth-first order. -/
theorem Search.breadthFirst (h : Search succs start visited []) : BreadthFirst succs start visited := by
  have hfound := h.found
  rw [List.append_nil] at hfound
  exact ⟨hfound, h.early⟩

/-- the order lists each state once -/
theorem BreadthFirst.nodup (h : BreadthFirst succs start order) : order.Nodup := by
  rw [← h.closed]
  exact nodup_firsts (List.nodup_singleton start)

/-- **Breadth-first order.** It lists exactly the reachable states. -/
theorem BreadthFirst.mem_iff (h : BreadthFirst succs start order) {s : α} : s ∈ order ↔ Reaches succs start s := by
  constructor
  · intro hs
    have hsearch : Search succs start order [] := ⟨by rw [List.append_nil]; exact h.closed, h.early⟩
    exact hsearch.reaches (by rwa [List.append_nil])
  · intro hs
    induction hs with
    | refl =>
      rw [← h.closed]
      exact mem_firsts_iff.2 (Or.inl (List.mem_singleton_self start))
    | tail _ hstep ih =>
      rw [← h.closed]
      exact mem_firsts_iff.2 (Or.inr (List.mem_flatMap.2 ⟨_, ih, hstep⟩))

end Search

end ZenoFcis.Lib.Exploration
