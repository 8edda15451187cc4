/-
Straight-line programs: each entry is computed from the entries before it, and an entry that is not there reads as
`none`. Appending to the program changes no entry.
-/
import Mathlib.Tactic

namespace ZenoFcis.Lib.StraightLine

variable {α β : Type} {f : (ℕ → Option β) → α → Option β} {ops more : List α} {op : α}

/-- the entries of a program -/
def scan (f : (ℕ → Option β) → α → Option β) (ops : List α) : List (Option β) :=
  ops.foldl (fun entries op => entries ++ [f (fun i => entries[i]?.join) op]) []

def resultAt (f : (ℕ → Option β) → α → Option β) (ops : List α) (i : ℕ) : Option β := (scan f ops)[i]?.join

theorem scan_concat : scan f (ops ++ [op]) = scan f ops ++ [f (resultAt f ops) op] := by
  rw [scan, List.foldl_append]
  rfl

/-- there is a result for each operation -/
@[simp] theorem length_scan : (scan f ops).length = ops.length := by
  induction ops using List.reverseRecOn with
  | nil => rfl
  | append_singleton ops op ih => rw [scan_concat, List.length_append, List.length_append, ih]; rfl

theorem scan_append : scan f ops <+: scan f (ops ++ more) := by
  induction more using List.reverseRecOn with
  | nil => rw [List.append_nil]
  | append_singleton more op ih =>
    rw [← List.append_assoc, scan_concat]
    exact ih.trans (List.prefix_append _ _)

/-- later operations leave earlier results -/
theorem resultAt_extend {ops' : List α} (h : ops <+: ops') {i : ℕ} (hi : i < ops.length) :
    resultAt f ops' i = resultAt f ops i := by
  obtain ⟨more, rfl⟩ := h
  obtain ⟨rest, hrest⟩ := @scan_append _ _ f ops more
  rw [resultAt, resultAt, ← hrest, List.getElem?_append_left (by rwa [length_scan])]

/-- the last result is computed from those before it -/
theorem resultAt_last : resultAt f (ops ++ [op]) ops.length = f (resultAt f ops) op := by
  rw [resultAt, scan_concat, List.getElem?_append_right (by rw [length_scan]), length_scan, Nat.sub_self]
  rfl

theorem resultAt_eq_none {i : ℕ} (hi : ops.length ≤ i) : resultAt f ops i = none := by
  rw [resultAt, List.getElem?_eq_none (by rwa [length_scan])]
  rfl

/-- a result is an earlier one or the last -/
theorem resultAt_concat {i : ℕ} {b : β} (h : resultAt f (ops ++ [op]) i = some b) :
    i < ops.length ∧ resultAt f ops i = some b ∨ i = ops.length ∧ f (resultAt f ops) op = some b := by
  rcases lt_trichotomy i ops.length with hi | rfl | hi
  · rw [resultAt_extend (List.prefix_append _ _) hi] at h
    exact .inl ⟨hi, h⟩
  · rw [resultAt_last] at h
    exact .inr ⟨rfl, h⟩
  · rw [resultAt_eq_none (by simpa using hi)] at h
    exact absurd h (by simp)

/-- a result is computed from the results before it -/
theorem resultAt_eq {i : ℕ} (hop : ops[i]? = some op)
    (hlocal : ∀ get get' : ℕ → Option β, (∀ j < i, get j = get' j) → f get op = f get' op) :
    resultAt f ops i = f (resultAt f ops) op := by
  obtain ⟨hi, rfl⟩ := List.getElem?_eq_some_iff.1 hop
  have hlen : (ops.take i).length = i := by rw [List.length_take, min_eq_left hi.le]
  have htake : ops.take i ++ [ops[i]] <+: ops := by
    rw [List.take_concat_get']
    exact List.take_prefix _ _
  have hlast := @resultAt_last _ _ f (ops.take i) ops[i]
  rw [hlen] at hlast
  rw [resultAt_extend htake (by simp; omega), hlast]
  exact hlocal _ _ fun j hj => (resultAt_extend (List.take_prefix i ops) (by rwa [hlen])).symm

end ZenoFcis.Lib.StraightLine
