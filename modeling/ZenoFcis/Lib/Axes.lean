/-
Finite products of lists of values: the tuples in order (the last axis fastest), ordinals in mixed radix, and the
projection of an ordinal onto some of its digits.
-/
import Mathlib.Data.List.Forall2
import Mathlib.Data.List.GetD
import Mathlib.Data.List.Nodup
import Mathlib.Algebra.BigOperators.Group.List.Basic
import Mathlib.Tactic.Ring

namespace ZenoFcis.Lib.Axes

variable {α : Type}

/-- all tuples, the last axis fastest -/
def tuples : List (List α) → List (List α)
  | [] => [[]]
  | axis :: axes => axis.flatMap fun a => (tuples axes).map (a :: ·)

/-- the number of tuples -/
def size : List (List α) → ℕ
  | [] => 1
  | axis :: axes => axis.length * size axes

/-- there are as many tuples as the size says -/
theorem length_tuples (axes : List (List α)) : (tuples axes).length = size axes := by
  induction axes with
  | nil => rfl
  | cons axis axes ih => simp [tuples, size, ih]

/-- the size is the product of the lengths -/
theorem size_eq_prod (axes : List (List α)) : size axes = (axes.map List.length).prod := by
  induction axes with
  | nil => rfl
  | cons axis axes ih => rw [size, ih, List.map_cons, List.prod_cons]

/-- a tuple takes a member of each axis -/
theorem mem_tuples {axes : List (List α)} {t : List α} : t ∈ tuples axes ↔ List.Forall₂ (· ∈ ·) t axes := by
  induction axes generalizing t with
  | nil => simp [tuples]
  | cons axis axes ih =>
    simp only [tuples, List.mem_flatMap, List.mem_map, List.forall₂_cons_right_iff, ih]
    constructor
    · rintro ⟨a, ha, u, hu, rfl⟩
      exact ⟨a, u, ha, hu, rfl⟩
    · rintro ⟨a, u, ha, hu, rfl⟩
      exact ⟨a, ha, u, hu, rfl⟩

/-- axes without repetitions give tuples without repetitions -/
theorem nodup_tuples {axes : List (List α)} (h : ∀ axis ∈ axes, axis.Nodup) : (tuples axes).Nodup := by
  induction axes with
  | nil => exact List.nodup_singleton _
  | cons axis axes ih =>
    rw [List.forall_mem_cons] at h
    refine List.nodup_flatMap.2 ⟨fun a _ => (ih h.2).map (fun t u heq => (List.cons.inj heq).2), ?_⟩
    refine h.1.imp fun {a b} hne => ?_
    intro t hta htb
    obtain ⟨u, -, rfl⟩ := List.mem_map.1 hta
    obtain ⟨v, -, heq⟩ := List.mem_map.1 htb
    exact hne (List.cons.inj heq).1.symm

/-- axes that are not empty have a tuple -/
theorem size_pos {axes : List (List α)} (h : ∀ axis ∈ axes, axis ≠ []) : 0 < size axes := by
  induction axes with
  | nil => exact Nat.one_pos
  | cons axis axes ih =>
    rw [List.forall_mem_cons] at h
    exact Nat.mul_pos (List.length_pos_iff.2 h.1) (ih h.2)

/-! ## Ordinals -/

section Ordinals

variable [Inhabited α]

/-- digits from the last axis on: the values, and what is left of the ordinal -/
def elementFrom : List (List α) → ℕ → List α × ℕ
  | [], n => ([], n)
  | axis :: axes, n =>
    let (values, left) := elementFrom axes n
    (axis.getD (left % axis.length) default :: values, left / axis.length)

/-- the tuple of an ordinal -/
def element (axes : List (List α)) (n : ℕ) : List α := (elementFrom axes n).1

theorem elementFrom_left (axes : List (List α)) (n : ℕ) : (elementFrom axes n).2 = n / size axes := by
  induction axes with
  | nil => exact (Nat.div_one n).symm
  | cons axis axes ih =>
    simp only [elementFrom, size]
    rw [ih, Nat.div_div_eq_div_mul, Nat.mul_comm]

theorem element_cons (axis : List α) (axes : List (List α)) (n : ℕ) :
    element (axis :: axes) n = axis.getD (n / size axes % axis.length) default :: element axes n := by
  have hleft := elementFrom_left axes n
  simp only [element, elementFrom]
  rw [hleft]

theorem length_element (axes : List (List α)) (n : ℕ) : (element axes n).length = axes.length := by
  induction axes with
  | nil => rfl
  | cons axis axes ih => rw [element_cons, List.length_cons, ih, List.length_cons]

theorem element_mod (axes : List (List α)) (n : ℕ) : element axes (n % size axes) = element axes n := by
  induction axes generalizing n with
  | nil => rfl
  | cons axis axes ih =>
    have hhead : n % (axis.length * size axes) / size axes % axis.length = n / size axes % axis.length := by
      rw [Nat.mul_comm, Nat.mod_mul_right_div_self, Nat.mod_mod]
    have htail : n % (axis.length * size axes) % size axes = n % size axes := Nat.mod_mul_left_mod _ _ _
    rw [size, element_cons, element_cons, hhead, ← ih (n % (axis.length * size axes)), htail, ih n]

theorem eq_map_getD (l : List α) : l = (List.range l.length).map fun i => l.getD i default := by
  refine List.ext_getElem (by simp) fun i hi _ => ?_
  rw [List.getElem_map, List.getElem_range, List.getD_eq_getElem _ _ hi]

theorem range_mul {β : Type} (k m : ℕ) (f : ℕ → β) :
    (List.range (k * m)).map f = (List.range k).flatMap fun i => (List.range m).map fun j => f (i * m + j) := by
  induction k with
  | zero => simp
  | succ k ih =>
    rw [Nat.succ_mul, List.range_add, List.map_append, ih, List.range_succ, List.flatMap_append, List.map_map]
    simp [Function.comp_def]

theorem element_block (axis : List α) (axes : List (List α)) {i j : ℕ} (hi : i < axis.length) (hj : j < size axes) :
    element (axis :: axes) (i * size axes + j) = axis.getD i default :: element axes j := by
  have hpos : 0 < size axes := Nat.zero_lt_of_lt hj
  have hdigit : (i * size axes + j) / size axes % axis.length = i := by
    rw [Nat.mul_comm, Nat.mul_add_div hpos, Nat.div_eq_of_lt hj, Nat.add_zero, Nat.mod_eq_of_lt hi]
  have hrest : element axes (i * size axes + j) = element axes j := by
    rw [← element_mod axes (i * size axes + j), Nat.mul_comm, Nat.mul_add_mod, Nat.mod_eq_of_lt hj]
  rw [element_cons, hdigit, hrest]

/-- **Ordinals enumerate the tuples.** -/
theorem tuples_eq_map (axes : List (List α)) : tuples axes = (List.range (size axes)).map (element axes) := by
  induction axes with
  | nil => rfl
  | cons axis axes ih =>
    rw [size, range_mul]
    calc tuples (axis :: axes) = ((List.range axis.length).map fun i => axis.getD i default).flatMap
          fun a => (tuples axes).map (a :: ·) := by rw [← eq_map_getD]; rfl
      _ = (List.range axis.length).flatMap fun i => (List.range (size axes)).map fun j =>
          axis.getD i default :: element axes j := by rw [List.flatMap_map, ih]; simp [List.map_map, Function.comp_def]
      _ = _ := ?_
    refine List.flatMap_congr fun i hi => List.map_congr_left fun j hj => ?_
    exact (element_block axis axes (List.mem_range.1 hi) (List.mem_range.1 hj)).symm

/-- every tuple has an ordinal -/
theorem exists_element {axes : List (List α)} {t : List α} (h : t ∈ tuples axes) :
    ∃ n < size axes, element axes n = t := by
  rw [tuples_eq_map] at h
  obtain ⟨n, hn, rfl⟩ := List.mem_map.1 h
  exact ⟨n, List.mem_range.1 hn, rfl⟩

/-! ## Positions in the axes -/

section Horner

variable [DecidableEq α]

/-- the ordinal of a tuple, from the first axis on -/
def ordinalFrom : List (List α) → List α → ℕ → Option ℕ
  | [], [], n => some n
  | axis :: axes, a :: t, n => (axis.idxOf? a).bind fun d => ordinalFrom axes t (n * axis.length + d)
  | _, _, _ => none

/-- an ordinal that is found gives back its tuple -/
theorem ordinalFrom_some {axes : List (List α)} {t : List α} {k m : ℕ} (h : ordinalFrom axes t k = some m) :
    ∃ n < size axes, m = k * size axes + n ∧ element axes n = t := by
  induction axes generalizing t k with
  | nil =>
    cases t with
    | nil =>
      cases h
      exact ⟨0, Nat.one_pos, by simp [size], rfl⟩
    | cons a t => cases h
  | cons axis axes ih =>
    cases t with
    | nil => cases h
    | cons a t =>
      rw [ordinalFrom, Option.bind_eq_some_iff] at h
      obtain ⟨d, hd, h⟩ := h
      obtain ⟨n, hn, hm, ht⟩ := ih h
      obtain ⟨hlt, hget, -⟩ := List.idxOf?_eq_some_iff.1 hd
      refine ⟨d * size axes + n, ?_, ?_, ?_⟩
      · calc d * size axes + n < d * size axes + size axes := by omega
          _ = (d + 1) * size axes := by ring
          _ ≤ axis.length * size axes := Nat.mul_le_mul_right _ hlt
      · rw [hm, size]
        ring
      · rw [element_block axis axes hlt hn, ht, List.getD_eq_getElem _ _ hlt]
        simpa using hget

/-- **The ordinal of an element is its own**, when no axis repeats a value. -/
theorem ordinalFrom_element {axes : List (List α)} (hnodup : ∀ axis ∈ axes, axis.Nodup) {n k : ℕ}
    (h : n < size axes) : ordinalFrom axes (element axes n) k = some (k * size axes + n) := by
  induction axes generalizing n k with
  | nil =>
    obtain rfl : n = 0 := Nat.lt_one_iff.1 h
    simp [element, elementFrom, ordinalFrom, size]
  | cons axis axes ih =>
    rw [List.forall_mem_cons] at hnodup
    have hpos : 0 < size axes := Nat.pos_of_ne_zero fun hzero => by simp [size, hzero] at h
    have hdigit : n / size axes < axis.length := (Nat.div_lt_iff_lt_mul hpos).2 h
    have hidx : axis.idxOf? (axis.getD (n / size axes) default) = some (n / size axes) := by
      rw [List.getD_eq_getElem _ _ hdigit, List.idxOf?_eq_some_iff]
      refine ⟨hdigit, by simp, fun j hj => ?_⟩
      have hne : axis[j] ≠ axis[n / size axes] := fun heq => by
        have := (List.Nodup.getElem_inj_iff hnodup.1).1 heq
        omega
      simpa using hne
    rw [element_cons, Nat.mod_eq_of_lt hdigit, ordinalFrom, hidx, Option.bind_some, ← element_mod axes n,
      ih hnodup.2 (Nat.mod_lt n hpos), size]
    have hsplit := Nat.div_add_mod n (size axes)
    congr 1
    calc (k * axis.length + n / size axes) * size axes + n % size axes
        = k * (axis.length * size axes) + (size axes * (n / size axes) + n % size axes) := by ring
      _ = k * (axis.length * size axes) + n := by rw [hsplit]

end Horner

end Ordinals

/-! ## Projection onto some digits -/

/-- digits from the last radix on: what is left of the ordinal, the key of the kept digits, and its scale -/
def projectFrom : List (ℕ × Bool) → ℕ → ℕ × ℕ × ℕ
  | [], n => (n, 0, 1)
  | (radix, kept) :: rest, n =>
    let (left, key, scale) := projectFrom rest n
    if kept then (left / radix, key + left % radix * scale, scale * radix) else (left / radix, key, scale)

/-- the key of an ordinal -/
def key (radices : List (ℕ × Bool)) (n : ℕ) : ℕ := (projectFrom radices n).2.1

/-- the number of keys -/
def keys : List (ℕ × Bool) → ℕ
  | [] => 1
  | (radix, kept) :: rest => if kept then keys rest * radix else keys rest

/-- two tuples agree where they are kept -/
def Agree : List Bool → List α → List α → Prop
  | kept :: ks, a :: s, b :: t => (kept → a = b) ∧ Agree ks s t
  | _, _, _ => True

/-- the radices of some axes, with their flags -/
def radices (axes : List (List α × Bool)) : List (ℕ × Bool) := axes.map fun x => (x.1.length, x.2)

theorem projectFrom_spec (axes : List (List α × Bool)) (n : ℕ) :
    (projectFrom (radices axes) n).1 = n / size (axes.map Prod.fst) ∧
      (projectFrom (radices axes) n).2.2 = keys (radices axes) := by
  induction axes with
  | nil => exact ⟨(Nat.div_one n).symm, rfl⟩
  | cons x axes ih =>
    obtain ⟨axis, kept⟩ := x
    obtain ⟨hleft, hscale⟩ := ih
    simp only [radices, List.map_cons, projectFrom, size, keys] at hleft hscale ⊢
    cases kept with
    | true => simp only [if_true, hleft, hscale, Nat.div_div_eq_div_mul, Nat.mul_comm axis.length, and_self]
    | false => simp only [Bool.false_eq_true, if_false, hleft, hscale, Nat.div_div_eq_div_mul,
        Nat.mul_comm axis.length, and_self]

theorem key_cons (axis : List α) (kept : Bool) (axes : List (List α × Bool)) (n : ℕ) :
    key (radices ((axis, kept) :: axes)) n = if kept then key (radices axes) n +
      n / size (axes.map Prod.fst) % axis.length * keys (radices axes) else key (radices axes) n := by
  obtain ⟨hleft, hscale⟩ := projectFrom_spec axes n
  simp only [key, radices, List.map_cons, projectFrom] at hleft hscale ⊢
  cases kept with
  | true => simp only [if_true, hleft, hscale]
  | false => simp only [Bool.false_eq_true, if_false]

/-- keys stay below the product of the radices -/
theorem key_lt {axes : List (List α × Bool)} (h : ∀ x ∈ axes, x.1 ≠ []) (n : ℕ) :
    key (radices axes) n < keys (radices axes) := by
  induction axes with
  | nil => exact Nat.one_pos
  | cons x axes ih =>
    obtain ⟨axis, kept⟩ := x
    rw [List.forall_mem_cons] at h
    have hrest := ih h.2
    have hdigit : n / size (axes.map Prod.fst) % axis.length < axis.length := Nat.mod_lt _ (List.length_pos_iff.2 h.1)
    rw [key_cons]
    have hkeys : keys (radices ((axis, kept) :: axes)) =
        if kept then keys (radices axes) * axis.length else keys (radices axes) := rfl
    rw [hkeys]
    cases kept with
    | true =>
      simp only [if_true]
      calc key (radices axes) n + n / size (axes.map Prod.fst) % axis.length * keys (radices axes)
          < keys (radices axes) + n / size (axes.map Prod.fst) % axis.length * keys (radices axes) := by omega
        _ = keys (radices axes) * (n / size (axes.map Prod.fst) % axis.length + 1) := by ring
        _ ≤ keys (radices axes) * axis.length := Nat.mul_le_mul_left _ hdigit
    | false => simpa using hrest

/-- **A key is its kept digits**: equal keys are agreement on the kept axes. -/
theorem key_eq_iff [Inhabited α] {axes : List (List α × Bool)} (hne : ∀ x ∈ axes, x.1 ≠ [])
    (hnodup : ∀ x ∈ axes, x.1.Nodup) (n m : ℕ) : key (radices axes) n = key (radices axes) m ↔
      Agree (axes.map Prod.snd) (element (axes.map Prod.fst) n) (element (axes.map Prod.fst) m) := by
  induction axes with
  | nil => exact iff_of_true rfl trivial
  | cons x axes ih =>
    obtain ⟨axis, kept⟩ := x
    rw [List.forall_mem_cons] at hne hnodup
    have hrest := ih hne.2 hnodup.2
    simp only [List.map_cons, element_cons, Agree, key_cons]
    cases kept with
    | false => simpa using hrest
    | true =>
      have hpos : 0 < axis.length := List.length_pos_iff.2 hne.1
      have hn := key_lt hne.2 n
      have hm := key_lt hne.2 m
      have hdn : n / size (axes.map Prod.fst) % axis.length < axis.length := Nat.mod_lt _ hpos
      have hdm : m / size (axes.map Prod.fst) % axis.length < axis.length := Nat.mod_lt _ hpos
      have hvalues : axis.getD (n / size (axes.map Prod.fst) % axis.length) default =
          axis.getD (m / size (axes.map Prod.fst) % axis.length) default ↔
            n / size (axes.map Prod.fst) % axis.length = m / size (axes.map Prod.fst) % axis.length := by
        rw [List.getD_eq_getElem _ _ hdn, List.getD_eq_getElem _ _ hdm]
        exact List.Nodup.getElem_inj_iff hnodup.1
      simp only [if_true, true_implies, hvalues, ← hrest]
      generalize n / size (axes.map Prod.fst) % axis.length = p
      generalize m / size (axes.map Prod.fst) % axis.length = q
      constructor
      · intro heq
        have hlow : key (radices axes) n = key (radices axes) m := by
          have hmod := congrArg (· % keys (radices axes)) heq
          simpa [Nat.add_mul_mod_self_right, Nat.mod_eq_of_lt hn, Nat.mod_eq_of_lt hm] using hmod
        rw [hlow, Nat.add_left_cancel_iff] at heq
        exact ⟨Nat.eq_of_mul_eq_mul_right (Nat.zero_lt_of_lt hn) heq, hlow⟩
      · rintro ⟨rfl, hlow⟩
        rw [hlow]

/-- two tuples agree on the keys where their members agree -/
theorem agree_iff {ks : List Bool} {s t : List α} (hs : s.length = ks.length) (ht : t.length = ks.length) :
    Agree ks s t ↔ ∀ i : ℕ, ks[i]? = some true → s[i]? = t[i]? := by
  induction ks generalizing s t with
  | nil => simp [Agree]
  | cons kept ks ih =>
    cases s with
    | nil => cases hs
    | cons a s =>
      cases t with
      | nil => cases ht
      | cons b t =>
        have hrest := ih (Nat.succ.inj hs) (Nat.succ.inj ht)
        simp only [Agree, hrest]
        constructor
        · intro h i hi
          cases i with
          | zero => simpa using h.1 (by simpa using hi)
          | succ i => simpa using h.2 i (by simpa using hi)
        · intro h
          refine ⟨fun hkept => by simpa using h 0 (by simpa using hkept), fun i hi => ?_⟩
          simpa using h (i + 1) (by simpa using hi)

/-- the number of keys is the product of the radices that are projected -/
theorem keys_eq_prod (l : List (ℕ × Bool)) : keys l = ((l.filter Prod.snd).map Prod.fst).prod := by
  induction l with
  | nil => rfl
  | cons x l ih =>
    obtain ⟨radix, kept⟩ := x
    cases kept with
    | true => simp [keys, ih, Nat.mul_comm]
    | false => simp [keys, ih]

end ZenoFcis.Lib.Axes
