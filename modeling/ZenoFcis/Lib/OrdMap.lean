/-
Ordered maps with the update laws that account books need: what an insertion does to a lookup, to the number of
entries and to a total taken over all values.
-/
import ZenoFcis.Lib.SortedList

namespace ZenoFcis.Lib

/-- entries in strictly increasing order of their keys -/
@[ext]
structure OrdMap (κ α : Type) [LinearOrder κ] where
  entries : List (κ × α)
  increasing : Increasing Prod.fst entries

namespace OrdMap

variable {κ α : Type} [LinearOrder κ] {m : OrdMap κ α} {k k' : κ} {a : α} {f : α → ℕ}

instance [DecidableEq α] : DecidableEq (OrdMap κ α) := fun m m' =>
  decidable_of_iff (m.entries = m'.entries) ⟨fun h => OrdMap.ext h, fun h => h ▸ rfl⟩

def empty : OrdMap κ α := ⟨[], Increasing.nil⟩

def get (m : OrdMap κ α) (k : κ) : Option α := (slot Prod.fst k m.entries).map Prod.snd

def insert (m : OrdMap κ α) (k : κ) (a : α) : OrdMap κ α :=
  ⟨put Prod.fst k (some (k, a)) m.entries, m.increasing.put (by simp)⟩

/-- the number of entries -/
def size (m : OrdMap κ α) : ℕ := m.entries.length

def values (m : OrdMap κ α) : List α := m.entries.map Prod.snd

/-- the sum of a quantity over all values -/
def total (f : α → ℕ) (m : OrdMap κ α) : ℕ := (m.values.map f).sum

/-- an inserted value is found -/
theorem get_insert_self : (m.insert k a).get k = some a := by
  unfold get insert
  rw [slot_put_self m.increasing (by simp)]
  rfl

theorem get_insert_ne (h : k' ≠ k) : (m.insert k a).get k' = m.get k' := by
  unfold get insert
  rw [slot_put_ne (by simp) h]

/-- insertion changes one key -/
theorem get_insert : (m.insert k a).get k' = if k' = k then some a else m.get k' := by
  split_ifs with h
  · rw [h, get_insert_self]
  · exact get_insert_ne h

/-- a value is found exactly at its entry -/
theorem get_eq_some_iff : m.get k = some a ↔ (k, a) ∈ m.entries := by
  unfold get
  rw [Option.map_eq_some_iff]
  constructor
  · rintro ⟨x, hx, rfl⟩
    have hkey := slot_key hx
    have hmem := slot_mem hx
    subst hkey
    exact hmem
  · intro h
    exact ⟨(k, a), (slot_eq_some m.increasing).2 ⟨h, rfl⟩, rfl⟩

theorem mem_insert {e : κ × α} : e ∈ (m.insert k a).entries ↔ e = (k, a) ∨ e.1 ≠ k ∧ e ∈ m.entries := by
  rcases e with ⟨j, b⟩
  rw [← get_eq_some_iff, ← get_eq_some_iff, get_insert, Prod.mk_inj]
  split_ifs with h
  · simp [h, eq_comm]
  · simp [h]

/-- the entries of a list inserted one after another -/
def extend (m : OrdMap κ α) (l : List (κ × α)) : OrdMap κ α := l.foldl (fun m e => m.insert e.1 e.2) m

/-- extending adds the entries of the list -/
theorem mem_extend {g : κ → α} {l : List (κ × α)} (hm : ∀ e ∈ m.entries, e.2 = g e.1) (hl : ∀ e ∈ l, e.2 = g e.1)
    {e : κ × α} : e ∈ (m.extend l).entries ↔ e ∈ m.entries ∨ e ∈ l := by
  induction l generalizing m with
  | nil => simp [extend]
  | cons d l ih =>
    have hd := hl d List.mem_cons_self
    have hinsert : ∀ e ∈ (m.insert d.1 d.2).entries, e.2 = g e.1 := by
      intro e he
      rcases mem_insert.1 he with rfl | ⟨_, he⟩
      · exact hd
      · exact hm e he
    have hkeep : (e = d ∨ e.1 ≠ d.1 ∧ e ∈ m.entries) ↔ (e = d ∨ e ∈ m.entries) := by
      constructor
      · rintro (h | ⟨_, h⟩)
        · exact .inl h
        · exact .inr h
      · rintro (h | h)
        · exact .inl h
        · by_cases hkey : e.1 = d.1
          · exact .inl (Prod.ext hkey ((hm e h).trans (hkey ▸ hd.symm)))
          · exact .inr ⟨hkey, h⟩
    have hext : m.extend (d :: l) = (m.insert d.1 d.2).extend l := rfl
    rw [hext, ih hinsert fun e he => hl e (List.mem_cons_of_mem _ he), mem_insert, List.mem_cons, hkeep]
    tauto

theorem extend_snoc (l : List (κ × α)) (e : κ × α) : m.extend (l ++ [e]) = (m.extend l).insert e.1 e.2 := by
  unfold extend
  rw [List.foldl_append]
  rfl

/-- other keys keep their values -/
theorem get_extend_not_mem {l : List (κ × α)} (h : k ∉ l.map Prod.fst) : (m.extend l).get k = m.get k := by
  induction l using List.reverseRecOn with
  | nil => rfl
  | append_singleton l e ih =>
    rw [List.map_append, List.mem_append, not_or, List.map_singleton, List.mem_singleton] at h
    rw [extend_snoc, get_insert_ne h.2, ih h.1]

theorem get_extend_mem {l : List (κ × α)} (hl : (l.map Prod.fst).Nodup) {e : κ × α} (he : e ∈ l) :
    (m.extend l).get e.1 = some e.2 := by
  induction l using List.reverseRecOn with
  | nil => cases he
  | append_singleton l d ih =>
    rw [List.map_append, List.map_singleton, List.nodup_append] at hl
    rw [extend_snoc]
    rcases List.mem_append.1 he with he | he
    · have hne : e.1 ≠ d.1 := hl.2.2 e.1 (List.mem_map_of_mem he) d.1 (List.mem_singleton_self _)
      rw [get_insert_ne hne, ih hl.1 he]
    · obtain rfl := List.mem_singleton.1 he
      exact get_insert_self

theorem get_extend_eq_some {l : List (κ × α)} (hl : (l.map Prod.fst).Nodup) :
    (m.extend l).get k = some a ↔ (k, a) ∈ l ∨ k ∉ l.map Prod.fst ∧ m.get k = some a := by
  by_cases hk : k ∈ l.map Prod.fst
  · obtain ⟨e, he, rfl⟩ := List.mem_map.1 hk
    rw [get_extend_mem hl he, Option.some_inj]
    constructor
    · rintro rfl
      exact .inl he
    · rintro (hmem | ⟨hnot, _⟩)
      · have hsame : (e.1, a) = e := List.inj_on_of_nodup_map hl hmem he rfl
        exact (congrArg Prod.snd hsame).symm
      · exact absurd hk hnot
  · rw [get_extend_not_mem hk]
    constructor
    · intro h
      exact .inr ⟨hk, h⟩
    · rintro (hmem | ⟨_, h⟩)
      · exact absurd (List.mem_map_of_mem hmem) hk
      · exact h

/-- insertion changes the total by the difference of the values -/
theorem total_insert : (m.insert k a).total f + ((m.get k).map f).getD 0 = m.total f + f a := by
  rcases m with ⟨l, hl⟩
  unfold total values get insert
  simp only
  induction l with
  | nil => simp [put, slot]
  | cons e l ih =>
    have ih := ih hl.tail
    by_cases hlt : e.1 < k
    · simp only [put, if_pos hlt, List.map_cons, List.sum_cons]
      rw [slot, List.find?_cons_of_neg (by simpa using hlt.ne), ← slot]
      omega
    · by_cases heq : e.1 = k
      · simp only [put, if_neg hlt, if_pos heq, Option.toList_some, List.singleton_append, List.map_cons, List.sum_cons]
        rw [slot, List.find?_cons_of_pos (by simpa using heq)]
        simp only [Option.map_some, Option.getD_some]
        omega
      · have hnone : slot Prod.fst k (e :: l) = none := by
          refine slot_eq_none.2 fun x hx => ?_
          have hgt : k < e.1 := lt_of_le_of_ne (not_lt.1 hlt) (Ne.symm heq)
          rcases List.mem_cons.1 hx with rfl | hx
          · exact heq
          · exact (hgt.trans (hl.head_lt hx)).ne'
        rw [hnone]
        simp only [put, if_neg hlt, if_neg heq, Option.toList_some, List.singleton_append, List.map_cons, List.sum_cons,
          Option.map_none, Option.getD_none]
        omega

theorem size_eq_total : m.size = m.total fun _ => 1 := by simp [size, total, values, Function.comp_def]

/-- insertion changes the size by at most one -/
theorem size_insert : (m.insert k a).size + ((m.get k).map fun _ => 1).getD 0 = m.size + 1 := by
  rw [size_eq_total, size_eq_total]
  exact total_insert

end OrdMap

end ZenoFcis.Lib
