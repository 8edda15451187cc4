/-
Lists kept in strictly increasing order of a key: binary search, and the three edits made at its result (insert,
replace, remove) as one operation `put` on the slot of a key. Slots determine the list, so edits at different keys
commute.
-/
import Mathlib.Tactic

namespace ZenoFcis.Lib

variable {α κ : Type} [LinearOrder κ] (key : α → κ)

/-- strictly increasing keys -/
def Increasing (l : List α) : Prop := l.Pairwise fun a b => key a < key b

/-- the result of a binary search in an increasing list: the place of the key, or the place where it belongs -/
def binarySearch (k : κ) (l : List α) : Except ℕ (Fin l.length) :=
  let i := (l.takeWhile fun x => key x < k).length
  if h : i < l.length then
    if key l[i] = k then .ok ⟨i, h⟩ else .error i
  else .error i

/-- the element with a key -/
def slot (k : κ) (l : List α) : Option α := l.find? fun x => key x = k

/-- the list with the slot of `k` replaced -/
def put (k : κ) (x : Option α) : List α → List α
  | [] => x.toList
  | y :: l => if key y < k then y :: put k x l else if key y = k then x.toList ++ l else x.toList ++ y :: l

variable {key} {k k' : κ} {l : List α}

theorem Increasing.nil : Increasing key ([] : List α) := List.Pairwise.nil

variable {y : α} {x : Option α}

theorem Increasing.tail (h : Increasing key (y :: l)) : Increasing key l := (List.pairwise_cons.1 h).2

theorem Increasing.head_lt {z : α} (h : Increasing key (y :: l)) (hz : z ∈ l) : key y < key z :=
  (List.pairwise_cons.1 h).1 z hz

theorem Increasing.inj {x : α} (h : Increasing key l) (hx : x ∈ l) (hy : y ∈ l) (he : key x = key y) : x = y := by
  induction l with
  | nil => cases hx
  | cons z l ih =>
    rcases List.mem_cons.1 hx with rfl | hx' <;> rcases List.mem_cons.1 hy with rfl | hy'
    · rfl
    · exact absurd he (h.head_lt hy').ne
    · exact absurd he (h.head_lt hx').ne'
    · exact ih h.tail hx' hy'

/-! ## Slots -/

/-- what is found is in the list -/
theorem slot_mem {x : α} (h : slot key k l = some x) : x ∈ l := List.mem_of_find?_eq_some h

/-- what is found has the key -/
theorem slot_key {x : α} (h : slot key k l = some x) : key x = k := by simpa using List.find?_some h

/-- nothing is found when no key matches -/
theorem slot_eq_none : slot key k l = none ↔ ∀ x ∈ l, key x ≠ k := by simp [slot]

/-- in an increasing list the member with a key is found -/
theorem slot_eq_some {x : α} (h : Increasing key l) : slot key k l = some x ↔ x ∈ l ∧ key x = k := by
  refine ⟨fun hx => ⟨slot_mem hx, slot_key hx⟩, fun ⟨hx, hk⟩ => ?_⟩
  cases hs : slot key k l with
  | none => exact absurd hk (slot_eq_none.1 hs x hx)
  | some y => rw [h.inj hx (slot_mem hs) (hk.trans (slot_key hs).symm)]

/-- increasing lists with the same lookups are equal -/
theorem Increasing.ext {l' : List α} (h : Increasing key l) (h' : Increasing key l')
    (hslot : ∀ k, slot key k l = slot key k l') : l = l' := by
  have hmem : ∀ x, x ∈ l ↔ x ∈ l' := by
    intro x
    have hx := slot_eq_some (k := key x) (x := x) h
    rw [hslot, slot_eq_some h'] at hx
    simpa using hx.symm
  have hnodup : ∀ {m : List α}, Increasing key m → m.Nodup := fun hm => hm.imp fun hab he => hab.ne (congrArg key he)
  have hperm : l.Perm l' := (List.perm_ext_iff_of_nodup (hnodup h) (hnodup h')).2 hmem
  exact hperm.eq_of_pairwise (fun a b _ _ hab hba => absurd hab hba.asymm) h h'

/-! ## The edit of a slot -/

theorem mem_put (h : y ∈ put key k x l) : y ∈ x ∨ y ∈ l := by
  induction l with
  | nil => simpa [put] using h
  | cons z l ih =>
    unfold put at h
    split_ifs at h with hlt heq
    · rcases List.mem_cons.1 h with rfl | h
      · exact .inr List.mem_cons_self
      · exact (ih h).imp id (List.mem_cons_of_mem _)
    · simp only [List.mem_append, Option.mem_toList] at h
      exact h.imp id (List.mem_cons_of_mem _)
    · simpa using h

/-- putting at a key keeps the order -/
theorem Increasing.put (h : Increasing key l) (hx : ∀ y ∈ x, key y = k) :
    Increasing key (put key k x l) := by
  induction l with
  | nil => cases x <;> simp [Lib.put, Increasing]
  | cons z l ih =>
    unfold Lib.put
    split_ifs with hlt heq
    · refine List.pairwise_cons.2 ⟨fun y hy => ?_, ih h.tail⟩
      rcases mem_put hy with hy | hy
      · rwa [hx y hy]
      · exact h.head_lt hy
    · cases x with
      | none => exact h.tail
      | some y =>
        refine List.pairwise_cons.2 ⟨fun w hw => ?_, h.tail⟩
        rw [hx y rfl, ← heq]
        exact h.head_lt hw
    · have hgt : k < key z := lt_of_le_of_ne (not_lt.1 hlt) (Ne.symm heq)
      cases x with
      | none => exact h
      | some y =>
        refine List.pairwise_cons.2 ⟨fun w hw => ?_, h⟩
        rw [hx y rfl]
        rcases List.mem_cons.1 hw with rfl | hw
        · exact hgt
        · exact hgt.trans (h.head_lt hw)

/-- what was put is found -/
theorem slot_put_self (h : Increasing key l) (hx : ∀ y ∈ x, key y = k) :
    slot key k (put key k x l) = x := by
  have hput := h.put hx
  cases x with
  | some y =>
    refine (slot_eq_some hput).2 ⟨?_, hx y rfl⟩
    clear hput
    induction l with
    | nil => simp [put]
    | cons z l ih =>
      unfold put
      split_ifs
      · exact List.mem_cons_of_mem _ (ih h.tail)
      · simp
      · simp
  | none =>
    refine slot_eq_none.2 fun y hy => ?_
    clear hput
    induction l with
    | nil => simp [put] at hy
    | cons z l ih =>
      unfold put at hy
      split_ifs at hy with hlt heq
      · rcases List.mem_cons.1 hy with rfl | hy
        · exact hlt.ne
        · exact ih h.tail hy
      · have := h.head_lt hy
        rw [heq] at this
        exact this.ne'
      · have hgt : k < key z := lt_of_le_of_ne (not_lt.1 hlt) (Ne.symm heq)
        rcases List.mem_cons.1 hy with rfl | hy
        · exact heq
        · exact (hgt.trans (h.head_lt hy)).ne'

/-- putting at a key leaves the other keys -/
theorem slot_put_ne (hx : ∀ y ∈ x, key y = k) (hne : k' ≠ k) :
    slot key k' (put key k x l) = slot key k' l := by
  have hskip : ∀ m : List α, slot key k' (x.toList ++ m) = slot key k' m := by
    intro m
    cases x with
    | none => rfl
    | some y => exact List.find?_cons_of_neg (by simpa [hx y rfl] using hne.symm)
  induction l with
  | nil => simpa [put] using hskip []
  | cons z l ih =>
    unfold put
    split_ifs with hlt heq
    · unfold slot at ih ⊢
      rw [List.find?_cons, List.find?_cons, ih]
    · rw [hskip]
      exact (List.find?_cons_of_neg (by simpa [heq] using hne.symm)).symm
    · exact hskip _

/-- puts at different keys commute -/
theorem put_put_comm {y : Option α} (h : Increasing key l) (hx : ∀ z ∈ x, key z = k) (hy : ∀ z ∈ y, key z = k')
    (hne : k ≠ k') : put key k x (put key k' y l) = put key k' y (put key k x l) := by
  refine ((h.put hy).put hx).ext ((h.put hx).put hy) fun j => ?_
  by_cases hj : j = k
  · subst hj
    rw [slot_put_self (h.put hy) hx, slot_put_ne hy hne, slot_put_self h hx]
  · by_cases hj' : j = k'
    · subst hj'
      rw [slot_put_ne hx hj, slot_put_self h hy, slot_put_self (h.put hx) hy]
    · rw [slot_put_ne hx hj, slot_put_ne hy hj', slot_put_ne hy hj', slot_put_ne hx hj]

/-- an increasing order of a list is unique -/
theorem Increasing.perm_eq {l' : List α} (h : Increasing key l) (h' : Increasing key l') (hperm : l.Perm l') : l = l' := by
  apply hperm.eq_of_pairwise _ h h'
  intro a b _ _ hab hba
  exact absurd hab hba.not_gt

/-- a sorted list increases when no neighbours are equal -/
theorem increasing_iff_chain (h : l.Pairwise fun a b => key a ≤ key b) :
    Increasing key l ↔ (l.map key).IsChain (· ≠ ·) := by
  constructor
  · intro hincreasing
    have hdistinct : (l.map key).Pairwise (· ≠ ·) := List.pairwise_map.2 (hincreasing.imp fun hab => hab.ne)
    exact hdistinct.isChain
  · intro hchain
    induction l with
    | nil => exact .nil
    | cons a l ih =>
      cases l with
      | nil => exact List.pairwise_singleton _ _
      | cons b l =>
        rw [List.map_cons, List.map_cons, List.isChain_cons_cons] at hchain
        obtain ⟨hle, hrest⟩ := List.pairwise_cons.1 h
        have htail := ih hrest hchain.2
        refine List.pairwise_cons.2 ⟨fun c hc => ?_, htail⟩
        have hlt : key a < key b := lt_of_le_of_ne (hle b List.mem_cons_self) hchain.1
        rcases List.mem_cons.1 hc with rfl | hc
        · exact hlt
        · exact hlt.trans (htail.head_lt hc)

/-- an increasing list has distinct keys -/
theorem Increasing.nodup (h : Increasing key l) : (l.map key).Nodup := List.pairwise_map.2 (h.imp fun hab => hab.ne)

/-- a new key adds one member -/
theorem put_perm {x : α} (h : slot key k l = none) : (put key k (some x) l).Perm (x :: l) := by
  induction l with
  | nil => exact .rfl
  | cons y l ih =>
    have hne := List.forall_mem_cons.1 (slot_eq_none.1 h)
    unfold put
    rw [if_neg hne.1]
    split_ifs
    · exact ((ih (slot_eq_none.2 hne.2)).cons y).trans (.swap x y l)
    · exact .rfl

/-- deleting a key removes its member -/
theorem put_none_perm {x : α} (hl : Increasing key l) (h : slot key k l = some x) : l.Perm (x :: put key k none l) := by
  have hkey : ∀ y ∈ some x, key y = k := by
    rintro y ⟨⟩
    exact slot_key h
  have hnone : slot key k (put key k none l) = none := slot_put_self hl (by simp)
  have hself : put key k (some x) (put key k none l) = l := by
    refine ((hl.put (by simp)).put hkey).ext hl fun j => ?_
    by_cases hj : j = k
    · subst hj
      rw [slot_put_self (hl.put (by simp)) hkey, h]
    · rw [slot_put_ne hkey hj, slot_put_ne (by simp) hj]
  have hperm := @put_perm _ _ _ key k _ x hnone
  rwa [hself] at hperm

theorem sorted_mergeSort (key : α → κ) (l : List α) :
    (l.mergeSort fun a b => key a ≤ key b).Pairwise fun a b => key a ≤ key b := by
  have hsorted : (l.mergeSort fun a b => key a ≤ key b).Pairwise fun a b => decide (key a ≤ key b) :=
    List.pairwise_mergeSort (fun a b c hab hbc => by simp only [decide_eq_true_eq] at *; exact hab.trans hbc)
      (fun a b => by simpa using le_total (key a) (key b)) l
  simpa only [decide_eq_true_eq] using hsorted

/-- sorting distinct keys gives an increasing list -/
theorem Increasing.mergeSort (h : (l.map key).Nodup) : Increasing key (l.mergeSort fun a b => key a ≤ key b) := by
  have hdistinct : ((l.mergeSort fun a b => key a ≤ key b).map key).Nodup :=
    ((List.mergeSort_perm l _).map key).nodup_iff.2 h
  refine ((sorted_mergeSort key l).and (List.pairwise_map.1 hdistinct)).imp fun hab => ?_
  exact lt_of_le_of_ne hab.1 hab.2

/-- a put commutes with a map that keeps the keys -/
theorem put_map {β : Type} {key' : β → κ} {f : α → β} (hf : ∀ a, key' (f a) = key a) (x : Option α) (l : List α) :
    (put key k x l).map f = put key' k (x.map f) (l.map f) := by
  induction l with
  | nil => cases x <;> rfl
  | cons y l ih =>
    simp only [put, List.map_cons, hf]
    split_ifs
    · rw [List.map_cons, ih]
    · cases x <;> simp
    · cases x <;> simp

/-- the last put at a key stays -/
theorem put_put {y : Option α} (h : Increasing key l) (hx : ∀ z ∈ x, key z = k) (hy : ∀ z ∈ y, key z = k) :
    put key k x (put key k y l) = put key k x l := by
  refine ((h.put hy).put hx).ext (h.put hx) fun j => ?_
  by_cases hj : j = k
  · subst hj
    rw [slot_put_self (h.put hy) hx, slot_put_self h hx]
  · rw [slot_put_ne hx hj, slot_put_ne hy hj, slot_put_ne hx hj]

/-! ## Edits at the result of a search -/

theorem binarySearch_cons (hlt : key y < k) :
    binarySearch key k (y :: l) = match binarySearch key k l with
      | .ok i => .ok i.succ
      | .error i => .error (i + 1) := by
  unfold binarySearch
  simp only [List.takeWhile_cons, decide_eq_true hlt, if_true, List.length_cons, Nat.add_lt_add_iff_right,
    List.getElem_cons_succ]
  by_cases hi : (l.takeWhile fun x => key x < k).length < l.length
  · rw [dif_pos hi, dif_pos hi]
    split <;> rfl
  · rw [dif_neg hi, dif_neg hi]

theorem binarySearch_found (heq : key y = k) : binarySearch key k (y :: l) = .ok 0 := by
  unfold binarySearch
  simp [heq]

theorem binarySearch_past (hgt : k < key y) : binarySearch key k (y :: l) = .error 0 := by
  unfold binarySearch
  simp [hgt.not_gt, hgt.ne']

/-- what an edit at the place of the key does -/
structure Found (key : α → κ) (k : κ) (l : List α) (i : Fin l.length) : Prop where
  slot : slot key k l = some l[i]
  set : ∀ y, l.set i y = put key k (some y) l
  erase : l.eraseIdx i = put key k none l

/-- a search that succeeds has found the member with the key -/
theorem binarySearch_ok {i : Fin l.length} (h : binarySearch key k l = .ok i) : Found key k l i := by
  induction l with
  | nil => exact i.elim0
  | cons y l ih =>
    rcases lt_trichotomy (key y) k with hlt | heq | hgt
    · rw [binarySearch_cons hlt] at h
      cases hi : binarySearch key k l with
      | error j => rw [hi] at h; cases h
      | ok j =>
        rw [hi] at h
        cases h
        have hj := ih hi
        refine ⟨?_, fun x => ?_, ?_⟩
        · exact (List.find?_cons_of_neg (by simpa using hlt.ne)).trans hj.slot
        · simp [put, hlt, ← hj.set]
        · simp [put, hlt, ← hj.erase]
    · rw [binarySearch_found heq] at h
      cases h
      refine ⟨?_, fun x => ?_, ?_⟩
      · exact List.find?_cons_of_pos (by simpa using heq)
      · simp [put, heq]
      · simp [put, heq]
    · rw [binarySearch_past hgt] at h
      cases h

/-- a search that fails gives the place where the key belongs -/
theorem binarySearch_error {i : ℕ} (hl : Increasing key l) (h : binarySearch key k l = .error i) :
    slot key k l = none ∧ ∀ y, l.insertIdx i y = put key k (some y) l := by
  induction l generalizing i with
  | nil =>
    obtain rfl : 0 = i := Except.error.inj h
    exact ⟨rfl, fun y => rfl⟩
  | cons y l ih =>
    rcases lt_trichotomy (key y) k with hlt | heq | hgt
    · rw [binarySearch_cons hlt] at h
      cases hi : binarySearch key k l with
      | ok j => rw [hi] at h; cases h
      | error j =>
        rw [hi] at h
        obtain rfl := Except.error.inj h
        obtain ⟨hslot, hput⟩ := ih hl.tail hi
        refine ⟨(List.find?_cons_of_neg (by simpa using hlt.ne)).trans hslot, fun x => ?_⟩
        simp [put, hlt, ← hput]
    · rw [binarySearch_found heq] at h
      cases h
    · rw [binarySearch_past hgt] at h
      obtain rfl := Except.error.inj h
      refine ⟨slot_eq_none.2 fun x hx => ?_, fun x => ?_⟩
      · rcases List.mem_cons.1 hx with rfl | hx
        · exact hgt.ne'
        · exact (hgt.trans (hl.head_lt hx)).ne'
      · simp [put, hgt.not_gt, hgt.ne']

/-- a key is put behind the smaller ones -/
theorem insertIdx_put (hl : Increasing key l) (h : slot key k l = none) :
    l.insertIdx (l.takeWhile fun x => key x < k).length y = put key k (some y) l := by
  cases hi : binarySearch key k l with
  | ok i =>
    have hfound := (binarySearch_ok hi).slot
    rw [h] at hfound
    cases hfound
  | error i =>
    have hplace : (l.takeWhile fun x => key x < k).length = i := by
      unfold binarySearch at hi
      dsimp only at hi
      split_ifs at hi
      · exact Except.error.inj hi
      · exact Except.error.inj hi
    rw [hplace]
    exact (binarySearch_error hl hi).2 y

end ZenoFcis.Lib
