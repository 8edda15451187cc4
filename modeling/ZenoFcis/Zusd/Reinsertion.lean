/-
Where a vault is put back into the priority order (`redemption.rs`, `cut`). The order is searched from hints that may be
correct, swapped, stale or absent. Results:
- `searchPlace_spec`: with the others in descending order the search ends at a place between no smaller and no larger
  ratios, whatever the hints;
- `cut_exact`: the vault is listed once, the others keep their order, and hints only choose among equal ratios.
-/
import ZenoFcis.Lib.SortedList
import ZenoFcis.Zusd.Quote
import ZenoFcis.Zusd.Stability

namespace ZenoFcis.Zusd

open Lib Lib.Except Vaults
open Lib.Metered (result_bind result_ite result_pure)

/-- the precision of a nominal ratio -/
def NICR_Q : U128 := ⟨100000000000000000000, by decide⟩

structure Book where
  vaults : List Vault
  order : List Id
  priorities : List (Id × U128)
  system : System
  defaultCollateral : U128
  defaultDebt : U128
  errorC : Accumulator256
  errorD : Accumulator256
  gasBalance : U128
  surplus : List (Id × U128)
  pool : Stability.State
deriving DecidableEq

namespace Liquidation

/-- the place of a vault in the list sorted by identity -/
def index (book : Book) (id : Id) : Work (Option (Fin book.vaults.length)) := do
  charge book.vaults.length book.vaults.length 0
  return (binarySearch Vault.id id book.vaults).toOption

/-- the nominal ratio of a vault with its pending gains -/
def fresh (book : Book) (id : Id) : Work U128 := do
  let i ← .okOr (← index book id) .domain
  let v ← effective (book.vaults.get i) book.system
  let p ← muldiv v.collateral NICR_Q v.debt
  failIf (p = .zero) .arithmetic
  return p

end Liquidation

namespace Redemption

open Liquidation

section Search

variable (ratio : Id → Work U128) (order : List Id) (priority : U128)

/-- the place between two neighbours, or at an end of the order when one is absent -/
def valid : Option (Fin order.length) → Option (Fin order.length) → Work (Option ℕ)
  | none, none => pure (if order.length = 0 then some 0 else none)
  | none, some j =>
    if j.val = 0 then do return if (← ratio (order.get j)) ≤ priority then some 0 else none else pure none
  | some i, none =>
    if i.val + 1 = order.length then do
      return if priority ≤ (← ratio (order.get i)) then some order.length else none
    else pure none
  | some i, some j =>
    if i.val + 1 = j.val then do
      if priority ≤ (← ratio (order.get i)) then
        return if (← ratio (order.get j)) ≤ priority then some j.val else none
      else pure none
    else pure none

/-- the loop from the lower hint up -/
def climb : (j : ℕ) → j < order.length → Work ℕ
  | 0, h => do
    charge 1 1 64
    .okOr (← valid ratio order priority none (some ⟨0, h⟩)) .domain
  | j + 1, h => do
    charge 1 1 64
    match ← valid ratio order priority (some ⟨j, Nat.lt_of_succ_lt h⟩) (some ⟨j + 1, h⟩) with
    | some place => pure place
    | none => climb j (Nat.lt_of_succ_lt h)

/-- the loop from the upper hint down, with `rest` entries below it -/
def descend : (rest i : ℕ) → i + rest + 1 = order.length → Work ℕ
  | 0, i, h => do
    charge 1 1 64
    .okOr (← valid ratio order priority (some ⟨i, by omega⟩) none) .domain
  | rest + 1, i, h => do
    charge 1 1 64
    match ← valid ratio order priority (some ⟨i, by omega⟩) (some ⟨i + 1, by omega⟩) with
    | some place => pure place
    | none => descend rest (i + 1) (by omega)

/-- the place of a hint in the order -/
def find (hint : Option Id) : Option (Fin order.length) := hint.bind fun v => order.finIdxOf? v

/-- a hint is dropped when its ratio is on the wrong side -/
def keepHint (drops : U128 → Prop) [DecidablePred drops] : Option (Fin order.length) → Work (Option (Fin order.length))
  | none => pure none
  | some i => do return if drops (← ratio (order.get i)) then none else some i

/-- the search from a lower hint alone -/
def searchUp (j : Fin order.length) : Work ℕ := do
  if j.val + 1 = order.length then
    if priority ≤ (← ratio (order.get j)) then pure order.length else climb ratio order priority j.val j.isLt
  else climb ratio order priority j.val j.isLt

/-- the search from an upper hint, or from the first entry -/
def searchDown (u : Option (Fin order.length)) : Work ℕ :=
  if hn : order.length = 0 then pure 0
  else do
    let first : Fin order.length := ⟨0, Nat.pos_of_ne_zero hn⟩
    let i := u.getD first
    let below := descend ratio order priority (order.length - 1 - i.val) i.val (by omega)
    if i.val = 0 then
      if (← ratio (order.get first)) ≤ priority then pure 0 else below
    else below

/-- the search without the shortcut of two correct hints -/
def searchFrom (upper lower : Option (Fin order.length)) : Work ℕ := do
  let u ← keepHint ratio order (· < priority) upper
  let l ← keepHint ratio order (priority < ·) lower
  match u, l with
  | none, some j => searchUp ratio order priority j
  | u, _ => searchDown ratio order priority u

/-- the original hints are tested before a missing one is discarded -/
def searchPlace (upper lower : Option Id) : Work ℕ := do
  let u := find order upper
  let l := find order lower
  let originalPresent := (upper.isNone || u.isSome) && (lower.isNone || l.isSome)
  match ← if originalPresent then valid ratio order priority u l else pure none with
  | some place => pure place
  | none => searchFrom ratio order priority u l

end Search

def cut (book : Book) (id : Id) (priority : U128) (upper lower : Option Id) : Work Book := do
  let order := book.order.filter (· ≠ id)
  let place ← searchPlace (fresh book) order priority upper lower
  return { book with order := order.insertIdx place id }

/-! ## The search ends at a place -/

section Place

variable {g : Id → U128} {order : List Id} {priority : U128}

/-- a place with no smaller ratio before it and no larger one behind it -/
structure Place (g : Id → U128) (order : List Id) (priority : U128) (place : ℕ) : Prop where
  le_length : place ≤ order.length
  before : ∀ x ∈ order.take place, priority ≤ g x
  behind : ∀ x ∈ order.drop place, g x ≤ priority

/-- descending ratios -/
def Descending (g : Id → U128) (order : List Id) : Prop := order.Pairwise fun a b => g b ≤ g a

variable {i j : Fin order.length}

theorem Descending.le (h : Descending g order) (hij : i ≤ j) :
    g (order.get j) ≤ g (order.get i) := by
  rcases hij.lt_or_eq with hlt | rfl
  · exact List.pairwise_iff_get.1 h i j hlt
  · exact le_rfl

theorem mem_take_get {x : Id} {n : ℕ} (h : x ∈ order.take n) : ∃ i : Fin order.length, i.val < n ∧ order.get i = x := by
  obtain ⟨i, hi, hx⟩ := List.mem_iff_getElem.1 h
  rw [List.length_take] at hi
  refine ⟨⟨i, hi.trans_le (min_le_right _ _)⟩, hi.trans_le (min_le_left _ _), ?_⟩
  rw [← hx, List.getElem_take]
  rfl

theorem mem_drop_get {x : Id} {n : ℕ} (h : x ∈ order.drop n) : ∃ i : Fin order.length, n ≤ i.val ∧ order.get i = x := by
  obtain ⟨i, hi, hx⟩ := List.mem_iff_getElem.1 h
  rw [List.length_drop] at hi
  refine ⟨⟨n + i, by omega⟩, Nat.le_add_right _ _, ?_⟩
  rw [← hx, List.getElem_drop]
  rfl

theorem place_between (hsorted : Descending g order) (hij : i.val + 1 = j.val)
    (hi : priority ≤ g (order.get i)) (hj : g (order.get j) ≤ priority) : Place g order priority j.val := by
  refine ⟨j.isLt.le, fun x hx => ?_, fun x hx => ?_⟩
  · obtain ⟨k, hk, rfl⟩ := mem_take_get hx
    exact hi.trans (hsorted.le (Fin.le_def.2 (by omega)))
  · obtain ⟨k, hk, rfl⟩ := mem_drop_get hx
    exact (hsorted.le (Fin.le_def.2 hk)).trans hj

theorem place_start (hsorted : Descending g order) (hzero : j.val = 0)
    (hj : g (order.get j) ≤ priority) : Place g order priority 0 := by
  refine ⟨Nat.zero_le _, fun x hx => absurd hx (by simp), fun x hx => ?_⟩
  obtain ⟨k, -, rfl⟩ := mem_drop_get hx
  exact (hsorted.le (Fin.le_def.2 (by omega))).trans hj

theorem place_end (hsorted : Descending g order) (hlast : i.val + 1 = order.length)
    (hi : priority ≤ g (order.get i)) : Place g order priority order.length := by
  refine ⟨le_rfl, fun x hx => ?_, fun x hx => absurd hx (by simp)⟩
  obtain ⟨k, -, rfl⟩ := mem_take_get hx
  exact hi.trans (hsorted.le (Fin.le_def.2 (by omega)))

theorem place_empty (h : order.length = 0) : Place g order priority 0 := by
  rw [List.length_eq_zero_iff] at h
  subst h
  exact ⟨le_rfl, fun x hx => absurd hx (by simp), fun x hx => absurd hx (by simp)⟩

variable {ratio : Id → Work U128} (hratio : ∀ x ∈ order, (ratio x).result = .ok (g x))

include hratio in
theorem result_get (i : Fin order.length) : (ratio (order.get i)).result = .ok (g (order.get i)) :=
  hratio _ (List.get_mem order i)

include hratio in
theorem result_valid_start (j : Fin order.length) : (valid ratio order priority none (some j)).result =
    .ok (if j.val = 0 ∧ g (order.get j) ≤ priority then some 0 else none) := by
  unfold valid
  by_cases h : j.val = 0
  · simp only [h, if_true, true_and, result_bind, result_get hratio, ok_bind, result_pure]
  · simp only [h, if_false, false_and, result_pure]

include hratio in
theorem result_valid_end (i : Fin order.length) : (valid ratio order priority (some i) none).result =
    .ok (if i.val + 1 = order.length ∧ priority ≤ g (order.get i) then some order.length else none) := by
  unfold valid
  by_cases h : i.val + 1 = order.length
  · simp only [h, if_true, true_and, result_bind, result_get hratio, ok_bind, result_pure]
  · simp only [h, if_false, false_and, result_pure]

include hratio in
theorem result_valid_between (i j : Fin order.length) : (valid ratio order priority (some i) (some j)).result =
    .ok (if i.val + 1 = j.val ∧ priority ≤ g (order.get i) ∧ g (order.get j) ≤ priority then some j.val else none) := by
  unfold valid
  by_cases h : i.val + 1 = j.val
  · by_cases hi : priority ≤ g (order.get i)
    · simp only [h, hi, if_true, true_and, result_bind, result_get hratio, ok_bind, result_pure]
    · simp only [h, hi, if_true, if_false, true_and, false_and, result_bind, result_get hratio, ok_bind,
        result_pure]
  · simp only [h, if_false, false_and, result_pure]

include hratio in
theorem valid_sound (hsorted : Descending g order) (u l : Option (Fin order.length)) :
    ∃ found, (valid ratio order priority u l).result = .ok found ∧
      ∀ place, found = some place → Place g order priority place := by
  rcases u with _ | i
  · rcases l with _ | j
    · refine ⟨_, rfl, fun place h => ?_⟩
      split_ifs at h with hn
      cases h
      exact place_empty hn
    · refine ⟨_, result_valid_start hratio j, fun place h => ?_⟩
      split_ifs at h with hj
      cases h
      exact place_start hsorted hj.1 hj.2
  · rcases l with _ | j
    · refine ⟨_, result_valid_end hratio i, fun place h => ?_⟩
      split_ifs at h with hi
      cases h
      exact place_end hsorted hi.1 hi.2
    · refine ⟨_, result_valid_between hratio i j, fun place h => ?_⟩
      split_ifs at h with hij
      cases h
      exact place_between hsorted hij.1 hij.2.1 hij.2.2

include hratio in
theorem climb_spec (hsorted : Descending g order) {j : ℕ} (hlt : j < order.length)
    (hj : g (order.get ⟨j, hlt⟩) ≤ priority) :
    ∃ place, (climb ratio order priority j hlt).result = .ok place ∧ Place g order priority place := by
  induction j with
  | zero =>
    refine ⟨0, ?_, place_start hsorted rfl hj⟩
    simp only [climb, result_bind, result_charge, ok_bind, result_valid_start hratio]
    rw [if_pos ⟨trivial, hj⟩, Metered.result_okOr_some]
  | succ j ih =>
    simp only [climb, result_bind, result_charge, ok_bind, result_valid_between hratio]
    by_cases hi : priority ≤ g (order.get ⟨j, Nat.lt_of_succ_lt hlt⟩)
    · rw [if_pos ⟨trivial, hi, hj⟩]
      exact ⟨j + 1, rfl, place_between hsorted rfl hi hj⟩
    · rw [if_neg (fun h => hi h.2.1)]
      exact ih _ (not_le.1 hi).le

include hratio in
theorem descend_spec (hsorted : Descending g order) {rest i : ℕ} (hlen : i + rest + 1 = order.length)
    (hi : priority ≤ g (order.get ⟨i, by omega⟩)) :
    ∃ place, (descend ratio order priority rest i hlen).result = .ok place ∧ Place g order priority place := by
  induction rest generalizing i with
  | zero =>
    refine ⟨order.length, ?_, place_end hsorted (i := ⟨i, by omega⟩) hlen hi⟩
    simp only [descend, result_bind, result_charge, ok_bind, result_valid_end hratio]
    rw [if_pos ⟨hlen, hi⟩, Metered.result_okOr_some]
  | succ rest ih =>
    simp only [descend, result_bind, result_charge, ok_bind, result_valid_between hratio]
    by_cases hj : g (order.get ⟨i + 1, by omega⟩) ≤ priority
    · rw [if_pos ⟨trivial, hi, hj⟩]
      exact ⟨i + 1, rfl, place_between hsorted (i := ⟨i, by omega⟩) (j := ⟨i + 1, by omega⟩) rfl hi hj⟩
    · rw [if_neg (fun h => hj h.2.2)]
      exact ih (by omega) (not_le.1 hj).le

include hratio in
theorem keepHint_spec (drops : U128 → Prop) [DecidablePred drops] (hint : Option (Fin order.length)) :
    ∃ kept, (keepHint ratio order drops hint).result = .ok kept ∧ ∀ i, kept = some i → ¬ drops (g (order.get i)) := by
  rcases hint with _ | i
  · exact ⟨none, rfl, fun i h => nomatch h⟩
  · refine ⟨if drops (g (order.get i)) then none else some i, ?_, fun j h => ?_⟩
    · simp only [keepHint, result_bind, result_get hratio, ok_bind, result_pure]
    · split_ifs at h with hdrops
      cases h
      exact hdrops

include hratio in
theorem searchUp_spec (hsorted : Descending g order) (hj : g (order.get j) ≤ priority) :
    ∃ place, (searchUp ratio order priority j).result = .ok place ∧ Place g order priority place := by
  have hclimb := climb_spec hratio hsorted j.isLt hj
  unfold searchUp
  by_cases hlast : j.val + 1 = order.length
  · rw [if_pos hlast, result_bind, result_get hratio, ok_bind, result_ite]
    by_cases h : priority ≤ g (order.get j)
    · rw [if_pos h]
      exact ⟨order.length, rfl, place_end hsorted hlast h⟩
    · rw [if_neg h]
      exact hclimb
  · rw [if_neg hlast]
    exact hclimb

include hratio in
theorem searchDown_spec (hsorted : Descending g order) {u : Option (Fin order.length)}
    (hu : ∀ i, u = some i → priority ≤ g (order.get i)) :
    ∃ place, (searchDown ratio order priority u).result = .ok place ∧ Place g order priority place := by
  unfold searchDown
  by_cases hn : order.length = 0
  · rw [dif_pos hn]
    exact ⟨0, rfl, place_empty hn⟩
  · have hpos := Nat.pos_of_ne_zero hn
    have hdescend (hi : priority ≤ g (order.get (u.getD ⟨0, hpos⟩))) := @descend_spec g order priority ratio hratio
      hsorted (order.length - 1 - (u.getD ⟨0, hpos⟩).val) (u.getD ⟨0, hpos⟩).val (by omega) hi
    rw [dif_neg hn]
    dsimp only
    by_cases hzero : (u.getD ⟨0, hpos⟩).val = 0
    · have hfirst : u.getD ⟨0, hpos⟩ = ⟨0, hpos⟩ := Fin.ext hzero
      rw [if_pos hzero, result_bind, result_get hratio, ok_bind, result_ite]
      by_cases h : g (order.get ⟨0, hpos⟩) ≤ priority
      · rw [if_pos h]
        exact ⟨0, rfl, place_start hsorted rfl h⟩
      · rw [if_neg h]
        apply hdescend
        rw [hfirst]
        exact (not_le.1 h).le
    · rw [if_neg hzero]
      apply hdescend
      rcases u with _ | i
      · exact absurd rfl hzero
      · exact hu i rfl

include hratio in
theorem searchFrom_spec (hsorted : Descending g order) (upper lower : Option (Fin order.length)) :
    ∃ place, (searchFrom ratio order priority upper lower).result = .ok place ∧ Place g order priority place := by
  obtain ⟨u, hu, hupper⟩ := keepHint_spec hratio (· < priority) upper
  obtain ⟨l, hl, hlower⟩ := keepHint_spec hratio (priority < ·) lower
  have hdown := searchDown_spec hratio hsorted (u := u) (fun i hi => not_lt.1 (hupper i hi))
  unfold searchFrom
  simp only [result_bind, hu, hl, ok_bind]
  rcases u with _ | i
  · rcases l with _ | j
    · exact hdown
    · exact searchUp_spec hratio hsorted (not_lt.1 (hlower j rfl))
  · exact hdown

include hratio in
/-- **The search.** Whatever the hints are, it ends at a place. -/
theorem searchPlace_spec (hsorted : Descending g order) (upper lower : Option Id) :
    ∃ place, (searchPlace ratio order priority upper lower).result = .ok place ∧ Place g order priority place := by
  have hfrom : ∃ place, (searchFrom ratio order priority (find order upper) (find order lower)).result = .ok place ∧
      Place g order priority place := searchFrom_spec hratio hsorted _ _
  unfold searchPlace
  by_cases hpresent : ((upper.isNone || (find order upper).isSome) && (lower.isNone || (find order lower).isSome)) = true
  · have hvalid : ∃ found, (valid ratio order priority (find order upper) (find order lower)).result = .ok found ∧
        ∀ place, found = some place → Place g order priority place := valid_sound hratio hsorted _ _
    obtain ⟨found, hfound, hplace⟩ := hvalid
    simp only [if_pos hpresent, result_bind, hfound, ok_bind]
    rcases found with _ | place
    · exact hfrom
    · exact ⟨place, rfl, hplace place rfl⟩
  · simp only [if_neg hpresent, result_bind, result_pure, ok_bind]
    exact hfrom

end Place

/-! ## The order after the insertion -/

section Insertion

variable {g : Id → U128} {order : List Id} {priority : U128} {place : ℕ}

theorem insertIdx_eq (id : Id) (h : place ≤ order.length) :
    order.insertIdx place id = order.take place ++ id :: order.drop place := by
  induction order generalizing place with
  | nil =>
    obtain rfl : place = 0 := Nat.le_zero.1 h
    rfl
  | cons x order ih =>
    cases place with
    | zero => rfl
    | succ place =>
      rw [List.insertIdx_succ_cons, ih (Nat.le_of_succ_le_succ h)]
      rfl

variable {id : Id}

theorem update_others (hid : id ∉ order) {x : Id} (hx : x ∈ order) :
    Function.update g id priority x = g x := by
  refine Function.update_of_ne (fun heq => hid ?_) _ _
  rw [← heq]
  exact hx

theorem descending_insertIdx (hsorted : Descending g order) (hplace : Place g order priority place)
    (hid : id ∉ order) : Descending (Function.update g id priority) (order.insertIdx place id) := by
  have hsorted' : Descending (Function.update g id priority) order := by
    refine hsorted.imp_of_mem fun ha hb hle => ?_
    rw [update_others hid ha, update_others hid hb]
    exact hle
  have hsplit : order.Pairwise _ := hsorted'
  rw [← List.take_append_drop place order, List.pairwise_append] at hsplit
  obtain ⟨hbefore, hbehind, hcross⟩ := hsplit
  rw [insertIdx_eq id hplace.le_length]
  refine List.pairwise_append.2 ⟨hbefore, List.pairwise_cons.2 ⟨fun x hx => ?_, hbehind⟩, fun x hx y hy => ?_⟩
  · rw [Function.update_self, update_others hid (List.mem_of_mem_drop hx)]
    exact hplace.behind x hx
  · rcases List.mem_cons.1 hy with rfl | hy
    · rw [Function.update_self, update_others hid (List.mem_of_mem_take hx)]
      exact hplace.before x hx
    · exact hcross x hx y hy

theorem filter_insertIdx (hid : id ∉ order) (h : place ≤ order.length) :
    (order.insertIdx place id).filter (· ≠ id) = order := by
  have hkeep (l : List Id) (hl : ∀ x ∈ l, x ∈ order) : l.filter (· ≠ id) = l := by
    refine List.filter_eq_self.2 fun x hx => ?_
    simp only [ne_eq, decide_not, Bool.not_eq_eq_eq_not, Bool.not_true, decide_eq_false_iff_not]
    exact fun heq => hid (heq ▸ hl x hx)
  rw [insertIdx_eq id h, List.filter_append, List.filter_cons_of_neg (by simp),
    hkeep _ (fun x => List.mem_of_mem_take), hkeep _ (fun x => List.mem_of_mem_drop), List.take_append_drop]

theorem count_insertIdx (hid : id ∉ order) (h : place ≤ order.length) :
    (order.insertIdx place id).count id = 1 := by
  rw [insertIdx_eq id h, List.count_append, List.count_cons_self,
    List.count_eq_zero_of_not_mem (fun hmem => hid (List.mem_of_mem_take hmem)),
    List.count_eq_zero_of_not_mem (fun hmem => hid (List.mem_of_mem_drop hmem))]

theorem map_insertIdx {place' : ℕ} (hid : id ∉ order) (hsorted : Descending g order)
    (hplace : Place g order priority place) (hplace' : Place g order priority place') :
    (order.insertIdx place id).map (Function.update g id priority) =
      (order.insertIdx place' id).map (Function.update g id priority) := by
  have hperm : (order.insertIdx place id).Perm (order.insertIdx place' id) :=
    (List.perm_insertIdx id order hplace.le_length).trans (List.perm_insertIdx id order hplace'.le_length).symm
  have hdescending (place : ℕ) (h : Place g order priority place) :
      ((order.insertIdx place id).map (Function.update g id priority)).Pairwise (· ≥ ·) :=
    List.pairwise_map.2 (descending_insertIdx hsorted h hid)
  exact (hperm.map _).eq_of_pairwise (fun a b _ _ hab hba => le_antisymm hba hab) (hdescending _ hplace)
    (hdescending _ hplace')

theorem place_unique {place' : ℕ} (hplace : Place g order priority place) (hplace' : Place g order priority place')
    (hnone : ∀ x ∈ order, g x ≠ priority) : place = place' := by
  have hle : ∀ {m n : ℕ}, Place g order priority m → Place g order priority n → ¬ m < n := by
    intro m n hm hn hlt
    have hlength : m < order.length := hlt.trans_le hn.le_length
    have hbehind := hm.behind order[m] (List.mem_drop_iff_getElem.2 ⟨0, by simpa using hlength, by simp⟩)
    have hbefore := hn.before order[m] (List.mem_take_iff_getElem.2 ⟨m, lt_min hlt hlength, rfl⟩)
    exact hnone _ (List.getElem_mem hlength) (le_antisymm hbehind hbefore)
  exact le_antisymm (not_lt.1 (hle hplace' hplace)) (not_lt.1 (hle hplace hplace'))

end Insertion

/-- what a reinsertion does to a book: the vault stands once among the others, whose order is kept, at a place of its
ratio -/
structure Reinserted (g : Id → U128) (book : Book) (id : Id) (priority : U128) (book' : Book) : Prop where
  unchanged : book' = { book with order := book'.order }
  once : book'.order.count id = 1
  others : book'.order.filter (· ≠ id) = book.order.filter (· ≠ id)
  sorted : Descending (Function.update g id priority) book'.order

/-- **Reinsertion.** With the other vaults in descending order of their ratios it ends, without a failure of its own, in a
book that lists the vault once at a place of its ratio, whichever hints are given; a budget can only be too small for
that. Two pairs of hints give the same ratios along the order, and the same order when no other vault has this ratio. -/
theorem cut_exact (book : Book) (id : Id) (priority : U128) (g : Id → U128)
    (hfresh : ∀ x ∈ book.order, x ≠ id → (fresh book x).result = .ok (g x))
    (hsorted : Descending g (book.order.filter (· ≠ id))) :
    ∃ outcome : Option Id → Option Id → Book, ∀ upper lower,
      (cut book id priority upper lower).result = .ok (outcome upper lower) ∧
      (∀ limits, (∀ lane, spent (cut book id priority upper lower) lane ≤ limits lane ∧ limits lane ≤ u64Max) →
        (run limits (cut book id priority upper lower)).1 = .ok (outcome upper lower)) ∧
      (∀ limits e, (run limits (cut book id priority upper lower)).1 = .error e → e.IsBudget) ∧
      Reinserted g book id priority (outcome upper lower) ∧
      ∀ upper' lower',
        (outcome upper' lower').order.map (Function.update g id priority) =
          (outcome upper lower).order.map (Function.update g id priority) ∧
        ((∀ x ∈ book.order, x ≠ id → g x ≠ priority) → outcome upper' lower' = outcome upper lower) := by
  have hratio : ∀ x ∈ book.order.filter (· ≠ id), (fresh book x).result = .ok (g x) := by
    intro x hx
    obtain ⟨hmem, hne⟩ := List.mem_filter.1 hx
    exact hfresh x hmem (by simpa using hne)
  have hid : id ∉ book.order.filter (· ≠ id) := by
    intro hmem
    exact absurd (List.mem_filter.1 hmem).2 (by simp)
  have hsearch (upper lower : Option Id) : ∃ place, (searchPlace _ _ priority upper lower).result = .ok place ∧
      Place _ _ priority place := searchPlace_spec hratio hsorted upper lower
  choose place hplace hsound using hsearch
  have hcut (upper lower : Option Id) : (cut book id priority upper lower).result =
      .ok { book with order := (book.order.filter (· ≠ id)).insertIdx (place upper lower) id } := by
    unfold cut
    simp only [Metered.result_bind, hplace, ok_bind, Metered.result_pure]
  refine ⟨fun upper lower => { book with order := (book.order.filter (· ≠ id)).insertIdx (place upper lower) id },
    fun upper lower => ⟨hcut upper lower, fun limits h => ?_, fun limits e h => ?_, ?_, fun upper' lower' => ⟨?_, ?_⟩⟩⟩
  · rw [run_enough (fun lane => (h lane).1) (fun lane => (h lane).2)]
    exact hcut upper lower
  · rcases run_error h with hresult | hbudget
    · rw [hcut] at hresult
      cases hresult
    · exact hbudget
  · exact ⟨rfl, count_insertIdx hid (hsound _ _).le_length, filter_insertIdx hid (hsound _ _).le_length,
      descending_insertIdx hsorted (hsound _ _) hid⟩
  · exact map_insertIdx hid hsorted (hsound _ _) (hsound _ _)
  · intro hnone
    have hplaces : place upper' lower' = place upper lower := by
      refine place_unique (hsound _ _) (hsound _ _) fun x hx => ?_
      obtain ⟨hmem, hne⟩ := List.mem_filter.1 hx
      exact hnone x hmem (by simpa using hne)
    simp only [hplaces]

theorem index_eq (book : Book) (id : Id) :
    (index book id).result = .ok (binarySearch Vault.id id book.vaults).toOption := rfl

theorem fresh_settled {book : Book} {id : Id} {i : Fin book.vaults.length} {p : U128}
    (hindex : binarySearch Vault.id id book.vaults = .ok i) (hactive : (book.vaults.get i).status = .active)
    (hC : (book.vaults.get i).snapshotC = book.system.rewardC) (hD : (book.vaults.get i).snapshotD = book.system.rewardD)
    (hp : fit ((book.vaults.get i).collateral.val * NICR_Q.val / (book.vaults.get i).debt.val) = .ok p)
    (hdebt : (book.vaults.get i).debt.val ≠ 0) (hpos : p ≠ .zero) : (fresh book id).result = .ok p := by
  unfold fresh
  have hfound : (Metered.okOr (some i) Failure.domain : Work (Fin book.vaults.length)).result = .ok i := rfl
  rw [result_bind, index_eq, hindex, ok_bind, Except.toOption, result_bind, hfound, ok_bind,
    result_bind, effective_settled hactive hC hD, ok_bind, result_bind, muldiv_fit _ _ _ hdebt, hp,
    ok_bind, result_bind, result_failIf, ensure_bind hpos, result_pure]

/-- a book after a reinsertion lists what it listed, with the vault moved -/
theorem Reinserted.perm {g : Id → U128} {book book' : Book} {id : Id} {priority : U128}
    (h : Reinserted g book id priority book') : book'.order.Perm (id :: book.order.filter (· ≠ id)) := by
  have hself : book'.order.filter (fun x => ! decide (x ≠ id)) = [id] := by
    have hcount : book'.order.filter (fun x => ! decide (x ≠ id)) = List.replicate (book'.order.count id) id := by
      rw [← List.filter_beq]
      exact List.filter_congr fun x _ => by simp [beq_eq_decide]
    rw [hcount, h.once, List.replicate_one]
  have hsplit := List.filter_append_perm (fun x => decide (x ≠ id)) book'.order
  rw [h.others, hself] at hsplit
  exact hsplit.symm.trans List.perm_append_comm

def firstId : Id := ⟨1, by decide⟩
def secondId : Id := ⟨2, by decide⟩
def thirdId : Id := ⟨3, by decide⟩

def tripleVault (id : Id) (collateral : U128) : Vault := { richVault with id, owner := id, collateral }

/-- three vaults with the ratios 3, 2.5 and 2, the second and the third created in the other order -/
def tripleBook : Book :=
  { vaults := [tripleVault firstId ⟨3000, by decide⟩, tripleVault secondId ⟨2000, by decide⟩,
      tripleVault thirdId ⟨2500, by decide⟩]
    order := [firstId, thirdId, secondId], priorities := [], system := richSystem
    defaultCollateral := .zero, defaultDebt := .zero, errorC := .zero, errorD := .zero, gasBalance := .zero
    surplus := []
    pool := {
      total := .zero, p := Q, epoch := .zero, scale := .zero, errorS := .zero, errorLoss := .zero, errorG := .zero,
      collateral := .zero, stock := ⟨.zero, .zero, .zero, .zero, .zero⟩, history := [], epochs := [] } }

/-- the ratios of the vaults that stay -/
def tripleRatio (id : Id) : U128 :=
  if id = thirdId then ⟨250000000000000000000, by decide⟩ else ⟨200000000000000000000, by decide⟩

/-- a ratio between those of the two other vaults -/
def middlePriority : U128 := ⟨220000000000000000000, by decide⟩

theorem tripleBook_fresh : ∀ x ∈ tripleBook.order, x ≠ firstId →
    (fresh tripleBook x).result = .ok (tripleRatio x) := by
  intro x hx hne
  have hcases : x = firstId ∨ x = thirdId ∨ x = secondId := by simpa [tripleBook] using hx
  rcases hcases with rfl | rfl | rfl
  · exact absurd rfl hne
  · have hratio : fit (2500 * NICR_Q.val / 1000) = .ok (tripleRatio thirdId) := fit_ok (by decide)
    exact fresh_settled (i := ⟨2, by decide⟩) (by decide) rfl rfl rfl hratio (by decide) (by decide)
  · have hratio : fit (2000 * NICR_Q.val / 1000) = .ok (tripleRatio secondId) := fit_ok (by decide)
    exact fresh_settled (i := ⟨1, by decide⟩) (by decide) rfl rfl rfl hratio (by decide) (by decide)

theorem tripleBook_descending : Descending tripleRatio (tripleBook.order.filter (· ≠ firstId)) := by
  have horder : tripleBook.order.filter (· ≠ firstId) = [thirdId, secondId] := by decide
  rw [Descending, horder]
  exact List.pairwise_pair.2 (by decide)

/-- the first vault is put back between the two others, by hints that name these the wrong way round -/
theorem cut_exact_stale :
    (cut tripleBook firstId middlePriority (some secondId) (some thirdId)).result =
      .ok { tripleBook with order := [thirdId, firstId, secondId] } := by
  obtain ⟨outcome, h⟩ := cut_exact tripleBook firstId middlePriority tripleRatio tripleBook_fresh
    tripleBook_descending
  obtain ⟨hcut, -, -, hplaced, -⟩ := h (some secondId) (some thirdId)
  have horder : (outcome (some secondId) (some thirdId)).order = [thirdId, firstId, secondId] := by
    have hperm : (outcome (some secondId) (some thirdId)).order.Perm [thirdId, firstId, secondId] :=
      hplaced.perm.trans (by decide)
    -- the three ratios differ, so that the descending order is one only
    have hdiffer : ∀ a ∈ [thirdId, firstId, secondId], ∀ b ∈ [thirdId, firstId, secondId],
        Function.update tripleRatio firstId middlePriority b ≤ Function.update tripleRatio firstId middlePriority a →
        Function.update tripleRatio firstId middlePriority a ≤ Function.update tripleRatio firstId middlePriority b →
        a = b := by decide
    exact List.Perm.eq_of_pairwise (fun a b ha hb => hdiffer a (hperm.mem_iff.1 ha) b hb)
      hplaced.sorted (by decide) hperm
  rw [hcut, hplaced.unchanged, horder]

end Redemption

end ZenoFcis.Zusd
