/-
The repair of an order after a redistribution is the stable sort.

A valid state holds for every active vault the priority that its amounts and the rewards give, and its order is a
permutation of the active vaults (`validate_ok`). Over such a state one step of the repair inserts an entry after the
entries that are not smaller (`result_repair`), so the whole repair is the stable order, and the law over pairs accepts
exactly that order (`law_iff`).

Result: `redistribute_exact`.
-/
import ZenoFcis.Lib.StableOrder
import ZenoFcis.Tables.Redemption

namespace ZenoFcis.Tables

open Lib Lib.Except Lib.Metered Lib.StableSort ZenoFcis.Finite OrderDual
open Oracle (failIf failIf_ok exists_unit)

/-! ## Loops -/

theorem result_forEach {α : Type} {l : List α} {body : α → Work Unit} :
    (forEach l body).result = .ok () ↔ ∀ a ∈ l, (body a).result = .ok () := by
  induction l with
  | nil => exact iff_of_true rfl nofun
  | cons a l ih =>
    rw [forEach, result_bind, bind_eq_ok, List.forall_mem_cons, ← ih]
    exact exists_unit

theorem forEach_ok {α : Type} {l : List α} {body : α → Work Unit} (h : ∀ a ∈ l, (body a).result = .ok ()) :
    (forEach l body).result = .ok () := result_forEach.2 h

@[simp] theorem result_visit : visit.result = .ok () := rfl

@[simp] theorem result_pcmp (a b : U128) : (pcmp a b).result = .ok (compare a.toNat b.toNat) := rfl

theorem result_fold {α β : Type} {f : β → α → Work β} {g : β → α → β} (h : ∀ b a, (f b a).result = .ok (g b a))
    (l : List α) (b : β) : (l.foldlM f b).result = .ok (l.foldl g b) := by
  rw [result_foldlM]
  simp only [h]
  exact List.foldlM_pure

section Last

variable {α β : Type} {P : α → Prop} [DecidablePred P] {g : α → β} {l : List α} {a : α} {b : β}

/-- the last member that a search accepts -/
def lastOf (P : α → Prop) [DecidablePred P] (g : α → β) (l : List α) : Option β :=
  l.foldl (fun out a => if P a then some (g a) else out) none

theorem lastOf_snoc : lastOf P g (l ++ [a]) = if P a then some (g a) else lastOf P g l := by
  simp only [lastOf, List.foldl_append, List.foldl_cons, List.foldl_nil]

theorem lastOf_some (h : lastOf P g l = some b) : ∃ a ∈ l, P a ∧ g a = b := by
  induction l using List.reverseRecOn with
  | nil => cases h
  | append_singleton l a ih =>
    rw [lastOf_snoc] at h
    split_ifs at h with hp
    · exact ⟨a, by simp, hp, Option.some.inj h⟩
    · obtain ⟨c, hc, hpc, hgc⟩ := ih h
      exact ⟨c, List.mem_append_left _ hc, hpc, hgc⟩

theorem lastOf_isSome (ha : a ∈ l) (hp : P a) : ∃ b, lastOf P g l = some b := by
  induction l using List.reverseRecOn with
  | nil => cases ha
  | append_singleton l c ih =>
    rw [lastOf_snoc]
    split_ifs with hpc
    · exact ⟨_, rfl⟩
    · rcases List.mem_append.1 ha with ha | ha
      · exact ih ha
      · rw [List.mem_singleton.1 ha] at hp
        exact absurd hp hpc

theorem lastOf_unique (ha : a ∈ l) (hp : P a) (hunique : ∀ c ∈ l, P c → g c = g a) : lastOf P g l = some (g a) := by
  obtain ⟨b, hb⟩ := lastOf_isSome (g := g) ha hp
  obtain ⟨c, hc, hpc, rfl⟩ := lastOf_some hb
  rw [hb, hunique c hc hpc]

end Last

/-! ## Look-ups -/

/-- the priority that a table holds for a vault -/
def held (table : List (UInt32 × U128)) (id : UInt32) : Option U128 := lastOf (fun row => row.1 = id) Prod.snd table

theorem result_priority {s : State} {id : UInt32} {q : U128} (h : held s.priorities id = some q) :
    (priority s id).result = .ok q := by
  rw [priority, result_bind, result_fold (g := fun out row => if row.1 = id then some row.2 else out) fun _ _ => rfl]
  change (okOr (held s.priorities id) Failure.undefined : Work U128).result = _
  rw [h]
  rfl

theorem priority_ok {s : State} {id : UInt32} {q : U128} (h : (priority s id).result = .ok q) :
    held s.priorities id = some q := by
  rw [priority, result_bind, result_fold (g := fun out row => if row.1 = id then some row.2 else out) fun _ _ => rfl] at h
  exact result_okOr_eq_ok.1 h

variable {v : Vault} {table rows out : List (UInt32 × U128)} {order : List UInt32} {pre post : State}

theorem vaultAt_ok {s : State} {id : UInt32} (h : (vaultAt s id).result = .ok v) : v ∈ s.vaults ∧ v.id = id := by
  rw [vaultAt, index, result_bind, result_bind,
    result_fold (g := fun out row => if row.1.id = id then some row.2 else out) fun _ _ => rfl] at h
  obtain ⟨i, hi, hv⟩ := bind_eq_ok.1 h
  obtain ⟨⟨w, j⟩, hrow, hid, rfl⟩ := lastOf_some (P := fun row : Vault × ℕ => row.1.id = id) (result_okOr_eq_ok.1 hi)
  rw [result_okOr_eq_ok] at hv
  obtain rfl := Option.some.inj ((List.mem_zipIdx_iff_getElem?.1 hrow).symm.trans hv)
  exact ⟨List.mem_of_getElem? hv, hid⟩

theorem held_mem {id : UInt32} {q : U128} (h : held table id = some q) :
    (id, q) ∈ table := by
  obtain ⟨⟨k, r⟩, hrow, hk, hr⟩ := lastOf_some h
  obtain rfl : k = id := hk
  obtain rfl : r = q := hr
  exact hrow

theorem held_of_mem {id : UInt32} (h : id ∈ table.map Prod.fst) :
    ∃ q, held table id = some q := by
  obtain ⟨row, hrow, rfl⟩ := List.mem_map.1 h
  exact lastOf_isSome (P := fun other : UInt32 × U128 => other.1 = row.1) hrow rfl

theorem place_eq (hnodup : order.Nodup) {id : UInt32} {k : ℕ} (h : order[k]? = some id) :
    place order id = some k := by
  refine lastOf_unique (P := fun row : UInt32 × ℕ => row.1 = id) (g := Prod.snd) (a := (id, k))
    (List.mem_zipIdx_iff_getElem?.2 h) rfl ?_
  intro ⟨x, j⟩ hrow hid
  obtain rfl : x = id := hid
  have hsame := h.trans (List.mem_zipIdx_iff_getElem?.1 hrow).symm
  exact ((List.getElem?_inj (List.getElem?_eq_some_iff.1 h).1 hnodup).1 hsame).symm

/-! ## Admission -/

def activeIds (s : State) : List UInt32 := (s.vaults.filter Vault.active).map Vault.id

/-- the ratio of a vault under the rewards of a state -/
def vaultRatio (s : State) (v : Vault) : Work U128 := do
  let (c, d) ← effective s v
  nicr c d

/-- what admission says about the order and the priorities -/
structure Valid (s : State) : Prop where
  short : s.order.length < 2 ^ 32
  charged : (chargeState s).result = .ok ()
  ids : (s.vaults.map Vault.id).Pairwise (· < ·)
  keys : s.priorities.map Prod.fst = activeIds s
  order : s.order.Perm (activeIds s)
  fresh : ∀ v ∈ s.vaults, v.active = true → ∃ q, (vaultRatio s v).result = .ok q ∧ held s.priorities v.id = some q

theorem pairwise_windows {α κ : Type} [LinearOrder κ] {f : α → κ} {l : List α}
    (h : ∀ pair ∈ windows l, ¬ f pair.2 ≤ f pair.1) : (l.map f).Pairwise (· < ·) := by
  induction l with
  | nil => exact .nil
  | cons a l ih =>
    cases l with
    | nil => exact List.pairwise_singleton _ _
    | cons b l =>
      have hfirst : f a < f b := not_le.1 (h (a, b) (by simp [windows]))
      have hrest := ih fun pair hpair => h pair (List.mem_cons_of_mem _ hpair)
      rw [List.map_cons, List.pairwise_cons]
      refine ⟨?_, hrest⟩
      intro k hk
      rw [List.map_cons, List.pairwise_cons] at hrest
      rcases List.mem_cons.1 hk with rfl | hk
      · exact hfirst
      · exact hfirst.trans (hrest.1 k hk)

theorem admitKeys_ok (h : (admitKeys table).result = .ok ()) :
    (table.map Prod.fst).Pairwise (· < ·) := by
  apply pairwise_windows
  intro pair hpair
  have hbody := result_forEach.1 h pair hpair
  simp only [result_bind, result_visit, result_step, result_charge, ok_bind] at hbody
  exact failIf_ok.1 hbody

theorem admitVault_ok {p : Policy} {s : State} {t t' : Totals} {row : Vault × ℕ}
    (h : (admitVault p s t row).result = .ok t') :
    t'.active = t.active + (if row.1.active then 1 else 0) ∧
      (row.1.active = true → ∃ q, (vaultRatio s row.1).result = .ok q ∧ held s.priorities row.1.id = some q) := by
  unfold admitVault at h
  simp only [result_bind, result_visit, ok_bind] at h
  obtain ⟨_, -, h⟩ := bind_eq_ok.1 h
  cases hactive : row.1.active with
  | false =>
    rw [hactive] at h
    simp only [Bool.false_eq_true, not_false_eq_true, if_true, result_bind, result_pure] at h
    obtain ⟨_, -, h⟩ := bind_eq_ok.1 h
    exact ⟨(congrArg Totals.active (Except.ok.inj h)).symm, nofun⟩
  | true =>
    rw [hactive] at h
    simp only [not_true_eq_false, if_false, result_bind, result_pure] at h
    obtain ⟨_, -, h⟩ := bind_eq_ok.1 h
    obtain ⟨_, -, h⟩ := bind_eq_ok.1 h
    obtain ⟨_, -, h⟩ := bind_eq_ok.1 h
    obtain ⟨_, -, h⟩ := bind_eq_ok.1 h
    obtain ⟨⟨c, d⟩, heffective, h⟩ := bind_eq_ok.1 h
    obtain ⟨_, -, h⟩ := bind_eq_ok.1 h
    obtain ⟨_, -, h⟩ := bind_eq_ok.1 h
    obtain ⟨_, -, h⟩ := bind_eq_ok.1 h
    obtain ⟨_, -, h⟩ := bind_eq_ok.1 h
    obtain ⟨fresh, hfresh, h⟩ := bind_eq_ok.1 h
    obtain ⟨_, -, h⟩ := bind_eq_ok.1 h
    obtain ⟨q, hheld, h⟩ := bind_eq_ok.1 h
    rw [result_pcmp, ok_bind] at h
    obtain ⟨_, heq, h⟩ := bind_eq_ok.1 h
    have hequal := failIf_ok.1 heq
    rw [not_not, compare_eq_iff_eq] at hequal
    refine ⟨(congrArg Totals.active (Except.ok.inj h)).symm, fun _ => ⟨fresh, ?_, ?_⟩⟩
    · rw [vaultRatio, result_bind, heffective]
      exact hfresh
    · rw [priority_ok hheld, BitVec.eq_of_toNat_eq hequal]

theorem admitVaults_ok {p : Policy} {s : State} {rows : List (Vault × ℕ)} {t t' : Totals}
    (h : (rows.foldlM (admitVault p s) t).result = .ok t') :
    t'.active = t.active + ((rows.map Prod.fst).filter Vault.active).length ∧
      ∀ row ∈ rows, row.1.active = true →
        ∃ q, (vaultRatio s row.1).result = .ok q ∧ held s.priorities row.1.id = some q := by
  induction rows generalizing t with
  | nil =>
    cases h
    exact ⟨rfl, nofun⟩
  | cons row rows ih =>
    rw [List.foldlM_cons, result_bind] at h
    obtain ⟨t₁, hrow, h⟩ := bind_eq_ok.1 h
    obtain ⟨hcount, hfresh⟩ := admitVault_ok hrow
    obtain ⟨hcounts, hall⟩ := ih h
    refine ⟨?_, List.forall_mem_cons.2 ⟨hfresh, hall⟩⟩
    rw [hcounts, hcount, List.map_cons, List.filter_cons]
    split_ifs with hactive
    · rw [List.length_cons]
      omega
    · rfl

theorem admitEntry_ok {s : State} {row : UInt32 × ℕ} (h : (admitEntry s row).result = .ok ()) :
    row.1 ∈ activeIds s ∧ ∀ other ∈ s.order.take row.2, row.1 ≠ other := by
  unfold admitEntry at h
  simp only [result_bind, result_visit, ok_bind] at h
  obtain ⟨v, hv, h⟩ := bind_eq_ok.1 h
  obtain ⟨_, hactive, h⟩ := bind_eq_ok.1 h
  obtain ⟨_, hnew, -⟩ := bind_eq_ok.1 h
  obtain ⟨hmem, hid⟩ := vaultAt_ok hv
  have hactive := failIf_ok.1 hactive
  rw [Bool.not_eq_false] at hactive
  refine ⟨List.mem_map.2 ⟨v, List.mem_filter.2 ⟨hmem, hactive⟩, hid⟩, ?_⟩
  intro other hother
  have hbody := result_forEach.1 hnew other hother
  simp only [result_bind, result_visit, ok_bind] at hbody
  exact failIf_ok.1 hbody

theorem nodup_of_new (h : ∀ row ∈ order.zipIdx, ∀ other ∈ order.take row.2, row.1 ≠ other) :
    order.Nodup := by
  rw [List.Nodup, List.pairwise_iff_getElem]
  intro i j hi hj hij heq
  have hrow : (order[j], j) ∈ order.zipIdx := List.mem_zipIdx_iff_getElem?.2 (List.getElem?_eq_getElem hj)
  refine h _ hrow order[i] ?_ heq.symm
  rw [List.mem_take_iff_getElem]
  exact ⟨i, by omega, rfl⟩

theorem pairwise_lt_ne {l : List UInt32} (h : l.Pairwise (· < ·)) : l.Nodup := h.imp fun hlt => ne_of_lt hlt

theorem validate_ok {p : Policy} {s : State} (h : (validate p s).result = .ok ()) : Valid s := by
  unfold validate at h
  simp only [result_bind] at h
  obtain ⟨_, hroom, h⟩ := bind_eq_ok.1 h
  obtain ⟨_, -, h⟩ := bind_eq_ok.1 h
  obtain ⟨_, -, h⟩ := bind_eq_ok.1 h
  obtain ⟨_, hcharged, h⟩ := bind_eq_ok.1 h
  obtain ⟨_, hids, h⟩ := bind_eq_ok.1 h
  obtain ⟨_, hkeys, h⟩ := bind_eq_ok.1 h
  obtain ⟨_, -, h⟩ := bind_eq_ok.1 h
  obtain ⟨_, -, h⟩ := bind_eq_ok.1 h
  obtain ⟨_, -, h⟩ := bind_eq_ok.1 h
  obtain ⟨_, -, h⟩ := bind_eq_ok.1 h
  obtain ⟨_, -, h⟩ := bind_eq_ok.1 h
  obtain ⟨_, -, h⟩ := bind_eq_ok.1 h
  obtain ⟨_, -, h⟩ := bind_eq_ok.1 h
  obtain ⟨t, htotals, h⟩ := bind_eq_ok.1 h
  obtain ⟨_, hcounts, h⟩ := bind_eq_ok.1 h
  obtain ⟨_, hentries, -⟩ := bind_eq_ok.1 h
  have hids : (s.vaults.map Vault.id).Pairwise (· < ·) := by
    apply pairwise_windows
    intro pair hpair
    have hbody := result_forEach.1 hids pair hpair
    simp only [result_bind, result_visit, result_step, result_charge, ok_bind] at hbody
    exact failIf_ok.1 hbody
  have hactive : (activeIds s).Pairwise (· < ·) :=
    hids.sublist (List.filter_sublist.map Vault.id)
  have hkeys := admitKeys_ok hkeys
  obtain ⟨hcount, hfresh⟩ := admitVaults_ok htotals
  rw [List.zipIdx_map_fst] at hcount
  have hlength : (activeIds s).length = t.active := by
    rw [hcount, activeIds, List.length_map, Nat.zero_add]
  have hcounts := failIf_ok.1 hcounts
  simp only [not_or, not_not] at hcounts
  have hentries : ∀ row ∈ s.order.zipIdx, row.1 ∈ activeIds s ∧ ∀ other ∈ s.order.take row.2, row.1 ≠ other :=
    fun row hrow => admitEntry_ok (result_forEach.1 hentries row hrow)
  have hfresh : ∀ v ∈ s.vaults, v.active = true →
      ∃ q, (vaultRatio s v).result = .ok q ∧ held s.priorities v.id = some q := by
    intro v hv hvactive
    obtain ⟨i, hi⟩ := List.getElem?_of_mem hv
    exact hfresh (v, i) (List.mem_zipIdx_iff_getElem?.2 hi) hvactive
  have hroom := failIf_ok.1 hroom
  simp only [not_or, not_lt] at hroom
  refine ⟨hroom.2.1.trans_lt p.capacity.toNat_lt, hcharged, hids, ?_, ?_, hfresh⟩
  · -- every active vault has a priority, and there are as many of both
    have hsub : ∀ id ∈ activeIds s, id ∈ s.priorities.map Prod.fst := by
      intro id hid
      obtain ⟨v, hv, rfl⟩ := List.mem_map.1 hid
      obtain ⟨hmem, hvactive⟩ := List.mem_filter.1 hv
      obtain ⟨q, -, hheld⟩ := hfresh v hmem hvactive
      exact List.mem_map.2 ⟨_, held_mem hheld, rfl⟩
    have hperm := ((pairwise_lt_ne hactive).subperm hsub).perm_of_length_le (by rw [List.length_map]; omega)
    exact (hperm.eq_of_pairwise (fun a b _ _ hab hba => absurd hab hba.not_gt) hactive hkeys).symm
  · have hnodup := nodup_of_new fun row hrow => (hentries row hrow).2
    have hsub : ∀ id ∈ s.order, id ∈ activeIds s := by
      intro id hid
      obtain ⟨i, hi⟩ := List.getElem?_of_mem hid
      exact (hentries (id, i) (List.mem_zipIdx_iff_getElem?.2 hi)).1
    exact (hnodup.subperm hsub).perm_of_length_le (by omega)

/-! ## One step of the repair -/

/-- greater priorities stand first -/
def key (table : List (UInt32 × U128)) (id : UInt32) : ℕᵒᵈ := toDual ((held table id).elim 0 BitVec.toNat)

section Step

variable {s : State} {id x : UInt32} {p q : U128}

theorem key_eq (h : held s.priorities x = some q) : key s.priorities x = toDual q.toNat := by
  rw [key, h]
  rfl

theorem lt_iff_key (hx : held s.priorities x = some q) (hid : held s.priorities id = some p) :
    compare q.toNat p.toNat = .lt ↔ ¬ key s.priorities x ≤ key s.priorities id := by
  rw [key_eq hx, key_eq hid, toDual_le_toDual, not_le, compare_lt_iff_lt]

/-- the state of a repair: an order of entries with priorities -/
structure Repairing (s : State) : Prop where
  keys : (s.priorities.map Prod.fst).Nodup
  nodup : s.order.Nodup
  sorted : s.order.Pairwise fun a b => key s.priorities a ≤ key s.priorities b
  held : ∀ x ∈ s.order, ∃ q, held s.priorities x = some q

/-- the entries that stay before a new one -/
def front (s : State) (id : UInt32) : List UInt32 :=
  s.order.takeWhile fun x => decide (key s.priorities x ≤ key s.priorities id)

def back (s : State) (id : UInt32) : List UInt32 :=
  s.order.dropWhile fun x => decide (key s.priorities x ≤ key s.priorities id)

theorem front_back (s : State) (id : UInt32) : front s id ++ back s id = s.order := List.takeWhile_append_dropWhile

theorem front_le (hx : x ∈ front s id) : key s.priorities x ≤ key s.priorities id :=
  of_decide_eq_true (List.mem_takeWhile_imp (p := fun x => decide (key s.priorities x ≤ key s.priorities id)) hx)

theorem Repairing.back_lt (h : Repairing s) (hx : x ∈ back s id) : ¬ key s.priorities x ≤ key s.priorities id :=
  not_le.2 (lt_of_mem_dropWhile h.sorted hx)

theorem result_inverts (h : Repairing s) (hid : held s.priorities id = some p) :
    (inverts s p).result = .ok (decide (back s id ≠ [])) := by
  unfold inverts
  have hsplit := front_back s id
  cases hlast : s.order.getLast? with
  | none =>
    have hnil := List.getLast?_eq_none_iff.1 hlast
    rw [hnil, List.append_eq_nil_iff] at hsplit
    rw [hsplit.2]
    rfl
  | some last =>
    obtain ⟨q, hq⟩ := h.held last (List.mem_of_getLast? hlast)
    simp only [result_bind, result_priority hq, ok_bind, result_pcmp, result_pure, Except.ok.injEq, decide_eq_decide,
      lt_iff_key hq hid]
    rw [← hsplit] at hlast
    constructor
    · intro hgreater hnil
      rw [hnil, List.append_nil] at hlast
      exact hgreater (front_le (List.mem_of_getLast? hlast))
    · intro hne
      rw [List.getLast?_append_of_ne_nil _ hne] at hlast
      exact h.back_lt (List.mem_of_getLast? hlast)

/-- the pair that the search for the neighbours keeps -/
def keepNeighbour (s : State) (id : UInt32) (found : Option UInt32 × Option UInt32) (x : UInt32) :
    Option UInt32 × Option UInt32 :=
  if key s.priorities x ≤ key s.priorities id then (some x, found.2) else (found.1, found.2.or (some x))

theorem foldl_front {l : List UInt32} (h : ∀ x ∈ l, key s.priorities x ≤ key s.priorities id)
    (found : Option UInt32 × Option UInt32) :
    l.foldl (keepNeighbour s id) found = (l.getLast?.or found.1, found.2) := by
  induction l using List.reverseRecOn generalizing found with
  | nil => rfl
  | append_singleton l x ih =>
    rw [List.foldl_append, ih (fun y hy => h y (List.mem_append_left _ hy)), List.foldl_cons, List.foldl_nil,
      keepNeighbour, if_pos (h x (by simp)), List.getLast?_append, List.getLast?_singleton]
    rfl

theorem foldl_back {l : List UInt32} (h : ∀ x ∈ l, ¬ key s.priorities x ≤ key s.priorities id)
    (found : Option UInt32 × Option UInt32) :
    l.foldl (keepNeighbour s id) found = (found.1, found.2.or l.head?) := by
  induction l generalizing found with
  | nil => simp
  | cons x l ih =>
    rw [List.foldl_cons, keepNeighbour, if_neg (h x List.mem_cons_self), ih fun y hy => h y (List.mem_cons_of_mem _ hy),
      Option.or_assoc]
    rfl

theorem result_neighbours (h : Repairing s) (hid : held s.priorities id = some p) :
    (neighbours s p).result = .ok ((front s id).getLast?, (back s id).head?) := by
  have hbody : ∀ found, ∀ x ∈ s.order, ((do
      visit
      let q ← priority s x
      let comparison ← pcmp q p
      pure (if comparison ≠ .lt then (some x, found.2) else (found.1, found.2.or (some x))) :
        Work (Option UInt32 × Option UInt32))).result = .ok (keepNeighbour s id found x) := by
    intro found x hx
    obtain ⟨q, hq⟩ := h.held x hx
    simp only [result_bind, result_visit, ok_bind, result_priority hq, result_pcmp, result_pure, keepNeighbour, ne_eq,
      lt_iff_key hq hid, not_not]
  rw [neighbours, result_foldlM_ok hbody, ← front_back s id, List.foldl_append, foldl_front fun x hx => front_le hx,
    foldl_back fun x hx => h.back_lt hx]
  simp

theorem result_detach (hnew : id ∉ s.order) :
    (detach { s with order := s.order ++ [id] } id).result = .ok s.order := by
  have hfilter : ∀ l : List UInt32, ∀ out,
      l.foldl (fun detached x => if x ≠ id then detached ++ [x] else detached) out = out ++ l.filter (· ≠ id) := by
    intro l
    induction l with
    | nil => simp
    | cons x l ih =>
      intro out
      rw [List.foldl_cons, ih]
      by_cases hx : x = id
      · simp [hx]
      · simp [hx]
  rw [detach, result_fold (g := fun detached x => if x ≠ id then detached ++ [x] else detached) fun _ _ => rfl, hfilter,
    List.nil_append, List.filter_append, List.filter_eq_self.2]
  · simp
  · intro x hx
    simpa using fun heq : x = id => hnew (heq ▸ hx)

theorem result_anchors (detached : List UInt32) (upper lower : Option UInt32) :
    (anchors detached upper lower).result = .ok (upper.bind (place detached), lower.bind (place detached)) := by
  have hplace : ∀ anchor : Option UInt32, detached.zipIdx.foldl
      (fun out row => if some row.1 = anchor then some row.2 else out) none = anchor.bind (place detached) := by
    intro anchor
    cases anchor with
    | none => exact List.foldl_fixed' (fun row => by simp) _
    | some id => simp [place]
  have hpair : ∀ (l : List (UInt32 × ℕ)) (u v : Option ℕ), l.foldl (fun found row =>
      (if some row.1 = upper then some row.2 else found.1, if some row.1 = lower then some row.2 else found.2)) (u, v) =
        (l.foldl (fun out row => if some row.1 = upper then some row.2 else out) u,
          l.foldl (fun out row => if some row.1 = lower then some row.2 else out) v) := by
    intro l
    induction l with
    | nil => intro u v; rfl
    | cons row l ih => intro u v; exact ih _ _
  rw [anchors, result_fold (g := fun found row =>
    (if some row.1 = upper then some row.2 else found.1, if some row.1 = lower then some row.2 else found.2))
    fun _ _ => rfl, hpair, hplace, hplace]

theorem getElem_front {j : ℕ} (hj : j < s.order.length) (hlt : j < (front s id).length) : s.order[j] ∈ front s id := by
  have hget : s.order[j] = (front s id)[j] := by
    simp only [← front_back s id]
    exact List.getElem_append_left hlt
  rw [hget]
  exact List.getElem_mem hlt

theorem getElem_back {j : ℕ} (hget : s.order[j]? = some x) (hle : (front s id).length ≤ j) : x ∈ back s id := by
  rw [← front_back s id, List.getElem?_append_right hle] at hget
  exact List.mem_of_getElem? hget

section Cuts

variable {t : State} (htable : t.priorities = s.priorities)
include htable

theorem result_aboveCut (h : Repairing s) (hid : held s.priorities id = some p) {j : ℕ} (hj : j ≤ s.order.length) :
    ∃ valid, (aboveCut t s.order p j).result = .ok valid ∧ (j = (front s id).length → valid = true) := by
  cases j with
  | zero => exact ⟨true, rfl, fun _ => rfl⟩
  | succ i =>
    have hi : i < s.order.length := hj
    obtain ⟨q, hq⟩ := h.held s.order[i] (List.getElem_mem hi)
    refine ⟨decide (compare q.toNat p.toNat ≠ .lt), ?_, ?_⟩
    · rw [aboveCut, result_bind, List.getD_eq_getElem?_getD, List.getElem?_eq_getElem hi, Option.getD_some,
        result_priority (htable ▸ hq)]
      rfl
    · intro hlength
      rw [decide_eq_true_eq, ne_eq, lt_iff_key hq hid, not_not]
      exact front_le (getElem_front hi (by omega))

theorem result_belowCut (h : Repairing s) (hid : held s.priorities id = some p) (j : ℕ) :
    ∃ valid, (belowCut t s.order p j).result = .ok valid ∧ (j = (front s id).length → valid = true) := by
  cases hget : s.order[j]? with
  | none =>
    refine ⟨true, ?_, fun _ => rfl⟩
    rw [belowCut, hget]
    rfl
  | some x =>
    obtain ⟨q, hq⟩ := h.held x (List.mem_of_getElem? hget)
    refine ⟨decide (compare p.toNat q.toNat ≠ .lt), ?_, ?_⟩
    · rw [belowCut, hget]
      simp only [result_bind, result_priority (s := t) (htable ▸ hq), ok_bind, result_pcmp, result_pure]
    · intro hj
      rw [decide_eq_true_eq, ne_eq, lt_iff_key hid hq, not_not]
      exact (not_le.1 (h.back_lt (getElem_back hget hj.ge))).le

theorem result_cut (h : Repairing s) (hid : held s.priorities id = some p) {j : ℕ} (hj : j ≤ s.order.length) :
    ∃ valid : Bool, (∀ gaps : List ℕ, ((do
      step
      let above ← aboveCut t s.order p j
      let valid ← if above then belowCut t s.order p j else pure false
      pure (if valid then gaps ++ [j] else gaps) : Work (List ℕ))).result = .ok (if valid then gaps ++ [j] else gaps)) ∧
        (j = (front s id).length → valid = true) := by
  obtain ⟨above, ha, haboveOk⟩ := result_aboveCut htable h hid hj
  obtain ⟨below, hb, hbelowOk⟩ := result_belowCut htable h hid j
  cases above with
  | true =>
    refine ⟨below, fun gaps => ?_, hbelowOk⟩
    simp only [result_bind, result_step, ok_bind, ha, if_true, hb, result_pure]
  | false =>
    refine ⟨false, fun gaps => ?_, fun hj => haboveOk hj⟩
    simp only [result_bind, result_step, ok_bind, ha, Bool.false_eq_true, if_false, result_pure]

theorem front_mem_cuts (h : Repairing s) (hid : held s.priorities id = some p) :
    ∃ gaps, (cuts t s.order p).result = .ok gaps ∧ (front s id).length ∈ gaps := by
  have hcut : ∀ j, j ≤ s.order.length → _ := fun j hj => result_cut htable h hid hj
  choose! valid hbody hvalid using hcut
  have hfold : ∀ l : List ℕ, ∀ out : List ℕ,
      l.foldl (fun gaps j => if valid j then gaps ++ [j] else gaps) out = out ++ l.filter valid := by
    intro l
    induction l with
    | nil => simp
    | cons j l ih =>
      intro out
      rw [List.foldl_cons, ih, List.filter_cons]
      split_ifs with hj
      · rw [List.append_assoc, List.singleton_append]
      · rfl
  have hlength : (front s id).length ≤ s.order.length := by
    rw [← front_back s id, List.length_append]
    exact Nat.le_add_right _ _
  refine ⟨(List.range (s.order.length + 1)).filter valid, ?_, ?_⟩
  · rw [cuts, result_foldlM_ok (g := fun gaps j => if valid j then gaps ++ [j] else gaps), hfold, List.nil_append]
    intro gaps j hj
    exact hbody j (Nat.lt_succ_iff.1 (List.mem_range.1 hj)) gaps
  · rw [List.mem_filter, List.mem_range]
    exact ⟨by omega, hvalid _ hlength rfl⟩

end Cuts

theorem hinted_front (h : Repairing s) (hback : back s id ≠ []) :
    hintedCut s.order (front s id).getLast? (back s id).head?
      ((front s id).getLast?.bind (place s.order), (back s id).head?.bind (place s.order)) =
        some (front s id).length := by
  obtain ⟨y, ys, hy⟩ := List.exists_cons_of_ne_nil hback
  have hsplit := front_back s id
  have hlower : place s.order y = some (front s id).length := by
    apply place_eq h.nodup
    rw [← hsplit, hy, List.getElem?_append_right le_rfl, Nat.sub_self]
    rfl
  rw [hy, List.head?_cons, Option.bind_some, hlower]
  cases hlast : (front s id).getLast? with
  | none =>
    rw [List.getLast?_eq_none_iff.1 hlast]
    rfl
  | some x =>
    have hne : front s id ≠ [] := by
      intro hnil
      rw [hnil] at hlast
      cases hlast
    have hpos := List.length_pos_of_ne_nil hne
    have hupper : place s.order x = some ((front s id).length - 1) := by
      apply place_eq h.nodup
      rw [← hsplit, List.getElem?_append_left (by omega), ← hlast, List.getLast?_eq_getElem?]
    have hcut : (front s id).length - 1 + 1 = (front s id).length := by omega
    rw [Option.bind_some, hupper, hintedCut, if_pos hcut]

theorem insertIdx_length {α : Type} (l l' : List α) (a : α) : (l ++ l').insertIdx l.length a = l ++ a :: l' := by
  induction l with
  | nil => rfl
  | cons b l ih => rw [List.cons_append, List.length_cons, List.insertIdx_succ_cons, ih, List.cons_append]

theorem insertIdx_front (s : State) (id : UInt32) :
    s.order.insertIdx (front s id).length id = insertAfter (key s.priorities) s.order id := by
  conv_lhs => rw [← front_back s id]
  exact insertIdx_length _ _ _

theorem rewrite_held (hnodup : (s.priorities.map Prod.fst).Nodup) (hid : held s.priorities id = some p) :
    s.priorities.map (fun row => if row.1 = id then (row.1, p) else row) = s.priorities := by
  conv_rhs => rw [← List.map_id s.priorities]
  apply List.map_congr_left
  intro row hrow
  split_ifs with heq
  · have hmem := held_mem hid
    rw [← heq] at hmem
    exact (List.inj_on_of_nodup_map hnodup hrow hmem rfl).symm
  · rfl

theorem result_reinsert (h : Repairing s) (hid : held s.priorities id = some p) (hnew : id ∉ s.order)
    (hback : back s id ≠ []) (hroom : (s.order.length + 1) * 8 ≤ u64Max) :
    (reinsert { s with order := s.order ++ [id] } id p (front s id).getLast? (back s id).head?).result =
      .ok { s with order := insertAfter (key s.priorities) s.order id } := by
  obtain ⟨gaps, hgaps, hmem⟩ := front_mem_cuts (s := s) (t := { s with order := s.order ++ [id] }) rfl h hid
  have hcharge : ∀ count ≤ s.order.length + 1, (chargeRows count 8).result = .ok () := by
    intro count hcount
    have hfits : (failIf (u64Max < count * 8) Failure.arithmetic).result = .ok () := failIf_ok.2 (by omega)
    rw [chargeRows, result_bind, hfits]
    rfl
  have hcharges : (forEach (List.range 2) fun _ => forEach gaps fun _ => do
      visit
      charge .byte 8).result = .ok () := forEach_ok fun _ _ => forEach_ok fun _ _ => rfl
  have hvisits : (forEach s.priorities fun _ => visit).result = .ok () := forEach_ok fun _ _ => rfl
  have hhint : (hintedCut s.order (front s id).getLast? (back s id).head?
      ((front s id).getLast?.bind (place s.order), (back s id).head?.bind (place s.order))).filter
        (fun j => gaps.contains j) = some (front s id).length := by
    rw [hinted_front h hback, Option.filter_some, if_pos (List.contains_iff_mem.2 hmem)]
  have hlength : (s.order ++ [id]).length = s.order.length + 1 := List.length_append
  unfold reinsert
  simp only [result_bind, hlength, hcharge _ le_rfl, ok_bind, result_detach hnew, result_anchors, hgaps, hcharges, hhint,
    result_pure, okOr, hvisits, rewrite_held h.keys hid, insertIdx_front]

/-- **One step.** The new entry stands after the entries that are not smaller. -/
theorem result_repair (h : Repairing s) (hid : held s.priorities id = some p) (hnew : id ∉ s.order)
    (hroom : (s.order.length + 1) * 8 ≤ u64Max) :
    (repair s id).result = .ok { s with order := insertAfter (key s.priorities) s.order id } := by
  unfold repair
  simp only [result_bind, result_visit, ok_bind, result_priority hid, result_inverts h hid]
  by_cases hback : back s id = []
  · -- nothing is smaller
    have hinsert : insertAfter (key s.priorities) s.order id = s.order ++ [id] := by
      have hsplit := front_back s id
      rw [hback, List.append_nil] at hsplit
      change front s id ++ id :: back s id = _
      rw [hback, hsplit]
    simp only [hback, ne_eq, not_true_eq_false, decide_false, Bool.false_eq_true, if_false, result_bind, result_pure,
      ok_bind, result_charge, hinsert]
  · simp only [ne_eq, hback, not_false_eq_true, decide_true, if_true, result_bind, result_neighbours h hid, ok_bind,
      result_reinsert h hid hnew hback hroom, result_charge, result_pure]

end Step

/-! ## The whole repair -/

/-- a repaired prefix of an order -/
structure Repaired (base : State) (done : List UInt32) (s : State) : Prop where
  eq : s = { base with order := s.order }
  stable : Stable (key base.priorities) done s.order

theorem result_repairs (base : State) (order : List UInt32) (hkeys : (base.priorities.map Prod.fst).Nodup)
    (hnodup : order.Nodup) (hheld : ∀ x ∈ order, ∃ q, held base.priorities x = some q)
    (hroom : order.length * 8 ≤ u64Max) (hempty : base.order = []) :
    ∃ s, (order.foldlM repair base).result = .ok s ∧ Repaired base order s := by
  have hrun : ∀ done rest s, order = done ++ rest → Repaired base done s →
      ∃ s', (rest.foldlM repair s).result = .ok s' ∧ Repaired base order s' := by
    intro done rest
    induction rest generalizing done with
    | nil =>
      intro s hsplit hs
      rw [List.append_nil] at hsplit
      exact ⟨s, rfl, hsplit ▸ hs⟩
    | cons id rest ih =>
      intro s hsplit hs
      have hpriorities : s.priorities = base.priorities := by rw [hs.eq]
      have hmem : ∀ x ∈ s.order, x ∈ order := by
        intro x hx
        rw [hsplit]
        exact List.mem_append_left _ (hs.stable.perm.mem_iff.1 hx)
      have hnew : id ∉ done := by
        rw [hsplit, List.nodup_append] at hnodup
        intro hid
        exact hnodup.2.2 id hid id List.mem_cons_self rfl
      have hdone : done.Nodup := by
        rw [hsplit] at hnodup
        exact hnodup.of_append_left
      have hrepairing : Repairing s := by
        refine ⟨hpriorities ▸ hkeys, hs.stable.perm.nodup_iff.2 hdone, hpriorities ▸ hs.stable.sorted, ?_⟩
        intro x hx
        rw [hpriorities]
        exact hheld x (hmem x hx)
      obtain ⟨p, hp⟩ := hheld id (by rw [hsplit]; simp)
      have hlength : s.order.length + 1 ≤ order.length := by
        rw [hs.stable.perm.length_eq, hsplit, List.length_append, List.length_cons]
        omega
      have hstep := result_repair hrepairing (hpriorities ▸ hp)
        (fun hid => hnew (hs.stable.perm.mem_iff.1 hid)) (by omega)
      rw [List.foldlM_cons, result_bind, hstep, ok_bind]
      apply ih (done ++ [id])
      · rw [hsplit, List.append_assoc, List.singleton_append]
      · refine ⟨?_, ?_⟩
        · rw [hs.eq]
        · rw [hpriorities]
          exact stable_insertAfter hs.stable hnew
  refine hrun [] order base rfl ⟨rfl, ?_⟩
  rw [hempty]
  exact stable_nil

/-! ## The law -/

/-- nothing but the rewards, the priorities and the order differs -/
def Framed (pre post : State) : Prop :=
  { pre with rewardC := post.rewardC, rewardD := post.rewardD, priorities := post.priorities, order := post.order } = post

theorem Framed.vaults (h : Framed pre post) : post.vaults = pre.vaults := by
  rw [← h]

theorem Framed.perm (h : Framed pre post) (hpre : Valid pre) (hpost : Valid post) :
    post.order.Perm pre.order := by
  have hactive : activeIds post = activeIds pre := by rw [activeIds, activeIds, h.vaults]
  exact hpost.order.trans (hactive ▸ hpre.order.symm)

theorem Valid.nodup {s : State} (h : Valid s) : s.order.Nodup :=
  h.order.nodup_iff.2 (pairwise_lt_ne (h.ids.sublist (List.filter_sublist.map Vault.id)))

theorem Valid.room {s : State} (h : Valid s) : s.order.length * 8 ≤ u64Max := by
  have hshort := h.short
  have hmax : 8 * 2 ^ 32 ≤ u64Max := by decide
  omega

theorem Valid.nodup_keys {s : State} (h : Valid s) : (s.priorities.map Prod.fst).Nodup := by
  rw [h.keys, ← h.order.nodup_iff]
  exact h.nodup

theorem Valid.held {s : State} (h : Valid s) {id : UInt32} (hid : id ∈ s.order) : ∃ q, held s.priorities id = some q := by
  apply held_of_mem
  rw [h.keys]
  exact h.order.mem_iff.1 hid

theorem checkPair_ok (h : Valid post) {a b : UInt32} (ha : a ∈ post.order) (hb : b ∈ post.order) :
    (checkPair post a b).result = .ok () ↔
      ([a, b].Sublist post.order ↔ key post.priorities a ≤ key post.priorities b) := by
  obtain ⟨qa, hqa⟩ := h.held ha
  obtain ⟨qb, hqb⟩ := h.held hb
  obtain ⟨i, hi⟩ := List.getElem?_of_mem ha
  obtain ⟨j, hj⟩ := List.getElem?_of_mem hb
  have hvisits : (forEach post.order fun _ => do
      visit
      charge .byte 12).result = .ok () := forEach_ok fun _ _ => rfl
  have hcompare : compare qa.toNat qb.toNat ≠ .lt ↔ key post.priorities a ≤ key post.priorities b := by
    rw [key_eq hqa, key_eq hqb, toDual_le_toDual, ne_eq, compare_lt_iff_lt, not_lt]
  unfold checkPair
  simp only [result_bind, result_visit, ok_bind, hvisits, result_priority hqa, result_priority hqb, result_pcmp,
    place_eq h.nodup hi, place_eq h.nodup hj, result_okOr_some, failIf_ok, not_not, decide_eq_decide, hcompare,
    pair_iff_lt h.nodup hi hj]

theorem checkPairs_ok {l : List UInt32} : (checkPairs post l).result = .ok () ↔
    ∀ a b, [a, b].Sublist l → (checkPair post a b).result = .ok () := by
  induction l with
  | nil => exact iff_of_true rfl nofun
  | cons c l ih =>
    have hsplit : (checkPairs post (c :: l)).result = .ok () ↔
        (∀ b ∈ l, (checkPair post c b).result = .ok ()) ∧ (checkPairs post l).result = .ok () := by
      rw [checkPairs]
      simp only [result_bind, result_visit, ok_bind]
      rw [bind_eq_ok, ← result_forEach]
      exact exists_unit
    rw [hsplit, ih]
    constructor
    · intro ⟨hfirst, hrest⟩ a b hpair
      rcases List.sublist_cons_iff.1 hpair with hpair | ⟨r, hr, hpair⟩
      · exact hrest a b hpair
      · cases hr
        exact hfirst b (List.singleton_sublist.1 hpair)
    · intro hall
      refine ⟨fun b hb => ?_, fun a b hpair => hall a b (hpair.cons c)⟩
      exact hall c b (List.Sublist.cons_cons _ (List.singleton_sublist.2 hb))

/-- **The law over pairs.** Between valid states it accepts exactly the stable order. -/
theorem law_iff (hpre : Valid pre) (hpost : Valid post) :
    (redistributionLaw pre post).result = .ok () ↔ pre.rewardC ≤ post.rewardC ∧ pre.rewardD ≤ post.rewardD ∧
      Framed pre post ∧ Stable (key post.priorities) pre.order post.order := by
  have hpairs : Framed pre post → ((checkPairs post pre.order).result = .ok () ↔
      Stable (key post.priorities) pre.order post.order) := by
    intro hframed
    have hperm := hframed.perm hpre hpost
    rw [checkPairs_ok, stable_iff_pairs hpre.nodup hperm]
    refine forall_congr' fun a => forall_congr' fun b => forall_congr' fun hpair => ?_
    apply checkPair_ok hpost
    · exact hperm.mem_iff.2 (hpair.subset List.mem_cons_self)
    · exact hperm.mem_iff.2 (hpair.subset (List.mem_cons_of_mem _ List.mem_cons_self))
  unfold redistributionLaw
  simp only [result_bind, result_charge, ok_bind, hpre.charged, hpost.charged]
  constructor
  · intro h
    obtain ⟨_, hgrows, h⟩ := bind_eq_ok.1 h
    obtain ⟨_, hframed, h⟩ := bind_eq_ok.1 h
    have hgrows := failIf_ok.1 hgrows
    have hframed : Framed pre post := not_ne_iff.1 (failIf_ok.1 hframed)
    rw [not_or, BitVec.not_lt, BitVec.not_lt] at hgrows
    exact ⟨hgrows.1, hgrows.2, hframed, (hpairs hframed).1 h⟩
  · intro ⟨hc, hd, hframed, hstable⟩
    have hgrows : ¬ (post.rewardC < pre.rewardC ∨ post.rewardD < pre.rewardD) := by
      rw [not_or, BitVec.not_lt, BitVec.not_lt]
      exact ⟨hc, hd⟩
    have hgrows : (failIf (post.rewardC < pre.rewardC ∨ post.rewardD < pre.rewardD) Failure.arithmetic).result = .ok () :=
      failIf_ok.2 hgrows
    have hsame : (failIf ({ pre with rewardC := post.rewardC, rewardD := post.rewardD, priorities := post.priorities,
                                     order := post.order } ≠ post) (Failure.law 988)).result = .ok () :=
      failIf_ok.2 (not_ne_iff.2 hframed)
    rw [hgrows, ok_bind, hsame, ok_bind]
    exact (hpairs hframed).2 hstable

/-! ## Ratios -/

/-- the collateral of a vault with its share, in units of its debt with its share -/
def nominalRatio (s : State) (v : Vault) : ℕ :=
  (v.collateral.toNat + v.stake.toNat * (s.rewardC.toNat - v.snapshotC.toNat) / 10 ^ 18) * 10 ^ 20 /
    (v.debt.toNat + v.stake.toNat * (s.rewardD.toNat - v.snapshotD.toNat) / 10 ^ 18)

/-- the ratio of the vault of an entry -/
def ratio (s : State) (id : UInt32) : ℕ := (s.vaults.find? fun v => v.id = id).elim 0 (nominalRatio s)

theorem add_ok {a b c : U128} (h : (add a b).result = .ok c) : c.toNat = a.toNat + b.toNat := by
  rw [add, result_bind, result_step, ok_bind, result_okOr_eq_ok, Wide.checkedAdd_eq] at h
  exact Wide.fit_eq_some.1 h

theorem sub_ok {a b c : U128} (h : (sub a b).result = .ok c) : c.toNat = a.toNat - b.toNat := by
  rw [sub, result_bind, result_step, ok_bind, result_okOr_eq_ok] at h
  split_ifs at h with hle
  cases h
  exact BitVec.toNat_sub_of_le hle

theorem muldiv_ok {a b d c : U128} (h : (muldiv a b d).result = .ok c) : c.toNat = a.toNat * b.toNat / d.toNat := by
  unfold muldiv at h
  simp only [result_bind, result_charge, ok_bind] at h
  obtain ⟨_, hd, h⟩ := bind_eq_ok.1 h
  rw [result_okOr_eq_ok, Wide.mulDivFloor_eq (failIf_ok.1 hd)] at h
  exact Wide.fit_eq_some.1 h

theorem vaultRatio_ok {s : State} {q : U128} (hactive : v.active = true)
    (h : (vaultRatio s v).result = .ok q) : q.toNat = nominalRatio s v := by
  unfold vaultRatio effective at h
  rw [hactive] at h
  simp only [not_true_eq_false, if_false, result_bind] at h
  obtain ⟨⟨c, d⟩, heffective, hratio⟩ := bind_eq_ok.1 h
  obtain ⟨dc, hdc, heffective⟩ := bind_eq_ok.1 heffective
  obtain ⟨dd, hdd, heffective⟩ := bind_eq_ok.1 heffective
  obtain ⟨shareC, hshareC, heffective⟩ := bind_eq_ok.1 heffective
  obtain ⟨c', hc, heffective⟩ := bind_eq_ok.1 heffective
  obtain ⟨shareD, hshareD, heffective⟩ := bind_eq_ok.1 heffective
  obtain ⟨d', hd, heffective⟩ := bind_eq_ok.1 heffective
  cases heffective
  rw [muldiv_ok hratio, add_ok hc, add_ok hd, muldiv_ok hshareC, muldiv_ok hshareD, sub_ok hdc, sub_ok hdd]
  rfl

theorem Valid.nodup_ids {s : State} (h : Valid s) : (s.vaults.map Vault.id).Nodup := pairwise_lt_ne h.ids

theorem Valid.key_ratio {s : State} (h : Valid s) {id : UInt32} (hid : id ∈ s.order) :
    key s.priorities id = toDual (ratio s id) := by
  obtain ⟨v, hv, rfl⟩ := List.mem_map.1 (h.order.mem_iff.1 hid)
  obtain ⟨hmem, hactive⟩ := List.mem_filter.1 hv
  obtain ⟨q, hratio, hheld⟩ := h.fresh v hmem hactive
  have hfind : s.vaults.find? (fun w => w.id = v.id) = some v := by
    obtain ⟨w, hw⟩ := Option.isSome_iff_exists.1
      (List.find?_isSome.2 ⟨v, hmem, decide_eq_true rfl⟩ : (s.vaults.find? fun w => w.id = v.id).isSome)
    have hid : w.id = v.id := by simpa using List.find?_some hw
    rw [hw, List.inj_on_of_nodup_map h.nodup_ids (List.mem_of_find?_eq_some hw) hmem hid]
  rw [key_eq hheld, vaultRatio_ok hactive hratio, ratio, hfind, Option.elim_some]

/-! ## The cached priorities -/

theorem result_vaultAt {s : State} (h : (s.vaults.map Vault.id).Nodup) (hv : v ∈ s.vaults) :
    (vaultAt s v.id).result = .ok v := by
  obtain ⟨i, hi⟩ := List.getElem?_of_mem hv
  have hindex : (index s v.id).result = .ok i := by
    rw [index, result_bind,
      result_fold (g := fun out row => if row.1.id = v.id then some row.2 else out) fun _ _ => rfl]
    apply result_okOr_eq_ok.2
    refine lastOf_unique (P := fun row : Vault × ℕ => row.1.id = v.id) (g := Prod.snd) (a := (v, i))
      (List.mem_zipIdx_iff_getElem?.2 hi) rfl ?_
    intro row hrow hid
    have hat := List.mem_zipIdx_iff_getElem?.1 hrow
    obtain rfl := List.inj_on_of_nodup_map h (List.mem_of_getElem? hat) hv hid
    exact (List.getElem?_inj (List.getElem?_eq_some_iff.1 hat).1 (h.of_map _)).1 (hat.trans hi.symm)
  rw [vaultAt, result_bind, hindex, ok_bind, result_okOr_eq_ok, hi]

theorem refresh_ok {s : State} {row out : UInt32 × U128} (h : (refresh s row).result = .ok out) : out.1 = row.1 := by
  unfold refresh at h
  simp only [result_bind, result_visit, ok_bind] at h
  obtain ⟨_, -, h⟩ := bind_eq_ok.1 h
  obtain ⟨_, -, h⟩ := bind_eq_ok.1 h
  obtain ⟨_, -, h⟩ := bind_eq_ok.1 h
  cases h
  rfl

theorem result_refresh {s : State} (h : (s.vaults.map Vault.id).Nodup) (hv : v ∈ s.vaults) {q : U128}
    (hratio : (vaultRatio s v).result = .ok q) (old : U128) : (refresh s (v.id, old)).result = .ok (v.id, q) := by
  rw [vaultRatio, result_bind] at hratio
  obtain ⟨⟨c, d⟩, heffective, hratio⟩ := bind_eq_ok.1 hratio
  unfold refresh
  simp only [result_bind, result_visit, ok_bind, result_vaultAt h hv, heffective, hratio, result_charge, result_pure]

theorem refreshes_ok {s : State} (h : (rows.mapM (refresh s)).result = .ok out) :
    out.map Prod.fst = rows.map Prod.fst := by
  induction rows generalizing out with
  | nil =>
    cases h
    rfl
  | cons row rows ih =>
    rw [result_mapM, List.mapM_cons, ← result_mapM] at h
    obtain ⟨row', hrow, h⟩ := bind_eq_ok.1 h
    obtain ⟨rows', hrows, h⟩ := bind_eq_ok.1 h
    cases h
    rw [List.map_cons, List.map_cons, refresh_ok hrow, ih hrows]

theorem result_refreshes {s : State} (hkeys : rows.map Prod.fst = out.map Prod.fst)
    (h : ∀ row ∈ out, ∀ old, (refresh s (row.1, old)).result = .ok row) : (rows.mapM (refresh s)).result = .ok out := by
  induction rows generalizing out with
  | nil =>
    rw [List.map_nil, eq_comm, List.map_eq_nil_iff] at hkeys
    rw [hkeys]
    rfl
  | cons row rows ih =>
    cases out with
    | nil => cases hkeys
    | cons row' out =>
      rw [List.map_cons, List.map_cons, List.cons.injEq] at hkeys
      have hrow := h row' List.mem_cons_self row.2
      rw [← hkeys.1] at hrow
      have hrows := ih hkeys.2 fun r hr => h r (List.mem_cons_of_mem _ hr)
      rw [result_mapM, List.mapM_cons, ← result_mapM, hrow, ok_bind, hrows]
      rfl

theorem Valid.refreshed (hpre : Valid pre) (hpost : Valid post) (hframed : Framed pre post) :
    (pre.priorities.mapM (refresh { pre with rewardC := post.rewardC, rewardD := post.rewardD })).result =
      .ok post.priorities := by
  have hvaults := hframed.vaults
  apply result_refreshes
  · rw [hpre.keys, hpost.keys, activeIds, activeIds, hvaults]
  · intro row hrow old
    have hid : row.1 ∈ activeIds post := by
      rw [← hpost.keys]
      exact List.mem_map_of_mem hrow
    obtain ⟨v, hv, hrowid⟩ := List.mem_map.1 hid
    obtain ⟨hmem, hactive⟩ := List.mem_filter.1 hv
    obtain ⟨q, hratio, hheld⟩ := hpost.fresh v hmem hactive
    have hq : (v.id, q) = row := List.inj_on_of_nodup_map hpost.nodup_keys (held_mem hheld) hrow hrowid
    have hmem' : v ∈ pre.vaults := hvaults ▸ hmem
    rw [← hq]
    exact result_refresh (s := { pre with rewardC := post.rewardC, rewardD := post.rewardD }) hpre.nodup_ids hmem'
      hratio old

/-! ## Redistribution -/

/-- A redistribution: between admitted states the rewards grow, nothing but them, the priorities and the order differs,
and the order is the one before, sorted by descending ratio and as it was among equal ratios. -/
structure Redistribution (p : Policy) (pre post : State) : Prop where
  before : (validate p pre).result = .ok ()
  after : (validate p post).result = .ok ()
  growsC : pre.rewardC ≤ post.rewardC
  growsD : pre.rewardD ≤ post.rewardD
  framed : Framed pre post
  stable : Stable (fun id => toDual (ratio post id)) pre.order post.order

theorem stable_key_iff (hpre : Valid pre) (hpost : Valid post) (hframed : Framed pre post) :
    Stable (key post.priorities) pre.order post.order ↔
      Stable (fun id => toDual (ratio post id)) pre.order post.order := by
  have hkey : ∀ id ∈ pre.order, key post.priorities id = toDual (ratio post id) :=
    fun id hid => hpost.key_ratio ((hframed.perm hpre hpost).mem_iff.2 hid)
  exact ⟨fun h => h.congr hkey, fun h => h.congr fun id hid => (hkey id hid).symm⟩

theorem checkRedistribution_iff {p : Policy} :
    (checkRedistribution p pre post).result = .ok () ↔ Redistribution p pre post := by
  unfold checkRedistribution
  simp only [result_bind]
  constructor
  · intro h
    obtain ⟨_, hbefore, h⟩ := bind_eq_ok.1 h
    obtain ⟨_, hafter, h⟩ := bind_eq_ok.1 h
    have hpre := validate_ok hbefore
    have hpost := validate_ok hafter
    obtain ⟨hc, hd, hframed, hstable⟩ := (law_iff hpre hpost).1 h
    exact ⟨hbefore, hafter, hc, hd, hframed, (stable_key_iff hpre hpost hframed).1 hstable⟩
  · intro h
    have hpre := validate_ok h.before
    have hpost := validate_ok h.after
    rw [h.before, ok_bind, h.after, ok_bind, law_iff hpre hpost]
    exact ⟨h.growsC, h.growsD, h.framed, (stable_key_iff hpre hpost h.framed).2 h.stable⟩

theorem Redistribution.unique {p : Policy} (h : Redistribution p pre post)
    (horder : Stable (fun id => toDual (ratio post id)) pre.order order) : order = post.order :=
  Stable.unique (validate_ok h.before).nodup horder h.stable

theorem Redistribution.repaired {p : Policy} (h : Redistribution p pre post) :
    (redistribute p pre post.rewardC post.rewardD).result = .ok post := by
  have hpre := validate_ok h.before
  have hpost := validate_ok h.after
  have hperm := h.framed.perm hpre hpost
  obtain ⟨s, hs, hrepaired⟩ := result_repairs
      { pre with rewardC := post.rewardC, rewardD := post.rewardD, priorities := post.priorities, order := [] } pre.order
    hpost.nodup_keys hpre.nodup (fun x hx => hpost.held (hperm.mem_iff.2 hx)) hpre.room rfl
  obtain rfl : s = post := by
    have hstable := (stable_key_iff hpre hpost h.framed).2 h.stable
    have horder := Stable.unique hpre.nodup hrepaired.stable hstable
    rw [hrepaired.eq, horder]
    exact h.framed
  have hgrows : (failIf (s.rewardC < pre.rewardC ∨ s.rewardD < pre.rewardD) Failure.arithmetic).result = .ok () := by
    rw [failIf_ok, not_or, BitVec.not_lt, BitVec.not_lt]
    exact ⟨h.growsC, h.growsD⟩
  have hlaw : (redistributionLaw pre s).result = .ok () :=
    (law_iff hpre hpost).2 ⟨h.growsC, h.growsD, h.framed, (stable_key_iff hpre hpost h.framed).2 h.stable⟩
  unfold redistribute
  simp only [result_bind, h.before, result_charge, hgrows, hpre.charged, ok_bind, hpre.refreshed hpost h.framed, hs,
    h.after, hlaw, hpost.charged, result_pure]

theorem redistribute_ok {p : Policy} {rewardC rewardD : U128}
    (h : (redistribute p pre rewardC rewardD).result = .ok post) :
    Redistribution p pre post ∧ post.rewardC = rewardC ∧ post.rewardD = rewardD := by
  unfold redistribute at h
  simp only [result_bind, result_charge, ok_bind] at h
  obtain ⟨_, hbefore, h⟩ := bind_eq_ok.1 h
  obtain ⟨_, -, h⟩ := bind_eq_ok.1 h
  obtain ⟨_, -, h⟩ := bind_eq_ok.1 h
  obtain ⟨priorities, hrefreshes, h⟩ := bind_eq_ok.1 h
  obtain ⟨repaired, hrepairs, h⟩ := bind_eq_ok.1 h
  obtain ⟨_, hafter, h⟩ := bind_eq_ok.1 h
  obtain ⟨_, hlaw, h⟩ := bind_eq_ok.1 h
  obtain ⟨_, -, h⟩ := bind_eq_ok.1 h
  cases h
  have hpre := validate_ok hbefore
  have hkeys := refreshes_ok hrefreshes
  have hheld : ∀ x ∈ pre.order, ∃ q, held priorities x = some q := by
    intro x hx
    apply held_of_mem
    rw [hkeys, hpre.keys]
    exact hpre.order.mem_iff.1 hx
  obtain ⟨s, hs, hrepaired⟩ := result_repairs
    { pre with rewardC := rewardC, rewardD := rewardD, priorities := priorities, order := [] } pre.order
    (by rw [hkeys]; exact hpre.nodup_keys) hpre.nodup hheld hpre.room rfl
  obtain rfl := Except.ok.inj (hs.symm.trans hrepairs)
  have hchecked : (checkRedistribution p pre s).result = .ok () := by
    unfold checkRedistribution
    simp only [result_bind, hbefore, hafter, ok_bind, hlaw]
  refine ⟨checkRedistribution_iff.1 hchecked, ?_, ?_⟩
  · rw [hrepaired.eq]
  · rw [hrepaired.eq]

/-- **Order repair is the stable sort.** A repair returns exactly the redistribution to its rewards, which holds the one
order that is stable under the ratios after it; the law accepts what is returned, and nothing else. Both end so within a
budget, unless they ask for more of a resource than its limit. -/
theorem redistribute_exact (p : Policy) (pre : State) :
    (∀ rewardC rewardD,
      (∀ post, (redistribute p pre rewardC rewardD).result = .ok post ↔
        Redistribution p pre post ∧ post.rewardC = rewardC ∧ post.rewardD = rewardD) ∧
      ((orderRepair p pre rewardC rewardD).1 = (redistribute p pre rewardC rewardD).result ∨
        (∃ e, (orderRepair p pre rewardC rewardD).1 = .error (.budget e)) ∧
          ∃ r, min (p.limits r) u64Max < Metered.asked (redistribute p pre rewardC rewardD).charges r)) ∧
    (∀ post, ((checkRedistribution p pre post).result = .ok () ↔ Redistribution p pre post) ∧
      ((orderCheck p pre post).1 = (checkRedistribution p pre post).result ∨
        (∃ e, (orderCheck p pre post).1 = .error (.budget e)) ∧
          ∃ r, min (p.limits r) u64Max < Metered.asked (checkRedistribution p pre post).charges r)) ∧
    ∀ post, Redistribution p pre post →
      ∀ order, (Stable (fun id => toDual (ratio post id)) pre.order order ↔ order = post.order) ∧
        ((checkRedistribution p pre { post with order }).result = .ok () → order = post.order) := by
  refine ⟨fun rewardC rewardD => ⟨fun post => ⟨redistribute_ok, ?_⟩, Oracle.run_new p.limits _⟩,
    fun post => ⟨checkRedistribution_iff, Oracle.run_new p.limits _⟩, fun post h order => ⟨?_, ?_⟩⟩
  · rintro ⟨h, rfl, rfl⟩
    exact h.repaired
  · exact ⟨h.unique, fun heq => heq ▸ h.stable⟩
  · intro hcheck
    exact h.unique (checkRedistribution_iff.1 hcheck).stable

/-- a vault with debt ten -/
def sampleVault (id : UInt32) (collateral stake : U128) : Vault :=
  ⟨id, id, true, collateral, 10, stake, 0, 0⟩

/-- two vaults of ratios three and two, with twenty undistributed -/
def sampleState : State where
  vaults := [sampleVault 1 30 0, sampleVault 2 20 Q]
  order := [1, 2]
  priorities := [(1, 3 * NICR_Q), (2, 2 * NICR_Q)]
  rewardC := 0
  rewardD := 0
  stakesSnapshot := 0
  collateralSnapshot := 0
  activeCollateral := 50
  defaultCollateral := 20
  activeDebt := 20
  defaultDebt := 0
  holder := 0
  holderBalance := 0
  reserveBalance := 0
  supply := 20
  holderCollateral := 0
  stakingCollateral := 0
  surplus := []
  nonce := 0
  priceE8 := 0
  priceEpoch := 0
  oracleProfile := .zero
  baseRate := 0
  lastFeeEpoch := 0

def samplePolicy : Policy := ⟨8, 8, 100000, 0, fun _ => 10 ^ 9⟩

/-- the same vaults after a reward of twenty -/
def swapped : State :=
  { sampleState with rewardC := 20, order := [2, 1], priorities := [(1, 3 * NICR_Q), (2, 4 * NICR_Q)] }

/-- the repair within the budget puts the second vault first, and no other order is stable -/
theorem redistribute_swapped : (orderRepair samplePolicy sampleState 20 0).1 = .ok swapped ∧
    (orderCheck samplePolicy sampleState swapped).1 = .ok () ∧ Redistribution samplePolicy sampleState swapped ∧
    ∀ order, Stable (fun id => toDual (ratio swapped id)) [1, 2] order ↔ order = [2, 1] := by
  have hexact := redistribute_exact samplePolicy sampleState
  have hrun : (orderRepair samplePolicy sampleState 20 0).1 = .ok swapped := by decide +kernel
  have hcheck : (orderCheck samplePolicy sampleState swapped).1 = .ok () := by decide +kernel
  have hswapped : Redistribution samplePolicy sampleState swapped := by
    obtain ⟨hiff, hresult | ⟨⟨e, hbudget⟩, -⟩⟩ := hexact.1 20 0
    · exact ((hiff swapped).1 (hresult.symm.trans hrun)).1
    · rw [hrun] at hbudget
      cases hbudget
  exact ⟨hrun, hcheck, hswapped, fun order => (hexact.2.2 swapped hswapped order).1⟩

end ZenoFcis.Tables
