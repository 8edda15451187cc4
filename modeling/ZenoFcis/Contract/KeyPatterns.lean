/-
Key classes of collection views (`zeno-fcis-contract/src/collections.rs`): the rules by which `Shape::admissible` accepts
the classes at the key positions of a view, and the two counts of the patterns that these rules enumerate.

The rules read one word a key type, its classes in position order: `keyRules_iff` says that an opaque type's word grows
and an ordered type's word is made of ranks, so that each pattern of concrete keys has exactly one accepted labelling.
-/
import ZenoFcis.Contract.OrderReads
import ZenoFcis.Lib.Labelling
import ZenoFcis.Lib.OrdMap

namespace ZenoFcis.Contract.Collections

open Lib Lib.Labelling

/-- what the key rules read of a shape; `typeOf` is the schema's type of the field at a position, so that no position
has two key types and no presence flag is a key -/
structure Shape where
  keys : OrdMap ℕ UInt32
  entries : List EntryView
  ordered : Finset UInt32
  typeOf : ℕ → UInt32
  keys_typed : ∀ k ∈ keys.entries, k.2 = typeOf k.1
  stored_typed : ∀ e ∈ entries, ∀ k ∈ e.storedKeys, k.2 = typeOf k.1
  presence_apart : ∀ e ∈ entries, (∀ k ∈ keys.entries, k.1 ≠ e.presence) ∧
    ∀ e' ∈ entries, ∀ k ∈ e'.storedKeys, k.1 ≠ e.presence

/-- the loop over the key positions; `highest` holds the highest class seen of each opaque type, `-1` at first -/
def growthLoop (ordered : Finset UInt32) (tuple : ℕ → ℤ) : List (ℕ × UInt32) → (UInt32 → ℤ) → Bool
  | [], _ => true
  | (position, keyType) :: rest, highest =>
    if keyType ∈ ordered then growthLoop ordered tuple rest highest
    -- the sum stays below the number of positions read, so it does not overflow
    else if tuple position > highest keyType + 1 then false
    else growthLoop ordered tuple rest
      (Function.update highest keyType (max (highest keyType) (tuple position)))

/-- `ranks.iter().copied().eq(0..ranks.len())` -/
def contiguous (ranks : Finset ℤ) : Bool := decide (ranks.sort = (List.range ranks.card).map Nat.cast)

namespace Shape

variable (shape : Shape)

/-- the stored keys of the present entries -/
def stored (tuple : ℕ → ℤ) : OrdMap ℕ UInt32 :=
  OrdMap.empty.extend ((shape.entries.filter fun e => decide (tuple e.presence = 1)).flatMap EntryView.storedKeys)

/-- input keys and stored keys, in position order -/
def active (tuple : ℕ → ℤ) : OrdMap ℕ UInt32 :=
  OrdMap.empty.extend (shape.keys.entries ++ (shape.stored tuple).entries)

/-- the classes of one key type -/
def ranks (tuple : ℕ → ℤ) (keyType : UInt32) : Finset ℤ :=
  (((shape.keys.entries ++ (shape.stored tuple).entries).filter fun k => decide (k.2 = keyType)).map
    fun k => tuple k.1).toFinset

instance decidableTyped (types : Finset UInt32) (rule : UInt32 → Bool) :
    Decidable (∀ keyType ∈ types, rule keyType = true) := Finset.decidableDforallFinset

/-- the key rules of `Shape::admissible` -/
def keyRules (tuple : ℕ → ℤ) : Bool :=
  growthLoop shape.ordered tuple (shape.active tuple).entries (fun _ => -1) &&
    decide (∀ keyType ∈ shape.ordered, contiguous (shape.ranks tuple keyType) = true)

/-- the active key positions, in order -/
def positions (tuple : ℕ → ℤ) : List ℕ := (shape.active tuple).entries.map Prod.fst

/-- an active key position -/
abbrev Active (tuple : ℕ → ℤ) := {p : ℕ // p ∈ shape.positions tuple}

/-- the view with other classes at its active key positions -/
def relabel (tuple : ℕ → ℤ) (label : shape.Active tuple → ℕ) : ℕ → ℤ :=
  fun p => if h : p ∈ shape.positions tuple then (label ⟨p, h⟩ : ℤ) else tuple p

/-- the labels have the pattern of the keys: equality within each type, and order within each ordered type -/
structure Faithful {tuple : ℕ → ℤ} {K : Type} [LinearOrder K] (key : shape.Active tuple → K)
    (label : shape.Active tuple → ℕ) : Prop where
  equality : ∀ p q : shape.Active tuple, shape.typeOf p = shape.typeOf q → (label p = label q ↔ key p = key q)
  order : ∀ p q : shape.Active tuple, shape.typeOf p = shape.typeOf q → shape.typeOf p ∈ shape.ordered →
    (label p < label q ↔ key p < key q)

/-- the active positions of one type, in order -/
def places (tuple : ℕ → ℤ) (keyType : UInt32) : List (shape.Active tuple) :=
  (shape.positions tuple).attach.filter fun p => decide (shape.typeOf p = keyType)

variable {shape} {tuple : ℕ → ℤ}

variable {k : ℕ × UInt32} {t : UInt32}

theorem mem_stored :
    k ∈ (shape.stored tuple).entries ↔ ∃ e ∈ shape.entries, tuple e.presence = 1 ∧ k ∈ e.storedKeys := by
  have htyped : ∀ k ∈ (shape.entries.filter fun e => decide (tuple e.presence = 1)).flatMap EntryView.storedKeys,
      k.2 = shape.typeOf k.1 := by
    intro k hk
    obtain ⟨e, he, hk⟩ := List.mem_flatMap.1 hk
    exact shape.stored_typed e (List.mem_filter.1 he).1 k hk
  rw [stored, OrdMap.mem_extend (fun _ h => absurd h List.not_mem_nil) htyped]
  simp [OrdMap.empty, and_assoc]

theorem typed_of_mem (hk : k ∈ shape.keys.entries ++ (shape.stored tuple).entries) :
    k.2 = shape.typeOf k.1 := by
  rcases List.mem_append.1 hk with hk | hk
  · exact shape.keys_typed k hk
  · obtain ⟨e, he, _, hk⟩ := mem_stored.1 hk
    exact shape.stored_typed e he k hk

/-- the active keys are the fixed and the stored ones -/
theorem mem_active :
    k ∈ (shape.active tuple).entries ↔ k ∈ shape.keys.entries ++ (shape.stored tuple).entries := by
  rw [active, OrdMap.mem_extend (fun _ h => absurd h List.not_mem_nil) fun _ => typed_of_mem]
  simp [OrdMap.empty]

theorem typed_of_active (hk : k ∈ (shape.active tuple).entries) : k.2 = shape.typeOf k.1 :=
  typed_of_mem (mem_active.1 hk)

theorem presence_not_active {e : EntryView} (he : e ∈ shape.entries) : e.presence ∉ shape.positions tuple := by
  intro h
  obtain ⟨k, hk, heq⟩ := List.mem_map.1 h
  rcases List.mem_append.1 (mem_active.1 hk) with hk | hk
  · exact (shape.presence_apart e he).1 k hk heq
  · obtain ⟨e', he', _, hk⟩ := mem_stored.1 hk
    exact (shape.presence_apart e he).2 e' he' k hk heq

theorem stored_relabel (label : shape.Active tuple → ℕ) :
    shape.stored (shape.relabel tuple label) = shape.stored tuple := by
  have hfilter : (shape.entries.filter fun e => decide (shape.relabel tuple label e.presence = 1)) =
      shape.entries.filter fun e => decide (tuple e.presence = 1) :=
    List.filter_congr fun e he => by rw [relabel, dif_neg (presence_not_active he)]
  rw [stored, hfilter, stored]

theorem active_relabel (label : shape.Active tuple → ℕ) :
    shape.active (shape.relabel tuple label) = shape.active tuple := by
  rw [active, stored_relabel, active]

theorem relabel_active (label : shape.Active tuple → ℕ) (p : shape.Active tuple) :
    shape.relabel tuple label p = label p := dif_pos p.2

/-! ### The rules, one type at a time -/

theorem growthLoop_iff {ordered : Finset UInt32} {label : ℕ → ℕ} {used : UInt32 → ℕ} {l : List (ℕ × UInt32)}
    (hlabel : ∀ k ∈ l, tuple k.1 = label k.1) :
    growthLoop ordered tuple l (fun t => (used t : ℤ) - 1) = true ↔
      ∀ t ∉ ordered, Grows (used t) ((l.filter fun k => decide (k.2 = t)).map fun k => label k.1) := by
  induction l generalizing used with
  | nil => simp [growthLoop, Grows]
  | cons k l ih =>
    obtain ⟨p, t⟩ := k
    have hp : tuple p = label p := hlabel (p, t) List.mem_cons_self
    have ih (used : UInt32 → ℕ) := @ih used fun k hk => hlabel k (List.mem_cons_of_mem _ hk)
    rw [growthLoop]
    split_ifs with ht hgt
    · rw [ih]
      refine forall₂_congr fun t' ht' => ?_
      have hne : t ≠ t' := fun h => ht' (h ▸ ht)
      rw [List.filter_cons_of_neg (by simpa using hne)]
    · refine ⟨False.elim, fun h => absurd hgt ?_⟩
      have hhead := h t ht
      rw [List.filter_cons_of_pos (by simp), List.map_cons] at hhead
      have hle : label p ≤ used t := hhead.1
      omega
    · have hnext : Function.update (fun t => (used t : ℤ) - 1) t (max ((used t : ℤ) - 1) (tuple p)) =
          fun t' => ((Function.update used t (max (used t) (label p + 1)) t' : ℕ) : ℤ) - 1 := by
        funext t'
        by_cases h : t' = t
        · subst h
          rw [Function.update_self, Function.update_self, hp]
          omega
        · rw [Function.update_of_ne h, Function.update_of_ne h]
      rw [hnext, ih]
      refine forall₂_congr fun t' ht' => ?_
      by_cases h : t = t'
      · subst h
        rw [Function.update_self, List.filter_cons_of_pos (by simp), List.map_cons]
        have hle : label p ≤ used t := by omega
        exact ⟨fun hgrows => ⟨hle, hgrows⟩, fun hgrows => hgrows.2⟩
      · rw [Function.update_of_ne (Ne.symm h), List.filter_cons_of_neg (by simpa using h)]

theorem contiguous_iff {w : List ℕ} : contiguous ((w.map Nat.cast).toFinset) = true ↔ Ranks w := by
  have hmem (v : ℕ) : (v : ℤ) ∈ (w.map (Nat.cast : ℕ → ℤ)).toFinset ↔ v ∈ w := by simp
  rw [contiguous, decide_eq_true_iff]
  constructor
  · intro h
    refine ⟨(w.map (Nat.cast : ℕ → ℤ)).toFinset.card, fun v => ?_⟩
    rw [← hmem, ← Finset.mem_sort (· ≤ ·), h, List.mem_map]
    simp
  · rintro ⟨n, hn⟩
    have hset : (w.map (Nat.cast : ℕ → ℤ)).toFinset = ((List.range n).map (Nat.cast : ℕ → ℤ)).toFinset := by
      refine Finset.ext fun x => ?_
      simp only [List.mem_toFinset, List.mem_map, List.mem_range]
      exact exists_congr fun v => and_congr_left fun _ => hn v
    have hnodup : ((List.range n).map (Nat.cast : ℕ → ℤ)).Nodup := List.nodup_range.map Nat.cast_injective
    have hcard : (w.map (Nat.cast : ℕ → ℤ)).toFinset.card = n := by
      rw [hset, List.toFinset_card_of_nodup hnodup, List.length_map, List.length_range]
    rw [hcard, hset]
    refine (List.toFinset_sort (· ≤ ·) hnodup).2 ?_
    exact List.pairwise_map.2 ((List.pairwise_lt_range).imp fun h => Int.ofNat_le.2 h.le)

theorem map_places (label : shape.Active tuple → ℕ) (keyType : UInt32) (f : ℕ → ℕ)
    (hf : ∀ p : shape.Active tuple, f p = label p) :
    (((shape.active tuple).entries.filter fun k => decide (k.2 = keyType)).map fun k => f k.1) =
      (shape.places tuple keyType).map label := by
  have htyped : ((shape.active tuple).entries.filter fun k => decide (k.2 = keyType)) =
      (shape.active tuple).entries.filter fun k => decide (shape.typeOf k.1 = keyType) :=
    List.filter_congr fun k hk => by rw [typed_of_active hk]
  have hfst : ((shape.active tuple).entries.filter fun k => decide (shape.typeOf k.1 = keyType)).map Prod.fst =
      (shape.places tuple keyType).map Subtype.val := by
    have hleft : (shape.positions tuple).filter (fun p => decide (shape.typeOf p = keyType)) =
        ((shape.active tuple).entries.filter fun k => decide (shape.typeOf k.1 = keyType)).map Prod.fst :=
      List.filter_map
    have hright : ((shape.positions tuple).attach.map Subtype.val).filter
        (fun p => decide (shape.typeOf p = keyType)) = (shape.places tuple keyType).map Subtype.val := List.filter_map
    rw [← hleft, ← hright, List.attach_map_subtype_val]
  calc (((shape.active tuple).entries.filter fun k => decide (k.2 = keyType)).map fun k => f k.1)
      = (((shape.active tuple).entries.filter fun k => decide (shape.typeOf k.1 = keyType)).map Prod.fst).map f := by
        rw [htyped, List.map_map]
        rfl
    _ = ((shape.places tuple keyType).map Subtype.val).map f := by rw [hfst]
    _ = (shape.places tuple keyType).map label := by
        rw [List.map_map]
        exact List.map_congr_left fun p _ => hf p

/-- **The key rules.** An opaque type's classes grow, an ordered type's classes are ranks. -/
theorem keyRules_iff (label : shape.Active tuple → ℕ) :
    shape.keyRules (shape.relabel tuple label) = true ↔
      (∀ t ∉ shape.ordered, Grows 0 ((shape.places tuple t).map label)) ∧
      ∀ t ∈ shape.ordered, Ranks ((shape.places tuple t).map label) := by
  let f (p : ℕ) : ℕ := if h : p ∈ shape.positions tuple then label ⟨p, h⟩ else 0
  have hf (p : shape.Active tuple) : f p = label p := dif_pos p.2
  have hlabel (k : ℕ × UInt32) (hk : k ∈ (shape.active tuple).entries) : shape.relabel tuple label k.1 = f k.1 := by
    have hp : k.1 ∈ shape.positions tuple := List.mem_map_of_mem hk
    exact (relabel_active label ⟨k.1, hp⟩).trans (congrArg Nat.cast (hf ⟨k.1, hp⟩).symm)
  have hranks (t : UInt32) : shape.ranks (shape.relabel tuple label) t =
      (((shape.places tuple t).map label).map Nat.cast).toFinset := by
    rw [ranks, stored_relabel, ← map_places label t f hf, List.map_map]
    refine Finset.ext fun x => ?_
    simp only [List.mem_toFinset, List.mem_map, List.mem_filter, ← mem_active, Function.comp_apply]
    refine exists_congr fun k => and_congr_right fun hk => ?_
    rw [hlabel k hk.1]
  rw [keyRules, active_relabel, Bool.and_eq_true, decide_eq_true_iff]
  refine and_congr ?_ (forall₂_congr fun t _ => by rw [hranks, contiguous_iff])
  have h := @growthLoop_iff _ shape.ordered f (fun _ => 0) _ hlabel
  simp only [Nat.cast_zero, zero_sub] at h
  rw [h]
  exact forall₂_congr fun t _ => by rw [map_places label t f hf]

theorem mem_places {p : shape.Active tuple} : p ∈ shape.places tuple t ↔ shape.typeOf p = t := by
  simp [places]

/-- **One labelling.** The rules accept exactly one labelling with the pattern of given keys. -/
theorem existsUnique_label {K : Type} [LinearOrder K] (key : shape.Active tuple → K) :
    ∃! label : shape.Active tuple → ℕ, shape.Faithful key label ∧
      shape.keyRules (shape.relabel tuple label) = true := by
  choose grow hgrow hgrowKey using fun t => exists_grows key (shape.places tuple t)
  choose rank hrank hrankKey using fun t => exists_ranks key (shape.places tuple t)
  let label (p : shape.Active tuple) : ℕ :=
    if shape.typeOf p ∈ shape.ordered then rank (shape.typeOf p) p else grow (shape.typeOf p) p
  have hequal {t : UInt32} (ht : t ∉ shape.ordered) {p : shape.Active tuple} (hp : p ∈ shape.places tuple t) :
      label p = grow t p := by
    have htype := mem_places.1 hp
    exact (if_neg (htype ▸ ht)).trans (by rw [htype])
  have hordered {t : UInt32} (ht : t ∈ shape.ordered) {p : shape.Active tuple} (hp : p ∈ shape.places tuple t) :
      label p = rank t p := by
    have htype := mem_places.1 hp
    exact (if_pos (htype ▸ ht)).trans (by rw [htype])
  refine ⟨label, ⟨⟨fun p q hpq => ?_, fun p q hpq ht => ?_⟩, (keyRules_iff label).2 ⟨fun t ht => ?_, fun t ht => ?_⟩⟩,
    fun other ⟨hfaithful, hrules⟩ => funext fun p => ?_⟩
  · have hp : p ∈ shape.places tuple (shape.typeOf p) := mem_places.2 rfl
    have hq : q ∈ shape.places tuple (shape.typeOf p) := mem_places.2 hpq.symm
    by_cases ht : shape.typeOf p ∈ shape.ordered
    · rw [hordered ht hp, hordered ht hq, eq_iff_le_not_lt, eq_iff_le_not_lt, ← not_lt, ← not_lt,
        hrankKey _ p hp q hq, hrankKey _ q hq p hp]
    · rw [hequal ht hp, hequal ht hq]
      exact hgrowKey _ p hp q hq
  · have hp : p ∈ shape.places tuple (shape.typeOf p) := mem_places.2 rfl
    have hq : q ∈ shape.places tuple (shape.typeOf p) := mem_places.2 hpq.symm
    rw [hordered ht hp, hordered ht hq]
    exact hrankKey _ p hp q hq
  · rw [List.map_congr_left fun p hp => hequal ht hp]
    exact hgrow t
  · rw [List.map_congr_left fun p hp => hordered ht hp]
    exact hrank t
  · obtain ⟨hgrows, hranks⟩ := (keyRules_iff other).1 hrules
    have hp : p ∈ shape.places tuple (shape.typeOf p) := mem_places.2 rfl
    have hsame (q r : shape.Active tuple) (hq : q ∈ shape.places tuple (shape.typeOf p))
        (hr : r ∈ shape.places tuple (shape.typeOf p)) : shape.typeOf q = shape.typeOf r :=
      (mem_places.1 hq).trans (mem_places.1 hr).symm
    by_cases ht : shape.typeOf p ∈ shape.ordered
    · rw [hordered ht hp]
      refine Ranks.agree (hranks _ ht) (hrank _) (fun q hq r hr => ?_) p hp
      rw [hfaithful.order q r (hsame q r hq hr) ((mem_places.1 hq).symm ▸ ht), hrankKey _ q hq r hr]
    · rw [hequal ht hp]
      refine @Grows.agree _ _ _ _ [] 0 (by simp) (by simp) (fun q hq r hr => ?_) (hgrows _ ht) (hgrow _) p hp
      rw [hfaithful.equality q r (hsame q r hq hr), hgrowKey _ q hq r hr]

theorem places_of_type (h : ∀ p : shape.Active tuple, shape.typeOf p = t) :
    shape.places tuple t = (shape.positions tuple).attach :=
  List.filter_eq_self.2 fun p _ => decide_eq_true (h p)

theorem places_eq_nil {t' : UInt32} (h : ∀ p : shape.Active tuple, shape.typeOf p = t) (hne : t ≠ t') :
    shape.places tuple t' = [] :=
  List.filter_eq_nil_iff.2 fun p _ => by simpa [h p] using hne

theorem nodup_positions : (shape.positions tuple).Nodup :=
  (List.pairwise_map.2 (shape.active tuple).increasing).imp ne_of_lt

/-- **Accepted words.** The accepted labellings of positions of one type are the growing words, or the rank words. -/
theorem ncard_accepted (h : ∀ p : shape.Active tuple, shape.typeOf p = t) :
    let accepted := {label : shape.Active tuple → ℕ | shape.keyRules (shape.relabel tuple label) = true}
    accepted.Finite ∧ accepted.ncard =
      if t ∈ shape.ordered then (ranked (shape.positions tuple).length).card
      else (growths (shape.positions tuple).length 0).card := by
  have hlen : (shape.positions tuple).attach.length = (shape.positions tuple).length := List.length_attach
  have hnodup : (shape.positions tuple).attach.Nodup := nodup_positions.attach
  have hother (label : shape.Active tuple → ℕ) (t' : UInt32) (hne : t ≠ t') : (shape.places tuple t').map label = [] := by
    rw [places_eq_nil h hne, List.map_nil]
  have hrules (label : shape.Active tuple → ℕ) : shape.keyRules (shape.relabel tuple label) = true ↔
      (shape.positions tuple).attach.map label ∈
        if t ∈ shape.ordered then ranked (shape.positions tuple).length
        else growths (shape.positions tuple).length 0 := by
    rw [keyRules_iff]
    split_ifs with ht
    · rw [mem_ranked, List.length_map, hlen, ← places_of_type h]
      refine ⟨fun ⟨_, hranks⟩ => ⟨rfl, hranks t ht⟩, fun ⟨_, hranks⟩ => ⟨fun t' ht' => ?_, fun t' _ => ?_⟩⟩
      · rw [hother label t' fun heq => ht' (heq ▸ ht)]
        trivial
      · by_cases heq : t = t'
        · rwa [← heq]
        · rw [hother label t' heq]
          exact ⟨0, by simp⟩
    · rw [mem_growths, List.length_map, hlen, ← places_of_type h]
      refine ⟨fun ⟨hgrows, _⟩ => ⟨rfl, hgrows t ht⟩, fun ⟨_, hgrows⟩ => ⟨fun t' _ => ?_, fun t' ht' => ?_⟩⟩
      · by_cases heq : t = t'
        · rwa [← heq]
        · rw [hother label t' heq]
          trivial
      · rw [hother label t' fun heq => ht (heq ▸ ht')]
        exact ⟨0, by simp⟩
  simp only [hrules]
  obtain ⟨hfinite, hcard⟩ := labellings_of_words hnodup (List.mem_attach _) (W := if t ∈ shape.ordered then
      ranked (shape.positions tuple).length else growths (shape.positions tuple).length 0) fun w hw => by
    rw [hlen]
    split_ifs at hw with ht
    · exact (mem_ranked.1 hw).1
    · exact (mem_growths.1 hw).1
  refine ⟨hfinite, hcard.trans ?_⟩
  split_ifs <;> rfl

end Shape

/-! ### The two counts -/

/-- `u128::MAX` -/
def u128Max : ℕ := 2 ^ 128 - 1

def saturatingAdd (a b : ℕ) : ℕ := min (a + b) u128Max

def saturatingMul (a b : ℕ) : ℕ := min (a * b) u128Max

/-- a number as a saturated `u128` -/
def saturated (a : ℕ) : ℕ := min a u128Max

/-- one pass of the loop of `bell`: the next row of the Bell triangle -/
def nextRow (row : List ℕ) : List ℕ :=
  row.foldl (fun next value => next ++ [saturatingAdd (next.getLast?.getD 0) value]) [row.getLast?.getD 1]

def bellRow : ℕ → List ℕ
  | 0 => [1]
  | n + 1 => nextRow (bellRow n)

def bell (n : ℕ) : ℕ := (bellRow n).getD 0 0

/-- the inner loop of `weak_orders`, from `k` down to 1, in place -/
def sweep : ℕ → List ℕ → List ℕ
  | 0, stirling => stirling
  | k + 1, stirling => sweep k
      (stirling.set (k + 1) (saturatingAdd (stirling.getD k 0) (saturatingMul (k + 1) (stirling.getD (k + 1) 0))))

/-- the table of `weak_orders` after `i` passes -/
def stirlingRow (n : ℕ) : ℕ → List ℕ
  | 0 => (List.replicate (n + 1) 0).set 0 1
  | i + 1 => (sweep (i + 1) (stirlingRow n i)).set 0 0

/-- the final loop of `weak_orders` -/
def sumLoop : ℕ → ℕ → ℕ → List ℕ → ℕ
  | _, _, sum, [] => sum
  | k, factorial, sum, s :: rest =>
    let factorial := if 0 < k then saturatingMul factorial k else factorial
    sumLoop (k + 1) factorial (saturatingAdd sum (saturatingMul s factorial)) rest

def weakOrders (n : ℕ) : ℕ := sumLoop 0 1 0 (stirlingRow n n)

theorem saturatingAdd_saturated (a b : ℕ) : saturatingAdd (saturated a) (saturated b) = saturated (a + b) := by
  unfold saturatingAdd saturated
  omega

theorem saturatingMul_right (a b : ℕ) : saturatingMul a (saturated b) = saturated (a * b) := by
  unfold saturatingMul saturated
  rcases Nat.eq_zero_or_pos a with rfl | ha
  · rw [zero_mul, zero_mul]
  · rcases le_total b u128Max with h | h
    · rw [min_eq_left h]
    · have hmax : u128Max ≤ a * u128Max := Nat.le_mul_of_pos_left _ ha
      rw [min_eq_right h, min_eq_right hmax, min_eq_right (hmax.trans (Nat.mul_le_mul_left a h))]

theorem saturatingMul_comm (a b : ℕ) : saturatingMul a b = saturatingMul b a := by
  unfold saturatingMul
  rw [mul_comm]

theorem saturatingMul_saturated (a b : ℕ) : saturatingMul (saturated a) (saturated b) = saturated (a * b) := by
  have hidem (x : ℕ) : saturated (saturated x * b) = saturated (x * b) := by
    rw [mul_comm, ← saturatingMul_right b (saturated x)]
    have h : saturated (saturated x) = saturated x := min_eq_left (min_le_right _ _)
    rw [h, saturatingMul_right, mul_comm]
  rw [saturatingMul_right, hidem]

theorem saturated_zero : saturated 0 = 0 := rfl

theorem saturated_one : saturated 1 = 1 := by decide

/-- the Bell triangle, its entries named by their distance from the diagonal -/
def triangle (d k : ℕ) : ℕ := ∑ ij ∈ Finset.HasAntidiagonal.antidiagonal k, k.choose ij.1 * (d + ij.2).bell

theorem triangle_succ (d k : ℕ) : triangle d (k + 1) = triangle (d + 1) k + triangle d k := by
  have hpascal := Finset.sum_antidiagonal_choose_succ_mul (R := ℕ) (fun _ j => (d + j).bell) k
  simp only [Nat.cast_id] at hpascal
  have hsymm : ∑ ij ∈ Finset.HasAntidiagonal.antidiagonal k, k.choose ij.2 * (d + ij.2).bell = triangle d k :=
    Finset.sum_congr rfl fun ij hij => by rw [Nat.choose_symm_of_eq_add
      (Finset.HasAntidiagonal.mem_antidiagonal.1 hij).symm]
  rw [triangle, hpascal, hsymm]
  refine congrArg (· + triangle d k) (Finset.sum_congr rfl fun ij _ => ?_)
  rw [Nat.add_right_comm, Nat.add_assoc]

theorem triangle_zero_right (d : ℕ) : triangle d 0 = d.bell := by simp [triangle]

theorem triangle_zero_left (k : ℕ) : triangle 0 k = (k + 1).bell := by simp [triangle, Nat.bell_succ']

theorem getLast_map_range (f : ℕ → ℕ) (n : ℕ) : ((List.range (n + 1)).map f).getLast? = some (f n) := by
  rw [List.range_succ, List.map_append, List.map_singleton, List.getLast?_concat]

theorem foldl_sums {f g : ℕ → ℕ} {n : ℕ} (hg : ∀ k < n, g (k + 1) = g k + f k) :
    ((List.range n).map fun k => saturated (f k)).foldl
      (fun next value => next ++ [saturatingAdd (next.getLast?.getD 0) value]) [saturated (g 0)] =
      (List.range (n + 1)).map fun k => saturated (g k) := by
  induction n with
  | zero => rfl
  | succ n ih =>
    rw [List.range_succ, List.map_append, List.foldl_append, ih fun k hk => hg k (hk.trans (Nat.lt_succ_self n)),
      List.map_singleton, List.foldl_cons, List.foldl_nil, getLast_map_range, Option.getD_some, saturatingAdd_saturated,
      ← hg n (Nat.lt_succ_self n), List.range_succ (n := n + 1), List.map_append, List.map_singleton]

theorem bellRow_eq (n : ℕ) : bellRow n = (List.range (n + 1)).map fun k => saturated (triangle (n - k) k) := by
  induction n with
  | zero => simp [bellRow, triangle, saturated_one]
  | succ n ih =>
    have hstep : ∀ k < n + 1, triangle (n + 1 - (k + 1)) (k + 1) = triangle (n + 1 - k) k + triangle (n - k) k := by
      intro k hk
      rw [Nat.add_sub_add_right, triangle_succ, Nat.sub_add_comm (Nat.le_of_lt_succ hk)]
    have hfirst : triangle 0 n = triangle (n + 1 - 0) 0 := by
      rw [triangle_zero_left, triangle_zero_right, Nat.sub_zero]
    rw [bellRow, nextRow, ih, getLast_map_range, Option.getD_some, Nat.sub_self, hfirst]
    exact foldl_sums (f := fun k => triangle (n - k) k) (g := fun k => triangle (n + 1 - k) k) hstep

/-- **The Bell loop** computes the Bell number, up to saturation. -/
theorem bell_eq (n : ℕ) : bell n = saturated n.bell := by
  rw [bell, bellRow_eq, List.range_succ_eq_map, List.map_cons, List.getD_cons_zero, Nat.sub_zero, triangle_zero_right]

theorem length_sweep (k : ℕ) (row : List ℕ) : (sweep k row).length = row.length := by
  induction k generalizing row with
  | zero => rfl
  | succ k ih => rw [sweep, ih, List.length_set]

theorem getD_sweep {k : ℕ} {row : List ℕ} (hk : k < row.length) (j : ℕ) :
    (sweep k row).getD j 0 = if 0 < j ∧ j ≤ k then
      saturatingAdd (row.getD (j - 1) 0) (saturatingMul j (row.getD j 0)) else row.getD j 0 := by
  induction k generalizing row with
  | zero => rw [sweep, if_neg (by omega)]
  | succ k ih =>
    have hset (i : ℕ) (v : ℕ) : (row.set (k + 1) v).getD i 0 = if i = k + 1 then v else row.getD i 0 := by
      rw [List.getD_eq_getElem?_getD, List.getD_eq_getElem?_getD]
      by_cases hi : i = k + 1
      · rw [if_pos hi, hi, List.getElem?_set_self hk, Option.getD_some]
      · rw [if_neg hi, List.getElem?_set_ne (Ne.symm hi)]
    rw [sweep, ih (by rw [List.length_set]; omega)]
    rcases lt_trichotomy j (k + 1) with hj | rfl | hj
    · rw [hset, hset, if_neg (by omega : ¬j - 1 = k + 1), if_neg hj.ne]
      exact if_congr (by omega) rfl rfl
    · rw [if_neg (by omega : ¬(0 < k + 1 ∧ k + 1 ≤ k)), hset, if_pos rfl, if_pos ⟨Nat.succ_pos k, le_rfl⟩,
        Nat.add_sub_cancel]
    · rw [if_neg (by omega : ¬(0 < j ∧ j ≤ k)), if_neg (by omega : ¬(0 < j ∧ j ≤ k + 1)), hset, if_neg hj.ne']

theorem length_stirlingRow (n i : ℕ) : (stirlingRow n i).length = n + 1 := by
  induction i with
  | zero => simp [stirlingRow]
  | succ i ih => rw [stirlingRow, List.length_set, length_sweep, ih]

/-- after `i` passes the table holds the Stirling numbers of `i`, up to saturation -/
theorem getD_stirlingRow {n i : ℕ} (hi : i ≤ n) (j : ℕ) :
    (stirlingRow n i).getD j 0 = saturated (i.stirlingSecond j) := by
  induction i generalizing j with
  | zero =>
    cases j with
    | zero => simp [stirlingRow, saturated_one]
    | succ j =>
      rw [Nat.stirlingSecond_zero_succ, saturated_zero, stirlingRow, List.replicate_succ, List.set_cons_zero,
        List.getD_cons_succ]
      rw [List.getD_eq_getElem?_getD, List.getElem?_replicate]
      split_ifs <;> rfl
  | succ i ih =>
    have hlength := length_stirlingRow n i
    cases j with
    | zero =>
      rw [Nat.stirlingSecond_succ_zero, saturated_zero, stirlingRow, List.getD_eq_getElem?_getD, List.getElem?_set_self]
      · rfl
      · rw [length_sweep, hlength]
        omega
    | succ j =>
      have hskip : (stirlingRow n (i + 1)).getD (j + 1) 0 = (sweep (i + 1) (stirlingRow n i)).getD (j + 1) 0 := by
        rw [stirlingRow, List.getD_eq_getElem?_getD, List.getD_eq_getElem?_getD, List.getElem?_set_ne (by omega)]
      have hvalue := ih (by omega)
      rw [hskip, getD_sweep (by omega), Nat.add_sub_cancel, hvalue, hvalue, saturatingMul_right,
        saturatingAdd_saturated, Nat.stirlingSecond_succ_succ, add_comm ((j + 1) * _)]
      split_ifs with h
      · rfl
      · have hlt : i < j + 1 := by omega
        rw [Nat.stirlingSecond_eq_zero_of_lt hlt]
        by_cases hj : j = i
        · omega
        · rw [Nat.stirlingSecond_eq_zero_of_lt (by omega : i < j), mul_zero, add_zero]

theorem stirlingRow_eq (n : ℕ) :
    stirlingRow n n = (List.range' 0 (n + 1)).map fun k => saturated (n.stirlingSecond k) := by
  refine List.ext_getElem (by rw [length_stirlingRow, List.length_map, List.length_range']) fun k hk hk' => ?_
  have hvalue := getD_stirlingRow (le_refl n) k
  rw [List.getD_eq_getElem _ _ hk] at hvalue
  rw [hvalue, List.getElem_map, List.getElem_range', zero_add, one_mul]

/-- the sum of the remaining products; before the table is at `k`, the factorial is that of `k - 1` -/
theorem sumLoop_eq (f : ℕ → ℕ) (k sum n : ℕ) :
    sumLoop k (saturated (k - 1).factorial) (saturated sum) ((List.range' k n).map fun k => saturated (f k)) =
      saturated (sum + ∑ i ∈ Finset.range n, (k + i).factorial * f (k + i)) := by
  induction n generalizing k sum with
  | zero => rw [Finset.sum_range_zero, add_zero]; rfl
  | succ n ih =>
    have hfactorial : (if 0 < k then saturatingMul (saturated (k - 1).factorial) k else saturated (k - 1).factorial) =
        saturated k.factorial := by
      cases k with
      | zero => rfl
      | succ k =>
        rw [if_pos (Nat.succ_pos k), Nat.add_sub_cancel, saturatingMul_comm, saturatingMul_right, Nat.factorial_succ]
    rw [List.range'_succ, List.map_cons, sumLoop, hfactorial, saturatingMul_saturated, saturatingAdd_saturated]
    have hnext := ih (k + 1) (sum + f k * k.factorial)
    rw [Nat.add_sub_cancel] at hnext
    have hshift : ∑ i ∈ Finset.range n, (k + 1 + i).factorial * f (k + 1 + i) =
        ∑ i ∈ Finset.range n, (k + (i + 1)).factorial * f (k + (i + 1)) :=
      Finset.sum_congr rfl fun i _ => by rw [Nat.add_right_comm, Nat.add_assoc]
    rw [hnext, hshift, Finset.sum_range_succ', add_zero, mul_comm (f k), add_assoc, add_comm (k.factorial * f k)]

/-- **The weak-order loop** computes the ordered Bell number, up to saturation. -/
theorem weakOrders_eq (n : ℕ) :
    weakOrders n = saturated (∑ k ∈ Finset.range (n + 1), k.factorial * n.stirlingSecond k) := by
  have h := sumLoop_eq (fun k => n.stirlingSecond k) 0 0 (n + 1)
  rw [saturated_zero, Nat.zero_sub, Nat.factorial_zero, saturated_one] at h
  simp only [zero_add] at h
  rw [weakOrders, stirlingRow_eq, h]

/-- **Key patterns.** Each pattern of concrete keys has exactly one labelling that the key rules accept, and the rules
accept as many labellings of positions of one type as the two counts say, up to saturation. -/
theorem key_patterns (shape : Shape) (tuple : ℕ → ℤ) :
    (∀ (K : Type) [LinearOrder K] (key : shape.Active tuple → K),
      ∃! label : shape.Active tuple → ℕ, shape.Faithful key label ∧
        shape.keyRules (shape.relabel tuple label) = true) ∧
    ∀ keyType : UInt32, (∀ p : shape.Active tuple, shape.typeOf p = keyType) →
      let n := (shape.positions tuple).length
      let accepted := {label : shape.Active tuple → ℕ | shape.keyRules (shape.relabel tuple label) = true}
      accepted.Finite ∧
      if keyType ∈ shape.ordered then weakOrders n = saturated accepted.ncard else bell n = saturated accepted.ncard := by
  refine ⟨fun K _ key => Shape.existsUnique_label key, fun t h => ?_⟩
  obtain ⟨hfinite, hcard⟩ := Shape.ncard_accepted h
  refine ⟨hfinite, ?_⟩
  split_ifs with ht
  · rw [weakOrders_eq, hcard, if_pos ht, card_ranked]
  · rw [bell_eq, hcard, if_neg ht, card_growths]

/-- two keys of an opaque type, and an entry behind a flag that stores a key of an ordered one -/
def ledgerKeys : OrdMap ℕ UInt32 := OrdMap.empty.extend [(0, 7), (1, 7)]

def ledgerEntry : EntryView := ⟨0, 0, 2, [], [(3, 8)]⟩

def ledgerType (position : ℕ) : UInt32 := if position = 3 then 8 else 7

theorem ledgerKeys_typed : ∀ k ∈ ledgerKeys.entries, k.2 = ledgerType k.1 := by decide

theorem ledgerEntry_typed : ∀ e ∈ [ledgerEntry], ∀ k ∈ e.storedKeys, k.2 = ledgerType k.1 := by decide

theorem ledgerEntry_apart : ∀ e ∈ [ledgerEntry], (∀ k ∈ ledgerKeys.entries, k.1 ≠ e.presence) ∧
    ∀ e' ∈ [ledgerEntry], ∀ k ∈ e'.storedKeys, k.1 ≠ e.presence := by
  decide

def ledgerShape : Shape :=
  ⟨ledgerKeys, [ledgerEntry], {8}, ledgerType, ledgerKeys_typed, ledgerEntry_typed, ledgerEntry_apart⟩

theorem ledgerShape_absent : ledgerShape.positions (fun _ => 0) = [0, 1] := by rfl

example : ledgerShape.positions (fun _ => 1) = [0, 1, 3] := by rfl

/-- with its entry the view has one labelling for equal opaque keys; without it the two opaque keys have two patterns -/
theorem key_patterns_ledger :
    (∃! label : ledgerShape.Active (fun _ => 1) → ℕ, ledgerShape.Faithful (fun p => p.1 / 2) label ∧
      ledgerShape.keyRules (ledgerShape.relabel (fun _ => 1) label) = true) ∧
    {label : ledgerShape.Active (fun _ => 0) → ℕ |
      ledgerShape.keyRules (ledgerShape.relabel (fun _ => 0) label) = true}.ncard = 2 := by
  refine ⟨(key_patterns ledgerShape fun _ => 1).1 ℕ _, ?_⟩
  have htyped : ∀ p : ledgerShape.Active (fun _ => 0), ledgerShape.typeOf p = 7 := by
    rintro ⟨p, hp⟩
    rw [ledgerShape_absent, List.mem_pair] at hp
    rcases hp with rfl | rfl <;> rfl
  have hcount := ((key_patterns ledgerShape fun _ => 0).2 7 htyped).2
  rw [if_neg (by decide), ledgerShape_absent, show bell [0, 1].length = 2 from rfl, saturated, u128Max] at hcount
  omega

end ZenoFcis.Contract.Collections
