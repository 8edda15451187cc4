/-
Ordered-key reads of collection views (`zeno-fcis-contract/src/collections.rs`): the query on a key set, the empty
intervals that a read asserts, and their consistency with the named entries.

`observed_iff` is the one fact about a read: a key set answers it as observed exactly when the found key is in the set
and no key of the set lies in the interval that the read declares empty.
-/
import ZenoFcis.Lib.Odometer
import ZenoFcis.Value.Basic

namespace ZenoFcis.Contract.Collections

open Lib

theorem val_injective : Function.Injective I128.val := by
  rintro ⟨x, _, _⟩ ⟨y, _, _⟩ h
  cases h
  rfl

instance : LinearOrder I128 := LinearOrder.lift' I128.val val_injective

/-- one named entry's view positions -/
structure EntryView where
  map : UInt32
  key : ℕ
  presence : ℕ
  values : List ℕ
  storedKeys : List (ℕ × UInt32)

inductive OrderedQuery where
  | min
  | max
  | successor (key : I128)
  | predecessor (key : I128)
  | range (lo hi : I128)

/-- the iteration of a `BTreeSet`, least key first -/
def ascending (keys : Finset I128) : List I128 := keys.sort

def orderedKey (keys : Finset I128) : OrderedQuery → Option I128
  | .min => (ascending keys).head?
  | .max => (ascending keys).getLast?
  | .successor k => ((ascending keys).filter fun x => k < x).head?
  | .predecessor k => ((ascending keys).filter fun x => x < k).getLast?
  | .range lo hi => if lo ≤ hi then ((ascending keys).filter fun x => lo ≤ x ∧ x ≤ hi).head? else none

inductive ReadKind where
  | min
  | max
  | successor (at_ : ℕ)
  | predecessor (at_ : ℕ)
  | range (lo hi : ℕ)

structure OrderView where
  map : UInt32
  kind : ReadKind
  result : ℕ
  found : ℕ

/-- missing endpoints are infinities, a flag says that an endpoint is inclusive -/
structure EmptyInterval where
  map : UInt32
  lo : Option (I128 × Bool)
  hi : Option (I128 × Bool)

namespace EmptyInterval

/-- `is_none_or` of the lower endpoint -/
def aboveLo : Option (I128 × Bool) → I128 → Bool
  | none, _ => true
  | some (lo, closed), k => decide (lo < k) || (closed && decide (k = lo))

/-- `is_none_or` of the upper endpoint -/
def belowHi : Option (I128 × Bool) → I128 → Bool
  | none, _ => true
  | some (hi, closed), k => decide (k < hi) || (closed && decide (k = hi))

def contains (gap : EmptyInterval) (k : I128) : Bool := aboveLo gap.lo k && belowHi gap.hi k

theorem aboveLo_closed (lo k : I128) : aboveLo (some (lo, true)) k = decide (lo ≤ k) := by
  rw [aboveLo, Bool.true_and, Bool.eq_iff_iff, Bool.or_eq_true, decide_eq_true_eq, decide_eq_true_eq, decide_eq_true_eq,
    le_iff_lt_or_eq, eq_comm]

theorem belowHi_closed (hi k : I128) : belowHi (some (hi, true)) k = decide (k ≤ hi) := by
  rw [belowHi, Bool.true_and, Bool.eq_iff_iff, Bool.or_eq_true, decide_eq_true_eq, decide_eq_true_eq, decide_eq_true_eq,
    le_iff_lt_or_eq]

end EmptyInterval

/-- `tuple[position]`, for a position of the view -/
def value (tuple : List I128) (position : ℕ) : I128 := tuple.getD position ⟨0, by norm_num, by norm_num⟩

/-- `tuple[position] == 1` -/
def flag (tuple : List I128) (position : ℕ) : Bool := decide ((value tuple position).val = 1)

/-- `tuple[position] == 0` -/
def unset (tuple : List I128) (position : ℕ) : Bool := decide ((value tuple position).val = 0)

/-- the interval that a read declares empty; none when its result is on the wrong side of an endpoint -/
def gapOf (tuple : List I128) (read : OrderView) : Option (Option EmptyInterval) :=
  let found := flag tuple read.found
  let r := value tuple read.result
  let bound := if found then some (r, false) else none
  match read.kind with
  | .min => some (some ⟨read.map, none, bound⟩)
  | .max => some (some ⟨read.map, bound, none⟩)
  | .successor p =>
    let k := value tuple p
    if found ∧ r ≤ k then none else some (some ⟨read.map, some (k, false), bound⟩)
  | .predecessor p =>
    let k := value tuple p
    if found ∧ k ≤ r then none else some (some ⟨read.map, bound, some (k, false)⟩)
  | .range p q =>
    let lo := value tuple p
    let hi := value tuple q
    if found ∧ ¬(lo ≤ r ∧ r ≤ hi) then none
    else some (if found then none else some ⟨read.map, some (lo, true), some (hi, true)⟩)

/-- the loop over the reads: the keys present so far and the intervals declared empty -/
def readLoop (tuple : List I128) : List OrderView → List (UInt32 × I128) → List EmptyInterval →
    Option (List (UInt32 × I128) × List EmptyInterval)
  | [], present, empty => some (present, empty)
  | read :: reads, present, empty =>
    match gapOf tuple read with
    | none => none
    | some gap => readLoop tuple reads
        (if flag tuple read.found then present ++ [(read.map, value tuple read.result)] else present)
        (empty ++ gap.toList)

def orderConsistent (reads : List OrderView) (entries : List EntryView) (tuple : List I128) : Bool :=
  if reads.isEmpty then true
  else
    let present := (entries.filter fun e => flag tuple e.presence).map fun e => (e.map, value tuple e.key)
    let absent := (entries.filter fun e => unset tuple e.presence).map fun e => (e.map, value tuple e.key)
    match readLoop tuple reads present [] with
    | none => false
    | some (present, empty) => present.all fun p =>
        !(absent.contains p) && !(empty.any fun gap => decide (gap.map = p.1) && gap.contains p.2)

/-! ## Queries -/

section Queries

variable {keys : Finset I128} {r : I128}

theorem mem_ascending {k : I128} : k ∈ ascending keys ↔ k ∈ keys := Finset.mem_sort _

theorem sorted_ascending : (ascending keys).Pairwise (· < ·) := by
  have hle : (ascending keys).Pairwise (· ≤ ·) := Finset.pairwise_sort _ _
  exact (hle.and (Finset.sort_nodup keys _)).imp fun h => lt_of_le_of_ne h.1 h.2

theorem head?_filter {p : I128 → Bool} : ((ascending keys).filter p).head? = some r ↔
    r ∈ keys ∧ p r = true ∧ ∀ k ∈ keys, k < r → p k = false := by
  rw [List.head?_filter, find?_eq_some_of_pairwise sorted_ascending fun _ _ h => lt_asymm h]
  simp only [mem_ascending]

theorem getLast?_filter {p : I128 → Bool} : ((ascending keys).filter p).getLast? = some r ↔
    r ∈ keys ∧ p r = true ∧ ∀ k ∈ keys, r < k → p k = false := by
  have hreverse : (ascending keys).reverse.Pairwise (· > ·) := List.pairwise_reverse.2 sorted_ascending
  rw [List.getLast?_eq_head?_reverse, ← List.filter_reverse, List.head?_filter,
    find?_eq_some_of_pairwise hreverse fun _ _ h => lt_asymm h]
  simp only [List.mem_reverse, mem_ascending]

theorem head?_eq : (ascending keys).head? = ((ascending keys).filter fun _ => true).head? := by
  rw [List.filter_true]

theorem getLast?_eq : (ascending keys).getLast? = ((ascending keys).filter fun _ => true).getLast? := by
  rw [List.filter_true]

end Queries

/-! ## Observations -/

def query (tuple : List I128) : ReadKind → OrderedQuery
  | .min => .min
  | .max => .max
  | .successor p => .successor (value tuple p)
  | .predecessor p => .predecessor (value tuple p)
  | .range p q => .range (value tuple p) (value tuple q)

/-- what a key set must be for the read to have been observed: the query's own answer, or, for a range, some key in the
closed interval when one was found and none when none was -/
def Observed (keys : Finset I128) (tuple : List I128) (read : OrderView) : Prop :=
  match read.kind with
  | .range p q =>
    if flag tuple read.found then value tuple read.result ∈ keys ∧ value tuple p ≤ value tuple read.result ∧
      value tuple read.result ≤ value tuple q
    else ∀ k ∈ keys, ¬(value tuple p ≤ k ∧ k ≤ value tuple q)
  | kind => orderedKey keys (query tuple kind) = if flag tuple read.found then some (value tuple read.result) else none

/-- **Reads.** A key set answers a read as observed exactly when the read has its result on the right side, the result is
in the set, and the set avoids the empty interval. -/
theorem observed_iff (keys : Finset I128) (tuple : List I128) (read : OrderView) :
    Observed keys tuple read ↔ ∃ gap, gapOf tuple read = some gap ∧
      (flag tuple read.found = true → value tuple read.result ∈ keys) ∧
      ∀ g ∈ gap, ∀ k ∈ keys, g.contains k = false := by
  obtain ⟨map, kind, result, found⟩ := read
  simp only [Observed, gapOf]
  cases hfound : flag tuple found with
  | true =>
    cases kind with
    | min =>
      simp only [query, orderedKey, head?_eq, if_true, head?_filter, EmptyInterval.contains, EmptyInterval.aboveLo,
        EmptyInterval.belowHi]
      simp
    | max =>
      simp only [query, orderedKey, getLast?_eq, if_true, getLast?_filter, EmptyInterval.contains,
        EmptyInterval.aboveLo, EmptyInterval.belowHi]
      simp
    | successor p =>
      simp only [query, orderedKey, if_true, head?_filter, EmptyInterval.contains, EmptyInterval.aboveLo,
        EmptyInterval.belowHi]
      by_cases hle : value tuple result ≤ value tuple p
      · simp [hle]
      · simp only [hle, and_false, if_false, not_le.1 hle]
        simp
        intro _
        exact forall₂_congr fun k _ => by rw [← not_lt, ← not_lt, imp_not_comm]
    | predecessor p =>
      simp only [query, orderedKey, if_true, getLast?_filter, EmptyInterval.contains, EmptyInterval.aboveLo,
        EmptyInterval.belowHi]
      by_cases hle : value tuple p ≤ value tuple result
      · simp [hle]
      · simp [hle, not_le.1 hle]
    | range p q =>
      by_cases hin : value tuple p ≤ value tuple result ∧ value tuple result ≤ value tuple q
      · simp [hin]
      · simp [hin]
  | false =>
    cases kind with
    | min =>
      simp only [query, orderedKey, head?_eq, EmptyInterval.contains, EmptyInterval.aboveLo, EmptyInterval.belowHi]
      simp [List.eq_nil_iff_forall_not_mem, mem_ascending]
    | max =>
      simp only [query, orderedKey, getLast?_eq, EmptyInterval.contains, EmptyInterval.aboveLo, EmptyInterval.belowHi]
      simp [List.eq_nil_iff_forall_not_mem, mem_ascending]
    | successor p | predecessor p =>
      simp [query, orderedKey, mem_ascending, EmptyInterval.contains, EmptyInterval.aboveLo, EmptyInterval.belowHi]
    | range p q =>
      simp [EmptyInterval.contains, EmptyInterval.aboveLo_closed, EmptyInterval.belowHi_closed]

/-! ## Consistency -/

section Consistency

variable {tuple : List I128} {reads : List OrderView} {entries : List EntryView}

/-- the reads leave the keys found and the intervals declared empty, unless one has its result on the wrong side -/
theorem readLoop_spec (reads : List OrderView) (present : List (UInt32 × I128)) (empty : List EmptyInterval) :
    (∃ out, readLoop tuple reads present empty = some out ∧ (∀ read ∈ reads, gapOf tuple read ≠ none) ∧
      (∀ p, p ∈ out.1 ↔ p ∈ present ∨
        ∃ read ∈ reads, flag tuple read.found = true ∧ p = (read.map, value tuple read.result)) ∧
      ∀ g, g ∈ out.2 ↔ g ∈ empty ∨ ∃ read ∈ reads, gapOf tuple read = some (some g)) ∨
    readLoop tuple reads present empty = none ∧ ∃ read ∈ reads, gapOf tuple read = none := by
  induction reads generalizing present empty with
  | nil => exact .inl ⟨(present, empty), rfl, by simp, by simp, by simp⟩
  | cons read reads ih =>
    rw [readLoop]
    cases hgap : gapOf tuple read with
    | none => exact .inr ⟨rfl, read, List.mem_cons_self, hgap⟩
    | some gap =>
      dsimp only
      rcases ih (if flag tuple read.found then present ++ [(read.map, value tuple read.result)] else present)
        (empty ++ gap.toList) with ⟨out, hout, hgaps, hpresent, hempty⟩ | ⟨hnone, read', hmem, hgap'⟩
      · refine .inl ⟨out, hout, List.forall_mem_cons.2 ⟨by rw [hgap]; exact Option.some_ne_none _, hgaps⟩, fun p => ?_,
          fun g => ?_⟩
        · rw [hpresent, List.exists_mem_cons_iff]
          by_cases hfound : flag tuple read.found = true
          · rw [if_pos hfound, List.mem_append, List.mem_singleton, or_assoc]
            exact or_congr_right (or_congr_left (and_iff_right hfound).symm)
          · rw [if_neg hfound]
            exact or_congr_right (or_iff_right fun h => hfound h.1).symm
        · rw [hempty, List.exists_mem_cons_iff, List.mem_append, or_assoc, hgap, Option.some_inj]
          simp
      · exact .inr ⟨hnone, read', List.mem_cons_of_mem _ hmem, hgap'⟩

/-- a key that the entries or the reads say is present -/
def Present (tuple : List I128) (reads : List OrderView) (entries : List EntryView) (map : UInt32) (k : I128) : Prop :=
  (∃ e ∈ entries, flag tuple e.presence = true ∧ e.map = map ∧ value tuple e.key = k) ∨
    ∃ read ∈ reads, flag tuple read.found = true ∧ read.map = map ∧ value tuple read.result = k

/-- a key that the entries say is absent -/
def Absent (tuple : List I128) (entries : List EntryView) (map : UInt32) (k : I128) : Prop :=
  ∃ e ∈ entries, unset tuple e.presence = true ∧ e.map = map ∧ value tuple e.key = k

/-- every result on its side, no key both present and absent, no present key in an empty interval -/
structure Consistent (tuple : List I128) (reads : List OrderView) (entries : List EntryView) : Prop where
  gaps : ∀ read ∈ reads, gapOf tuple read ≠ none
  disjoint : ∀ map k, Present tuple reads entries map k → ¬Absent tuple entries map k
  avoids : ∀ map k, Present tuple reads entries map k → ∀ read ∈ reads, ∀ g, gapOf tuple read = some (some g) →
    g.map = map → g.contains k = false

theorem mem_entries {p : UInt32 × I128} {test : EntryView → Bool} :
    p ∈ (entries.filter test).map (fun e => (e.map, value tuple e.key)) ↔
      ∃ e ∈ entries, test e = true ∧ e.map = p.1 ∧ value tuple e.key = p.2 := by
  rw [List.mem_map]
  constructor
  · rintro ⟨e, he, rfl⟩
    obtain ⟨hmem, htest⟩ := List.mem_filter.1 he
    exact ⟨e, hmem, htest, rfl, rfl⟩
  · rintro ⟨e, hmem, htest, hmap, hkey⟩
    exact ⟨e, List.mem_filter.2 ⟨hmem, htest⟩, Prod.ext hmap hkey⟩

theorem orderConsistent_iff (hreads : reads ≠ []) :
    orderConsistent reads entries tuple = true ↔ Consistent tuple reads entries := by
  have hnil : reads.isEmpty = false := by cases reads <;> simp_all
  unfold orderConsistent
  rw [hnil, if_neg Bool.false_ne_true]
  dsimp only
  rcases @readLoop_spec tuple reads ((entries.filter fun e => flag tuple e.presence).map fun e =>
    (e.map, value tuple e.key)) [] with ⟨⟨present, empty⟩, hout, hgaps, hpresent, hempty⟩ | ⟨hnone, read, hmem, hgap⟩
  · rw [hout]
    have hpresent' (p : UInt32 × I128) : p ∈ present ↔ Present tuple reads entries p.1 p.2 := by
      rw [hpresent, mem_entries]
      refine or_congr_right (exists_congr fun read => and_congr_right fun _ => and_congr_right fun _ => ?_)
      rw [Prod.ext_iff]
      exact ⟨fun h => ⟨h.1.symm, h.2.symm⟩, fun h => ⟨h.1.symm, h.2.symm⟩⟩
    simp only [List.all_eq_true, Bool.and_eq_true, Bool.not_eq_true', List.contains_eq_mem, decide_eq_false_iff_not,
      List.any_eq_false, hpresent', mem_entries, hempty, List.not_mem_nil, false_or, decide_eq_true_eq]
    constructor
    · intro h
      refine ⟨hgaps, fun map k hk => (h (map, k) hk).1, fun map k hk read hread g hg hmap => ?_⟩
      exact Bool.eq_false_iff.2 fun hin => (h (map, k) hk).2 g ⟨read, hread, hg⟩ ⟨hmap, hin⟩
    · rintro ⟨-, hdisjoint, havoids⟩ ⟨map, k⟩ hk
      refine ⟨hdisjoint map k hk, ?_⟩
      rintro g ⟨read, hread, hg⟩ ⟨hmap, hin⟩
      rw [havoids map k hk read hread g hg hmap] at hin
      cases hin
  · rw [hnone]
    exact iff_of_false Bool.false_ne_true fun h => h.gaps read hmem hgap

/-- a gap names the map of its read -/
theorem gapOf_map {read : OrderView} {g : EmptyInterval} (h : gapOf tuple read = some (some g)) : g.map = read.map := by
  unfold gapOf at h
  cases hkind : read.kind <;> grind

/-! ## Key sets behind a view -/

/-- the key sets of the maps show what the entries and the reads say -/
structure Shows (family : UInt32 → Finset I128) (tuple : List I128) (reads : List OrderView)
    (entries : List EntryView) : Prop where
  present : ∀ e ∈ entries, flag tuple e.presence = true → value tuple e.key ∈ family e.map
  absent : ∀ e ∈ entries, unset tuple e.presence = true → value tuple e.key ∉ family e.map
  reads : ∀ read ∈ reads, Observed (family read.map) tuple read

/-- entries of one map at one key are present together -/
def AliasesAgree (tuple : List I128) (entries : List EntryView) : Prop :=
  ∀ a ∈ entries, ∀ b ∈ entries, a.map = b.map → value tuple a.key = value tuple b.key →
    value tuple a.presence = value tuple b.presence

theorem flag_of_unset {p q : ℕ} (h : value tuple p = value tuple q) (hp : flag tuple p = true) :
    ¬unset tuple q = true := by
  rw [flag, decide_eq_true_eq] at hp
  rw [unset, decide_eq_true_eq, ← h, hp]
  decide

/-- the keys of a map that the view says are present -/
def presentKeys (tuple : List I128) (reads : List OrderView) (entries : List EntryView) (map : UInt32) : Finset I128 :=
  (((entries.filter fun e => flag tuple e.presence && decide (e.map = map)).map fun e => value tuple e.key) ++
    (reads.filter fun r => flag tuple r.found && decide (r.map = map)).map fun r => value tuple r.result).toFinset

theorem mem_presentKeys {map : UInt32} {k : I128} :
    k ∈ presentKeys tuple reads entries map ↔ Present tuple reads entries map k := by
  simp only [presentKeys, Present, List.mem_toFinset, List.mem_append, List.mem_map, List.mem_filter, Bool.and_eq_true,
    decide_eq_true_eq]
  simp only [and_assoc]

theorem Consistent.shows (h : Consistent tuple reads entries) :
    Shows (presentKeys tuple reads entries) tuple reads entries := by
  refine ⟨fun e he hflag => mem_presentKeys.2 (.inl ⟨e, he, hflag, rfl, rfl⟩), fun e he hunset hmem => ?_,
    fun read hread => ?_⟩
  · exact h.disjoint _ _ (mem_presentKeys.1 hmem) ⟨e, he, hunset, rfl, rfl⟩
  · obtain ⟨gap, hgap⟩ := Option.ne_none_iff_exists'.1 (h.gaps read hread)
    refine (observed_iff _ _ _).2 ⟨gap, hgap, fun hfound => mem_presentKeys.2 (.inr ⟨read, hread, hfound, rfl, rfl⟩),
      fun g hg k hk => ?_⟩
    obtain rfl : gap = some g := hg
    exact h.avoids read.map k (mem_presentKeys.1 hk) read hread g hgap (gapOf_map hgap)

theorem Shows.consistent {family : UInt32 → Finset I128} (h : Shows family tuple reads entries) :
    Consistent tuple reads entries := by
  have hmem (map : UInt32) (k : I128) (hk : Present tuple reads entries map k) : k ∈ family map := by
    rcases hk with ⟨e, he, hflag, rfl, rfl⟩ | ⟨read, hread, hfound, rfl, rfl⟩
    · exact h.present e he hflag
    · obtain ⟨_, _, hin, _⟩ := (observed_iff _ _ _).1 (h.reads read hread)
      exact hin hfound
  refine ⟨fun read hread => ?_, fun map k hk => ?_, fun map k hk read hread g hg hmap => ?_⟩
  · obtain ⟨gap, hgap, -⟩ := (observed_iff _ _ _).1 (h.reads read hread)
    rw [hgap]
    exact Option.some_ne_none _
  · rintro ⟨e, he, hunset, rfl, rfl⟩
    exact h.absent e he hunset (hmem _ _ hk)
  · obtain ⟨gap, hgap, -, havoids⟩ := (observed_iff _ _ _).1 (h.reads read hread)
    obtain rfl : gap = some g := Option.some.inj (hgap.symm.trans hg)
    refine havoids g rfl k ?_
    rw [← gapOf_map hg, hmap]
    exact hmem map k hk

theorem shows_of_aliasesAgree (h : AliasesAgree tuple entries) :
    Shows (presentKeys tuple [] entries) tuple [] entries := by
  refine ⟨fun e he hflag => mem_presentKeys.2 (.inl ⟨e, he, hflag, rfl, rfl⟩), fun e he hunset hmem => ?_, nofun⟩
  rcases mem_presentKeys.1 hmem with ⟨a, ha, hflag, hmap, hkey⟩ | ⟨_, hread, _⟩
  · exact flag_of_unset (h a ha e he hmap hkey) hflag hunset
  · cases hread

end Consistency

/-! ## Relabelling -/

section Relabelling

def ReadKind.endpoints : ReadKind → List ℕ
  | .min | .max => []
  | .successor p | .predecessor p => [p]
  | .range p q => [p, q]

/-- every key that the view mentions -/
def keySet (tuple : List I128) (reads : List OrderView) (entries : List EntryView) : Set I128 :=
  {k | (∃ e ∈ entries, value tuple e.key = k) ∨
    ∃ read ∈ reads, value tuple read.result = k ∨ ∃ p ∈ read.kind.endpoints, value tuple p = k}

/-- the second tuple is the first one with its keys renamed in their order -/
structure Relabels (f : I128 → I128) (tuple tuple' : List I128) (reads : List OrderView) (entries : List EntryView) :
    Prop where
  keys : ∀ e ∈ entries, value tuple' e.key = f (value tuple e.key)
  presences : ∀ e ∈ entries, value tuple' e.presence = value tuple e.presence
  results : ∀ read ∈ reads, value tuple' read.result = f (value tuple read.result)
  founds : ∀ read ∈ reads, value tuple' read.found = value tuple read.found
  endpoints : ∀ read ∈ reads, ∀ p ∈ read.kind.endpoints, value tuple' p = f (value tuple p)
  increasing : StrictMonoOn f (keySet tuple reads entries)

variable {f : I128 → I128} {tuple tuple' : List I128} {reads : List OrderView} {entries : List EntryView}

/-- the key lies outside the interval that the read declares empty -/
def Avoids (tuple : List I128) (read : OrderView) (k : I128) : Prop :=
  ∀ g, gapOf tuple read = some (some g) → g.contains k = false

section

variable (h : Relabels f tuple tuple' reads entries)

include h

theorem Relabels.gap {read : OrderView} (hread : read ∈ reads) {k : I128} (hk : k ∈ keySet tuple reads entries) :
    (gapOf tuple' read = none ↔ gapOf tuple read = none) ∧
      (Avoids tuple' read (f k) ↔ Avoids tuple read k) := by
  have hresult := h.results read hread
  have hr : value tuple read.result ∈ keySet tuple reads entries := .inr ⟨read, hread, .inl rfl⟩
  have hflag : flag tuple' read.found = flag tuple read.found := by rw [flag, h.founds read hread, flag]
  have hend (p : ℕ) (hp : p ∈ read.kind.endpoints) :
      value tuple' p = f (value tuple p) ∧ value tuple p ∈ keySet tuple reads entries :=
    ⟨h.endpoints read hread p hp, .inr ⟨read, hread, .inr ⟨p, hp, rfl⟩⟩⟩
  have hlt {a b : I128} (ha : a ∈ keySet tuple reads entries) (hb : b ∈ keySet tuple reads entries) :
      f a < f b ↔ a < b := h.increasing.lt_iff_lt ha hb
  have hle {a b : I128} (ha : a ∈ keySet tuple reads entries) (hb : b ∈ keySet tuple reads entries) :
      f a ≤ f b ↔ a ≤ b := h.increasing.le_iff_le ha hb
  unfold Avoids gapOf
  rw [hresult, hflag]
  cases hkind : read.kind with
  | min => cases flag tuple read.found <;> simp [EmptyInterval.contains, EmptyInterval.aboveLo, EmptyInterval.belowHi,
      hle hr hk]
  | max => cases flag tuple read.found <;> simp [EmptyInterval.contains, EmptyInterval.aboveLo, EmptyInterval.belowHi,
      hle hk hr]
  | successor p =>
    obtain ⟨hp, hpk⟩ := hend p (by rw [hkind]; exact List.mem_singleton_self p)
    cases flag tuple read.found <;> simp [EmptyInterval.contains, EmptyInterval.aboveLo, EmptyInterval.belowHi, hp,
      hle hr hpk, hle hr hk, hlt hpk hk]
  | predecessor p =>
    obtain ⟨hp, hpk⟩ := hend p (by rw [hkind]; exact List.mem_singleton_self p)
    cases flag tuple read.found <;> simp [EmptyInterval.contains, EmptyInterval.aboveLo, EmptyInterval.belowHi, hp,
      hle hpk hr, hlt hk hpk, hlt hr hk]
  | range p q =>
    obtain ⟨hp, hpk⟩ := hend p (by rw [hkind]; exact List.mem_cons_self)
    obtain ⟨hq, hqk⟩ := hend q (by rw [hkind]; exact List.mem_cons_of_mem _ (List.mem_singleton_self q))
    cases flag tuple read.found <;> simp [EmptyInterval.contains, EmptyInterval.aboveLo_closed,
      EmptyInterval.belowHi_closed, hp, hq, hle hpk hr, hle hr hqk, hle hpk hk, hle hk hqk]

theorem Relabels.present {map : UInt32} {k' : I128} :
    Present tuple' reads entries map k' ↔
      ∃ k ∈ keySet tuple reads entries, Present tuple reads entries map k ∧ f k = k' := by
  have hflag (e : EntryView) (he : e ∈ entries) : flag tuple' e.presence = flag tuple e.presence := by
    rw [flag, h.presences e he, flag]
  have hfound (r : OrderView) (hr : r ∈ reads) : flag tuple' r.found = flag tuple r.found := by
    rw [flag, h.founds r hr, flag]
  constructor
  · rintro (⟨e, he, hpresent, rfl, rfl⟩ | ⟨r, hr, hpresent, rfl, rfl⟩)
    · exact ⟨value tuple e.key, .inl ⟨e, he, rfl⟩, .inl ⟨e, he, hflag e he ▸ hpresent, rfl, rfl⟩, (h.keys e he).symm⟩
    · exact ⟨value tuple r.result, .inr ⟨r, hr, .inl rfl⟩, .inr ⟨r, hr, hfound r hr ▸ hpresent, rfl, rfl⟩,
        (h.results r hr).symm⟩
  · rintro ⟨k, -, ⟨e, he, hpresent, rfl, rfl⟩ | ⟨r, hr, hpresent, rfl, rfl⟩, rfl⟩
    · exact .inl ⟨e, he, (hflag e he).trans hpresent, rfl, h.keys e he⟩
    · exact .inr ⟨r, hr, (hfound r hr).trans hpresent, rfl, h.results r hr⟩

theorem Relabels.absent {map : UInt32} {k : I128} (hk : k ∈ keySet tuple reads entries) :
    Absent tuple' entries map (f k) ↔ Absent tuple entries map k := by
  refine exists_congr fun e => and_congr_right fun he => ?_
  have hunset : unset tuple' e.presence = unset tuple e.presence := by rw [unset, h.presences e he, unset]
  have hkey : value tuple' e.key = f k ↔ value tuple e.key = k := by
    rw [h.keys e he]
    exact h.increasing.injOn.eq_iff (.inl ⟨e, he, rfl⟩) hk
  rw [hunset, hkey]

/-- **Relabelling.** Consistency depends on the order of the keys alone. -/
theorem Relabels.consistent : Consistent tuple' reads entries ↔ Consistent tuple reads entries := by
  have hgaps (read : OrderView) (hread : read ∈ reads) : gapOf tuple' read = none ↔ gapOf tuple read = none :=
    (h.gap hread (k := value tuple read.result) (.inr ⟨read, hread, .inl rfl⟩)).1
  constructor
  · rintro ⟨hne, hdisjoint, havoids⟩
    have hmem {map : UInt32} {k : I128} (hk : Present tuple reads entries map k) : k ∈ keySet tuple reads entries := by
      rcases hk with ⟨e, he, _, _, rfl⟩ | ⟨r, hr, _, _, rfl⟩
      · exact .inl ⟨e, he, rfl⟩
      · exact .inr ⟨r, hr, .inl rfl⟩
    refine ⟨fun read hread => mt (hgaps read hread).2 (hne read hread), fun map k hk hab => ?_,
      fun map k hk read hread g hg hmap => ?_⟩
    · exact hdisjoint map (f k) (h.present.2 ⟨k, hmem hk, hk, rfl⟩) ((h.absent (hmem hk)).2 hab)
    · refine (h.gap hread (hmem hk)).2.1 (fun g' hg' => ?_) g hg
      exact havoids map (f k) (h.present.2 ⟨k, hmem hk, hk, rfl⟩) read hread g' hg'
        ((gapOf_map hg').trans ((gapOf_map hg).symm.trans hmap))
  · rintro ⟨hne, hdisjoint, havoids⟩
    refine ⟨fun read hread => mt (hgaps read hread).1 (hne read hread), fun map k' hk' hab => ?_,
      fun map k' hk' read hread g hg hmap => ?_⟩
    · obtain ⟨k, hk, hpresent, rfl⟩ := h.present.1 hk'
      exact hdisjoint map k hpresent ((h.absent hk).1 hab)
    · obtain ⟨k, hk, hpresent, rfl⟩ := h.present.1 hk'
      refine (h.gap hread hk).2.2 (fun g' hg' => ?_) g hg
      exact havoids map k hpresent read hread g' hg' ((gapOf_map hg').trans ((gapOf_map hg).symm.trans hmap))

end

end Relabelling

/-- **Order reads.** On entries whose aliases agree, the check accepts exactly the views that some key sets show, and it
depends on the order of the keys alone. -/
theorem order_reads {tuple : List I128} {reads : List OrderView} {entries : List EntryView} :
    (orderConsistent reads entries tuple = true → AliasesAgree tuple entries →
      ∃ family, Shows family tuple reads entries) ∧
    (∀ family, Shows family tuple reads entries → orderConsistent reads entries tuple = true) ∧
    ∀ f tuple', Relabels f tuple tuple' reads entries →
      (orderConsistent reads entries tuple' = true ↔ orderConsistent reads entries tuple = true) := by
  by_cases hreads : reads = []
  · subst hreads
    exact ⟨fun _ hagree => ⟨_, shows_of_aliasesAgree hagree⟩, fun _ _ => rfl, fun _ _ _ => Iff.rfl⟩
  · refine ⟨fun h _ => ⟨_, ((orderConsistent_iff hreads).1 h).shows⟩,
      fun family h => (orderConsistent_iff hreads).2 h.consistent, fun f tuple' h => ?_⟩
    rw [orderConsistent_iff hreads, orderConsistent_iff hreads, h.consistent]

end ZenoFcis.Contract.Collections
