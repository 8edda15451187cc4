/-
Complete lexicographic spaces of finite tuples (`zeno-fcis-synthesis/src/finite/mod.rs`): the bounded construction, the
odometer step in place and the iterator.

A space passes through every tuple of its domains once, in lexicographic order; a field is raised only below its maximum,
so that no step leaves `i128`.
-/
import ZenoFcis.Finite.Program
import ZenoFcis.Lib.Except
import ZenoFcis.Lib.Odometer

namespace ZenoFcis.Finite

open Lib Lib.Except

def maxInputs : ℕ := 65536

namespace Domain

/-- the value above, below the maximum -/
def above (d : Domain) (v : I128) : Option I128 :=
  if h : v.val < d.bounds.2.val then
    some ⟨v.val + 1, by have := v.lo; omega, by have := d.bounds.2.hi; omega⟩
  else none

/-- the number of values, when it fits a `u64` -/
def width (d : Domain) : Option ℕ :=
  (checkedSub d.bounds.2 d.bounds.1).bind fun span =>
    (checkedAdd span ⟨1, I128.lo_one, I128.hi_one⟩).bind fun width =>
      if 0 ≤ width.val ∧ width.val < 2 ^ 64 then some width.val.toNat else none

/-- all values, in increasing order -/
def values (d : Domain) : List I128 := trace d.above ((d.bounds.2.val - d.bounds.1.val).toNat + 1) d.bounds.1

end Domain

/-- a complete space of tuples, at its current one -/
structure Space where
  domains : List Domain
  current : Option (List I128)
  count : ℕ

namespace Space

/-- the first tuple -/
def first (domains : List Domain) : List I128 := domains.map fun d => d.bounds.1

/-- the widths multiplied, one domain -/
def countWidth (limit : ℕ) (count : ℕ) (d : Domain) : Except Error ℕ :=
  match d.width with
  | none => .error (.limit "space")
  | some width =>
    if count * width < 2 ^ 64 ∧ count * width ≤ limit then
      if width = 0 then .error (.invalid "domain") else .ok (count * width)
    else .error (.limit "space")

def tryNew (domains : List Domain) (limit : ℕ) : Except Error Space := do
  let count ← domains.foldlM (countWidth limit) 1
  return ⟨domains, some (first domains), count⟩

/-- the fields below `index`, from the last one down -/
def advanceLoop (domains : List Domain) : ℕ → List I128 → List I128 × Bool
  | 0, tuple => (tuple, false)
  | index + 1, tuple =>
    match domains[index]?, tuple[index]? with
    | some d, some v =>
      match d.above v with
      | some next => (tuple.set index next, true)
      | none => advanceLoop domains index (tuple.set index d.bounds.1)
    | _, _ => (tuple, false)

def advance (domains : List Domain) (tuple : List I128) : List I128 × Bool := advanceLoop domains tuple.length tuple

def next (s : Space) : Option (List I128 × Space) :=
  match s.current with
  | none => none
  | some current =>
    some (current, match advance s.domains current with
      | (tuple, true) => ⟨s.domains, some tuple, s.count⟩
      | (_, false) => ⟨s.domains, none, s.count⟩)

/-- at most `n` items of the iterator -/
def items : ℕ → Space → List (List I128)
  | 0, _ => []
  | n + 1, s =>
    match s.next with
    | none => []
    | some (tuple, s) => tuple :: items n s

end Space

/-! ## Domains -/

namespace Domain

variable {d : Domain} {v : I128}

/-- the value above is one more -/
theorem above_some {w : I128} : d.above v = some w ↔ v.val < d.bounds.2.val ∧ w.val = v.val + 1 := by
  unfold above
  split_ifs with h
  · rw [Option.some_inj, ← val_inj, eq_comm]
    exact (and_iff_right h).symm
  · exact iff_of_false (by rintro ⟨⟩) fun hw => h hw.1

theorem above_none : d.above v = none ↔ d.bounds.2.val ≤ v.val := by
  unfold above
  split_ifs with h
  · exact iff_of_false (by rintro ⟨⟩) (not_le.2 h)
  · exact iff_of_true rfl (not_lt.1 h)

/-- what a climb from a value passes through -/
structure Climb (d : Domain) (v : I128) (l : List I128) : Prop where
  visits : Visits d.above v l
  length : l.length = (d.bounds.2.val - v.val).toNat + 1
  mem (w : I128) : w ∈ l ↔ v.val ≤ w.val ∧ w.val ≤ d.bounds.2.val
  sorted : l.Pairwise fun a b => a.val < b.val

theorem exists_climb (d : Domain) {n : ℕ} {v : I128} (h : d.bounds.2.val = v.val + n) : ∃ l, Climb d v l := by
  induction n generalizing v with
  | zero =>
    refine ⟨[v], .last (above_none.2 (by omega)), ?_, fun w => ?_, List.pairwise_singleton _ _⟩
    · rw [List.length_singleton]
      omega
    · rw [List.mem_singleton, ← val_inj]
      omega
  | succ n ih =>
    have hlt : v.val < d.bounds.2.val := by omega
    obtain ⟨w, hw⟩ : ∃ w, d.above v = some w := Option.ne_none_iff_exists'.1 (mt above_none.1 (not_le.2 hlt))
    obtain ⟨-, hval⟩ := above_some.1 hw
    obtain ⟨l, hl⟩ := @ih w (by omega)
    refine ⟨v :: l, .step hw hl.visits, ?_, fun x => ?_, List.pairwise_cons.2 ⟨fun x hx => ?_, hl.sorted⟩⟩
    · rw [List.length_cons, hl.length]
      omega
    · rw [List.mem_cons, hl.mem, ← val_inj]
      omega
    · have hle := (hl.mem x).1 hx
      omega

/-- **Values.** A valid domain climbs from its minimum through all of its values. -/
theorem climb_values (h : d.valid = true) : Climb d d.bounds.1 d.values := by
  rw [valid, decide_eq_true_eq] at h
  obtain ⟨l, hl⟩ := @exists_climb d (d.bounds.2.val - d.bounds.1.val).toNat d.bounds.1 (by omega)
  rwa [values, hl.visits.trace_eq hl.length.le]

theorem mem_values (h : d.valid = true) {v : I128} : v ∈ d.values ↔ d.contains v = true := by
  rw [(climb_values h).mem, contains, Bool.and_eq_true, decide_eq_true_eq, decide_eq_true_eq]

/-- a domain lists the values between its bounds -/
theorem length_values (h : d.valid = true) : d.values.length = (d.bounds.2.val - d.bounds.1.val).toNat + 1 :=
  (climb_values h).length

/-- the width of a domain, where a word holds it -/
theorem width_eq (h : d.valid = true) :
    d.width = if d.values.length < 2 ^ 64 then some d.values.length else none := by
  rw [length_values h]
  rw [valid, decide_eq_true_eq] at h
  have hlo := d.bounds.1.lo
  have hhi := d.bounds.2.hi
  unfold width checkedSub checkedAdd
  cases hspan : narrow (d.bounds.2.val - d.bounds.1.val) with
  | none =>
    have hwide := narrow_eq_none.1 hspan
    rw [if_neg (by omega)]
    rfl
  | some span =>
    have hval := narrow_eq_some.1 hspan
    rw [Option.bind_some]
    cases hwidth : narrow (span.val + 1) with
    | none =>
      have hwide := narrow_eq_none.1 hwidth
      have hlarge := span.hi
      rw [if_neg (by omega)]
      rfl
    | some w =>
      have hw := narrow_eq_some.1 hwidth
      rw [Option.bind_some]
      by_cases hfits : 0 ≤ w.val ∧ w.val < 2 ^ 64
      · rw [if_pos hfits, if_pos (by omega)]
        exact congrArg some (by omega)
      · rw [if_neg hfits, if_neg (by omega)]

end Domain

/-! ## The odometer -/

namespace Space

/-- the odometer of the domains -/
abbrev successor (domains : List Domain) (tuple : List I128) : Option (List I128) :=
  Lib.advance (fun d : Domain => d.bounds.1) Domain.above domains tuple

theorem advanceLoop_eq {domains : List Domain} {tuple : List I128} (h : tuple.length = domains.length)
    (domains' : List Domain) (tuple' : List I128) :
    advanceLoop (domains ++ domains') domains.length (tuple ++ tuple') =
      match successor domains tuple with
      | some u => (u ++ tuple', true)
      | none => (first domains ++ tuple', false) := by
  induction domains using List.reverseRecOn generalizing tuple domains' tuple' with
  | nil =>
    obtain rfl := List.length_eq_zero_iff.1 h
    rfl
  | append_singleton domains d ih =>
    rw [List.length_append, List.length_singleton] at h
    obtain ⟨tuple, v, rfl⟩ : ∃ t v, tuple = t ++ [v] :=
      ⟨tuple.dropLast, tuple.getLast (List.ne_nil_of_length_eq_add_one h), (List.dropLast_append_getLast _).symm⟩
    rw [List.length_append, List.length_singleton, Nat.add_right_cancel_iff] at h
    have hd : ((domains ++ [d]) ++ domains')[domains.length]? = some d := by simp
    have hv : ((tuple ++ [v]) ++ tuple')[domains.length]? = some v := by simp [← h]
    have hset (w : I128) : ((tuple ++ [v]) ++ tuple').set domains.length w = tuple ++ (w :: tuple') := by simp [← h]
    have hsnoc : successor (domains ++ [d]) (tuple ++ [v]) = match d.above v with
        | some w => some (tuple ++ [w])
        | none => (successor domains tuple).map (· ++ [d.bounds.1]) := by
      rw [successor, advance_snoc _ _ h]
      cases d.above v <;> rfl
    rw [List.length_append, List.length_singleton, advanceLoop, hd, hv, hsnoc]
    dsimp only
    cases hnext : d.above v with
    | some w =>
      dsimp only
      rw [hset, List.append_assoc, List.singleton_append]
    | none =>
      dsimp only
      rw [hset, List.append_assoc, ih h]
      cases successor domains tuple <;> simp [first]

/-- `advance` steps to the successor, and starts over after the last tuple -/
theorem advance_eq {domains : List Domain} {tuple : List I128} (h : tuple.length = domains.length) :
    advance domains tuple =
      match successor domains tuple with
      | some u => (u, true)
      | none => (first domains, false) := by
  have hloop := advanceLoop_eq h [] []
  simp only [List.append_nil] at hloop
  rw [advance, h, hloop]

theorem length_successor {domains : List Domain} {tuple u : List I128} (h : successor domains tuple = some u) :
    u.length = domains.length := by
  induction domains generalizing tuple u with
  | nil => cases h
  | cons d domains ih =>
    cases tuple with
    | nil => cases h
    | cons v tuple =>
      cases htail : successor domains tuple with
      | some w =>
        rw [successor, advance_some _ _ htail] at h
        cases h
        rw [List.length_cons, ih htail, List.length_cons]
      | none =>
        rw [successor, advance_none _ _ htail, Option.map_eq_some_iff] at h
        obtain ⟨w, -, rfl⟩ := h
        rw [List.length_cons, List.length_map, List.length_cons]

theorem items_eq {s : Space} {tuple : List I128} (hcurrent : s.current = some tuple)
    (hlen : tuple.length = s.domains.length) (n : ℕ) : s.items n = trace (successor s.domains) n tuple := by
  induction n generalizing s tuple with
  | zero => rfl
  | succ n ih =>
    rw [items, next, hcurrent, trace]
    dsimp only
    rw [advance_eq hlen]
    cases hnext : successor s.domains tuple with
    | some u => exact congrArg (tuple :: ·) (@ih ⟨s.domains, some u, s.count⟩ u rfl (length_successor hnext))
    | none =>
      cases n <;> rfl

/-! ## Complete spaces -/

/-- every tuple of the domains -/
def tuples (domains : List Domain) : List (List I128) := Axes.tuples (domains.map Domain.values)

section Tuples

variable {domains : List Domain}

/-- the odometer visits all tuples -/
theorem visits_tuples (h : validDomains domains = true) : Visits (successor domains) (first domains) (tuples domains) :=
  visits_advance fun d hd => (Domain.climb_values (List.all_eq_true.1 h d hd)).visits

/-- the tuples are what the domains admit -/
theorem mem_tuples (h : validDomains domains = true) {t : List I128} : t ∈ tuples domains ↔ admitted domains t = true := by
  rw [tuples, Axes.mem_tuples, admitted, Bool.and_eq_true, decide_eq_true_eq]
  induction domains generalizing t with
  | nil =>
    cases t with
    | nil => simp
    | cons v t => simp
  | cons d domains ih =>
    rw [validDomains, List.all_cons, Bool.and_eq_true] at h
    cases t with
    | nil => simp
    | cons v t =>
      rw [List.map_cons, List.forall₂_cons, ih h.2, Domain.mem_values h.1, List.zipWith_cons_cons, List.all_cons,
        Bool.and_eq_true, List.length_cons, List.length_cons, Nat.add_right_cancel_iff]
      exact and_left_comm

/-- the lexicographic order of tuples -/
def Before : List I128 → List I128 → Prop := List.Lex fun a b => a.val < b.val

theorem before_asymm (s t : List I128) (h : Before s t) : ¬Before t s := by
  induction h with
  | nil => nofun
  | cons _ ih =>
    intro h
    cases h with
    | cons h => exact ih h
    | rel h => exact lt_irrefl _ h
  | rel hlt =>
    intro h
    cases h with
    | cons _ => exact lt_irrefl _ hlt
    | rel h => exact lt_asymm hlt h

/-- the tuples are listed in order -/
theorem sorted_tuples (h : validDomains domains = true) : (tuples domains).Pairwise Before :=
  Axes.pairwise_tuples fun axis haxis => by
    obtain ⟨d, hd, rfl⟩ := List.mem_map.1 haxis
    exact (Domain.climb_values (List.all_eq_true.1 h d hd)).sorted

theorem nodup_tuples (h : validDomains domains = true) : (tuples domains).Nodup :=
  (sorted_tuples h).imp fun {s t} hlt heq => by
    subst heq
    exact before_asymm s s hlt hlt

theorem length_cons (d : Domain) : (tuples (d :: domains)).length = d.values.length * (tuples domains).length := by
  simp only [tuples, Axes.length_tuples, List.map_cons, Axes.size]

theorem values_pos {d : Domain} (h : d.valid = true) : 0 < d.values.length := by
  rw [Domain.length_values h]
  exact Nat.succ_pos _

theorem foldlM_countWidth (h : validDomains domains = true) {limit : ℕ} (hlimit : limit < 2 ^ 64) {count : ℕ}
    (hcount : 0 < count) (hle : count ≤ limit) : domains.foldlM (countWidth limit) count =
      if count * (tuples domains).length ≤ limit then .ok (count * (tuples domains).length)
      else .error (.limit "space") := by
  induction domains generalizing count with
  | nil =>
    have hone : (tuples []).length = 1 := rfl
    rw [hone, Nat.mul_one, if_pos hle]
    rfl
  | cons d domains ih =>
    rw [validDomains, List.all_cons, Bool.and_eq_true] at h
    have hpos := values_pos h.1
    have hrest : 0 < (tuples domains).length := List.length_pos_of_ne_nil (visits_tuples h.2).ne_nil
    have hgrow : count * d.values.length ≤ count * d.values.length * (tuples domains).length :=
      Nat.le_mul_of_pos_right _ hrest
    have hwide : d.values.length ≤ count * d.values.length := Nat.le_mul_of_pos_left _ hcount
    rw [List.foldlM_cons, length_cons, ← Nat.mul_assoc, countWidth, Domain.width_eq h.1]
    by_cases hfits : count * d.values.length ≤ limit
    · rw [if_pos (by omega)]
      dsimp only
      rw [if_pos ⟨by omega, hfits⟩, if_neg (by omega), ok_bind, ih h.2 (Nat.mul_pos hcount hpos) hfits]
    · rw [if_neg (show ¬_ ≤ limit by omega)]
      split_ifs
      · dsimp only
        rw [if_neg (by omega)]
        rfl
      · rfl

/-- **Spaces.** A space is constructed exactly when its tuples do not exceed the limit, and passes through all of them. -/
theorem tryNew_eq (h : validDomains domains = true) {limit : ℕ} (hpos : 0 < limit) (hlimit : limit < 2 ^ 64) :
    tryNew domains limit = if (tuples domains).length ≤ limit then
      .ok ⟨domains, some (first domains), (tuples domains).length⟩ else .error (.limit "space") := by
  rw [tryNew, foldlM_countWidth h hlimit Nat.one_pos hpos, Nat.one_mul]
  split_ifs <;> rfl

/-- a space that is read to its end gives all tuples -/
theorem items_tuples (h : validDomains domains = true) (count : ℕ) {n : ℕ} (hn : (tuples domains).length ≤ n) :
    (⟨domains, some (first domains), count⟩ : Space).items n = tuples domains := by
  rw [items_eq rfl (List.length_map _)]
  exact (visits_tuples h).trace_eq hn

end Tuples

end Space

end ZenoFcis.Finite
