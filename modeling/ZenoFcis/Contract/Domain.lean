/-
Input positions of a contract program (`internals/review/domain.rs`, `domain/leaf.rs`) and the decisions of its
Authority as the finite judges read them (`internals/review/evaluate.rs`).

A refusal's class is read off its text, the debug rendering of the library's refusal, and is left out. So are the two
digests of a decision, which are functions of its successor and its deliveries.
-/
import ZenoFcis.Lib.Axes
import ZenoFcis.Lib.Except
import ZenoFcis.Value.Basic

namespace ZenoFcis.Contract

open Lib Lib.Except

/-! ## Domains -/

/-- `u128::MAX` -/
def u128Max : ℕ := 2 ^ 128 - 1

/-- an admitted leaf domain; the variants of a sum are declared once each -/
inductive LeafDomain where
  | bool
  | int (min max : ℤ)
  | sum (typeId : ℕ) (variants : List ℕ) (distinct : variants.Nodup)
deriving DecidableEq

namespace LeafDomain

/-- `TableIndexRange::cardinality` of a signed range -/
def cardinality (min max : ℤ) : Option ℕ :=
  if min ≤ max then
    let width := (max - min).toNat
    if width + 1 ≤ u128Max then some (width + 1) else none
  else none

/-- the number of values, when it is known -/
def size : LeafDomain → Option ℕ
  | bool => some 2
  | int min max => cardinality min max
  | sum _ variants _ => some variants.length

/-- `(min..=max).collect()` -/
def range (min max : ℤ) : List ℤ := (List.range (max - min + 1).toNat).map fun i : ℕ => min + (i : ℤ)

/-- the values in enumeration order -/
def values : LeafDomain → List ℤ
  | bool => [0, 1]
  | int min max => range min max
  | sum _ variants _ => variants.map fun id : ℕ => (id : ℤ)

def valuesWithin (d : LeafDomain) (limit : ℕ) : Option (List ℤ) := match d.size with
  | none => none
  | some n => if limit < n then none else some d.values

theorem nodup_values (d : LeafDomain) : d.values.Nodup := by
  cases d with
  | bool => decide
  | int min max => exact (List.nodup_range).map fun i j h => by simpa using h
  | sum typeId variants distinct => exact distinct.map fun i j h => by simpa using h

/-- a domain lists as many values as its size says -/
theorem length_values {d : LeafDomain} {n : ℕ} (h : d.size = some n) : d.values.length = n := by
  cases d with
  | bool => exact Option.some.inj h
  | int min max =>
    simp only [size, cardinality] at h
    split_ifs at h with hle hfits
    have hn := Option.some.inj h
    simp only [values, range, List.length_map, List.length_range]
    omega
  | sum typeId variants distinct =>
    simp only [values, List.length_map]
    exact Option.some.inj h

/-- a domain within the limit gives all its values -/
theorem valuesWithin_eq {d : LeafDomain} {n limit : ℕ} (h : d.size = some n) (hle : n ≤ limit) :
    d.valuesWithin limit = some d.values := by
  rw [valuesWithin, h]
  exact if_neg (not_lt.2 hle)

end LeafDomain

inductive Source where
  | state
  | command
  | context
deriving DecidableEq

/-- one program input position: a root field, or a whole scalar root -/
structure Position where
  name : String
  source : Source
  field : Option ℕ
  typeId : ℕ
  domain : LeafDomain
deriving DecidableEq

/-- the positions in program order: the fields of the state record, then the command and context roots -/
structure Positions where
  state : List Position
  input : List Position
  stateSource : ∀ p ∈ state, p.source = .state
  inputSource : ∀ p ∈ input, p.source ≠ .state
  stateField : ∀ p ∈ state, p.field.isSome

namespace Positions

def all (ps : Positions) : List Position := ps.state ++ ps.input

end Positions

/-- the number of tuples, when it fits a `u128` -/
def domainSize (positions : List Position) : Option ℕ := positions.foldlM (fun size position => do
  let n ← position.domain.size
  if size * n ≤ u128Max then some (size * n) else none) 1

/-- the values of some positions -/
def axes (positions : List Position) : List (List ℤ) := positions.map fun p => p.domain.values

theorem domainSize_from {positions : List Position} {k n : ℕ}
    (h : positions.foldlM (fun size position => do
      let n ← position.domain.size
      if size * n ≤ u128Max then some (size * n) else none) k = some n) :
    n = k * Axes.size (axes positions) := by
  induction positions generalizing k with
  | nil =>
    have hk : k = n := by simpa using h
    rw [← hk]
    exact (Nat.mul_one k).symm
  | cons p positions ih =>
    simp only [List.foldlM_cons, Option.bind_eq_bind, Option.bind_eq_some_iff] at h
    obtain ⟨m, ⟨d, hd, hm⟩, h⟩ := h
    split_ifs at hm
    cases hm
    rw [ih h]
    simp only [axes, List.map_cons, Axes.size, LeafDomain.length_values hd, Nat.mul_assoc]

/-- the size of a domain is the number of its tuples -/
theorem domainSize_eq {positions : List Position} {n : ℕ} (h : domainSize positions = some n) :
    n = Axes.size (axes positions) := (domainSize_from h).trans (Nat.one_mul _)

/-- the size of each position is not zero and at most that of the product -/
theorem factor_le {positions : List Position} {k n : ℕ} (h : positions.foldlM (fun size position => do
      let n ← position.domain.size
      if size * n ≤ u128Max then some (size * n) else none) k = some n) (hn : n ≠ 0) :
    ∀ p ∈ positions, ∃ m, p.domain.size = some m ∧ m ≠ 0 ∧ m ≤ n := by
  induction positions generalizing k with
  | nil => simp
  | cons p positions ih =>
    simp only [List.foldlM_cons, Option.bind_eq_bind, Option.bind_eq_some_iff] at h
    obtain ⟨m, ⟨d, hd, hm⟩, h⟩ := h
    split_ifs at hm
    cases hm
    have hrest := domainSize_from h
    refine List.forall_mem_cons.2 ⟨⟨d, hd, ?_, ?_⟩, ih h⟩
    · rintro rfl
      simp [hrest] at hn
    · have hk : k ≠ 0 := by
        rintro rfl
        simp [hrest] at hn
      have hsize : Axes.size (axes positions) ≠ 0 := by
        intro hzero
        simp [hrest, hzero] at hn
      calc d ≤ k * d := Nat.le_mul_of_pos_left d (Nat.pos_of_ne_zero hk)
        _ ≤ k * d * Axes.size (axes positions) := Nat.le_mul_of_pos_right _ (Nat.pos_of_ne_zero hsize)
        _ = n := hrest.symm

/-- no axis lists a value twice -/
theorem axes_nodup (positions : List Position) : ∀ axis ∈ axes positions, axis.Nodup := by
  intro axis haxis
  obtain ⟨p, -, rfl⟩ := List.mem_map.1 haxis
  exact p.domain.nodup_values

/-! ## Decisions -/

inductive Class where
  | accept
  | reject
  | committedFailure
deriving DecidableEq

def Class.name : Class → String
  | accept => "Accept"
  | reject => "Reject"
  | committedFailure => "CommittedFailure"

/-- a typed value of a decision -/
inductive Value where
  | bool (value : Bool)
  | i128 (value : ℤ)
  | u128 (value : ℕ)
  | sum (typeId variant : ℕ)
  | enum (typeId variant : ℕ)
  | text (bytes : Bytes)
  | bytes (bytes : Bytes)
  | other (text : String)
deriving DecidableEq

/-- the number decision examples write -/
def Value.number : Value → Option ℤ
  | bool value => some (if value then 1 else 0)
  | i128 value => some value
  | u128 value => if value < 2 ^ 127 then some value else none
  | sum _ variant | enum _ variant => some variant
  | text _ | bytes _ | other _ => none

/-- field IDs with their values -/
abbrev Fields := List (ℕ × Value)

/-- the entry of a position's field in a successor -/
def entry (post : Fields) (field : Option ℕ) : Option (ℕ × Value) := post.find? fun x => some x.1 = field

/-- one outbox delivery -/
structure Delivery where
  ordinal : ℕ
  channel : ℕ
  destination : Value
  payload : Fields
  idempotency : Value
deriving DecidableEq

/-- a complete decision -/
structure Decision where
  class_ : Class
  reason : Option ℕ
  post : Fields
  outbox : List Delivery
deriving DecidableEq

structure Refusal where
  text : String
  law : Option ℕ
deriving DecidableEq

/-- what the Authority made of one input -/
inductive Outcome where
  | decision (d : Decision)
  | refused (r : Refusal)
deriving DecidableEq

end ZenoFcis.Contract
