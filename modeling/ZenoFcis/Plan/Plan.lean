/-
Plans as data (`zeno-fcis-plan`): evidence published with a candidate and the external deliveries it commits to. A plan
is built by its `tryNew` only, so it carries the order that `tryNew` establishes.
-/
import ZenoFcis.Lib.SortedList
import ZenoFcis.Patch.Path

namespace ZenoFcis

open Lib Patch

/-- the first two neighbours with one ordinal -/
def duplicateOrdinal {α : Type} (ordinal : α → UInt32) : List α → Option UInt32
  | a :: b :: l => if ordinal a = ordinal b then some (ordinal a) else duplicateOrdinal ordinal (b :: l)
  | _ => none

/-- distinct ordinals in order increase -/
theorem increasing_of_distinct {α : Type} {ordinal : α → UInt32} {l : List α}
    (hsorted : l.Pairwise fun a b => ordinal a ≤ ordinal b) (h : duplicateOrdinal ordinal l = none) :
    Increasing ordinal l := by
  induction l with
  | nil => exact .nil
  | cons a l ih =>
    cases l with
    | nil => exact List.pairwise_singleton _ _
    | cons b l =>
      unfold duplicateOrdinal at h
      split_ifs at h with hab
      obtain ⟨hle, hrest⟩ := List.pairwise_cons.1 hsorted
      have htail := ih hrest h
      refine List.pairwise_cons.2 ⟨fun c hc => ?_, htail⟩
      have hlt : ordinal a < ordinal b := lt_of_le_of_ne (hle b List.mem_cons_self) hab
      rcases List.mem_cons.1 hc with rfl | hc
      · exact hlt
      · exact hlt.trans (htail.head_lt hc)

/-- a stable sort by ordinal -/
def sortByOrdinal {α : Type} (ordinal : α → UInt32) (l : List α) : List α :=
  l.mergeSort fun a b => ordinal a ≤ ordinal b

theorem sortByOrdinal_sorted {α : Type} (ordinal : α → UInt32) (l : List α) :
    (sortByOrdinal ordinal l).Pairwise fun a b => ordinal a ≤ ordinal b :=
  Lib.sorted_mergeSort ordinal l

inductive PlanError where
  | duplicateEffectOrdinal (ordinal : UInt32)
  | duplicateOutboxOrdinal (ordinal : UInt32)
deriving DecidableEq

/-! ## Evidence -/

/-- one non-executable evidence record -/
structure PlanEffect where
  ordinal : UInt32
  operation : UInt32
  authority : Hash32
  subject : Hash32
  payload : Value

def PlanEffect.canonicalBytes (effect : PlanEffect) : Except EncodeError Bytes := do
  return beBytes 4 effect.ordinal.toNat ++ beBytes 4 effect.operation.toNat ++ effect.authority.bytes ++
    effect.subject.bytes ++ (← putBlob (← effect.payload.canonicalBytes))

/-- canonically ordered commit evidence -/
structure CommitPlan where
  effects : List PlanEffect
  increasing : Increasing PlanEffect.ordinal effects

namespace CommitPlan

/-- sorts by ordinal and rejects duplicates -/
def tryNew (effects : List PlanEffect) : Except PlanError CommitPlan :=
  let sorted := sortByOrdinal PlanEffect.ordinal effects
  match h : duplicateOrdinal PlanEffect.ordinal sorted with
  | some ordinal => .error (.duplicateEffectOrdinal ordinal)
  | none => .ok ⟨sorted, increasing_of_distinct (sortByOrdinal_sorted _ _) h⟩

def empty : CommitPlan := ⟨[], .nil⟩

def encodeEffects : List PlanEffect → Except EncodeError Bytes
  | [] => .ok []
  | effect :: effects => do return (← putBlob (← effect.canonicalBytes)) ++ (← encodeEffects effects)

def canonicalBytes (plan : CommitPlan) : Except EncodeError Bytes := do
  return (← putLength plan.effects.length) ++ (← encodeEffects plan.effects)

end CommitPlan

/-! ## Deliveries -/

/-- one external-delivery obligation -/
structure OutboxEntry where
  ordinal : UInt32
  channel : UInt32
  destination : Value
  payload : Value

namespace OutboxEntry

def canonicalBytes (entry : OutboxEntry) : Except EncodeError Bytes := do
  return beBytes 4 entry.ordinal.toNat ++ beBytes 4 entry.channel.toNat ++
    (← putBlob (← entry.destination.canonicalBytes)) ++ (← putBlob (← entry.payload.canonicalBytes))

/-- the idempotent delivery identity of an entry of a candidate -/
def deliveryId (hash : Bytes → Hash32) (entry : OutboxEntry) (candidateId : Hash32) : Except EncodeError Hash32 := do
  let bytes ← entry.canonicalBytes
  commitment hash (.fixed "zeno-fcis/delivery") (candidateId.bytes ++ bytes)

end OutboxEntry

/-- canonically ordered external deliveries -/
structure OutboxPlan where
  entries : List OutboxEntry
  increasing : Increasing OutboxEntry.ordinal entries

namespace OutboxPlan

/-- sorts by ordinal and rejects duplicates -/
def tryNew (entries : List OutboxEntry) : Except PlanError OutboxPlan :=
  let sorted := sortByOrdinal OutboxEntry.ordinal entries
  match h : duplicateOrdinal OutboxEntry.ordinal sorted with
  | some ordinal => .error (.duplicateOutboxOrdinal ordinal)
  | none => .ok ⟨sorted, increasing_of_distinct (sortByOrdinal_sorted _ _) h⟩

def empty : OutboxPlan := ⟨[], .nil⟩

def encodeEntries : List OutboxEntry → Except EncodeError Bytes
  | [] => .ok []
  | entry :: entries => do return (← putBlob (← entry.canonicalBytes)) ++ (← encodeEntries entries)

def canonicalBytes (plan : OutboxPlan) : Except EncodeError Bytes := do
  return (← putLength plan.entries.length) ++ (← encodeEntries plan.entries)

end OutboxPlan

end ZenoFcis
