/-
Closed values as trees with addressed slots: what a path segment selects, and what it means to change it. This is the
meaning of a patch operation apart from lengths and limits; `Patch.Order` compares the code with it.
-/
import ZenoFcis.Lib.SlotTree
import ZenoFcis.Patch.Apply

namespace ZenoFcis

open Lib

namespace Value

/-- the value that a segment selects -/
def child : PathSegment → Value → Option Value
  | .field id, .record fields => (slot Field.id id fields).map Field.value
  | .tupleIndex index, .tuple items | .vectorIndex index, .vector items => items[index.toNat]?
  | .sumPayload, .sum _ _ payload => payload
  | .mapKey encodedKey, .map entries => (slot MapEntry.encodedKey encodedKey entries).map MapEntry.value
  | _, _ => none

/-- the entry that puts `child` under a key: a present entry keeps its semantic key, a new one takes `mapKey` -/
def entryFor (mapKey : Option Value) (encodedKey : Bytes) (entries : List MapEntry) :
    Option Value → Option (Option MapEntry)
  | none => some none
  | some child =>
    (((slot MapEntry.encodedKey encodedKey entries).map MapEntry.key).or mapKey).map fun key =>
      some (.mk encodedKey key child)

/-- the items with one replaced; an item cannot come or go -/
def setItem (items : List Value) (index : ℕ) (child : Option Value) : Option (List Value) :=
  child.bind fun child => if index < items.length then some (items.set index child) else none

/-- the value with the slot of a segment changed; only fields and map entries can come and go -/
def setChild (mapKey : Option Value) : PathSegment → Value → Option Value → Option Value
  | .field id, .record fields, child => some (.record (put Field.id id (child.map (.mk id)) fields))
  | .tupleIndex index, .tuple items, child => (setItem items index.toNat child).map .tuple
  | .vectorIndex index, .vector items, child => (setItem items index.toNat child).map .vector
  | .sumPayload, .sum typeId variant (some _), some child => some (.sum typeId variant (some child))
  | .mapKey encodedKey, .map entries, child =>
    (entryFor mapKey encodedKey entries child).map fun entry =>
      .map (put MapEntry.encodedKey encodedKey entry entries)
  | _, _, _ => none

end Value

/-- the kind of value that a segment goes into -/
def PathSegment.kind : PathSegment → ValueKind
  | .field _ => .record
  | .tupleIndex _ => .tuple
  | .vectorIndex _ => .vector
  | .sumPayload => .sum
  | .mapKey _ => .map

/-- fields and entries in strictly increasing order, at every depth reached by paths -/
inductive Sorted : Value → Prop where
  | unit : Sorted .unit
  | bool (b : Bool) : Sorted (.bool b)
  | u128 (n : BitVec 128) : Sorted (.u128 n)
  | i128 (n : I128) : Sorted (.i128 n)
  | bytes (b : Bytes) : Sorted (.bytes b)
  | text (t : Bytes) : Sorted (.text t)
  | enum (t : UInt32) (w : UInt16) : Sorted (.enum t w)
  | tuple {items : List Value} (hs : ∀ v ∈ items, Sorted v) : Sorted (.tuple items)
  | record {fields : List Field} (h : Increasing Field.id fields) (hs : ∀ f ∈ fields, Sorted f.value) :
      Sorted (.record fields)
  | sum (t : UInt32) (w : UInt16) {payload : Option Value} (h : ∀ v ∈ payload, Sorted v) : Sorted (.sum t w payload)
  | vector {items : List Value} (hs : ∀ v ∈ items, Sorted v) : Sorted (.vector items)
  | map {entries : List MapEntry} (h : Increasing MapEntry.encodedKey entries)
      (hs : ∀ e ∈ entries, Sorted e.value) : Sorted (.map entries)

/-! ## Laws of one slot -/

section Slots

variable {mapKey mapKey' mapKey'' : Option Value} {a b : PathSegment} {v w x y : Value} {c d : Option Value}
  {k k' : Bytes} {entries : List MapEntry}

/-- an item that exists is set -/
theorem setItem_eq_some {items items' : List Value} {i : ℕ} :
    Value.setItem items i c = some items' ↔ ∃ x, c = some x ∧ i < items.length ∧ items' = items.set i x := by
  cases c with
  | none => simp [Value.setItem]
  | some x => simp [Value.setItem, eq_comm]

theorem setItem_comm {items : List Value} {i j : ℕ} (hij : i ≠ j) :
    (Value.setItem items i c).bind (fun items => Value.setItem items j d) =
      (Value.setItem items j d).bind fun items => Value.setItem items i c := by
  cases c <;> cases d <;> simp only [Value.setItem, Option.bind_some, Option.bind_none, Option.bind_fun_none]
  by_cases hi : i < items.length <;> by_cases hj : j < items.length <;> simp [hi, hj, List.set_comm _ _ hij]

theorem entryFor_some {e : Option MapEntry} {x : Value} (h : Value.entryFor mapKey k entries (some x) = some e) :
    ∃ key, e = some (.mk k key x) := by
  obtain ⟨key, _, rfl⟩ := Option.map_eq_some_iff.1 h
  exact ⟨key, rfl⟩

theorem entryFor_key {e : Option MapEntry} (h : Value.entryFor mapKey k entries c = some e) :
    ∀ x ∈ e, x.encodedKey = k := by
  intro x hx
  cases c with
  | none =>
    cases h
    cases hx
  | some c =>
    obtain ⟨key, rfl⟩ := entryFor_some h
    cases hx
    rfl

theorem entryFor_value {e : Option MapEntry} (h : Value.entryFor mapKey k entries c = some e) :
    e.map MapEntry.value = c := by
  cases c with
  | none =>
    cases h
    rfl
  | some c =>
    obtain ⟨key, rfl⟩ := entryFor_some h
    rfl

theorem entryFor_congr {entries' : List MapEntry}
    (h : slot MapEntry.encodedKey k entries' = slot MapEntry.encodedKey k entries) :
    Value.entryFor mapKey k entries' c = Value.entryFor mapKey k entries c := by
  cases c with
  | none => rfl
  | some c =>
    unfold Value.entryFor
    rw [h]

theorem fieldFor_key {id : UInt16} : ∀ f ∈ c.map (Field.mk id), f.id = id := by
  intro f hf
  obtain ⟨v, _, rfl⟩ := Option.map_eq_some_iff.1 hf
  rfl

theorem child_sorted (hv : Sorted v) (h : v.child a = some w) : Sorted w := by
  cases hv with
  | tuple hs | vector hs =>
    cases a <;> first | cases h | exact hs w (List.mem_of_getElem? h)
  | record hord hs =>
    cases a <;> try cases h
    obtain ⟨f, hf, rfl⟩ := Option.map_eq_some_iff.1 h
    exact hs f (slot_mem hf)
  | map hord hs =>
    cases a <;> try cases h
    obtain ⟨e, he, rfl⟩ := Option.map_eq_some_iff.1 h
    exact hs e (slot_mem he)
  | sum t w hs =>
    cases a <;> first | exact hs _ h | cases h
  | _ => cases a <;> cases h

theorem setChild_sorted (hv : Sorted v) (hc : ∀ x ∈ c, Sorted x) (h : v.setChild mapKey a c = some w) : Sorted w := by
  have hset : ∀ {items items' : List Value} {i : ℕ}, (∀ x ∈ items, Sorted x) →
      Value.setItem items i c = some items' → ∀ x ∈ items', Sorted x := by
    intro items items' i hs hi x hx
    obtain ⟨y, hy, _, rfl⟩ := setItem_eq_some.1 hi
    rcases List.mem_or_eq_of_mem_set hx with hx | rfl
    · exact hs x hx
    · exact hc x hy
  cases hv with
  | tuple hs =>
    cases a <;> simp only [Value.setChild, reduceCtorEq] at h
    obtain ⟨items', hi, rfl⟩ := Option.map_eq_some_iff.1 h
    exact .tuple (hset hs hi)
  | vector hs =>
    cases a <;> simp only [Value.setChild, reduceCtorEq] at h
    obtain ⟨items', hi, rfl⟩ := Option.map_eq_some_iff.1 h
    exact .vector (hset hs hi)
  | record hord hs =>
    cases a <;> simp only [Value.setChild, reduceCtorEq] at h
    cases h
    refine .record (hord.put fieldFor_key) fun f hf => ?_
    rcases mem_put hf with hf | hf
    · obtain ⟨x, hx, rfl⟩ := Option.map_eq_some_iff.1 hf
      exact hc x hx
    · exact hs f hf
  | map hord hs =>
    cases a <;> simp only [Value.setChild, reduceCtorEq] at h
    obtain ⟨e, he, rfl⟩ := Option.map_eq_some_iff.1 h
    refine .map (hord.put (entryFor_key he)) fun x hx => ?_
    rcases mem_put hx with hx | hx
    · refine hc x.value ?_
      rw [← entryFor_value he, hx]
      rfl
    · exact hs x hx
  | @sum t w payload hs =>
    cases a <;> cases payload <;> cases c <;> simp only [Value.setChild, reduceCtorEq] at h
    cases h
    exact .sum _ _ hc
  | _ => cases a <;> cases h

/-- what was set is found -/
theorem child_setChild (hv : Sorted v) (h : v.setChild mapKey a c = some w) : w.child a = c := by
  cases hv with
  | tuple hs | vector hs =>
    cases a <;> simp only [Value.setChild, reduceCtorEq] at h
    obtain ⟨items', hi, rfl⟩ := Option.map_eq_some_iff.1 h
    obtain ⟨y, rfl, hlt, rfl⟩ := setItem_eq_some.1 hi
    exact List.getElem?_set_self hlt
  | record hord hs =>
    cases a <;> simp only [Value.setChild, reduceCtorEq] at h
    cases h
    simp only [Value.child]
    rw [slot_put_self hord fieldFor_key, Option.map_map]
    exact Option.map_id'
  | map hord hs =>
    cases a <;> simp only [Value.setChild, reduceCtorEq] at h
    obtain ⟨e, he, rfl⟩ := Option.map_eq_some_iff.1 h
    simp only [Value.child]
    rw [slot_put_self hord (entryFor_key he), entryFor_value he]
  | @sum t w payload hs =>
    cases a <;> cases payload <;> cases c <;> simp only [Value.setChild, reduceCtorEq] at h
    cases h
    rfl
  | _ => cases a <;> cases h

/-- a child that is there can be set -/
theorem setChild_present (c : Value) (h : v.child a = some x) : ∃ w, v.setChild mapKey a (some c) = some w := by
  cases v <;> cases a <;> simp only [Value.child, reduceCtorEq] at h
  · exact ⟨_, Option.map_eq_some_iff.2 ⟨_, setItem_eq_some.2 ⟨c, rfl, (List.getElem?_eq_some_iff.1 h).1, rfl⟩, rfl⟩⟩
  · exact ⟨_, rfl⟩
  · subst h
    exact ⟨_, rfl⟩
  · exact ⟨_, Option.map_eq_some_iff.2 ⟨_, setItem_eq_some.2 ⟨c, rfl, (List.getElem?_eq_some_iff.1 h).1, rfl⟩, rfl⟩⟩
  · obtain ⟨e, he, rfl⟩ := Option.map_eq_some_iff.1 h
    simp [Value.setChild, Value.entryFor, he]

/-- setting a child leaves the others -/
theorem child_setChild_ne (hv : Sorted v) (hab : a ≠ b) (h : v.setChild mapKey a c = some w) :
    w.child b = v.child b := by
  have hset : ∀ {items items' : List Value} {i j : UInt32}, i ≠ j → Value.setItem items i.toNat c = some items' →
      items'[j.toNat]? = items[j.toNat]? := by
    intro items items' i j hij hi
    obtain ⟨y, _, _, rfl⟩ := setItem_eq_some.1 hi
    exact List.getElem?_set_ne fun he => hij (UInt32.toNat_inj.1 he)
  cases hv with
  | tuple hs | vector hs =>
    cases a <;> simp only [Value.setChild, reduceCtorEq] at h
    obtain ⟨items', hi, rfl⟩ := Option.map_eq_some_iff.1 h
    cases b <;> try rfl
    exact hset (fun he => hab (congrArg _ he)) hi
  | record hord hs =>
    cases a <;> simp only [Value.setChild, reduceCtorEq] at h
    cases h
    cases b <;> try rfl
    simp only [Value.child]
    rw [slot_put_ne fieldFor_key fun he => hab (congrArg _ he.symm)]
  | map hord hs =>
    cases a <;> simp only [Value.setChild, reduceCtorEq] at h
    obtain ⟨e, he, rfl⟩ := Option.map_eq_some_iff.1 h
    cases b <;> try rfl
    simp only [Value.child]
    rw [slot_put_ne (entryFor_key he) fun he => hab (congrArg _ he.symm)]
  | @sum t w payload hs =>
    cases a <;> cases payload <;> cases c <;> simp only [Value.setChild, reduceCtorEq] at h
    cases h
    cases b <;> first | rfl | exact absurd rfl hab
  | _ => cases a <;> cases h

theorem setChild_setChild (d : Value) (hv : Sorted v) (hx : v.child a = some x)
    (h : v.setChild mapKey a (some w) = some y) : y.setChild mapKey' a (some d) = v.setChild mapKey'' a (some d) := by
  have hset : ∀ {items items' : List Value} {i : ℕ}, Value.setItem items i (some w) = some items' →
      Value.setItem items' i (some d) = Value.setItem items i (some d) := by
    intro items items' i hi
    obtain ⟨z, _, _, rfl⟩ := setItem_eq_some.1 hi
    simp [Value.setItem]
  cases hv with
  | tuple hs | vector hs =>
    cases a <;> simp only [Value.setChild, reduceCtorEq] at h
    obtain ⟨items', hi, rfl⟩ := Option.map_eq_some_iff.1 h
    exact congrArg (Option.map _) (hset hi)
  | record hord hs =>
    cases a <;> simp only [Value.setChild, reduceCtorEq] at h
    cases h
    simp only [Value.setChild]
    rw [put_put hord fieldFor_key fieldFor_key]
  | map hord hs =>
    cases a <;> simp only [Value.setChild, reduceCtorEq] at h
    obtain ⟨e, he, rfl⟩ := Option.map_eq_some_iff.1 h
    obtain ⟨e₀, he₀, _⟩ := Option.map_eq_some_iff.1 hx
    have hkeys := entryFor_key he
    simp only [Value.entryFor, he₀, Option.map_some, Option.some_or, Option.some.injEq] at he
    subst he
    simp only [Value.setChild, Value.entryFor, slot_put_self hord hkeys, he₀, Option.map_some, Option.some_or,
      MapEntry.key_mk, Option.some.injEq, Value.map.injEq]
    exact put_put hord (fun e he => by cases he; rfl) hkeys
  | @sum t w payload hs =>
    cases a <;> cases payload <;> simp only [Value.setChild, reduceCtorEq] at h
    cases h
    rfl
  | _ => cases a <;> cases h

/-- setting a child keeps the kind -/
theorem setChild_kind (h : v.setChild mapKey a c = some w) : a.kind = v.kind ∧ w.kind = v.kind := by
  unfold Value.setChild at h
  split at h
  · cases h
    exact ⟨rfl, rfl⟩
  · obtain ⟨items', _, rfl⟩ := Option.map_eq_some_iff.1 h
    exact ⟨rfl, rfl⟩
  · obtain ⟨items', _, rfl⟩ := Option.map_eq_some_iff.1 h
    exact ⟨rfl, rfl⟩
  · cases h
    exact ⟨rfl, rfl⟩
  · obtain ⟨e, _, rfl⟩ := Option.map_eq_some_iff.1 h
    exact ⟨rfl, rfl⟩
  · cases h

theorem setChild_mismatch (h : a.kind ≠ v.kind) : v.setChild mapKey a c = none := by
  by_contra hne
  obtain ⟨w, hw⟩ := Option.ne_none_iff_exists'.1 hne
  exact h (setChild_kind hw).1

theorem setChild_comm (hv : Sorted v) (hab : a ≠ b) :
    (v.setChild mapKey a c).bind (fun w => w.setChild mapKey' b d) =
      (v.setChild mapKey' b d).bind fun w => w.setChild mapKey a c := by
  by_cases ha : a.kind = v.kind
  · by_cases hb : b.kind = v.kind
    · have hitems : ∀ {items : List Value} {i j : UInt32} {make : List Value → Value}, i ≠ j →
          ((Value.setItem items i.toNat c).bind fun items => (Value.setItem items j.toNat d).map make) =
            (Value.setItem items j.toNat d).bind fun items => (Value.setItem items i.toNat c).map make := by
        intro items i j make hij
        have hcomm := congrArg (Option.map make)
          (@setItem_comm c d items i.toNat j.toNat fun he => hij (UInt32.toNat_inj.1 he))
        rw [Option.map_bind, Option.map_bind] at hcomm
        exact hcomm
      cases hv <;> cases a <;> cases ha <;> cases b <;> cases hb
      · simp only [Value.setChild, Option.bind_map, Function.comp_def]
        exact hitems fun he => hab (congrArg _ he)
      · simp only [Value.setChild, Option.bind_some]
        rename_i hord hs i j
        rw [put_put_comm hord fieldFor_key fieldFor_key fun he => hab (congrArg _ he)]
      · exact absurd rfl hab
      · simp only [Value.setChild, Option.bind_map, Function.comp_def]
        exact hitems fun he => hab (congrArg _ he)
      · rename_i entries hord hs i j
        have hij : i ≠ j := fun he => hab (congrArg _ he)
        simp only [Value.setChild, Option.bind_map, Function.comp_def]
        cases hx : Value.entryFor mapKey i entries c with
        | none =>
          refine (Option.bind_eq_none_iff.2 fun y hy => ?_).symm
          rw [entryFor_congr (slot_put_ne (entryFor_key hy) hij), hx, Option.map_none]
        | some x =>
          rw [Option.bind_some, entryFor_congr (slot_put_ne (entryFor_key hx) hij.symm)]
          cases hy : Value.entryFor mapKey' j entries d with
          | none => rfl
          | some y =>
            rw [Option.bind_some, entryFor_congr (slot_put_ne (entryFor_key hy) hij), hx, Option.map_some,
              Option.map_some, put_put_comm hord (entryFor_key hy) (entryFor_key hx) hij.symm]
    · rw [setChild_mismatch hb, Option.bind_none]
      exact Option.bind_eq_none_iff.2 fun w hw => setChild_mismatch ((setChild_kind hw).2 ▸ hb)
  · rw [setChild_mismatch ha, Option.bind_none]
    exact (Option.bind_eq_none_iff.2 fun w hw => setChild_mismatch ((setChild_kind hw).2 ▸ ha)).symm

/-- closed values as a slot tree; the key of a new map entry comes with the edit -/
def slotTree : SlotTree Value PathSegment (Option Value) where
  child := Value.child
  set := Value.setChild
  Ok := Sorted
  child_ok := child_sorted
  set_ok := setChild_sorted
  child_set := child_setChild
  set_present := setChild_present
  set_set := setChild_setChild
  child_set_ne := child_setChild_ne
  set_comm := setChild_comm

end Slots

end ZenoFcis
