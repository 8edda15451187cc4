/-
The code of a patch operation against its meaning: on a well-formed value every edit of `Patch.Apply` computes the edit
of one slot of `Patch.Slots`, unless a length or a resource limit stops it.
-/
import ZenoFcis.Patch.Slots

namespace ZenoFcis

open Lib Lib.Except Lib.SlotTree

/-- an error that reports a length or a resource limit -/
def PatchError.IsLimit : PatchError → Prop
  | .encode error => error.IsLimit
  | .invalidValue error => error.IsLimit
  | _ => False

/-- the computation yields the expected value, a well-formed one, unless a limit stops it -/
def Computes (x : Except PatchError Value) (y : Option Value) : Prop :=
  match x with
  | .ok w => y = some w ∧ Valid w
  | .error e => e.IsLimit ∨ y = none

namespace Computes

variable {x : Except PatchError Value} {y : Option Value}

/-- a computed value is the meaning -/
theorem ok {w : Value} (h : Computes x y) (hx : x = .ok w) : y = some w ∧ Valid w := by
  rw [hx] at h
  exact h

/-- a failure that is no limit means nothing is computed -/
theorem error {e : PatchError} (h : Computes x y) (hx : x = .error e) (he : ¬ e.IsLimit) : y = none := by
  rw [hx] at h
  exact h.resolve_left he

theorem refused {e : PatchError} (h : y = none) : Computes (.error e) y := .inr h

/-- computations compose -/
theorem bind {f : Value → Except PatchError Value} {g : Value → Option Value} (hx : Computes x y)
    (hf : ∀ w, Valid w → Computes (f w) (g w)) : Computes (x >>= f) (y.bind g) := by
  cases x with
  | error e =>
    rcases hx with he | rfl
    · exact .inl he
    · exact .inr rfl
  | ok w =>
    obtain ⟨rfl, hw⟩ := hx
    exact hf w hw

end Computes

/-! ## Orders -/

/-- bytes are compared as lists -/
theorem bytesBefore_iff_lt {a b : Bytes} : bytesBefore a b = true ↔ a < b := by
  induction a generalizing b with
  | nil =>
    cases b with
    | nil => simp [bytesBefore]
    | cons x b => simp [bytesBefore]
  | cons x a ih =>
    cases b with
    | nil => simp [bytesBefore]
    | cons y b =>
      unfold bytesBefore
      rw [List.cons_lt_cons_iff]
      by_cases hxy : x < y
      · simp [hxy]
      · by_cases hyx : y < x
        · simp [hxy, hyx, hyx.ne']
        · have heq : x = y := le_antisymm (not_lt.1 hyx) (not_lt.1 hxy)
          simp [heq, ih]

/-- fields in order have increasing ids -/
theorem fieldsOrdered_iff {fields : List Field} : FieldsOrdered fields ↔ Increasing Field.id fields := by
  have : Trans (fun a b : Field => a.id < b.id) (fun a b : Field => a.id < b.id) fun a b : Field => a.id < b.id :=
    ⟨fun hab hbc => lt_trans hab hbc⟩
  exact List.isChain_iff_pairwise

variable {entries : List MapEntry}

/-- entries in order have increasing keys -/
theorem keysOrdered_iff : KeysOrdered entries ↔ Increasing MapEntry.encodedKey entries := by
  have : Trans (fun a b : MapEntry => a.encodedKey < b.encodedKey) (fun a b : MapEntry => a.encodedKey < b.encodedKey)
      fun a b : MapEntry => a.encodedKey < b.encodedKey := ⟨fun hab hbc => lt_trans hab hbc⟩
  unfold KeysOrdered
  simp only [bytesBefore_iff_lt]
  exact List.isChain_iff_pairwise

/-- valid values are sorted at all depths -/
theorem Valid.sorted {v : Value} (hv : Valid v) : Sorted v := by
  induction v with
  | tuple items ih =>
    cases hv with
    | tuple _ hs => exact .tuple fun v hv => ih v hv (hs v hv)
  | vector items ih =>
    cases hv with
    | vector _ hs => exact .vector fun v hv => ih v hv (hs v hv)
  | record fields ih =>
    cases hv with
    | record _ hord hs => exact .record (fieldsOrdered_iff.1 hord) fun f hf => ih f hf (hs f hf)
  | map entries ih =>
    cases hv with
    | map _ hord _ hvalue _ _ => exact .map (keysOrdered_iff.1 hord) fun e he => (ih e he).2 (hvalue e he)
  | sum t w payload ih =>
    cases hv with
    | sum _ _ h => exact .sum t w fun v hv => ih v hv (h v hv)
  | unit => exact .unit
  | bool b => exact .bool b
  | u128 n => exact .u128 n
  | i128 n => exact .i128 n
  | bytes b => exact .bytes b
  | text t => exact .text t
  | enum t w => exact .enum t w

/-! ## Rebuilding a node -/

/-- a value that is checked again means itself -/
theorem OnlyLimits.computes {x : Except ValueError Value} {v : Value} (hx : OnlyLimits x)
    (hok : ∀ w, x = .ok w → w = v ∧ Valid v) : Computes (x.mapError .invalidValue) (some v) := by
  cases x with
  | error e => exact .inl (hx e rfl)
  | ok w =>
    obtain ⟨rfl, hv⟩ := hok w rfl
    exact ⟨rfl, hv⟩

/-- a record that is checked again means itself -/
theorem recordCanonical_computes {fields : List Field} (hord : Increasing Field.id fields)
    (hs : ∀ f ∈ fields, Valid f.value) :
    Computes ((Value.recordCanonical fields).mapError .invalidValue) (some (.record fields)) := by
  refine OnlyLimits.computes ?_ fun w hw => ?_
  · unfold Value.recordCanonical
    refine (checkWireLength_limits _).bind fun u _ => ?_
    rw [(ensureStrictFields_eq_ok (u := ())).2 (fieldsOrdered_iff.2 hord)]
    exact .ok
  · have hvalid := recordCanonical_valid hs hw
    simp only [Value.recordCanonical, bind_eq_ok] at hw
    obtain ⟨_, _, _, _, hw⟩ := hw
    cases hw
    exact ⟨rfl, hvalid⟩

theorem checkEntryValues_limits (entries : List MapEntry) : OnlyLimits (Value.checkEntryValues entries) := by
  induction entries with
  | nil => exact .ok
  | cons e entries ih =>
    unfold Value.checkEntryValues
    exact (encodedLength_limits _).bind fun n _ => (checkWireLength_limits _).bind fun _ _ => ih

/-- the conditions of a valid map on one entry, apart from the length of its value -/
def EntryOk (e : MapEntry) : Prop :=
  Valid e.key ∧ Valid e.value ∧ e.encodedKey = wire e.key ∧ e.encodedKey.length ≤ u32Max

theorem Valid.entryOk (h : Valid (.map entries)) : ∀ e ∈ entries, EntryOk e := by
  intro e he
  have := h.entry e he
  exact ⟨this.key, this.value, this.encoded, this.keyFits⟩

/-- a map that is checked again means itself -/
theorem mapCanonical_computes (hord : Increasing MapEntry.encodedKey entries)
    (hs : ∀ e ∈ entries, EntryOk e) :
    Computes ((Value.mapCanonical entries).mapError .invalidValue) (some (.map entries)) := by
  refine OnlyLimits.computes ?_ fun w hw => ?_
  · unfold Value.mapCanonical
    refine (checkWireLength_limits _).bind fun u _ => ?_
    rw [(ensureStrictMapKeys_eq_ok (u := ())).2 (keysOrdered_iff.2 hord), ok_bind]
    exact (checkEntryValues_limits _).bind fun _ _ => .ok
  · have hvalid := mapCanonical_valid hs hw
    simp only [Value.mapCanonical, bind_eq_ok] at hw
    obtain ⟨_, _, _, _, _, _, hw⟩ := hw
    cases hw
    exact ⟨rfl, hvalid⟩

theorem tupleOf_computes {items : List Value} (hs : ∀ v ∈ items, Valid v) :
    Computes ((Value.tupleOf items).mapError .invalidValue) (some (.tuple items)) := by
  refine OnlyLimits.computes ((checkWireLength_limits _).bind fun _ _ => .ok) fun w hw => ?_
  simp only [Value.tupleOf, bind_eq_ok, checkWireLength_eq_ok] at hw
  obtain ⟨_, hlen, hw⟩ := hw
  exact ⟨(Except.ok.inj hw).symm, .tuple hlen hs⟩

theorem vectorOf_computes {items : List Value} (hs : ∀ v ∈ items, Valid v) :
    Computes ((Value.vectorOf items).mapError .invalidValue) (some (.vector items)) := by
  refine OnlyLimits.computes ((checkWireLength_limits _).bind fun _ _ => .ok) fun w hw => ?_
  simp only [Value.vectorOf, bind_eq_ok, checkWireLength_eq_ok] at hw
  obtain ⟨_, hlen, hw⟩ := hw
  exact ⟨(Except.ok.inj hw).symm, .vector hlen hs⟩

theorem tryNew_cases {key value : Value} (hk : Valid key) :
    (∃ e, (MapEntry.tryNew key value).mapError PatchError.invalidValue = .error (.invalidValue e) ∧ e.IsLimit) ∨
      ((MapEntry.tryNew key value).mapError PatchError.invalidValue = .ok (.mk (wire key) key value) ∧
        (wire key).length ≤ u32Max) := by
  have hlimits : OnlyLimits (MapEntry.tryNew key value) := by
    unfold MapEntry.tryNew MapEntry.tryNewWithLimits
    exact OnlyLimits.bind (hk.zcveBytes_limits .default) fun b _ => (checkWireLength_limits _).bind fun _ _ => .ok
  cases hx : MapEntry.tryNew key value with
  | error e => exact .inl ⟨e, rfl, hlimits e hx⟩
  | ok entry =>
    obtain ⟨rfl, hlen⟩ := tryNewWithLimits_valid hk hx
    exact .inr ⟨rfl, hlen⟩

/-! ## Changing one child -/

section Rebuild

variable {v : Value} {first : PathSegment}

theorem Valid.ordered {entries : List MapEntry} (h : Valid (.map entries)) : Increasing MapEntry.encodedKey entries := by
  cases h with
  | map _ hord _ _ _ _ => exact keysOrdered_iff.1 hord

/-- children of valid values are valid -/
theorem child_valid (hv : Valid v) {w : Value} (h : v.child first = some w) : Valid w := by
  cases hv with
  | tuple _ hs | vector _ hs => cases first <;> first | cases h | exact hs w (List.mem_of_getElem? h)
  | record _ _ hs =>
    cases first <;> try cases h
    obtain ⟨f, hf, rfl⟩ := Option.map_eq_some_iff.1 h
    exact hs f (slot_mem hf)
  | map _ _ _ hvalue _ _ =>
    cases first <;> try cases h
    obtain ⟨e, he, rfl⟩ := Option.map_eq_some_iff.1 h
    exact hvalue e (slot_mem he)
  | sum t w hs => cases first <;> first | exact hs _ h | cases h
  | _ => cases first <;> cases h

/-- `rebuildAt` computes the change of a present child -/
theorem rebuildAt_computes (mapKey : Option Value) (hv : Valid v) {edit : Value → Except PatchError Value}
    {g : Value → Option Value} (hedit : ∀ x, v.child first = some x → Computes (edit x) (g x)) :
    Computes (rebuildAt v first edit)
      ((v.child first).bind fun x => (g x).bind fun y => v.setChild mapKey first (some y)) := by
  unfold rebuildAt
  split
  · rename_i id fields
    cases hv with
    | record _ hord hs =>
      have hord' := fieldsOrdered_iff.1 hord
      cases hb : binarySearch Field.id id fields with
      | error i =>
        refine .refused ?_
        simp [Value.child, (binarySearch_error hord' hb).1]
      | ok index =>
        have hfound := binarySearch_ok hb
        have hchild : (Value.record fields).child (.field id) = some fields[index].value := by
          simp [Value.child, hfound.slot]
        rw [hchild]
        refine (hedit _ hchild).bind fun w hw => ?_
        rw [hfound.set]
        refine recordCanonical_computes (hord'.put fun f hf => by cases hf; rfl) fun f hf => ?_
        rcases mem_put hf with hf | hf
        · cases hf
          exact hw
        · exact hs f hf
  · rename_i index items
    cases hv with
    | tuple _ hs =>
      cases hi : items[index.toNat]? with
      | none => exact .refused (by simp [Value.child, hi])
      | some current =>
        have hchild : (Value.tuple items).child (.tupleIndex index) = some current := hi
        rw [hchild]
        refine (hedit _ hchild).bind fun w hw => ?_
        have hset := setItem_eq_some.2 ⟨w, rfl, (List.getElem?_eq_some_iff.1 hi).1, rfl⟩
        simp only [Value.setChild, hset, Option.map_some]
        refine tupleOf_computes fun x hx => ?_
        rcases List.mem_or_eq_of_mem_set hx with hx | rfl
        · exact hs x hx
        · exact hw
  · rename_i index items
    cases hv with
    | vector _ hs =>
      cases hi : items[index.toNat]? with
      | none => exact .refused (by simp [Value.child, hi])
      | some current =>
        have hchild : (Value.vector items).child (.vectorIndex index) = some current := hi
        rw [hchild]
        refine (hedit _ hchild).bind fun w hw => ?_
        have hset := setItem_eq_some.2 ⟨w, rfl, (List.getElem?_eq_some_iff.1 hi).1, rfl⟩
        simp only [Value.setChild, hset, Option.map_some]
        refine vectorOf_computes fun x hx => ?_
        rcases List.mem_or_eq_of_mem_set hx with hx | rfl
        · exact hs x hx
        · exact hw
  · rename_i typeId variant payload
    cases payload with
    | none => exact .refused rfl
    | some current =>
      have hchild : (Value.sum typeId variant (some current)).child .sumPayload = some current := rfl
      rw [hchild]
      refine (hedit _ hchild).bind fun w hw => ⟨rfl, .sum _ _ fun x hx => ?_⟩
      cases hx
      exact hw
  · rename_i encodedKey entries
    have hord := hv.ordered
    cases hb : binarySearch MapEntry.encodedKey encodedKey entries with
    | error i =>
      refine .refused ?_
      simp [Value.child, (binarySearch_error hord hb).1]
    | ok index =>
      have hfound := binarySearch_ok hb
      have hentry := hv.entryOk entries[index] (List.getElem_mem _)
      have hkey : wire entries[index].key = encodedKey := hentry.2.2.1.symm.trans (slot_key hfound.slot)
      have hchild : (Value.map entries).child (.mapKey encodedKey) = some entries[index].value := by
        simp [Value.child, hfound.slot]
      rw [hchild]
      refine (hedit _ hchild).bind fun w hw => ?_
      rcases @tryNew_cases entries[index].key w hentry.1 with ⟨e, he, hlimit⟩ | ⟨he, hlen⟩
      · simp only [he, error_bind]
        exact .inl hlimit
      · simp only [he, ok_bind, hfound.set, hkey, Value.setChild, Value.entryFor, hfound.slot, Option.map_some,
          Option.some_or]
        refine mapCanonical_computes (hord.put fun e he => by cases he; rfl) fun e he => ?_
        rcases mem_put he with he | he
        · cases he
          exact ⟨hentry.1, hw, hkey.symm, hkey ▸ hlen⟩
        · exact hv.entryOk e he
  · rename_i h₁ h₂ h₃ h₄ h₅
    refine .refused (Option.bind_eq_none_iff.2 fun x hx => ?_)
    cases first <;> cases v <;>
      first
      | exact (h₁ _ _ rfl rfl).elim
      | exact (h₂ _ _ rfl rfl).elim
      | exact (h₃ _ _ rfl rfl).elim
      | exact (h₄ _ _ _ rfl rfl).elim
      | exact (h₅ _ _ rfl rfl).elim
      | cases hx

end Rebuild

/-! ## Changing the value at a path -/

/-- replaces a present value -/
def replacing (value : Value) : Change Value := Option.map fun _ => some value

/-- fills an absent slot -/
def inserting (value : Value) : Change Value
  | none => some (some value)
  | some _ => none

/-- empties a present slot -/
def removing : Change Value := Option.map fun _ => none

section Edits

variable {v : Value} {first : PathSegment} {rest : List PathSegment} {mapKey : Option Value} {f : Change Value}

/-- an effect below a child replaces the child -/
theorem effect_below (h : rest ≠ [] ∨ f none = none ∧ ∀ s, f s ≠ some none) :
    slotTree.effect mapKey (first :: rest) f v =
      (v.child first).bind fun x => (slotTree.effect mapKey rest f x).bind fun y => v.setChild mapKey first (some y) := by
  have hact : ∀ s, slotTree.act mapKey rest f s = (s.bind (slotTree.effect mapKey rest f)).map some := by
    intro s
    cases rest with
    | cons b rest => exact act_cons
    | nil =>
      obtain ⟨hnone, hstay⟩ := h.resolve_left fun hne => hne rfl
      cases s with
      | none => exact hnone
      | some x =>
        unfold effect act
        cases hf : f (some x) with
        | none => simp [hf]
        | some c =>
          cases c with
          | none => exact absurd hf (hstay _)
          | some y => simp [hf]
  unfold effect
  rw [act, Option.bind_some, hact]
  change (((v.child first).bind _).map some |>.bind _).join = _
  cases v.child first with
  | none => rfl
  | some x =>
    simp only [Option.bind_some]
    unfold effect
    cases (slotTree.act mapKey rest f (some x)).join with
    | none => rfl
    | some y =>
      simp only [Option.map_some, Option.bind_some]
      change ((v.setChild mapKey first (some y)).map some).join = _
      cases v.setChild mapKey first (some y) <;> rfl

/-- an effect on a child sets the child -/
theorem effect_last :
    slotTree.effect mapKey [first] f v = (f (v.child first)).bind fun c => v.setChild mapKey first c := by
  unfold effect
  rw [act, Option.bind_some, act]
  change ((f (v.child first)).bind fun c => (v.setChild mapKey first c).map some).join = _
  cases f (v.child first) with
  | none => rfl
  | some c =>
    simp only [Option.bind_some]
    cases v.setChild mapKey first c <;> rfl

variable {segments : List PathSegment} {value : Value}

/-- **Replacing** computes its effect -/
theorem replaceAt_computes (mapKey : Option Value) (hv : Valid v)
    (hvalue : Valid value) :
    Computes (replaceAt v segments value) (slotTree.effect mapKey segments (replacing value) v) := by
  induction segments generalizing v with
  | nil => exact ⟨rfl, hvalue⟩
  | cons first rest ih =>
    rw [effect_below (.inr ⟨rfl, fun s => by cases s <;> simp [replacing]⟩)]
    unfold replaceAt
    exact rebuildAt_computes mapKey hv fun x hx => ih (child_valid hv hx)

/-- the key that an insertion at a path carries: the semantic key of the last segment -/
def KeyFor (mapKey : Option Value) (first : PathSegment) : Prop :=
  ∀ encodedKey, first = .mapKey encodedKey → ∃ key, mapKey = some key ∧ Valid key ∧ encodedKey = wire key

/-- slots of fixed kinds are neither made nor removed -/
theorem setChild_fixed (hrecord : ∀ id, first ≠ .field id) (hmap : ∀ k, first ≠ .mapKey k) {c : Option Value}
    (h : c = none ∨ v.child first = none) : v.setChild mapKey first c = none := by
  cases first with
  | field id => exact absurd rfl (hrecord id)
  | mapKey k => exact absurd rfl (hmap k)
  | tupleIndex i | vectorIndex i =>
    cases v <;> try rfl
    refine Option.map_eq_none_iff.2 (Option.eq_none_iff_forall_not_mem.2 fun items hi => ?_)
    obtain ⟨x, rfl, hlt, _⟩ := setItem_eq_some.1 hi
    exact absurd (List.getElem?_eq_none_iff.1 (h.resolve_left nofun)) (not_le.2 hlt)
  | sumPayload =>
    cases v <;> try rfl
    rename_i payload
    cases payload with
    | none => rfl
    | some x =>
      rw [h.resolve_right nofun]
      rfl

theorem insertChild_computes (hv : Valid v) (hvalue : Valid value) (hkey : KeyFor mapKey first) :
    Computes (insertChild v first mapKey value) (slotTree.effect mapKey [first] (inserting value) v) := by
  rw [effect_last]
  unfold insertChild
  split
  · rename_i id fields
    cases hv with
    | record _ hord hs =>
      have hord' := fieldsOrdered_iff.1 hord
      cases hb : binarySearch Field.id id fields with
      | ok index =>
        refine .refused ?_
        simp [Value.child, (binarySearch_ok hb).slot, inserting]
      | error index =>
        obtain ⟨hslot, hput⟩ := binarySearch_error hord' hb
        simp only [Value.child, hslot, Option.map_none, inserting, Option.bind_some, Value.setChild, hput]
        refine recordCanonical_computes (hord'.put fun f hf => by cases hf; rfl) fun f hf => ?_
        rcases mem_put hf with hf | hf
        · cases hf
          exact hvalue
        · exact hs f hf
  · rename_i encodedKey entries
    obtain ⟨key, rfl, hk, rfl⟩ := hkey encodedKey rfl
    have hord := hv.ordered
    cases hb : binarySearch MapEntry.encodedKey (wire key) entries with
    | ok index =>
      refine .refused ?_
      simp [Value.child, (binarySearch_ok hb).slot, inserting]
    | error index =>
      obtain ⟨hslot, hput⟩ := binarySearch_error hord hb
      simp only [Value.child, hslot, Option.map_none, inserting, Option.bind_some, Value.setChild, Value.entryFor,
        Option.none_or, Option.map_some]
      rcases @tryNew_cases key value hk with ⟨e, he, hlimit⟩ | ⟨he, hlen⟩
      · rw [he, error_bind]
        exact .inl hlimit
      · rw [he, ok_bind, if_neg (by simp), hput]
        refine mapCanonical_computes (hord.put fun e he => by cases he; rfl) fun e he => ?_
        rcases mem_put he with he | he
        · cases he
          exact ⟨hk, hvalue, rfl, hlen⟩
        · exact hv.entryOk e he
  · rename_i h₁ h₂
    refine .refused (Option.bind_eq_none_iff.2 fun c hc => ?_)
    cases first with
    | field id => cases v <;> first | exact (h₁ _ _ rfl rfl).elim | rfl
    | mapKey k => cases v <;> first | exact (h₂ _ _ rfl rfl).elim | rfl
    | _ =>
      refine setChild_fixed (by simp) (by simp) (.inr ?_)
      by_contra hne
      obtain ⟨x, hx⟩ := Option.ne_none_iff_exists'.1 hne
      rw [hx] at hc
      cases hc

/-- **Inserting** computes its effect -/
theorem insertAt_computes (hv : Valid v) (hvalue : Valid value)
    (hkey : ∀ first ∈ segments.getLast?, KeyFor mapKey first) :
    Computes (insertAt v segments mapKey value) (slotTree.effect mapKey segments (inserting value) v) := by
  induction segments generalizing v with
  | nil => exact .refused rfl
  | cons first rest ih =>
    cases rest with
    | nil => exact insertChild_computes hv hvalue (hkey first rfl)
    | cons second rest =>
      rw [effect_below (.inl (by simp))]
      unfold insertAt
      exact rebuildAt_computes mapKey hv fun x hx => ih (child_valid hv hx) hkey

theorem deleteChild_computes (hv : Valid v) :
    Computes (deleteChild v first) (slotTree.effect mapKey [first] removing v) := by
  rw [effect_last]
  unfold deleteChild
  split
  · rename_i id fields
    cases hv with
    | record _ hord hs =>
      have hord' := fieldsOrdered_iff.1 hord
      cases hb : binarySearch Field.id id fields with
      | error index =>
        refine .refused ?_
        simp [Value.child, (binarySearch_error hord' hb).1, removing]
      | ok index =>
        have hfound := binarySearch_ok hb
        simp only [Value.child, hfound.slot, Option.map_some, removing, Option.bind_some, Value.setChild, hfound.erase]
        exact recordCanonical_computes (hord'.put (by simp)) fun f hf => hs f ((mem_put hf).resolve_left (by simp))
  · rename_i encodedKey entries
    have hord := hv.ordered
    cases hb : binarySearch MapEntry.encodedKey encodedKey entries with
    | error index =>
      refine .refused ?_
      simp [Value.child, (binarySearch_error hord hb).1, removing]
    | ok index =>
      have hfound := binarySearch_ok hb
      simp only [Value.child, hfound.slot, Option.map_some, removing, Option.bind_some, Value.setChild, Value.entryFor,
        hfound.erase]
      exact mapCanonical_computes (hord.put (by simp)) fun e he => hv.entryOk e ((mem_put he).resolve_left (by simp))
  · rename_i h₁ h₂
    refine .refused (Option.bind_eq_none_iff.2 fun c hc => ?_)
    cases first with
    | field id => cases v <;> first | exact (h₁ _ _ rfl rfl).elim | rfl
    | mapKey k => cases v <;> first | exact (h₂ _ _ rfl rfl).elim | rfl
    | _ =>
      obtain ⟨x, _, hx⟩ := Option.map_eq_some_iff.1 hc
      exact setChild_fixed (by simp) (by simp) (.inl hx.symm)

/-- **Deleting** computes its effect -/
theorem deleteAt_computes (mapKey : Option Value) (hv : Valid v) :
    Computes (deleteAt v segments) (slotTree.effect mapKey segments removing v) := by
  induction segments generalizing v with
  | nil => exact .refused rfl
  | cons first rest ih =>
    cases rest with
    | nil => exact deleteChild_computes hv
    | cons second rest =>
      rw [effect_below (.inl (by simp))]
      unfold deleteAt
      exact rebuildAt_computes mapKey hv fun x hx => ih (child_valid hv hx)

end Edits

end ZenoFcis
