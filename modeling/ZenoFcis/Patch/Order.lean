/-
A canonical patch is a simultaneous update: its operations may be applied in any order. `try_new` compares neighbours of
one sort order only; that is enough, since in lexicographic order whatever lies between a path and an extension of it
extends it too.

Result: `simultaneous_update`. The order of an accepted patch does not matter, and exactly overlapping targets are
refused as such once every operation has an admissible shape and an encodable path.
-/
import ZenoFcis.Patch.Meaning

namespace ZenoFcis

open Lib Lib.Except Lib.SlotTree

/-! ## Overlap -/

variable {p q path : ValuePath} {ops : List PatchOp} {e : PatchError} {v : Value}

theorem ValuePath.isPrefixOf_iff : p.isPrefixOf q = true ↔ p.segments <+: q.segments := by
  obtain ⟨p⟩ := p
  obtain ⟨q⟩ := q
  unfold ValuePath.isPrefixOf
  simp only [Bool.and_eq_true, decide_eq_true_eq]
  induction p generalizing q with
  | nil => simp
  | cons a p ih =>
    cases q with
    | nil => simp
    | cons b q =>
      rw [List.cons_prefix_cons, ← ih q]
      simp only [List.length_cons, List.zip_cons_cons, List.all_cons, Bool.and_eq_true, decide_eq_true_eq,
        Nat.add_le_add_iff_right]
      tauto

/-- neither path extends the other -/
def Apart (p q : ValuePath) : Prop := Independent p.segments q.segments

/-- paths stand apart in either order -/
theorem Apart.symm (h : Apart p q) : Apart q p := Independent.symm h

theorem neighboursOverlap_eq_false {paths : List ValuePath} (hsorted : paths.Pairwise fun p q => p ≤ q) :
    neighboursOverlap paths = false ↔ paths.Pairwise Apart := by
  induction paths with
  | nil => simp [neighboursOverlap]
  | cons p paths ih =>
    cases paths with
    | nil => simp [neighboursOverlap]
    | cons q paths =>
      have hle := List.pairwise_cons.1 hsorted
      rw [List.pairwise_cons, ← ih hle.2]
      simp only [neighboursOverlap, Bool.or_eq_false_iff]
      refine and_congr_left fun htail => ⟨fun hpq r hr => ?_, fun h => ?_⟩
      · have hpq' : ¬ p.segments <+: q.segments := fun h => by
          rw [ValuePath.isPrefixOf_iff.2 h] at hpq
          cases hpq
        have hqr : q ≤ r := by
          rcases List.mem_cons.1 hr with rfl | hr
          · exact le_rfl
          · exact (List.pairwise_cons.1 hle.2).1 r hr
        have hle' : p ≤ q := hle.1 q List.mem_cons_self
        refine ⟨fun h => hpq' (prefix_of_between h hle' hqr), fun h => ?_⟩
        -- an extension of `r` cannot come before it, so all three are equal
        have hrp : r ≤ p := prefix_le h
        have heq : p = q := le_antisymm hle' (hqr.trans hrp)
        exact hpq' (heq ▸ List.prefix_rfl)
      · by_contra hne
        rw [Bool.not_eq_false] at hne
        exact (h q List.mem_cons_self).1 (ValuePath.isPrefixOf_iff.1 hne)

/-! ## Construction -/

/-- keyed operations are the operations -/
theorem keyOperations_snd {keyed : List (Bytes × PatchOp)} (h : keyOperations ops = .ok keyed) :
    keyed.map Prod.snd = ops := by
  induction ops generalizing keyed with
  | nil =>
    cases h
    rfl
  | cons op ops ih =>
    simp only [keyOperations, bind_eq_ok] at h
    obtain ⟨key, _, rest, hrest, hkeyed⟩ := h
    cases hkeyed
    rw [List.map_cons, ih hrest]

theorem keyOperations_error (h : keyOperations ops = .error e) :
    e ≠ .overlappingPaths := by
  induction ops with
  | nil => cases h
  | cons op ops ih =>
    unfold keyOperations PatchOp.sortKey at h
    cases hkey : op.path.canonicalBytes with
    | error e' =>
      rw [hkey] at h
      cases h
      nofun
    | ok key =>
      cases hrest : keyOperations ops with
      | error e' =>
        rw [hkey, hrest] at h
        cases h
        exact ih hrest
      | ok rest =>
        rw [hkey, hrest] at h
        cases h

theorem validateInsertShape_error {op : PatchOp} (h : validateInsertShape op = .error e) :
    e ≠ .overlappingPaths := by
  rintro rfl
  unfold validateInsertShape at h
  split at h
  · split at h
    · cases h
    · split_ifs at h
      cases h
    · split at h
      · cases h
      · rename_i key
        cases hbytes : key.canonicalBytes with
        | error e' =>
          rw [hbytes] at h
          cases h
        | ok bytes =>
          rw [hbytes] at h
          change (if _ then _ else _) = _ at h
          split_ifs at h
          cases h
    · cases h
    · cases h
    · cases h
  · cases h
  · cases h

/-- all insert shapes are checked -/
theorem validateInsertShapes_eq_ok {u : Unit} :
    validateInsertShapes ops = .ok u ↔ ∀ op ∈ ops, validateInsertShape op = .ok () := by
  induction ops with
  | nil => simp [validateInsertShapes]
  | cons op ops ih =>
    rw [validateInsertShapes, bind_eq_ok, List.forall_mem_cons, ← ih]
    exact ⟨fun ⟨_, hop, hops⟩ => ⟨hop, hops⟩, fun ⟨hop, hops⟩ => ⟨(), hop, hops⟩⟩

theorem validateInsertShapes_error (h : validateInsertShapes ops = .error e) :
    e ≠ .overlappingPaths := by
  induction ops with
  | nil => cases h
  | cons op ops ih =>
    unfold validateInsertShapes at h
    cases hop : validateInsertShape op with
    | error e' =>
      rw [hop] at h
      cases h
      exact validateInsertShape_error hop
    | ok u =>
      rw [hop] at h
      exact ih h

/-- what `try_new` decides once every operation has a shape and a sort key -/
theorem tryNew_keyed {stateType : UInt32} {root : Hash32} {ops : List PatchOp} {keyed : List (Bytes × PatchOp)}
    (hshape : validateInsertShapes ops = .ok ()) (hkeyed : keyOperations ops = .ok keyed) :
    ((ops.map PatchOp.path).Pairwise Apart → ∃ operations : List PatchOp, operations.Perm ops ∧
        CanonicalPatch.tryNew stateType root ops = .ok ⟨stateType, root, operations⟩) ∧
      (¬ (ops.map PatchOp.path).Pairwise Apart →
        CanonicalPatch.tryNew stateType root ops = .error .overlappingPaths) := by
  set sorted := keyed.mergeSort fun left right => decide (left.1 ≤ right.1) with hsorted
  have hperm : (sorted.map Prod.snd).Perm ops := by
    rw [← keyOperations_snd hkeyed]
    exact (List.mergeSort_perm _ _).map _
  set paths := (sorted.map fun entry => entry.2.path).mergeSort fun left right => decide (left ≤ right) with hpaths
  have hpathsPerm : paths.Perm (ops.map PatchOp.path) := by
    refine (List.mergeSort_perm _ _).trans ?_
    have := hperm.map PatchOp.path
    rwa [List.map_map] at this
  have hle : paths.Pairwise fun p q => p ≤ q :=
    Lib.sorted_mergeSort (fun path : ValuePath => path) (sorted.map fun entry => entry.2.path)
  have hiff : neighboursOverlap paths = false ↔ (ops.map PatchOp.path).Pairwise Apart := by
    rw [neighboursOverlap_eq_false hle]
    exact hpathsPerm.pairwise_iff fun h => h.symm
  unfold CanonicalPatch.tryNew
  rw [hshape, ok_bind, hkeyed, ok_bind]
  simp only [← hsorted, ← hpaths]
  refine ⟨fun hapart => ⟨_, hperm, ?_⟩, fun hover => ?_⟩
  · rw [hiff.2 hapart]
    rfl
  · rw [← hiff, Bool.not_eq_false] at hover
    rw [if_pos hover]

/-- operations given in the order of their paths are kept as they are -/
theorem tryNew_sorted {stateType : UInt32} {root : Hash32} {ops : List PatchOp} {keyed : List (Bytes × PatchOp)}
    (hshape : validateInsertShapes ops = .ok ()) (hkeyed : keyOperations ops = .ok keyed)
    (hsorted : keyed.Pairwise fun left right => left.1 ≤ right.1) (hapart : (ops.map PatchOp.path).Pairwise Apart) :
    CanonicalPatch.tryNew stateType root ops = .ok ⟨stateType, root, ops⟩ := by
  obtain ⟨operations, _, hnew⟩ := (@tryNew_keyed stateType root ops keyed hshape hkeyed).1 hapart
  have hkept : (keyed.mergeSort fun left right => decide (left.1 ≤ right.1)) = keyed :=
    List.mergeSort_of_pairwise (hsorted.imp fun h => decide_eq_true h)
  have hsame := hnew
  unfold CanonicalPatch.tryNew at hsame
  rw [hshape, ok_bind, hkeyed, ok_bind, hkept] at hsame
  simp only at hsame
  split_ifs at hsame
  rw [hnew, ← Except.ok.inj hsame, keyOperations_snd hkeyed]

/-- what a patch holds when it is built -/
theorem tryNew_ok {stateType : UInt32} {root : Hash32} {patch : CanonicalPatch}
    (h : CanonicalPatch.tryNew stateType root ops = .ok patch) :
    patch.operations.Perm ops ∧ (∀ op ∈ ops, validateInsertShape op = .ok ()) ∧
      (ops.map PatchOp.path).Pairwise Apart := by
  have hbind := h
  simp only [CanonicalPatch.tryNew, bind_eq_ok] at hbind
  obtain ⟨_, hshape, keyed, hkeyed, _⟩ := hbind
  obtain ⟨hapart, hover⟩ := @tryNew_keyed stateType root ops keyed hshape hkeyed
  by_cases hpaths : (ops.map PatchOp.path).Pairwise Apart
  · obtain ⟨operations, hperm, hnew⟩ := hapart hpaths
    obtain rfl := Except.ok.inj (hnew.symm.trans h)
    exact ⟨hperm, validateInsertShapes_eq_ok.1 hshape, hpaths⟩
  · rw [hover hpaths] at h
    cases h

/-! ## Operations -/

theorem find_absent (segments : List PathSegment) : slotTree.find segments none = none := by
  induction segments with
  | nil => rfl
  | cons first rest ih => exact ih

/-- one step of `lookup`: an absent slot of the right kind is not found -/
theorem lookup_cons {first : PathSegment} {rest : List PathSegment} (hv : Valid v) :
    lookup v (first :: rest) = match v.child first with
      | some w => lookup w rest
      | none => .error (if first.kind = v.kind then .pathNotFound else .pathTypeMismatch) := by
  cases hv with
  | @record fields _ hord hs =>
    cases first <;> try rfl
    rename_i id
    cases hb : binarySearch Field.id id fields with
    | error i =>
      have hslot := (binarySearch_error (fieldsOrdered_iff.1 hord) hb).1
      have hchild : (Value.record fields).child (.field id) = none := by simp [Value.child, hslot]
      rw [lookup, hb, hchild]
      rfl
    | ok i =>
      have hchild : (Value.record fields).child (.field id) = some fields[i].value := by
        simp [Value.child, (binarySearch_ok hb).slot]
      rw [lookup, hb, hchild]
  | @map entries _ hord _ _ _ _ =>
    cases first <;> try rfl
    rename_i k
    cases hb : binarySearch MapEntry.encodedKey k entries with
    | error i =>
      have hslot := (binarySearch_error (keysOrdered_iff.1 hord) hb).1
      have hchild : (Value.map entries).child (.mapKey k) = none := by simp [Value.child, hslot]
      rw [lookup, hb, hchild]
      rfl
    | ok i =>
      have hchild : (Value.map entries).child (.mapKey k) = some entries[i].value := by
        simp [Value.child, (binarySearch_ok hb).slot]
      rw [lookup, hb, hchild]
  | @tuple items _ hs =>
    cases first <;> try rfl
    rename_i i
    have hchild : (Value.tuple items).child (.tupleIndex i) = items[i.toNat]? := rfl
    rw [lookup, hchild]
    cases items[i.toNat]? <;> rfl
  | @vector items _ hs =>
    cases first <;> try rfl
    rename_i i
    have hchild : (Value.vector items).child (.vectorIndex i) = items[i.toNat]? := rfl
    rw [lookup, hchild]
    cases items[i.toNat]? <;> rfl
  | @sum t w payload hs =>
    cases first <;> try rfl
    cases payload <;> rfl
  | _ => cases first <;> rfl

/-- `lookup` reads the slot of its path -/
theorem lookup_find {v : Value} {segments : List PathSegment} (hv : Valid v) :
    match lookup v segments with
    | .ok w => slotTree.find segments (some v) = some w ∧ Valid w
    | .error _ => slotTree.find segments (some v) = none := by
  induction segments generalizing v with
  | nil => exact ⟨rfl, hv⟩
  | cons first rest ih =>
    rw [lookup_cons hv]
    cases hchild : v.child first with
    | none => exact (congrArg (slotTree.find rest) hchild).trans (find_absent rest)
    | some w =>
      have hfind : slotTree.find (first :: rest) (some v) = slotTree.find rest (some w) :=
        congrArg (slotTree.find rest) hchild
      rw [hfind]
      exact ih (child_valid hv hchild)

namespace PatchOp

variable (hash : Bytes → Hash32)

def mapKey : PatchOp → Option Value
  | .insert _ mapKey _ => mapKey
  | .update _ _ _ | .delete _ _ => none

def holds (expected : Hash32) (slot : Option Value) : Bool :=
  slot.any fun old => hashPreconditionValue hash old = .ok expected

/-- what an operation does to the slot at its path -/
def change : PatchOp → Change Value
  | .insert _ _ value => inserting value
  | .update _ expected value => fun slot => if holds hash expected slot then replacing value slot else none
  | .delete _ expected => fun slot => if holds hash expected slot then removing slot else none

def edit (op : PatchOp) : Edit Value PathSegment (Option Value) := ⟨op.mapKey, op.path.segments, op.change hash⟩

/-- the values an operation carries are built ones -/
def Built : PatchOp → Prop
  | .insert _ mapKey value => (∀ key ∈ mapKey, ZenoFcis.Built key) ∧ ZenoFcis.Built value
  | .update _ _ value => ZenoFcis.Built value
  | .delete _ _ => True

end PatchOp

variable {hash : Bytes → Hash32}

/-- a hashed value fails by a limit only -/
theorem hashValue_limits {domain : Domain} (hv : Valid v)
    (h : hashValue hash domain v = .error e) : e.IsLimit := by
  unfold hashValue at h
  cases hbytes : v.canonicalBytes with
  | error e' =>
    rw [hbytes] at h
    cases h
    exact hv.canonicalBytes_limits hbytes
  | ok bytes =>
    rw [hbytes] at h
    obtain ⟨e', he', rfl⟩ := mapError_eq_error.1 h
    exact commitment_limits he'

theorem guarded_computes {expected : Hash32} {mapKey : Option Value} {f : Change Value}
    {x : Except PatchError Value} (hv : Valid v)
    (hx : Computes x (slotTree.effect mapKey path.segments f v)) :
    Computes (checkOldValue hash v path expected >>= fun _ => x) (slotTree.effect mapKey path.segments
      (fun slot => if PatchOp.holds hash expected slot then f slot else none) v) := by
  have hrefused : ∀ {g : Change Value}, g (slotTree.find path.segments (some v)) = none →
      slotTree.effect mapKey path.segments g v = none := fun hg => by
    unfold effect
    rw [act_refused hg]
    rfl
  have hfind := @lookup_find v path.segments hv
  unfold checkOldValue
  cases hlookup : lookup v path.segments with
  | error e =>
    rw [hlookup] at hfind
    refine .refused (hrefused ?_)
    rw [hfind]
    rfl
  | ok old =>
    rw [hlookup] at hfind
    obtain ⟨hfind, hold⟩ := hfind
    cases hhash : hashPreconditionValue hash old with
    | error e =>
      simp only [ok_bind, hhash, error_bind]
      exact .inl (hashValue_limits hold hhash)
    | ok actual =>
      simp only [ok_bind, hhash]
      by_cases heq : actual = expected
      · rw [if_neg (not_not.2 heq), ok_bind]
        unfold effect
        rw [act_congr (g := f) ?_]
        · exact hx
        · rw [hfind]
          simp [PatchOp.holds, hhash, heq]
      · rw [if_pos heq]
        refine .refused (hrefused ?_)
        rw [hfind]
        simp [PatchOp.holds, hhash, heq]

/-- the shape of an insert gives the kind of its key -/
theorem keyFor_of_shape {mapKey : Option Value} {value : Value}
    (hkey : ∀ key ∈ mapKey, Valid key) (h : validateInsertShape (.insert path mapKey value) = .ok ()) :
    ∀ first ∈ path.segments.getLast?, KeyFor mapKey first := by
  rintro first hfirst k rfl
  rw [validateInsertShape, hfirst] at h
  cases mapKey with
  | none => cases h
  | some key =>
    simp only [bind_eq_ok, mapError_eq_ok] at h
    obtain ⟨actual, hactual, h⟩ := h
    split_ifs at h with hne
    have hk := hkey key rfl
    obtain ⟨_, rfl, _⟩ := hk.zcveBytesWithLimits.1 (mapError_eq_ok.1 hactual)
    exact ⟨key, rfl, hk, (not_not.1 hne).symm⟩

/-- **One operation** computes its effect -/
theorem applyOperation_computes {v : Value} {op : PatchOp} (hv : Valid v) (hbuilt : op.Built)
    (hshape : validateInsertShape op = .ok ()) :
    Computes (applyOperation hash v op) (slotTree.effect op.mapKey op.path.segments (op.change hash) v) := by
  cases op with
  | insert path mapKey value =>
    have hkeys : ∀ key ∈ mapKey, Valid key := fun key hkey => built_valid (hbuilt.1 key hkey)
    exact insertAt_computes hv (built_valid hbuilt.2) (keyFor_of_shape hkeys hshape)
  | update path expected value =>
    exact guarded_computes hv (replaceAt_computes none hv (built_valid hbuilt))
  | delete path expected => exact guarded_computes hv (deleteAt_computes none hv)

theorem applyOperations_computes {v : Value} {ops : List PatchOp} (hv : Valid v) (hbuilt : ∀ op ∈ ops, op.Built)
    (hshape : ∀ op ∈ ops, validateInsertShape op = .ok ()) :
    Computes (applyOperations hash v ops) (slotTree.run (ops.map (PatchOp.edit hash)) v) := by
  induction ops generalizing v with
  | nil => exact ⟨rfl, hv⟩
  | cons op ops ih =>
    rw [List.forall_mem_cons] at hbuilt hshape
    exact (applyOperation_computes hv hbuilt.1 hshape.1).bind fun w hw => ih hw hbuilt.2 hshape.2

/-! ## The order of a patch -/

theorem change_sound {op : PatchOp} (hbuilt : op.Built) : slotTree.Sound (op.change hash) := by
  intro s s' hs hs' x hx
  cases op with
  | insert path mapKey value =>
    cases s with
    | none =>
      cases hs'
      cases hx
      exact (built_valid hbuilt.2).sorted
    | some old => cases hs'
  | update path expected value =>
    simp only [PatchOp.change, replacing] at hs'
    split_ifs at hs'
    obtain ⟨_, _, rfl⟩ := Option.map_eq_some_iff.1 hs'
    cases hx
    exact (built_valid hbuilt).sorted
  | delete path expected =>
    simp only [PatchOp.change, removing] at hs'
    split_ifs at hs'
    obtain ⟨_, _, rfl⟩ := Option.map_eq_some_iff.1 hs'
    cases hx

theorem run_operations_perm {ops' : List PatchOp} (hperm : ops'.Perm ops) (hbuilt : ∀ op ∈ ops, op.Built)
    (hapart : (ops.map PatchOp.path).Pairwise Apart) (hv : Valid v) :
    slotTree.run (ops'.map (PatchOp.edit hash)) v = slotTree.run (ops.map (PatchOp.edit hash)) v := by
  refine (run_perm (hperm.symm.map _) ?_ ?_ hv.sorted).symm
  · intro e he
    obtain ⟨op, hop, rfl⟩ := List.mem_map.1 he
    exact change_sound (hbuilt op hop)
  · have hpaths := (List.pairwise_map (R := Apart)).1 hapart
    exact List.pairwise_map.2 hpaths

theorem apply_agree {patch patch' : CanonicalPatch} {ops : List PatchOp} {domain : Domain} {state : Value}
    (hroot : patch'.expectedPreRoot = patch.expectedPreRoot) (hperm : patch.operations.Perm ops)
    (hperm' : patch'.operations.Perm ops) (hbuilt : ∀ op ∈ ops, op.Built)
    (hshape : ∀ op ∈ ops, validateInsertShape op = .ok ()) (hapart : (ops.map PatchOp.path).Pairwise Apart)
    (hstate : Valid state) {a : AppliedPatch} (ha : patch.apply hash state domain = .ok a) :
    match patch'.apply hash state domain with
    | .ok b => a = b
    | .error e => e.IsLimit := by
  unfold CanonicalPatch.apply at ha ⊢
  cases hpre : hashValue hash domain state with
  | error e =>
    rw [hpre] at ha
    cases ha
  | ok actual =>
    rw [hpre, ok_bind] at ha
    rw [ok_bind, hroot]
    by_cases heq : actual = patch.expectedPreRoot
    · rw [if_neg (not_not.2 heq)] at ha ⊢
      simp only [bind_eq_ok] at ha
      obtain ⟨w, hw, root, hpost, ha⟩ := ha
      have hrun := (applyOperations_computes hstate (fun op hop => hbuilt op (hperm.mem_iff.1 hop))
        fun op hop => hshape op (hperm.mem_iff.1 hop)).ok hw
      have hcomputes := @applyOperations_computes hash _ _ hstate (fun op hop => hbuilt op (hperm'.mem_iff.1 hop))
        fun op hop => hshape op (hperm'.mem_iff.1 hop)
      rw [run_operations_perm hperm' hbuilt hapart hstate, ← run_operations_perm hperm hbuilt hapart hstate, hrun.1]
        at hcomputes
      cases hw' : applyOperations hash state patch'.operations with
      | error e => exact (hw' ▸ hcomputes : Computes (.error e) (some w)).resolve_right (by rintro ⟨⟩)
      | ok w' =>
        obtain ⟨hww, _⟩ := hcomputes.ok hw'
        cases hww
        rw [ok_bind, hpost, ok_bind]
        exact (Except.ok.inj ha).symm
    · rw [if_pos heq] at ha
      cases ha

theorem tryNew_overlapping {stateType : UInt32} {root : Hash32} :
    CanonicalPatch.tryNew stateType root ops = .error .overlappingPaths ↔
      validateInsertShapes ops = .ok () ∧ (∃ keyed, keyOperations ops = .ok keyed) ∧
        ¬ (ops.map PatchOp.path).Pairwise Apart := by
  constructor
  · intro h
    have hnew := h
    unfold CanonicalPatch.tryNew at h
    rcases ok_or_error (validateInsertShapes ops) with ⟨u, hshape⟩ | ⟨e, hshape⟩
    · rcases ok_or_error (keyOperations ops) with ⟨keyed, hkeyed⟩ | ⟨e, hkeyed⟩
      · refine ⟨hshape, ⟨keyed, hkeyed⟩, fun hapart => ?_⟩
        obtain ⟨operations, _, hok⟩ := (@tryNew_keyed stateType root ops keyed hshape hkeyed).1 hapart
        rw [hok] at hnew
        cases hnew
      · rw [hshape, ok_bind, hkeyed] at h
        exact absurd (Except.error.inj h) (keyOperations_error hkeyed)
    · rw [hshape] at h
      exact absurd (Except.error.inj h) (validateInsertShapes_error hshape)
  · rintro ⟨hshape, ⟨keyed, hkeyed⟩, hover⟩
    exact (tryNew_keyed hshape hkeyed).2 hover

/-- some path is a (possibly equal) prefix of the path of another operation -/
def Overlapping (ops : List PatchOp) : Prop :=
  ∃ i j : Fin ops.length, i ≠ j ∧ (ops[i].path.isPrefixOf ops[j].path) = true

theorem overlapping_iff : Overlapping ops ↔ ¬ (ops.map PatchOp.path).Pairwise Apart := by
  rw [List.pairwise_map, List.pairwise_iff_getElem]
  constructor
  · rintro ⟨i, j, hij, hpre⟩ hapart
    rw [ValuePath.isPrefixOf_iff] at hpre
    rcases lt_or_gt_of_ne (fun h => hij (Fin.ext h) : i.val ≠ j.val) with hlt | hlt
    · exact (hapart i j i.isLt j.isLt hlt).1 hpre
    · exact (hapart j i j.isLt i.isLt hlt).2 hpre
  · intro h
    push Not at h
    obtain ⟨i, j, hi, hj, hlt, hpaths⟩ := h
    have hne : (⟨i, hi⟩ : Fin ops.length) ≠ ⟨j, hj⟩ := fun h => hlt.ne (Fin.mk.inj h)
    unfold Apart Independent at hpaths
    by_cases hpre : ops[i].path.segments <+: ops[j].path.segments
    · exact ⟨⟨i, hi⟩, ⟨j, hj⟩, hne, ValuePath.isPrefixOf_iff.2 hpre⟩
    · exact ⟨⟨j, hj⟩, ⟨i, hi⟩, hne.symm, ValuePath.isPrefixOf_iff.2 (not_not.1 fun h => hpaths ⟨hpre, h⟩)⟩

/-- **A canonical patch is a simultaneous update.** The operations of an accepted patch, in any order, give the same
successor whenever both orders succeed, and one order succeeds if and only if the other does, unless one of them stops
at a length or a resource limit. Once shapes and path encodings are admitted, exactly overlapping targets are refused as
such. -/
theorem simultaneous_update (hash : Bytes → Hash32) (stateType : UInt32) (root : Hash32) (ops : List PatchOp)
    (hbuilt : ∀ op ∈ ops, op.Built) :
    (∀ patch, CanonicalPatch.tryNew stateType root ops = .ok patch → ∀ operations, operations.Perm patch.operations →
      ∀ domain state, Built state →
        (∀ a b, patch.apply hash state domain = .ok a →
          { patch with operations }.apply hash state domain = .ok b → a = b) ∧
        ((∀ e, patch.apply hash state domain = .error e → ¬ e.IsLimit) →
          (∀ e, { patch with operations }.apply hash state domain = .error e → ¬ e.IsLimit) →
          ((∃ a, patch.apply hash state domain = .ok a) ↔
            ∃ b, { patch with operations }.apply hash state domain = .ok b))) ∧
      (CanonicalPatch.tryNew stateType root ops = .error .overlappingPaths ↔
        validateInsertShapes ops = .ok () ∧ (∃ keyed, keyOperations ops = .ok keyed) ∧ Overlapping ops) := by
  refine ⟨fun patch hpatch operations hoperations domain state hstate => ?_, ?_⟩
  · obtain ⟨hperm, hshape, hapart⟩ := tryNew_ok hpatch
    have hperm' : operations.Perm ops := hoperations.trans hperm
    have hforth : ∀ a, patch.apply hash state domain = .ok a →
        match { patch with operations }.apply hash state domain with
        | .ok b => a = b
        | .error e => e.IsLimit := fun a =>
      @apply_agree _ patch { patch with operations } _ _ _ rfl hperm hperm' hbuilt hshape hapart (built_valid hstate) a
    have hback : ∀ b, { patch with operations }.apply hash state domain = .ok b →
        match patch.apply hash state domain with
        | .ok a => b = a
        | .error e => e.IsLimit := fun b =>
      @apply_agree _ { patch with operations } patch _ _ _ rfl hperm' hperm hbuilt hshape hapart (built_valid hstate) b
    refine ⟨fun a b ha hb => ?_, fun hlimit hlimit' => ⟨fun ⟨a, ha⟩ => ?_, fun ⟨b, hb⟩ => ?_⟩⟩
    · have h := hforth a ha
      rwa [hb] at h
    · have h := hforth a ha
      rcases ok_or_error ({ patch with operations }.apply hash state domain) with hok | ⟨e, he⟩
      · exact hok
      · rw [he] at h
        exact absurd h (hlimit' e he)
    · have h := hback b hb
      rcases ok_or_error (patch.apply hash state domain) with hok | ⟨e, he⟩
      · exact hok
      · rw [he] at h
        exact absurd h (hlimit e he)
  · rw [overlapping_iff]
    exact tryNew_overlapping

/-- an update of the whole state next to one of a field -/
def nestedOperations : List PatchOp := [.update ⟨[.field 1]⟩ .zero .unit, .update ⟨[]⟩ .zero (.bool true)]

theorem nestedOperations_built : ∀ op ∈ nestedOperations, op.Built := by
  simp only [nestedOperations, List.forall_mem_cons, PatchOp.Built]
  exact ⟨.unit, .boolean true, nofun⟩

/-- a flag, a map of two entries and a unit -/
def ledger : Value :=
  .record [.mk 1 (.bool false), .mk 2 (.map [.mk [1] (.bool false) .unit, .mk [2] (.bool true) (.bytes [7])]), .mk 3 .unit]

/-- the flag set, one entry gone and a field added -/
def ledgerAfter : Value :=
  .record [.mk 1 (.bool true), .mk 2 (.map [.mk [2] (.bool true) (.bytes [7])]), .mk 3 .unit, .mk 4 (.bool true)]

def ledgerOperations : List PatchOp :=
  [.update ⟨[.field 1]⟩ .zero (.bool true), .insert ⟨[.field 4]⟩ none (.bool true),
    .delete ⟨[.field 2, .mapKey [1]]⟩ .zero]

def ledgerPatch : CanonicalPatch := ⟨7, .zero, ledgerOperations⟩

theorem ledger_built : Built ledger := by
  have hunit : BuiltEntry (.mk [1] (.bool false) .unit) :=
    .tryNewWithLimits (.boolean false) .unit (show MapEntry.tryNew (.bool false) .unit = _ from rfl)
  have hbytes : BuiltEntry (.mk [2] (.bool true) (.bytes [7])) :=
    .tryNewWithLimits (.boolean true) (.ownedBytes (b := [7]) rfl)
      (show MapEntry.tryNew (.bool true) (.bytes [7]) = _ from rfl)
  have hentries : ∀ e ∈ [MapEntry.mk [1] (.bool false) .unit, .mk [2] (.bool true) (.bytes [7])], BuiltEntry e := by
    simpa using ⟨hunit, hbytes⟩
  have hmap : Built (.map [.mk [1] (.bool false) .unit, .mk [2] (.bool true) (.bytes [7])]) := .mapCanonical hentries rfl
  have hfields : ∀ f ∈ [Field.mk 1 (.bool false),
      .mk 2 (.map [.mk [1] (.bool false) .unit, .mk [2] (.bool true) (.bytes [7])]), .mk 3 .unit], Built f.value := by
    simpa using ⟨.boolean false, hmap, .unit⟩
  exact .recordCanonical hfields rfl

theorem ledgerOperations_built : ∀ op ∈ ledgerOperations, op.Built := by
  simp only [ledgerOperations, List.forall_mem_cons, PatchOp.Built]
  exact ⟨.boolean true, ⟨by simp, .boolean true⟩, trivial, by simp⟩

theorem ledgerOperations_apart : (ledgerOperations.map PatchOp.path).Pairwise Apart := by
  simp [ledgerOperations, PatchOp.path, Apart, Independent]

theorem ledgerPatch_new : CanonicalPatch.tryNew 7 .zero ledgerOperations = .ok ledgerPatch :=
  tryNew_sorted rfl rfl (by decide) ledgerOperations_apart

theorem ledgerPatch_apply : ledgerPatch.apply (fun _ => .zero) ledger .value = .ok ⟨ledgerAfter, .zero⟩ := rfl

/-- a field under an operation on the whole state is refused, and three disjoint operations commute -/
theorem simultaneous_update_nested :
    CanonicalPatch.tryNew 7 .zero nestedOperations = .error .overlappingPaths ∧
    CanonicalPatch.tryNew 7 .zero ledgerOperations = .ok ledgerPatch ∧
    ledgerPatch.apply (fun _ => .zero) ledger .value = .ok ⟨ledgerAfter, .zero⟩ ∧
    ∃ b, { ledgerPatch with operations := ledgerOperations.reverse }.apply (fun _ => .zero) ledger .value = .ok b ∧
      ⟨ledgerAfter, .zero⟩ = b := by
  refine ⟨?_, ledgerPatch_new, ledgerPatch_apply, _, rfl, ?_⟩
  · exact (simultaneous_update (fun _ => .zero) 7 .zero nestedOperations nestedOperations_built).2.2
      ⟨rfl, ⟨_, rfl⟩, ⟨1, by decide⟩, ⟨0, by decide⟩, by decide, rfl⟩
  · exact ((simultaneous_update (fun _ => .zero) 7 .zero ledgerOperations ledgerOperations_built).1 ledgerPatch
      ledgerPatch_new ledgerOperations.reverse (List.reverse_perm _) .value ledger ledger_built).1 _ _
      ledgerPatch_apply rfl

/-- a root insert next to a root update: both target the whole state, and the shape is what is refused -/
def rootOperations : List PatchOp := [.insert ⟨[]⟩ none .unit, .update ⟨[]⟩ .zero .unit]

/-- overlap alone does not decide the error: shapes are validated first -/
theorem shape_before_overlap :
    ¬ ∀ ops : List PatchOp, (∀ op ∈ ops, op.Built) →
      (CanonicalPatch.tryNew 7 .zero ops = .error .overlappingPaths ↔ Overlapping ops) := by
  intro h
  have hbuilt : ∀ op ∈ rootOperations, op.Built := by
    simp only [rootOperations, List.forall_mem_cons, PatchOp.Built]
    exact ⟨⟨nofun, .unit⟩, .unit, nofun⟩
  have hnew : CanonicalPatch.tryNew 7 .zero rootOperations = .error .insertAtRoot := rfl
  have hover := (h rootOperations hbuilt).2 ⟨⟨0, by decide⟩, ⟨1, by decide⟩, by decide, rfl⟩
  rw [hnew] at hover
  cases hover

end ZenoFcis
