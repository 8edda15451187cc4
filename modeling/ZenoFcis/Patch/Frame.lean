/-
What applying a patch changes, and when it is refused.

Model: `Ready` is the precondition of an operation on a state, in terms of `lookup`; `Done` is what `lookup` finds at its
path afterwards.

Results: an operation keeps every lookup at an independent path, with its error (`effect_lookup`); what an operation did
and what a later one needs are such lookups, so both survive the other operations (`applyOperations_frame`,
`applyOperations_ready`). Together `patch_frame`.
-/
import ZenoFcis.Patch.Order

namespace ZenoFcis

open Lib Lib.Except Lib.SlotTree

/-! ## Lookups through one edit -/

section Effect

variable {v w : Value} {mapKey : Option Value} {f : Change Value} {p q front : List PathSegment}

/-- a path is looked up in two parts -/
theorem lookup_append (v : Value) (front rest : List PathSegment) (hv : Valid v) :
    lookup v (front ++ rest) = lookup v front >>= fun x => lookup x rest := by
  induction front generalizing v with
  | nil => rfl
  | cons first front ih =>
    rw [List.cons_append, lookup_cons hv, lookup_cons hv]
    cases hchild : v.child first with
    | none => rfl
    | some x => exact ih x (child_valid hv hchild)

theorem effect_cons_cons {first second : PathSegment} {rest : List PathSegment}
    (h : slotTree.effect mapKey (first :: second :: rest) f v = some w) :
    ∃ x y, v.child first = some x ∧ slotTree.effect mapKey (second :: rest) f x = some y ∧
      v.setChild mapKey first (some y) = some w := by
  rw [effect_below (.inl (by simp))] at h
  obtain ⟨x, hx, h⟩ := Option.bind_eq_some_iff.1 h
  obtain ⟨y, hy, h⟩ := Option.bind_eq_some_iff.1 h
  exact ⟨x, y, hx, hy, h⟩

theorem setChild_lookup_ne {a b : PathSegment} {c : Option Value} {rest : List PathSegment} (hv : Valid v) (hw : Valid w)
    (hab : a ≠ b) (h : v.setChild mapKey a c = some w) : lookup w (b :: rest) = lookup v (b :: rest) := by
  rw [lookup_cons hv, lookup_cons hw, child_setChild_ne hv.sorted hab h, (setChild_kind h).2]

theorem effect_lookup (hv : Valid v) (hw : Valid w) (hpq : Independent p q)
    (h : slotTree.effect mapKey p f v = some w) : lookup w q = lookup v q := by
  induction p generalizing v w q with
  | nil => exact absurd List.nil_prefix hpq.1
  | cons a p ih =>
    obtain ⟨_, _, b, q, ⟨⟩, rfl⟩ := hpq.cons
    cases p with
    | nil =>
      have hab : a ≠ b := by
        rintro rfl
        exact hpq.1 (List.cons_prefix_cons.2 ⟨rfl, List.nil_prefix⟩)
      rw [effect_last] at h
      obtain ⟨c, _, hset⟩ := Option.bind_eq_some_iff.1 h
      exact setChild_lookup_ne hv hw hab hset
    | cons a₁ p =>
      obtain ⟨x, y, hx, hy, hset⟩ := effect_cons_cons h
      by_cases hab : a = b
      · subst hab
        have hchild := child_setChild hv.sorted hset
        rw [lookup_cons hv, lookup_cons hw, hx, hchild]
        exact ih (child_valid hv hx) (child_valid hw hchild) hpq.tail hy
      · exact setChild_lookup_ne hv hw hab hset

theorem effect_parent {last : PathSegment} (hv : Valid v) (hw : Valid w)
    (h : slotTree.effect mapKey (front ++ [last]) f v = some w) :
    ∃ parent parent' c, lookup v front = .ok parent ∧ lookup w front = .ok parent' ∧ Valid parent ∧ Valid parent' ∧
      f (parent.child last) = some c ∧ parent.setChild mapKey last c = some parent' := by
  induction front generalizing v w with
  | nil =>
    rw [List.nil_append, effect_last] at h
    obtain ⟨c, hc, hset⟩ := Option.bind_eq_some_iff.1 h
    exact ⟨v, w, c, rfl, rfl, hv, hw, hc, hset⟩
  | cons first front ih =>
    obtain ⟨second, rest, hrest⟩ := List.exists_cons_of_ne_nil (show front ++ [last] ≠ [] by simp)
    rw [List.cons_append, hrest] at h
    obtain ⟨x, y, hx, hy, hset⟩ := effect_cons_cons h
    have hchild := child_setChild hv.sorted hset
    rw [← hrest] at hy
    obtain ⟨parent, parent', c, hparent, hparent', hrestOk⟩ := ih (child_valid hv hx) (child_valid hw hchild) hy
    refine ⟨parent, parent', c, ?_, ?_, hrestOk⟩
    · rw [lookup_cons hv, hx]
      exact hparent
    · rw [lookup_cons hw, hchild]
      exact hparent'

theorem effect_of_parent {last : PathSegment} {parent parent' : Value} {c : Option Value} (hv : Valid v)
    (hparent : lookup v front = .ok parent) (hc : f (parent.child last) = some c)
    (hset : parent.setChild mapKey last c = some parent') :
    ∃ w, slotTree.effect mapKey (front ++ [last]) f v = some w := by
  induction front generalizing v with
  | nil =>
    cases hparent
    rw [List.nil_append, effect_last, hc]
    exact ⟨parent', hset⟩
  | cons first front ih =>
    rw [lookup_cons hv] at hparent
    cases hx : v.child first with
    | none =>
      rw [hx] at hparent
      cases hparent
    | some x =>
      rw [hx] at hparent
      obtain ⟨y, hy⟩ := ih (child_valid hv hx) hparent
      obtain ⟨w, hw⟩ := @setChild_present mapKey _ _ _ y hx
      rw [List.cons_append, effect_below (.inl (by simp)), hx, Option.bind_some, hy]
      exact ⟨w, hw⟩

theorem effect_front (hv : Valid v) (hw : Valid w) (hfront : front <+: p) (hne : front ≠ p)
    (h : slotTree.effect mapKey p f v = some w) :
    (∃ x, lookup v front = .ok x) ∧ ∃ y, lookup w front = .ok y := by
  obtain ⟨rest, rfl⟩ := hfront
  obtain ⟨middle, last, rfl⟩ := List.eq_nil_or_concat rest |>.resolve_left fun hnil => hne (by simp [hnil])
  rw [List.concat_eq_append, ← List.append_assoc] at h
  obtain ⟨parent, parent', _, hparent, hparent', _⟩ := effect_parent hv hw h
  rw [lookup_append v _ _ hv] at hparent
  rw [lookup_append w _ _ hw] at hparent'
  obtain ⟨x, hx, _⟩ := bind_eq_ok.1 hparent
  obtain ⟨y, hy, _⟩ := bind_eq_ok.1 hparent'
  exact ⟨⟨x, hx⟩, ⟨y, hy⟩⟩

end Effect

/-! ## Preconditions -/

namespace PatchOp

variable (hash : Bytes → Hash32)

/-- the precondition of an operation: an insertion needs its parent, of the right kind, and an absent slot; an update
and a deletion need the old value with the expected hash, and a deletion a field or a map entry -/
def Ready (v : Value) : PatchOp → Prop
  | .insert path _ _ => (∃ parent, lookup v path.segments.dropLast = .ok parent) ∧
      lookup v path.segments = .error .pathNotFound
  | .update path expected _ =>
      ∃ old, lookup v path.segments = .ok old ∧ hashPreconditionValue hash old = .ok expected
  | .delete path expected =>
      (∃ old, lookup v path.segments = .ok old ∧ hashPreconditionValue hash old = .ok expected) ∧
        ∃ last ∈ path.segments.getLast?, last.kind = .record ∨ last.kind = .map

/-- what `lookup` finds at the path of an operation that was made -/
def Done (w : Value) : PatchOp → Prop
  | .insert path _ value | .update path _ value =>
      ∀ rest, lookup w (path.segments ++ rest) = lookup value rest
  | .delete path _ => lookup w path.segments = .error .pathNotFound

end PatchOp

variable {hash : Bytes → Hash32} {v w : Value} {op : PatchOp}

theorem holds_iff {expected : Hash32} {slot : Option Value} :
    PatchOp.holds hash expected slot = true ↔ ∃ old, slot = some old ∧ hashPreconditionValue hash old = .ok expected := by
  cases slot <;> simp [PatchOp.holds]

theorem lookup_last {last : PathSegment} (hv : Valid v) :
    lookup v [last] = match v.child last with
      | some x => .ok x
      | none => .error (if last.kind = v.kind then .pathNotFound else .pathTypeMismatch) := by
  rw [lookup_cons hv]
  cases v.child last <;> rfl

theorem lookup_last_absent {last : PathSegment} (hv : Valid v) :
    lookup v [last] = .error .pathNotFound ↔ v.child last = none ∧ last.kind = v.kind := by
  rw [lookup_last hv]
  cases v.child last with
  | some x => simp
  | none =>
    by_cases hkind : last.kind = v.kind
    · simp [hkind]
    · simp [hkind]

theorem lookup_last_present {last : PathSegment} {x : Value} (hv : Valid v) :
    lookup v [last] = .ok x ↔ v.child last = some x := by
  rw [lookup_last hv]
  cases v.child last <;> simp

theorem effect_made (hv : Valid v) (hw : Valid w)
    (h : slotTree.effect op.mapKey op.path.segments (op.change hash) v = some w) : op.Ready hash v ∧ op.Done w := by
  rcases List.eq_nil_or_concat op.path.segments with hpath | ⟨front, last, hpath⟩
  · -- the whole state: only an update is made
    rw [hpath] at h
    cases op with
    | insert path mapKey value => cases h
    | update path expected value =>
      change path.segments = [] at hpath
      have hjoin : (if PatchOp.holds hash expected (some v) then replacing value (some v) else none).join = some w := h
      split_ifs at hjoin with hholds
      · obtain ⟨old, hold, hhash⟩ := holds_iff.1 hholds
        cases hold
        obtain rfl : value = w := Option.some.inj hjoin
        refine ⟨⟨v, by rw [hpath]; rfl, hhash⟩, fun rest => ?_⟩
        rw [hpath, List.nil_append]
      · cases hjoin
    | delete path expected =>
      have hjoin : (if PatchOp.holds hash expected (some v) then removing (some v) else none).join = some w := h
      split_ifs at hjoin <;> cases hjoin
  · rw [List.concat_eq_append] at hpath
    rw [hpath] at h
    obtain ⟨parent, parent', c, hparent, hparent', hpv, hpw, hc, hset⟩ := effect_parent hv hw h
    have hchild := child_setChild hpv.sorted hset
    have hbefore : lookup v op.path.segments = lookup parent [last] := by
      rw [hpath, lookup_append v _ _ hv, hparent, ok_bind]
    have hafter : lookup w op.path.segments = lookup parent' [last] := by
      rw [hpath, lookup_append w _ _ hw, hparent', ok_bind]
    cases op with
    | insert path mapKey value =>
      have hc : inserting value (parent.child last) = some c := hc
      cases habsent : parent.child last with
      | some x =>
        rw [habsent] at hc
        cases hc
      | none =>
        rw [habsent] at hc
        cases hc
        refine ⟨⟨⟨parent, ?_⟩, ?_⟩, fun rest => ?_⟩
        · change path.segments = _ at hpath
          rw [hpath, List.dropLast_concat]
          exact hparent
        · exact hbefore.trans ((lookup_last_absent hpv).2 ⟨habsent, (setChild_kind hset).1⟩)
        · have hvalue : lookup w path.segments = .ok value := hafter.trans ((lookup_last_present hpw).2 hchild)
          rw [lookup_append w _ _ hw, hvalue, ok_bind]
    | update path expected value =>
      have hc : (if PatchOp.holds hash expected (parent.child last) then replacing value (parent.child last) else none) =
        some c := hc
      split_ifs at hc with hholds
      obtain ⟨old, hold, hhash⟩ := holds_iff.1 hholds
      rw [hold] at hc
      cases hc
      refine ⟨⟨old, hbefore.trans ((lookup_last_present hpv).2 hold), hhash⟩, fun rest => ?_⟩
      have hvalue : lookup w path.segments = .ok value := hafter.trans ((lookup_last_present hpw).2 hchild)
      rw [lookup_append w _ _ hw, hvalue, ok_bind]
    | delete path expected =>
      have hc : (if PatchOp.holds hash expected (parent.child last) then removing (parent.child last) else none) =
        some c := hc
      split_ifs at hc with hholds
      obtain ⟨old, hold, hhash⟩ := holds_iff.1 hholds
      rw [hold] at hc
      cases hc
      obtain ⟨hkind, hkind'⟩ := setChild_kind hset
      refine ⟨⟨⟨old, hbefore.trans ((lookup_last_present hpv).2 hold), hhash⟩, last, ?_, ?_⟩, ?_⟩
      · change path.segments = _ at hpath
        simp [hpath]
      · by_contra hneither
        push Not at hneither
        rw [setChild_fixed (fun id hid => hneither.1 (by rw [hid]; rfl)) (fun k hk => hneither.2 (by rw [hk]; rfl))
          (.inl rfl)] at hset
        cases hset
      · exact hafter.trans ((lookup_last_absent hpw).2 ⟨hchild, hkind.trans hkind'.symm⟩)

theorem effect_ready (hv : Valid v) (hbuilt : op.Built) (hshape : validateInsertShape op = .ok ())
    (h : op.Ready hash v) : ∃ w, slotTree.effect op.mapKey op.path.segments (op.change hash) v = some w := by
  rcases List.eq_nil_or_concat op.path.segments with hpath | ⟨front, last, hpath⟩
  · cases op with
    | insert path mapKey value =>
      change path.segments = [] at hpath
      have habsent := h.2
      rw [hpath] at habsent
      cases habsent
    | update path expected value =>
      change path.segments = [] at hpath
      obtain ⟨old, hold, hhash⟩ := h
      rw [hpath] at hold
      cases hold
      refine ⟨value, ?_⟩
      change slotTree.effect none path.segments _ v = _
      rw [hpath]
      change (if PatchOp.holds hash expected (some v) then replacing value (some v) else none).join = some value
      rw [if_pos (holds_iff.2 ⟨v, rfl, hhash⟩)]
      rfl
    | delete path expected =>
      change path.segments = [] at hpath
      obtain ⟨_, last, hlast, _⟩ := h
      rw [hpath] at hlast
      cases hlast
  · rw [List.concat_eq_append] at hpath
    -- the parent holds what the precondition says of the last segment
    have hparent : ∀ {r : Except PatchError Value}, (∃ parent, lookup v front = .ok parent) →
        lookup v op.path.segments = r → ∃ parent, lookup v front = .ok parent ∧ Valid parent ∧
          lookup parent [last] = r := by
      intro r ⟨parent, hparent⟩ hr
      have hfind := @lookup_find v front hv
      rw [hparent] at hfind
      refine ⟨parent, hparent, hfind.2, ?_⟩
      rw [← hr, hpath, lookup_append v _ _ hv, hparent, ok_bind]
    have hfront : ∀ {old : Value}, lookup v op.path.segments = .ok old → ∃ parent, lookup v front = .ok parent := by
      intro old hold
      rw [hpath, lookup_append v _ _ hv] at hold
      obtain ⟨parent, hparent, _⟩ := bind_eq_ok.1 hold
      exact ⟨parent, hparent⟩
    cases op with
    | insert path mapKey value =>
      change path.segments = _ at hpath
      obtain ⟨hresolves, habsent⟩ := h
      rw [hpath, List.dropLast_concat] at hresolves
      obtain ⟨parent, hparent, hpv, hlast⟩ := hparent hresolves habsent
      obtain ⟨hchild, hkind⟩ := (lookup_last_absent hpv).1 hlast
      have hset : ∃ parent', parent.setChild mapKey last (some value) = some parent' := by
        have hkey := keyFor_of_shape (fun key hkey => built_valid (hbuilt.1 key hkey)) hshape last (by simp [hpath])
        have hlast : path.segments.getLast? = some last := by simp [hpath]
        cases last with
        | field id => cases parent <;> first | exact ⟨_, rfl⟩ | cases hkind
        | mapKey k =>
          obtain ⟨key, rfl, -, -⟩ := hkey k rfl
          cases parent <;> try cases hkind
          rename_i entries
          cases hslot : slot MapEntry.encodedKey k entries with
          | none | some e => exact ⟨_, by rw [Value.setChild, Value.entryFor, hslot]; rfl⟩
        | tupleIndex i | vectorIndex i | sumPayload =>
          rw [validateInsertShape, hlast] at hshape
          cases hshape
      obtain ⟨parent', hset⟩ := hset
      change ∃ w, slotTree.effect mapKey path.segments _ v = some w
      rw [hpath]
      exact @effect_of_parent _ _ _ _ _ _ _ (some value) hv hparent (by rw [hchild]; rfl) hset
    | update path expected value =>
      change path.segments = _ at hpath
      obtain ⟨old, hold, hhash⟩ := h
      obtain ⟨parent, hparent, hpv, hlast⟩ := hparent (hfront hold) hold
      have hchild := (lookup_last_present hpv).1 hlast
      obtain ⟨parent', hset⟩ := @setChild_present none _ _ _ value hchild
      change ∃ w, slotTree.effect none path.segments _ v = some w
      rw [hpath]
      refine @effect_of_parent _ _ _ _ _ _ _ (some value) hv hparent ?_ hset
      change (if PatchOp.holds hash expected (parent.child last) then replacing value (parent.child last) else none) = _
      rw [hchild, if_pos (holds_iff.2 ⟨old, rfl, hhash⟩)]
      rfl
    | delete path expected =>
      change path.segments = _ at hpath
      obtain ⟨⟨old, hold, hhash⟩, last', hlast', hkind⟩ := h
      obtain rfl : last = last' := by simpa [hpath] using hlast'
      obtain ⟨parent, hparent, hpv, hlast⟩ := hparent (hfront hold) hold
      have hchild := (lookup_last_present hpv).1 hlast
      have hset : ∃ parent', parent.setChild none last none = some parent' := by
        cases last with
        | field id | mapKey k => cases parent <;> first | exact ⟨_, rfl⟩ | cases hchild
        | tupleIndex i | vectorIndex i | sumPayload => rcases hkind with hkind | hkind <;> cases hkind
      obtain ⟨parent', hset⟩ := hset
      change ∃ w, slotTree.effect none path.segments _ v = some w
      rw [hpath]
      refine @effect_of_parent _ _ _ _ _ _ _ none hv hparent ?_ hset
      change (if PatchOp.holds hash expected (parent.child last) then removing (parent.child last) else none) = _
      rw [hchild, if_pos (holds_iff.2 ⟨old, rfl, hhash⟩)]
      rfl

/-! ## Independent operations -/

theorem Independent.append {p q : List PathSegment} (h : Independent p q) (rest : List PathSegment) :
    Independent p (q ++ rest) := by
  constructor
  · intro hp
    rcases List.prefix_or_prefix_of_prefix hp (List.prefix_append q rest) with hpq | hqp
    · exact h.1 hpq
    · exact h.2 hqp
  · intro hq
    exact h.2 ((List.prefix_append q rest).trans hq)

theorem ready_iff {mapKey : Option Value} {f : Change Value} {p : List PathSegment} (hv : Valid v) (hw : Valid w)
    (hp : Independent p op.path.segments) (h : slotTree.effect mapKey p f v = some w) :
    op.Ready hash w ↔ op.Ready hash v := by
  have hlookup := effect_lookup hv hw hp h
  cases op with
  | update path expected value | delete path expected =>
    have hlookup : lookup w path.segments = lookup v path.segments := hlookup
    simp only [PatchOp.Ready, hlookup]
  | insert path mapKey value =>
    have hfront : path.segments.dropLast <+: path.segments := List.dropLast_prefix _
    have hparent : (∃ parent, lookup w path.segments.dropLast = .ok parent) ↔
        ∃ parent, lookup v path.segments.dropLast = .ok parent := by
      by_cases hpf : path.segments.dropLast <+: p
      · have hne : path.segments.dropLast ≠ p := fun heq => hp.1 (heq ▸ hfront)
        obtain ⟨hbefore, hafter⟩ := effect_front hv hw hpf hne h
        exact iff_of_true hafter hbefore
      · rw [effect_lookup hv hw ⟨fun hfp => hp.1 (hfp.trans hfront), hpf⟩ h]
    change _ ∧ _ ↔ _ ∧ _
    rw [hparent]
    exact and_congr_right fun _ => Iff.of_eq (congrArg (· = _) hlookup)

theorem done_of_lookup (h : ∀ rest, lookup w (op.path.segments ++ rest) = lookup v (op.path.segments ++ rest))
    (hdone : op.Done v) : op.Done w := by
  cases op with
  | insert path mapKey value | update path expected value => exact fun rest => (h rest).trans (hdone rest)
  | delete path expected =>
    have hpath := h []
    rw [List.append_nil] at hpath
    exact hpath.trans hdone

/-! ## The loop of `apply` -/

variable {ops : List PatchOp}

theorem applyOperations_frame (hv : Valid v) (hbuilt : ∀ op ∈ ops, op.Built)
    (hshape : ∀ op ∈ ops, validateInsertShape op = .ok ()) (hapart : (ops.map PatchOp.path).Pairwise Apart)
    (h : applyOperations hash v ops = .ok w) :
    Valid w ∧ (∀ op ∈ ops, op.Ready hash v) ∧ (∀ op ∈ ops, op.Done w) ∧
      ∀ q, (∀ op ∈ ops, Independent op.path.segments q) → lookup w q = lookup v q := by
  induction ops generalizing v with
  | nil =>
    cases h
    exact ⟨hv, by simp, by simp, fun q _ => rfl⟩
  | cons op ops ih =>
    rw [List.forall_mem_cons] at hbuilt hshape
    rw [List.map_cons, List.pairwise_cons] at hapart
    obtain ⟨next, hnext, hrest⟩ := bind_eq_ok.1 h
    obtain ⟨heffect, hnv⟩ := (applyOperation_computes hv hbuilt.1 hshape.1).ok hnext
    obtain ⟨hw, hready, hdone, hframe⟩ := ih hnv hbuilt.2 hshape.2 hapart.2 hrest
    obtain ⟨hready₁, hdone₁⟩ := effect_made hv hnv heffect
    have hindependent : ∀ op' ∈ ops, Independent op.path.segments op'.path.segments := fun op' hop' =>
      hapart.1 op'.path (List.mem_map_of_mem hop')
    refine ⟨hw, ?_, ?_, ?_⟩
    · rw [List.forall_mem_cons]
      exact ⟨hready₁, fun op' hop' => (ready_iff hv hnv (hindependent op' hop') heffect).1 (hready op' hop')⟩
    · rw [List.forall_mem_cons]
      refine ⟨done_of_lookup (fun rest => ?_) hdone₁, hdone⟩
      exact hframe _ fun op' hop' => Independent.append (hindependent op' hop').symm rest
    · intro q hq
      rw [List.forall_mem_cons] at hq
      rw [hframe q hq.2, effect_lookup hv hnv hq.1 heffect]

theorem applyOperations_ready (hv : Valid v) (hbuilt : ∀ op ∈ ops, op.Built)
    (hshape : ∀ op ∈ ops, validateInsertShape op = .ok ()) (hapart : (ops.map PatchOp.path).Pairwise Apart)
    (hready : ∀ op ∈ ops, op.Ready hash v) {e : PatchError} (h : applyOperations hash v ops = .error e) : e.IsLimit := by
  induction ops generalizing v with
  | nil => cases h
  | cons op ops ih =>
    rw [List.forall_mem_cons] at hbuilt hshape hready
    rw [List.map_cons, List.pairwise_cons] at hapart
    have hcomputes := @applyOperation_computes hash _ _ hv hbuilt.1 hshape.1
    obtain ⟨next, heffect⟩ := effect_ready hv hbuilt.1 hshape.1 hready.1
    rcases bind_eq_error.1 h with hop | ⟨next', hnext, hrest⟩
    · by_contra hlimit
      rw [hcomputes.error hop hlimit] at heffect
      cases heffect
    · obtain ⟨heffect', hnv⟩ := hcomputes.ok hnext
      refine ih hnv hbuilt.2 hshape.2 hapart.2 ?_ hrest
      intro op' hop'
      exact (ready_iff hv hnv (hapart.1 op'.path (List.mem_map_of_mem hop')) heffect').2 (hready.2 op' hop')

/-! ## The whole patch -/

/-- a state that a patch applies to: it has the expected root, and every operation is ready for it -/
def CanonicalPatch.Applicable (patch : CanonicalPatch) (hash : Bytes → Hash32) (domain : Domain) (state : Value) : Prop :=
  hashValue hash domain state = .ok patch.expectedPreRoot ∧ ∀ op ∈ patch.operations, op.Ready hash state

/-- **A patch changes exactly its targets.** The successor of a well-formed state is well-formed; an inserted or updated
path, and everything below it, reads as the new value; a deleted path is not found; any lookup at a path that neither
extends nor is extended by an operation's is the same as before. The patch is refused when the state has another root or
some operation is not ready for it, and otherwise only at a length or a resource limit. -/
theorem patch_frame (hash : Bytes → Hash32) (stateType : UInt32) (root : Hash32) (ops : List PatchOp)
    (hbuilt : ∀ op ∈ ops, op.Built) (patch : CanonicalPatch)
    (hpatch : CanonicalPatch.tryNew stateType root ops = .ok patch) (domain : Domain) (state : Value)
    (hstate : Valid state) :
    (∀ applied, patch.apply hash state domain = .ok applied → patch.Applicable hash domain state ∧ Valid applied.state ∧
      (∀ op ∈ patch.operations, op.Done applied.state) ∧
      ∀ q, (∀ op ∈ patch.operations, Independent op.path.segments q) → lookup applied.state q = lookup state q) ∧
    (patch.Applicable hash domain state → ∀ e, patch.apply hash state domain = .error e → e.IsLimit) := by
  obtain ⟨hperm, hshape, hapart⟩ := tryNew_ok hpatch
  have hbuilt' : ∀ op ∈ patch.operations, op.Built := fun op hop => hbuilt op (hperm.mem_iff.1 hop)
  have hshape' : ∀ op ∈ patch.operations, validateInsertShape op = .ok () := fun op hop =>
    hshape op (hperm.mem_iff.1 hop)
  have hapart' : (patch.operations.map PatchOp.path).Pairwise Apart :=
    ((hperm.map PatchOp.path).pairwise_iff fun h => h.symm).2 hapart
  constructor
  · intro applied happly
    obtain ⟨actual, hactual, happly⟩ := bind_eq_ok.1 happly
    split_ifs at happly with hroot
    obtain ⟨w, hw, happly⟩ := bind_eq_ok.1 happly
    obtain ⟨post, _, happly⟩ := bind_eq_ok.1 happly
    obtain rfl := Except.ok.inj happly
    obtain ⟨hvalid, hready, hdone, hframe⟩ := applyOperations_frame hstate hbuilt' hshape' hapart' hw
    exact ⟨⟨by rw [hactual, not_not.1 hroot], hready⟩, hvalid, hdone, hframe⟩
  · intro ⟨hroot, hready⟩ e happly
    unfold CanonicalPatch.apply at happly
    rw [hroot, ok_bind, if_neg (not_not.2 rfl)] at happly
    rcases bind_eq_error.1 happly with hloop | ⟨w, hw, happly⟩
    · exact applyOperations_ready hstate hbuilt' hshape' hapart' hready hloop
    · obtain ⟨hvalid, -⟩ := applyOperations_frame hstate hbuilt' hshape' hapart' hw
      rcases bind_eq_error.1 happly with hpost | ⟨_, _, happly⟩
      · exact hashValue_limits hvalid hpost
      · cases happly

/-- the other map entry and the last field are left alone, also where nothing was -/
theorem ledgerPatch_frame :
    ledgerPatch.apply (fun _ => .zero) ledger .value = .ok ⟨ledgerAfter, .zero⟩ ∧
    ledgerPatch.Applicable (fun _ => .zero) .value ledger ∧ Valid ledgerAfter ∧
    (∀ op ∈ ledgerPatch.operations, op.Done ledgerAfter) ∧
    (lookup ledgerAfter [.field 2, .mapKey [2]] = lookup ledger [.field 2, .mapKey [2]] ∧
      lookup ledger [.field 2, .mapKey [2]] = .ok (.bytes [7])) ∧
    (lookup ledgerAfter [.field 3, .sumPayload] = lookup ledger [.field 3, .sumPayload] ∧
      lookup ledger [.field 3, .sumPayload] = .error .pathTypeMismatch) ∧
    ∀ e, ledgerPatch.apply (fun _ => .zero) ledger .value = .error e → e.IsLimit := by
  obtain ⟨hok, hlimits⟩ := patch_frame (fun _ => .zero) 7 .zero ledgerOperations ledgerOperations_built ledgerPatch
    ledgerPatch_new .value ledger (built_valid ledger_built)
  obtain ⟨happlicable, hvalid, hdone, hframe⟩ := hok _ ledgerPatch_apply
  refine ⟨ledgerPatch_apply, happlicable, hvalid, hdone, ⟨hframe _ ?_, rfl⟩, ⟨hframe _ ?_, rfl⟩, hlimits happlicable⟩
  · simp [ledgerPatch, ledgerOperations, PatchOp.path, Independent]
  · simp [ledgerPatch, ledgerOperations, PatchOp.path, Independent]

/-- a patch without operations is refused at another root, with no precondition that fails -/
theorem root_before_operations :
    ¬ ∀ (hash : Bytes → Hash32) (patch : CanonicalPatch) (domain : Domain) (state : Value),
      CanonicalPatch.tryNew patch.stateType patch.expectedPreRoot patch.operations = .ok patch → Valid state →
        ((∃ e, patch.apply hash state domain = .error e) ↔ ∃ op ∈ patch.operations, ¬ op.Ready hash state) := by
  intro h
  have hnew : CanonicalPatch.tryNew 7 ⟨List.replicate 32 1, rfl⟩ [] = .ok ⟨7, ⟨List.replicate 32 1, rfl⟩, []⟩ := by
    obtain ⟨operations, hperm, hnew⟩ := (@tryNew_keyed 7 ⟨List.replicate 32 1, rfl⟩ [] _ rfl rfl).1 List.Pairwise.nil
    obtain rfl := List.perm_nil.1 hperm
    exact hnew
  obtain ⟨op, hop, -⟩ := (h (fun _ => .zero) ⟨7, ⟨List.replicate 32 1, rfl⟩, []⟩ .value .unit hnew .unit).1 ⟨_, rfl⟩
  cases hop

end ZenoFcis
