/-
Authenticated plans as a whole: exact deltas that one tree takes once, and how far they travel.

Result: `authenticated_plan`. A plan is the exact difference of the two projections, and its bytes come back from the
strict decoder exactly when no more keys change than the default limits admit writes: the leaf bound, although a batch
may delete and put that many leaves each.
-/
import ZenoFcis.Authenticated.Transport

namespace ZenoFcis.Authenticated

open Lib Lib.Except Patch CollectionMerkle

variable {hash : Bytes → Hash32}

/-- a tree at the profile, version and root that a plan expects -/
def ReferenceSparseTree.Matches (tree : ReferenceSparseTree hash) (plan : PlannedAuthenticatedCommit) : Prop :=
  tree.profile = plan.profile ∧ tree.version = plan.expectedVersion ∧ tree.root = plan.authenticatedPreRoot

/-- a plan from the leaves of `tree` to the leaves `after` -/
structure ExactPlan (tree : ReferenceSparseTree hash) (after : LeafMap) (plan : PlannedAuthenticatedCommit) : Prop where
  mounted : tree.Matches plan
  batch : tree.leaves.writeBatch plan.nodeBatch = after
  writes : Increasing LeafWrite.key plan.nodeBatch.writes
  changes : ∀ w ∈ plan.nodeBatch.writes, w.left ≠ tree.leaves.get w.key
  stale_order : Increasing StaleNodeCandidate.key plan.staleNodes
  stale : ∀ c, c ∈ plan.staleNodes ↔ c.staleSinceVersion = tree.version ∧ (∃ w ∈ plan.nodeBatch.writes, w.key = c.key) ∧
    ∃ old, tree.leaves.get c.key = some old ∧ leafHash hash c.key old = .ok c.oldLeafHash
  applied : ∀ tree' : ReferenceSparseTree hash, tree'.Matches plan →
    ∃ rebuilt, ReferenceSparseTree.fromMap hash tree.profile plan.nextVersion after = .ok rebuilt ∧
      tree'.applyPlan plan = (.ok (), rebuilt)
  refused : ∀ tree' : ReferenceSparseTree hash, ¬ tree'.Matches plan → ∃ error, tree'.applyPlan plan = (.error error,
    tree')
  once : ∀ tree' rebuilt : ReferenceSparseTree hash, tree'.applyPlan plan = (.ok (), rebuilt) →
    ∃ error, rebuilt.applyPlan plan = (.error error, rebuilt)

/-- the bytes of a plan, when they fit the input limit, are decoded to its fields -/
def PlannedAuthenticatedCommit.Transported (plan : PlannedAuthenticatedCommit) : Prop :=
  ∀ bytes, plan.canonicalBytes = .ok bytes → bytes.length ≤ AuthenticatedDecodeLimits.default.maxInputBytes.toNat →
    decodeAuthenticatedPlan bytes .default = .ok plan.toDecodedAuthenticatedPlan

/-- the keys that two leaf maps do not agree on -/
def changedKeys (before after : LeafMap) : Finset Hash32 :=
  ((before.entries ++ after.entries).map Prod.fst).toFinset.filter fun key => before.get key ≠ after.get key

/-- a plan writes once for each key that changes -/
theorem card_changedKeys {before after : LeafMap} :
    (changedKeys before after).card = (NodeBatch.fromMaps before after).writes.length := by
  have hnodup : ((NodeBatch.fromMaps before after).writes.map LeafWrite.key).Nodup :=
    List.pairwise_map.2 (NodeBatch.fromMaps_increasing.imp fun hlt => hlt.ne)
  have hkeys : changedKeys before after = ((NodeBatch.fromMaps before after).writes.map LeafWrite.key).toFinset := by
    ext key
    simp only [changedKeys, Finset.mem_filter, List.mem_toFinset, List.map_append, List.mem_append, List.mem_map]
    constructor
    · rintro ⟨_, hne⟩
      cases hafter : after.get key with
      | none => exact ⟨.delete key, NodeBatch.mem_fromMaps.2 ⟨hne, hafter.symm⟩, rfl⟩
      | some new => exact ⟨.put key new, NodeBatch.mem_fromMaps.2 ⟨hne, hafter.symm⟩, rfl⟩
    · rintro ⟨w, hw, rfl⟩
      have hne := (NodeBatch.mem_fromMaps.1 hw).1
      refine ⟨?_, hne⟩
      cases hbefore : before.get w.key with
      | some old => exact Or.inl ⟨_, LeafMap.get_eq_some.1 hbefore, rfl⟩
      | none =>
        cases hafter : after.get w.key with
        | some new => exact Or.inr ⟨_, LeafMap.get_eq_some.1 hafter, rfl⟩
        | none => exact absurd (hbefore.trans hafter.symm) hne
  rw [hkeys, List.toFinset_card_of_nodup hnodup, List.length_map]

/-! ## The planner -/

/-- what a successful plan was computed from -/
structure PlanInputs (preState : Value) (stateDomain : Domain) (patch : CanonicalPatch) (tree : ReferenceSparseTree hash)
    (projector : StateProjector) (after : LeafMap) (planned : PlannedState) : Prop where
  applied : ∃ postRoot, patch.apply hash preState stateDomain = .ok ⟨planned.semanticPostState, postRoot⟩
  projected : ∃ leaves, projector.project planned.semanticPostState = .ok leaves ∧ projectedMap leaves = .ok after
  profile : planned.authenticated.profile = tree.profile
  expected : planned.authenticated.expectedVersion = tree.version
  next : successorVersion tree.version = some planned.authenticated.nextVersion
  preRoot : planned.authenticated.authenticatedPreRoot = tree.root
  rebuilt : ∃ rebuilt,
    ReferenceSparseTree.fromMap hash tree.profile planned.authenticated.nextVersion after = .ok rebuilt ∧
    planned.authenticated.authenticatedPostRoot = rebuilt.root
  batch : planned.authenticated.nodeBatch = NodeBatch.fromMaps tree.leaves after
  stale : staleNodesOf hash tree.leaves tree.version planned.authenticated.nodeBatch.writes =
    .ok planned.authenticated.staleNodes
  post : planned.authenticated.postLeaves = after

variable {preState : Value} {stateDomain : Domain} {patch : CanonicalPatch} {tree : ReferenceSparseTree hash}
  {projector : StateProjector} {planned : PlannedState} {after : LeafMap}

theorem planAuthenticatedUpdate_ok (h : planAuthenticatedUpdate preState stateDomain patch tree projector = .ok planned) :
    ∃ after, PlanInputs preState stateDomain patch tree projector after planned := by
  simp only [planAuthenticatedUpdate, bind_eq_ok] at h
  obtain ⟨leaves, _, before, _, h⟩ := h
  split_ifs at h with hbefore _
  rw [not_not] at hbefore
  subst hbefore
  simp only [bind_eq_ok, mapError_eq_ok] at h
  obtain ⟨applied, happlied, leaves', hleaves', after, hafter, h⟩ := h
  cases hnext : successorVersion tree.version with
  | none =>
    rw [hnext] at h
    cases h
  | some nextVersion =>
    rw [hnext] at h
    simp only [bind_eq_ok] at h
    obtain ⟨rebuilt, hrebuilt, stale, hstale, patchHash, _, h⟩ := h
    cases h
    exact ⟨after, ⟨applied.postRoot, happlied⟩, ⟨leaves', hleaves', hafter⟩, rfl, rfl, hnext, rfl,
      ⟨rebuilt, hrebuilt, rfl⟩, rfl, hstale, rfl⟩

theorem successorVersion_ne {version next : UInt64} (h : successorVersion version = some next) : next ≠ version := by
  unfold successorVersion at h
  split_ifs at h with hlt
  cases h
  intro heq
  have hnat := congrArg UInt64.toNat heq
  have hmax : u64Max < 2 ^ 64 := by decide
  rw [UInt64.toNat_add] at hnat
  simp only [UInt64.reduceToNat] at hnat
  omega

namespace PlanInputs

section

variable (h : PlanInputs preState stateDomain patch tree projector after planned)

include h

theorem applyPlan_eq (tree' : ReferenceSparseTree hash) :
    (tree'.Matches planned.authenticated → ∃ rebuilt, rebuilt.version = planned.authenticated.nextVersion ∧
      ReferenceSparseTree.fromMap hash tree.profile planned.authenticated.nextVersion after = .ok rebuilt ∧
      tree'.applyPlan planned.authenticated = (.ok (), rebuilt)) ∧
    (¬ tree'.Matches planned.authenticated → ∃ error, tree'.applyPlan planned.authenticated = (.error error,
      tree')) := by
  constructor
  · rintro ⟨hprofile, hversion, hroot⟩
    obtain ⟨rebuilt, hrebuilt, hpost⟩ := h.rebuilt
    refine ⟨rebuilt, (fromMap_ok hrebuilt).2.1, hrebuilt, ?_⟩
    unfold ReferenceSparseTree.applyPlan
    rw [if_neg (not_not.2 hprofile), if_neg (not_not.2 hversion), if_neg (not_not.2 hroot), h.profile, h.post, hrebuilt]
    simp only [hpost, ne_eq, not_true_eq_false, if_false]
  · intro hno
    unfold ReferenceSparseTree.applyPlan
    split_ifs with hprofile hversion hroot
    · exact ⟨_, rfl⟩
    · exact ⟨_, rfl⟩
    · exact ⟨_, rfl⟩
    · simp only [not_not] at hprofile hversion hroot
      exact absurd ⟨hprofile, hversion, hroot⟩ hno

theorem exact : ExactPlan tree after planned.authenticated := by
  obtain ⟨hsub, hstale⟩ := staleNodesOf_ok h.stale
  have hwrites : Increasing LeafWrite.key planned.authenticated.nodeBatch.writes := by
    rw [h.batch]
    exact NodeBatch.fromMaps_increasing
  constructor
  · exact ⟨h.profile.symm, h.expected.symm, h.preRoot.symm⟩
  · rw [h.batch]
    exact NodeBatch.writeBatch_fromMaps
  · exact hwrites
  · intro w hw
    rw [h.batch] at hw
    obtain ⟨hne, hleft⟩ := NodeBatch.mem_fromMaps.1 hw
    rw [hleft]
    exact hne.symm
  · exact List.pairwise_map.1 ((List.pairwise_map.2 hwrites).sublist hsub)
  · exact hstale
  · intro tree' hmatch
    obtain ⟨rebuilt, _, hrebuilt, happly⟩ := (h.applyPlan_eq tree').1 hmatch
    exact ⟨rebuilt, hrebuilt, happly⟩
  · exact fun tree' => (h.applyPlan_eq tree').2
  · intro tree' rebuilt happly
    refine (h.applyPlan_eq rebuilt).2 fun hmatch => ?_
    -- the version has moved on
    have hversion : rebuilt.version = planned.authenticated.nextVersion := by
      by_cases hm : tree'.Matches planned.authenticated
      · obtain ⟨rebuilt', hv, _, happly'⟩ := (h.applyPlan_eq tree').1 hm
        rw [happly] at happly'
        rw [(Prod.mk.inj happly').2, hv]
      · obtain ⟨error, herror⟩ := (h.applyPlan_eq tree').2 hm
        rw [happly] at herror
        cases (Prod.mk.inj herror).1
    exact successorVersion_ne h.next (hversion.symm.trans (hmatch.2.1.trans h.expected))

theorem transportable (hproject : ∀ state leaves, projector.project state = .ok leaves → ∀ x ∈ leaves, Built x.2) :
    planned.authenticated.toDecodedAuthenticatedPlan.Transportable := by
  have hexact := h.exact
  refine ⟨by rw [h.expected]; exact h.next, hexact.writes, ?_, hexact.stale_order, ?_⟩
  · intro w hw v hv
    rw [h.batch] at hw
    rw [(NodeBatch.mem_fromMaps.1 hw).2] at hv
    obtain ⟨leaves, hleaves, hafter⟩ := h.projected
    unfold projectedMap at hafter
    split_ifs at hafter
    have hmem := (insertLeaves_perm hafter).mem_iff.1 (LeafMap.get_eq_some.1 hv)
    exact hproject _ _ hleaves _ (by simpa [LeafMap.empty] using hmem)
  · intro s hs
    obtain ⟨hversion, hwritten, _⟩ := (hexact.stale s).1 hs
    exact ⟨hversion.trans h.expected.symm, hwritten⟩

theorem stale_length : planned.authenticated.staleNodes.length ≤ maxReferenceLeaves := by
  have hexact := h.exact
  have hnodup : (planned.authenticated.staleNodes.map StaleNodeCandidate.key).Nodup :=
    List.pairwise_map.2 (hexact.stale_order.imp fun hlt => hlt.ne)
  have hsub : planned.authenticated.staleNodes.map StaleNodeCandidate.key ⊆ tree.leaves.entries.map Prod.fst := by
    intro key hkey
    obtain ⟨s, hs, rfl⟩ := List.mem_map.1 hkey
    obtain ⟨_, _, old, hold, _⟩ := (hexact.stale s).1 hs
    exact List.mem_map_of_mem (LeafMap.get_eq_some.1 hold)
  calc planned.authenticated.staleNodes.length
      = (planned.authenticated.staleNodes.map StaleNodeCandidate.key).length := (List.length_map _).symm
    _ ≤ (tree.leaves.entries.map Prod.fst).length := (hnodup.subperm hsub).length_le
    _ = tree.leaves.entries.length := List.length_map _
    _ ≤ maxReferenceLeaves := tree.bounded

theorem transported_iff (hproject : ∀ state leaves, projector.project state = .ok leaves → ∀ x ∈ leaves, Built x.2) :
    planned.authenticated.Transported ↔ ∀ bytes, planned.authenticated.canonicalBytes = .ok bytes →
      bytes.length ≤ AuthenticatedDecodeLimits.default.maxInputBytes.toNat →
      (changedKeys tree.leaves after).card ≤ maxReferenceLeaves := by
  have hdecode : ∀ bytes, planned.authenticated.canonicalBytes = .ok bytes →
      bytes.length ≤ AuthenticatedDecodeLimits.default.maxInputBytes.toNat → _ := fun bytes hbytes hlen =>
    @decodeAuthenticatedPlan_canonical .default bytes _ (h.transportable hproject) rfl (by decide) h.stale_length
      hbytes hlen
  have hmax : AuthenticatedDecodeLimits.default.maxWrites.toNat = maxReferenceLeaves := rfl
  rw [card_changedKeys, ← h.batch]
  constructor
  · intro htransported bytes hbytes hlen
    have hok := htransported bytes hbytes hlen
    rw [hdecode bytes hbytes hlen, hmax] at hok
    split_ifs at hok with hle
    exact hle
  · intro hle bytes hbytes hlen
    rw [hdecode bytes hbytes hlen, hmax, if_pos (hle bytes hbytes hlen)]

end

end PlanInputs

/-- **Authenticated plans.** A plan is the exact difference between the leaves of the tree and the projection of the
applied state, and is taken once, by a tree at the expected profile, version and root. It is all that and decodes from
its bytes exactly when, if the bytes fit the input limit, at most `maxReferenceLeaves` keys change. -/
theorem authenticated_plan {planner : AuthenticatedStatePlanner}
    (hproject : ∀ state leaves, planner.projector.project state = .ok leaves → ∀ x ∈ leaves, Built x.2)
    (hplan : planner.plan preState stateDomain patch tree = .ok planned) :
    ∃ after leaves postRoot, patch.apply hash preState stateDomain = .ok ⟨planned.semanticPostState, postRoot⟩ ∧
      planner.projector.project planned.semanticPostState = .ok leaves ∧ projectedMap leaves = .ok after ∧
      (ExactPlan tree after planned.authenticated ∧ planned.authenticated.Transported ↔
        ∀ bytes, planned.authenticated.canonicalBytes = .ok bytes →
          bytes.length ≤ AuthenticatedDecodeLimits.default.maxInputBytes.toNat →
          (changedKeys tree.leaves after).card ≤ maxReferenceLeaves) := by
  unfold AuthenticatedStatePlanner.plan at hplan
  split_ifs at hplan
  obtain ⟨after, h⟩ := planAuthenticatedUpdate_ok hplan
  obtain ⟨postRoot, happlied⟩ := h.applied
  obtain ⟨leaves, hleaves, hafter⟩ := h.projected
  refine ⟨after, leaves, postRoot, happlied, hleaves, hafter, ?_⟩
  rw [← h.transported_iff hproject]
  exact ⟨And.right, fun htransported => ⟨h.exact, htransported⟩⟩

/-! ## Replacing every leaf -/

/-- `count` unit leaves under the keys from `start` on -/
def unitLeaves (count start : ℕ) : List (Hash32 × Value) := (List.range count).map fun i => (digit (start + i), .unit)

theorem digit_lt {m n : ℕ} (hn : n < 2 ^ 16) (h : m < n) : digit m < digit n := by
  refine bytesBefore_iff_lt.1 ((bytesBefore_iff (by simp [digit])).2 ?_)
  rw [digit, digit, ofBeBytes_beBytes_of_lt (by omega), ofBeBytes_beBytes_of_lt (by omega)]
  exact h

variable {count start : ℕ} {leaves : List (Hash32 × Value)}

theorem unitLeaves_increasing (h : start + count < 2 ^ 16) :
    Increasing Prod.fst (unitLeaves count start) := by
  refine List.pairwise_map.2 (List.pairwise_lt_range.imp_of_mem fun {i j} _ hj hlt => ?_)
  have hj' := List.mem_range.1 hj
  exact digit_lt (by omega) (by omega)

theorem leavesRoot_ok {leaves : LeafMap} (h : ∀ x ∈ leaves.entries, ∃ leaf, leafHash hash x.1 x.2 = .ok leaf) :
    ∃ root, leavesRoot hash leaves = .ok root := by
  have hhashed : ∃ hashed, hashedLeaves hash leaves.entries = .ok hashed := by
    generalize leaves.entries = entries at h
    induction entries with
    | nil => exact ⟨[], rfl⟩
    | cons x entries ih =>
      obtain ⟨leaf, hleaf⟩ := h x List.mem_cons_self
      obtain ⟨rest, hrest⟩ := ih fun y hy => h y (List.mem_cons_of_mem _ hy)
      refine ⟨(x.1, leaf) :: rest, ?_⟩
      rw [hashedLeaves, hleaf, ok_bind, hrest]
      rfl
  obtain ⟨hashed, hhashed⟩ := hhashed
  have htogether : keyTrie.Together 0 hashed := fun x _ y _ i hi => absurd hi (Nat.not_lt_zero i)
  refine ⟨treeDigest hash treeDepth 0 hashed, ?_⟩
  rw [leavesRoot, hhashed, ok_bind, emptyHashes_eq, ok_bind]
  exact subtreeHash_eq (show treeDepth + 0 = treeDepth from rfl) (hashedLeaves_ordered hhashed) htogether

theorem staleNodesOf_exists {before : LeafMap} {version : UInt64}
    (h : ∀ key old, before.get key = some old → ∃ leaf, leafHash hash key old = .ok leaf) (writes : List LeafWrite) :
    ∃ stale, staleNodesOf hash before version writes = .ok stale := by
  induction writes with
  | nil => exact ⟨[], rfl⟩
  | cons w writes ih =>
    obtain ⟨rest, hrest⟩ := ih
    unfold staleNodesOf
    cases hget : before.get w.key with
    | none => exact ⟨rest, hrest⟩
    | some old =>
      obtain ⟨leaf, hleaf⟩ := h w.key old hget
      refine ⟨⟨version, w.key, leaf⟩ :: rest, ?_⟩
      simp only [hleaf, ok_bind, hrest]
      rfl

/-- a provider that keeps nothing apart, away from the zero sentinel -/
def constantHash : Bytes → Hash32 := fun _ => digit 1

theorem leafHash_unit (key : Hash32) : leafHash constantHash key .unit = .ok (digit 1) := by
  rw [leafHash_eq .unit]
  rfl

theorem encodeWrites_unit {writes : List LeafWrite} (h : ∀ w ∈ writes, w.left = none ∨ w.left = some .unit) :
    ∃ b, NodeBatch.encodeWrites writes = .ok b ∧ b.length ≤ 38 * writes.length := by
  induction writes with
  | nil => exact ⟨[], rfl, Nat.le_refl 0⟩
  | cons w writes ih =>
    obtain ⟨tail, htail, hlen⟩ := ih fun w' hw' => h w' (List.mem_cons_of_mem _ hw')
    cases w with
    | delete key =>
      refine ⟨(1 :: key.bytes) ++ tail, ?_, ?_⟩
      · rw [NodeBatch.encodeWrites, htail]
        rfl
      · rw [List.length_append, List.length_cons, List.length_cons, key.length_eq]
        omega
    | put key value =>
      obtain rfl : value = .unit := by simpa [LeafWrite.left] using h _ List.mem_cons_self
      have hunit : Value.canonicalBytes .unit = .ok [0] := rfl
      have hblob : putBlob [0] = .ok [0, 0, 0, 1, 0] := rfl
      refine ⟨(0 :: key.bytes) ++ [0, 0, 0, 1, 0] ++ tail, ?_, ?_⟩
      · simp only [NodeBatch.encodeWrites, hunit, hblob, ok_bind, htail]
        rfl
      · simp only [List.length_append, List.length_cons, List.length_nil, key.length_eq]
        omega

theorem canonicalBytes_small {plan : DecodedAuthenticatedPlan} {n : ℕ} (hn : n ≤ 8192)
    (hwrites : plan.nodeBatch.writes.length = n) (hleft : ∀ w ∈ plan.nodeBatch.writes,
      w.left = none ∨ w.left = some .unit)
    (hstale : plan.staleNodes.length ≤ n) : ∃ bytes, plan.canonicalBytes = .ok bytes ∧
      bytes.length ≤ AuthenticatedDecodeLimits.default.maxInputBytes.toNat := by
  obtain ⟨b, hb, hlen⟩ := encodeWrites_unit hleft
  have hcount : ∀ m ≤ 8192, putLength m = .ok (beBytes 4 m) := fun m hm => if_pos (le_trans hm (by decide))
  have hbatch : plan.nodeBatch.canonicalBytes = .ok (beBytes 4 plan.nodeBatch.writes.length ++ b) := by
    rw [NodeBatch.canonicalBytes, hcount _ (by omega), ok_bind, hb]
    rfl
  have hframed : putBlob (beBytes 4 plan.nodeBatch.writes.length ++ b) =
      .ok (blob 4 (beBytes 4 plan.nodeBatch.writes.length ++ b)) := by
    have hsmall : (beBytes 4 plan.nodeBatch.writes.length ++ b).length ≤ u32Max := by
      have hmax : 4 + 38 * 8192 ≤ u32Max := by decide
      rw [List.length_append, beBytes_length]
      omega
    rw [putBlob, putLength, if_pos hsmall]
    rfl
  have hstaleBytes : ∀ stale : List StaleNodeCandidate,
      (stale.flatMap StaleNodeCandidate.canonicalBytes).length = 72 * stale.length := by
    intro stale
    induction stale with
    | nil => rfl
    | cons c stale ih =>
      rw [List.flatMap_cons, List.length_append, ih]
      simp only [StaleNodeCandidate.canonicalBytes, List.length_append, beBytes_length, c.key.length_eq,
        c.oldLeafHash.length_eq, List.length_cons]
      omega
  rw [DecodedAuthenticatedPlan.canonicalBytes, hbatch, ok_bind, hframed, ok_bind, hcount _ (by omega), ok_bind]
  refine ⟨_, rfl, ?_⟩
  have hmax : AuthenticatedDecodeLimits.default.maxInputBytes.toNat = 4194304 := by decide
  simp only [List.length_append, beBytes_length, blob_length, AuthenticatedProfile.canonicalBytes, Hash32.length_eq,
    hstaleBytes, hmax]
  omega

/-! ### One family of replacements -/

/-- `count` unit leaves, all of whose keys move when the state is no longer `false` -/
def replacementProjector (count : ℕ) : StateProjector :=
  ⟨digit 1, fun state => .ok (unitLeaves count (if state = .bool false then 0 else count))⟩

def replacementPlanner (count : ℕ) : AuthenticatedStatePlanner := ⟨sampleProfile, replacementProjector count, rfl⟩

def replacementPatch : CanonicalPatch := ⟨7, digit 1, [.update ⟨[]⟩ (digit 1) (.bool true)]⟩

theorem replacementPatch_apply :
    replacementPatch.apply constantHash (.bool false) .value = .ok ⟨.bool true, digit 1⟩ := rfl

theorem replacement_built (count : ℕ) : ∀ state leaves, (replacementPlanner count).projector.project state = .ok leaves →
    ∀ x ∈ leaves, Built x.2 := by
  intro state leaves h x hx
  cases h
  obtain ⟨i, _, rfl⟩ := List.mem_map.1 hx
  exact .unit

theorem unitLeaves_get {leaves : LeafMap} (h : leaves.entries = unitLeaves count start) {key : Hash32}
    {value : Value} (hget : leaves.get key = some value) : value = .unit ∧ ∃ i < count, key = digit (start + i) := by
  have hmem := LeafMap.get_eq_some.1 hget
  rw [h] at hmem
  obtain ⟨i, hi, heq⟩ := List.mem_map.1 hmem
  obtain ⟨rfl, rfl⟩ := Prod.mk.inj heq
  exact ⟨rfl, i, List.mem_range.1 hi, rfl⟩

theorem fromMap_exists {leaves : LeafMap} (profile : AuthenticatedProfile) (version : UInt64)
    (hlen : leaves.entries.length ≤ maxReferenceLeaves)
    (h : ∀ x ∈ leaves.entries, ∃ leaf, leafHash hash x.1 x.2 = .ok leaf) :
    ∃ tree, ReferenceSparseTree.fromMap hash profile version leaves = .ok tree := by
  obtain ⟨root, hroot⟩ := leavesRoot_ok h
  exact ⟨_, fromMap_of_root profile version hlen hroot⟩

theorem unitLeaves_hashed : ∀ x ∈ unitLeaves count start, ∃ leaf, leafHash constantHash x.1 x.2 = .ok leaf := by
  intro x hx
  obtain ⟨i, _, rfl⟩ := List.mem_map.1 hx
  exact ⟨_, leafHash_unit _⟩

theorem unitLeaves_length (count start : ℕ) : (unitLeaves count start).length = count := by
  rw [unitLeaves, List.length_map, List.length_range]

theorem card_changedKeys_moved {before after : LeafMap} (h : count ≤ maxReferenceLeaves)
    (hbefore : before.entries = unitLeaves count 0) (hafter : after.entries = unitLeaves count count) :
    (changedKeys before after).card = 2 * count := by
  have hmax : maxReferenceLeaves = 4096 := rfl
  have hinj : ∀ i < count, ∀ j < count, digit (0 + i) ≠ digit (count + j) := fun i hi j hj heq =>
    absurd heq (digit_lt (by omega) (by omega)).ne
  have hall : (before.entries ++ after.entries).map Prod.fst = (List.range (count + count)).map digit := by
    rw [hbefore, hafter, unitLeaves, unitLeaves, List.range_add, List.map_append, List.map_append]
    simp [Function.comp_def]
  have hnodup : ((before.entries ++ after.entries).map Prod.fst).Nodup := by
    rw [hall]
    refine List.pairwise_map.2 (List.pairwise_lt_range.imp_of_mem fun {i j} _ hj hlt => ?_)
    have hj' := List.mem_range.1 hj
    exact (digit_lt (by omega) hlt).ne
  rw [changedKeys, Finset.filter_true_of_mem, List.toFinset_card_of_nodup hnodup, hall, List.length_map,
    List.length_range]
  · omega
  · intro key hkey hsame
    rw [List.mem_toFinset, List.map_append, List.mem_append, ← LeafMap.get_isSome, ← LeafMap.get_isSome, hsame, or_self,
      Option.isSome_iff_exists] at hkey
    obtain ⟨value, hvalue⟩ := hkey
    obtain ⟨_, j, hj, hjkey⟩ := unitLeaves_get hafter hvalue
    obtain ⟨_, i, hi, hikey⟩ := unitLeaves_get hbefore (hsame.trans hvalue)
    exact hinj i hi j hj (hikey.symm.trans hjkey)

theorem replacement_planned (h : count ≤ maxReferenceLeaves) :
    ∃ (tree : ReferenceSparseTree constantHash) (planned : PlannedState),
      (replacementPlanner count).plan (.bool false) .value replacementPatch tree = .ok planned ∧
      ∃ after bytes, PlanInputs (.bool false) .value replacementPatch tree (replacementProjector count) after planned ∧
        (changedKeys tree.leaves after).card = 2 * count ∧ planned.authenticated.canonicalBytes = .ok bytes ∧
        bytes.length ≤ AuthenticatedDecodeLimits.default.maxInputBytes.toNat := by
  have hmax : maxReferenceLeaves = 4096 := rfl
  have hlen : ∀ start, (unitLeaves count start).length ≤ maxReferenceLeaves := fun start => by
    rw [unitLeaves_length]
    exact h
  have hord : Increasing Prod.fst (unitLeaves count 0) := unitLeaves_increasing (by omega)
  have hord' : Increasing Prod.fst (unitLeaves count count) := unitLeaves_increasing (by omega)
  have hproject : (replacementProjector count).project (.bool false) = .ok (unitLeaves count 0) := by
    simp [replacementProjector]
  have hproject' : (replacementProjector count).project (.bool true) = .ok (unitLeaves count count) := by
    simp [replacementProjector]
  obtain ⟨tree, htree⟩ := @fromMap_exists constantHash ⟨_, hord⟩ sampleProfile 0 (hlen 0) unitLeaves_hashed
  obtain ⟨rebuilt, hrebuilt⟩ := @fromMap_exists constantHash ⟨_,
    hord'⟩ sampleProfile 1 (hlen count) unitLeaves_hashed
  obtain ⟨hprofile, hversion, hleaves⟩ := fromMap_ok htree
  have hhashed : ∀ key old, tree.leaves.get key = some old → ∃ leaf, leafHash constantHash key old = .ok leaf := by
    intro key old hold
    obtain rfl := (unitLeaves_get (by rw [hleaves]) hold).1
    exact ⟨_, leafHash_unit key⟩
  obtain ⟨stale, hstale⟩ := @staleNodesOf_exists constantHash tree.leaves 0 hhashed
    (NodeBatch.fromMaps tree.leaves ⟨_, hord'⟩).writes
  have hpatch : hashCanonical constantHash authPatch replacementPatch.canonicalBytes = .ok (digit 1) := rfl
  have hplan : ∃ planned, planAuthenticatedUpdate (.bool false) .value replacementPatch tree (replacementProjector count) =
      .ok planned := by
    have hbefore : (⟨unitLeaves count 0, hord⟩ : LeafMap) = tree.leaves := hleaves.symm
    have hnext : successorVersion 0 = some 1 := by decide
    have hroot : ¬ replacementPatch.expectedPreRoot = .zero := by decide
    simp only [planAuthenticatedUpdate, hproject, ok_bind, projectedMap_perm (hlen 0) hord (.refl _), hbefore, ne_eq,
      not_true_eq_false, if_false, hroot, replacementPatch_apply, Except.mapError, hproject',
      projectedMap_perm (hlen count) hord' (.refl _), hversion, hnext, hprofile, hrebuilt, hstale, hpatch]
    exact ⟨_, rfl⟩
  obtain ⟨planned, hplanned⟩ := hplan
  obtain ⟨after, hinputs⟩ := planAuthenticatedUpdate_ok hplanned
  have hafter : after.entries = unitLeaves count count := by
    obtain ⟨postRoot, happlied⟩ := hinputs.applied
    obtain ⟨leaves, hleaves', hmap⟩ := hinputs.projected
    rw [replacementPatch_apply] at happlied
    rw [← (AppliedPatch.mk.inj (Except.ok.inj happlied)).1, hproject'] at hleaves'
    cases hleaves'
    rw [projectedMap_perm (hlen count) hord' (.refl _)] at hmap
    rw [← Except.ok.inj hmap]
  have hentries : tree.leaves.entries = unitLeaves count 0 := by rw [hleaves]
  have hcard := card_changedKeys_moved h hentries hafter
  have hwrites : planned.authenticated.nodeBatch.writes.length = 2 * count := by
    rw [hinputs.batch, ← card_changedKeys]
    exact hcard
  obtain ⟨bytes, hbytes, hfits⟩ := @canonicalBytes_small planned.authenticated.toDecodedAuthenticatedPlan _
    (by omega) hwrites (fun w hw => by
      rw [hinputs.batch] at hw
      rw [(NodeBatch.mem_fromMaps.1 hw).2]
      cases hget : after.get w.key with
      | none => exact Or.inl rfl
      | some value => exact Or.inr (by rw [(unitLeaves_get hafter hget).1]))
    (by
      obtain ⟨hsub, _⟩ := staleNodesOf_ok hinputs.stale
      have hle := hsub.length_le
      rw [List.length_map, List.length_map, hwrites] at hle
      exact hle)
  refine ⟨tree, planned, ?_, after, bytes, hinputs, hcard, hbytes, hfits⟩
  unfold AuthenticatedStatePlanner.plan
  have hmounted : tree.profile = (replacementPlanner count).profile := hprofile
  rw [if_neg (not_not.2 hmounted), if_neg (not_not.2 (replacementPlanner count).declared)]
  exact hplanned

/-- replacing half the bound of leaves is within it -/
theorem authenticated_plan_replacement :
    ∃ (tree : ReferenceSparseTree constantHash) (planned : PlannedState) (after : LeafMap),
    (replacementPlanner 2048).plan (.bool false) .value replacementPatch tree = .ok planned ∧
      ExactPlan tree after planned.authenticated ∧ planned.authenticated.Transported := by
  obtain ⟨tree, planned, hplan, after, bytes, hinputs, hcard,
    _⟩ := replacement_planned (show 2048 ≤ maxReferenceLeaves by decide)
  obtain ⟨after', leaves, _, _, hleaves, hmap, hiff⟩ := authenticated_plan (replacement_built 2048) hplan
  obtain ⟨leaves', hleaves', hmap'⟩ := hinputs.projected
  have hsame : after' = after := by
    obtain rfl := Except.ok.inj (hleaves.symm.trans hleaves')
    exact Except.ok.inj (hmap.symm.trans hmap')
  subst hsame
  exact ⟨tree, planned, after', hplan, hiff.2 fun _ _ _ => by rw [hcard]; decide⟩

/-- replacing as many leaves as a tree may hold is planned and fits the input limit, and is not decoded -/
theorem full_replacement_refused : ∃ (tree : ReferenceSparseTree constantHash) (planned : PlannedState) (bytes : Bytes),
    (replacementPlanner maxReferenceLeaves).plan (.bool false) .value replacementPatch tree = .ok planned ∧
      planned.authenticated.canonicalBytes = .ok bytes ∧
      bytes.length ≤ AuthenticatedDecodeLimits.default.maxInputBytes.toNat ∧
      decodeAuthenticatedPlan bytes .default = .error (.writeLimit 4096 8192) := by
  obtain ⟨tree, planned, hplan, after, bytes, hinputs, hcard, hbytes,
    hfits⟩ := replacement_planned (le_refl maxReferenceLeaves)
  have hwrites : planned.authenticated.nodeBatch.writes.length = 8192 := by
    rw [hinputs.batch, ← card_changedKeys]
    exact hcard
  have hdecode := @decodeAuthenticatedPlan_canonical .default bytes _
    (hinputs.transportable (replacement_built maxReferenceLeaves)) rfl (by decide) hinputs.stale_length hbytes hfits
  rw [hwrites, if_neg (by decide)] at hdecode
  exact ⟨tree, planned, bytes, hplan, hbytes, hfits, hdecode⟩

end ZenoFcis.Authenticated
