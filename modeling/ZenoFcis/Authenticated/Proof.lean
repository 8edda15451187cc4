/-
Proofs of the sparse tree against adversarial ones.

A collision-free hash is one that is injective on the preimages at hand: those that the tree's own proofs and the
presented proof are verified with (`preimages`). No assumption is made about any other input.

Result: `sparse_proofs`. What the tree proves is accepted, and what is accepted against a tree's context is what the
tree holds; so a root stands for one set of leaves.
-/
import ZenoFcis.Authenticated.Hashing

namespace ZenoFcis.Authenticated

open Lib Lib.Except Patch CollectionMerkle

variable {hash : Bytes → Hash32}

/-! ## Preimages -/

namespace SparseProof

/-- what the proved leaf is the hash of -/
def leafPreimage (proof : SparseProof) : Except AuthError Bytes :=
  match proof.leaf with
  | .membership value => do return domainPreimage authLeaf (← leafPayload proof.key value)
  | .absence => .ok emptyPreimage

/-- what is hashed on the way from the leaf of a proof to its root -/
def preimages (hash : Bytes → Hash32) (proof : SparseProof) : Set Bytes := fun b =>
  ∃ start, proof.leafPreimage = .ok start ∧ (b = start ∨
    ∃ pair ∈ keyTrie.ascent (nodeDigest hash) proof.key 0 proof.siblings (hash start), b = nodePreimage pair.1 pair.2)

end SparseProof

/-- what is hashed by the proofs of a tree -/
def ReferenceSparseTree.preimages (tree : ReferenceSparseTree hash) : Set Bytes := fun b =>
  ∃ key proof, tree.prove key = .ok proof ∧ b ∈ proof.preimages hash

/-- the payload of a leaf is its key and the bytes of its value -/
theorem leafPayload_ok {key : Hash32} {value : Value} {payload : Bytes} (hv : Valid value)
    (h : leafPayload key value = .ok payload) :
    (wire value).length ≤ u32Max ∧ payload = key.bytes ++ blob 4 (wire value) := by
  simp only [leafPayload, bind_eq_ok, mapError_eq_ok] at h
  obtain ⟨bytes, hbytes, framed, hframed, hpayload⟩ := h
  obtain ⟨_, rfl, _⟩ := hv.zcveBytesWithLimits.1 (mapError_eq_ok.1 hbytes)
  obtain ⟨hlen, rfl⟩ := putBlob_eq_ok.1 hframed
  exact ⟨hlen, (Except.ok.inj hpayload).symm⟩

theorem leafPayload_inj {key key' : Hash32} {value value' : Value} {payload : Bytes} (hv : Valid value)
    (hv' : Valid value') (h : leafPayload key value = .ok payload) (h' : leafPayload key' value' = .ok payload) :
    key = key' ∧ value = value' := by
  obtain ⟨hlen, rfl⟩ := leafPayload_ok hv h
  obtain ⟨hlen', heq⟩ := leafPayload_ok hv' h'
  obtain ⟨hkey, hblob⟩ := List.append_inj heq (key.length_eq.trans key'.length_eq.symm)
  have hwire := (read_blob (r := []) (s := []) hlen hlen' (by rw [hblob])).1
  exact ⟨Hash32.bytes_inj hkey, (wire_reads hv).inj hv' hwire⟩

/-- a leaf hashes its payload under the domain of leaves -/
theorem leafHash_eq {key : Hash32} {value : Value} (hv : Valid value) :
    leafHash hash key value = (leafPayload key value).map fun payload => hash (domainPreimage authLeaf payload) := by
  unfold leafHash
  cases h : leafPayload key value with
  | error e => rfl
  | ok payload =>
    obtain ⟨hlen, rfl⟩ := leafPayload_ok hv h
    refine hashBytes_eq (by decide) ?_
    have hbound : u32Max + 36 ≤ u64Max := by decide
    rw [List.length_append, blob_length, key.length_eq]
    omega

theorem leaf_ne_empty (payload : Bytes) : domainPreimage authLeaf payload ≠ emptyPreimage := by
  intro h
  have hdomain := (domainPreimage_inj (by decide) (by decide) h).1
  revert hdomain
  decide

theorem nodePreimage_inj {p q : Hash32 × Hash32} (h : nodePreimage p.1 p.2 = nodePreimage q.1 q.2) : p = q := by
  have hpayload := (domainPreimage_inj (by decide) (by decide) h).2
  obtain ⟨hl, hr⟩ := List.append_inj hpayload (p.1.length_eq.trans q.1.length_eq.symm)
  exact Prod.ext (Hash32.bytes_inj hl) (Hash32.bytes_inj hr)

/-! ## The leaf at a key -/

variable {leaves : List (Hash32 × Value)} {hashed : List (Hash32 × Hash32)}

theorem hashedLeaves_keys (h : hashedLeaves hash leaves = .ok hashed) : hashed.map Prod.fst = leaves.map Prod.fst := by
  induction leaves generalizing hashed with
  | nil =>
    cases h
    rfl
  | cons x leaves ih =>
    simp only [hashedLeaves, bind_eq_ok] at h
    obtain ⟨leaf, _, rest, hrest, hhashed⟩ := h
    cases hhashed
    rw [List.map_cons, List.map_cons, ih hrest]

/-- hashed leaves stand in key order -/
theorem hashedLeaves_ordered {leaves : LeafMap}
    (h : hashedLeaves hash leaves.entries = .ok hashed) : Ordered hashed := by
  refine increasing_ordered (List.pairwise_map.1 ?_)
  rw [hashedLeaves_keys h]
  exact List.pairwise_map.2 leaves.sorted

theorem hashedLeaves_slot (key : Hash32)
    (h : hashedLeaves hash leaves = .ok hashed) :
    match (slot Prod.fst key leaves).map Prod.snd with
    | none => slot Prod.fst key hashed = none
    | some value => ∃ leaf, leafHash hash key value = .ok leaf ∧ slot Prod.fst key hashed = some (key, leaf) := by
  induction leaves generalizing hashed with
  | nil =>
    cases h
    rfl
  | cons x leaves ih =>
    simp only [hashedLeaves, bind_eq_ok] at h
    obtain ⟨leaf, hleaf, rest, hrest, hhashed⟩ := h
    cases hhashed
    by_cases hx : x.1 = key
    · simp only [slot, List.find?_cons, hx, decide_true, Option.map_some]
      exact ⟨leaf, hx ▸ hleaf, rfl⟩
    · simp only [slot, List.find?_cons, hx, decide_false]
      exact ih hrest

theorem treeDigest_leaf (hashed : List (Hash32 × Hash32)) (key : Hash32) :
    treeDigest hash 0 treeDepth (keyTrie.below key treeDepth hashed) =
      ((slot Prod.fst key hashed).map Prod.snd).getD (absentDigest hash) := by
  have hhead : slot Prod.fst key hashed = (keyTrie.below key treeDepth hashed).head? := by
    rw [BitTrie.below, List.head?_filter, slot]
    refine congrFun (congrArg List.find? (funext fun x => decide_eq_decide.2 ?_)) hashed
    exact ⟨fun h i _ => by rw [h], fun h => bitSet_ext h⟩
  rw [hhead]
  cases keyTrie.below key treeDepth hashed <;> rfl

namespace LeafMap

theorem ext_entries {m m' : LeafMap} (h : m.entries = m'.entries) : m = m' := by
  cases m
  cases m'
  cases h
  rfl

/-- maps with the same lookups are equal -/
theorem ext_get {m m' : LeafMap} (h : ∀ key, m.get key = m'.get key) : m = m' := by
  refine ext_entries (m.sorted.ext m'.sorted fun key => ?_)
  have hkey := h key
  unfold get at hkey
  cases hl : slot Prod.fst key m.entries with
  | none =>
    rw [hl] at hkey
    exact (Option.map_eq_none_iff.1 hkey.symm).symm
  | some x =>
    rw [hl] at hkey
    obtain ⟨y, hy, hxy⟩ := Option.map_eq_some_iff.1 hkey.symm
    rw [hy, Prod.ext ((slot_key hy).trans (slot_key hl).symm) hxy]

end LeafMap

/-! ## Verification -/

namespace ReferenceSparseTree

variable (tree : ReferenceSparseTree hash)

/-- the leaf that the tree holds at a key -/
def leafAt (key : Hash32) : ProofLeaf := (tree.get key).elim .absence .membership

/-- the values of a tree were built through their constructors -/
def Built (tree : ReferenceSparseTree hash) : Prop := ∀ x ∈ tree.leaves.entries, ZenoFcis.Built x.2

theorem exists_hashed : ∃ hashed, hashedLeaves hash tree.leaves.entries = .ok hashed ∧
    tree.root = treeDigest hash treeDepth 0 hashed := by
  have h := tree.rooted
  simp only [leavesRoot, bind_eq_ok, emptyHashes_eq] at h
  obtain ⟨hashed, hhashed, empties, hempties, hroot⟩ := h
  cases hempties
  have htogether : keyTrie.Together 0 hashed := fun x _ y _ i hi => absurd hi (Nat.not_lt_zero i)
  rw [subtreeHash_eq (show treeDepth + 0 = treeDepth from rfl) (hashedLeaves_ordered hhashed) htogether] at hroot
  exact ⟨hashed, hhashed, (Except.ok.inj hroot).symm⟩

/-- the siblings of a proof are the digests beside its path, and its leaf hashes to the end of that path -/
theorem prove_besides (hbuilt : tree.Built) (key : Hash32) {hashed : List (Hash32 × Hash32)}
    (hhashed : hashedLeaves hash tree.leaves.entries = .ok hashed) : ∃ proof start, tree.prove key = .ok proof ∧
    proof = ⟨tree.profile, tree.version, tree.root, key, tree.leafAt key,
      keyTrie.besides (absentDigest hash) (nodeDigest hash) key treeDepth 0 hashed⟩ ∧
    proof.leafPreimage = .ok start ∧ treeDigest hash 0 treeDepth (keyTrie.below key treeDepth hashed) = hash start := by
  have hsiblings : proofSiblings hash (emptyTable hash) key treeDepth 0 (keyTrie.below key 0 hashed) =
      .ok (keyTrie.besides (absentDigest hash) (nodeDigest hash) key treeDepth 0 hashed) :=
    proofSiblings_eq rfl (hashedLeaves_ordered hhashed)
  rw [BitTrie.below_zero] at hsiblings
  have hslot := hashedLeaves_slot key hhashed
  have hstart : ∃ start, SparseProof.leafPreimage ⟨tree.profile, tree.version, tree.root, key, tree.leafAt key,
        keyTrie.besides (absentDigest hash) (nodeDigest hash) key treeDepth 0 hashed⟩ = .ok start ∧
      treeDigest hash 0 treeDepth (keyTrie.below key treeDepth hashed) = hash start := by
    rw [treeDigest_leaf, SparseProof.leafPreimage, leafAt, get, LeafMap.get]
    cases hget : (slot Prod.fst key tree.leaves.entries).map Prod.snd with
    | none =>
      rw [hget] at hslot
      refine ⟨emptyPreimage, rfl, ?_⟩
      rw [hslot]
      rfl
    | some value =>
      rw [hget] at hslot
      obtain ⟨leaf, hleaf, hslot⟩ := hslot
      obtain ⟨x, hx, rfl⟩ := Option.map_eq_some_iff.1 hget
      rw [leafHash_eq (built_valid (hbuilt x (slot_mem hx)))] at hleaf
      cases hpayload : leafPayload key x.2 with
      | error e =>
        rw [hpayload] at hleaf
        cases hleaf
      | ok payload =>
        rw [hpayload] at hleaf
        refine ⟨domainPreimage authLeaf payload, ?_, ?_⟩
        · simp only [Option.elim, hpayload]
          rfl
        · rw [hslot]
          exact (Except.ok.inj hleaf).symm
  obtain ⟨start, hpre, hdigest⟩ := hstart
  refine ⟨_, start, ?_, rfl, hpre, hdigest⟩
  rw [prove, hhashed, ok_bind, emptyHashes_eq, ok_bind, hsiblings]
  rfl

/-- what a tree proves for a key -/
theorem prove_spec (hbuilt : tree.Built) (key : Hash32) : ∃ siblings start,
    tree.prove key = .ok ⟨tree.profile, tree.version, tree.root, key, tree.leafAt key, siblings⟩ ∧
    siblings.length = treeDepth ∧
    SparseProof.leafPreimage ⟨tree.profile, tree.version, tree.root, key, tree.leafAt key, siblings⟩ = .ok start ∧
    keyTrie.ascend (nodeDigest hash) key 0 siblings (hash start) = tree.root := by
  obtain ⟨hashed, hhashed, hroot⟩ := tree.exists_hashed
  obtain ⟨_, start, hprove, rfl, hpre, hdigest⟩ := tree.prove_besides hbuilt key hhashed
  have hclimb := @BitTrie.digest_ascend _ _ _ keyTrie (absentDigest hash) (nodeDigest hash) key treeDepth 0 hashed
  rw [BitTrie.below_zero, Nat.zero_add] at hclimb
  refine ⟨_, start, hprove, BitTrie.besides_length, hpre, ?_⟩
  rw [← hdigest, ← hclimb, hroot]

theorem prove_leaf {key : Hash32} {proof : SparseProof} (h : tree.prove key = .ok proof) :
    proof.leaf = tree.leafAt key := by
  simp only [prove, bind_eq_ok] at h
  obtain ⟨hashed, _, empties, _, siblings, _, hproof⟩ := h
  rw [← Except.ok.inj hproof]
  rfl

/-- a tree's proofs hash its leaves and the two halves of every node -/
theorem mem_preimages (hbuilt : tree.Built) {hashed : List (Hash32 × Hash32)}
    (hhashed : hashedLeaves hash tree.leaves.entries = .ok hashed) {b : Bytes} (hb : b ∈ tree.preimages) :
    (∃ proof : SparseProof, proof.leaf = tree.leafAt proof.key ∧ proof.leafPreimage = .ok b) ∨
    ∃ (key : Hash32) (room depth : ℕ), room + depth + 1 = treeDepth ∧ b = nodePreimage
      (treeDigest hash room (depth + 1) (keyTrie.side false depth (keyTrie.below key depth hashed)))
      (treeDigest hash room (depth + 1) (keyTrie.side true depth (keyTrie.below key depth hashed))) := by
  obtain ⟨key, proof, hprove, hmem⟩ := hb
  obtain ⟨proof', start, hprove', hproof, hpre, hdigest⟩ := tree.prove_besides hbuilt key hhashed
  obtain rfl : proof' = proof := Except.ok.inj (hprove'.symm.trans hprove)
  obtain ⟨start', hpre', hmem⟩ := hmem
  obtain rfl : start = start' := Except.ok.inj (hpre.symm.trans hpre')
  rcases hmem with rfl | ⟨pair, hpair, rfl⟩
  · exact Or.inl ⟨proof', by rw [hproof], hpre⟩
  · rw [hproof, ← hdigest, treeDigest, ← Nat.zero_add treeDepth] at hpair
    obtain ⟨room, depth, _, hsum, rfl⟩ := BitTrie.ascent_halves hpair
    exact Or.inr ⟨key, room, depth, hsum, rfl⟩

end ReferenceSparseTree

/-- what is accepted has the leaf and the root of its context -/
theorem verifyAgainst_ok {proof : SparseProof} {expected : SparseProofContext} {verified : ContextVerifiedSparseProof}
    (hbuilt : ∀ v, proof.leaf = .membership v → Built v) :
    proof.verifyAgainst hash expected = .ok verified ↔
      (⟨proof.profile, proof.version, proof.root, proof.key⟩ : SparseProofContext) = expected ∧
        verified = ⟨expected, proof.leaf⟩ ∧ proof.siblings.length = treeDepth ∧
        ∃ start, proof.leafPreimage = .ok start ∧
          keyTrie.ascend (nodeDigest hash) proof.key 0 proof.siblings (hash start) = expected.root := by
  have hstart : proof.startHash hash (emptyTable hash) = proof.leafPreimage.map hash := by
    unfold SparseProof.startHash SparseProof.leafPreimage
    cases hleaf : proof.leaf with
    | absence =>
      simp only
      rw [emptyTable_getD (show 0 + treeDepth = treeDepth from rfl)]
      rfl
    | membership value =>
      simp only
      rw [leafHash_eq (built_valid (hbuilt value hleaf))]
      cases leafPayload proof.key value <;> rfl
  have hroot : ∀ root, proof.recomputeRoot hash = .ok root ↔ proof.siblings.length = treeDepth ∧
      ∃ start, proof.leafPreimage = .ok start ∧
        keyTrie.ascend (nodeDigest hash) proof.key 0 proof.siblings (hash start) = root := by
    intro root
    unfold SparseProof.recomputeRoot
    split_ifs with hlen
    · simp [hlen]
    · rw [not_not] at hlen
      rw [emptyHashes_eq, ok_bind, hstart]
      cases proof.leafPreimage with
      | error e => simp [Except.map, error_bind]
      | ok start =>
        rw [Except.map, ok_bind, climb_eq, Except.ok.injEq]
        simp [hlen]
  obtain ⟨profile, version, root, key⟩ := expected
  simp only [SparseProof.verifyAgainst, SparseProofContext.mk.injEq]
  split_ifs with hprofile hversion hroot' hkey
  · simp [hprofile]
  · simp [hversion]
  · simp [hroot']
  · simp [hkey]
  · simp only [not_not] at hprofile hversion hroot' hkey
    simp only [bind_eq_ok, hroot, hprofile, hversion, hroot', hkey, true_and]
    constructor
    · rintro ⟨r, ⟨hlen, start, hpre, hr⟩, hok⟩
      split_ifs at hok with hne
      rw [not_not] at hne
      exact ⟨(Except.ok.inj hok).symm, hlen, start, hpre, hr.trans hne⟩
    · rintro ⟨rfl, hlen, start, hpre, hr⟩
      exact ⟨root, ⟨hlen, start, hpre, hr⟩, by rw [if_neg (not_not.2 rfl)]⟩

/-! ## Soundness -/

theorem leafPreimage_inj {p q : SparseProof} (hp : ∀ v, p.leaf = .membership v → Built v)
    (hq : ∀ v, q.leaf = .membership v → Built v) {b : Bytes} (h : p.leafPreimage = .ok b) (h' : q.leafPreimage = .ok b) :
    p.leaf = q.leaf := by
  unfold SparseProof.leafPreimage at h h'
  cases hpl : p.leaf with
  | absence =>
    cases hql : q.leaf with
    | absence => rfl
    | membership w =>
      rw [hpl] at h
      simp only [hql, bind_eq_ok] at h'
      obtain ⟨payload, _, hpre⟩ := h'
      exact absurd (Except.ok.inj (hpre.trans h.symm)) (leaf_ne_empty payload)
  | membership v =>
    simp only [hpl, bind_eq_ok] at h
    obtain ⟨payload, hpayload, hpre⟩ := h
    cases hql : q.leaf with
    | absence =>
      rw [hql] at h'
      exact absurd (Except.ok.inj (hpre.trans h'.symm)) (leaf_ne_empty payload)
    | membership w =>
      simp only [hql, bind_eq_ok] at h'
      obtain ⟨payload', hpayload', hpre'⟩ := h'
      have hsame := (domainPreimage_inj (by decide) (by decide) (Except.ok.inj (hpre.trans hpre'.symm))).2
      rw [← hsame] at hpayload'
      rw [(leafPayload_inj (built_valid (hp v hpl)) (built_valid (hq w hql)) hpayload hpayload').2]

namespace ReferenceSparseTree

variable {tree : ReferenceSparseTree hash}

theorem leafAt_built (hbuilt : tree.Built) (key : Hash32) {v : Value} (h : tree.leafAt key = .membership v) :
    ZenoFcis.Built v := by
  unfold leafAt at h
  cases hget : tree.get key with
  | none =>
    rw [hget] at h
    cases h
  | some w =>
    rw [hget] at h
    obtain rfl : w = v := ProofLeaf.membership.inj h
    obtain ⟨x, hx, rfl⟩ := Option.map_eq_some_iff.1 hget
    exact hbuilt x (slot_mem hx)

theorem verify_sound (hbuilt : tree.Built) {proof : SparseProof} (hproof : ∀ v,
  proof.leaf = .membership v → ZenoFcis.Built v)
    {key : Hash32} (hinj : Set.InjOn hash (tree.preimages ∪ proof.preimages hash)) {verified : ContextVerifiedSparseProof}
    (h : proof.verifyAgainst hash (tree.context key) = .ok verified) : proof.leaf = tree.leafAt key := by
  obtain ⟨hcontext, _, hlen, start, hpre, hroot⟩ := (verifyAgainst_ok hproof).1 h
  obtain rfl : proof.key = key := congrArg SparseProofContext.key hcontext
  obtain ⟨siblings, start', hprove, hlen', hpre', hroot'⟩ := tree.prove_spec hbuilt proof.key
  have hmem : ∀ b, b ∈ SparseProof.preimages hash
      ⟨tree.profile, tree.version, tree.root, proof.key, tree.leafAt proof.key, siblings⟩ →
      b ∈ tree.preimages ∪ proof.preimages hash := fun b hb => Or.inl ⟨proof.key, _, hprove, hb⟩
  -- the two ascents meet at the root, so they are one ascent
  have hascent : start = start' := by
    have hnode := (BitTrie.ascend_inj (t := keyTrie) (k := proof.key) (d := 0) (hlen.trans hlen'.symm)
      (fun p hp q hq hpq => ?_) (hroot.trans hroot'.symm)).2
    · exact hinj (Or.inr ⟨start, hpre, Or.inl rfl⟩) (hmem _ ⟨start', hpre', Or.inl rfl⟩) hnode
    · refine nodePreimage_inj (hinj (Or.inr ⟨start, hpre, Or.inr ⟨p, hp, rfl⟩⟩) ?_ hpq)
      exact hmem _ ⟨start', hpre', Or.inr ⟨q, hq, rfl⟩⟩
  rw [← hascent] at hpre'
  exact leafPreimage_inj hproof (fun v hv => leafAt_built hbuilt proof.key hv) hpre hpre'

theorem verify_complete (hbuilt : tree.Built) (key : Hash32) : ∃ proof, tree.prove key = .ok proof ∧
    proof.verifyAgainst hash (tree.context key) = .ok ⟨tree.context key, tree.leafAt key⟩ := by
  obtain ⟨siblings, start, hprove, hlen, hpre, hroot⟩ := tree.prove_spec hbuilt key
  refine ⟨_, hprove, (verifyAgainst_ok fun v hv => ?_).2 ⟨rfl, rfl, hlen, start, hpre, hroot⟩⟩
  exact leafAt_built hbuilt key hv

theorem leaves_eq_of_leafAt {tree' : ReferenceSparseTree hash} (h : ∀ key, tree.leafAt key = tree'.leafAt key) :
    tree.leaves = tree'.leaves := by
  refine LeafMap.ext_get fun key => ?_
  have hkey := h key
  unfold leafAt get at hkey
  cases hl : tree.leaves.get key <;> cases hr : tree'.leaves.get key <;> rw [hl, hr] at hkey <;> simp_all

theorem leaves_eq_of_root {tree' : ReferenceSparseTree hash} (hbuilt : tree.Built) (hbuilt' : tree'.Built)
    (hinj : Set.InjOn hash (tree.preimages ∪ tree'.preimages)) (h : tree.root = tree'.root) :
    tree.leaves = tree'.leaves := by
  refine leaves_eq_of_leafAt fun key => ?_
  obtain ⟨siblings, start, hprove, hlen, hpre, hroot⟩ := tree'.prove_spec hbuilt' key
  -- a proof of the other tree, presented to this one
  let proof : SparseProof := ⟨tree.profile, tree.version, tree.root, key, tree'.leafAt key, siblings⟩
  have hproof : ∀ v, proof.leaf = .membership v → ZenoFcis.Built v := fun v hv => leafAt_built hbuilt' key hv
  have hverify : proof.verifyAgainst hash (tree.context key) = .ok ⟨tree.context key, proof.leaf⟩ :=
    (verifyAgainst_ok hproof).2 ⟨rfl, rfl, hlen, start, hpre, hroot.trans h.symm⟩
  have hsub : proof.preimages hash ⊆ tree'.preimages := fun b hb => ⟨key, _, hprove, hb⟩
  exact (verify_sound hbuilt hproof (hinj.mono (Set.union_subset_union_right _ hsub)) hverify).symm

end ReferenceSparseTree

/-! ## Insertion order -/

/-- an insertion loop that succeeds holds the old entries and the new leaves -/
theorem insertLeaves_perm {map result : LeafMap}
    (h : insertLeaves leaves map = .ok result) : result.entries.Perm (leaves ++ map.entries) := by
  induction leaves generalizing map with
  | nil =>
    cases h
    exact .refl _
  | cons x leaves ih =>
    unfold insertLeaves at h
    split_ifs at h with hpresent
    have habsent : slot Prod.fst x.1 map.entries = none := by simpa [LeafMap.get] using hpresent
    calc result.entries
        |>.Perm (leaves ++ (map.insert x.1 x.2).entries) := ih h
      _ |>.Perm (leaves ++ x :: map.entries) := (put_perm habsent).append_left leaves
      _ |>.Perm (x :: leaves ++ map.entries) := List.perm_middle

/-- a tree that is built keeps what it was built from -/
theorem fromMap_ok {profile : AuthenticatedProfile} {version : UInt64} {leaves : LeafMap}
    {tree : ReferenceSparseTree hash} (h : ReferenceSparseTree.fromMap hash profile version leaves = .ok tree) :
    tree.profile = profile ∧ tree.version = version ∧ tree.leaves = leaves := by
  unfold ReferenceSparseTree.fromMap at h
  split_ifs at h
  split at h
  · cases h
    exact ⟨rfl, rfl, rfl⟩
  · cases h

theorem tryNew_perm {profile : AuthenticatedProfile} {version : UInt64}
    {tree : ReferenceSparseTree hash} (h : ReferenceSparseTree.tryNew hash profile version leaves = .ok tree) :
    tree.leaves.entries.Perm leaves := by
  simp only [ReferenceSparseTree.tryNew, bind_eq_ok] at h
  obtain ⟨map, hmap, htree⟩ := h
  unfold projectedMap at hmap
  split_ifs at hmap
  rw [(fromMap_ok htree).2.2]
  simpa [LeafMap.empty] using insertLeaves_perm hmap

theorem insertLeaves_ok {map : LeafMap}
    (h : ((leaves ++ map.entries).map Prod.fst).Nodup) : ∃ result, insertLeaves leaves map = .ok result := by
  induction leaves generalizing map with
  | nil => exact ⟨map, rfl⟩
  | cons x leaves ih =>
    rw [List.cons_append, List.map_cons, List.nodup_cons] at h
    have hslot : slot Prod.fst x.1 map.entries = none := by
      refine slot_eq_none.2 fun y hy hkey => h.1 ?_
      rw [← hkey]
      exact List.mem_map_of_mem (List.mem_append_right _ hy)
    unfold insertLeaves
    rw [if_neg (by simp [LeafMap.get, hslot])]
    refine ih ?_
    have hperm : (leaves ++ (map.insert x.1 x.2).entries).Perm (x :: (leaves ++ map.entries)) :=
      ((put_perm hslot).append_left leaves).trans List.perm_middle
    rw [(hperm.map Prod.fst).nodup_iff, List.map_cons, List.nodup_cons]
    exact h

/-- leaves with distinct keys, in whatever order they come, make the map of their entries -/
theorem projectedMap_perm {entries : List (Hash32 × Value)} (hlen : leaves.length ≤ maxReferenceLeaves)
    (h : Increasing Prod.fst entries) (hleaves : leaves.Perm entries) : projectedMap leaves = .ok ⟨entries, h⟩ := by
  have hnodup : ((leaves ++ LeafMap.empty.entries).map Prod.fst).Nodup := by
    rw [LeafMap.empty, List.append_nil, (hleaves.map Prod.fst).nodup_iff]
    exact List.pairwise_map.2 (h.imp fun hlt => hlt.ne)
  obtain ⟨result, hresult⟩ := insertLeaves_ok hnodup
  have hperm := insertLeaves_perm hresult
  rw [LeafMap.empty, List.append_nil] at hperm
  have hentries : result.entries = entries :=
    (hperm.trans hleaves).eq_of_pairwise (fun x y _ _ hxy hyx => absurd hyx hxy.not_gt) result.sorted h
  rw [projectedMap, if_neg (not_lt.2 hlen), hresult]
  exact congrArg Except.ok (LeafMap.ext_entries hentries)

theorem leaves_eq_iff_perm {profile profile' : AuthenticatedProfile} {version version' : UInt64}
    {leaves' : List (Hash32 × Value)} {tree tree' : ReferenceSparseTree hash}
    (h : ReferenceSparseTree.tryNew hash profile version leaves = .ok tree)
    (h' : ReferenceSparseTree.tryNew hash profile' version' leaves' = .ok tree') :
    tree.leaves = tree'.leaves ↔ leaves.Perm leaves' := by
  have hperm := tryNew_perm h
  have hperm' := tryNew_perm h'
  constructor
  · intro hleaves
    rw [hleaves] at hperm
    exact hperm.symm.trans hperm'
  · intro hsame
    have hall := (hperm.trans hsame).trans hperm'.symm
    exact LeafMap.ext_entries
      (hall.eq_of_pairwise (fun x y _ _ hxy hyx => absurd hyx hxy.not_gt) tree.leaves.sorted tree'.leaves.sorted)

/-- **Sparse-tree proofs.** A tree proves every key to its own context. Against that context nothing else is accepted,
whatever the siblings and the leaf, as long as the hash does not collide on what the two are verified with. Hence two
trees have one root exactly when they hold the same leaves, which does not depend on the order of insertion. -/
theorem sparse_proofs {tree : ReferenceSparseTree hash} (hbuilt : tree.Built) :
    (∀ key, ∃ proof, tree.prove key = .ok proof ∧ proof.verifyAgainst hash (tree.context key) =
      .ok ⟨tree.context key, (tree.get key).elim .absence .membership⟩) ∧
    (∀ (proof : SparseProof) (key : Hash32) (verified : ContextVerifiedSparseProof),
      (∀ v, proof.leaf = .membership v → Built v) → Set.InjOn hash (tree.preimages ∪ proof.preimages hash) →
      proof.verifyAgainst hash (tree.context key) = .ok verified →
      verified.leaf = proof.leaf ∧ ((∃ v, proof.leaf = .membership v ∧ tree.get key = some v) ∨
        proof.leaf = .absence ∧ tree.get key = none)) ∧
    (∀ tree' : ReferenceSparseTree hash, tree'.Built → Set.InjOn hash (tree.preimages ∪ tree'.preimages) →
      (tree.root = tree'.root ↔ tree.leaves = tree'.leaves)) ∧
    ∀ (profile profile' : AuthenticatedProfile) (version version' : UInt64) (leaves leaves' : List (Hash32 × Value))
      (tree' : ReferenceSparseTree hash), ReferenceSparseTree.tryNew hash profile version leaves = .ok tree →
      ReferenceSparseTree.tryNew hash profile' version' leaves' = .ok tree' →
      (tree.leaves = tree'.leaves ↔ leaves.Perm leaves') := by
  refine ⟨fun key => ReferenceSparseTree.verify_complete hbuilt key, ?_, ?_, ?_⟩
  · intro proof key verified hproof hinj h
    have hleaf := ReferenceSparseTree.verify_sound hbuilt hproof hinj h
    refine ⟨by rw [((verifyAgainst_ok hproof).1 h).2.1], ?_⟩
    unfold ReferenceSparseTree.leafAt at hleaf
    cases hget : tree.get key with
    | none =>
      rw [hget] at hleaf
      exact Or.inr ⟨hleaf, rfl⟩
    | some v =>
      rw [hget] at hleaf
      exact Or.inl ⟨v, hleaf, rfl⟩
  · intro tree' hbuilt' hinj
    refine ⟨ReferenceSparseTree.leaves_eq_of_root hbuilt hbuilt' hinj, fun hleaves => ?_⟩
    have hroot := tree.rooted
    rw [hleaves, tree'.rooted] at hroot
    exact (Except.ok.inj hroot).symm
  · intro profile profile' version version' leaves leaves' tree' h h'
    exact leaves_eq_iff_perm h h'

/-! ## A tree of two leaves under a hash that counts levels -/

/-- a number as a digest -/
def digit (n : ℕ) : Hash32 := ⟨beBytes 32 n, beBytes_length 32 n⟩

theorem digit_inj {m n : ℕ} (hm : m ≤ 2048) (hn : n ≤ 2048) (h : digit m = digit n) : m = n :=
  beBytes_inj (by omega) (by omega) (congrArg Hash32.bytes h)

def sampleProfile : AuthenticatedProfile := ⟨digit 1, digit 1, digit 1, by decide⟩

/-- the key whose first bit only is set -/
def highKey : Hash32 := digit (2 ^ 255)

/-- the preimage of a leaf -/
def leafBytes (key : Hash32) (value : Value) : Bytes := domainPreimage authLeaf (key.bytes ++ blob 4 (wire value))

/-- a provider that numbers a node one above its greater child, the absent leaf 0 and two leaves 512 and 1024 -/
def forkHash (b : Bytes) : Hash32 :=
  if b = emptyPreimage then digit 0
  else if b = leafBytes .zero .unit then digit 512
  else if b = leafBytes highKey (.bool true) then digit 1024
  else digit (max (ofBeBytes ((b.drop (b.length - 64)).take 32)) (ofBeBytes (b.drop (b.length - 32))) + 1)

theorem node_ne {domain : Domain} {payload : Bytes} (left right : Hash32) (hname : domain.name.length ≤ 65535)
    (hne : authNode ≠ domain) : nodePreimage left right ≠ domainPreimage domain payload :=
  fun h => hne (domainPreimage_inj (by decide) hname h).1

theorem forkHash_node {m n : ℕ} (hm : m ≤ 2048) (hn : n ≤ 2048) :
    forkHash (nodePreimage (digit m) (digit n)) = digit (max m n + 1) := by
  have hempty : nodePreimage (digit m) (digit n) ≠ emptyPreimage := node_ne _ _ (by decide) (by decide)
  have hleaf (key : Hash32) (value : Value) : nodePreimage (digit m) (digit n) ≠ leafBytes key value :=
    node_ne _ _ (by decide) (by decide)
  obtain ⟨pre, hpre⟩ : ∃ pre, nodePreimage (digit m) (digit n) = pre ++ ((digit m).bytes ++ (digit n).bytes) := by
    rw [nodePreimage, domainPreimage]
    exact ⟨_, rfl⟩
  have hlength : (nodePreimage (digit m) (digit n)).length = pre.length + 64 := by
    rw [hpre, List.length_append, List.length_append, (digit m).length_eq, (digit n).length_eq]
  have hleft : ((nodePreimage (digit m) (digit n)).drop ((nodePreimage (digit m) (digit n)).length - 64)).take 32 =
      (digit m).bytes := by
    rw [hlength, Nat.add_sub_cancel, hpre, List.drop_left, ← (digit m).length_eq, List.take_left]
  have hright : (nodePreimage (digit m) (digit n)).drop ((nodePreimage (digit m) (digit n)).length - 32) =
      (digit n).bytes := by
    rw [hlength, hpre, ← List.append_assoc, show pre.length + 64 - 32 = (pre ++ (digit m).bytes).length by
      rw [List.length_append, (digit m).length_eq]; omega, List.drop_left]
  have hm' : ofBeBytes (digit m).bytes = m := ofBeBytes_beBytes_of_lt (by omega)
  have hn' : ofBeBytes (digit n).bytes = n := ofBeBytes_beBytes_of_lt (by omega)
  rw [forkHash, if_neg hempty, if_neg (hleaf _ _), if_neg (hleaf _ _), hleft, hright, hm', hn']

theorem fork_vacant {n : ℕ} (hn : n ≤ 256) : vacantDigest forkHash n = digit n := by
  induction n with
  | zero => rw [vacantDigest, absentDigest, forkHash, if_pos rfl]
  | succ n ih =>
    rw [vacantDigest, ih (by omega), nodeDigest, forkHash_node (by omega) (by omega), max_self]

/-- a leaf whose bit is clear goes to the left half alone -/
theorem sides_single {x : Hash32 × Hash32} {depth : ℕ} (h : keyTrie.bit x.1 depth = false) :
    keyTrie.side false depth [x] = [x] ∧ keyTrie.side true depth [x] = [] := by
  constructor <;> simp [BitTrie.side, h]

/-- below its first bit a lone leaf keeps to the left of empty subtrees -/
theorem fork_single {key : Hash32} {c room depth : ℕ} (hbits : ∀ e < 256, 0 < e → keyTrie.bit key e = false)
    (hc : 512 ≤ c ∧ c ≤ 1024) (hdepth : 0 < depth) (hroom : room + depth = 256) :
    treeDigest forkHash room depth [(key, digit c)] = digit (c + room) := by
  induction room generalizing depth with
  | zero => rfl
  | succ room ih =>
    obtain ⟨hleft, hright⟩ := sides_single (x := (key, digit c)) (hbits depth (by omega) hdepth)
    have hlone := ih (Nat.succ_pos depth) (by omega)
    have hempty := @treeDigest_nil forkHash room (depth + 1)
    rw [treeDigest] at hlone hempty ⊢
    rw [BitTrie.digest, hleft, hright, hlone, hempty, fork_vacant (by omega), nodeDigest,
      forkHash_node (by omega) (by omega), max_eq_left (by omega)]
    rfl

set_option maxRecDepth 4000 in
theorem zero_bits : ∀ e < 256, keyTrie.bit .zero e = false := by decide

set_option maxRecDepth 4000 in
theorem high_bits : ∀ e < 256, 0 < e → keyTrie.bit highKey e = false := by decide

theorem high_bit : keyTrie.bit highKey 0 = true := by decide

/-- two leaves in different halves, hashed -/
def forkHashed : List (Hash32 × Hash32) := [(.zero, digit 512), (highKey, digit 1024)]

theorem fork_leaves : forkHash (leafBytes .zero .unit) = digit 512 ∧
    forkHash (leafBytes highKey (.bool true)) = digit 1024 := by
  constructor <;> decide

theorem fork_hashed : hashedLeaves forkHash [(.zero, .unit), (highKey, .bool true)] = .ok forkHashed := by
  have hzero : leafHash forkHash .zero .unit = .ok (digit 512) := by decide
  have hhigh : leafHash forkHash highKey (.bool true) = .ok (digit 1024) := by decide
  simp only [hashedLeaves, hzero, hhigh, ok_bind]
  rfl

theorem fork_sides : keyTrie.side false 0 forkHashed = [(.zero, digit 512)] ∧
    keyTrie.side true 0 forkHashed = [(highKey, digit 1024)] := by
  constructor <;> simp [BitTrie.side, forkHashed, zero_bits, high_bit]

theorem fork_halves : treeDigest forkHash 255 1 (keyTrie.side false 0 forkHashed) = digit 767 ∧
    treeDigest forkHash 255 1 (keyTrie.side true 0 forkHashed) = digit 1279 := by
  rw [fork_sides.1, fork_sides.2]
  exact ⟨fork_single (fun e he _ => zero_bits e he) (by omega) (by omega) (by omega),
    fork_single high_bits (by omega) (by omega) (by omega)⟩

theorem zero_lt_high : Hash32.zero < highKey := bytesBefore_iff_lt.1 (by decide)

theorem fork_increasing : Increasing Prod.fst [(Hash32.zero, Value.unit), (highKey, .bool true)] :=
  List.pairwise_pair.2 zero_lt_high

theorem fork_root : treeDigest forkHash treeDepth 0 forkHashed = digit 1280 := by
  obtain ⟨hleft, hright⟩ := fork_halves
  rw [treeDigest] at hleft hright ⊢
  rw [treeDepth, BitTrie.digest, hleft, hright, nodeDigest, forkHash_node (by omega) (by omega)]
  rfl

/-- the two leaves in key order -/
def forkLeaves : LeafMap := ⟨[(.zero, .unit), (highKey, .bool true)], fork_increasing⟩

theorem fork_rooted : leavesRoot forkHash forkLeaves = .ok (digit 1280) := by
  have htogether : keyTrie.Together 0 forkHashed := fun x _ y _ i hi => absurd hi (Nat.not_lt_zero i)
  rw [leavesRoot, show forkLeaves.entries = [(.zero, .unit), (highKey, .bool true)] from rfl, fork_hashed, ok_bind,
    emptyHashes_eq, ok_bind, subtreeHash_eq (show treeDepth + 0 = treeDepth from rfl)
      (@hashedLeaves_ordered _ _ forkLeaves fork_hashed) htogether, fork_root]

theorem fork_bounded : forkLeaves.entries.length ≤ maxReferenceLeaves := by decide

/-- leaves within the bound build a tree with their root -/
theorem fromMap_of_root {leaves : LeafMap} {root : Hash32} (profile : AuthenticatedProfile) (version : UInt64)
    (hlen : leaves.entries.length ≤ maxReferenceLeaves) (hroot : leavesRoot hash leaves = .ok root) :
    ReferenceSparseTree.fromMap hash profile version leaves = .ok ⟨profile, version, root, leaves, hlen, hroot⟩ := by
  rw [ReferenceSparseTree.fromMap, dif_pos hlen]
  split
  case h_1 root' hroot' =>
    obtain rfl : root = root' := Except.ok.inj (hroot.symm.trans hroot')
    rfl
  case h_2 error herror => cases hroot.symm.trans herror

/-- the tree of the two leaves -/
def forkTree : ReferenceSparseTree forkHash := ⟨sampleProfile, 0, digit 1280, forkLeaves, fork_bounded, fork_rooted⟩

/-- both orders of insertion build the tree -/
theorem fork_tryNew {leaves : List (Hash32 × Value)} (h : projectedMap leaves = .ok forkLeaves) :
    ReferenceSparseTree.tryNew forkHash sampleProfile 0 leaves = .ok forkTree := by
  rw [ReferenceSparseTree.tryNew, h, ok_bind]
  exact fromMap_of_root sampleProfile 0 fork_bounded fork_rooted

theorem forkTree_built : forkTree.Built := by
  intro x hx
  rcases List.mem_pair.1 hx with rfl | rfl
  · exact .unit
  · exact .boolean true

theorem fork_get {key : Hash32} (hzero : key ≠ .zero) (hhigh : key ≠ highKey) : forkTree.get key = none := by
  have hslot : slot Prod.fst key [(Hash32.zero, Value.unit), (highKey, .bool true)] = none :=
    slot_eq_none.2 fun x hx => by
      rcases List.mem_pair.1 hx with rfl | rfl
      · exact hzero.symm
      · exact hhigh.symm
  rw [ReferenceSparseTree.get, LeafMap.get]
  exact congrArg (Option.map Prod.snd) hslot

theorem fork_get_zero : forkTree.get .zero = some .unit := by
  rw [ReferenceSparseTree.get, LeafMap.get]
  exact congrArg (Option.map Prod.snd) ((slot_eq_some fork_increasing).2 ⟨List.mem_cons_self, rfl⟩)

/-- what is hashed for each number: the absent leaf, empty subtrees, the two leaves, their paths and the root -/
def forkPreimage (n : ℕ) : Bytes :=
  if n = 0 then emptyPreimage
  else if n ≤ 256 then nodePreimage (digit (n - 1)) (digit (n - 1))
  else if n = 512 then leafBytes .zero .unit
  else if n ≤ 767 then nodePreimage (digit (n - 1)) (digit (n - 513))
  else if n = 1024 then leafBytes highKey (.bool true)
  else if n ≤ 1279 then nodePreimage (digit (n - 1)) (digit (n - 1025))
  else nodePreimage (digit 767) (digit 1279)

/-- a number whose hash is its own -/
def Numbered (b : Bytes) : Prop := ∃ n ≤ 1280, b = forkPreimage n ∧ forkHash b = digit n

theorem numbered_injOn : Set.InjOn forkHash {b | Numbered b} := by
  rintro b ⟨m, hm, rfl, hb⟩ c ⟨n, hn, rfl, hc⟩ h
  rw [hb, hc] at h
  rw [digit_inj (by omega) (by omega) h]

theorem fork_below (key : Hash32) {depth : ℕ} (hdepth : 0 < depth) :
    keyTrie.below key depth forkHashed = [] ∨ keyTrie.below key depth forkHashed = [(.zero, digit 512)] ∨
      keyTrie.below key depth forkHashed = [(highKey, digit 1024)] := by
  have hsplit : ¬(keyTrie.Agree depth .zero key ∧ keyTrie.Agree depth highKey key) := by
    rintro ⟨hzero, hhigh⟩
    have hbit := (hzero 0 hdepth).trans (hhigh 0 hdepth).symm
    rw [zero_bits 0 (by omega), high_bit] at hbit
    cases hbit
  by_cases hzero : keyTrie.Agree depth .zero key <;> by_cases hhigh : keyTrie.Agree depth highKey key
  · exact absurd ⟨hzero, hhigh⟩ hsplit
  · exact Or.inr (Or.inl (by simp [BitTrie.below, forkHashed, hzero, hhigh]))
  · exact Or.inr (Or.inr (by simp [BitTrie.below, forkHashed, hzero, hhigh]))
  · exact Or.inl (by simp [BitTrie.below, forkHashed, hzero, hhigh])

theorem fork_leaf {proof : SparseProof} (hleaf : proof.leaf = forkTree.leafAt proof.key) {b : Bytes}
    (h : proof.leafPreimage = .ok b) : Numbered b := by
  have hleaves (key : Hash32) (value : Value) (hv : Built value) (hb : (SparseProof.leafPreimage
      ⟨proof.profile, proof.version, proof.root, key, .membership value, proof.siblings⟩) = .ok b) :
      b = leafBytes key value := by
    simp only [SparseProof.leafPreimage, bind_eq_ok] at hb
    obtain ⟨payload, hpayload, hpre⟩ := hb
    rw [(leafPayload_ok (built_valid hv) hpayload).2] at hpre
    exact (Except.ok.inj hpre).symm
  obtain ⟨profile, version, root, key, leaf, siblings⟩ := proof
  obtain rfl : leaf = forkTree.leafAt key := hleaf
  by_cases hzero : key = .zero
  · subst hzero
    exact ⟨512, by omega, hleaves .zero .unit .unit h, hleaves .zero .unit .unit h ▸ fork_leaves.1⟩
  · by_cases hhigh : key = highKey
    · subst hhigh
      exact ⟨1024, by omega, hleaves highKey (.bool true) (.boolean true) h,
        hleaves highKey (.bool true) (.boolean true) h ▸ fork_leaves.2⟩
    · have habsent : forkTree.leafAt key = .absence := by
        rw [ReferenceSparseTree.leafAt, fork_get hzero hhigh]
        rfl
      rw [habsent] at h
      obtain rfl : emptyPreimage = b := Except.ok.inj h
      exact ⟨0, by omega, rfl, by rw [forkHash, if_pos rfl]⟩

theorem fork_preimages {b : Bytes} (hb : b ∈ forkTree.preimages) : Numbered b := by
  rcases forkTree.mem_preimages forkTree_built fork_hashed hb with
    ⟨proof, hleaf, hpre⟩ | ⟨key, room, depth, hsum, rfl⟩
  · exact fork_leaf hleaf hpre
  rw [treeDepth] at hsum
  cases depth with
  | zero =>
    obtain rfl : room = 255 := by omega
    rw [BitTrie.below_zero, fork_halves.1, fork_halves.2]
    exact ⟨1280, by omega, rfl, by rw [forkHash_node (by omega) (by omega), max_eq_right (by omega)]⟩
  | succ depth =>
    -- a lone leaf and an empty subtree on its right
    have hlone {k : Hash32} {c : ℕ} (hbits : ∀ e < 256, 0 < e → keyTrie.bit k e = false) (hc : 512 ≤ c ∧ c ≤ 1024)
        (hpre : nodePreimage (digit (c + room)) (digit room) = forkPreimage (c + room + 1)) :
        Numbered (nodePreimage
          (treeDigest forkHash room (depth + 1 + 1) (keyTrie.side false (depth + 1) [(k, digit c)]))
          (treeDigest forkHash room (depth + 1 + 1) (keyTrie.side true (depth + 1) [(k, digit c)]))) := by
      obtain ⟨hleft, hright⟩ := sides_single (x := (k, digit c)) (hbits (depth + 1) (by omega) (by omega))
      rw [hleft, hright, fork_single hbits hc (by omega) (by omega), treeDigest_nil, fork_vacant (by omega)]
      exact ⟨c + room + 1, by omega, hpre, by rw [forkHash_node (by omega) (by omega), max_eq_left (by omega)]⟩
    rcases fork_below key (Nat.succ_pos depth) with h | h | h <;> rw [h]
    · have hside (side : Bool) : keyTrie.side side (depth + 1) ([] : List (Hash32 × Hash32)) = [] := rfl
      rw [hside, hside, treeDigest_nil, fork_vacant (by omega)]
      refine ⟨room + 1, by omega, ?_, by rw [forkHash_node (by omega) (by omega), max_self]⟩
      rw [forkPreimage, if_neg (by omega), if_pos (by omega), Nat.add_sub_cancel]
    · refine hlone (fun e he _ => zero_bits e he) (by omega) ?_
      rw [forkPreimage, if_neg (by omega), if_neg (by omega), if_neg (by omega), if_pos (by omega), Nat.add_sub_cancel,
        show 512 + room + 1 - 513 = room by omega]
    · refine hlone high_bits (by omega) ?_
      rw [forkPreimage, if_neg (by omega), if_neg (by omega), if_neg (by omega), if_neg (by omega), if_neg (by omega),
        if_pos (by omega), Nat.add_sub_cancel, show 1024 + room + 1 - 1025 = room by omega]

/-- a leaf and an absent key are proved, both proofs are tied to what the tree holds, and both orders of insertion agree -/
theorem sparse_proofs_fork :
    (∃ proof, forkTree.prove .zero = .ok proof ∧
      proof.verifyAgainst forkHash (forkTree.context .zero) = .ok ⟨forkTree.context .zero, .membership .unit⟩ ∧
      proof.leaf = .membership .unit ∧ forkTree.get .zero = some .unit) ∧
    (∃ proof, forkTree.prove (digit 1) = .ok proof ∧
      proof.verifyAgainst forkHash (forkTree.context (digit 1)) = .ok ⟨forkTree.context (digit 1), .absence⟩ ∧
      proof.leaf = .absence ∧ forkTree.get (digit 1) = none) ∧
    [(Hash32.zero, Value.unit), (highKey, .bool true)].Perm [(highKey, .bool true), (.zero, .unit)] := by
  obtain ⟨hcomplete, hsound, _, horder⟩ := sparse_proofs forkTree_built
  -- what is accepted is what the tree holds, since nothing that it hashes collides
  have htie {key : Hash32} {proof : SparseProof} {leaf : ProofLeaf} (hprove : forkTree.prove key = .ok proof)
      (hverify : proof.verifyAgainst forkHash (forkTree.context key) = .ok ⟨forkTree.context key, leaf⟩) :
      leaf = proof.leaf ∧ ((∃ v, proof.leaf = .membership v ∧ forkTree.get key = some v) ∨
        proof.leaf = .absence ∧ forkTree.get key = none) := by
    have hsub : forkTree.preimages ∪ proof.preimages forkHash ⊆ {b | Numbered b} :=
      Set.union_subset (fun _ hb => fork_preimages hb) fun _ hb => fork_preimages ⟨key, proof, hprove, hb⟩
    refine hsound proof key _ (fun v hv => ?_) (numbered_injOn.mono hsub) hverify
    rw [forkTree.prove_leaf hprove] at hv
    exact ReferenceSparseTree.leafAt_built forkTree_built key hv
  refine ⟨?_, ?_, ?_⟩
  · obtain ⟨proof, hprove, hverify⟩ := hcomplete .zero
    rw [fork_get_zero] at hverify
    obtain ⟨hleaf, ⟨v, hv, hget⟩ | ⟨habsent, _⟩⟩ := htie hprove hverify
    · obtain rfl : Value.unit = v := ProofLeaf.membership.inj (hleaf.trans hv)
      exact ⟨proof, hprove, hverify, hv, hget⟩
    · cases hleaf.trans habsent
  · obtain ⟨proof, hprove, hverify⟩ := hcomplete (digit 1)
    rw [fork_get (by decide) (by decide)] at hverify
    obtain ⟨hleaf, ⟨v, hv, _⟩ | habsent⟩ := htie hprove hverify
    · cases hleaf.trans hv
    · exact ⟨proof, hprove, hverify, habsent⟩
  · have hswap := List.Perm.swap (Hash32.zero, Value.unit) (highKey, .bool true) []
    exact (horder _ _ _ _ _ _ _ (fork_tryNew (projectedMap_perm (by decide) fork_increasing (.refl _)))
      (fork_tryNew (projectedMap_perm (by decide) fork_increasing hswap))).1 rfl

end ZenoFcis.Authenticated
