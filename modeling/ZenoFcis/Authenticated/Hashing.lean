/-
What the hashing of the sparse tree computes.

The hash under a fixed domain never fails, so `nodeHash` is a function (`nodeDigest`); with it the code's loops compute
the digest of a full-depth tree, its siblings beside a key, and the ascent of a proof.
-/
import ZenoFcis.Lib.SparseTree
import ZenoFcis.Authenticated.Tree
import ZenoFcis.Patch.Meaning

namespace ZenoFcis.Authenticated

open Lib Lib.Except Patch CollectionMerkle

variable {hash : Bytes → Hash32}

/-- a commitment hashes the preimage of its domain, when its lengths fit -/
theorem hashBytes_eq {domain : Domain} {bytes : Bytes} (hname : domain.name.length ≤ 65535)
    (hbytes : bytes.length ≤ u64Max) : hashBytes hash domain bytes = .ok (hash (domainPreimage domain bytes)) := by
  rw [hashBytes, commitment, if_neg (not_lt.2 hname), if_neg (not_lt.2 hbytes)]
  rfl

/-- the preimage of an inner node -/
def nodePreimage (left right : Hash32) : Bytes := domainPreimage authNode (left.bytes ++ right.bytes)

/-- the preimage of an absent leaf -/
def emptyPreimage : Bytes := domainPreimage authEmpty (literal "leaf")

/-- `nodeHash` as a function -/
def nodeDigest (hash : Bytes → Hash32) (left right : Hash32) : Hash32 := hash (nodePreimage left right)

/-- an inner node hashes its two children -/
theorem nodeHash_eq (left right : Hash32) : nodeHash hash left right = .ok (nodeDigest hash left right) := by
  refine hashBytes_eq (by decide) ?_
  rw [List.length_append, left.length_eq, right.length_eq]
  decide

def keyTrie : BitTrie Hash32 Hash32 Subtree := trie fun _ => .zero

theorem keyBit_eq_zero (key : Hash32) (depth : ℕ) : keyBit key depth = 0 ↔ keyTrie.bit key depth = false :=
  bit_eq_zero key depth

theorem increasing_ordered {α : Type} {leaves : List (Hash32 × α)} (h : Increasing Prod.fst leaves) : Ordered leaves :=
  h.imp fun hlt => bytesBefore_iff_lt.2 hlt

theorem split_sides {leaves : List (Hash32 × Hash32)} {depth : ℕ} (hord : Ordered leaves)
    (h : keyTrie.Together depth leaves) :
    leaves.take (partitionPoint leaves fun x => keyBit x.1 depth = 0) = keyTrie.side false depth leaves ∧
      leaves.drop (partitionPoint leaves fun x => keyBit x.1 depth = 0) = keyTrie.side true depth leaves :=
  partitionPoint_split hord h

section Tree

variable (hash)

/-- the digest of an absent leaf -/
def absentDigest : Hash32 := hash emptyPreimage

/-- the digest of leaves below depth `depth` with `room` levels left -/
abbrev treeDigest (room depth : ℕ) (leaves : List (Hash32 × Hash32)) : Hash32 :=
  keyTrie.digest (absentDigest hash) (nodeDigest hash) room depth leaves

/-- the digest of an empty subtree of `room` levels -/
def vacantDigest : ℕ → Hash32
  | 0 => absentDigest hash
  | room + 1 => nodeDigest hash (vacantDigest room) (vacantDigest room)

end Tree

/-- a subtree without leaves hashes to the vacant digest of its height -/
theorem treeDigest_nil (room depth : ℕ) : treeDigest hash room depth [] = vacantDigest hash room := by
  induction room generalizing depth with
  | zero => rfl
  | succ room ih =>
    have hside : ∀ b, keyTrie.side b depth ([] : List (Hash32 × Hash32)) = [] := fun b => rfl
    rw [treeDigest, BitTrie.digest, hside, hside, vacantDigest]
    exact congrArg₂ (nodeDigest hash) (ih _) (ih _)

theorem emptyHashesFrom_eq (n : ℕ) :
    emptyHashesFrom hash n = .ok ((List.range (n + 1)).reverse.map (vacantDigest hash)) := by
  induction n with
  | zero =>
    rw [emptyHashesFrom, hashBytes_eq (by decide) (by decide)]
    rfl
  | succ n ih =>
    rw [emptyHashesFrom, ih, ok_bind]
    have hhead : ((List.range (n + 1)).reverse.map (vacantDigest hash)).headD .zero = vacantDigest hash n := by
      rw [List.range_succ, List.reverse_append]
      rfl
    rw [hhead, nodeHash_eq, ok_bind, List.range_succ (n := n + 1), List.reverse_append]
    rfl

/-- the table of empty subtrees -/
def emptyTable (hash : Bytes → Hash32) : List Hash32 := (List.range (treeDepth + 1)).reverse.map (vacantDigest hash)

/-- `empty_hashes` computes the table of vacant digests -/
theorem emptyHashes_eq : emptyHashes hash = .ok (emptyTable hash) := emptyHashesFrom_eq treeDepth

theorem emptyTable_getD {room depth : ℕ} (h : room + depth = treeDepth) :
    (emptyTable hash).getD depth .zero = vacantDigest hash room := by
  have hdepth : depth < treeDepth + 1 := by omega
  rw [emptyTable, List.getD_eq_getElem?_getD, List.getElem?_map, List.getElem?_reverse (by simpa using hdepth),
    List.length_range, List.getElem?_range (by omega), show treeDepth + 1 - 1 - depth = room by omega]
  rfl

/-! ## The recursions -/

variable {leaves : List (Hash32 × Hash32)} {room depth : ℕ} {key : Hash32}

/-- **Hashing.** `subtree_hash` computes the digest of the trie -/
theorem subtreeHash_eq (hroom : room + depth = treeDepth) (hord : Ordered leaves) (h : keyTrie.Together depth leaves) :
    subtreeHash hash (emptyTable hash) room depth leaves = .ok (treeDigest hash room depth leaves) := by
  induction room generalizing depth leaves with
  | zero =>
    match leaves, hord, h with
    | [], _, _ => rw [subtreeHash, emptyTable_getD hroom, treeDigest_nil]
    | [x], _, _ => rfl
    | x :: y :: rest, hord, h =>
      -- two leaves that agree on every bit have one key
      have hxy : x.1 = y.1 :=
        bitSet_ext fun i hi =>
          h x List.mem_cons_self y (List.mem_cons_of_mem _ List.mem_cons_self) i (by
            have : keyBits = treeDepth := rfl
            omega)
      exact absurd hxy (before_ne (List.rel_of_pairwise_cons hord List.mem_cons_self))
  | succ room ih =>
    match leaves, hord, h with
    | [], _, _ => rw [subtreeHash, emptyTable_getD hroom, treeDigest_nil]
    | x :: rest, hord, h =>
      obtain ⟨htake, hdrop⟩ := split_sides hord h
      have hside : ∀ b, Ordered (keyTrie.side b depth (x :: rest)) := fun b => hord.filter _
      rw [subtreeHash]
      · rw [htake, hdrop, ih (by omega) (hside false) h.side, ih (by omega) (hside true) h.side, ok_bind, ok_bind,
          nodeHash_eq]
        rfl
      · simp

/-- **Siblings.** `proof_siblings` lists what stands beside the path of a key -/
theorem proofSiblings_eq (hroom : room + depth = treeDepth) (hord : Ordered leaves) :
    proofSiblings hash (emptyTable hash) key room depth (keyTrie.below key depth leaves) =
      .ok (keyTrie.besides (absentDigest hash) (nodeDigest hash) key room depth leaves) := by
  induction room generalizing depth with
  | zero => rfl
  | succ room ih =>
    obtain ⟨htake, hdrop⟩ := split_sides (hord.filter _) (BitTrie.below_together (t := keyTrie) (k := key))
    have hordered : Ordered (keyTrie.beside key depth leaves) := hord.filter _
    have hother : subtreeHash hash (emptyTable hash) room (depth + 1) (keyTrie.beside key depth leaves) =
        .ok (treeDigest hash room (depth + 1) (keyTrie.beside key depth leaves)) :=
      subtreeHash_eq (by omega) hordered BitTrie.below_together_beside
    have hbelow : keyTrie.side (keyTrie.bit key depth) depth (keyTrie.below key depth leaves) =
        keyTrie.below key (depth + 1) leaves := BitTrie.side_below
    have hbeside : keyTrie.side (!keyTrie.bit key depth) depth (keyTrie.below key depth leaves) =
        keyTrie.beside key depth leaves := BitTrie.side_beside
    rw [BitTrie.below] at hbelow hbeside
    rw [proofSiblings, BitTrie.below, htake, hdrop]
    cases hbit : keyTrie.bit key depth
    · rw [hbit] at hbelow
      rw [hbit, Bool.not_false] at hbeside
      simp only [(keyBit_eq_zero key depth).2 hbit, if_true]
      rw [hbeside, hother, ok_bind, hbelow, ih (by omega)]
      rfl
    · rw [hbit] at hbelow
      rw [hbit, Bool.not_true] at hbeside
      have hne : keyBit key depth ≠ 0 := fun h0 => by simp [(keyBit_eq_zero key depth).1 h0] at hbit
      simp only [hne, if_false]
      rw [hbeside, hother, ok_bind, hbelow, ih (by omega)]
      rfl

/-- `climb` is the ascent of the trie -/
theorem climb_eq (siblings : List Hash32) (current : Hash32) :
    SparseProof.climb hash key depth siblings current =
      .ok (keyTrie.ascend (nodeDigest hash) key depth siblings current) := by
  induction siblings generalizing depth with
  | nil => rfl
  | cons sibling siblings ih =>
    rw [SparseProof.climb, ih, ok_bind, BitTrie.ascend, BitTrie.pair]
    cases hbit : keyTrie.bit key depth
    · rw [if_pos ((keyBit_eq_zero key depth).2 hbit), nodeHash_eq]
      rfl
    · rw [if_neg fun h0 => by simp [(keyBit_eq_zero key depth).1 h0] at hbit, nodeHash_eq]
      rfl

end ZenoFcis.Authenticated
