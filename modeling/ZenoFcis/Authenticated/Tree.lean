/-
The sparse reference tree (`zeno-fcis-authenticated`): logical leaves under 256-bit keys, hashed at full depth, with
membership and absence proofs.

Model:
- the hash provider is a parameter, as in `commitment`;
- a `BTreeMap` is its entries in key order (`LeafMap`);
- `subtreeHash` and `proofSiblings` take the levels left as their first argument; `depth` is `treeDepth` less that.
-/
import ZenoFcis.Collection.Commitment
import ZenoFcis.Patch.Apply
import ZenoFcis.Value.Equality

namespace ZenoFcis.Authenticated

open Lib Patch CollectionMerkle

/-- maximum logical leaves in the reference backend -/
def maxReferenceLeaves : ℕ := 4096

def treeDepth : ℕ := 256

def authEmpty : Domain := .fixed "zeno-fcis/auth-empty"
def authLeaf : Domain := .fixed "zeno-fcis/auth-leaf"
def authNode : Domain := .fixed "zeno-fcis/auth-node"
def authPatch : Domain := .fixed "zeno-fcis/auth-patch"

inductive AuthError where
  | zeroIdentity
  | zeroSemanticRoot
  | duplicateLeafKey
  | tooManyLeaves
  | projectionMismatch
  | projectorMismatch
  | profileMismatch
  | versionConflict
  | rootConflict
  | postRootMismatch
  | versionOverflow
  | proofLength
  | proofProfileMismatch
  | proofVersionMismatch
  | proofRootMismatch
  | proofKeyMismatch
  | invalidProof
  | patch (error : PatchError)
  | encode (error : EncodeError)
deriving DecidableEq

/-- an explicit dual-root profile, without the zero sentinel -/
structure AuthenticatedProfile where
  treeId : Hash32
  profileHash : Hash32
  projectorHash : Hash32
  nonzero : treeId ≠ .zero ∧ profileHash ≠ .zero ∧ projectorHash ≠ .zero
deriving DecidableEq

def AuthenticatedProfile.tryNew (treeId profileHash projectorHash : Hash32) : Except AuthError AuthenticatedProfile :=
  if h : treeId = .zero ∨ profileHash = .zero ∨ projectorHash = .zero then .error .zeroIdentity
  else .ok ⟨treeId, profileHash, projectorHash, by simpa only [not_or] using h⟩

/-! ## Leaf maps -/

/-- logical leaves in key order -/
structure LeafMap where
  entries : List (Hash32 × Value)
  sorted : Increasing Prod.fst entries
deriving DecidableEq

namespace LeafMap

def empty : LeafMap := ⟨[], .nil⟩

def get (leaves : LeafMap) (key : Hash32) : Option Value := (slot Prod.fst key leaves.entries).map Prod.snd

def insert (leaves : LeafMap) (key : Hash32) (value : Value) : LeafMap :=
  ⟨put Prod.fst key (some (key, value)) leaves.entries, leaves.sorted.put fun y hy => by cases hy; rfl⟩

end LeafMap

/-- the insertion loop of `projected_map` -/
def insertLeaves : List (Hash32 × Value) → LeafMap → Except AuthError LeafMap
  | [], map => .ok map
  | (key, value) :: leaves, map =>
    if (map.get key).isSome then .error .duplicateLeafKey else insertLeaves leaves (map.insert key value)

def projectedMap (leaves : List (Hash32 × Value)) : Except AuthError LeafMap :=
  if maxReferenceLeaves < leaves.length then .error .tooManyLeaves else insertLeaves leaves .empty

/-! ## Hashing -/

section Hash

variable (hash : Bytes → Hash32)

def hashBytes (domain : Domain) (bytes : Bytes) : Except AuthError Hash32 :=
  (commitment hash domain bytes).mapError .encode

/-- the bytes that `leaf_hash` commits to -/
def leafPayload (key : Hash32) (value : Value) : Except AuthError Bytes := do
  let bytes ← value.canonicalBytes.mapError AuthError.encode
  return key.bytes ++ (← (putBlob bytes).mapError AuthError.encode)

def leafHash (key : Hash32) (value : Value) : Except AuthError Hash32 := do
  hashBytes hash authLeaf (← leafPayload key value)

def nodeHash (left right : Hash32) : Except AuthError Hash32 := hashBytes hash authNode (left.bytes ++ right.bytes)

def keyBit (key : Hash32) (depth : ℕ) : UInt8 := byteAt key (depth / 8) >>> UInt8.ofNat (7 - depth % 8) &&& 1

/-- the last `n + 1` rows of `empty_hashes`, topmost first -/
def emptyHashesFrom : ℕ → Except AuthError (List Hash32)
  | 0 => do return [← hashBytes hash authEmpty (literal "leaf")]
  | n + 1 => do
    let hashes ← emptyHashesFrom n
    return (← nodeHash hash (hashes.headD .zero) (hashes.headD .zero)) :: hashes

def emptyHashes : Except AuthError (List Hash32) := emptyHashesFrom hash treeDepth

def hashedLeaves : List (Hash32 × Value) → Except AuthError (List (Hash32 × Hash32))
  | [] => .ok []
  | (key, value) :: leaves => do
    let leaf ← leafHash hash key value
    return (key, leaf) :: (← hashedLeaves leaves)

def subtreeHash (empties : List Hash32) : ℕ → ℕ → List (Hash32 × Hash32) → Except AuthError Hash32
  | _, depth, [] => .ok (empties.getD depth .zero)
  | 0, _, leaf :: leaves => if leaves.isEmpty then .ok leaf.2 else .error .duplicateLeafKey
  | room + 1, depth, leaves => do
    let split := partitionPoint leaves fun x => keyBit x.1 depth = 0
    let left ← subtreeHash empties room (depth + 1) (leaves.take split)
    let right ← subtreeHash empties room (depth + 1) (leaves.drop split)
    nodeHash hash left right

def proofSiblings (empties : List Hash32) (key : Hash32) :
    ℕ → ℕ → List (Hash32 × Hash32) → Except AuthError (List Hash32)
  | 0, _, _ => .ok []
  | room + 1, depth, leaves => do
    let split := partitionPoint leaves fun x => keyBit x.1 depth = 0
    let (left, right) := (leaves.take split, leaves.drop split)
    if keyBit key depth = 0 then
      let sibling ← subtreeHash hash empties room (depth + 1) right
      return sibling :: (← proofSiblings empties key room (depth + 1) left)
    else
      let sibling ← subtreeHash hash empties room (depth + 1) left
      return sibling :: (← proofSiblings empties key room (depth + 1) right)

/-! ## Proofs -/

/-- the payload of a proof at one root -/
inductive ProofLeaf where
  | membership (value : Value)
  | absence
deriving DecidableEq

/-- a fixed-depth membership or absence proof -/
structure SparseProof where
  profile : AuthenticatedProfile
  version : UInt64
  root : Hash32
  key : Hash32
  leaf : ProofLeaf
  siblings : List Hash32
deriving DecidableEq

/-- the expected context of a proof -/
structure SparseProofContext where
  profile : AuthenticatedProfile
  version : UInt64
  root : Hash32
  key : Hash32
deriving DecidableEq

/-- a proof verified against one context -/
structure ContextVerifiedSparseProof where
  context : SparseProofContext
  leaf : ProofLeaf
deriving DecidableEq

namespace SparseProof

/-- what the loop of `recompute_root` starts from -/
def startHash (proof : SparseProof) (empties : List Hash32) : Except AuthError Hash32 :=
  match proof.leaf with
  | .membership value => leafHash hash proof.key value
  | .absence => .ok (empties.getD treeDepth .zero)

/-- the loop of `recompute_root`, over the siblings from `depth` down -/
def climb (key : Hash32) : ℕ → List Hash32 → Hash32 → Except AuthError Hash32
  | _, [], current => .ok current
  | depth, sibling :: siblings, current => do
    let current ← climb key (depth + 1) siblings current
    if keyBit key depth = 0 then nodeHash hash current sibling else nodeHash hash sibling current

def recomputeRoot (proof : SparseProof) : Except AuthError Hash32 :=
  if proof.siblings.length ≠ treeDepth then .error .proofLength
  else do
    let empties ← emptyHashes hash
    let current ← proof.startHash hash empties
    climb hash proof.key 0 proof.siblings current

def verifyAgainst (proof : SparseProof) (expected : SparseProofContext) : Except AuthError ContextVerifiedSparseProof :=
  if proof.profile ≠ expected.profile then .error .proofProfileMismatch
  else if proof.version ≠ expected.version then .error .proofVersionMismatch
  else if proof.root ≠ expected.root then .error .proofRootMismatch
  else if proof.key ≠ expected.key then .error .proofKeyMismatch
  else do
    let root ← proof.recomputeRoot hash
    if root ≠ expected.root then .error .invalidProof else .ok ⟨expected, proof.leaf⟩

end SparseProof

/-! ## The tree -/

def leavesRoot (leaves : LeafMap) : Except AuthError Hash32 := do
  let hashed ← hashedLeaves hash leaves.entries
  let empties ← emptyHashes hash
  subtreeHash hash empties treeDepth 0 hashed

/-- the reference backend: a bounded leaf map with its root -/
structure ReferenceSparseTree where
  profile : AuthenticatedProfile
  version : UInt64
  root : Hash32
  leaves : LeafMap
  bounded : leaves.entries.length ≤ maxReferenceLeaves
  rooted : leavesRoot hash leaves = .ok root

namespace ReferenceSparseTree

def fromMap (profile : AuthenticatedProfile) (version : UInt64) (leaves : LeafMap) :
    Except AuthError (ReferenceSparseTree hash) :=
  if h : leaves.entries.length ≤ maxReferenceLeaves then
    match hroot : leavesRoot hash leaves with
    | .ok root => .ok ⟨profile, version, root, leaves, h, hroot⟩
    | .error error => .error error
  else .error .tooManyLeaves

/-- builds a tree from unordered leaves and rejects duplicates -/
def tryNew (profile : AuthenticatedProfile) (version : UInt64) (leaves : List (Hash32 × Value)) :
    Except AuthError (ReferenceSparseTree hash) := do
  fromMap hash profile version (← projectedMap leaves)

variable {hash}

def get (tree : ReferenceSparseTree hash) (key : Hash32) : Option Value := tree.leaves.get key

def prove (tree : ReferenceSparseTree hash) (key : Hash32) : Except AuthError SparseProof := do
  let hashed ← hashedLeaves hash tree.leaves.entries
  let empties ← emptyHashes hash
  let siblings ← proofSiblings hash empties key treeDepth 0 hashed
  return ⟨tree.profile, tree.version, tree.root, key, (tree.get key).elim .absence .membership, siblings⟩

/-- the context a reader of the tree expects -/
def context (tree : ReferenceSparseTree hash) (key : Hash32) : SparseProofContext :=
  ⟨tree.profile, tree.version, tree.root, key⟩

end ReferenceSparseTree

end Hash

end ZenoFcis.Authenticated
