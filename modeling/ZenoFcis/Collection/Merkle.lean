/-
`collection_merkle`: commitments of keyed collections and their path updates (`zeno-fcis-codec`).

Model:
- the hash is a parameter, an arbitrary function of the parts hashed;
- a key is a `[u8; 32]`; `bit` is total and is read only below `keyBits`, where the source's index is in range;
- `rebuildRoom` is `rebuild` with the bits left as its first argument; running out of bits with two leaves to split is
  the source's index panic, and is `none`.
-/
import ZenoFcis.Codec.Decode

namespace ZenoFcis.CollectionMerkle

/-- an opaque collection key: 32 bytes -/
abbrev Key := Hash32

/-- a commitment: 32 bytes -/
abbrev Digest := Hash32

def keyBits : ℕ := 256

/-! ## Bytes and bits -/

/-- byte `i` of a 32-byte array -/
def byteAt (key : Key) (i : ℕ) : UInt8 := key.bytes.getD i 0

/-- the 32-byte array with byte `f i` at `i` -/
def tabulate (f : ℕ → UInt8) : Key := ⟨(List.range 32).map f, by simp⟩

def bit (key : Key) (depth : ℕ) : UInt8 := byteAt key (depth / 8) >>> UInt8.ofNat (7 - depth % 8) &&& 1

/-- `prefix`: the first `depth` key bits followed by zeros; depths above 256 clamp to 256 -/
def keyPrefix (key : Key) (depth : ℕ) : Key :=
  let depth := min depth keyBits
  let whole := depth / 8
  let remainder := depth % 8
  tabulate fun i =>
    if i < whole then byteAt key i
    else if i = whole ∧ remainder ≠ 0 then byteAt key i &&& 0xff <<< UInt8.ofNat (8 - remainder)
    else 0

/-- prefix of the other child at `depth`; refuses a depth outside the key -/
def siblingPrefix (key : Key) (depth : ℕ) : Option Key :=
  if depth ≥ keyBits then none
  else
    let other := keyPrefix key (depth + 1)
    some (tabulate fun i =>
      if i = depth / 8 then byteAt other i ^^^ 1 <<< UInt8.ofNat (7 - depth % 8) else byteAt other i)

/-- equal leading bits, from 0 through 256 -/
def sharedBits (a b : Key) : ℕ := ((List.range keyBits).takeWhile fun i => bit a i == bit b i).length

/-- path length from the indexed predecessor and successor, or from all other keys -/
def sharedPathLength (key : Key) (neighbours : List Key) : ℕ :=
  (((neighbours.filter (· ≠ key)).map fun other => sharedBits key other + 1).max?).getD 0

/-- the order of keys: lexicographic in their bytes -/
def before (a b : Key) : Bool := bytesBefore a.bytes b.bytes

/-! ## Commitments -/

/-- the only cardinality distinction needed to collapse a subtree -/
inductive Subtree where
  | empty
  | leaf (hash : Digest)
  | branch (hash : Digest)
deriving DecidableEq

/-- one node row to upsert, or to remove when its subtree has fewer than two entries -/
structure NodeWrite where
  depth : ℕ
  keyPrefix : Key
  hash : Option Digest
deriving DecidableEq

structure PathUpdate where
  leaf : Option Digest
  root : Digest
  nodes : List NodeWrite
deriving DecidableEq

/-- an ASCII literal -/
def ascii (text : String) : Bytes := text.toList.map fun c => UInt8.ofNat c.toNat

section Hash

variable (hash : List Bytes → Digest)

def emptyHash : Digest := hash [ascii "ZFCIS-MAP-EMPTY" ++ [0]]

def leafHash (key : Key) (record : Bytes) : Digest :=
  hash [ascii "ZFCIS-MAP-LEAF" ++ [0], key.bytes, (hash [record]).bytes]

def nodeHash (left right : Digest) : Digest := hash [ascii "ZFCIS-MAP-NODE" ++ [0], left.bytes, right.bytes]

def Subtree.digest : Subtree → Digest
  | .empty => emptyHash hash
  | .leaf h | .branch h => h

def combine : Subtree → Subtree → Subtree
  | .empty, .empty => .empty
  | .empty, .leaf h | .leaf h, .empty => .leaf h
  | left, right => .branch (nodeHash hash (left.digest hash) (right.digest hash))

/-- the branch hash of a subtree that stores a row -/
def Subtree.row : Subtree → Option Digest
  | .branch h => some h
  | _ => none

/-- the changed subtree at the end of the path: the new leaf, or nothing -/
def Subtree.ofLeaf : Option Digest → Subtree
  | some h => .leaf h
  | none => .empty

/-- one round of the loop of `update_path`, at `depth` with sibling `other` -/
def updateStep (key : Key) (other : Subtree) (depth : ℕ) (child : Subtree) (nodes : List NodeWrite) :
    Subtree × List NodeWrite :=
  let child := if bit key depth = 0 then combine hash child other else combine hash other child
  (child, nodes ++ [⟨depth, keyPrefix key depth, child.row⟩])

/-- updates one key from root-to-leaf sibling summaries; the loop runs from the deepest sibling up -/
def updatePath (key : Key) (record : Option Bytes) (siblings : List Subtree) : Option PathUpdate :=
  if siblings.length > keyBits then none
  else
    let leaf := record.map (leafHash hash key)
    let (child, nodes) := siblings.zipIdx.foldr
      (fun (other, depth) (child, nodes) => updateStep hash key other depth child nodes) (.ofLeaf leaf, [])
    some ⟨leaf, child.digest hash, nodes⟩

/-- drops the elements that follow one of key `key` with the same key -/
def dedupAfter : Key → List (Key × Digest) → List (Key × Digest)
  | _, [] => []
  | key, x :: leaves => if x.1 = key then dedupAfter key leaves else x :: dedupAfter x.1 leaves

/-- `dedup_by_key`: of consecutive elements with one key, the first -/
def dedupByKey : List (Key × Digest) → List (Key × Digest)
  | [] => []
  | x :: leaves => x :: dedupAfter x.1 leaves

/-- `partition_point`, on a slice where `pred` holds of a front part and of nothing after it -/
def partitionPoint (leaves : List (Key × Digest)) (pred : Key × Digest → Bool) : ℕ := (leaves.takeWhile pred).length

def rebuildRoom : ℕ → ℕ → List (Key × Digest) → Option Digest
  | _, _, [] => some (emptyHash hash)
  | _, _, [(_, leaf)] => some leaf
  | 0, _, _ => none
  | room + 1, depth, leaves => do
    let split := partitionPoint leaves fun x => bit x.1 depth = 0
    return nodeHash hash (← rebuildRoom room (depth + 1) (leaves.take split))
      (← rebuildRoom room (depth + 1) (leaves.drop split))

def rebuild (leaves : List (Key × Digest)) (depth : ℕ) : Option Digest :=
  rebuildRoom hash (keyBits - depth) depth leaves

/-- reference rebuild from all entries; duplicate keys retain their first record -/
def rebuildRoot (entries : List (Key × Bytes)) : Option Digest :=
  let leaves := entries.map fun x => (x.1, leafHash hash x.1 x.2)
  rebuild hash (dedupByKey (leaves.mergeSort fun x y => !before y.1 x.1)) 0

end Hash

end ZenoFcis.CollectionMerkle
