/-
Authenticated updates (`zeno-fcis-authenticated`): the planner that pairs a semantic patch with a logical node batch, the
writer that publishes a plan, and the plan's canonical bytes with their strict decoder.

Model:
- the projector is a parameter: a declared identity and a function of the state;
- a cursor over the input is the decoder's `Cursor`; `AuthCursor` holds its steps with this crate's errors;
- a plan and its decoded form share their fields; only the plan holds the projected post-state.
-/
import ZenoFcis.Authenticated.Tree
import ZenoFcis.Codec.Envelope

namespace ZenoFcis.Authenticated

open Lib Patch

/-! ## Batches -/

/-- one logical leaf mutation -/
inductive LeafWrite where
  | put (key : Hash32) (value : Value)
  | delete (key : Hash32)
deriving DecidableEq

def LeafWrite.key : LeafWrite → Hash32
  | .put key _ => key
  | .delete key => key

/-- a canonically ordered batch -/
structure NodeBatch where
  writes : List LeafWrite
deriving DecidableEq

namespace NodeBatch

/-- the write of the first loop for a leaf held before -/
def replaced (after : LeafMap) (leaf : Hash32 × Value) : Option LeafWrite :=
  match after.get leaf.1 with
  | none => some (.delete leaf.1)
  | some new => if new ≠ leaf.2 then some (.put leaf.1 new) else none

/-- the write of the second loop for a leaf held after -/
def inserted (before : LeafMap) (leaf : Hash32 × Value) : Option LeafWrite :=
  if (before.get leaf.1).isSome then none else some (.put leaf.1 leaf.2)

def fromMaps (before after : LeafMap) : NodeBatch :=
  let writes := before.entries.filterMap (replaced after) ++ after.entries.filterMap (inserted before)
  ⟨writes.mergeSort fun left right => left.key ≤ right.key⟩

def encodeWrites : List LeafWrite → Except EncodeError Bytes
  | [] => .ok []
  | .put key value :: writes => do
    let blob ← putBlob (← value.canonicalBytes)
    return (0 :: key.bytes) ++ blob ++ (← encodeWrites writes)
  | .delete key :: writes => do return (1 :: key.bytes) ++ (← encodeWrites writes)

def canonicalBytes (batch : NodeBatch) : Except EncodeError Bytes := do
  return (← putLength batch.writes.length) ++ (← encodeWrites batch.writes)

end NodeBatch

/-! ## Plans -/

/-- an old logical node that may be pruned once the version has advanced -/
structure StaleNodeCandidate where
  staleSinceVersion : UInt64
  key : Hash32
  oldLeafHash : Hash32
deriving DecidableEq

/-- a decoded plan: inspectable transport data -/
structure DecodedAuthenticatedPlan where
  profile : AuthenticatedProfile
  expectedVersion : UInt64
  nextVersion : UInt64
  semanticPreRoot : Hash32
  semanticPostRoot : Hash32
  patchHash : Hash32
  authenticatedPreRoot : Hash32
  authenticatedPostRoot : Hash32
  nodeBatch : NodeBatch
  staleNodes : List StaleNodeCandidate
deriving DecidableEq

/-- a complete update plan bound to one semantic patch -/
structure PlannedAuthenticatedCommit extends DecodedAuthenticatedPlan where
  postLeaves : LeafMap
deriving DecidableEq

structure PlannedState where
  semanticPostState : Value
  authenticated : PlannedAuthenticatedCommit

/-- a project-supplied projection of states onto logical leaves -/
structure StateProjector where
  declaredProjectorHash : Hash32
  project : Value → Except AuthError (List (Hash32 × Value))

/-- `checked_add(1)` on a version -/
def successorVersion (version : UInt64) : Option UInt64 :=
  if version.toNat < u64Max then some (version + 1) else none

section Hash

variable (hash : Bytes → Hash32)

/-- the stale loop: the old leaf hashes of the written keys that were present -/
def staleNodesOf (before : LeafMap) (version : UInt64) : List LeafWrite → Except AuthError (List StaleNodeCandidate)
  | [] => .ok []
  | write :: writes =>
    match before.get write.key with
    | none => staleNodesOf before version writes
    | some old => do
      let oldLeafHash ← leafHash hash write.key old
      return ⟨version, write.key, oldLeafHash⟩ :: (← staleNodesOf before version writes)

def hashCanonical (domain : Domain) (value : Except EncodeError Bytes) : Except AuthError Hash32 := do
  hashBytes hash domain (← value.mapError AuthError.encode)

variable {hash}

def planAuthenticatedUpdate (preState : Value) (stateDomain : Domain) (patch : CanonicalPatch)
    (tree : ReferenceSparseTree hash) (projector : StateProjector) : Except AuthError PlannedState := do
  let before ← projectedMap (← projector.project preState)
  if before ≠ tree.leaves then .error .projectionMismatch
  else if patch.expectedPreRoot = .zero then .error .zeroSemanticRoot
  else
    let applied ← (patch.apply hash preState stateDomain).mapError AuthError.patch
    let after ← projectedMap (← projector.project applied.state)
    match successorVersion tree.version with
    | none => .error .versionOverflow
    | some nextVersion =>
      let rebuilt ← ReferenceSparseTree.fromMap hash tree.profile nextVersion after
      let nodeBatch := NodeBatch.fromMaps before after
      let staleNodes ← staleNodesOf hash before tree.version nodeBatch.writes
      let patchHash ← hashCanonical hash authPatch patch.canonicalBytes
      return {
        semanticPostState := applied.state
        authenticated := {
          profile := tree.profile
          expectedVersion := tree.version
          nextVersion
          semanticPreRoot := patch.expectedPreRoot
          semanticPostRoot := applied.postRoot
          patchHash
          authenticatedPreRoot := tree.root
          authenticatedPostRoot := rebuilt.root
          nodeBatch
          staleNodes
          postLeaves := after } }

/-- a planner with one mounted projector -/
structure AuthenticatedStatePlanner where
  profile : AuthenticatedProfile
  projector : StateProjector
  declared : projector.declaredProjectorHash = profile.projectorHash

namespace AuthenticatedStatePlanner

def tryNew (profile : AuthenticatedProfile) (projector : StateProjector) : Except AuthError AuthenticatedStatePlanner :=
  if h : projector.declaredProjectorHash = profile.projectorHash then .ok ⟨profile, projector, h⟩
  else .error .projectorMismatch

def plan (planner : AuthenticatedStatePlanner) (preState : Value) (stateDomain : Domain) (patch : CanonicalPatch)
    (tree : ReferenceSparseTree hash) : Except AuthError PlannedState :=
  if tree.profile ≠ planner.profile then .error .profileMismatch
  else if planner.projector.declaredProjectorHash ≠ planner.profile.projectorHash then .error .projectorMismatch
  else planAuthenticatedUpdate preState stateDomain patch tree planner.projector

end AuthenticatedStatePlanner

/-- what `apply_plan` returns, with the tree it leaves behind -/
def ReferenceSparseTree.applyPlan (tree : ReferenceSparseTree hash) (plan : PlannedAuthenticatedCommit) :
    Except AuthError Unit × ReferenceSparseTree hash :=
  if tree.profile ≠ plan.profile then (.error .profileMismatch, tree)
  else if tree.version ≠ plan.expectedVersion then (.error .versionConflict, tree)
  else if tree.root ≠ plan.authenticatedPreRoot then (.error .rootConflict, tree)
  else match fromMap hash plan.profile plan.nextVersion plan.postLeaves with
    | .error error => (.error error, tree)
    | .ok rebuilt => if rebuilt.root ≠ plan.authenticatedPostRoot then (.error .postRootMismatch, tree) else (.ok (),
      rebuilt)

end Hash

/-! ## Canonical bytes -/

def authenticatedPlanEncodingVersion : UInt16 := 2

def AuthenticatedProfile.canonicalBytes (profile : AuthenticatedProfile) : Bytes :=
  profile.treeId.bytes ++ profile.profileHash.bytes ++ profile.projectorHash.bytes

def StaleNodeCandidate.canonicalBytes (stale : StaleNodeCandidate) : Bytes :=
  beBytes 8 stale.staleSinceVersion.toNat ++ stale.key.bytes ++ stale.oldLeafHash.bytes

def DecodedAuthenticatedPlan.canonicalBytes (plan : DecodedAuthenticatedPlan) : Except EncodeError Bytes := do
  let batch ← putBlob (← plan.nodeBatch.canonicalBytes)
  let count ← putLength plan.staleNodes.length
  return beBytes 2 authenticatedPlanEncodingVersion.toNat ++ (plan.profile.canonicalBytes ++
    (beBytes 8 plan.expectedVersion.toNat ++ (beBytes 8 plan.nextVersion.toNat ++ (plan.semanticPreRoot.bytes ++
      (plan.semanticPostRoot.bytes ++ (plan.patchHash.bytes ++ (plan.authenticatedPreRoot.bytes ++
        (plan.authenticatedPostRoot.bytes ++ (batch ++ (count ++
          plan.staleNodes.flatMap StaleNodeCandidate.canonicalBytes))))))))))

/-! ## The strict decoder -/

/-- resource bounds of persisted plans -/
structure AuthenticatedDecodeLimits where
  maxInputBytes : UInt64
  maxWrites : UInt32
  maxStaleNodes : UInt32
  value : DecodeLimits
deriving DecidableEq

def AuthenticatedDecodeLimits.default : AuthenticatedDecodeLimits where
  maxInputBytes := 4 * 1024 * 1024
  maxWrites := UInt32.ofNat maxReferenceLeaves
  maxStaleNodes := UInt32.ofNat maxReferenceLeaves
  value := .default

inductive AuthDecodeError where
  | inputLimit (limit actual : ℕ)
  | writeLimit (limit actual : UInt32)
  | staleNodeLimit (limit actual : UInt32)
  | lengthOverflow
  | unexpectedEnd (offset requested : ℕ)
  | trailingBytes (offset : ℕ)
  | versionMismatch (expected actual : UInt16)
  | zeroProfileIdentity
  | nonSuccessorVersion
  | staleVersionMismatch
  | unknownWriteTag (tag : UInt8)
  | unknownProofLeafTag (tag : UInt8)
  | nonCanonicalWriteOrder
  | nonCanonicalStaleOrder
  | staleKeyNotWritten
  | proofLength (expected actual : UInt32)
  | value (error : DecodeError)
  | encode (error : EncodeError)
  | nonCanonical
deriving DecidableEq

namespace AuthCursor

def take (cursor : Cursor) (count : ℕ) : Except AuthDecodeError (Bytes × Cursor) := do
  let limit ← checkedAdd usizeMax cursor.offset count .lengthOverflow
  if h : limit ≤ cursor.bytes.length then
    return ((cursor.bytes.drop cursor.offset).take count, ⟨cursor.bytes, limit, h⟩)
  else .error (.unexpectedEnd cursor.offset count)

def takeU8 (cursor : Cursor) : Except AuthDecodeError (UInt8 × Cursor) := do
  let (bytes, cursor) ← take cursor 1
  return (bytes.headD 0, cursor)

def takeU16 (cursor : Cursor) : Except AuthDecodeError (UInt16 × Cursor) := do
  let (bytes, cursor) ← take cursor 2
  return (UInt16.ofNat (ofBeBytes bytes), cursor)

def takeU32 (cursor : Cursor) : Except AuthDecodeError (UInt32 × Cursor) := do
  let (bytes, cursor) ← take cursor 4
  return (UInt32.ofNat (ofBeBytes bytes), cursor)

def takeU64 (cursor : Cursor) : Except AuthDecodeError (UInt64 × Cursor) := do
  let (bytes, cursor) ← take cursor 8
  return (UInt64.ofNat (ofBeBytes bytes), cursor)

def takeHash32 (cursor : Cursor) : Except AuthDecodeError (Hash32 × Cursor) := do
  let (bytes, cursor) ← take cursor 32
  return (.ofSlice bytes, cursor)

def takeBlob (cursor : Cursor) : Except AuthDecodeError (Bytes × Cursor) := do
  let (length, cursor) ← takeU32 cursor
  take cursor length.toNat

end AuthCursor

def enforceAuthenticatedInputLimit (bytes : Bytes) (limits : AuthenticatedDecodeLimits) : Except AuthDecodeError Unit :=
  if u64Max < bytes.length then .error .lengthOverflow
  else if limits.maxInputBytes.toNat < bytes.length then .error (.inputLimit limits.maxInputBytes.toNat bytes.length)
  else .ok ()

/-- room to reserve for `count` items -/
def boundedCapacity (count : UInt32) (remaining minimum : ℕ) : Except AuthDecodeError ℕ :=
  if minimum = 0 then .error .lengthOverflow else .ok (min count.toNat (remaining / minimum))

def requireComplete (cursor : Cursor) : Except AuthDecodeError Unit :=
  if cursor.remaining = 0 then .ok () else .error (.trailingBytes cursor.offset)

def requireCanonical (bytes : Bytes) (value : Except EncodeError Bytes) : Except AuthDecodeError Unit := do
  let canonical ← value.mapError AuthDecodeError.encode
  if canonical = bytes then .ok () else .error .nonCanonical

def decodeProfile (cursor : Cursor) : Except AuthDecodeError (AuthenticatedProfile × Cursor) := do
  let (treeId, cursor) ← AuthCursor.takeHash32 cursor
  let (profileHash, cursor) ← AuthCursor.takeHash32 cursor
  let (projectorHash, cursor) ← AuthCursor.takeHash32 cursor
  let profile ← (AuthenticatedProfile.tryNew treeId profileHash projectorHash).mapError fun _ =>
    AuthDecodeError.zeroProfileIdentity
  return (profile, cursor)

def decodeAuthenticatedValue (bytes : Bytes) (limits : AuthenticatedDecodeLimits) : Except AuthDecodeError Value :=
  (decodeValue bytes limits.value).mapError .value

/-- the write loop of `decode_node_batch` -/
def decodeWrites (limits : AuthenticatedDecodeLimits) :
    ℕ → Option Hash32 → Cursor → Except AuthDecodeError (List LeafWrite × Cursor)
  | 0, _, cursor => .ok ([], cursor)
  | count + 1, previousKey, cursor => do
    let (tag, cursor) ← AuthCursor.takeU8 cursor
    let (key, cursor) ← AuthCursor.takeHash32 cursor
    if previousKey.any fun previous => key ≤ previous then .error .nonCanonicalWriteOrder
    else
      let (write, cursor) ← match tag with
        | 0 => do
          let (blob, cursor) ← AuthCursor.takeBlob cursor
          let value ← decodeAuthenticatedValue blob limits
          .ok (.put key value, cursor)
        | 1 => .ok (.delete key, cursor)
        | other => .error (.unknownWriteTag other)
      let (writes, cursor) ← decodeWrites limits count (some key) cursor
      return (write :: writes, cursor)

def decodeNodeBatch (bytes : Bytes) (limits : AuthenticatedDecodeLimits) : Except AuthDecodeError NodeBatch := do
  let (count, cursor) ← AuthCursor.takeU32 (.new bytes)
  if limits.maxWrites.toNat < count.toNat then .error (.writeLimit limits.maxWrites count)
  else
    let _ ← boundedCapacity count cursor.remaining 33
    let (writes, cursor) ← decodeWrites limits count.toNat none cursor
    requireComplete cursor
    requireCanonical bytes (NodeBatch.mk writes).canonicalBytes
    return ⟨writes⟩

/-- the stale loop of `decode_authenticated_plan` -/
def decodeStaleNodes (expectedVersion : UInt64) (batch : NodeBatch) :
    ℕ → Option Hash32 → Cursor → Except AuthDecodeError (List StaleNodeCandidate × Cursor)
  | 0, _, cursor => .ok ([], cursor)
  | count + 1, previousKey, cursor => do
    let (version, cursor) ← AuthCursor.takeU64 cursor
    if version ≠ expectedVersion then .error .staleVersionMismatch
    else
      let (key, cursor) ← AuthCursor.takeHash32 cursor
      if previousKey.any fun previous => key ≤ previous then .error .nonCanonicalStaleOrder
      else
        match binarySearch LeafWrite.key key batch.writes with
        | .error _ => .error .staleKeyNotWritten
        | .ok _ =>
          let (oldLeafHash, cursor) ← AuthCursor.takeHash32 cursor
          let (staleNodes, cursor) ← decodeStaleNodes expectedVersion batch count (some key) cursor
          return (⟨version, key, oldLeafHash⟩ :: staleNodes, cursor)

def decodeAuthenticatedPlan (bytes : Bytes) (limits : AuthenticatedDecodeLimits) :
    Except AuthDecodeError DecodedAuthenticatedPlan := do
  enforceAuthenticatedInputLimit bytes limits
  let (format, cursor) ← AuthCursor.takeU16 (.new bytes)
  if format ≠ authenticatedPlanEncodingVersion then
    .error (.versionMismatch authenticatedPlanEncodingVersion format)
  else
    let (profile, cursor) ← decodeProfile cursor
    let (expectedVersion, cursor) ← AuthCursor.takeU64 cursor
    let (nextVersion, cursor) ← AuthCursor.takeU64 cursor
    if successorVersion expectedVersion ≠ some nextVersion then .error .nonSuccessorVersion
    else
      let (semanticPreRoot, cursor) ← AuthCursor.takeHash32 cursor
      let (semanticPostRoot, cursor) ← AuthCursor.takeHash32 cursor
      let (patchHash, cursor) ← AuthCursor.takeHash32 cursor
      let (authenticatedPreRoot, cursor) ← AuthCursor.takeHash32 cursor
      let (authenticatedPostRoot, cursor) ← AuthCursor.takeHash32 cursor
      let (blob, cursor) ← AuthCursor.takeBlob cursor
      let nodeBatch ← decodeNodeBatch blob limits
      let (staleCount, cursor) ← AuthCursor.takeU32 cursor
      if limits.maxStaleNodes.toNat < staleCount.toNat then .error (.staleNodeLimit limits.maxStaleNodes staleCount)
      else
        let _ ← boundedCapacity staleCount cursor.remaining 72
        let (staleNodes, cursor) ← decodeStaleNodes expectedVersion nodeBatch staleCount.toNat none cursor
        requireComplete cursor
        let decoded : DecodedAuthenticatedPlan := ⟨profile, expectedVersion, nextVersion, semanticPreRoot,
          semanticPostRoot, patchHash, authenticatedPreRoot, authenticatedPostRoot, nodeBatch, staleNodes⟩
        requireCanonical bytes decoded.canonicalBytes
        return decoded

end ZenoFcis.Authenticated
