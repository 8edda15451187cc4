/-
The executable reference shell (`zeno-fcis-shell`): one state in which the semantic state, its root, the replay records,
the receipts, the bundles and the outbox change together, with the two transitions that change it.
-/
import ZenoFcis.Effects.Port
import ZenoFcis.Receipt.Bundle

namespace ZenoFcis

open Lib
open Effects (CommitStatus)

/-- the binding of a replay identity to a candidate -/
structure ReplayRecord where
  replayId : Hash32
  candidateId : CandidateId
deriving DecidableEq

/-- one committed delivery -/
structure OutboxRecord where
  candidateId : CandidateId
  ordinal : UInt32
  deliveryId : Hash32
  entryHash : Hash32
  entry : OutboxEntry
  acknowledged : Bool
deriving DecidableEq

/-- the order of the outbox -/
def OutboxRecord.place (record : OutboxRecord) : CandidateId ×ₗ UInt32 := toLex (record.candidateId, record.ordinal)

/-- the authoritative shell state -/
structure ShellState where
  state : Value
  root : Hash32
  replay : List ReplayRecord
  receipts : List (CandidateId × Receipt)
  bundles : List (CandidateId × CommitBundle)
  outbox : List OutboxRecord
deriving DecidableEq

inductive ShellError where
  | state (error : PatchError)
  | bundle (error : SealError)
  | encode (error : EncodeError)
  | rootConflict (expected actual : Hash32)
  | replayConflict (replayId : Hash32) (existing attempted : CandidateId)
  | candidateAlreadyCommitted
  | idempotentBundleMismatch
  | duplicateOutboxRecord
  | corruptReferenceState
  | unknownDelivery (deliveryId : Hash32)
  | acknowledgementMismatch (deliveryId expected observed : Hash32)
deriving DecidableEq

structure CommitResult where
  state : ShellState
  status : CommitStatus
deriving DecidableEq

variable (hash : Bytes → Hash32) (stateDomain : Domain)

/-- an empty shell with the derived root -/
def ShellState.new (state : Value) : Except ShellError ShellState := do
  let root ← (hashValue hash stateDomain state).mapError ShellError.state
  return ⟨state, root, [], [], [], []⟩

def hashOutboxEntry (entry : OutboxEntry) : Except ShellError Hash32 := do
  let bytes ← entry.canonicalBytes.mapError ShellError.encode
  (commitment hash (.fixed "zeno-fcis/outbox-entry") bytes).mapError .encode

def outboxRecord (candidateId : CandidateId) (entry : OutboxEntry) : Except ShellError OutboxRecord := do
  let deliveryId ← (entry.deliveryId hash candidateId.hash).mapError ShellError.encode
  let entryHash ← hashOutboxEntry hash entry
  return ⟨candidateId, entry.ordinal, deliveryId, entryHash, entry, false⟩

/-- the outbox loop of a commit -/
def insertOutbox (candidateId : CandidateId) : List OutboxEntry → List OutboxRecord → Except ShellError (List OutboxRecord)
  | [], outbox => .ok outbox
  | entry :: entries, outbox => do
    let record ← outboxRecord hash candidateId entry
    match binarySearch OutboxRecord.place record.place outbox with
    | .ok _ => .error .duplicateOutboxRecord
    | .error index => insertOutbox candidateId entries (outbox.insertIdx index record)

/-- the part of a commit after the replay lookup found nothing -/
def commitBundle (shell : ShellState) (replayId : Hash32) (bundle : CommitBundle) : Except ShellError CommitResult :=
  if shell.root ≠ bundle.body.preRoot then .error (.rootConflict bundle.body.preRoot shell.root)
  else do
    let applied ← (bundle.validateAndApply hash shell.state stateDomain).mapError ShellError.bundle
    match binarySearch Prod.fst bundle.candidateId shell.bundles with
    | .ok _ => .error .candidateAlreadyCommitted
    | .error bundleIndex =>
      match binarySearch Prod.fst bundle.candidateId shell.receipts with
      | .ok _ => .error .candidateAlreadyCommitted
      | .error receiptIndex =>
        match binarySearch ReplayRecord.replayId replayId shell.replay with
        | .ok _ => .error .corruptReferenceState
        | .error replayIndex => do
          let outbox ← insertOutbox hash bundle.candidateId bundle.outboxPlan.entries shell.outbox
          return ⟨{ state := applied.state
                    root := applied.postRoot
                    replay := shell.replay.insertIdx replayIndex ⟨replayId, bundle.candidateId⟩
                    receipts := shell.receipts.insertIdx receiptIndex (bundle.candidateId, bundle.receipt)
                    bundles := shell.bundles.insertIdx bundleIndex (bundle.candidateId, bundle)
                    outbox }, .committed⟩

/-- applies one structurally valid bundle -/
def applyReferenceBundle (shell : ShellState) (replayId : Hash32) (bundle : CommitBundle) :
    Except ShellError CommitResult :=
  match binarySearch ReplayRecord.replayId replayId shell.replay with
  | .ok index =>
    let existing := shell.replay[index]
    if existing.candidateId ≠ bundle.candidateId then
      .error (.replayConflict replayId existing.candidateId bundle.candidateId)
    else
      match binarySearch Prod.fst existing.candidateId shell.bundles with
      | .error _ => .error .corruptReferenceState
      | .ok bundleIndex =>
        if shell.bundles[bundleIndex].2 ≠ bundle then .error .idempotentBundleMismatch
        else .ok ⟨shell, .idempotentReplay⟩
  | .error _ => commitBundle hash stateDomain shell replayId bundle

/-- records an idempotent destination acknowledgement -/
def acknowledge (shell : ShellState) (deliveryId observedEntryHash : Hash32) : Except ShellError ShellState :=
  match h : shell.outbox.findIdx? fun record => record.deliveryId = deliveryId with
  | none => .error (.unknownDelivery deliveryId)
  | some index =>
    have hlt : index < shell.outbox.length := (List.findIdx?_eq_some_iff_getElem.1 h).1
    let current := shell.outbox[index]
    if current.entryHash ≠ observedEntryHash then
      .error (.acknowledgementMismatch deliveryId current.entryHash observedEntryHash)
    else if current.acknowledged then .ok shell
    else .ok { shell with outbox := shell.outbox.set index { current with acknowledged := true } }

end ZenoFcis
