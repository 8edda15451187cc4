/-
The `shell-effects/1` registry (`effects/registry.rs`): every port's signature as data, its complete check, and the
check of one port value against its schema (`Val` is `effects/port.rs`).
-/
import ZenoFcis.Effects.Program
import ZenoFcis.Lib.Except

namespace ZenoFcis.Effects

open Lib.Except

/-! ## Port values -/

/-- a port value viewed against its registry schema -/
inductive Val where
  | unit
  | store (store : Store)
  | hash (hash : Hash32)
  | bytes (bytes : Bytes)
  | int (number : ℕ)
  | record (fields : List Val)
  | choice (index : ℕ) (payload : Val)
  | list (items : List Val)

def publicationValue (publication : PublicationData) : Val :=
  .record [.bytes publication.prestate, .bytes publication.command, .bytes publication.context,
    .bytes publication.identity, .bytes publication.subject]

def modeValue : CommitMode → Val
  | .unversioned => .choice 0 .unit
  | .at version => .choice 1 (.int version)
  | .boundedAt version cap => .choice 2 (.record [.int version, .int cap])

def snapshotValue (snapshot : Snapshot) : Val :=
  .record [.int snapshot.version, .bytes snapshot.identity, .bytes snapshot.state, .hash snapshot.root,
    .hash snapshot.chain]

def deliveryValue (delivery : Delivery) : Val :=
  .record [.hash delivery.id, .int delivery.version, .int delivery.lane.toNat, .int delivery.ordinal.toNat,
    .bytes delivery.destination, .bytes delivery.payload, .hash delivery.payloadSha256]

def tickValue (tick : EpochTick) : Val := .record [.int tick.epoch, .int tick.tick]

def entryValue (entry : HistoryEntry) : Val :=
  .record [.hash entry.key, .int entry.version, publicationValue entry.publication]

def CommitStatus.index : CommitStatus → ℕ
  | .committed => 0
  | .idempotentReplay => 1

/-- the argument record, for the registry's type check -/
def Operation.value : Operation → Val
  | .readState store | .readHistory store | .readOutbox store | .reopen store => .record [.store store]
  | .commit store key publication mode => .record [.store store, .hash key, publicationValue publication,
    modeValue mode]
  | .send store delivery => .record [.store store, deliveryValue delivery]
  | .acknowledge store id payloadSha256 => .record [.store store, .hash id, .hash payloadSha256]
  | .clock => .record []
  | .random .retryJitter bound => .record [.choice 0 .unit, .int bound]
  | .wait deadline => .record [tickValue deadline]

/-- the success payload, for the registry's type check; none for a refusal, fault or failed send -/
def Response.value : Response → Option Val
  | .readState (.ok snapshot) | .reopen (.ok snapshot) => some (snapshotValue snapshot)
  | .commit (.ok receipt) => some (.record [.int receipt.version, .hash receipt.chain,
    .choice receipt.status.index .unit])
  | .readHistory (.ok history) => some (.record [snapshotValue history.head, .list (history.commits.map entryValue)])
  | .readOutbox (.ok deliveries) => some (.list (deliveries.map deliveryValue))
  | .send (.sent report) => some (.record [.hash report.deliveryId, .hash report.payloadSha256])
  | .acknowledge (.ok ()) => some .unit
  | .clock (.ok tick) | .wait (.ok tick) => some (tickValue tick)
  | .random (.ok draw) => some (.int draw)
  | _ => none

/-! ## Schemas -/

/-- largest byte cap a field may declare -/
def maxFieldBytes : ℕ := 2 ^ 20

/-- largest item count a list may declare -/
def maxFieldItems : ℕ := 2 ^ 20

def maxSchemaDepth : ℕ := 8

mutual

/-- a schema node; integer ranges and byte caps are inclusive -/
inductive Kind where
  | unit
  | store
  | hash
  | bytes (cap : ℕ)
  | int (min max : ℕ)
  | record (fields : List SchemaField)
  | choice (fields : List SchemaField)
  | list (item : Kind) (cap : ℕ)

/-- a named schema node -/
inductive SchemaField where
  | mk (name : String) (kind : Kind)

end

def SchemaField.name : SchemaField → String
  | mk name _ => name

def SchemaField.kind : SchemaField → Kind
  | mk _ kind => kind

/-- how a port answers -/
inductive Answer where
  | outcome (kind : Kind)
  | transport (kind : Kind)
  | fallible (kind : Kind)
  | wait (kind : Kind)

/-- the success payload's schema -/
def Answer.payload : Answer → Kind
  | outcome kind | transport kind | fallible kind | wait kind => kind

/-! ## Resources -/

/-- a set of logical resources a port may read or write -/
abbrev Resources := UInt8

namespace Resources

def nothing : Resources := 0
def durable : Resources := 1
def volatile : Resources := 2
def transport : Resources := 4
def clock : Resources := 8
def jitter : Resources := 16
def known : Resources := 31

/-- whether every member of `set` is in `other` -/
def within (set other : Resources) : Bool := set &&& ~~~other == 0

end Resources

/-- what a port may touch -/
structure Footprint where
  reads : Resources
  writes : Resources

/-- the largest footprint the capability allows -/
def Capability.allows : Capability → Footprint
  | .readStore => ⟨Resources.durable ||| Resources.volatile, Resources.volatile⟩
  | .writeStore | .relay => ⟨Resources.durable ||| Resources.volatile, Resources.durable ||| Resources.volatile⟩
  | .openStore => ⟨Resources.durable, Resources.volatile⟩
  | .transport => ⟨Resources.transport, Resources.transport⟩
  | .clock => ⟨Resources.clock, Resources.nothing⟩
  | .jitter => ⟨Resources.jitter, Resources.jitter⟩

/-- the default V2 API a port maps to -/
inductive V2 where
  | api (calls : List String)
  | external (name : String)
  | optIn

/-- one port's declared signature -/
structure Signature where
  port : Port
  arguments : Kind
  answer : Answer
  capability : Capability
  footprint : Footprint
  laws : List ℕ
  v2 : V2

/-- one handler law -/
structure Law where
  id : ℕ
  name : String
  statement : String

/-- a complete registry -/
structure Registry where
  schema : String
  signatures : List Signature
  laws : List Law

/-! ## The shipped registry -/

def registrySchema : String := "zeno-fcis/shell-effects/1"

namespace Schema

def i64Max : ℕ := 2 ^ 63 - 1

def envelope : Kind := .bytes maxFieldBytes
def version : Kind := .int 0 i64Max
def any : Kind := .int 0 u64Max
def store : List SchemaField := [.mk "store" .store]

def publication : List SchemaField :=
  [.mk "prestate" envelope, .mk "command" envelope, .mk "context" envelope, .mk "identity" envelope,
    .mk "subject" envelope]

def bounded : List SchemaField := [.mk "version" version, .mk "cap" any]

def mode : List SchemaField := [.mk "unversioned" .unit, .mk "at" version, .mk "bounded_at" (.record bounded)]

def commit : List SchemaField :=
  [.mk "store" .store, .mk "key" .hash, .mk "publication" (.record publication), .mk "mode" (.choice mode)]

def snapshot : List SchemaField :=
  [.mk "version" version, .mk "identity" envelope, .mk "state" envelope, .mk "root" .hash, .mk "chain" .hash]

def status : List SchemaField := [.mk "committed" .unit, .mk "replay" .unit]

def receipt : List SchemaField := [.mk "version" version, .mk "chain" .hash, .mk "status" (.choice status)]

def entry : List SchemaField :=
  [.mk "key" .hash, .mk "version" (.int 1 i64Max), .mk "publication" (.record publication)]

def history : List SchemaField :=
  [.mk "head" (.record snapshot), .mk "commits" (.list (.record entry) maxFieldItems)]

def delivery : List SchemaField :=
  [.mk "id" .hash, .mk "version" (.int 1 i64Max), .mk "lane" (.int 0 1), .mk "ordinal" (.int 0 u32Max),
    .mk "destination" envelope, .mk "payload" envelope, .mk "payload_sha256" .hash]

def send : List SchemaField := [.mk "store" .store, .mk "delivery" (.record delivery)]

def report : List SchemaField := [.mk "delivery_id" .hash, .mk "payload_sha256" .hash]

def acknowledge : List SchemaField := [.mk "store" .store, .mk "delivery_id" .hash, .mk "payload_sha256" .hash]

def tick : List SchemaField := [.mk "epoch" any, .mk "tick" any]

def purpose : List SchemaField := [.mk "retry_jitter" .unit]

def random : List SchemaField := [.mk "purpose" (.choice purpose), .mk "bound" (.int 1 u64Max)]

def wait : List SchemaField := [.mk "deadline" (.record tick)]

def read : Footprint := ⟨Resources.durable ||| Resources.volatile, Resources.volatile⟩
def write : Footprint := ⟨Resources.durable ||| Resources.volatile, Resources.durable ||| Resources.volatile⟩
def sendOnly : Footprint := ⟨Resources.transport, Resources.transport⟩
def «open» : Footprint := ⟨Resources.durable, Resources.volatile⟩
def time : Footprint := ⟨Resources.clock, Resources.nothing⟩
def draw : Footprint := ⟨Resources.jitter, Resources.jitter⟩

/-- the signatures, in tag order -/
def signatures : List Signature :=
  [⟨.readState, .record store, .outcome (.record snapshot), .readStore, read, [3], .api ["V2SqliteShell::snapshot"]⟩,
    ⟨.commit, .record commit, .outcome (.record receipt), .writeStore, write, [1, 2],
      .api ["V2SqliteShell::commit", "V2SqliteShell::commit_at", "V2SqliteShell::commit_bounded_at"]⟩,
    ⟨.readHistory, .record store, .outcome (.record history), .readStore, read, [4],
      .api ["Lineage::audit_history_read_only"]⟩,
    ⟨.readOutbox, .record store, .outcome (.list (.record delivery) maxFieldItems), .readStore, read, [4],
      .api ["V2SqliteShell::export_pending"]⟩,
    ⟨.send, .record send, .transport (.record report), .transport, sendOnly, [5], .external "relay::export_line"⟩,
    ⟨.acknowledge, .record acknowledge, .outcome .unit, .relay, write, [6],
      .api ["V2SqliteShell::pending_by_id", "Pending::relayed", "Delivered::acknowledge"]⟩,
    ⟨.reopen, .record store, .outcome (.record snapshot), .openStore, «open», [7],
      .api ["V2SqliteShell::open", "V2SqliteShell::audit"]⟩,
    ⟨.clock, .record [], .fallible (.record tick), .clock, time, [8], .optIn⟩,
    ⟨.random, .record random, .fallible (.int 0 (u64Max - 1)), .jitter, draw, [9], .optIn⟩,
    ⟨.wait, .record wait, .wait (.record tick), .clock, time, [8], .optIn⟩]

/-- the handler laws, by ascending ID -/
def laws : List Law :=
  [⟨1, "commit-once", "Commit(k,p); Commit(k,p) applies once and the second answers Replay with the original receipt; " ++
      "changed bytes under k refuse with D unchanged"⟩,
    ⟨2, "commit-atomic", "a success changes state, sequence, root, chain, replay record and every required outbox row " ++
      "together; after a crash D is the pre-state or the complete post-state; NotApplied and Refused leave D unchanged"⟩,
    ⟨3, "read-state", "one consistent snapshot; after a successful commit it sees the post-state or a validated " ++
      "descendant; a failure is never an empty state"⟩,
    ⟨4, "read-exact", "consistent and exact; repeated reads with no write between agree; reads consume nothing; " ++
      "history proves nothing about later commits"⟩,
    ⟨5, "send-exact", "sender D is unchanged and copies are exact; a report proves neither receipt nor " ++
      "authentication; duplicates may duplicate external effects"⟩,
    ⟨6, "acknowledge-exact", "a matching (id, hash) sets only that record's bit, atomically and monotonically; a " ++
      "wrong ID or hash refuses; repeating gives AlreadyAcknowledged"⟩,
    ⟨7, "reopen-audits", "recovers and audits D and drops V, or refuses; never resets, silently repairs or " ++
      "substitutes a store"⟩,
    ⟨8, "time-monotone", "ticks are monotonic within an epoch; Wait returns a tick at or after its deadline or an " ++
      "explicit interruption; neither changes D"⟩,
    ⟨9, "jitter-in-range", "a draw is below its bound; identical generator state gives an identical draw in " ++
      "simulation; no independence or cryptographic claim"⟩]

end Schema

/-- the registry this library ships -/
def registry : Registry := ⟨registrySchema, Schema.signatures, Schema.laws⟩

/-! ## The check of a registry -/

/-- why a registry is refused -/
inductive RegistryError where
  | schema
  | missing (port : Port)
  | order (port : Port)
  | malformed (port : Port) (what : String)
  | footprint (port : Port)
  | law (port : Port)
  | unusedLaw (id : ℕ)
  | unmapped (port : Port)
deriving DecidableEq

/-- a name of lowercase ASCII letters, digits and `_` -/
def isFieldName (name : String) : Bool :=
  !name.isEmpty && name.toList.all fun c => c.isLower || c.isDigit || c == '_'

mutual

def checkKind (port : Port) : Kind → ℕ → Except RegistryError Unit
  | kind, depth =>
    if depth > maxSchemaDepth then .error (.malformed port "depth")
    else
      match kind with
      | .unit | .store | .hash => .ok ()
      | .bytes cap => if 0 < cap ∧ cap ≤ maxFieldBytes then .ok () else .error (.malformed port "byte cap")
      | .int min max => if min ≤ max then .ok () else .error (.malformed port "range")
      | .list item cap =>
        if 0 < cap ∧ cap ≤ maxFieldItems then checkKind port item (depth + 1) else .error (.malformed port "item cap")
      | .choice [] => .error (.malformed port "empty choice")
      | .record fields | .choice fields => checkFields port [] fields depth

/-- the fields of a record or choice, after fields named `earlier` -/
def checkFields (port : Port) (earlier : List String) : List SchemaField → ℕ → Except RegistryError Unit
  | [], _ => .ok ()
  | .mk name kind :: fields, depth =>
    if !isFieldName name || earlier.contains name then .error (.malformed port "name")
    else do
      checkKind port kind (depth + 1)
      checkFields port (earlier ++ [name]) fields depth

end

def isRecord : Kind → Bool
  | .record _ => true
  | _ => false

/-- whether the law IDs are known and pairwise different -/
def checkLaws (registry : Registry) (signature : Signature) : Bool :=
  signature.laws.Nodup && signature.laws.all fun id => registry.laws.any fun law => law.id == id

def checkV2 (signature : Signature) : Bool :=
  let store := match signature.capability with
    | .transport | .clock | .jitter => false
    | _ => true
  match signature.v2 with
  | .api calls => !calls.isEmpty && calls.all fun call => !call.isEmpty
  | .external name => !store && !name.isEmpty
  | .optIn => !store

def checkSignature (registry : Registry) (signature : Signature) : Except RegistryError Unit := do
  let port := signature.port
  ensure (isRecord signature.arguments = true) (RegistryError.malformed port "arguments")
  checkKind port signature.arguments 0
  checkKind port signature.answer.payload 0
  let footprint := signature.footprint
  let allowed := signature.capability.allows
  ensure (footprint.reads &&& ~~~Resources.known = 0 ∧ footprint.writes &&& ~~~Resources.known = 0 ∧
    Resources.within footprint.reads allowed.reads = true ∧
    Resources.within footprint.writes allowed.writes = true) (RegistryError.footprint port)
  ensure (signature.laws ≠ [] ∧ checkLaws registry signature = true) (RegistryError.law port)
  ensure (checkV2 signature = true) (RegistryError.unmapped port)

/-- one signature per port, in tag order -/
def checkSignatures (registry : Registry) : List Port → List Signature → Except RegistryError Unit
  | [], [] => .ok ()
  | [], extra :: _ => .error (.order extra.port)
  | port :: _, [] => .error (.missing port)
  | port :: ports, signature :: signatures =>
    if signature.port ≠ port then
      .error (if signature.port.tag < port.tag then .order signature.port else .missing port)
    else do
      checkSignature registry signature
      checkSignatures registry ports signatures

/-- the laws from `previous` on: strictly ascending, with texts, each named by a signature -/
def checkLawTable (registry : Registry) : Option ℕ → List Law → Except RegistryError Unit
  | _, [] => .ok ()
  | previous, law :: laws =>
    if previous.any (law.id ≤ ·) || law.name.isEmpty || law.statement.isEmpty ||
        !registry.signatures.any (fun signature => signature.laws.contains law.id) then
      .error (.unusedLaw law.id)
    else checkLawTable registry (some law.id) laws

/-- checks a registry completely -/
def Registry.check (registry : Registry) : Except RegistryError Unit := do
  ensure (registry.schema = registrySchema) RegistryError.schema
  checkSignatures registry Port.all registry.signatures
  checkLawTable registry none registry.laws

def Registry.signature (registry : Registry) (port : Port) : Option Signature :=
  registry.signatures.find? fun signature => signature.port == port

/-! ## The check of a value -/

/-- why a port value does not conform to its schema -/
inductive TypeError where
  | shape (name : String)
  | tooLong (name : String)
  | range (name : String)
deriving DecidableEq

mutual

/-- checks one value against a schema node; `name` labels the node -/
def conforms : Kind → Val → String → Except TypeError Unit
  | .unit, .unit, _ | .store, .store _, _ | .hash, .hash _, _ => .ok ()
  | .bytes cap, .bytes bytes, name => if bytes.length ≤ cap then .ok () else .error (.tooLong name)
  | .int min max, .int number, name => if min ≤ number ∧ number ≤ max then .ok () else .error (.range name)
  | .record fields, .record values, name =>
    if fields.length = values.length then conformsFields fields values else .error (.shape name)
  | .choice fields, .choice index value, name =>
    match fields[index]? with
    | some field => conforms field.kind value field.name
    | none => .error (.shape name)
  | .list item cap, .list values, name =>
    if values.length ≤ cap then conformsItems item values name else .error (.tooLong name)
  | _, _, name => .error (.shape name)

def conformsFields : List SchemaField → List Val → Except TypeError Unit
  | .mk name kind :: fields, value :: values => do
    conforms kind value name
    conformsFields fields values
  | _, _ => .ok ()

def conformsItems : Kind → List Val → String → Except TypeError Unit
  | _, [], _ => .ok ()
  | item, value :: values, name => do
    conforms item value name
    conformsItems item values name

end

/-- the registry passes its own check -/
theorem registry_checked : registry.check = .ok () := by decide +kernel

end ZenoFcis.Effects
