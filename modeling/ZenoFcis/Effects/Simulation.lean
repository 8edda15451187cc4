/-
The deterministic simulated world of the effect shell (`effects/simulation.rs`): every fault is an explicit choice.

Model:
- SHA-256 is a parameter `hash`;
- the durable store carries what its fields promise: one receipt and one replay key per commit, and commits numbered
  from one;
- a mutable simulation is passed through: `handle` returns what it did and the simulation after it.
-/
import ZenoFcis.Effects.Port
import ZenoFcis.Lib.BigEndian

namespace ZenoFcis.Effects

open Lib

/-- `codec::bytes`: length-framed bytes -/
def frame (value : Bytes) : Bytes := beBytes 8 value.length ++ value

/-- the bytes of an ASCII literal -/
def ascii (text : String) : Bytes := text.toList.map fun c => UInt8.ofNat c.toNat

namespace Simulated

def identity : Bytes := ascii "simulated-authority"

/-- identity of the simulated store -/
def storeIdentity : Hash32 := ⟨List.replicate 32 0x5a, rfl⟩

/-- number of handles on the store -/
abbrev handles : ℕ := 2

/-- the position of a handle on the simulated store, numbered from one -/
def handleIndex (store : Store) : Option (Fin handles) :=
  if store.identity = storeIdentity then
    match store.handle with
    | 1 => some 0
    | 2 => some 1
    | _ => none
  else none

section Hashes

variable (hash : Bytes → Hash32)

def sha256 (parts : List Bytes) : Hash32 := hash (parts.flatMap frame)

/-- the simulated Authority's subject for these inputs -/
def subject (prestate command context : Bytes) : Bytes := (sha256 hash [identity, prestate, command, context]).bytes

/-- one delivery of the commit that produced `chain` and `state` -/
def delivery (version : ℕ) (chain : Hash32) (state : Bytes) (ordinal : UInt32) : Delivery :=
  let payload := [state.headD 0, ordinal.toUInt8]
  { id := sha256 hash [ascii "delivery", chain.bytes, beBytes 4 ordinal.toNat]
    version, lane := 1, ordinal, destination := ascii "receiver", payload, payloadSha256 := hash payload }

def deliveries (version : ℕ) (chain : Hash32) (state : Bytes) : List Delivery :=
  [delivery hash version chain state 0, delivery hash version chain state 1]

end Hashes

end Simulated

open Simulated

/-! ## The durable store -/

/-- the store's durable state D -/
structure Durable where
  state : Bytes
  chain : Hash32
  commits : List HistoryEntry
  receipts : List Hash32
  replays : List Hash32
  outbox : List (Delivery × Bool)
  receipts_length : receipts.length = commits.length
  replays_eq : replays = commits.map (·.key)
  versions : ∀ i entry, commits[i]? = some entry → entry.version = i + 1

namespace Durable

/-- number of commits -/
def version (durable : Durable) : ℕ := durable.commits.length

/-- the genesis store: counter zero, no commits -/
def genesis (hash : Bytes → Hash32) : Durable where
  state := [0]
  chain := sha256 hash [ascii "genesis", identity]
  commits := []
  receipts := []
  replays := []
  outbox := []
  receipts_length := rfl
  replays_eq := rfl
  versions := by simp

/-- the checked head -/
def snapshot (hash : Bytes → Hash32) (durable : Durable) : Snapshot :=
  ⟨durable.version, identity, durable.state, hash durable.state, durable.chain⟩

def history (hash : Bytes → Hash32) (durable : Durable) : AuditedHistory := ⟨durable.snapshot hash, durable.commits⟩

/-- the pending deliveries, in commit, lane and ordinal order -/
def pending (durable : Durable) : List Delivery := (durable.outbox.filter fun row => !row.2).map (·.1)

/-- the store after one more commit, whose deliveries are pending -/
def push (durable : Durable) (hash : Bytes → Hash32) (key : Hash32) (data : PublicationData) (state : Bytes) :
    Durable :=
  let chain := sha256 hash [durable.chain.bytes, data.subject]
  { state
    chain
    commits := durable.commits ++ [⟨key, durable.version + 1, data⟩]
    receipts := durable.receipts ++ [chain]
    replays := durable.replays ++ [key]
    outbox := durable.outbox ++ (deliveries hash (durable.version + 1) chain state).map fun delivery => (delivery,
      false)
    receipts_length := by simp [durable.receipts_length]
    replays_eq := by simp [durable.replays_eq]
    versions := by
      intro i entry h
      rw [List.getElem?_append] at h
      split at h
      · exact durable.versions i entry h
      · rw [List.getElem?_singleton] at h
        split at h
        · cases h
          simp only [version]
          omega
        · cases h }

/-- the store with the delivery at `index` acknowledged -/
def acknowledge (durable : Durable) (index : ℕ) : Durable :=
  { durable with outbox := durable.outbox.modify index fun row => (row.1, true) }

end Durable

/-! ## Schedules -/

/-- the choices of one schedule, consumed in order -/
structure Script where
  choices : List UInt8
  position : ℕ
  faultFree : Bool
  needed : Option ℕ
  malformed : Bool

namespace Script

/-- a schedule that makes exactly these choices -/
def new (choices : List UInt8) : Script := ⟨choices, 0, false, none, false⟩

/-- a schedule that always takes the first, fault-free option -/
def alwaysFirst : Script := ⟨[], 0, true, none, false⟩

/-- chooses one of `options`, or `none` when the schedule ends here -/
def choose (script : Script) (options : ℕ) : Option ℕ × Script :=
  if options = 1 ∨ script.faultFree then (some 0, script)
  else
    match script.choices[script.position]? with
    | some choice =>
      if choice.toNat < options then (some choice.toNat, { script with position := script.position + 1 })
      else (none, { script with malformed := true })
    | none => (none, { script with needed := some options })

end Script

/-! ## Decisions -/

/-- what a commit would do on a fault-free store -/
inductive Decision where
  | refuse (code : Code)
  | replay (receipt : CommitReceipt)
  | apply (after : Durable) (receipt : CommitReceipt)

/-- the version a guarded commit expects -/
def CommitMode.expected : CommitMode → Option ℕ
  | .unversioned => none
  | .at version | .boundedAt version _ => some version

/-- the byte cap of a bounded commit -/
def CommitMode.cap : CommitMode → Option ℕ
  | .unversioned | .at _ => none
  | .boundedAt _ cap => some cap

/-- `u8::checked_add` -/
def checkedAddByte (left right : UInt8) : Option UInt8 :=
  if left.toNat + right.toNat < 256 then some (left + right) else none

/-- the counter after `data`, from the first bytes of state and command -/
def Durable.next (durable : Durable) (data : PublicationData) : Option UInt8 := do
  let count ← durable.state.head?
  let body ← data.command.head?
  checkedAddByte count body

/-- a key that is not in the store yet -/
def Durable.admitCommit (durable : Durable) (hash : Bytes → Hash32) (key : Hash32) (data : PublicationData)
    (mode : CommitMode) : Decision :=
  if data.identity ≠ identity ∨ data.subject ≠ subject hash data.prestate data.command data.context then
    .refuse .identity
  else if data.prestate ≠ durable.state then .refuse .preState
  else if mode.cap.any (· < data.prestate.length + data.command.length + data.context.length) then .refuse .capacity
  else
    match durable.next data with
    | none => .refuse .range
    | some next =>
      let after := durable.push hash key data [next]
      .apply after ⟨durable.version + 1, after.chain, .committed⟩

/-- the expected version is checked before the replay key is looked up -/
def Durable.decide (durable : Durable) (hash : Bytes → Hash32) (key : Hash32) (data : PublicationData)
    (mode : CommitMode) : Decision :=
  if mode.expected.any (· ≠ durable.version) then .refuse .concurrent
  else
    match durable.replays.findIdx? (· == key) with
    | some index =>
      match h : durable.commits[index]? with
      | none => .refuse .history
      | some entry =>
        if entry.publication ≠ data then .refuse .replay
        else
          let receipt := durable.receipts.get ⟨index, by
            rw [durable.receipts_length]
            exact (List.getElem?_eq_some_iff.1 h).1⟩
          .replay ⟨entry.version, receipt, .idempotentReplay⟩
    | none => durable.admitCommit hash key data mode

/-! ## The simulation -/

/-- what a handler did with one request -/
inductive Handled where
  | answer (response : Response)
  | crash
  | suspend
deriving DecidableEq

/-- transport queue capacity and largest clock tick -/
structure Profile where
  queue : ℕ
  ticks : ℕ

/-- the whole simulated world: the store, each handle's cached version, the transport, the receiver and the clock -/
structure World where
  durable : Durable
  handles : Vector (Option ℕ) handles
  queue : List Delivery
  dedup : List Hash32
  effects : List Hash32
  sent : List Hash32
  tick : ℕ
  late : List (Binding × Response)

/-- a world around `durable` with fresh handles and an idle transport -/
def World.new (durable : Durable) : World :=
  ⟨durable, Vector.replicate _ (some durable.version), [], [], [], [], 0, []⟩

/-- the simulation handler: terminal for its ports over one world -/
structure Simulation where
  world : World
  profile : Profile
  ports : List Port
  script : Script

/-- failure choices, in canonical order, following the successful responses -/
def faultChoice : ℕ → Fault
  | 0 => .busy
  | 1 => .full
  | _ => .io

/-- the number of ticks from `first` to `last`, inclusive -/
def tickChoices (first last : ℕ) : ℕ := min (last - first + 1) u64Max

namespace Simulation

/-- the next choice of the schedule, and the simulation after it -/
def choose (simulation : Simulation) (options : ℕ) : Option ℕ × Simulation :=
  let (choice, script) := simulation.script.choose options
  (choice, { simulation with script })

def setWorld (simulation : Simulation) (world : World) : Simulation := { simulation with world }

def setDurable (simulation : Simulation) (durable : Durable) : Simulation :=
  simulation.setWorld { simulation.world with durable }

/-- the handle's cached version: the store's, or `none` once dropped by a crash -/
def setHandle (simulation : Simulation) (handle : Fin handles) (cached : Option ℕ) : Simulation :=
  simulation.setWorld { simulation.world with handles := simulation.world.handles.set handle cached }

def refresh (simulation : Simulation) (handle : Fin handles) : Simulation :=
  simulation.setHandle handle (some simulation.world.durable.version)

/-- an answer whose reply was lost -/
def pushLate (simulation : Simulation) (binding : Binding) (answer : Response) : Simulation :=
  simulation.setWorld { simulation.world with late := simulation.world.late ++ [(binding, answer)] }

def crash (simulation : Simulation) (handle : Fin handles) : Handled × Simulation :=
  (.crash, simulation.setHandle handle none)

/-- a store operation that writes nothing: answer, busy or crash -/
def read (simulation : Simulation) (handle : Fin handles) (port : Port) (answer : Response) : Handled × Simulation :=
  match simulation.choose 5 with
  | (none, simulation) => (.suspend, simulation)
  | (some 0, simulation) => (.answer answer, simulation.refresh handle)
  | (some 1, simulation) => (.answer (.notApplied port .busy), simulation)
  | (some 2, simulation) => simulation.crash handle
  | (some 3, simulation) => (.answer (.notApplied port .full), simulation)
  | (some _, simulation) => (.answer (.notApplied port .io), simulation)

/-- a store write: answer, busy, an ambiguous reply that did not apply, a lost reply that did, or a crash before or
after it -/
def write (simulation : Simulation) (binding : Binding) (handle : Fin handles) (after : Durable) (answer : Response) :
    Handled × Simulation :=
  let port := binding.port
  match simulation.choose 8 with
  | (none, simulation) => (.suspend, simulation)
  | (some 0, simulation) => (.answer answer, (simulation.setDurable after).refresh handle)
  | (some 1, simulation) => (.answer (.notApplied port .busy), simulation)
  | (some 2, simulation) => (.answer (.unknown port), simulation)
  | (some 3, simulation) => (.answer (.unknown port), (simulation.setDurable after).pushLate binding answer)
  | (some 4, simulation) => simulation.crash handle
  | (some 5, simulation) => (simulation.setDurable after).crash handle
  | (some 6, simulation) => (.answer (.notApplied port .full), simulation)
  | (some _, simulation) => (.answer (.notApplied port .io), simulation)

/-- one copy put in transit -/
def carry (simulation : Simulation) (delivery : Delivery) : Simulation :=
  let world := simulation.world
  simulation.setWorld { world with
    queue := world.queue ++ [delivery]
    sent := if world.sent.contains delivery.id then world.sent else world.sent ++ [delivery.id] }

def send (simulation : Simulation) (binding : Binding) (handle : Fin handles) (delivery : Delivery) :
    Handled × Simulation :=
  let room := simulation.profile.queue - simulation.world.queue.length
  let report := Response.send (.sent ⟨delivery.id, delivery.payloadSha256⟩)
  let notSent := Response.send (.notSent .delivery)
  if room = 0 then
    match simulation.choose 2 with
    | (none, simulation) => (.suspend, simulation)
    | (some 0, simulation) => (.answer notSent, simulation)
    | (some _, simulation) => simulation.crash handle
  else
    let lost := Response.send (.unknown .io)
    match simulation.choose (if room ≥ 2 then 7 else 6) with
    | (none, simulation) => (.suspend, simulation)
    | (some 0, simulation) => (.answer report, simulation.carry delivery)
    | (some 1, simulation) => (.answer notSent, simulation)
    | (some 2, simulation) => (.answer lost, simulation)
    | (some 3, simulation) => (.answer lost, (simulation.carry delivery).pushLate binding report)
    | (some 4, simulation) => simulation.crash handle
    | (some 5, simulation) => (simulation.carry delivery).crash handle
    | (some _, simulation) => (.answer report, (simulation.carry delivery).carry delivery)

def acknowledge (simulation : Simulation) (binding : Binding) (handle : Fin handles) (id payloadSha256 : Hash32) :
    Handled × Simulation :=
  let durable := simulation.world.durable
  let refused := fun code => simulation.read handle .acknowledge (.acknowledge (.refused code))
  match durable.outbox.findIdx? fun row => row.1.id == id with
  | none => refused .unknownDelivery
  | some index =>
    match durable.outbox[index]? with
    | none => refused .unknownDelivery
    | some (delivery, acknowledged) =>
      if delivery.payloadSha256 ≠ payloadSha256 then refused .payloadMismatch
      else if acknowledged then refused .alreadyAcknowledged
      else simulation.write binding handle (durable.acknowledge index) (.acknowledge (.ok ()))

def clock (simulation : Simulation) (binding : Binding) : Handled × Simulation :=
  let first := simulation.world.tick
  let successful := tickChoices first simulation.profile.ticks
  match simulation.choose (successful + 3) with
  | (none, simulation) => (.suspend, simulation)
  | (some offset, simulation) =>
    if offset < successful then
      (.answer (.clock (.ok ⟨binding.id.epoch, first + offset⟩)),
        simulation.setWorld { simulation.world with tick := first + offset })
    else (.answer (.clock (.error (faultChoice (offset - successful)))), simulation)

def random (simulation : Simulation) (bound : ℕ+) : Handled × Simulation :=
  let options := min (bound : ℕ) 256
  match simulation.choose (options + 3) with
  | (none, simulation) => (.suspend, simulation)
  | (some draw, simulation) =>
    if draw < options then (.answer (.random (.ok draw)), simulation)
    else (.answer (.random (.error (faultChoice (draw - options)))), simulation)

def wait (simulation : Simulation) (binding : Binding) (deadline : EpochTick) : Handled × Simulation :=
  let first := max deadline.tick simulation.world.tick
  let wakes :=
    if deadline.epoch = binding.id.epoch ∧ first ≤ simulation.profile.ticks then
      tickChoices first simulation.profile.ticks
    else 0
  match simulation.choose (wakes + 4) with
  | (none, simulation) => (.suspend, simulation)
  | (some offset, simulation) =>
    if offset < wakes then
      (.answer (.wait (.ok ⟨binding.id.epoch, first + offset⟩)),
        simulation.setWorld { simulation.world with tick := first + offset })
    else if offset = wakes then (.answer (.wait (.error .interrupted)), simulation)
    else (.answer (.wait (.error (.failed (faultChoice (offset - wakes - 1))))), simulation)

/-- one store operation through the handle at `handle` -/
def handleStore (simulation : Simulation) (hash : Bytes → Hash32) (binding : Binding) (handle : Fin handles) :
    Operation → Handled × Simulation
  | .readState _ => simulation.read handle .readState (.readState (.ok (simulation.world.durable.snapshot hash)))
  | .readHistory _ => simulation.read handle .readHistory (.readHistory (.ok (simulation.world.durable.history hash)))
  | .readOutbox _ => simulation.read handle .readOutbox (.readOutbox (.ok simulation.world.durable.pending))
  | .reopen _ => simulation.read handle .reopen (.reopen (.ok (simulation.world.durable.snapshot hash)))
  | .commit _ key data mode =>
    match simulation.world.durable.decide hash key data mode with
    | .refuse code => simulation.read handle .commit (.commit (.refused code))
    | .replay receipt => simulation.read handle .commit (.commit (.ok receipt))
    | .apply after receipt => simulation.write binding handle after (.commit (.ok receipt))
  | .send _ delivery => simulation.send binding handle delivery
  | .acknowledge _ id payloadSha256 => simulation.acknowledge binding handle id payloadSha256
  | .clock => simulation.clock binding
  | .random _ bound => simulation.random bound
  | .wait deadline => simulation.wait binding deadline

/-- carries out one request; a request without a store needs no handle -/
def handle (simulation : Simulation) (hash : Bytes → Hash32) (binding : Binding) (operation : Operation) :
    Handled × Simulation :=
  let port := operation.port
  if port ∉ simulation.ports then (.answer (.refused port .identity), simulation)
  else
    match operation.store with
    | some store =>
      match handleIndex store with
      | some handle => simulation.handleStore hash binding handle operation
      | none => (.answer (.refused port .identity), simulation)
    | none =>
      match operation with
      | .clock => simulation.clock binding
      | .random _ bound => simulation.random bound
      | .wait deadline => simulation.wait binding deadline
      | _ => (.answer (.refused port .identity), simulation)

/-- receives the queued copy at `index`: the effect and its deduplication row share one receiver transaction -/
def receive (simulation : Simulation) (index : ℕ) : Simulation :=
  let world := simulation.world
  match world.queue[index]? with
  | none => simulation
  | some delivery =>
    let world := { world with queue := world.queue.eraseIdx index }
    if world.dedup.contains delivery.id then simulation.setWorld world
    else simulation.setWorld { world with
      dedup := world.dedup ++ [delivery.id]
      effects := world.effects ++ [delivery.id] }

end Simulation

end ZenoFcis.Effects
