/-
The encodings of a zUSD state and of a committed bundle (`application/encoding.rs`), which roots are taken of. Results:
- `shows_state`: two states with one encoding are equal;
- `transport_exact`: this, the equality of requests, their round trip and the canonicity of what is decoded.
-/
import ZenoFcis.Zusd.Transport

namespace ZenoFcis.Zusd.Application

open Lib Lib.Except

/-! ## States -/

structure Parameters where
  version : U64
  minimumNet : U128
  reserve : U128
  clockProfile : Option Id
  dripProfile : Option Id
deriving DecidableEq

structure Balance where
  account : Id
  quantity : Quantity
deriving DecidableEq

structure Sheet where
  balances : List Balance
  supply : U128
  activeDebt : U128
  defaultDebt : U128
deriving DecidableEq

structure Position where
  owner : Id
  stake : U128
  snapshotZ : Accumulator256
  snapshotA : Accumulator256
deriving DecidableEq

structure Staking where
  total : U128
  fZ : Accumulator256
  fA : Accumulator256
  custodyZ : U128
  custodyA : U128
  zeroZ : U128
  zeroA : U128
  positions : List Position
deriving DecidableEq

structure Fee where
  base : U128
  lastEpoch : U64
deriving DecidableEq

inductive ExposureClass where
  | liquidation
  | redemption
deriving DecidableEq

structure ExposureEvent where
  id : Id
  epoch : U64
  class' : ExposureClass
  amount : U128
deriving DecidableEq

structure State where
  policy : Id
  version : U64
  deployed : U64
  clock : Clock
  backing : Backing
  oracleRoot : Id
  oracle : Option PriceView
  allocationRoot : Id
  book : Book
  pool : Stability.Book
  staking : Staking
  ledger : Sheet
  fee : Fee
  params : List Parameters
  nonces : List (Id × U64)
  seen : List Id
  events : List ExposureEvent
  dripState : Bytes
  lastTrigger : Option U64
deriving DecidableEq

structure Movement where
  source : Option Id
  target : Option Id
  quantity : Quantity
deriving DecidableEq

/-- the work that a commit reports -/
structure Reported where
  steps : U64
  reads : U64
  bytes : U64
deriving DecidableEq

/-- what a commit bundles -/
structure Prepared where
  pre : Id
  request : Request
  post : State
  legs : List Movement
  trace : Bytes
  usage : Reported
deriving DecidableEq

/-! ## Writing -/

namespace W

def acc (x : Accumulator256) : Bytes := [n x.high, n x.low].flatten

def params (p : Parameters) : Bytes :=
  [u64 p.version, n p.minimumNet, n p.reserve, opt id p.clockProfile, opt id p.dripProfile].flatten

def balance (b : Balance) : Bytes := [id b.account, quantity b.quantity].flatten

def sheet (s : Sheet) : Bytes := [vec balance s.balances, n s.supply, n s.activeDebt, n s.defaultDebt].flatten

def cell (c : Stability.Cell) : Bytes := [u64 c.epoch, u64 c.scale, acc c.s, acc c.g].flatten

def epoch (e : Stability.Epoch) : Bytes := [u64 e.epoch, u64 e.lastScale, bool e.isSealed].flatten

def sp (s : Stability.State) : Bytes :=
  [n s.total, n s.p, u64 s.epoch, u64 s.scale, acc s.errorS, acc s.errorLoss, acc s.errorG, n s.collateral,
    n s.stock.remaining, n s.stock.scheduled, n s.stock.allocated, n s.stock.missed, n s.stock.paid,
    vec cell s.history, vec epoch s.epochs].flatten

def vaultStatus : Vaults.Status → Bytes
  | .active => [0]
  | .closedOwner => [1]
  | .closedLiquidation => [2]
  | .closedRedemption => [3]

def vault (v : Vaults.Vault) : Bytes :=
  [u64 v.parameterVersion, id v.id, id v.owner, vaultStatus v.status, n v.collateral, n v.debt, n v.reserve, n v.stake,
    acc v.snapshotC, acc v.snapshotD].flatten

/-- an entry of the priorities or of the surplus -/
def amount (x : Id × U128) : Bytes := [id x.1, n x.2].flatten

def system (s : Vaults.System) : Bytes :=
  [n s.collateral, n s.debt, u32 s.active, n s.stakes, n s.stakesSnapshot, n s.collateralSnapshot, acc s.rewardC,
    acc s.rewardD].flatten

def book (b : Book) : Bytes :=
  [vec vault b.vaults, vec id b.order, vec amount b.priorities, system b.system, n b.defaultCollateral, n b.defaultDebt,
    acc b.errorC, acc b.errorD, n b.gasBalance, vec amount b.surplus, sp b.pool].flatten

def deposit (d : Stability.Deposit) : Bytes :=
  [id d.owner, n d.initial, opt id d.tag, n d.snapshot.p, acc d.snapshot.s, acc d.snapshot.g, u64 d.snapshot.epoch,
    u64 d.snapshot.scale].flatten

def frontEnd (f : Stability.FrontEnd) : Bytes :=
  [id f.owner, n f.kickback, n f.initial, n f.snapshot.p, acc f.snapshot.g, u64 f.snapshot.epoch,
    u64 f.snapshot.scale].flatten

def position (p : Position) : Bytes := [id p.owner, n p.stake, acc p.snapshotZ, acc p.snapshotA].flatten

def staking (s : Staking) : Bytes :=
  [n s.total, n s.custodyZ, n s.custodyA, n s.zeroZ, n s.zeroA, acc s.fZ, acc s.fA, vec position s.positions].flatten

def nonce (x : Id × U64) : Bytes := [id x.1, u64 x.2].flatten

def exposureClass : ExposureClass → Bytes
  | .liquidation => [0]
  | .redemption => [1]

def event (e : ExposureEvent) : Bytes := [id e.id, u64 e.epoch, exposureClass e.class', n e.amount].flatten

/-- `b"zusd.step4.state/1\0"` -/
def stateLabel : Bytes := [122, 117, 115, 100, 46, 115, 116, 101, 112, 52, 46, 115, 116, 97, 116, 101, 47, 49, 0]

def stateFields (s : State) : Bytes :=
  [id s.policy, u64 s.version, u64 s.deployed, clock s.clock, backing s.backing, id s.oracleRoot, opt view s.oracle,
    id s.allocationRoot, book s.book, sp s.pool.pool, vec deposit s.pool.deposits, vec frontEnd s.pool.frontEnds,
    staking s.staking, sheet s.ledger, n s.fee.base, u64 s.fee.lastEpoch, vec params s.params, vec nonce s.nonces,
    vec id s.seen, vec event s.events, blob s.dripState, opt u64 s.lastTrigger].flatten

def state (s : State) : Bytes := stateLabel ++ stateFields s

def movement (l : Movement) : Bytes := [opt id l.source, opt id l.target, quantity l.quantity].flatten

/-- `b"zusd.step4.commit/1\0"` -/
def commitLabel : Bytes :=
  [122, 117, 115, 100, 46, 115, 116, 101, 112, 52, 46, 99, 111, 109, 109, 105, 116, 47, 49, 0]

def bundleFields (hash : Bytes → Id) (p : Prepared) : Bytes :=
  [id p.pre, blob (request p.request), blob (state p.post), id (hash (state p.post)), vec movement p.legs, blob p.trace,
    u64 p.usage.steps, u64 p.usage.reads, u64 p.usage.bytes].flatten

/-- the bundle behind its label, with its own hash at the end -/
def bundle (hash : Bytes → Id) (p : Prepared) : Bytes :=
  let fields := commitLabel ++ bundleFields hash p
  fields ++ id (hash fields)

end W

/-! ## Equal encodings -/

theorem shows_u32 : Shows usizeMax W.u32 fun x => x := Returns.shows returns_u32

theorem shows_u64 : Shows usizeMax W.u64 fun x => x := Returns.shows returns_u64

theorem shows_n : Shows usizeMax W.n fun x => x := Returns.shows returns_n

theorem shows_id : Shows usizeMax W.id fun x => x := Returns.shows returns_id

theorem shows_bool : Shows usizeMax W.bool fun x => x := Returns.shows returns_bool

theorem shows_quantity : Shows usizeMax W.quantity fun x => x := Returns.shows returns_quantity

theorem shows_opt {α : Type} {enc : α → Bytes} (h : Shows usizeMax enc fun a => a) :
    Shows usizeMax (W.opt enc) fun x => x := Shows.option shows_bool h

theorem shows_acc : Shows usizeMax W.acc fun x => x :=
  ((shows_n.of Accumulator256.high).cons ((shows_n.of Accumulator256.low).cons .nil)).imp fun a b h => by
    cases a
    cases b
    simpa using h

theorem shows_vec {α : Type} {enc : α → Bytes} (h : Shows usizeMax enc fun a => a) (hpos : ∀ a, 0 < (enc a).length) :
    Shows usizeMax (W.vec enc) fun x => x := Shows.counted h hpos usizeMax_lt

theorem id_pos (x : Id) : 0 < (W.id x).length := by
  rw [id_length]
  omega

theorem bool_pos {x : Bool} : 0 < (W.bool x).length := Nat.one_pos

theorem flatten_pos {part : Bytes} {parts : List Bytes} (h : 0 < part.length) : 0 < (part :: parts).flatten.length := by
  rw [List.flatten_cons, List.length_append]
  omega

theorem u64_pos (x : U64) : 0 < (W.u64 x).length := by
  rw [show (W.u64 x).length = 8 from beBytes_length 8 x.val]
  omega

theorem shows_params : Shows usizeMax W.params fun x => x :=
  ((shows_u64.of Parameters.version).cons <| (shows_n.of Parameters.minimumNet).cons <|
    (shows_n.of Parameters.reserve).cons <| ((shows_opt shows_id).of Parameters.clockProfile).cons <|
    ((shows_opt shows_id).of Parameters.dripProfile).cons .nil).imp fun a b h => by
    cases a
    cases b
    simpa using h

theorem shows_balance : Shows usizeMax W.balance fun x => x :=
  ((shows_id.of Balance.account).cons <| (shows_quantity.of Balance.quantity).cons .nil).imp fun a b h => by
    cases a
    cases b
    simpa using h

theorem shows_sheet : Shows usizeMax W.sheet fun x => x :=
  (((shows_vec shows_balance fun _ => flatten_pos (id_pos _)).of Sheet.balances).cons <|
    (shows_n.of Sheet.supply).cons <| (shows_n.of Sheet.activeDebt).cons <|
    (shows_n.of Sheet.defaultDebt).cons .nil).imp fun a b h => by
    cases a
    cases b
    simpa using h

theorem shows_cell : Shows usizeMax W.cell fun x => x :=
  ((shows_u64.of Stability.Cell.epoch).cons <| (shows_u64.of Stability.Cell.scale).cons <|
    (shows_acc.of Stability.Cell.s).cons <| (shows_acc.of Stability.Cell.g).cons .nil).imp fun a b h => by
    cases a
    cases b
    simpa using h

theorem shows_epoch : Shows usizeMax W.epoch fun x => x :=
  ((shows_u64.of Stability.Epoch.epoch).cons <| (shows_u64.of Stability.Epoch.lastScale).cons <|
    (shows_bool.of Stability.Epoch.isSealed).cons .nil).imp fun a b h => by
    cases a
    cases b
    simpa using h

theorem shows_sp : Shows usizeMax W.sp fun x => x :=
  ((shows_n.of Stability.State.total).cons <| (shows_n.of Stability.State.p).cons <|
    (shows_u64.of Stability.State.epoch).cons <| (shows_u64.of Stability.State.scale).cons <|
    (shows_acc.of Stability.State.errorS).cons <| (shows_acc.of Stability.State.errorLoss).cons <|
    (shows_acc.of Stability.State.errorG).cons <| (shows_n.of Stability.State.collateral).cons <|
    (shows_n.of fun s : Stability.State => s.stock.remaining).cons <|
    (shows_n.of fun s : Stability.State => s.stock.scheduled).cons <|
    (shows_n.of fun s : Stability.State => s.stock.allocated).cons <|
    (shows_n.of fun s : Stability.State => s.stock.missed).cons <|
    (shows_n.of fun s : Stability.State => s.stock.paid).cons <|
    ((shows_vec shows_cell fun _ => flatten_pos (u64_pos _)).of Stability.State.history).cons <|
    ((shows_vec shows_epoch fun _ => flatten_pos (u64_pos _)).of Stability.State.epochs).cons .nil).imp fun a b h => by
    rcases a with ⟨_, _, _, _, _, _, _, _, ⟨⟩, _, _⟩
    rcases b with ⟨_, _, _, _, _, _, _, _, ⟨⟩, _, _⟩
    simpa [and_assoc] using h

theorem shows_vaultStatus : Shows usizeMax W.vaultStatus fun x => x := by
  intro a b r s _ heq
  cases a <;> cases b <;> simp_all [W.vaultStatus]

theorem shows_exposureClass : Shows usizeMax W.exposureClass fun x => x := by
  intro a b r s _ heq
  cases a <;> cases b <;> simp_all [W.exposureClass]

theorem shows_vault : Shows usizeMax W.vault fun x => x :=
  ((shows_u64.of Vaults.Vault.parameterVersion).cons <| (shows_id.of Vaults.Vault.id).cons <|
    (shows_id.of Vaults.Vault.owner).cons <| (shows_vaultStatus.of Vaults.Vault.status).cons <|
    (shows_n.of Vaults.Vault.collateral).cons <| (shows_n.of Vaults.Vault.debt).cons <|
    (shows_n.of Vaults.Vault.reserve).cons <| (shows_n.of Vaults.Vault.stake).cons <|
    (shows_acc.of Vaults.Vault.snapshotC).cons <| (shows_acc.of Vaults.Vault.snapshotD).cons .nil).imp fun a b h => by
    cases a
    cases b
    simpa using h

theorem shows_amount : Shows usizeMax W.amount fun x => x :=
  ((shows_id.of Prod.fst).cons <| (shows_n.of Prod.snd).cons .nil).imp fun a b h => by
    cases a
    cases b
    simpa using h

theorem shows_system : Shows usizeMax W.system fun x => x :=
  ((shows_n.of Vaults.System.collateral).cons <| (shows_n.of Vaults.System.debt).cons <|
    (shows_u32.of Vaults.System.active).cons <| (shows_n.of Vaults.System.stakes).cons <|
    (shows_n.of Vaults.System.stakesSnapshot).cons <| (shows_n.of Vaults.System.collateralSnapshot).cons <|
    (shows_acc.of Vaults.System.rewardC).cons <| (shows_acc.of Vaults.System.rewardD).cons .nil).imp fun a b h => by
    cases a
    cases b
    simpa using h

theorem shows_book : Shows usizeMax W.book fun x => x :=
  (((shows_vec shows_vault fun _ => flatten_pos (u64_pos _)).of Book.vaults).cons <|
    ((shows_vec shows_id id_pos).of Book.order).cons <|
    ((shows_vec shows_amount fun _ => flatten_pos (id_pos _)).of Book.priorities).cons <|
    (shows_system.of Book.system).cons <| (shows_n.of Book.defaultCollateral).cons <|
    (shows_n.of Book.defaultDebt).cons <| (shows_acc.of Book.errorC).cons <| (shows_acc.of Book.errorD).cons <|
    (shows_n.of Book.gasBalance).cons <|
    ((shows_vec shows_amount fun _ => flatten_pos (id_pos _)).of Book.surplus).cons <|
    (shows_sp.of Book.pool).cons .nil).imp fun a b h => by
    cases a
    cases b
    simpa using h

theorem shows_deposit : Shows usizeMax W.deposit fun x => x :=
  ((shows_id.of Stability.Deposit.owner).cons <| (shows_n.of Stability.Deposit.initial).cons <|
    ((shows_opt shows_id).of Stability.Deposit.tag).cons <|
    (shows_n.of fun d : Stability.Deposit => d.snapshot.p).cons <|
    (shows_acc.of fun d : Stability.Deposit => d.snapshot.s).cons <|
    (shows_acc.of fun d : Stability.Deposit => d.snapshot.g).cons <|
    (shows_u64.of fun d : Stability.Deposit => d.snapshot.epoch).cons <|
    (shows_u64.of fun d : Stability.Deposit => d.snapshot.scale).cons .nil).imp fun a b h => by
    rcases a with ⟨_, _, _, ⟨⟩⟩
    rcases b with ⟨_, _, _, ⟨⟩⟩
    simpa using h

theorem shows_frontEnd : Shows usizeMax W.frontEnd fun x => x :=
  ((shows_id.of Stability.FrontEnd.owner).cons <| (shows_n.of Stability.FrontEnd.kickback).cons <|
    (shows_n.of Stability.FrontEnd.initial).cons <| (shows_n.of fun d : Stability.FrontEnd => d.snapshot.p).cons <|
    (shows_acc.of fun d : Stability.FrontEnd => d.snapshot.g).cons <|
    (shows_u64.of fun d : Stability.FrontEnd => d.snapshot.epoch).cons <|
    (shows_u64.of fun d : Stability.FrontEnd => d.snapshot.scale).cons .nil).imp fun a b h => by
    rcases a with ⟨_, _, _, ⟨⟩⟩
    rcases b with ⟨_, _, _, ⟨⟩⟩
    simpa using h

theorem shows_position : Shows usizeMax W.position fun x => x :=
  ((shows_id.of Position.owner).cons <| (shows_n.of Position.stake).cons <| (shows_acc.of Position.snapshotZ).cons <|
    (shows_acc.of Position.snapshotA).cons .nil).imp fun a b h => by
    cases a
    cases b
    simpa using h

theorem shows_staking : Shows usizeMax W.staking fun x => x :=
  ((shows_n.of Staking.total).cons <| (shows_n.of Staking.custodyZ).cons <| (shows_n.of Staking.custodyA).cons <|
    (shows_n.of Staking.zeroZ).cons <| (shows_n.of Staking.zeroA).cons <| (shows_acc.of Staking.fZ).cons <|
    (shows_acc.of Staking.fA).cons <|
    ((shows_vec shows_position fun _ => flatten_pos (id_pos _)).of Staking.positions).cons .nil).imp fun a b h => by
    cases a
    cases b
    simp only [Prod.mk.injEq, Staking.mk.injEq, and_true] at h ⊢
    tauto

theorem shows_nonce : Shows usizeMax W.nonce fun x => x :=
  ((shows_id.of Prod.fst).cons <| (shows_u64.of Prod.snd).cons .nil).imp fun a b h => by
    cases a
    cases b
    simpa using h

theorem shows_event : Shows usizeMax W.event fun x => x :=
  ((shows_id.of ExposureEvent.id).cons <| (shows_u64.of ExposureEvent.epoch).cons <|
    (shows_exposureClass.of ExposureEvent.class').cons <|
    (shows_n.of ExposureEvent.amount).cons .nil).imp fun a b h => by
    cases a
    cases b
    simpa using h

theorem shows_movement : Shows usizeMax W.movement fun x => x :=
  (((shows_opt shows_id).of Movement.source).cons <| ((shows_opt shows_id).of Movement.target).cons <|
    (shows_quantity.of Movement.quantity).cons .nil).imp fun a b h => by
    cases a
    cases b
    simpa using h

/-- **States.** Two states with one encoding are equal. -/
theorem shows_state : Shows usizeMax W.state fun s => s := by
  have hclock : Shows usizeMax W.clock fun x => x := Returns.shows returns_clock
  have hbacking : Shows usizeMax W.backing fun x => x := Returns.shows returns_backing
  have hview : Shows usizeMax W.view fun x => x := Returns.shows returns_view
  have hfields : Shows usizeMax W.stateFields fun s => s :=
    ((shows_id.of State.policy).cons <| (shows_u64.of State.version).cons <| (shows_u64.of State.deployed).cons <|
      (hclock.of State.clock).cons <| (hbacking.of State.backing).cons <| (shows_id.of State.oracleRoot).cons <|
      ((shows_opt hview).of State.oracle).cons <| (shows_id.of State.allocationRoot).cons <|
      (shows_book.of State.book).cons <| (shows_sp.of fun s : State => s.pool.pool).cons <|
      ((shows_vec shows_deposit fun _ => flatten_pos (id_pos _)).of fun s : State => s.pool.deposits).cons <|
      ((shows_vec shows_frontEnd fun _ => flatten_pos (id_pos _)).of fun s : State => s.pool.frontEnds).cons <|
      (shows_staking.of State.staking).cons <| (shows_sheet.of State.ledger).cons <|
      (shows_n.of fun s : State => s.fee.base).cons <| (shows_u64.of fun s : State => s.fee.lastEpoch).cons <|
      ((shows_vec shows_params fun _ => flatten_pos (u64_pos _)).of State.params).cons <|
      ((shows_vec shows_nonce fun _ => flatten_pos (id_pos _)).of State.nonces).cons <|
      ((shows_vec shows_id id_pos).of State.seen).cons <|
      ((shows_vec shows_event fun _ => flatten_pos (id_pos _)).of State.events).cons <|
      (shows_blob.of State.dripState).cons <| ((shows_opt shows_u64).of State.lastTrigger).cons .nil).imp fun a b h => by
      rcases a with ⟨_, _, _, _, _, _, _, _, _, ⟨⟩, _, _, ⟨⟩, _, _, _, _, _, _⟩
      rcases b with ⟨_, _, _, _, _, _, _, _, _, ⟨⟩, _, _, ⟨⟩, _, _, _, _, _, _⟩
      simpa [and_assoc] using h
  exact hfields.behind W.stateLabel

theorem shows_bundleFields (hash : Bytes → Id) : Shows usizeMax (W.bundleFields hash) fun p => p := by
  have hroot : Shows usizeMax (fun p : Prepared => W.id (hash (W.state p.post))) fun p => hash (W.state p.post) :=
    shows_id.of fun p : Prepared => hash (W.state p.post)
  have hrequest : Shows usizeMax (fun p : Prepared => W.blob (W.request p.request)) Prepared.request :=
    (shows_nested shows_request).of Prepared.request
  have hpost : Shows usizeMax (fun p : Prepared => W.blob (W.state p.post)) Prepared.post :=
    (shows_nested shows_state).of Prepared.post
  have hlegs : Shows usizeMax (fun p : Prepared => W.vec W.movement p.legs) Prepared.legs :=
    (shows_vec shows_movement fun _ => flatten_pos (flatten_pos bool_pos)).of Prepared.legs
  have hparts := (shows_id.of Prepared.pre).cons <| hrequest.cons <| hpost.cons <| hroot.cons <| hlegs.cons <|
      (shows_blob.of Prepared.trace).cons <| (shows_u64.of fun p : Prepared => p.usage.steps).cons <|
      (shows_u64.of fun p : Prepared => p.usage.reads).cons <|
      (shows_u64.of fun p : Prepared => p.usage.bytes).cons .nil
  refine Shows.imp hparts fun a b h => ?_
  rcases a with ⟨_, _, _, _, _, ⟨⟩⟩
  rcases b with ⟨_, _, _, _, _, ⟨⟩⟩
  simp only [Prod.mk.injEq, Prepared.mk.injEq, Reported.mk.injEq, and_true] at h ⊢
  obtain ⟨hpre, hrequest, hpost, -, hrest⟩ := h
  exact ⟨hpre, hrequest, hpost, hrest⟩

/-- **Bundles.** A bundle determines the request and the state that it commits to, with everything it reports. -/
theorem shows_bundle (hash : Bytes → Id) : Shows usizeMax (W.bundle hash) fun p => p := by
  intro a b r s hlen heq
  unfold W.bundle at hlen heq
  dsimp only at hlen heq
  rw [List.append_assoc] at hlen
  rw [List.append_assoc, List.append_assoc (W.commitLabel ++ W.bundleFields hash b)] at heq
  obtain ⟨hsame, hrest⟩ := (shows_bundleFields hash).behind W.commitLabel hlen heq
  subst hsame
  exact ⟨rfl, List.append_cancel_left hrest⟩

/-- **The transport.** A request of at most nine proofs whose encoding fits the cap is read back; what is accepted is
the encoding of what is returned and fits the cap; equal encodings of requests, of states and of bundles are those of
equal ones. The bound is the length of a byte vector. -/
theorem transport_exact :
    (∀ r cap, cap ≤ usizeMax → r.proofs.length ≤ 9 → (W.request r).length ≤ cap →
      decodeRequest (W.request r) cap = .ok r) ∧
      (∀ b cap r, decodeRequest b cap = .ok r → W.request r = b ∧ b.length ≤ cap) ∧
      (∀ r r', (W.request r).length ≤ usizeMax → W.request r = W.request r' → r = r') ∧
      (∀ s s', (W.state s).length ≤ usizeMax → W.state s = W.state s' → s = s') ∧
      ∀ hash p p', (W.bundle hash p).length ≤ usizeMax → W.bundle hash p = W.bundle hash p' → p = p' := by
  refine ⟨fun r cap hcap hproofs hlen => decode_request hcap hproofs hlen, fun b cap r h => decodeRequest_ok h,
    fun r r' hlen heq => shows_request.same hlen heq, fun s s' hlen heq => shows_state.same hlen heq,
    fun hash p p' hlen heq => (shows_bundle hash).same hlen heq⟩

end ZenoFcis.Zusd.Application
