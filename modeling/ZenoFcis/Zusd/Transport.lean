/-
The request transport of the zUSD application (`application/encoding.rs`): every record as its fields one after another,
in big-endian words, with tags, options and counted vectors, and the reader that takes a request back. Results:
- `decode_request`: the reader returns every request of at most nine proofs whose encoding fits the cap;
- `decodeRequest_ok`: what it accepts is the encoding of what it returns;
- `shows_request`: two requests with one encoding are equal.
-/
import ZenoFcis.Lib.Cursor
import ZenoFcis.Zusd.Reinsertion

namespace ZenoFcis.Zusd.Application

open Lib Lib.Except

abbrev Bytes := List UInt8

/-! ## Requests -/

structure Clock where
  backend : Id
  finality : Id
  sync : Id
  epoch : U64
  watermark : U64
deriving DecidableEq

structure Backing where
  custody : Id
  funding : Id
  supplyRoot : Id
  agrs : U128
  zdex : U128
  zdexSupply : U128
  zdexBurned : U128
deriving DecidableEq

structure PriceRecord where
  aggregate : Id
  round : U64
  publishedEpoch : U64
  earliestCommitEpoch : U64
  disputeUntil : U64
  valueE8 : U128
  observedEpoch : U64
  medianSeconds : U64
  committedEpoch : U64
  deviation : U128
deriving DecidableEq

/-- derived oracle data -/
structure PriceView where
  committed : Option PriceRecord
  pending : Option PriceRecord
  pendingBlocked : Bool
  status : Vaults.PriceStatus
  capacity : U128
  capacityRoot : Id
  aggregateBytes : Bytes
deriving DecidableEq

inductive OracleAction where
  | use
  | importPending
  | commitMatured
  | initializeFirstMatured
  | refreshStatus
deriving DecidableEq

structure OracleReceipt where
  before : Id
  after : Id
  event : Option Id
  action : OracleAction
  view : PriceView
deriving DecidableEq

structure Allocation where
  root : Id
  capacity : U128
deriving DecidableEq

structure Drip where
  event : Id
  amount : U128
  next : Bytes
deriving DecidableEq

inductive Delta where
  | none
  | add (amount : U128)
  | remove (amount : U128)
deriving DecidableEq

inductive Quantity where
  | zusd (atoms : U128)
  | agrs (atoms : U128)
  | zdex (atoms : U128)
deriving DecidableEq

inductive StakeCommand where
  | stake (amount : U128)
  | unstake (amount : U128)
  | claim
deriving DecidableEq

inductive LiquidationCommand where
  | direct (id : Id)
  | lowest (n : U32)
  | batch (ids : List Id)
deriving DecidableEq

structure RedemptionCommand where
  maximum : U128
  visits : U32
  first : Option Id
  partialNicr : U128
  upper : Option Id
  lower : Option Id
  maxFee : U128
  minOut : U128
deriving DecidableEq

inductive Command where
  | «open» (collateral principal maxFee : U128) (upper lower : Option Id)
  | adjust (collateral debt : Delta) (maxFee : U128) (upper lower : Option Id)
  | close
  | claimSurplus
  | pool (command : Stability.Command)
  | moveGain (upper lower : Option Id)
  | stake (command : StakeCommand)
  | liquidate (command : LiquidationCommand)
  | redeem (command : RedemptionCommand)
  | observeOracle
  | advanceClock
  | fund (event recipient : Id) (quantity : Quantity)
  | changeParameters (policy : Id) (version : U64) (minimumNet reserve : U128)
  | releaseExposure (events : List Id)
deriving DecidableEq

/-- what a proof is about -/
inductive Domain where
  | actor
  | clock
  | oracle
  | custody
  | allocation
  | drip
  | funding
  | parameterPolicy
  | exposureRelease
deriving DecidableEq

structure Proof where
  domain : Domain
  bytes : Bytes
deriving DecidableEq

structure Request where
  actor : Id
  nonce : U64
  command : Command
  clock : Clock
  oracle : Option OracleReceipt
  backing : Backing
  allocation : Option Allocation
  drip : Option Drip
  proofs : List Proof
deriving DecidableEq

/-! ## Writing -/

namespace W

/-- a word of `8 * w` bits -/
def word {w : ℕ} (x : Unsigned (8 * w)) : Bytes := beBytes w x.val

def u32 (x : U32) : Bytes := word (w := 4) x

def u64 (x : U64) : Bytes := word (w := 8) x

def n (x : U128) : Bytes := word (w := 16) x

def id (x : Id) : Bytes := word (w := 32) x

def bool (x : Bool) : Bytes := [if x then 1 else 0]

/-- a length of at most `usize` is a `u64` -/
def len (n : ℕ) : Bytes := beBytes 8 n

def blob (b : Bytes) : Bytes := [len b.length, b].flatten

def opt {α : Type} (f : α → Bytes) (x : Option α) : Bytes := [bool x.isSome, x.elim [] f].flatten

def vec {α : Type} (f : α → Bytes) (xs : List α) : Bytes := counted 8 f xs

def clock (c : Clock) : Bytes := [id c.backend, id c.finality, id c.sync, u64 c.epoch, u64 c.watermark].flatten

def backing (c : Backing) : Bytes :=
  [id c.custody, id c.funding, id c.supplyRoot, n c.agrs, n c.zdex, n c.zdexSupply, n c.zdexBurned].flatten

def delta : Delta → Bytes
  | .none => [[0]].flatten
  | .add x => [[1], n x].flatten
  | .remove x => [[2], n x].flatten

def quantity : Quantity → Bytes
  | .zusd x => [[0], n x].flatten
  | .agrs x => [[1], n x].flatten
  | .zdex x => [[2], n x].flatten

def record (r : PriceRecord) : Bytes :=
  [id r.aggregate, u64 r.round, u64 r.publishedEpoch, u64 r.earliestCommitEpoch, u64 r.disputeUntil, n r.valueE8,
    u64 r.observedEpoch, u64 r.medianSeconds, u64 r.committedEpoch, n r.deviation].flatten

def status : Vaults.PriceStatus → Bytes
  | .usable => [0]
  | .unavailable => [1]
  | .stale => [2]
  | .disputed => [3]
  | .uncertain => [4]
  | .overBudget => [5]

def view (v : PriceView) : Bytes :=
  [opt record v.committed, opt record v.pending, bool v.pendingBlocked, status v.status, n v.capacity,
    id v.capacityRoot, blob v.aggregateBytes].flatten

def action : OracleAction → Bytes
  | .use => [0]
  | .importPending => [1]
  | .commitMatured => [2]
  | .initializeFirstMatured => [3]
  | .refreshStatus => [4]

def oracle (r : OracleReceipt) : Bytes := [id r.before, id r.after, opt id r.event, action r.action, view r.view].flatten

def poolCommand : Stability.Command → Bytes
  | .deposit amount tag => [[0], n amount, opt id tag].flatten
  | .withdraw x => [[1], n x].flatten
  | .claim => [[2]].flatten
  | .moveGainToVault => [[3]].flatten
  | .registerFrontEnd k => [[4], n k].flatten

def stakeCommand : StakeCommand → Bytes
  | .stake x => [[0], n x].flatten
  | .unstake x => [[1], n x].flatten
  | .claim => [[2]].flatten

def liquidationCommand : LiquidationCommand → Bytes
  | .direct x => [[0], id x].flatten
  | .lowest x => [[1], u32 x].flatten
  | .batch ids => [[2], vec id ids].flatten

def redemptionCommand (c : RedemptionCommand) : Bytes :=
  [n c.maximum, u32 c.visits, opt id c.first, n c.partialNicr, opt id c.upper, opt id c.lower, n c.maxFee,
    n c.minOut].flatten

def command : Command → Bytes
  | .open collateral principal maxFee upper lower =>
    [[0], n collateral, n principal, n maxFee, opt id upper, opt id lower].flatten
  | .adjust collateral debt maxFee upper lower =>
    [[1], delta collateral, delta debt, n maxFee, opt id upper, opt id lower].flatten
  | .close => [[2]].flatten
  | .claimSurplus => [[3]].flatten
  | .pool c => [[4], poolCommand c].flatten
  | .moveGain upper lower => [[5], opt id upper, opt id lower].flatten
  | .stake c => [[6], stakeCommand c].flatten
  | .liquidate c => [[7], liquidationCommand c].flatten
  | .redeem c => [[8], redemptionCommand c].flatten
  | .observeOracle => [[9]].flatten
  | .advanceClock => [[10]].flatten
  | .fund event recipient q => [[11], id event, id recipient, quantity q].flatten
  | .changeParameters policy version minimumNet reserve =>
    [[12], id policy, u64 version, n minimumNet, n reserve].flatten
  | .releaseExposure events => [[13], vec id events].flatten

def allocation (a : Allocation) : Bytes := [id a.root, n a.capacity].flatten

def drip (d : Drip) : Bytes := [id d.event, n d.amount, blob d.next].flatten

/-- `b"zusd.step4.request/1\0"` -/
def requestLabel : Bytes :=
  [122, 117, 115, 100, 46, 115, 116, 101, 112, 52, 46, 114, 101, 113, 117, 101, 115, 116, 47, 49, 0]

/-- `b"zusd.step4.signed/1\0"` -/
def signedLabel : Bytes :=
  [122, 117, 115, 100, 46, 115, 116, 101, 112, 52, 46, 115, 105, 103, 110, 101, 100, 47, 49, 0]

def payloadFields (r : Request) : Bytes :=
  [id r.actor, u64 r.nonce, command r.command, clock r.clock, opt oracle r.oracle, backing r.backing,
    opt allocation r.allocation, opt drip r.drip].flatten

def payload (r : Request) : Bytes := requestLabel ++ payloadFields r

def domain : Domain → Bytes
  | .actor => [0]
  | .clock => [1]
  | .oracle => [2]
  | .custody => [3]
  | .allocation => [4]
  | .drip => [5]
  | .funding => [6]
  | .parameterPolicy => [7]
  | .exposureRelease => [8]

def proof (p : Proof) : Bytes := [domain p.domain, blob p.bytes].flatten

def requestFields (r : Request) : Bytes := [blob (payload r), vec proof r.proofs].flatten

def request (r : Request) : Bytes := signedLabel ++ requestFields r

end W

/-! ## Reading -/

abbrev R := Lib.Cursor Failure UInt8

namespace R

/-- the rest of a string behind its label -/
def new (b label : Bytes) (cap : ℕ) : Except Failure Bytes :=
  if cap < b.length ∨ ¬label <+: b then .error .canonical else .ok (b.drop label.length)

/-- `checked_add` and `get`: both refuse what lies behind the end -/
def take (n : ℕ) : R Bytes := fun _ rest => if n ≤ rest.length then .ok (rest.take n, rest.drop n) else .error .canonical

def u8 : R UInt8 := do return (← take 1).headD 0

def bool : R Bool := do
  match (← u8).toNat with
  | 0 => return false
  | 1 => return true
  | _ => .fail .canonical

/-- a word of `8 * w` bits; `take` gives as many bytes as it is asked for -/
def word (w : ℕ) : R (Unsigned (8 * w)) := do
  let b ← take w
  match Unsigned.ofNat? (ofBeBytes b) with
  | some x => return x
  | none => .fail .canonical

def u32 : R U32 := word 4

def u64 : R U64 := word 8

def n : R U128 := word 16

def id : R Id := word 32

def count : R ℕ := do
  let n ← u64
  let cap ← .cap
  let remaining ← .remaining
  if cap < n.val ∨ remaining < n.val then .fail .capacity else return n.val

def blob : R Bytes := do take (← count)

def opt {α : Type} (f : R α) : R (Option α) := do
  if ← bool then return some (← f) else return none

def clock : R Clock := do
  return { backend := ← id, finality := ← id, sync := ← id, epoch := ← u64, watermark := ← u64 }

def backing : R Backing := do
  return {
    custody := ← id, funding := ← id, supplyRoot := ← id, agrs := ← n, zdex := ← n, zdexSupply := ← n
    zdexBurned := ← n }

def delta : R Delta := do
  match (← u8).toNat with
  | 0 => return .none
  | 1 => return .add (← n)
  | 2 => return .remove (← n)
  | _ => .fail .canonical

def quantity : R Quantity := do
  let tag ← u8
  let n ← n
  match tag.toNat with
  | 0 => return .zusd n
  | 1 => return .agrs n
  | 2 => return .zdex n
  | _ => .fail .canonical

def record : R PriceRecord := do
  return {
    aggregate := ← id, round := ← u64, publishedEpoch := ← u64, earliestCommitEpoch := ← u64, disputeUntil := ← u64
    valueE8 := ← n, observedEpoch := ← u64, medianSeconds := ← u64, committedEpoch := ← u64, deviation := ← n }

def status : R Vaults.PriceStatus := do
  match (← u8).toNat with
  | 0 => return .usable
  | 1 => return .unavailable
  | 2 => return .stale
  | 3 => return .disputed
  | 4 => return .uncertain
  | 5 => return .overBudget
  | _ => .fail .canonical

def view : R PriceView := do
  return {
    committed := ← opt record, pending := ← opt record, pendingBlocked := ← bool, status := ← status, capacity := ← n
    capacityRoot := ← id, aggregateBytes := ← blob }

def action : R OracleAction := do
  match (← u8).toNat with
  | 0 => return .use
  | 1 => return .importPending
  | 2 => return .commitMatured
  | 3 => return .initializeFirstMatured
  | 4 => return .refreshStatus
  | _ => .fail .canonical

def oracle : R OracleReceipt := do
  return { before := ← id, after := ← id, event := ← opt id, action := ← action, view := ← view }

def pool : R Stability.Command := do
  match (← u8).toNat with
  | 0 => return .deposit (← n) (← opt id)
  | 1 => return .withdraw (← n)
  | 2 => return .claim
  | 3 => return .moveGainToVault
  | 4 => return .registerFrontEnd (← n)
  | _ => .fail .canonical

def stake : R StakeCommand := do
  match (← u8).toNat with
  | 0 => return .stake (← n)
  | 1 => return .unstake (← n)
  | 2 => return .claim
  | _ => .fail .canonical

def ids : R (List Id) := do
  let n ← count
  let remaining ← .remaining
  if remaining / 32 < n then .fail .canonical else id.times n

def liquidation : R LiquidationCommand := do
  match (← u8).toNat with
  | 0 => return .direct (← id)
  | 1 => return .lowest (← u32)
  | 2 => return .batch (← ids)
  | _ => .fail .canonical

def redemption : R RedemptionCommand := do
  return {
    maximum := ← n, visits := ← u32, first := ← opt id, partialNicr := ← n, upper := ← opt id, lower := ← opt id
    maxFee := ← n, minOut := ← n }

def command : R Command := do
  match (← u8).toNat with
  | 0 => return .open (← n) (← n) (← n) (← opt id) (← opt id)
  | 1 => return .adjust (← delta) (← delta) (← n) (← opt id) (← opt id)
  | 2 => return .close
  | 3 => return .claimSurplus
  | 4 => return .pool (← pool)
  | 5 => return .moveGain (← opt id) (← opt id)
  | 6 => return .stake (← stake)
  | 7 => return .liquidate (← liquidation)
  | 8 => return .redeem (← redemption)
  | 9 => return .observeOracle
  | 10 => return .advanceClock
  | 11 => return .fund (← id) (← id) (← quantity)
  | 12 => return .changeParameters (← id) (← u64) (← n) (← n)
  | 13 => return .releaseExposure (← ids)
  | _ => .fail .canonical

def allocation : R Allocation := do return { root := ← id, capacity := ← n }

def drip : R Drip := do return { event := ← id, amount := ← n, next := ← blob }

/-- the request of a payload, still without proofs -/
def payload : R Request := do
  return {
    actor := ← id, nonce := ← u64, command := ← command, clock := ← clock, oracle := ← opt oracle
    backing := ← backing, allocation := ← opt allocation, drip := ← opt drip, proofs := [] }

def domain : R Domain := do
  match (← u8).toNat with
  | 0 => return .actor
  | 1 => return .clock
  | 2 => return .oracle
  | 3 => return .custody
  | 4 => return .allocation
  | 5 => return .drip
  | 6 => return .funding
  | 7 => return .parameterPolicy
  | 8 => return .exposureRelease
  | _ => .fail .canonical

def proof : R Proof := do return { domain := ← domain, bytes := ← blob }

def proofs : R (List Proof) := do
  let n ← count
  if 9 < n then .fail .canonical else proof.times n

end R

def decodeRequest (b : Bytes) (cap : ℕ) : Except Failure Request := do
  let rest ← R.new b W.signedLabel cap
  let (data, rest) ← R.blob cap rest
  let fields ← R.new data W.requestLabel cap
  let (out, end') ← R.payload cap fields
  ensure (end' = []) .canonical
  let (proofs, rest) ← R.proofs cap rest
  ensure (rest = []) .canonical
  let out := { out with proofs }
  ensure (W.request out = b) .canonical
  return out

/-! ## Every record is read back -/

section Records

variable {bound : ℕ}

theorem returns_take (b : Bytes) : Returns bound (R.take b.length) b b := by
  intro cap rest _ _
  unfold R.take
  rw [if_pos (by simp), List.take_left, List.drop_left]

theorem returns_u8 (t : UInt8) : Returns bound R.u8 [t] t := (returns_take [t]).map fun b => b.headD 0

theorem returns_bool (x : Bool) : Returns bound R.bool (W.bool x) x := by
  intro cap rest hcap hlen
  unfold R.bool
  rw [W.bool, Lib.Cursor.bind_ok (returns_u8 _ cap rest hcap hlen)]
  cases x
  · rfl
  · rfl

theorem returns_word {w : ℕ} (x : Unsigned (8 * w)) : Returns bound (R.word w) (W.word x) x := by
  intro cap rest hcap hlen
  have hfits : x.val < 256 ^ w := by
    have h := x.fits
    rwa [Nat.pow_mul] at h
  have hreturns : Returns bound (R.take (W.word x).length) (W.word x) (W.word x) := returns_take (W.word x)
  have htake := hreturns cap rest hcap hlen
  have hwidth : (W.word x).length = w := beBytes_length w x.val
  rw [hwidth] at htake
  unfold R.word
  rw [Lib.Cursor.bind_ok htake, W.word, ofBeBytes_beBytes_of_lt hfits, Unsigned.ofNat?_eq_some.2 rfl]
  rfl

theorem returns_u32 (x : U32) : Returns bound R.u32 (W.u32 x) x := returns_word (w := 4) x

theorem returns_u64 (x : U64) : Returns bound R.u64 (W.u64 x) x := returns_word (w := 8) x

theorem returns_n (x : U128) : Returns bound R.n (W.n x) x := returns_word (w := 16) x

theorem returns_id (x : Id) : Returns bound R.id (W.id x) x := returns_word (w := 32) x

theorem returns_opt {α : Type} {f : R α} {enc : α → Bytes} (h : ∀ a, Returns bound f (enc a) a) (x : Option α) :
    Returns bound (R.opt f) (W.opt enc x) x := by
  cases x with
  | none => exact (returns_bool false).cons (.nil none)
  | some a => exact (returns_bool true).cons ((h a).cons (.nil (some a)))

theorem count_ok {n cap : ℕ} {rest : Bytes} (hcap : cap ≤ usizeMax) (hn : n ≤ cap) (hrest : n ≤ rest.length)
    (hlen : (W.len n ++ rest).length ≤ cap) : R.count cap (W.len n ++ rest) = .ok (n, rest) := by
  have hfits : n < 2 ^ 64 := by
    unfold usizeMax at hcap
    omega
  have hreturns : Returns usizeMax R.u64 (W.len n) ⟨n, hfits⟩ := returns_u64 ⟨n, hfits⟩
  have hword : R.u64 cap (W.len n ++ rest) = .ok (⟨n, hfits⟩, rest) := hreturns cap rest hcap hlen
  have hpasses : ¬(cap < n ∨ rest.length < n) := by omega
  unfold R.count
  rw [Lib.Cursor.bind_ok hword, Lib.Cursor.bind_ok (show Lib.Cursor.cap cap rest = .ok (cap, rest) from rfl),
    Lib.Cursor.bind_ok (show Lib.Cursor.remaining cap rest = .ok (rest.length, rest) from rfl), if_neg hpasses]
  rfl

theorem returns_blob (b : Bytes) : Returns usizeMax R.blob (W.blob b) b := by
  intro cap rest hcap hlen
  have hword : W.blob b ++ rest = W.len b.length ++ (b ++ rest) := by simp [W.blob]
  rw [hword] at hlen ⊢
  have hparts := hlen
  rw [List.length_append, List.length_append] at hparts
  have hrest : b.length ≤ (b ++ rest).length := by simp
  unfold R.blob
  rw [Lib.Cursor.bind_ok (count_ok hcap (by omega) hrest hlen)]
  have hreturns : Returns usizeMax (R.take b.length) b b := returns_take b
  exact hreturns cap rest hcap (by rw [List.length_append]; omega)

/-- a clock is read back -/
theorem returns_clock (c : Clock) : Returns bound R.clock (W.clock c) c :=
  (returns_id _).cons <| (returns_id _).cons <| (returns_id _).cons <| (returns_u64 _).cons <|
    (returns_u64 _).cons (.nil _)

/-- a backing is read back -/
theorem returns_backing (c : Backing) : Returns bound R.backing (W.backing c) c :=
  (returns_id _).cons <| (returns_id _).cons <| (returns_id _).cons <| (returns_n _).cons <| (returns_n _).cons <|
    (returns_n _).cons <| (returns_n _).cons (.nil _)

theorem returns_delta (d : Delta) : Returns bound R.delta (W.delta d) d := by
  cases d with
  | none => exact (returns_u8 0).cons (.nil _)
  | add x => exact (returns_u8 1).cons ((returns_n x).cons (.nil _))
  | remove x => exact (returns_u8 2).cons ((returns_n x).cons (.nil _))

/-- a quantity is read back -/
theorem returns_quantity (q : Quantity) : Returns bound R.quantity (W.quantity q) q := by
  cases q with
  | zusd x => exact (returns_u8 0).cons ((returns_n x).cons (.nil _))
  | agrs x => exact (returns_u8 1).cons ((returns_n x).cons (.nil _))
  | zdex x => exact (returns_u8 2).cons ((returns_n x).cons (.nil _))

theorem returns_record (r : PriceRecord) : Returns bound R.record (W.record r) r :=
  (returns_id _).cons <| (returns_u64 _).cons <| (returns_u64 _).cons <| (returns_u64 _).cons <|
    (returns_u64 _).cons <| (returns_n _).cons <| (returns_u64 _).cons <| (returns_u64 _).cons <|
    (returns_u64 _).cons <| (returns_n _).cons (.nil _)

theorem returns_status (x : Vaults.PriceStatus) : Returns bound R.status (W.status x) x := by
  cases x with
  | usable => exact (returns_u8 0).last (.nil _)
  | unavailable => exact (returns_u8 1).last (.nil _)
  | stale => exact (returns_u8 2).last (.nil _)
  | disputed => exact (returns_u8 3).last (.nil _)
  | uncertain => exact (returns_u8 4).last (.nil _)
  | overBudget => exact (returns_u8 5).last (.nil _)

/-- a price view is read back -/
theorem returns_view (v : PriceView) : Returns usizeMax R.view (W.view v) v :=
  (returns_opt returns_record _).cons <| (returns_opt returns_record _).cons <| (returns_bool _).cons <|
    (returns_status _).cons <| (returns_n _).cons <| (returns_id _).cons <| (returns_blob _).cons (.nil _)

theorem returns_action (x : OracleAction) : Returns bound R.action (W.action x) x := by
  cases x with
  | use => exact (returns_u8 0).last (.nil _)
  | importPending => exact (returns_u8 1).last (.nil _)
  | commitMatured => exact (returns_u8 2).last (.nil _)
  | initializeFirstMatured => exact (returns_u8 3).last (.nil _)
  | refreshStatus => exact (returns_u8 4).last (.nil _)

theorem returns_oracle (r : OracleReceipt) : Returns usizeMax R.oracle (W.oracle r) r :=
  (returns_id _).cons <| (returns_id _).cons <| (returns_opt returns_id _).cons <| (returns_action _).cons <|
    (returns_view _).cons (.nil _)

theorem returns_pool (c : Stability.Command) : Returns bound R.pool (W.poolCommand c) c := by
  cases c with
  | deposit amount tag => exact (returns_u8 0).cons ((returns_n _).cons ((returns_opt returns_id _).cons (.nil _)))
  | withdraw x => exact (returns_u8 1).cons ((returns_n x).cons (.nil _))
  | claim => exact (returns_u8 2).cons (.nil _)
  | moveGainToVault => exact (returns_u8 3).cons (.nil _)
  | registerFrontEnd k => exact (returns_u8 4).cons ((returns_n k).cons (.nil _))

theorem returns_stake (c : StakeCommand) : Returns bound R.stake (W.stakeCommand c) c := by
  cases c with
  | stake x => exact (returns_u8 0).cons ((returns_n x).cons (.nil _))
  | unstake x => exact (returns_u8 1).cons ((returns_n x).cons (.nil _))
  | claim => exact (returns_u8 2).cons (.nil _)

theorem id_length (x : Id) : (W.id x).length = 32 := beBytes_length 32 x.val

theorem ids_length (ids : List Id) : (ids.map W.id).flatten.length = 32 * ids.length := by
  induction ids with
  | nil => rfl
  | cons x ids ih =>
    rw [List.map_cons, List.flatten_cons, List.length_append, id_length, ih, List.length_cons]
    omega

theorem returns_ids (ids : List Id) : Returns usizeMax R.ids (W.vec W.id ids) ids := by
  intro cap rest hcap hlen
  have hword : W.vec W.id ids ++ rest = W.len ids.length ++ ((ids.map W.id).flatten ++ rest) := by
    simp [W.vec, counted, W.len]
  rw [hword] at hlen ⊢
  have hparts := hlen
  rw [List.length_append, List.length_append, ids_length] at hparts
  have hrest : ((ids.map W.id).flatten ++ rest).length = 32 * ids.length + rest.length := by
    rw [List.length_append, ids_length]
  unfold R.ids
  rw [Lib.Cursor.bind_ok (count_ok hcap (by omega) (by omega) hlen),
    Lib.Cursor.bind_ok (show Lib.Cursor.remaining cap _ = .ok _ from rfl), if_neg (by omega)]
  exact Returns.times returns_id ids cap rest hcap (by omega)

theorem returns_liquidation (c : LiquidationCommand) : Returns usizeMax R.liquidation (W.liquidationCommand c) c := by
  cases c with
  | direct x => exact (returns_u8 0).cons ((returns_id x).cons (.nil _))
  | lowest x => exact (returns_u8 1).cons ((returns_u32 x).cons (.nil _))
  | batch ids => exact (returns_u8 2).cons ((returns_ids ids).cons (.nil _))

theorem returns_redemption (c : RedemptionCommand) : Returns bound R.redemption (W.redemptionCommand c) c :=
  (returns_n _).cons <| (returns_u32 _).cons <| (returns_opt returns_id _).cons <| (returns_n _).cons <|
    (returns_opt returns_id _).cons <| (returns_opt returns_id _).cons <| (returns_n _).cons <|
    (returns_n _).cons (.nil _)

theorem returns_command (c : Command) : Returns usizeMax R.command (W.command c) c := by
  cases c with
  | «open» collateral principal maxFee upper lower =>
    exact (returns_u8 0).cons <| (returns_n _).cons <| (returns_n _).cons <| (returns_n _).cons <|
      (returns_opt returns_id _).cons <| (returns_opt returns_id _).cons (.nil _)
  | adjust collateral debt maxFee upper lower =>
    exact (returns_u8 1).cons <| (returns_delta _).cons <| (returns_delta _).cons <| (returns_n _).cons <|
      (returns_opt returns_id _).cons <| (returns_opt returns_id _).cons (.nil _)
  | close => exact (returns_u8 2).cons (.nil _)
  | claimSurplus => exact (returns_u8 3).cons (.nil _)
  | pool c => exact (returns_u8 4).cons ((returns_pool c).cons (.nil _))
  | moveGain upper lower =>
    exact (returns_u8 5).cons ((returns_opt returns_id _).cons ((returns_opt returns_id _).cons (.nil _)))
  | stake c => exact (returns_u8 6).cons ((returns_stake c).cons (.nil _))
  | liquidate c => exact (returns_u8 7).cons ((returns_liquidation c).cons (.nil _))
  | redeem c => exact (returns_u8 8).cons ((returns_redemption c).cons (.nil _))
  | observeOracle => exact (returns_u8 9).cons (.nil _)
  | advanceClock => exact (returns_u8 10).cons (.nil _)
  | fund event recipient q =>
    exact (returns_u8 11).cons ((returns_id _).cons ((returns_id _).cons ((returns_quantity q).cons (.nil _))))
  | changeParameters policy version minimumNet reserve =>
    exact (returns_u8 12).cons <| (returns_id _).cons <| (returns_u64 _).cons <| (returns_n _).cons <|
      (returns_n _).cons (.nil _)
  | releaseExposure events => exact (returns_u8 13).cons ((returns_ids events).cons (.nil _))

theorem returns_allocation (a : Allocation) : Returns bound R.allocation (W.allocation a) a :=
  (returns_id _).cons ((returns_n _).cons (.nil _))

theorem returns_drip (d : Drip) : Returns usizeMax R.drip (W.drip d) d :=
  (returns_id _).cons ((returns_n _).cons ((returns_blob _).cons (.nil _)))

theorem returns_payload (r : Request) : Returns usizeMax R.payload (W.payloadFields r) { r with proofs := [] } :=
  (returns_id _).cons <| (returns_u64 _).cons <| (returns_command _).cons <| (returns_clock _).cons <|
    (returns_opt returns_oracle _).cons <| (returns_backing _).cons <| (returns_opt returns_allocation _).cons <|
    (returns_opt returns_drip _).cons (.nil _)

theorem returns_domain (x : Domain) : Returns bound R.domain (W.domain x) x := by
  cases x with
  | actor => exact (returns_u8 0).last (.nil _)
  | clock => exact (returns_u8 1).last (.nil _)
  | oracle => exact (returns_u8 2).last (.nil _)
  | custody => exact (returns_u8 3).last (.nil _)
  | allocation => exact (returns_u8 4).last (.nil _)
  | drip => exact (returns_u8 5).last (.nil _)
  | funding => exact (returns_u8 6).last (.nil _)
  | parameterPolicy => exact (returns_u8 7).last (.nil _)
  | exposureRelease => exact (returns_u8 8).last (.nil _)

theorem returns_proof (p : Proof) : Returns usizeMax R.proof (W.proof p) p :=
  (returns_domain _).cons ((returns_blob _).cons (.nil _))

end Records

/-! ## Requests are read back -/

theorem new_ok {label rest : Bytes} {cap : ℕ} (hlen : (label ++ rest).length ≤ cap) :
    R.new (label ++ rest) label cap = .ok rest := by
  have hpasses : ¬(cap < (label ++ rest).length ∨ ¬label <+: label ++ rest) := by
    simp only [not_or, not_lt, not_not]
    exact ⟨hlen, List.prefix_append _ _⟩
  unfold R.new
  rw [if_neg hpasses, List.drop_left]

theorem proof_pos (p : Proof) : 0 < (W.proof p).length := by
  have hword : W.proof p = W.domain p.domain ++ (W.len p.bytes.length ++ p.bytes) := by simp [W.proof, W.blob]
  rw [hword, List.length_append, List.length_append, W.len, beBytes_length]
  omega

theorem proofs_ok {ps : List Proof} {cap : ℕ} (hcap : cap ≤ usizeMax) (hps : ps.length ≤ 9)
    (hlen : (W.vec W.proof ps).length ≤ cap) : R.proofs cap (W.vec W.proof ps) = .ok (ps, []) := by
  have hword : W.vec W.proof ps = W.len ps.length ++ ((ps.map W.proof).flatten ++ []) := by
    simp [W.vec, counted, W.len]
  rw [hword] at hlen ⊢
  have hcount := length_le_flatten proof_pos ps
  have hparts := hlen
  rw [List.length_append, List.length_append] at hparts
  unfold R.proofs
  rw [Lib.Cursor.bind_ok (count_ok hcap (by omega) (by rw [List.append_nil]; exact hcount) hlen), if_neg (by omega)]
  exact Returns.times returns_proof ps cap [] hcap (by rw [List.length_append]; omega)

/-- **The round trip.** -/
theorem decode_request {r : Request} {cap : ℕ} (hcap : cap ≤ usizeMax) (hproofs : r.proofs.length ≤ 9)
    (hlen : (W.request r).length ≤ cap) : decodeRequest (W.request r) cap = .ok r := by
  have hfields : W.requestFields r = W.blob (W.payload r) ++ W.vec W.proof r.proofs := by simp [W.requestFields]
  have hparts := hlen
  rw [W.request, hfields, List.length_append, List.length_append] at hparts
  have hpayload : (W.payload r).length ≤ cap := by
    have hblob : (W.blob (W.payload r)).length = 8 + (W.payload r).length := by simp [W.blob, W.len]
    omega
  have hdata : R.blob cap (W.requestFields r) = .ok (W.payload r, W.vec W.proof r.proofs) := by
    rw [hfields]
    exact returns_blob (W.payload r) cap _ hcap (by rw [List.length_append]; omega)
  have hout : R.payload cap (W.payloadFields r) = .ok ({ r with proofs := [] }, []) := by
    have hinner := returns_payload r cap [] hcap (by
      rw [List.append_nil]
      rw [W.payload, List.length_append] at hpayload
      omega)
    rwa [List.append_nil] at hinner
  unfold decodeRequest
  rw [W.request, new_ok hlen]
  simp only [ok_bind, hdata]
  rw [W.payload, new_ok hpayload]
  simp only [ok_bind, hout, proofs_ok hcap hproofs (by omega : (W.vec W.proof r.proofs).length ≤ cap)]
  simp [W.request]
  rfl

/-- **Requests.** A decoded request is written as its own bytes, within the cap -/
theorem decodeRequest_ok {b : Bytes} {cap : ℕ} {r : Request} (h : decodeRequest b cap = .ok r) :
    W.request r = b ∧ b.length ≤ cap := by
  unfold decodeRequest at h
  simp only [bind_eq_ok, ensure_eq_ok, exists_const] at h
  obtain ⟨rest, hnew, ⟨data, rest'⟩, -, fields, -, ⟨out, last⟩, -, -, ⟨proofs, rest''⟩, -, -, hsame, hout⟩ := h
  cases hout
  refine ⟨hsame, ?_⟩
  unfold R.new at hnew
  split_ifs at hnew with hrefused
  exact not_lt.1 fun hlt => hrefused (.inl hlt)

/-! ## Equal encodings -/

/-- a string shows itself -/
theorem shows_blob : Shows usizeMax W.blob fun b => b := Returns.shows returns_blob

/-- a nested string shows what it holds -/
theorem shows_nested {α γ : Type} {enc : α → Bytes} {view : α → γ} (h : Shows usizeMax enc view) :
    Shows usizeMax (fun a => W.blob (enc a)) view := by
  intro a b r s hlen heq
  obtain ⟨hword, hrest⟩ := shows_blob hlen heq
  refine ⟨h.same ?_ hword, hrest⟩
  simp only [W.blob, List.flatten_cons, List.length_append] at hlen
  omega

theorem usizeMax_lt : usizeMax < 256 ^ 8 := by decide

/-- **Requests** show themselves -/
theorem shows_request : Shows usizeMax W.request fun r => r := by
  have hpayload : Shows usizeMax W.payload fun r => { r with proofs := [] } := (Returns.shows returns_payload).behind _
  have hproofs : Shows usizeMax (fun r : Request => W.vec W.proof r.proofs) fun r => r.proofs :=
    (Shows.counted (Returns.shows returns_proof) proof_pos usizeMax_lt).of Request.proofs
  refine Shows.imp (((shows_nested hpayload).cons (hproofs.cons .nil)).behind W.signedLabel) fun a b h => ?_
  cases a
  cases b
  simp only [Prod.mk.injEq, Request.mk.injEq, and_true] at h ⊢
  exact ⟨h.1.1, h.1.2.1, h.1.2.2.1, h.1.2.2.2.1, h.1.2.2.2.2.1, h.1.2.2.2.2.2.1, h.1.2.2.2.2.2.2.1,
    h.1.2.2.2.2.2.2.2, h.2⟩

end ZenoFcis.Zusd.Application
