/-
Checkpoints of the policy monitors and their restoration (`effects/durable.rs`).

Model: `checkpoint` is the bytes it writes, the checksum last; `restore` reads them back from the front, passing on what
is left.

Results: `restore_checkpoint` and `restore_release`. A checkpoint of monitors that keep their promises is restored to
them, and a release record to the monitors before its last key was reserved. `Lifetime.refuses`: a restored reservation
refuses every send under its key.
-/
import ZenoFcis.Effects.Policy
import ZenoFcis.Lib.Except

namespace ZenoFcis.Effects

open Lib Lib.Except

namespace Durability

/-- maximum checkpoint size, including framing and checksum -/
def maxBytes : ℕ := 1048576

/-- maximum number of policies -/
def maxPolicies : ℕ := 64

def magic : Bytes := ascii "ZFEFD001"

/-- fail-closed restoration or persistence failure -/
inductive Error where
  | storage
  | missing
  | corrupt
  | binding
  | capacity
  | conflict
  | stopped
deriving DecidableEq

/-! ## Writing -/

/-- tag 1 records Suspend and complete-call NotInvoked for the last key -/
def releaseBytes : Option Hash32 → Bytes
  | none => [0]
  | some key => 1 :: key.bytes

def monitorBytes (build : Build) (monitor : Monitor) : Bytes :=
  (monitor.identity build).bytes ++ frame monitor.state.bytes

/-- a checkpoint without its checksum -/
def body (build : Build) (scope : Hash32) (monitors : List Monitor) (release : Option Hash32) : Bytes :=
  magic ++ (build.durableSource.bytes ++ (scope.bytes ++ (releaseBytes release ++ (beBytes 8 monitors.length ++
    monitors.flatMap (monitorBytes build)))))

def checkpoint (build : Build) (scope : Hash32) (monitors : List Monitor) (release : Option Hash32) :
    Except Error Bytes :=
  let out := body build scope monitors release
  let out := out ++ (build.sha256 out).bytes
  if out.length > maxBytes then .error .capacity else .ok out

/-! ## Reading -/

def take (bytes : Bytes) (count : ℕ) : Except Error (Bytes × Bytes) :=
  if count ≤ bytes.length then .ok (bytes.take count, bytes.drop count) else .error .corrupt

def number (bytes : Bytes) : Except Error (ℕ × Bytes) := do
  let (raw, bytes) ← take bytes 8
  return (ofBeBytes raw, bytes)

def takeHash (bytes : Bytes) : Except Error (Hash32 × Bytes) :=
  if h : 32 ≤ bytes.length then .ok (⟨bytes.take 32, by rw [List.length_take, min_eq_left h]⟩, bytes.drop 32)
  else .error .corrupt

/-- the key projection of a send; it never reaches a terminal -/
def keyOperation (scope id : Hash32) : Operation :=
  .send ⟨scope, 0⟩ ⟨id, 0, 0, 0, [], [], Hash32.zero⟩

/-- replays `count` keys: the state after them, and the state before the last one -/
def restoreKeys (policy : Policy) (scope : Hash32) (release : Option Hash32) :
    ℕ → Bytes → PolicyState → PolicyState → Except Error (PolicyState × PolicyState)
  | 0, _, state, preceding => .ok (state, preceding)
  | count + 1, keys, state, _ => do
    let (store, keys) ← takeHash keys
    let (key, keys) ← takeHash keys
    ensure (store = scope) Error.binding
    let (next, verdict) := policy.step state (keyOperation store key) none
    ensure (verdict = .allow) Error.corrupt
    ensure (¬ (count = 0 ∧ release.any (· ≠ key))) Error.corrupt
    restoreKeys policy scope release count keys next state

def restoreMonitor (build : Build) (scope : Hash32) (release : Option Hash32) (policy : Policy) (input : Bytes) :
    Except Error (Monitor × Bytes) := do
  let monitor := Monitor.new policy
  let (identity, input) ← takeHash input
  ensure (identity = monitor.identity build) Error.binding
  let (size, input) ← number input
  let (state, input) ← take input size
  let (count, keys) ← number state
  ensure (count * 64 ≤ usizeMax ∧ count * 64 = keys.length) Error.corrupt
  let guard := policy.isAtMostOne
  ensure (¬ (guard = false ∧ count ≠ 0 ∨ guard = true ∧ release.isSome ∧ count = 0)) Error.corrupt
  let (next, preceding) ← restoreKeys policy scope release count keys monitor.state monitor.state
  ensure (next.bytes = state) Error.corrupt
  return (⟨policy, if guard = true ∧ release.isSome then preceding else next⟩, input)

def restoreMonitors (build : Build) (scope : Hash32) (release : Option Hash32) :
    List Policy → Bytes → Except Error (List Monitor × Bytes)
  | [], input => .ok ([], input)
  | policy :: policies, input => do
    let (monitor, input) ← restoreMonitor build scope release policy input
    let (monitors, input) ← restoreMonitors build scope release policies input
    return (monitor :: monitors, input)

def takeRelease (input : Bytes) : Except Error (Option Hash32 × Bytes) := do
  let (tag, input) ← take input 1
  match tag with
  | [0] => return (none, input)
  | [1] => do
    let (key, input) ← takeHash input
    return (some key, input)
  | _ => .error .corrupt

/-- the pure validator: expected configuration and bytes in, owned monitors out -/
def restore (build : Build) (scope : Hash32) (policies : List Policy) (bytes : Bytes) : Except Error (List Monitor) := do
  ensure (bytes.length ≤ maxBytes ∧ policies.length ≤ maxPolicies) Error.capacity
  ensure (policies.any Policy.isAtMostOne = true) Error.binding
  ensure (32 ≤ bytes.length) Error.corrupt
  let input := bytes.take (bytes.length - 32)
  let checksum := bytes.drop (bytes.length - 32)
  ensure ((build.sha256 input).bytes = checksum) Error.corrupt
  let (start, input) ← take input magic.length
  ensure (start = magic) Error.binding
  let (source, input) ← takeHash input
  ensure (source = build.durableSource) Error.binding
  let (bound, input) ← takeHash input
  ensure (bound = scope) Error.binding
  let (release, input) ← takeRelease input
  let (count, input) ← number input
  ensure (count = policies.length) Error.binding
  let (monitors, input) ← restoreMonitors build scope release policies input
  ensure (input = []) Error.corrupt
  return monitors

/-- explicit genesis bytes for a new reservation lifetime -/
def initial (build : Build) (scope : Hash32) (policies : List Policy) : Except Error Bytes := do
  let bytes ← checkpoint build scope (policies.map Monitor.new) none
  let _ ← restore build scope policies bytes
  return bytes

/-! ## Reading back what was written -/

section Read

variable {build : Build} {scope : Hash32} {release : Option Hash32} {r : Bytes}

theorem take_append (a : Bytes) : take (a ++ r) a.length = .ok (a, r) := by
  rw [take, if_pos (by simp), List.take_left, List.drop_left]

theorem takeHash_append (hash : Hash32) : takeHash (hash.bytes ++ r) = .ok (hash, r) := by
  rw [takeHash, dif_pos (by rw [List.length_append, hash.length_eq]; exact Nat.le_add_right _ _)]
  have hlen := hash.length_eq
  congr 2
  · cases hash
    simp only [Hash32.mk.injEq]
    rw [← hlen, List.take_left]
  · rw [← hlen, List.drop_left]

theorem number_append {n : ℕ} (h : n < 2 ^ 64) : number (beBytes 8 n ++ r) = .ok (n, r) := by
  have htake := take_append (r := r) (beBytes 8 n)
  rw [beBytes_length] at htake
  rw [number, htake, ok_bind]
  show Except.ok (ofBeBytes (beBytes 8 n), r) = _
  rw [ofBeBytes_beBytes_of_lt (by simpa using h)]

theorem state_bytes_length (state : PolicyState) : state.bytes.length = 8 + 64 * state.attempts.length := by
  have hkeys : ∀ keys : List EffectKey, (keys.flatMap keyBytes).length = 64 * keys.length := by
    intro keys
    induction keys with
    | nil => rfl
    | cons key keys ih =>
      rw [List.flatMap_cons, List.length_append, ih, keyBytes, List.length_append, key.1.length_eq, key.2.length_eq,
        List.length_cons]
      ring
  rw [PolicyState.bytes, List.length_append, beBytes_length, hkeys]

/-- what a monitor of this scope promises: a guard holds distinct keys of the scope within its capacity, and an
allowlist holds none -/
def Kept (scope : Hash32) (monitor : Monitor) : Prop :=
  match monitor.policy with
  | .atMostOne capacity => monitor.state.attempts.Nodup ∧ monitor.state.attempts.length ≤ capacity ∧
      ∀ key ∈ monitor.state.attempts, key.1 = scope
  | .allowlist _ => monitor.state.attempts = []

/-- a release certifies the last key of every guard -/
def Releases (release : Option Hash32) (monitor : Monitor) : Prop :=
  monitor.policy.isAtMostOne = true → ∀ id, release = some id → ∃ store, monitor.state.attempts.getLast? = some (store,
    id)

/-- the monitor before its last key was reserved, if that key was released -/
def rollback (release : Option Hash32) (monitor : Monitor) : Monitor :=
  if monitor.policy.isAtMostOne = true ∧ release.isSome then
    { monitor with state := ⟨monitor.state.attempts.dropLast⟩ }
  else monitor

theorem restoreKeys_append {capacity : ℕ} {keys done : List EffectKey} {preceding : PolicyState}
    (hnodup : (done ++ keys).Nodup) (hcapacity : (done ++ keys).length ≤ capacity) (hscope : ∀ key ∈ keys,
      key.1 = scope)
    (hrelease : ∀ id, release = some id → ∀ key, keys.getLast? = some key → key.2 = id) :
    restoreKeys (.atMostOne capacity) scope release keys.length (keys.flatMap keyBytes) ⟨done⟩ preceding =
      .ok (⟨done ++ keys⟩, if keys = [] then preceding else ⟨(done ++ keys).dropLast⟩) := by
  induction keys generalizing done preceding with
  | nil => simp [restoreKeys]
  | cons key keys ih =>
    obtain ⟨store, id⟩ := key
    have hstore : store = scope := hscope (store, id) List.mem_cons_self
    have hfresh : (store, id) ∉ done := by
      intro hmem
      exact (List.nodup_append.1 hnodup).2.2 _ hmem _ List.mem_cons_self rfl
    have hroom : done.length < capacity := by
      rw [List.length_append, List.length_cons] at hcapacity
      omega
    have hlast : ¬ (keys.length = 0 ∧ release.any (· ≠ id)) := by
      rintro ⟨hnil, hany⟩
      cases release with
      | none => cases hany
      | some released =>
        rw [List.length_eq_zero_iff] at hnil
        subst hnil
        exact (of_decide_eq_true hany) (hrelease released rfl (store, id) rfl).symm
    have hsplit : done ++ (store, id) :: keys = (done ++ [(store, id)]) ++ keys := by simp
    rw [List.length_cons, restoreKeys, List.flatMap_cons, keyBytes, List.append_assoc, takeHash_append, ok_bind]
    dsimp only
    rw [takeHash_append, ok_bind]
    dsimp only
    rw [ensure_bind hstore, keyOperation, Policy.step_guard hfresh hroom]
    dsimp only
    rw [ensure_bind (show Verdict.allow = .allow from rfl), ensure_bind hlast, ih (hsplit ▸ hnodup) (hsplit ▸ hcapacity)
      (fun key hkey => hscope key (List.mem_cons_of_mem _ hkey)), hsplit]
    · congr 2
      cases keys with
      | nil => simp
      | cons => simp
    · intro released hreleased key hkey
      cases keys with
      | nil => cases hkey
      | cons x keys => exact hrelease released hreleased key (by rw [List.getLast?_cons_cons]; exact hkey)

theorem restoreMonitor_append {monitor : Monitor} (hkept : Kept scope monitor) (hreleases : Releases release monitor)
    (hsize : monitor.state.bytes.length < 2 ^ 64) :
    restoreMonitor build scope release monitor.policy (monitorBytes build monitor ++ r) =
      .ok (rollback release monitor, r) := by
  have hlength := state_bytes_length monitor.state
  have hkeys : (monitor.state.attempts.flatMap keyBytes).length = 64 * monitor.state.attempts.length := by
    rw [PolicyState.bytes, List.length_append, beBytes_length] at hlength
    omega
  obtain ⟨policy, ⟨attempts⟩⟩ := monitor
  dsimp only at hkeys hlength hsize ⊢
  have hcount : attempts.length < 2 ^ 64 := by omega
  have hbytes : PolicyState.bytes ⟨attempts⟩ = beBytes 8 attempts.length ++ attempts.flatMap keyBytes := rfl
  have hfits : attempts.length * 64 ≤ usizeMax ∧ attempts.length * 64 = (attempts.flatMap keyBytes).length := by
    rw [usizeMax]
    omega
  have hshape : ¬ (policy.isAtMostOne = false ∧ attempts.length ≠ 0 ∨
      policy.isAtMostOne = true ∧ release.isSome ∧ attempts.length = 0) := by
    rintro (⟨hguard, hne⟩ | ⟨hguard, hsome, hzero⟩)
    · cases policy with
      | atMostOne => cases hguard
      | allowlist => exact hne (by rw [show attempts = [] from hkept]; rfl)
    · obtain ⟨id, hid⟩ := Option.isSome_iff_exists.1 hsome
      obtain ⟨store, hlast⟩ := hreleases hguard id hid
      rw [List.length_eq_zero_iff.1 hzero] at hlast
      cases hlast
  have hreplay : restoreKeys policy scope release attempts.length (attempts.flatMap keyBytes) {} {} =
      .ok (⟨attempts⟩, if attempts = [] then {} else ⟨attempts.dropLast⟩) := by
    cases policy with
    | atMostOne capacity =>
      obtain ⟨hnodup, hcapacity, hscope⟩ := hkept
      refine @restoreKeys_append _ _ _ _ [] _ hnodup hcapacity hscope fun id hid key hkey => ?_
      obtain ⟨store, hlast⟩ := hreleases rfl id hid
      rw [show attempts.getLast? = some key from hkey] at hlast
      rw [Option.some.inj hlast]
    | allowlist =>
      obtain rfl : attempts = [] := hkept
      rfl
  rw [restoreMonitor, monitorBytes, frame, List.append_assoc, List.append_assoc, takeHash_append, ok_bind]
  dsimp only
  rw [ensure_bind (show Monitor.identity build ⟨policy, ⟨attempts⟩⟩ = (Monitor.new policy).identity build from rfl),
    number_append hsize, ok_bind]
  dsimp only
  rw [take_append, ok_bind]
  dsimp only
  rw [hbytes, number_append hcount, ok_bind]
  dsimp only
  rw [ensure_bind hfits, ensure_bind hshape, Monitor.new, hreplay, ok_bind]
  dsimp only
  rw [ensure_bind hbytes, rollback]
  show Except.ok _ = _
  congr 2
  split
  · congr 1
    by_cases hnil : attempts = []
    · simp [hnil]
    · simp [hnil]
  · rfl

theorem restoreMonitors_append {monitors : List Monitor} (hkept : ∀ m ∈ monitors, Kept scope m)
    (hreleases : ∀ m ∈ monitors, Releases release m) (hsize : ∀ m ∈ monitors, m.state.bytes.length < 2 ^ 64) :
    restoreMonitors build scope release (monitors.map (·.policy)) (monitors.flatMap (monitorBytes build) ++ r) =
      .ok (monitors.map (rollback release), r) := by
  induction monitors with
  | nil => rfl
  | cons m monitors ih =>
    rw [List.map_cons, restoreMonitors, List.flatMap_cons, List.append_assoc,
      restoreMonitor_append (hkept m List.mem_cons_self) (hreleases m List.mem_cons_self)
        (hsize m List.mem_cons_self), ok_bind]
    dsimp only
    rw [ih (fun x hx => hkept x (List.mem_cons_of_mem _ hx)) (fun x hx => hreleases x (List.mem_cons_of_mem _ hx))
      (fun x hx => hsize x (List.mem_cons_of_mem _ hx)), ok_bind]
    rfl

/-- a release is read back -/
theorem takeRelease_append : takeRelease (releaseBytes release ++ r) = .ok (release, r) := by
  cases release with
  | none => rfl
  | some key =>
    have htake : take (releaseBytes (some key) ++ r) 1 = .ok ([1],
      key.bytes ++ r) := take_append (r := key.bytes ++ r) [1]
    rw [takeRelease, htake, ok_bind]
    dsimp only
    rw [takeHash_append, ok_bind]
    rfl

/-- what `restore` asks of the policies -/
structure Guarded (policies : List Policy) : Prop where
  few : policies.length ≤ maxPolicies
  guard : policies.any Policy.isAtMostOne = true

theorem state_bytes_le {monitors : List Monitor} {m : Monitor} (hm : m ∈ monitors) :
    m.state.bytes.length ≤ (monitors.flatMap (monitorBytes build)).length := by
  induction monitors with
  | nil => cases hm
  | cons x monitors ih =>
    rw [List.flatMap_cons, List.length_append]
    rcases List.mem_cons.1 hm with rfl | hm
    · rw [monitorBytes, frame, List.length_append, List.length_append]
      omega
    · have := ih hm
      omega

theorem restore_bytes {monitors : List Monitor} {bytes : Bytes} (hguarded : Guarded (monitors.map (·.policy)))
    (hkept : ∀ m ∈ monitors, Kept scope m) (hreleases : ∀ m ∈ monitors, Releases release m)
    (h : checkpoint build scope monitors release = .ok bytes) :
    restore build scope (monitors.map (·.policy)) bytes = .ok (monitors.map (rollback release)) := by
  rw [checkpoint] at h
  split at h
  · cases h
  next hle =>
  cases h
  set out := body build scope monitors release with hout
  have hlength : (out ++ (build.sha256 out).bytes).length - 32 = out.length := by
    rw [List.length_append, (build.sha256 out).length_eq]
    omega
  have hmax : (out ++ (build.sha256 out).bytes).length ≤ maxBytes := not_lt.1 hle
  have hsize : ∀ m ∈ monitors, m.state.bytes.length < 2 ^ 64 := by
    intro m hm
    have hstate := @state_bytes_le build _ _ hm
    rw [hout, body, maxBytes] at hmax
    simp only [List.length_append] at hmax
    omega
  have hfew := hguarded.few
  have hcount : monitors.length < 2 ^ 64 := by
    rw [List.length_map, maxPolicies] at hfew
    omega
  have hread : restoreMonitors build scope release (monitors.map (·.policy)) (monitors.flatMap (monitorBytes build)) =
      .ok (monitors.map (rollback release), []) := by
    have := @restoreMonitors_append build _ _ [] _ hkept hreleases hsize
    rwa [List.append_nil] at this
  rw [restore, ensure_bind ⟨hmax, hfew⟩, ensure_bind hguarded.guard, ensure_bind (by
    rw [List.length_append, (build.sha256 out).length_eq]
    omega)]
  dsimp only
  rw [hlength, List.take_left, List.drop_left, ensure_bind rfl, hout, body, take_append, ok_bind]
  dsimp only
  rw [ensure_bind rfl, takeHash_append, ok_bind]
  dsimp only
  rw [ensure_bind rfl, takeHash_append, ok_bind]
  dsimp only
  rw [ensure_bind rfl, takeRelease_append, ok_bind]
  dsimp only
  rw [number_append hcount, ok_bind]
  dsimp only
  rw [ensure_bind (List.length_map _).symm, hread, ok_bind]
  dsimp only
  rw [ensure_bind rfl]
  rfl

end Read

/-! ## What a restored checkpoint holds -/

section Restore

variable {build : Build} {scope : Hash32} {release : Option Hash32} {monitors : List Monitor} {store : Store}
  {delivery : Delivery}

theorem after_guard {capacity : ℕ} {state : PolicyState}
    (hallow : Monitor.verdict ⟨.atMostOne capacity, state⟩ (.send store delivery) = .allow) :
    (store.identity, delivery.id) ∉ state.attempts ∧ state.attempts.length < capacity ∧
      Monitor.after ⟨.atMostOne capacity, state⟩ (.send store delivery) =
        ⟨.atMostOne capacity, ⟨state.attempts ++ [(store.identity, delivery.id)]⟩⟩ := by
  obtain ⟨hfresh, hroom, hnext⟩ := Policy.step_guard_allow (Prod.ext rfl hallow)
  exact ⟨hfresh, hroom, congrArg (Monitor.mk _) hnext⟩

theorem after_allowlist {recipients : List Bytes} {state : PolicyState} {operation : Operation} :
    Monitor.after ⟨.allowlist recipients, state⟩ operation = ⟨.allowlist recipients, state⟩ :=
  congrArg (Monitor.mk _) (Policy.step_allowlist recipients)

/-- an attempt that a guard allows is recorded -/
theorem after_attempts {m : Monitor} (hguard : m.policy.isAtMostOne = true)
    (hallow : m.verdict (.send store delivery) = .allow) :
    (m.after (.send store delivery)).state.attempts = m.state.attempts ++ [(store.identity, delivery.id)] := by
  obtain ⟨policy, state⟩ := m
  cases policy with
  | allowlist => cases hguard
  | atMostOne capacity =>
    obtain ⟨-, -, hnext⟩ := after_guard hallow
    rw [hnext]

theorem Kept.after {m : Monitor} (hkept : Kept scope m) (hscope : store.identity = scope)
    (hallow : m.verdict (.send store delivery) = .allow) : Kept scope (m.after (.send store delivery)) := by
  obtain ⟨policy, state⟩ := m
  cases policy with
  | atMostOne capacity =>
    obtain ⟨hnodup, hcapacity, hkeys⟩ := hkept
    obtain ⟨hfresh, hroom, hnext⟩ := after_guard hallow
    rw [hnext]
    refine ⟨?_, ?_, ?_⟩
    · refine List.nodup_append.2 ⟨hnodup, List.nodup_singleton _, ?_⟩
      intro a ha b hb heq
      rw [List.mem_singleton.1 hb] at heq
      exact hfresh (heq ▸ ha)
    · rw [List.length_append, List.length_singleton]
      exact hroom
    · intro key hkey
      rcases List.mem_append.1 hkey with hkey | hkey
      · exact hkeys key hkey
      · rw [List.mem_singleton.1 hkey]
        exact hscope
  | allowlist recipients =>
    rw [after_allowlist]
    exact hkept

/-- restoring the keys of a policy gives a kept state -/
theorem restoreKeys_kept {policy : Policy} {count : ℕ} {keys : Bytes} {state preceding next before : PolicyState}
    (hstate : Kept scope ⟨policy, state⟩) (hpreceding : Kept scope ⟨policy, preceding⟩)
    (h : restoreKeys policy scope release count keys state preceding = .ok (next, before)) :
    Kept scope ⟨policy, next⟩ ∧ Kept scope ⟨policy, before⟩ := by
  induction count generalizing keys state preceding with
  | zero =>
    cases h
    exact ⟨hstate, hpreceding⟩
  | succ count ih =>
    rw [restoreKeys] at h
    obtain ⟨⟨first, rest⟩, -, h⟩ := bind_eq_ok.1 h
    obtain ⟨⟨key, rest'⟩, -, h⟩ := bind_eq_ok.1 h
    obtain ⟨_, hscope, h⟩ := bind_eq_ok.1 h
    obtain ⟨_, hallow, h⟩ := bind_eq_ok.1 h
    obtain ⟨_, _, h⟩ := bind_eq_ok.1 h
    refine ih ?_ hstate h
    exact @Kept.after _ ⟨first, 0⟩ _ _ hstate (ensure_eq_ok.1 hscope) (ensure_eq_ok.1 hallow)

/-- a new monitor is kept -/
theorem kept_new (policy : Policy) : Kept scope (Monitor.new policy) := by
  cases policy with
  | atMostOne => exact ⟨List.nodup_nil, Nat.zero_le _, fun key hkey => absurd hkey List.not_mem_nil⟩
  | allowlist => rfl

theorem restoreMonitor_kept {policy : Policy} {input rest : Bytes} {monitor : Monitor}
    (h : restoreMonitor build scope release policy input = .ok (monitor, rest)) :
    monitor.policy = policy ∧ Kept scope monitor := by
  rw [restoreMonitor] at h
  obtain ⟨⟨identity, input⟩, -, h⟩ := bind_eq_ok.1 h
  obtain ⟨_, _, h⟩ := bind_eq_ok.1 h
  obtain ⟨⟨size, input⟩, -, h⟩ := bind_eq_ok.1 h
  obtain ⟨⟨state, input⟩, -, h⟩ := bind_eq_ok.1 h
  obtain ⟨⟨count, keys⟩, -, h⟩ := bind_eq_ok.1 h
  obtain ⟨_, _, h⟩ := bind_eq_ok.1 h
  obtain ⟨_, _, h⟩ := bind_eq_ok.1 h
  obtain ⟨⟨next, preceding⟩, hkeys, h⟩ := bind_eq_ok.1 h
  obtain ⟨_, _, h⟩ := bind_eq_ok.1 h
  obtain ⟨hnext, hpreceding⟩ := restoreKeys_kept (kept_new policy) (kept_new policy) hkeys
  cases h
  refine ⟨rfl, ?_⟩
  split
  · exact hpreceding
  · exact hnext

theorem restoreMonitors_kept {policies : List Policy} {input rest : Bytes}
    (h : restoreMonitors build scope release policies input = .ok (monitors, rest)) :
    monitors.map (·.policy) = policies ∧ ∀ m ∈ monitors, Kept scope m := by
  induction policies generalizing monitors input with
  | nil =>
    cases h
    exact ⟨rfl, fun m hm => absurd hm List.not_mem_nil⟩
  | cons policy policies ih =>
    rw [restoreMonitors] at h
    obtain ⟨⟨monitor, input⟩, hmonitor, h⟩ := bind_eq_ok.1 h
    obtain ⟨⟨later, input⟩, hlater, h⟩ := bind_eq_ok.1 h
    cases h
    obtain ⟨hpolicy, hkept⟩ := restoreMonitor_kept hmonitor
    obtain ⟨hpolicies, hall⟩ := ih hlater
    refine ⟨?_, ?_⟩
    · rw [List.map_cons, hpolicy, hpolicies]
    · intro m hm
      rcases List.mem_cons.1 hm with rfl | hm
      · exact hkept
      · exact hall m hm

/-- monitors of one lifetime: a guard is among them, and each keeps its promise -/
structure Lifetime (scope : Hash32) (policies : List Policy) (monitors : List Monitor) : Prop where
  bound : monitors.map (·.policy) = policies
  guarded : Guarded policies
  kept : ∀ m ∈ monitors, Kept scope m

/-- what is restored has the policies of its lifetime -/
theorem restore_lifetime {policies : List Policy} {bytes : Bytes}
    (h : restore build scope policies bytes = .ok monitors) : Lifetime scope policies monitors := by
  rw [restore] at h
  obtain ⟨_, hcapacity, h⟩ := bind_eq_ok.1 h
  obtain ⟨_, hguard, h⟩ := bind_eq_ok.1 h
  obtain ⟨_, _, h⟩ := bind_eq_ok.1 h
  obtain ⟨_, _, h⟩ := bind_eq_ok.1 h
  obtain ⟨⟨_, input⟩, -, h⟩ := bind_eq_ok.1 h
  obtain ⟨_, _, h⟩ := bind_eq_ok.1 h
  obtain ⟨⟨_, input⟩, -, h⟩ := bind_eq_ok.1 h
  obtain ⟨_, _, h⟩ := bind_eq_ok.1 h
  obtain ⟨⟨_, input⟩, -, h⟩ := bind_eq_ok.1 h
  obtain ⟨_, _, h⟩ := bind_eq_ok.1 h
  obtain ⟨⟨release, input⟩, -, h⟩ := bind_eq_ok.1 h
  obtain ⟨⟨count, input⟩, -, h⟩ := bind_eq_ok.1 h
  obtain ⟨_, _, h⟩ := bind_eq_ok.1 h
  obtain ⟨⟨restored, input⟩, hmonitors, h⟩ := bind_eq_ok.1 h
  obtain ⟨_, _, h⟩ := bind_eq_ok.1 h
  cases h
  obtain ⟨hpolicies, hkept⟩ := restoreMonitors_kept hmonitors
  exact ⟨hpolicies, ⟨(ensure_eq_ok.1 hcapacity).2, ensure_eq_ok.1 hguard⟩, hkept⟩

namespace Lifetime

variable {policies : List Policy} {bytes : Bytes}

/-- a reservation that all monitors allow stays within the lifetime -/
theorem reserve (hlife : Lifetime scope policies monitors) (hscope : store.identity = scope)
    (hallow : ∀ m ∈ monitors, m.verdict (.send store delivery) = .allow) :
    Lifetime scope policies (monitors.map (·.after (.send store delivery))) where
  bound := by
    rw [← hlife.bound, List.map_map]
    rfl
  guarded := hlife.guarded
  kept := by
    intro m hm
    obtain ⟨x, hx, rfl⟩ := List.mem_map.1 hm
    exact (hlife.kept x hx).after hscope (hallow x hx)

end Lifetime

/-- **Round trip.** A checkpoint of a lifetime's monitors is restored to them. -/
theorem restore_checkpoint {policies : List Policy} {bytes : Bytes} (hlife : Lifetime scope policies monitors)
    (h : checkpoint build scope monitors none = .ok bytes) : restore build scope policies bytes = .ok monitors := by
  have hread := restore_bytes (by rw [hlife.bound]; exact hlife.guarded) hlife.kept
    (fun m _ _ id hid => by cases hid) h
  rw [hlife.bound] at hread
  rw [hread]
  congr 1
  conv => rhs; rw [← List.map_id monitors]
  exact List.map_congr_left fun m _ => by simp [rollback]

theorem rollback_after {m : Monitor} {id : Hash32} (hallow : m.verdict (.send store delivery) = .allow) :
    rollback (some id) (m.after (.send store delivery)) = m := by
  obtain ⟨policy, state⟩ := m
  cases policy with
  | atMostOne capacity =>
    obtain ⟨-, -, hnext⟩ := after_guard hallow
    rw [hnext, rollback]
    simp [Policy.isAtMostOne]
  | allowlist recipients =>
    rw [after_allowlist, rollback]
    simp [Policy.isAtMostOne]

/-- **Release.** The release record of a reservation is restored to the monitors before it. -/
theorem restore_release {policies : List Policy} {bytes : Bytes} (hlife : Lifetime scope policies monitors)
    (hscope : store.identity = scope) (hallow : ∀ m ∈ monitors, m.verdict (.send store delivery) = .allow)
    (h : checkpoint build scope (monitors.map (·.after (.send store delivery))) (some delivery.id) = .ok bytes) :
    restore build scope policies bytes = .ok monitors := by
  have hnext := hlife.reserve hscope hallow
  have hreleases : ∀ m ∈ monitors.map (·.after (.send store delivery)), Releases (some delivery.id) m := by
    intro m hm hguard id hid
    obtain ⟨x, hx, rfl⟩ := List.mem_map.1 hm
    cases hid
    have hallow := hallow x hx
    obtain ⟨policy, state⟩ := x
    cases policy with
    | atMostOne capacity =>
      obtain ⟨-, -, hstep⟩ := after_guard hallow
      rw [hstep]
      exact ⟨store.identity, List.getLast?_concat⟩
    | allowlist => cases hguard
  have hread := restore_bytes (by rw [hnext.bound]; exact hnext.guarded) hnext.kept hreleases h
  rw [hnext.bound] at hread
  rw [hread, List.map_map]
  congr 1
  conv => rhs; rw [← List.map_id monitors]
  exact List.map_congr_left fun m hm => rollback_after (hallow m hm)

/-! ## Held keys -/

/-- whether some monitor holds a reservation of `id` -/
def Holds (scope : Hash32) (monitors : List Monitor) (id : Hash32) : Prop :=
  ∃ m ∈ monitors, (scope, id) ∈ m.state.attempts

instance (scope : Hash32) (monitors : List Monitor) (id : Hash32) : Decidable (Holds scope monitors id) :=
  inferInstanceAs (Decidable (∃ m ∈ monitors, (scope, id) ∈ m.state.attempts))

namespace Lifetime

variable {policies : List Policy} {id : Hash32}

section

variable (hlife : Lifetime scope policies monitors)

include hlife

theorem vetoes (hscope : store.identity = scope) (hheld : Holds scope monitors delivery.id) :
    ∃ m ∈ monitors, m.verdict (.send store delivery) = .reject .policyDuplicate := by
  obtain ⟨⟨policy, state⟩, hm, hkey⟩ := hheld
  have hkept := hlife.kept _ hm
  refine ⟨_, hm, ?_⟩
  cases policy with
  | atMostOne capacity => exact congrArg Prod.snd (Policy.step_guard_reserved (by rw [hscope]; exact hkey))
  | allowlist =>
    rw [show state.attempts = [] from hkept] at hkey
    cases hkey

/-- a delivery that is held is refused -/
theorem refuses (hscope : store.identity = scope) (hheld : Holds scope monitors delivery.id) :
    ∃ code, (Effects.admitOperation build monitors (.send store delivery)).2.rejection = some code := by
  obtain ⟨m, hm, hreject⟩ := hlife.vetoes hscope hheld
  exact (admit_reject hm hreject).2

/-- a delivery that all monitors allow is not held -/
theorem fresh (hscope : store.identity = scope) (hallow : ∀ m ∈ monitors, m.verdict (.send store delivery) = .allow) :
    ¬ Holds scope monitors delivery.id := by
  intro hheld
  obtain ⟨m, hm, hreject⟩ := hlife.vetoes hscope hheld
  rw [hallow m hm] at hreject
  cases hreject

/-- a reservation holds its delivery and what was held -/
theorem holds_reserve (hscope : store.identity = scope)
    (hallow : ∀ m ∈ monitors, m.verdict (.send store delivery) = .allow) :
    Holds scope (monitors.map (·.after (.send store delivery))) id ↔ id = delivery.id ∨ Holds scope monitors id := by
  have hattempts : ∀ m ∈ monitors, (m.after (.send store delivery)).state.attempts =
      m.state.attempts ++ if m.policy.isAtMostOne then [(scope, delivery.id)] else [] := by
    intro m hm
    have hallow := hallow m hm
    by_cases hguard : m.policy.isAtMostOne = true
    · rw [if_pos hguard, after_attempts hguard hallow, hscope]
    · rw [if_neg hguard, List.append_nil]
      obtain ⟨policy, state⟩ := m
      cases policy with
      | atMostOne capacity => exact absurd rfl hguard
      | allowlist recipients => rw [after_allowlist]
  constructor
  · intro hheld
    obtain ⟨x, hx, hkey⟩ := hheld
    obtain ⟨m, hm, rfl⟩ := List.mem_map.1 hx
    rw [hattempts m hm] at hkey
    rcases List.mem_append.1 hkey with hkey | hkey
    · exact Or.inr ⟨m, hm, hkey⟩
    · split at hkey
      · exact Or.inl (Prod.mk.inj (List.mem_singleton.1 hkey)).2
      · cases hkey
  · intro h
    rcases h with rfl | hheld
    · have hguard := hlife.guarded.guard
      rw [← hlife.bound, List.any_map, List.any_eq_true] at hguard
      obtain ⟨m, hm, hguard⟩ := hguard
      refine ⟨_, List.mem_map_of_mem hm, ?_⟩
      rw [hattempts m hm, if_pos (show m.policy.isAtMostOne = true from hguard)]
      exact List.mem_append_right _ (List.mem_singleton_self _)
    · obtain ⟨m, hm, hkey⟩ := hheld
      refine ⟨_, List.mem_map_of_mem hm, ?_⟩
      rw [hattempts m hm]
      exact List.mem_append_left _ hkey

end

end Lifetime

end Restore

end Durability

end ZenoFcis.Effects
