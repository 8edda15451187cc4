/-
Restoration accepts checkpoints only (`effects/durable.rs`).

Model: `Reached` are the monitor lists that admitted sends to one scope lead to, from a new lifetime.

Results: `checkpoint_inverse`. Checkpoints of reached monitors, and release records, are restored to them; and whatever
`restore` accepts is the checkpoint of monitors that are reached each on its own. Not jointly: two guards may hold
different keys (`unequal_guards`).
-/
import ZenoFcis.Effects.Checkpoint

namespace ZenoFcis.Effects

open Lib Lib.Except

namespace Durability

variable {build : Build} {scope : Hash32} {release : Option Hash32} {policies : List Policy} {monitors : List Monitor}

/-- the monitors that admitted sends to `scope` lead to -/
inductive Reached (build : Build) (scope : Hash32) (policies : List Policy) : List Monitor → Prop where
  | new : Reached build scope policies (policies.map Monitor.new)
  | send {monitors : List Monitor} {store : Store} {delivery : Delivery} (h : Reached build scope policies monitors)
      (hscope : store.identity = scope)
      (hallow : (admitOperation build monitors (.send store delivery)).2.rejection = none) :
      Reached build scope policies (admitOperation build monitors (.send store delivery)).1

theorem Reached.lifetime (hguarded : Guarded policies) (h : Reached build scope policies monitors) :
    Lifetime scope policies monitors := by
  induction h with
  | new =>
    refine ⟨?_, hguarded, ?_⟩
    · rw [List.map_map]
      exact List.map_id' policies
    · intro m hm
      obtain ⟨policy, -, rfl⟩ := List.mem_map.1 hm
      exact kept_new policy
  | send h hscope hallow ih =>
    have hverdicts := rejection_eq_none.1 hallow
    rw [(admit_allow hverdicts).1]
    exact ih.reserve hscope hverdicts

theorem Kept.reached {m : Monitor} (h : Kept scope m) : Reached build scope [m.policy] [m] := by
  obtain ⟨policy, ⟨attempts⟩⟩ := m
  cases policy with
  | allowlist recipients =>
    obtain rfl : attempts = [] := h
    exact .new
  | atMostOne capacity =>
    induction attempts using List.reverseRecOn with
    | nil => exact .new
    | append_singleton attempts key ih =>
      obtain ⟨hnodup, hcapacity, hscope⟩ := h
      have hcapacity : attempts.length + 1 ≤ capacity := by simpa using hcapacity
      have hfresh : key ∉ attempts := fun hmem => (List.nodup_append.1 hnodup).2.2 _ hmem _ (List.mem_singleton_self _) rfl
      have hbefore := ih ⟨(List.nodup_append.1 hnodup).1, Nat.le_of_succ_le hcapacity,
        fun k hk => hscope k (List.mem_append_left _ hk)⟩
      have hstep := @Policy.step_guard ⟨attempts⟩ ⟨key.1, 0⟩ ⟨key.2, 0, 0, 0, [], [],
        Hash32.zero⟩ capacity hfresh hcapacity
      have hallow : ∀ m ∈ [Monitor.mk (.atMostOne capacity) ⟨attempts⟩],
          m.verdict (.send ⟨key.1, 0⟩ ⟨key.2, 0, 0, 0, [], [], Hash32.zero⟩) = .allow := by
        intro m hm
        rw [List.mem_singleton.1 hm]
        exact congrArg Prod.snd hstep
      have hnext := hbefore.send (hscope key (by simp)) (rejection_eq_none.2 hallow)
      rw [(admit_allow hallow).1] at hnext
      have hafter : Monitor.after ⟨.atMostOne capacity, ⟨attempts⟩⟩
          (.send ⟨key.1, 0⟩ ⟨key.2, 0, 0, 0, [], [], Hash32.zero⟩) = ⟨.atMostOne capacity, ⟨attempts ++ [key]⟩⟩ :=
        congrArg (fun next => Monitor.mk _ next.1) hstep
      rwa [List.map_cons, List.map_nil, hafter] at hnext

/-! ## What was read is what was written -/

section Image

variable {bytes r : Bytes}

theorem take_image {a : Bytes} {n : ℕ} (h : take bytes n = .ok (a, r)) : bytes = a ++ r ∧ a.length = n := by
  unfold take at h
  split_ifs at h with hle
  cases h
  exact ⟨(List.take_append_drop _ _).symm, by rw [List.length_take, min_eq_left hle]⟩

theorem takeHash_image {hash : Hash32} (h : takeHash bytes = .ok (hash, r)) : bytes = hash.bytes ++ r := by
  unfold takeHash at h
  split_ifs at h with hle
  cases h
  exact (List.take_append_drop _ _).symm

theorem number_image {n : ℕ} (h : number bytes = .ok (n, r)) : bytes = beBytes 8 n ++ r := by
  obtain ⟨⟨raw, rest⟩, htake, h⟩ := bind_eq_ok.1 h
  cases h
  obtain ⟨rfl, hlen⟩ := take_image htake
  have hraw := beBytes_ofBeBytes raw
  rw [hlen] at hraw
  rw [hraw]

theorem takeRelease_image (h : takeRelease bytes = .ok (release, r)) : bytes = releaseBytes release ++ r := by
  rw [takeRelease] at h
  obtain ⟨⟨tag, rest⟩, htake, h⟩ := bind_eq_ok.1 h
  rw [(take_image htake).1]
  dsimp only at h
  split at h
  · cases h
    rfl
  · obtain ⟨⟨key, rest'⟩, hkey, h⟩ := bind_eq_ok.1 h
    cases h
    rw [takeHash_image hkey]
    rfl
  · cases h

theorem restoreKeys_last {policy : Policy} {count : ℕ} {keys : Bytes} {state preceding next before : PolicyState}
    (hguard : policy.isAtMostOne = true) (hcount : count ≠ 0)
    (h : restoreKeys policy scope release count keys state preceding = .ok (next, before)) :
    before = ⟨next.attempts.dropLast⟩ ∧
      ∀ id, release = some id → ∃ store, next.attempts.getLast? = some (store, id) := by
  induction count generalizing keys state preceding with
  | zero => exact absurd rfl hcount
  | succ count ih =>
    rw [restoreKeys] at h
    obtain ⟨⟨first, rest⟩, -, h⟩ := bind_eq_ok.1 h
    obtain ⟨⟨key, rest'⟩, -, h⟩ := bind_eq_ok.1 h
    obtain ⟨_, -, h⟩ := bind_eq_ok.1 h
    obtain ⟨_, hallow, h⟩ := bind_eq_ok.1 h
    obtain ⟨_, hlast, h⟩ := bind_eq_ok.1 h
    by_cases hzero : count = 0
    · subst hzero
      obtain ⟨hlater, hearlier⟩ := Prod.mk.inj (Except.ok.inj h)
      have hattempts := @after_attempts ⟨first, 0⟩ ⟨key, 0, 0, 0, [], [], Hash32.zero⟩ ⟨policy, state⟩ hguard
        (ensure_eq_ok.1 hallow)
      have hnext : next.attempts = state.attempts ++ [(first, key)] := by
        rw [← hlater]
        exact hattempts
      rw [hnext, ← hearlier]
      refine ⟨by rw [List.dropLast_concat], ?_⟩
      rintro id rfl
      have hsame : key = id := by
        by_contra hne
        exact (ensure_eq_ok.1 hlast) ⟨rfl, by simpa using fun heq => hne heq.symm⟩
      rw [List.getLast?_concat, hsame]
      exact ⟨first, rfl⟩
    · exact ih hzero h

theorem restoreMonitor_image {policy : Policy} {monitor : Monitor}
    (h : restoreMonitor build scope release policy bytes = .ok (monitor, r)) :
    ∃ held : Monitor, held.policy = policy ∧ Kept scope held ∧ Releases release held ∧
      bytes = monitorBytes build held ++ r ∧ monitor = rollback release held := by
  rw [restoreMonitor] at h
  obtain ⟨⟨identity, input⟩, hidentity, h⟩ := bind_eq_ok.1 h
  obtain ⟨_, hbound, h⟩ := bind_eq_ok.1 h
  obtain ⟨⟨size, input'⟩, hsize, h⟩ := bind_eq_ok.1 h
  obtain ⟨⟨state, rest⟩, hstate, h⟩ := bind_eq_ok.1 h
  obtain ⟨⟨count, keys⟩, -, h⟩ := bind_eq_ok.1 h
  obtain ⟨_, _, h⟩ := bind_eq_ok.1 h
  obtain ⟨_, hshape, h⟩ := bind_eq_ok.1 h
  obtain ⟨⟨next, preceding⟩, hkeys, h⟩ := bind_eq_ok.1 h
  obtain ⟨_, hnext, h⟩ := bind_eq_ok.1 h
  cases h
  have hcount : policy.isAtMostOne = true → release.isSome → count ≠ 0 := fun hguard hsome hzero =>
    (ensure_eq_ok.1 hshape) (Or.inr ⟨hguard, hsome, hzero⟩)
  obtain ⟨hstateEq, hlength⟩ := take_image hstate
  have hbytes : bytes = monitorBytes build ⟨policy, next⟩ ++ r := by
    rw [takeHash_image hidentity, ensure_eq_ok.1 hbound, number_image hsize, hstateEq, ← hlength,
      ← ensure_eq_ok.1 hnext,
      monitorBytes, frame]
    simp only [List.append_assoc]
    rfl
  refine ⟨⟨policy, next⟩, rfl, (restoreKeys_kept (kept_new policy) (kept_new policy) hkeys).1, ?_, hbytes, ?_⟩
  · intro hguard id hid
    exact (restoreKeys_last hguard (hcount hguard (by rw [hid]; rfl)) hkeys).2 id hid
  · unfold rollback
    dsimp only
    split_ifs with hreleased
    · obtain ⟨hguard, hsome⟩ := hreleased
      rw [(restoreKeys_last hguard (hcount hguard hsome) hkeys).1]
    · rfl

theorem restoreMonitors_image {restored : List Monitor}
    (h : restoreMonitors build scope release policies bytes = .ok (restored, r)) :
    ∃ held : List Monitor, held.map (·.policy) = policies ∧ (∀ m ∈ held, Kept scope m ∧ Releases release m) ∧
      bytes = held.flatMap (monitorBytes build) ++ r ∧ restored = held.map (rollback release) := by
  induction policies generalizing bytes restored with
  | nil =>
    cases h
    exact ⟨[], rfl, fun m hm => absurd hm List.not_mem_nil, rfl, rfl⟩
  | cons policy policies ih =>
    rw [restoreMonitors] at h
    obtain ⟨⟨monitor, input⟩, hmonitor, h⟩ := bind_eq_ok.1 h
    obtain ⟨⟨later, rest⟩, hlater, h⟩ := bind_eq_ok.1 h
    cases h
    obtain ⟨first, hpolicy, hkept, hreleases, hbytes, hfirst⟩ := restoreMonitor_image hmonitor
    obtain ⟨held, hpolicies, hall, hrest, hrestored⟩ := ih hlater
    refine ⟨first :: held, ?_, ?_, ?_, ?_⟩
    · rw [List.map_cons, hpolicy, hpolicies]
    · rw [List.forall_mem_cons]
      exact ⟨⟨hkept, hreleases⟩, hall⟩
    · rw [hbytes, List.flatMap_cons, List.append_assoc]
      exact congrArg _ hrest
    · rw [List.map_cons, ← hfirst, ← hrestored]

theorem restore_image {restored : List Monitor} (h : restore build scope policies bytes = .ok restored) :
    ∃ held release, held.map (·.policy) = policies ∧ (∀ m ∈ held, Kept scope m ∧ Releases release m) ∧
      checkpoint build scope held release = .ok bytes ∧ restored = held.map (rollback release) := by
  rw [restore] at h
  obtain ⟨_, hcapacity, h⟩ := bind_eq_ok.1 h
  obtain ⟨_, -, h⟩ := bind_eq_ok.1 h
  obtain ⟨_, hlength, h⟩ := bind_eq_ok.1 h
  obtain ⟨_, hchecksum, h⟩ := bind_eq_ok.1 h
  obtain ⟨⟨start, input₁⟩, hstart, h⟩ := bind_eq_ok.1 h
  obtain ⟨_, hmagic, h⟩ := bind_eq_ok.1 h
  obtain ⟨⟨source, input₂⟩, hsource, h⟩ := bind_eq_ok.1 h
  obtain ⟨_, hpinned, h⟩ := bind_eq_ok.1 h
  obtain ⟨⟨bound, input₃⟩, hbound, h⟩ := bind_eq_ok.1 h
  obtain ⟨_, hscope, h⟩ := bind_eq_ok.1 h
  obtain ⟨⟨release, input₄⟩, hrelease, h⟩ := bind_eq_ok.1 h
  obtain ⟨⟨count, input₅⟩, hcount, h⟩ := bind_eq_ok.1 h
  obtain ⟨_, hpolicies, h⟩ := bind_eq_ok.1 h
  obtain ⟨⟨monitors, input₆⟩, hmonitors, h⟩ := bind_eq_ok.1 h
  obtain ⟨_, hend, h⟩ := bind_eq_ok.1 h
  cases h
  obtain ⟨held, hheld, hall, hread, hrestored⟩ := restoreMonitors_image hmonitors
  refine ⟨held, release, hheld, hall, ?_, hrestored⟩
  have hheldLength : held.length = policies.length := by rw [← hheld, List.length_map]
  have hbody : bytes.take (bytes.length - 32) = body build scope held release := by
    rw [(take_image hstart).1]
    dsimp only at *
    rw [ensure_eq_ok.1 hmagic, takeHash_image hsource, ensure_eq_ok.1 hpinned, takeHash_image hbound,
      ensure_eq_ok.1 hscope, takeRelease_image hrelease, number_image hcount, ensure_eq_ok.1 hpolicies, hread,
      ensure_eq_ok.1 hend, List.append_nil, ← hheldLength]
    rfl
  have hout : body build scope held release ++ (build.sha256 (body build scope held release)).bytes = bytes := by
    rw [← hbody, ensure_eq_ok.1 hchecksum, List.take_append_drop]
  unfold checkpoint
  dsimp only
  rw [hout, if_neg (not_lt.2 (ensure_eq_ok.1 hcapacity).1)]

end Image

/-- **Restoration inverts checkpointing.** A checkpoint of reached monitors is restored to them, and the release record of
a reservation to the monitors before it. Whatever is restored was read from the checkpoint of monitors that are reached
each on its own, with a release, if any, of the last key of every guard; the restored ones lack that key. -/
theorem checkpoint_inverse :
    (∀ (build : Build) (scope : Hash32) (policies : List Policy) (monitors : List Monitor) (bytes : Bytes),
      Guarded policies → Reached build scope policies monitors → checkpoint build scope monitors none = .ok bytes →
      restore build scope policies bytes = .ok monitors) ∧
    (∀ (build : Build) (scope : Hash32) (policies : List Policy) (monitors : List Monitor) (store : Store)
      (delivery : Delivery) (bytes : Bytes), Guarded policies → Reached build scope policies monitors →
      store.identity = scope → (admitOperation build monitors (.send store delivery)).2.rejection = none →
      checkpoint build scope (admitOperation build monitors (.send store delivery)).1 (some delivery.id) = .ok bytes →
      restore build scope policies bytes = .ok monitors) ∧
    ∀ (build : Build) (scope : Hash32) (policies : List Policy) (bytes : Bytes) (restored : List Monitor),
      restore build scope policies bytes = .ok restored → Guarded policies ∧ ∃ held release,
        held.map (·.policy) = policies ∧ (∀ m ∈ held, Reached build scope [m.policy] [m] ∧ Releases release m) ∧
        checkpoint build scope held release = .ok bytes ∧ restored = held.map (rollback release) := by
  refine ⟨?_, ?_, ?_⟩
  · intro build scope policies monitors bytes hguarded hreached hbytes
    exact restore_checkpoint (hreached.lifetime hguarded) hbytes
  · intro build scope policies monitors store delivery bytes hguarded hreached hscope hallow hbytes
    have hverdicts := rejection_eq_none.1 hallow
    rw [(admit_allow hverdicts).1] at hbytes
    exact restore_release (hreached.lifetime hguarded) hscope hverdicts hbytes
  · intro build scope policies bytes restored h
    obtain ⟨held, release, hpolicies, hall, hbytes, hrestored⟩ := restore_image h
    refine ⟨(restore_lifetime h).guarded, held, release, hpolicies, fun m hm => ?_, hbytes, hrestored⟩
    exact ⟨(hall m hm).1.reached, (hall m hm).2⟩

theorem checkpoint_fits (h : (body build scope monitors release).length + 32 ≤ maxBytes) :
    ∃ bytes, checkpoint build scope monitors release = .ok bytes := by
  unfold checkpoint
  dsimp only
  rw [if_neg (by rw [List.length_append, Hash32.length_eq]; omega)]
  exact ⟨_, rfl⟩

/-- constant digests -/
def constantBuild : Build := ⟨fun _ => Hash32.zero, Hash32.zero, Hash32.zero, Hash32.zero, Hash32.zero⟩

/-- a new lifetime, the reservation of one send, and its release -/
theorem checkpoint_inverse_new :
    let policies := [Policy.atMostOne 1]
    let send := Operation.send ⟨Hash32.zero, 3⟩ ⟨Hash32.zero, 1, 0, 0, [], [], Hash32.zero⟩
    ∃ bytes bytes', checkpoint constantBuild Hash32.zero (policies.map Monitor.new) none = .ok bytes ∧
      restore constantBuild Hash32.zero policies bytes = .ok (policies.map Monitor.new) ∧
      checkpoint constantBuild Hash32.zero (admitOperation constantBuild (policies.map Monitor.new) send).1
        (some Hash32.zero) = .ok bytes' ∧
      restore constantBuild Hash32.zero policies bytes' = .ok (policies.map Monitor.new) ∧ ∃ held release,
        checkpoint constantBuild Hash32.zero held release = .ok bytes ∧ held.map (·.policy) = policies := by
  have hguarded : Guarded [Policy.atMostOne 1] := ⟨by decide, rfl⟩
  have hnew : ∃ bytes, checkpoint constantBuild Hash32.zero ([Policy.atMostOne 1].map Monitor.new) none = .ok bytes :=
    checkpoint_fits (by decide +kernel)
  have hsent : ∃ bytes, checkpoint constantBuild Hash32.zero (admitOperation constantBuild
      ([Policy.atMostOne 1].map Monitor.new) (.send ⟨Hash32.zero, 3⟩ ⟨Hash32.zero, 1, 0, 0, [], [], Hash32.zero⟩)).1
      (some Hash32.zero) = .ok bytes := checkpoint_fits (by decide +kernel)
  obtain ⟨bytes, hbytes⟩ := hnew
  obtain ⟨bytes', hbytes'⟩ := hsent
  have hrestored := checkpoint_inverse.1 constantBuild Hash32.zero _ _ bytes hguarded .new hbytes
  obtain ⟨-, held, release, hpolicies, -, hheld, -⟩ :=
    checkpoint_inverse.2.2 constantBuild Hash32.zero [.atMostOne 1] bytes _ hrestored
  exact ⟨bytes, bytes', hbytes, hrestored, hbytes', checkpoint_inverse.2.1 constantBuild Hash32.zero _ _ ⟨Hash32.zero,
    3⟩
    ⟨Hash32.zero, 1, 0, 0, [], [], Hash32.zero⟩ bytes' hguarded .new rfl rfl hbytes', held, release, hheld, hpolicies⟩

/-! ## Guards with different keys -/

theorem checkpoint_release {monitors' : List Monitor} {release' : Option Hash32} {bytes : Bytes}
    (h : checkpoint build scope monitors release = .ok bytes)
    (h' : checkpoint build scope monitors' release' = .ok bytes) : release = release' := by
  unfold checkpoint at h h'
  dsimp only at h h'
  split_ifs at h h'
  have heq := (Except.ok.inj h).trans (Except.ok.inj h').symm
  have hbody := (List.append_inj' heq (by rw [Hash32.length_eq, Hash32.length_eq])).1
  unfold body at hbody
  have hrelease := List.append_cancel_left (List.append_cancel_left (List.append_cancel_left hbody))
  have hread := congrArg takeRelease hrelease
  rw [takeRelease_append, takeRelease_append] at hread
  exact (Prod.mk.inj (Except.ok.inj hread)).1

theorem Reached.agree (h : Reached build scope policies monitors) :
    ∃ keys, ∀ m ∈ monitors, m.policy.isAtMostOne = true → m.state.attempts = keys := by
  induction h with
  | new =>
    refine ⟨[], fun m hm _ => ?_⟩
    obtain ⟨policy, -, rfl⟩ := List.mem_map.1 hm
    rfl
  | @send monitors store delivery h hscope hallow ih =>
    obtain ⟨keys, hkeys⟩ := ih
    have hverdicts := rejection_eq_none.1 hallow
    refine ⟨keys ++ [(store.identity, delivery.id)], fun m hm hguard => ?_⟩
    rw [(admit_allow hverdicts).1] at hm
    obtain ⟨x, hx, rfl⟩ := List.mem_map.1 hm
    rw [@after_attempts store delivery x hguard (hverdicts x hx), hkeys x hx hguard]

theorem ones_length : (List.replicate 32 (1 : UInt8)).length = 32 := rfl

/-- two guards of the zero store that hold different keys -/
def unequal : List Monitor :=
  [⟨.atMostOne 1, ⟨[(Hash32.zero, Hash32.zero)]⟩⟩,
    ⟨.atMostOne 1, ⟨[(Hash32.zero, ⟨List.replicate 32 1, ones_length⟩)]⟩⟩]

/-- restoration checks each guard on its own: it accepts two that no sends lead to -/
theorem unequal_guards :
    ¬ ∀ (build : Build) (scope : Hash32) (policies : List Policy) (bytes : Bytes) (restored : List Monitor),
      restore build scope policies bytes = .ok restored → ∃ held release, Reached build scope policies held ∧
        checkpoint build scope held release = .ok bytes := by
  intro h
  have hkept : ∀ m ∈ unequal, Kept Hash32.zero m := by
    simp [unequal, Kept]
  have hlife : Lifetime Hash32.zero (unequal.map (·.policy)) unequal := ⟨rfl, ⟨by decide, rfl⟩, hkept⟩
  have hwritten : ∃ bytes, checkpoint constantBuild Hash32.zero unequal none = .ok bytes :=
    checkpoint_fits (by decide +kernel)
  obtain ⟨bytes, hbytes⟩ := hwritten
  have hrestored := restore_checkpoint hlife hbytes
  obtain ⟨held, release, hreached, hheld⟩ := h constantBuild Hash32.zero _ bytes unequal hrestored
  obtain rfl := checkpoint_release hbytes hheld
  -- the bytes determine the monitors, and those disagree
  have hsame := hrestored.symm.trans (restore_checkpoint (hreached.lifetime hlife.guarded) hheld)
  obtain rfl := Except.ok.inj hsame
  obtain ⟨keys, hkeys⟩ := hreached.agree
  have hfirst := hkeys _ List.mem_cons_self rfl
  have hsecond := hkeys _ (List.mem_cons_of_mem _ List.mem_cons_self) rfl
  exact absurd (hfirst.trans hsecond.symm) (by decide)

end Durability

end ZenoFcis.Effects
