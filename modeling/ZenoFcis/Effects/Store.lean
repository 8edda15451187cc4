/-
What the simulated store does under any schedule: the receipts its decisions certify, and one specification lemma for
each kind of operation it serves.
-/
import ZenoFcis.Effects.Simulation

namespace ZenoFcis.Effects

open Simulated

variable {hash : Bytes → Hash32}

/-! ## The durable store -/

namespace Durable

variable {durable after : Durable} {key : Hash32} {data : PublicationData} {mode : CommitMode} {receipt : CommitReceipt}

/-- no commit under `key` -/
def Absent (durable : Durable) (key : Hash32) : Prop := ∀ entry ∈ durable.commits, entry.key ≠ key

/-- the commit a receipt certifies: its position and its chain link -/
def Certifies (durable : Durable) (key : Hash32) (data : PublicationData) (receipt : CommitReceipt) : Prop :=
  ∃ i, receipt.version = i + 1 ∧ durable.commits[i]? = some ⟨key, receipt.version, data⟩ ∧
    durable.receipts[i]? = some receipt.chain

theorem lookup_none (h : durable.replays.findIdx? (· == key) = none) : durable.Absent key := by
  intro entry hentry heq
  have hmem : entry.key ∈ durable.replays := by
    rw [durable.replays_eq]
    exact List.mem_map_of_mem hentry
  have hne := List.findIdx?_eq_none_iff.1 h entry.key hmem
  rw [heq, beq_self_eq_true] at hne
  cases hne

theorem lookup_some {index : ℕ} (h : durable.replays.findIdx? (· == key) = some index) :
    ∃ entry, durable.commits[index]? = some entry ∧ entry.key = key := by
  obtain ⟨hlt, hkey, _⟩ := List.findIdx?_eq_some_iff_getElem.1 h
  have hget := List.getElem?_eq_getElem hlt
  rw [eq_of_beq hkey] at hget
  conv at hget => lhs; rw [durable.replays_eq, List.getElem?_map]
  exact Option.map_eq_some_iff.1 hget

/-- a push appends one commit -/
theorem push_commits (state : Bytes) :
    (durable.push hash key data state).commits = durable.commits ++ [⟨key, durable.version + 1, data⟩] := rfl

theorem admit_apply (h : durable.admitCommit hash key data mode = .apply after receipt) :
    ∃ next, after = durable.push hash key data [next] ∧ receipt = ⟨durable.version + 1, after.chain, .committed⟩ := by
  rw [admitCommit] at h
  split at h
  · cases h
  split at h
  · cases h
  split at h
  · cases h
  split at h
  · cases h
  · next next _ =>
    obtain ⟨rfl, rfl⟩ := Decision.apply.inj h
    exact ⟨next, rfl, rfl⟩

theorem admit_replay : durable.admitCommit hash key data mode ≠ .replay receipt := by
  intro h
  rw [admitCommit] at h
  repeat' split at h
  all_goals cases h

/-- an applied commit was absent and is pushed -/
theorem decide_apply (h : durable.decide hash key data mode = .apply after receipt) :
    durable.Absent key ∧ ∃ next, after = durable.push hash key data [next] ∧
      receipt = ⟨durable.version + 1, after.chain, .committed⟩ := by
  rw [Durable.decide] at h
  split at h
  · cases h
  split at h
  · split at h
    · cases h
    · split at h <;> cases h
  · next hnone => exact ⟨lookup_none hnone, admit_apply h⟩

/-- a replayed commit was made with the same data -/
theorem decide_replay (h : durable.decide hash key data mode = .replay receipt) : durable.Certifies key data receipt := by
  rw [Durable.decide] at h
  split at h
  · cases h
  split at h
  · next index hfound =>
    split at h
    · cases h
    · next entry hentry =>
      split at h
      · cases h
      · next hdata =>
        obtain ⟨entry', hentry', hkey⟩ := lookup_some hfound
        obtain rfl := Option.some.inj (hentry.symm.trans hentry')
        have hversion := durable.versions index entry hentry
        obtain rfl := Decision.replay.inj h
        have heq : entry = ⟨key, entry.version, data⟩ := by rw [← hkey, ← not_not.1 hdata]
        exact ⟨index, hversion, hentry.trans (congrArg some heq), by rw [List.get_eq_getElem, List.getElem?_eq_getElem]⟩
  · exact absurd h admit_replay

/-- a refused commit was absent when all commits of its key carry the same data -/
theorem decide_refuse {code : Code} (h : durable.decide hash key data .unversioned = .refuse code)
    (hown : ∀ entry ∈ durable.commits, entry.key = key → entry.publication = data) : durable.Absent key := by
  rw [Durable.decide, if_neg (by simp [CommitMode.expected])] at h
  split at h
  · next index hfound =>
    obtain ⟨entry, hentry, hkey⟩ := lookup_some hfound
    split at h
    · next hnone =>
      rw [hentry] at hnone
      cases hnone
    · next entry' hentry' =>
      obtain rfl := Option.some.inj (hentry.symm.trans hentry')
      rw [if_neg (not_not.2 (hown entry (List.mem_of_getElem? hentry) hkey))] at h
      cases h
  · next hnone => exact lookup_none hnone

/-- an applied commit is certified -/
theorem apply_certifies (h : durable.decide hash key data mode = .apply after receipt) :
    after.Certifies key data receipt := by
  obtain ⟨_, next, rfl, rfl⟩ := decide_apply h
  refine ⟨durable.commits.length, rfl, ?_, ?_⟩
  · rw [push_commits, List.getElem?_concat_length]
  · show (durable.receipts ++ [_])[durable.commits.length]? = _
    rw [← durable.receipts_length, List.getElem?_concat_length]
    rfl

/-- history only grows, and not under `key` -/
structure Grows (key : Hash32) (durable after : Durable) : Prop where
  commits : ∃ more, after.commits = durable.commits ++ more ∧ ∀ entry ∈ more, entry.key ≠ key
  receipts : ∃ more, after.receipts = durable.receipts ++ more

theorem Grows.refl : durable.Grows key durable :=
  ⟨⟨[], (List.append_nil _).symm, by simp⟩, [], (List.append_nil _).symm⟩

theorem Grows.push {key' : Hash32} {state : Bytes} (h : key' ≠ key) :
    durable.Grows key (durable.push hash key' data state) :=
  ⟨⟨_, push_commits state, by simpa using h⟩, _, rfl⟩

/-- growth neither makes nor loses a commit of the key -/
theorem Grows.absent (h : durable.Grows key after) : after.Absent key ↔ durable.Absent key := by
  obtain ⟨⟨more, hcommits, hmore⟩, _⟩ := h
  constructor
  · intro habsent entry hentry
    exact habsent entry (by rw [hcommits]; exact List.mem_append_left _ hentry)
  · intro habsent entry hentry
    rw [hcommits] at hentry
    rcases List.mem_append.1 hentry with hentry | hentry
    · exact habsent entry hentry
    · exact hmore entry hentry

/-- growth keeps certificates -/
theorem Grows.certifies (h : durable.Grows key after) (hreceipt : durable.Certifies key data receipt) :
    after.Certifies key data receipt := by
  obtain ⟨⟨_, hcommits, _⟩, _, hreceipts⟩ := h
  obtain ⟨i, hversion, hcommit, hchain⟩ := hreceipt
  refine ⟨i, hversion, ?_, ?_⟩
  · rw [hcommits, List.getElem?_append_left (List.getElem?_eq_some_iff.1 hcommit).1, hcommit]
  · rw [hreceipts, List.getElem?_append_left (List.getElem?_eq_some_iff.1 hchain).1, hchain]

/-- growth keeps the number of commits of the key -/
theorem Grows.count (h : durable.Grows key after) :
    (after.commits.map (·.key)).count key = (durable.commits.map (·.key)).count key := by
  obtain ⟨⟨more, hcommits, hmore⟩, _⟩ := h
  have hzero : (more.map (·.key)).count key = 0 := by
    rw [List.count_eq_zero]
    intro hmem
    obtain ⟨entry, hentry, hkey⟩ := List.mem_map.1 hmem
    exact hmore entry hentry hkey
  rw [hcommits, List.map_append, List.count_append, hzero, Nat.add_zero]

/-- an absent key has no commit -/
theorem Absent.count (h : durable.Absent key) : (durable.commits.map (·.key)).count key = 0 := by
  rw [List.count_eq_zero]
  intro hmem
  obtain ⟨entry, hentry, hkey⟩ := List.mem_map.1 hmem
  exact h entry hentry hkey

end Durable

/-! ## What the simulation does to the store -/

namespace Simulation

variable {simulation simulation' : Simulation} {handled : Handled} {handle : Fin handles} {port : Port}
  {answer : Response} {binding : Binding} {after : Durable}

def durable (simulation : Simulation) : Durable := simulation.world.durable

/-- the port is covered and the store handle is one of the simulation's -/
def Serves (simulation : Simulation) (port : Port) (store : Store) : Prop :=
  port ∈ simulation.ports ∧ (handleIndex store).isSome

/-- the same ports over `after` -/
def Leaves (simulation simulation' : Simulation) (after : Durable) : Prop :=
  simulation'.durable = after ∧ simulation'.ports = simulation.ports

theorem choose_leaves {options : ℕ} {choice : Option ℕ} (h : simulation.choose options = (choice, simulation')) :
    simulation.Leaves simulation' simulation.durable := by
  rw [choose] at h
  obtain ⟨_, rfl⟩ := Prod.mk.inj h
  exact ⟨rfl, rfl⟩

theorem read_leaves : simulation.Leaves (simulation.read handle port answer).2 simulation.durable := by
  rw [read]
  split <;> next h => exact ⟨(choose_leaves h).1, (choose_leaves h).2⟩

theorem read_handled : (simulation.read handle port answer).1 = .answer answer ∨
    (∃ fault, (simulation.read handle port answer).1 = .answer (.notApplied port fault)) ∨
    (simulation.read handle port answer).1 = .crash ∨ (simulation.read handle port answer).1 = .suspend := by
  rw [read]
  split
  · exact .inr (.inr (.inr rfl))
  · exact .inl rfl
  · exact .inr (.inl ⟨_, rfl⟩)
  · exact .inr (.inr (.inl rfl))
  · exact .inr (.inl ⟨_, rfl⟩)
  · exact .inr (.inl ⟨_, rfl⟩)

/-- a write either leaves the store as it is and does not answer, or applies; only an ambiguous answer, a crash or a
suspension is possible on both sides -/
theorem write_cases :
    (simulation.Leaves (simulation.write binding handle after answer).2 simulation.durable ∧
      ((∃ fault, (simulation.write binding handle after answer).1 = .answer (.notApplied binding.port fault)) ∨
        (simulation.write binding handle after answer).1 = .answer (.unknown binding.port) ∨
        (simulation.write binding handle after answer).1 = .crash ∨
        (simulation.write binding handle after answer).1 = .suspend)) ∨
    (simulation.Leaves (simulation.write binding handle after answer).2 after ∧
      ((simulation.write binding handle after answer).1 = .answer answer ∨
        (simulation.write binding handle after answer).1 = .answer (.unknown binding.port) ∨
        (simulation.write binding handle after answer).1 = .crash)) := by
  rw [write]
  split <;> rename_i h <;> obtain ⟨hdurable, hports⟩ := choose_leaves h
  · exact .inl ⟨⟨hdurable, hports⟩, .inr (.inr (.inr rfl))⟩
  · exact .inr ⟨⟨rfl, hports⟩, .inl rfl⟩
  · exact .inl ⟨⟨hdurable, hports⟩, .inl ⟨_, rfl⟩⟩
  · exact .inl ⟨⟨hdurable, hports⟩, .inr (.inl rfl)⟩
  · exact .inr ⟨⟨rfl, hports⟩, .inr (.inl rfl)⟩
  · exact .inl ⟨⟨hdurable, hports⟩, .inr (.inr (.inl rfl))⟩
  · exact .inr ⟨⟨rfl, hports⟩, .inr (.inr rfl)⟩
  · exact .inl ⟨⟨hdurable, hports⟩, .inl ⟨_, rfl⟩⟩
  · exact .inl ⟨⟨hdurable, hports⟩, .inl ⟨_, rfl⟩⟩

theorem send_leaves {delivery : Delivery} :
    simulation.Leaves (simulation.send binding handle delivery).2 simulation.durable := by
  simp only [send]
  split <;> split <;> rename_i h <;> exact ⟨(choose_leaves h).1, (choose_leaves h).2⟩

theorem clock_leaves : simulation.Leaves (simulation.clock binding).2 simulation.durable := by
  simp only [clock]
  split
  · next h => exact choose_leaves h
  · next h => split <;> exact ⟨(choose_leaves h).1, (choose_leaves h).2⟩

theorem random_leaves {bound : ℕ+} : simulation.Leaves (simulation.random bound).2 simulation.durable := by
  simp only [random]
  split
  · next h => exact choose_leaves h
  · next h => split <;> exact choose_leaves h

theorem wait_leaves {deadline : EpochTick} :
    simulation.Leaves (simulation.wait binding deadline).2 simulation.durable := by
  simp only [wait]
  split
  · next h => exact choose_leaves h
  · next h => split_ifs <;> exact ⟨(choose_leaves h).1, (choose_leaves h).2⟩

theorem acknowledge_leaves {id payloadSha256 : Hash32} : ∃ after,
    simulation.Leaves (simulation.acknowledge binding handle id payloadSha256).2 after ∧
      (after = simulation.durable ∨ ∃ index, after = simulation.durable.acknowledge index) := by
  simp only [acknowledge]
  split
  · exact ⟨_, read_leaves, .inl rfl⟩
  · split
    · exact ⟨_, read_leaves, .inl rfl⟩
    · next index _ _ _ _ _ =>
      split_ifs
      · exact ⟨_, read_leaves, .inl rfl⟩
      · exact ⟨_, read_leaves, .inl rfl⟩
      · rcases write_cases with ⟨hleaves, _⟩ | ⟨hleaves, _⟩
        · exact ⟨_, hleaves, .inl rfl⟩
        · exact ⟨_, hleaves, .inr ⟨index, rfl⟩⟩

/-- what one served operation can do to the store -/
inductive Writes (hash : Bytes → Hash32) (durable : Durable) (operation : Operation) : Durable → Prop where
  | nothing : Writes hash durable operation durable
  | acknowledge (index : ℕ) : Writes hash durable operation (durable.acknowledge index)
  | commit {store : Store} {key : Hash32} {data : PublicationData} {mode : CommitMode} {after : Durable}
      {receipt : CommitReceipt} (hop : operation = .commit store key data mode)
      (h : durable.decide hash key data mode = .apply after receipt) : Writes hash durable operation after

variable {operation : Operation} {store : Store}

/-- only a commit under `key` adds to the history under it -/
theorem Writes.grows {durable : Durable} {key : Hash32}
    (h : Writes hash durable operation after)
    (hother : ∀ store key' data mode, operation = .commit store key' data mode → key' ≠ key) :
    durable.Grows key after := by
  cases h with
  | nothing => exact .refl
  | acknowledge index => exact ⟨⟨[], (List.append_nil _).symm, by simp⟩, [], (List.append_nil _).symm⟩
  | commit hop h =>
    obtain ⟨_, next, rfl, _⟩ := Durable.decide_apply h
    exact .push (hother _ _ _ _ hop)

theorem handleStore_leaves : ∃ after,
    simulation.Leaves (simulation.handleStore hash binding handle operation).2 after ∧
      Writes hash simulation.durable operation after := by
  cases operation with
  | readState | readHistory | readOutbox | reopen => exact ⟨_, read_leaves, .nothing⟩
  | commit store key data mode =>
    simp only [handleStore]
    split
    · exact ⟨_, read_leaves, .nothing⟩
    · exact ⟨_, read_leaves, .nothing⟩
    · next after receipt h =>
      rcases write_cases with ⟨hleaves, _⟩ | ⟨hleaves, _⟩
      · exact ⟨_, hleaves, .nothing⟩
      · exact ⟨_, hleaves, .commit rfl h⟩
  | send => exact ⟨_, send_leaves, .nothing⟩
  | acknowledge =>
    obtain ⟨after, hleaves, rfl | ⟨index, rfl⟩⟩ := acknowledge_leaves
    · exact ⟨_, hleaves, .nothing⟩
    · exact ⟨_, hleaves, .acknowledge index⟩
  | clock => exact ⟨_, clock_leaves, .nothing⟩
  | random => exact ⟨_, random_leaves, .nothing⟩
  | wait => exact ⟨_, wait_leaves, .nothing⟩

/-- what a handled operation leaves in the store -/
theorem handle_leaves (operation : Operation) : ∃ after,
    simulation.Leaves (simulation.handle hash binding operation).2 after ∧
      Writes hash simulation.durable operation after := by
  simp only [Simulation.handle]
  split
  · exact ⟨_, ⟨rfl, rfl⟩, .nothing⟩
  split
  · split
    · exact handleStore_leaves
    · exact ⟨_, ⟨rfl, rfl⟩, .nothing⟩
  split
  · exact ⟨_, clock_leaves, .nothing⟩
  · exact ⟨_, random_leaves, .nothing⟩
  · exact ⟨_, wait_leaves, .nothing⟩
  · exact ⟨_, ⟨rfl, rfl⟩, .nothing⟩

/-- what a served commit answers, and what it leaves -/
inductive Commits (hash : Bytes → Hash32) (simulation : Simulation) (store : Store) (key : Hash32)
    (data : PublicationData) (mode : CommitMode) : Handled → Durable → Prop where
  | replayed {receipt : CommitReceipt} (h : simulation.durable.decide hash key data mode = .replay receipt) :
      Commits hash simulation store key data mode (.answer (.commit (.ok receipt))) simulation.durable
  | refused {code : Code} (h : simulation.durable.decide hash key data mode = .refuse code ∨
        ¬ simulation.Serves .commit store) :
      Commits hash simulation store key data mode (.answer (.commit (.refused code))) simulation.durable
  | failed (fault : Fault) :
      Commits hash simulation store key data mode (.answer (.commit (.notApplied fault))) simulation.durable
  | silent {handled : Handled} (h : handled = .answer (.commit (.unknown .io)) ∨ handled = .crash ∨ handled = .suspend) :
      Commits hash simulation store key data mode handled simulation.durable
  | applied {handled : Handled} {after : Durable} {receipt : CommitReceipt}
      (hserves : simulation.Serves .commit store)
      (h : simulation.durable.decide hash key data mode = .apply after receipt)
      (hhandled : handled = .answer (.commit (.ok receipt)) ∨ handled = .answer (.commit (.unknown .io)) ∨
        handled = .crash) :
      Commits hash simulation store key data mode handled after

theorem read_commits {key : Hash32} {data : PublicationData} {mode : CommitMode}
    {outcome : Outcome CommitReceipt}
    (h : Commits hash simulation store key data mode (.answer (.commit outcome)) simulation.durable) :
    Commits hash simulation store key data mode (simulation.read handle .commit (.commit outcome)).1
      simulation.durable := by
  rcases @read_handled simulation handle .commit (.commit outcome) with
    heq | ⟨fault, heq⟩ | heq | heq <;> rw [heq]
  · exact h
  · exact .failed fault
  · exact .silent (.inr (.inl rfl))
  · exact .silent (.inr (.inr rfl))

theorem handle_served {operation : Operation} {store : Store} (hstore : operation.store = some store)
    (h : simulation.Serves operation.port store) :
    ∃ handle, simulation.handle hash binding operation = simulation.handleStore hash binding handle operation := by
  obtain ⟨hport, hhandle⟩ := h
  obtain ⟨handle, hhandle⟩ := Option.isSome_iff_exists.1 hhandle
  refine ⟨handle, ?_⟩
  simp only [Simulation.handle, hstore, hhandle]
  rw [if_neg (not_not.2 hport)]

theorem handle_unserved (hstore : operation.store = some store)
    (h : ¬ simulation.Serves operation.port store) :
    simulation.handle hash binding operation = (.answer (.refused operation.port .identity), simulation) := by
  simp only [Simulation.handle, hstore]
  by_cases hport : operation.port ∈ simulation.ports
  · rw [if_neg (not_not.2 hport)]
    cases hhandle : handleIndex store with
    | none => rfl
    | some handle => exact absurd ⟨hport, by rw [hhandle]; rfl⟩ h
  · rw [if_pos hport]

/-- what a handled commit leaves in the store, and how it answers -/
theorem handle_commits {store : Store} {key : Hash32} {data : PublicationData} {mode : CommitMode}
    (hbinding : binding.port = .commit) : ∃ after,
    simulation.Leaves (simulation.handle hash binding (.commit store key data mode)).2 after ∧
      Commits hash simulation store key data mode (simulation.handle hash binding (.commit store key data mode)).1
        after := by
  by_cases hserves : simulation.Serves .commit store
  · obtain ⟨handle, heq⟩ := @handle_served hash _ binding (.commit store key data mode) _ rfl hserves
    rw [heq, handleStore]
    cases h : simulation.world.durable.decide hash key data mode with
    | refuse code => exact ⟨_, read_leaves, read_commits (.refused (.inl h))⟩
    | replay receipt => exact ⟨_, read_leaves, read_commits (.replayed h)⟩
    | apply after receipt =>
      rcases write_cases with ⟨hleaves, hhandled⟩ | ⟨hleaves, hhandled⟩ <;> rw [hbinding] at hhandled
      · refine ⟨_, hleaves, ?_⟩
        rcases hhandled with ⟨fault, heq⟩ | hsilent
        · rw [heq]
          exact .failed fault
        · exact .silent hsilent
      · exact ⟨_, hleaves, .applied hserves h hhandled⟩
  · rw [handle_unserved rfl hserves]
    exact ⟨_, ⟨rfl, rfl⟩, .refused (.inr hserves)⟩

/-- a history that is read is the history of the store -/
theorem handle_history {history : AuditedHistory}
    (h : (simulation.handle hash binding (.readHistory store)).1 = .answer (.readHistory (.ok history))) :
    history = simulation.durable.history hash := by
  by_cases hserves : simulation.Serves .readHistory store
  · obtain ⟨handle, heq⟩ := @handle_served hash _ binding (.readHistory store) _ rfl hserves
    rw [heq, handleStore] at h
    rcases read_handled with heq | ⟨fault, heq⟩ | heq | heq <;> rw [heq] at h <;> cases h
    rfl
  · rw [handle_unserved rfl hserves] at h
    cases h

end Simulation

end ZenoFcis.Effects
