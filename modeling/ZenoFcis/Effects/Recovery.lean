/-
Commit with recovery against the simulated store.

Model:
- a history is a list of events: the client starts once, recovers when no run of it is outstanding, and has its
  outstanding request served under any schedule; between two of its steps other handles have any operation served;
- other handles never commit under the client's key.

Result: `commit_at_most_once`. The store never holds two commits under the client's key, and a run that ends with a
receipt, a refusal or a non-application tells the truth about the store.
-/
import ZenoFcis.Effects.Program
import ZenoFcis.Effects.Store

namespace ZenoFcis.Effects

open Simulated

/-! ## Histories -/

/-- a client between, in and after its runs -/
inductive CommitClient where
  | fresh
  | waiting (id : OpId) (operation : Operation) (continuation : CommitContinuation)
  | crashed
  | ended (outcome : Outcome CommitReceipt)

def CommitClient.ofStep : CommitStep → CommitClient
  | .done outcome => .ended outcome
  | .request id operation continuation => .waiting id operation continuation

/-- what became of a request: a crash destroys the continuation, a suspension leaves the request outstanding -/
def CommitClient.hear (id : OpId) (operation : Operation) (continuation : CommitContinuation) : Handled → CommitClient
  | .answer response => .ofStep (CommitProgram.resume continuation response)
  | .crash => .crashed
  | .suspend => .waiting id operation continuation

/-- the client and the world it shares with other handles -/
structure CommitSystem where
  simulation : Simulation
  client : CommitClient

inductive CommitEvent where
  | start (policy : CommitPolicy)
  | recover (policy : CommitPolicy)
  | serve (script : Script)
  | other (binding : Binding) (operation : Operation) (script : Script)

/-- other handles never commit under `key` -/
def CommitEvent.Legal (key : Hash32) : CommitEvent → Prop
  | .other _ (.commit _ key' _ _) _ => key' ≠ key
  | _ => True

namespace CommitSystem

/-- the outstanding request served under a schedule -/
def serve (hash : Bytes → Hash32) (simulation : Simulation) (id : OpId) (operation : Operation)
    (continuation : CommitContinuation) : CommitSystem :=
  let (handled, simulation) := simulation.handle hash (Binding.of id operation) operation
  ⟨simulation, .hear id operation continuation handled⟩

def step (hash : Bytes → Hash32) (invocation : CommitInvocation) (s : CommitSystem) : CommitEvent → CommitSystem
  | .start policy =>
    match s.client with
    | .fresh => ⟨s.simulation, .ofStep (CommitProgram.start invocation policy)⟩
    | _ => s
  | .recover policy =>
    match s.client with
    | .crashed | .ended _ => ⟨s.simulation, .ofStep (CommitProgram.recover invocation policy)⟩
    | _ => s
  | .serve script =>
    match s.client with
    | .waiting id operation continuation => serve hash { s.simulation with script } id operation continuation
    | _ => s
  | .other binding operation script =>
    ⟨({ s.simulation with script }.handle hash binding operation).2, s.client⟩

def run (hash : Bytes → Hash32) (invocation : CommitInvocation) (s : CommitSystem) (events : List CommitEvent) :
    CommitSystem :=
  events.foldl (step hash invocation) s

end CommitSystem

/-! ## The invariant -/

section Invariant

variable {hash : Bytes → Hash32} {invocation : CommitInvocation}

/-- the operation a continuation waits for -/
def CommitContinuation.operation (continuation : CommitContinuation) : Operation :=
  match continuation.phase with
  | .commit => commitOperation continuation.invocation continuation.mode
  | .reopen => .reopen continuation.invocation.store
  | .history => .readHistory continuation.invocation.store

/-- what a run that waits in `phase` knows of the store -/
structure CommitContinuation.Honest (invocation : CommitInvocation) (durable : Durable) (phase : CommitPhase)
    (continuation : CommitContinuation) : Prop where
  same : continuation.invocation = invocation
  /-- certain that nothing applied: the run is in its first phase -/
  certain : continuation.unknown = none → phase = .commit ∧ durable.Absent invocation.key
  /-- a commit that is there is only asked for without its version guard -/
  guarded : phase = .commit → durable.Absent invocation.key ∨ continuation.mode = .unversioned

/-- what a client's state says about the store -/
def CommitClient.Honest (invocation : CommitInvocation) (durable : Durable) : CommitClient → Prop
  | .fresh => durable.Absent invocation.key
  | .crashed => True
  | .ended (.ok receipt) => durable.Certifies invocation.key invocation.publication receipt
  | .ended (.refused _) | .ended (.notApplied _) => durable.Absent invocation.key
  | .ended (.unknown _) => True
  | .waiting _ operation continuation =>
    operation = continuation.operation ∧ continuation.Honest invocation durable continuation.phase

/-- the invariant of every history -/
structure CommitSystem.Inv (invocation : CommitInvocation) (s : CommitSystem) : Prop where
  once : (s.simulation.durable.commits.map (·.key)).count invocation.key ≤ 1
  own : ∀ entry ∈ s.simulation.durable.commits, entry.key = invocation.key → entry.publication = invocation.publication
  served : s.simulation.durable.Absent invocation.key ∨ s.simulation.Serves .commit invocation.store
  honest : s.client.Honest invocation s.simulation.durable

/-! ## One step of the program -/

section Program

variable {continuation : CommitContinuation} {durable : Durable}

theorem unresolved_honest (fault : Fault) :
    (CommitClient.ofStep (unresolved continuation fault)).Honest invocation durable := by
  rw [unresolved]
  split <;> trivial

theorem askCommitPhase_honest {phase : CommitPhase} (h : continuation.Honest invocation durable phase) :
    (CommitClient.ofStep (askCommitPhase continuation phase)).Honest invocation durable := by
  rw [askCommitPhase]
  split
  · split
    · trivial
    · next hcertain => exact (h.certain hcertain).2
  · refine ⟨?_, h.same, h.certain, h.guarded⟩
    cases phase <;> rfl

theorem retryCommitPhase_honest {phase : CommitPhase} (fault : Fault) (h : continuation.Honest invocation durable phase) :
    (CommitClient.ofStep (retryCommitPhase continuation phase fault)).Honest invocation durable := by
  rw [retryCommitPhase]
  split
  · exact unresolved_honest fault
  · exact askCommitPhase_honest ⟨h.same, h.certain, h.guarded⟩

theorem committed_notApplied_honest (fault : Fault) (h : continuation.Honest invocation durable .commit) :
    (CommitClient.ofStep (committed continuation (.notApplied fault))).Honest invocation durable := by
  simp only [committed]
  split
  · split
    · trivial
    · next hcertain => exact (h.certain hcertain).2
  · exact askCommitPhase_honest ⟨h.same, h.certain, h.guarded⟩

theorem committed_unknown_honest (fault : Fault) (hsame : continuation.invocation = invocation) :
    (CommitClient.ofStep (committed continuation (.unknown fault))).Honest invocation durable := by
  simp only [committed]
  split
  · exact unresolved_honest fault
  · refine askCommitPhase_honest ⟨hsame, ?_, nofun⟩
    intro hnone
    dsimp only at hnone
    split at hnone <;> cases hnone

theorem resume_honest {response : Response} (h : continuation.Honest invocation durable continuation.phase)
    (hphase : continuation.phase ≠ .commit)
    (hhistory : ∀ history, response = .readHistory (.ok history) → continuation.phase = .history →
      durable.Absent invocation.key ∨ contains history invocation = true) :
    (CommitClient.ofStep (CommitProgram.resume continuation response)).Honest invocation durable := by
  have hlater : ∀ phase, phase ≠ .commit → continuation.Honest invocation durable phase := by
    intro phase hne
    refine ⟨h.same, ?_, fun heq => absurd heq hne⟩
    intro hnone
    exact absurd (h.certain hnone).1 hphase
  unfold CommitProgram.resume
  split
  · contradiction
  · split
    · exact askCommitPhase_honest (hlater _ nofun)
    · exact unresolved_honest .io
    · exact retryCommitPhase_honest _ (hlater _ nofun)
    · exact retryCommitPhase_honest _ (hlater _ nofun)
  · next outcome hphase' =>
    split
    · next history =>
      refine askCommitPhase_honest ⟨h.same, fun hnone => absurd (h.certain hnone).1 hphase, fun _ => ?_⟩
      rcases hhistory history rfl hphase' with habsent | hcontains
      · exact .inl habsent
      · right
        rw [h.same, if_pos hcontains]
    · exact unresolved_honest .io
    · exact retryCommitPhase_honest _ (hlater _ nofun)
    · exact retryCommitPhase_honest _ (hlater _ nofun)
  · exact unresolved_honest .io

theorem start_honest (policy : CommitPolicy) (h : durable.Absent invocation.key) :
    (CommitClient.ofStep (CommitProgram.start invocation policy)).Honest invocation durable :=
  ⟨rfl, rfl, fun _ => ⟨rfl, h⟩, fun _ => .inl h⟩

theorem recover_honest (policy : CommitPolicy) :
    (CommitClient.ofStep (CommitProgram.recover invocation policy)).Honest invocation durable :=
  ⟨rfl, rfl, nofun, nofun⟩

theorem honest_grows {client : CommitClient} {after : Durable} (h : client.Honest invocation durable)
    (hgrows : durable.Grows invocation.key after) : client.Honest invocation after := by
  cases client with
  | fresh => exact hgrows.absent.2 h
  | crashed => trivial
  | ended outcome =>
    cases outcome with
    | ok receipt => exact hgrows.certifies h
    | refused | notApplied => exact hgrows.absent.2 h
    | unknown => trivial
  | waiting id operation continuation =>
    obtain ⟨hoperation, h⟩ := h
    refine ⟨hoperation, h.same, ?_, ?_⟩
    · intro hnone
      exact ⟨(h.certain hnone).1, hgrows.absent.2 (h.certain hnone).2⟩
    · intro hphase
      exact (h.guarded hphase).imp_left hgrows.absent.2

end Program

/-! ## One step of the system -/

namespace CommitSystem

variable {s : CommitSystem} {simulation simulation' : Simulation} {after : Durable}

theorem inv_grows (h : s.Inv invocation) (hleaves : s.simulation.Leaves simulation' after)
    (hgrows : s.simulation.durable.Grows invocation.key after) {client : CommitClient}
    (hhonest : client.Honest invocation after) : (⟨simulation', client⟩ : CommitSystem).Inv invocation := by
  obtain ⟨rfl, hports⟩ := hleaves
  refine ⟨hgrows.count.trans_le h.once, ?_, ?_, hhonest⟩
  · intro entry hentry hkey
    obtain ⟨⟨more, hcommits, hmore⟩, _⟩ := hgrows
    rw [show (CommitSystem.mk simulation' client).simulation.durable.commits = _ from hcommits] at hentry
    rcases List.mem_append.1 hentry with hentry | hentry
    · exact h.own entry hentry hkey
    · exact absurd hkey (hmore entry hentry)
  · rcases h.served with habsent | hserves
    · exact .inl (hgrows.absent.2 habsent)
    · refine .inr ⟨?_, hserves.2⟩
      rw [hports]
      exact hserves.1

theorem inv_applied {mode : CommitMode} {receipt : CommitReceipt} {client client' : CommitClient}
    (h : (⟨simulation, client⟩ : CommitSystem).Inv invocation) (hleaves : simulation.Leaves simulation' after)
    (hserves : simulation.Serves .commit invocation.store)
    (happly : simulation.durable.decide hash invocation.key invocation.publication mode = .apply after receipt)
    (hhonest : client'.Honest invocation after) : (⟨simulation', client'⟩ : CommitSystem).Inv invocation := by
  obtain ⟨hdurable, hports⟩ := hleaves
  obtain ⟨habsent, next, hafter, _⟩ := Durable.decide_apply happly
  have hcommits : simulation'.durable.commits = simulation.durable.commits ++
      [⟨invocation.key, simulation.durable.version + 1, invocation.publication⟩] := by
    rw [hdurable, hafter, Durable.push_commits]
  refine ⟨?_, ?_, .inr ⟨?_, hserves.2⟩, hdurable ▸ hhonest⟩
  · rw [hcommits, List.map_append, List.count_append, habsent.count]
    simp
  · intro entry hentry hkey
    rw [hcommits] at hentry
    rcases List.mem_append.1 hentry with hentry | hentry
    · exact h.own entry hentry hkey
    · rw [List.mem_singleton.1 hentry]
  · show _ ∈ simulation'.ports
    rw [hports]
    exact hserves.1

theorem resume_commit {continuation : CommitContinuation} {outcome : Outcome CommitReceipt}
    (hphase : continuation.phase = .commit) :
    CommitProgram.resume continuation (.commit outcome) = committed continuation outcome := by
  simp only [CommitProgram.resume, hphase]

theorem hear_commits {continuation : CommitContinuation} {id : OpId} {handled : Handled} {client : CommitClient}
    (h : (⟨simulation, client⟩ : CommitSystem).Inv invocation)
    (hcont : continuation.Honest invocation simulation.durable .commit) (hphase : continuation.phase = .commit)
    (hcommits : Simulation.Commits hash simulation invocation.store invocation.key invocation.publication
      continuation.mode handled after) :
    (CommitClient.hear id continuation.operation continuation handled).Honest invocation after := by
  have hunknown : ∀ durable, (CommitClient.hear id continuation.operation continuation
      (.answer (.commit (.unknown .io)))).Honest invocation durable := by
    intro durable
    rw [CommitClient.hear, resume_commit hphase]
    exact committed_unknown_honest .io hcont.same
  cases hcommits with
  | replayed hreplay =>
    rw [CommitClient.hear, resume_commit hphase]
    exact Durable.decide_replay hreplay
  | refused hrefuse =>
    rw [CommitClient.hear, resume_commit hphase]
    show simulation.durable.Absent invocation.key
    rcases hrefuse with hrefuse | hserves
    · rcases hcont.guarded rfl with habsent | hmode
      · exact habsent
      · rw [hmode] at hrefuse
        exact Durable.decide_refuse hrefuse h.own
    · exact h.served.resolve_right hserves
  | failed fault =>
    rw [CommitClient.hear, resume_commit hphase]
    exact committed_notApplied_honest fault hcont
  | silent hsilent =>
    rcases hsilent with rfl | rfl | rfl
    · exact hunknown _
    · trivial
    · exact ⟨rfl, hphase ▸ hcont⟩
  | applied _ happly hhandled =>
    rcases hhandled with rfl | rfl | rfl
    · rw [CommitClient.hear, resume_commit hphase]
      exact Durable.apply_certifies happly
    · exact hunknown _
    · trivial

theorem contains_history (hown : ∀ entry ∈ simulation.durable.commits, entry.key = invocation.key →
    entry.publication = invocation.publication) :
    simulation.durable.Absent invocation.key ∨ contains (simulation.durable.history hash) invocation = true := by
  by_cases habsent : simulation.durable.Absent invocation.key
  · exact .inl habsent
  · right
    simp only [Durable.Absent, not_forall, not_not] at habsent
    obtain ⟨entry, hentry, hkey⟩ := habsent
    rw [contains, List.any_eq_true]
    exact ⟨entry, hentry, by simp [hkey, hown entry hentry hkey]⟩

theorem serve_first {continuation : CommitContinuation} {id : OpId}
    (h : (⟨simulation, .waiting id continuation.operation continuation⟩ : CommitSystem).Inv invocation)
    (hphase : continuation.phase = .commit) :
    (serve hash simulation id continuation.operation continuation).Inv invocation := by
  have hcont := h.honest.2
  rw [hphase] at hcont
  have hoperation : continuation.operation =
      .commit invocation.store invocation.key invocation.publication continuation.mode := by
    rw [CommitContinuation.operation, hphase, commitOperation, hcont.same]
  obtain ⟨after, hleaves, hcommits⟩ := @Simulation.handle_commits hash simulation
    (Binding.of id continuation.operation) invocation.store invocation.key invocation.publication continuation.mode
    (by rw [Binding.of, hoperation, Operation.port])
  rw [← hoperation] at hleaves hcommits
  rw [serve]
  generalize simulation.handle hash (Binding.of id continuation.operation) continuation.operation = result at *
  obtain ⟨handled, simulation'⟩ := result
  have hhonest := @hear_commits _ _ _ _ _ id _ _ h hcont hphase hcommits
  cases hcommits with
  | applied hserves happly _ => exact inv_applied h hleaves hserves happly hhonest
  | replayed | refused | failed | silent => exact inv_grows h hleaves .refl hhonest

theorem serve_later {continuation : CommitContinuation} {id : OpId}
    (h : (⟨simulation, .waiting id continuation.operation continuation⟩ : CommitSystem).Inv invocation)
    (hphase : continuation.phase ≠ .commit) :
    (serve hash simulation id continuation.operation continuation).Inv invocation := by
  have hcont := h.honest.2
  have hother : ∀ store key data mode, continuation.operation = .commit store key data mode → key ≠ invocation.key := by
    intro store key data mode heq
    rw [CommitContinuation.operation] at heq
    split at heq
    · contradiction
    · cases heq
    · cases heq
  obtain ⟨after, hleaves, hwrites⟩ := @Simulation.handle_leaves hash simulation
    (Binding.of id continuation.operation) continuation.operation
  have hgrows := hwrites.grows hother
  have hhonest : (CommitClient.hear id continuation.operation continuation (simulation.handle hash
      (Binding.of id continuation.operation) continuation.operation).1).Honest invocation simulation.durable := by
    cases hhandled : (simulation.handle hash (Binding.of id continuation.operation) continuation.operation).1 with
    | answer response =>
      refine resume_honest hcont hphase fun history hresponse hhistory => ?_
      have hoperation : continuation.operation = .readHistory continuation.invocation.store := by
        rw [CommitContinuation.operation, hhistory]
      rw [hresponse, hoperation] at hhandled
      rw [Simulation.handle_history hhandled]
      exact contains_history h.own
    | crash => trivial
    | suspend => exact ⟨rfl, hcont⟩
  exact inv_grows h hleaves hgrows (honest_grows hhonest hgrows)

theorem step_inv {event : CommitEvent} (h : s.Inv invocation) (hlegal : event.Legal invocation.key) :
    (step hash invocation s event).Inv invocation := by
  obtain ⟨simulation, client⟩ := s
  cases event with
  | start policy =>
    cases client with
    | fresh => exact ⟨h.once, h.own, h.served, start_honest policy h.honest⟩
    | waiting | crashed | ended => exact h
  | recover policy =>
    cases client with
    | crashed | ended => exact ⟨h.once, h.own, h.served, recover_honest policy⟩
    | fresh | waiting => exact h
  | serve script =>
    cases client with
    | waiting id operation continuation =>
      obtain rfl := h.honest.1
      have h' : (⟨{ simulation with script }, .waiting id continuation.operation continuation⟩ : CommitSystem).Inv
          invocation := ⟨h.once, h.own, h.served, h.honest⟩
      by_cases hphase : continuation.phase = .commit
      · exact serve_first h' hphase
      · exact serve_later h' hphase
    | fresh | crashed | ended => exact h
  | other binding operation script =>
    have h' : (⟨{ simulation with script }, client⟩ : CommitSystem).Inv invocation :=
      ⟨h.once, h.own, h.served, h.honest⟩
    obtain ⟨after, hleaves, hwrites⟩ := @Simulation.handle_leaves hash { simulation with script } binding operation
    have hgrows : simulation.durable.Grows invocation.key after := by
      refine hwrites.grows fun store key data mode heq => ?_
      subst heq
      exact hlegal
    exact inv_grows h' hleaves hgrows (honest_grows h.honest hgrows)

theorem run_inv {events : List CommitEvent} (h : s.Inv invocation) (hlegal : ∀ e ∈ events, e.Legal invocation.key) :
    (run hash invocation s events).Inv invocation := by
  induction events generalizing s with
  | nil => exact h
  | cons event events ih =>
    have hstep := @step_inv hash _ _ _ h (hlegal event List.mem_cons_self)
    exact ih hstep fun e he => hlegal e (List.mem_cons_of_mem _ he)

theorem inv_init (h : simulation.durable.Absent invocation.key) :
    (⟨simulation, .fresh⟩ : CommitSystem).Inv invocation := by
  refine ⟨?_, fun entry hentry hkey => absurd hkey (h entry hentry), .inl h, h⟩
  rw [h.count]
  exact Nat.zero_le 1

end CommitSystem

end Invariant

/-! ## Result -/

/-- **At most once, and never a lie.** Over every history of one client on any store that does not hold its key: the
store holds at most one commit under the key, and it carries the client's publication; a run that ended with a receipt
left that commit at the receipt's version and chain; a run that ended refused or not applied left none. -/
theorem commit_at_most_once (hash : Bytes → Hash32) (invocation : CommitInvocation) (simulation : Simulation)
    (events : List CommitEvent) (hfresh : ∀ entry ∈ simulation.world.durable.commits, entry.key ≠ invocation.key)
    (hlegal : ∀ e ∈ events, e.Legal invocation.key) :
    let s := CommitSystem.run hash invocation ⟨simulation, .fresh⟩ events
    let durable := s.simulation.world.durable
    (durable.commits.map (·.key)).count invocation.key ≤ 1 ∧
    (∀ entry ∈ durable.commits, entry.key = invocation.key → entry.publication = invocation.publication) ∧
    (∀ receipt, s.client = .ended (.ok receipt) → ∃ i, receipt.version = i + 1 ∧
      durable.commits[i]? = some ⟨invocation.key, receipt.version, invocation.publication⟩ ∧
      durable.receipts[i]? = some receipt.chain) ∧
    (∀ code, s.client = .ended (.refused code) → ∀ entry ∈ durable.commits, entry.key ≠ invocation.key) ∧
    (∀ fault, s.client = .ended (.notApplied fault) → ∀ entry ∈ durable.commits, entry.key ≠ invocation.key) := by
  intro s durable
  have hinv : s.Inv invocation := CommitSystem.run_inv (CommitSystem.inv_init hfresh) hlegal
  refine ⟨hinv.once, hinv.own, ?_, ?_, ?_⟩
  · intro receipt hended
    have hhonest := hinv.honest
    rw [hended] at hhonest
    exact hhonest
  · intro code hended
    have hhonest := hinv.honest
    rw [hended] at hhonest
    exact hhonest
  · intro fault hended
    have hhonest := hinv.honest
    rw [hended] at hhonest
    exact hhonest

/-! ## A lost reply -/

namespace LostReply

def hash : Bytes → Hash32 := fun _ => Hash32.zero

def publication (prestate : UInt8) : PublicationData :=
  ⟨[prestate], [1], [], identity, subject hash [prestate] [1] []⟩

/-- a guarded commit of version zero -/
def invocation : CommitInvocation := ⟨7, ⟨storeIdentity, 1⟩, Hash32.zero, publication 0, .at 0⟩

def simulation : Simulation := ⟨.new (.genesis hash), ⟨2, 3⟩, Port.all, .new []⟩

/-- the commit applies and its reply is lost; another handle moves the version before the history is read -/
def events : List CommitEvent :=
  [.start ⟨1⟩, .serve (.new [3]), .serve (.new [0]),
    .other (.of ⟨0, 0⟩ .clock) (.commit ⟨storeIdentity, 2⟩ storeIdentity (publication 1) .unversioned) (.new [0]),
    .serve (.new [0]), .serve (.new [0])]

theorem run_ended : (CommitSystem.run hash invocation ⟨simulation, .fresh⟩ events).client =
    .ended (.ok ⟨1, Hash32.zero, .idempotentReplay⟩) := rfl

theorem events_legal : ∀ e ∈ events, e.Legal invocation.key := by
  intro e he
  simp only [events, List.mem_cons, List.not_mem_nil, or_false] at he
  rcases he with rfl | rfl | rfl | rfl | rfl | rfl <;> try trivial
  show storeIdentity ≠ Hash32.zero
  decide

end LostReply

theorem commit_at_most_once_lostReply :
    ((CommitSystem.run LostReply.hash LostReply.invocation ⟨LostReply.simulation, .fresh⟩
        LostReply.events).simulation.world.durable.commits.map (·.key)).count LostReply.invocation.key ≤ 1 ∧
      ∃ i, 1 = i + 1 ∧ (CommitSystem.run LostReply.hash LostReply.invocation ⟨LostReply.simulation, .fresh⟩
        LostReply.events).simulation.world.durable.commits[i]? =
          some ⟨LostReply.invocation.key, 1, LostReply.publication 0⟩ := by
  obtain ⟨honce, _, hok, _⟩ := commit_at_most_once LostReply.hash LostReply.invocation LostReply.simulation
    LostReply.events (fun entry hentry => nomatch hentry) LostReply.events_legal
  obtain ⟨i, hversion, hcommit, _⟩ := hok _ LostReply.run_ended
  exact ⟨honce, i, hversion, hcommit⟩

end ZenoFcis.Effects
