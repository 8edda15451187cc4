/-
How many requests a program issues, and in which order the driver sees them.

Model:
- the requests of a program are the questions of its dialogue, under any responses at all;
- `Run` is a driver with a log: the requests it issued, with their continuations, and those it resumed. A run takes
  replies in any order; a reply is admitted or refused by `Driver.reply`.

Results: the retry budget bounds the requests (`commit_asked`, `recover_asked`, `delivery_asked`), a driver numbers them
without a gap (`after_kept`), admits the replies that answer them and goes on from the saved continuation
(`Run.Kept.inOrder`), and together `requests_bounded`.
-/
import ZenoFcis.Effects.Driver

namespace ZenoFcis.Effects

open Lib

/-! ## Commit with recovery -/

/-- the requests that follow without spending a retry -/
def CommitPhase.pending : CommitPhase → ℕ
  | .commit => 0
  | .history => 1
  | .reopen => 2

/-- the requests that a commit step has left: every retry pays for reopening, reading and committing once -/
def commitRank : CommitStep → ℕ
  | .done _ => 0
  | .request _ _ continuation => 1 + continuation.phase.pending + 3 * continuation.retries

section

variable (continuation : CommitContinuation)

include continuation

theorem commitRank_ask (phase : CommitPhase) :
    commitRank (askCommitPhase continuation phase) ≤ 1 + phase.pending + 3 * continuation.retries := by
  unfold askCommitPhase
  split
  · split <;> exact Nat.zero_le _
  · exact le_rfl

theorem commitRank_unresolved (fault : Fault) : commitRank (unresolved continuation fault) = 0 := by
  unfold unresolved
  split <;> rfl

theorem commitRank_retry (phase : CommitPhase) (fault : Fault) :
    commitRank (retryCommitPhase continuation phase fault) ≤ 3 * continuation.retries := by
  unfold retryCommitPhase
  split_ifs with hzero
  · rw [commitRank_unresolved]
    exact Nat.zero_le _
  · have hask := commitRank_ask (spend continuation) phase
    have hspent : (spend continuation).retries = continuation.retries - 1 := rfl
    have hphase : phase.pending ≤ 2 := by cases phase <;> decide
    omega

theorem commitRank_committed (outcome : Outcome CommitReceipt) :
    commitRank (committed continuation outcome) ≤ 3 * continuation.retries := by
  cases outcome with
  | ok receipt => exact Nat.zero_le _
  | refused code => exact Nat.zero_le _
  | notApplied fault =>
    unfold committed
    dsimp only
    split_ifs with hzero
    · split <;> exact Nat.zero_le _
    · have hask := commitRank_ask { spend continuation with mode := continuation.mode } .commit
      have hspent : (spend continuation).retries = continuation.retries - 1 := rfl
      dsimp only [CommitPhase.pending] at hask
      unfold askCommit
      omega
  | unknown fault =>
    unfold committed
    dsimp only
    split_ifs with hzero
    · rw [commitRank_unresolved]
      exact Nat.zero_le _
    · refine (commitRank_ask _ _).trans ?_
      have hspent : (spend continuation).retries = continuation.retries - 1 := rfl
      dsimp only [CommitPhase.pending]
      omega

theorem commitRank_resume (response : Response) :
    commitRank (CommitProgram.resume continuation response) ≤ continuation.phase.pending + 3 *
    continuation.retries := by
  unfold CommitProgram.resume
  split
  next outcome hphase =>
    exact (commitRank_committed continuation outcome).trans (Nat.le_add_left _ _)
  next outcome hphase =>
    rw [hphase]
    split
    · exact commitRank_ask _ _
    · rw [commitRank_unresolved]
      exact Nat.zero_le _
    · exact (commitRank_retry _ _ _).trans (Nat.le_add_left _ _)
    · exact (commitRank_retry _ _ _).trans (Nat.le_add_left _ _)
  next outcome hphase =>
    rw [hphase]
    split
    · exact commitRank_ask _ _
    · rw [commitRank_unresolved]
      exact Nat.zero_le _
    · exact (commitRank_retry _ _ _).trans (Nat.le_add_left _ _)
    · exact (commitRank_retry _ _ _).trans (Nat.le_add_left _ _)
  next =>
    rw [commitRank_unresolved]
    exact Nat.zero_le _

end

theorem commit_asked (step : CommitStep) (responses : List Response) :
    (commitProgram.dialogue.asked step responses).length ≤ commitRank step := by
  refine Dialogue.length_asked_le (fun step _ => commitRank step) ?_ ?_ responses step
  · intro step operation hopen
    cases step with
    | done outcome => cases hopen
    | request id operation continuation =>
      dsimp only [commitRank]
      omega
  · intro step operation response rest hopen
    cases step with
    | done outcome => cases hopen
    | request id operation continuation =>
      have hrank := commitRank_resume continuation response
      dsimp only [commitRank]
      exact lt_of_le_of_lt hrank (by omega)

/-! ## Delivery -/

/-- the records that the run reads: those of the first read that succeeds -/
def recordsRead : List Response → ℕ
  | [] => 0
  | .readOutbox (.ok pending) :: _ => pending.length
  | _ :: responses => recordsRead responses

/-- the requests that follow without spending a retry; a record takes a send and an acknowledgement -/
def DeliveryContinuation.pendingRequests (continuation : DeliveryContinuation) (responses : List Response) : ℕ :=
  let later := 2 * (continuation.pending.length - (continuation.current + 1))
  match continuation.phase with
  | .read => 2 * recordsRead responses
  | .acknowledge => later
  | .send => 1 + later
  | .wait => 2 + later
  | .jitter => 3 + later
  | .clock => 4 + later

/-- the requests that a delivery step has left: a retry pays at most for a backoff and another send -/
def deliveryRank : DeliveryStep → List Response → ℕ
  | .done _, _ => 0
  | .request _ _ continuation, responses => 1 + continuation.pendingRequests responses + 4 * continuation.retries

section Delivery

variable {continuation : DeliveryContinuation} {responses : List Response}

theorem deliveryRank_done (outcome : Outcome ℕ) : deliveryRank (deliveryDone continuation outcome) responses = 0 := by
  unfold deliveryDone
  split
  · split <;> rfl
  · rfl

theorem deliveryRank_ask (phase : DeliveryPhase) (operation : Operation) :
    deliveryRank (ask continuation phase operation) responses ≤
      1 + DeliveryContinuation.pendingRequests { continuation with phase } responses + 4 * continuation.retries := by
  unfold ask
  split
  · rw [deliveryRank_done]
    exact Nat.zero_le _
  · exact le_rfl

/-- sending goes on with the records from `current` on -/
theorem deliveryRank_send : deliveryRank (send continuation) responses ≤
    2 * (continuation.pending.length - continuation.current) + 4 * continuation.retries := by
  unfold send
  dsimp only
  split
  · rw [deliveryRank_done]
    exact Nat.zero_le _
  next delivery hget =>
    refine (deliveryRank_ask _ _).trans ?_
    have hlt := (List.getElem?_eq_some_iff.1 hget).1
    have hskip : continuation.current ≤ skipBlocked continuation.pending continuation.blocked continuation.current :=
      Nat.le_add_right _ _
    dsimp only [DeliveryContinuation.pendingRequests]
    omega

theorem deliveryRank_failed (failed : Outcome ℕ) : deliveryRank (failedDestination continuation failed) responses ≤
    2 * (continuation.pending.length - (continuation.current + 1)) + 4 * continuation.retries := by
  unfold failedDestination
  split_ifs
  · split
    · rw [deliveryRank_done]
      exact Nat.zero_le _
    · exact deliveryRank_send
  · rw [deliveryRank_done]
    exact Nat.zero_le _

theorem deliveryRank_backOff (hretries : continuation.retries ≠ 0) : deliveryRank (backOff continuation) responses ≤
    1 + 2 * (continuation.pending.length - (continuation.current + 1)) + 4 * continuation.retries := by
  unfold backOff
  refine (deliveryRank_ask _ _).trans ?_
  dsimp only [DeliveryContinuation.pendingRequests]
  omega

theorem deliveryRank_read (outcome : Outcome (List Delivery)) : deliveryRank (read continuation outcome) responses ≤
    2 * recordsRead (.readOutbox outcome :: responses) + 4 * continuation.retries := by
  have hretry : ∀ fault, deliveryRank (if continuation.retries = 0 then deliveryDone continuation (.notApplied fault)
      else ask { continuation with retries := continuation.retries - 1 } .read
        (.readOutbox continuation.invocation.store)) responses ≤
        2 * recordsRead responses + 4 * continuation.retries := by
    intro fault
    split_ifs with hzero
    · rw [deliveryRank_done]
      exact Nat.zero_le _
    · refine (deliveryRank_ask _ _).trans ?_
      dsimp only [DeliveryContinuation.pendingRequests]
      omega
  cases outcome with
  | ok pending =>
    dsimp only [read, recordsRead]
    split_ifs
    · exact deliveryRank_send
    · rw [deliveryRank_done]
      exact Nat.zero_le _
  | refused code =>
    dsimp only [read]
    rw [deliveryRank_done]
    exact Nat.zero_le _
  | notApplied fault => exact hretry fault
  | unknown fault => exact hretry fault

theorem deliveryRank_sentOne (sent : Sent) : deliveryRank (sentOne continuation sent) responses ≤
    1 + 2 * (continuation.pending.length - (continuation.current + 1)) + 4 * continuation.retries := by
  have hfailed : ∀ (marked : DeliveryContinuation) (failed : Outcome ℕ), marked.pending = continuation.pending →
      marked.current = continuation.current → marked.retries = continuation.retries →
      deliveryRank (failedDestination marked failed) responses ≤
        1 + 2 * (continuation.pending.length - (continuation.current + 1)) + 4 * continuation.retries := by
    intro marked failed hpending hcurrent hretries
    have h := @deliveryRank_failed marked responses failed
    rw [hpending, hcurrent, hretries] at h
    omega
  cases sent with
  | sent report =>
    dsimp only [sentOne]
    split
    · rw [deliveryRank_done]
      exact Nat.zero_le _
    · split_ifs
      · refine (deliveryRank_ask _ _).trans ?_
        dsimp only [DeliveryContinuation.pendingRequests]
        omega
      · rw [deliveryRank_done]
        exact Nat.zero_le _
  | notSent code | unknown fault =>
    dsimp only [sentOne]
    split
    · rw [deliveryRank_done]
      exact Nat.zero_le _
    · split_ifs with hzero
      · exact hfailed _ _ rfl rfl rfl
      · exact deliveryRank_backOff hzero
  | refused code =>
    dsimp only [sentOne]
    split
    · rw [deliveryRank_done]
      exact Nat.zero_le _
    · exact hfailed _ _ rfl rfl rfl

theorem deliveryRank_retry (failed : Outcome ℕ) : deliveryRank (retryAcknowledge continuation failed) responses ≤
    2 * (continuation.pending.length - (continuation.current + 1)) + 4 * continuation.retries := by
  unfold retryAcknowledge
  split_ifs with hzero
  · exact deliveryRank_failed _
  · split
    · rw [deliveryRank_done]
      exact Nat.zero_le _
    · refine (deliveryRank_ask _ _).trans ?_
      dsimp only [DeliveryContinuation.pendingRequests]
      omega

theorem deliveryRank_acknowledged (outcome : Outcome Unit) :
    deliveryRank (acknowledged continuation outcome) responses ≤
      2 * (continuation.pending.length - (continuation.current + 1)) + 4 * continuation.retries := by
  unfold acknowledged
  split
  · split_ifs
    · exact deliveryRank_send
    · rw [deliveryRank_done]
      exact Nat.zero_le _
  · split_ifs
    · exact deliveryRank_send
    · rw [deliveryRank_done]
      exact Nat.zero_le _
  · exact deliveryRank_failed _
  · exact deliveryRank_retry _
  · exact deliveryRank_retry _

theorem deliveryRank_resume (continuation : DeliveryContinuation) (response : Response) (responses : List Response) :
    deliveryRank (DeliveryProgram.resume continuation response) responses ≤
      continuation.pendingRequests (response :: responses) + 4 * continuation.retries := by
  have hdone : ∀ outcome, deliveryRank (deliveryDone continuation outcome) responses ≤
      continuation.pendingRequests (response :: responses) + 4 * continuation.retries := by
    intro outcome
    rw [deliveryRank_done]
    exact Nat.zero_le _
  unfold DeliveryProgram.resume
  split
  next outcome hphase =>
    refine (deliveryRank_read outcome).trans ?_
    simp only [DeliveryContinuation.pendingRequests, hphase, le_refl]
  next sent hphase =>
    refine (deliveryRank_sentOne sent).trans ?_
    simp only [DeliveryContinuation.pendingRequests, hphase, le_refl]
  next outcome hphase =>
    refine (deliveryRank_acknowledged outcome).trans ?_
    simp only [DeliveryContinuation.pendingRequests, hphase, le_refl]
  next reading hphase =>
    split
    · split_ifs
      · refine (deliveryRank_ask _ _).trans ?_
        simp only [DeliveryContinuation.pendingRequests, hphase]
        omega
      · exact hdone _
    · exact hdone _
  next draw hphase =>
    split
    · split_ifs
      · refine (deliveryRank_ask _ _).trans ?_
        simp only [DeliveryContinuation.pendingRequests, hphase]
        omega
      · exact hdone _
      · exact hdone _
    · exact hdone _
  next woke hphase =>
    split
    · split_ifs
      · refine deliveryRank_send.trans ?_
        simp only [DeliveryContinuation.pendingRequests, hphase]
        omega
      · exact hdone _
    · exact hdone _
    · exact hdone _
  next => exact hdone _

theorem delivery_asked (step : DeliveryStep) (responses : List Response) :
    (deliveryProgram.dialogue.asked step responses).length ≤ deliveryRank step responses := by
  refine Dialogue.length_asked_le deliveryRank ?_ ?_ responses step
  · intro step operation hopen
    cases step with
    | done outcome => cases hopen
    | request id operation continuation =>
      dsimp only [deliveryRank]
      omega
  · intro step operation response rest hopen
    cases step with
    | done outcome => cases hopen
    | request id operation continuation =>
      have hrank := deliveryRank_resume continuation response rest
      dsimp only [deliveryRank]
      exact lt_of_le_of_lt hrank (by omega)

end Delivery

/-! ## Identities of requests -/

section Advances

variable {κ α : Type}

/-- a step that ends the run or requests under the identity after `id`, which it saves -/
def Advances (saved : κ → OpId) (id : OpId) : Step κ α → Prop
  | .done _ => True
  | .request id' _ continuation => id.next = some id' ∧ saved continuation = id'

/-- every request of a program continues the one that it resumed from -/
def Sequenced (program : Program κ α) (saved : κ → OpId) : Prop :=
  ∀ continuation response, Advances saved (saved continuation) (program.resume continuation response)

end Advances

section CommitAdvances

variable {continuation : CommitContinuation}

theorem askCommitPhase_advances (phase : CommitPhase) :
    Advances CommitContinuation.id continuation.id (askCommitPhase continuation phase) := by
  unfold askCommitPhase
  split
  · split <;> trivial
  next id hnext => exact ⟨hnext, rfl⟩

theorem unresolved_advances (id : OpId) (fault : Fault) :
    Advances CommitContinuation.id id (unresolved continuation fault) := by
  unfold unresolved
  split <;> trivial

theorem retryCommitPhase_advances (phase : CommitPhase) (fault : Fault) :
    Advances CommitContinuation.id continuation.id (retryCommitPhase continuation phase fault) := by
  unfold retryCommitPhase
  split_ifs
  · exact unresolved_advances _ fault
  · exact @askCommitPhase_advances (spend continuation) phase

theorem committed_advances (outcome : Outcome CommitReceipt) :
    Advances CommitContinuation.id continuation.id (committed continuation outcome) := by
  cases outcome with
  | ok receipt => trivial
  | refused code => trivial
  | notApplied fault =>
    unfold committed
    dsimp only
    split_ifs
    · split <;> trivial
    · exact @askCommitPhase_advances { spend continuation with mode := continuation.mode } .commit
  | unknown fault =>
    unfold committed
    dsimp only
    split_ifs
    · exact unresolved_advances _ fault
    · exact @askCommitPhase_advances { spend continuation with unknown := _ } .reopen

theorem commit_sequenced : Sequenced commitProgram CommitContinuation.id := by
  intro continuation response
  change Advances CommitContinuation.id continuation.id (CommitProgram.resume continuation response)
  unfold CommitProgram.resume
  split
  · exact committed_advances _
  · split
    · exact askCommitPhase_advances _
    · exact unresolved_advances _ _
    · exact retryCommitPhase_advances _ _
    · exact retryCommitPhase_advances _ _
  · split
    · exact @askCommitPhase_advances { continuation with mode := _ } .commit
    · exact unresolved_advances _ _
    · exact retryCommitPhase_advances _ _
    · exact retryCommitPhase_advances _ _
  · exact unresolved_advances _ _

end CommitAdvances

section DeliveryAdvances

variable {continuation : DeliveryContinuation}

theorem deliveryDone_advances (id : OpId) (outcome : Outcome ℕ) :
    Advances DeliveryContinuation.id id (deliveryDone continuation outcome) := by
  unfold deliveryDone
  split
  · split <;> trivial
  · trivial

theorem ask_advances (phase : DeliveryPhase) (operation : Operation) :
    Advances DeliveryContinuation.id continuation.id (ask continuation phase operation) := by
  unfold ask
  split
  · exact deliveryDone_advances _ _
  next id hnext => exact ⟨hnext, rfl⟩

theorem send_advances : Advances DeliveryContinuation.id continuation.id (send continuation) := by
  unfold send
  dsimp only
  split
  · exact deliveryDone_advances _ _
  · exact @ask_advances { continuation with current := _ } _ _

theorem failedDestination_advances (failed : Outcome ℕ) :
    Advances DeliveryContinuation.id continuation.id (failedDestination continuation failed) := by
  unfold failedDestination
  split_ifs
  · split
    · exact deliveryDone_advances _ _
    next delivery hget =>
      exact @send_advances { continuation with
        blocked := delivery.destination :: continuation.blocked
        failed := continuation.failed.or (some failed)
        current := continuation.current + 1 }
  · exact deliveryDone_advances _ _

theorem backOff_advances : Advances DeliveryContinuation.id continuation.id (backOff continuation) :=
  @ask_advances { continuation with retries := continuation.retries - 1 } _ _

theorem read_advances (outcome : Outcome (List Delivery)) :
    Advances DeliveryContinuation.id continuation.id (read continuation outcome) := by
  have hretry : ∀ fault, Advances DeliveryContinuation.id continuation.id
      (if continuation.retries = 0 then deliveryDone continuation (.notApplied fault)
      else ask { continuation with retries := continuation.retries - 1 } .read
        (.readOutbox continuation.invocation.store)) := by
    intro fault
    split_ifs
    · exact deliveryDone_advances _ _
    · exact @ask_advances { continuation with retries := continuation.retries - 1 } _ _
  cases outcome with
  | ok pending =>
    dsimp only [read]
    split_ifs
    · exact @send_advances { continuation with pending, current := 0 }
    · exact deliveryDone_advances _ _
  | refused code => exact deliveryDone_advances _ _
  | notApplied fault => exact hretry fault
  | unknown fault => exact hretry fault

theorem sentOne_advances (sent : Sent) :
    Advances DeliveryContinuation.id continuation.id (sentOne continuation sent) := by
  cases sent with
  | sent report =>
    dsimp only [sentOne]
    split
    · exact deliveryDone_advances _ _
    · split_ifs
      · exact @ask_advances { continuation with mayHaveSent := true } _ _
      · exact deliveryDone_advances _ _
  | notSent code =>
    dsimp only [sentOne]
    split
    · exact deliveryDone_advances _ _
    · split_ifs
      · exact failedDestination_advances _
      · exact backOff_advances
  | refused code =>
    dsimp only [sentOne]
    split
    · exact deliveryDone_advances _ _
    · exact failedDestination_advances _
  | unknown fault =>
    dsimp only [sentOne]
    split
    · exact deliveryDone_advances _ _
    · split_ifs
      · exact @failedDestination_advances { continuation with mayHaveSent := true } _
      · exact @backOff_advances { continuation with mayHaveSent := true }

theorem retryAcknowledge_advances (failed : Outcome ℕ) :
    Advances DeliveryContinuation.id continuation.id (retryAcknowledge continuation failed) := by
  unfold retryAcknowledge
  split_ifs
  · exact failedDestination_advances _
  · split
    · exact deliveryDone_advances _ _
    · exact @ask_advances { continuation with retries := continuation.retries - 1 } _ _

theorem acknowledged_advances (outcome : Outcome Unit) :
    Advances DeliveryContinuation.id continuation.id (acknowledged continuation outcome) := by
  have hnext : Advances DeliveryContinuation.id continuation.id
      (if continuation.acknowledged + 1 ≤ u64Max then
        send { continuation with
          acknowledged := continuation.acknowledged + 1
          current := continuation.current + 1 }
      else deliveryDone continuation (.refused .range)) := by
    split_ifs
    · exact @send_advances { continuation with
        acknowledged := continuation.acknowledged + 1
        current := continuation.current + 1 }
    · exact deliveryDone_advances _ _
  unfold acknowledged
  split
  · exact hnext
  · exact hnext
  · exact failedDestination_advances _
  · exact retryAcknowledge_advances _
  · exact retryAcknowledge_advances _

theorem delivery_sequenced : Sequenced deliveryProgram DeliveryContinuation.id := by
  intro continuation response
  change Advances DeliveryContinuation.id continuation.id (DeliveryProgram.resume continuation response)
  have hdone : ∀ outcome, Advances DeliveryContinuation.id continuation.id (deliveryDone continuation outcome) :=
    fun outcome => deliveryDone_advances _ outcome
  unfold DeliveryProgram.resume
  split
  · exact read_advances _
  · exact sentOne_advances _
  · exact acknowledged_advances _
  · split
    next now =>
      split_ifs
      · exact @ask_advances { continuation with tick := now } _ _
      · exact hdone _
    · exact hdone _
  · split
    · split_ifs
      · exact @ask_advances { continuation with tick := _ } _ _
      · exact hdone _
      · exact hdone _
    · exact hdone _
  · split
    · split_ifs
      · exact send_advances
      · exact hdone _
    · exact hdone _
    · exact hdone _
  · exact hdone _

end DeliveryAdvances

/-! ## Numbering by the driver -/

section Driven

variable {κ α : Type}

/-- the outstanding request's identity, with the continuation saved for it -/
def Driver.waiting (driver : Driver κ α) : Option (OpId × κ) :=
  match driver.state with
  | .waiting binding _ continuation => some (binding.id, continuation)
  | .done _ | .failed _ => none

/-- the reply is bound to the request, and its success payload, if it has one, fits what the port answers -/
structure Reply.Answers (registry : Registry) (binding : Binding) (reply : Reply) : Prop where
  bound : reply.binding = binding
  port : reply.response.port = binding.port
  typed : ∀ value ∈ reply.response.value, ∃ signature, registry.signature binding.port = some signature ∧
    conforms signature.answer.payload value "result" = .ok ()

/-- a request of a port that is declared and listed, with arguments that fit its schema -/
structure Operation.Fits (program : Program κ α) (registry : Registry) (operation : Operation) : Prop where
  listed : program.ports.contains operation.port = true
  typed : ∃ signature, registry.signature operation.port = some signature ∧
    conforms signature.arguments operation.value "arguments" = .ok ()

/-- the state that a step leads to: the end of the run, or its request outstanding with the continuation it saves; a
request that does not fit ends the run, and not as one out of sequence -/
def Step.Leads (program : Program κ α) (registry : Registry) : Step κ α → Driver.State κ α → Prop
  | .done outcome, state => state = .done outcome
  | .request id operation continuation, state =>
    (operation.Fits program registry ∧ state = .waiting (Binding.of id operation) operation continuation) ∨
      (¬ operation.Fits program registry ∧ ∃ fatal, fatal ≠ .sequence ∧ state = .failed fatal)

/-- a driver with its log: the requests issued and those resumed, oldest first, with their continuations -/
structure Run (κ α : Type) where
  driver : Driver κ α
  issued : List (OpId × κ)
  resumed : List (OpId × κ)

namespace Run

/-- the run of a driver that was just started -/
def start (driver : Driver κ α) : Run κ α := ⟨driver, driver.waiting.toList, []⟩

/-- one reply: an admitted one resumes the outstanding continuation -/
def step (program : Program κ α) (run : Run κ α) (reply : Reply) : Run κ α :=
  match run.driver.reply program reply with
  | (.error _, driver) => { run with driver }
  | (.ok (), driver) => ⟨driver, run.issued ++ driver.waiting.toList, run.resumed ++ run.driver.waiting.toList⟩

/-- the run after replies in any order -/
def after (program : Program κ α) (run : Run κ α) (replies : List Reply) : Run κ α := replies.foldl (step program) run

/-- the requests of `epoch` are numbered without a gap, and each but the outstanding one is resumed once, in order; the
replies that answer the outstanding request are those admitted, the program goes on from its saved continuation, and a
refused reply leaves the driver as it was -/
structure InOrder (program : Program κ α) (registry : Registry) (epoch : ℕ) (run : Run κ α) : Prop where
  numbered : run.issued.map Prod.fst = (List.range run.issued.length).map (OpId.mk epoch)
  resumed_once : run.issued = run.resumed ++ run.driver.waiting.toList
  not_sequence : run.driver.failure ≠ some .sequence
  admitted : ∀ reply, (run.driver.reply program reply).1 = .ok () ↔ ∃ binding operation continuation,
    run.driver.state = .waiting binding operation continuation ∧ reply.Answers registry binding
  resumes : ∀ reply binding operation continuation, run.driver.state = .waiting binding operation continuation →
    reply.Answers registry binding → (program.resume continuation reply.response).Leads program registry
      (run.driver.reply program reply).2.state
  refused : ∀ reply refusal, (run.driver.reply program reply).1 = .error refusal →
    (run.driver.reply program reply).2 = run.driver

end Run

variable {program : Program κ α} {registry : Registry} {saved : κ → OpId} {epoch : ℕ}

theorem admitStep_cases (id expected : OpId) (operation : Operation) (continuation : κ) :
    (∃ fatal, Driver.admitStep program registry expected (.request id operation continuation) = .error fatal ∧
      (id = expected → fatal ≠ .sequence ∧ ¬ operation.Fits program registry)) ∨
    (id = expected ∧ operation.Fits program registry ∧
      Driver.admitStep program registry expected (.request id operation continuation) =
        .ok (.waiting (Binding.of id operation) operation continuation)) := by
  unfold Driver.admitStep
  by_cases hid : id = expected
  · simp only [hid, ne_eq, not_true_eq_false, if_false]
    cases hsignature : registry.signature operation.port with
    | none =>
      refine Or.inl ⟨_, rfl, fun _ => ⟨by simp, fun hfits => ?_⟩⟩
      obtain ⟨_, hsome, _⟩ := hfits.typed
      rw [hsignature] at hsome
      cases hsome
    | some signature =>
      dsimp only
      split_ifs with hlisted
      · refine Or.inl ⟨_, rfl, fun _ => ⟨by simp, fun hfits => ?_⟩⟩
        rw [hfits.listed] at hlisted
        cases hlisted
      · cases hconforms : conforms signature.arguments operation.value "arguments" with
        | error error =>
          refine Or.inl ⟨_, rfl, fun _ => ⟨by simp, fun hfits => ?_⟩⟩
          obtain ⟨_, hsome, hok⟩ := hfits.typed
          obtain rfl := Option.some.inj (hsignature.symm.trans hsome)
          rw [hconforms] at hok
          cases hok
        | ok valid =>
          exact Or.inr ⟨trivial, ⟨by simpa using hlisted, signature, hsignature, hconforms⟩, rfl⟩
  · simp only [ne_eq, hid, not_false_eq_true, if_true]
    exact Or.inl ⟨_, rfl, False.elim⟩

/-- a step that continues the request `id` is taken as it is -/
theorem resumed_leads {id : OpId} {step : Step κ α} (h : Advances saved id step) :
    step.Leads program registry (Driver.resumed program registry id step) := by
  unfold Driver.resumed
  cases step with
  | done outcome => split <;> rfl
  | request id' operation continuation =>
    rw [h.1]
    dsimp only
    rcases @admitStep_cases _ _ program registry id' id' operation continuation with
      ⟨fatal, hrefused, hnot⟩ | ⟨-, hfits, hadmits⟩
    · rw [hrefused]
      exact Or.inr ⟨(hnot rfl).2, fatal, (hnot rfl).1, rfl⟩
    · rw [hadmits]
      exact Or.inl ⟨hfits, rfl⟩

theorem reply_cases (driver : Driver κ α) (reply : Reply) :
    (∃ refusal, driver.reply program reply = (.error refusal, driver) ∧
      ∀ binding operation continuation, driver.state = .waiting binding operation continuation →
        driver.check binding reply = .error refusal) ∨
      ∃ binding operation continuation, driver.state = .waiting binding operation continuation ∧
        driver.check binding reply = .ok () ∧ driver.reply program reply = (.ok (), { driver with
          answered := some binding.id
          state := Driver.resumed program driver.registry binding.id
            (program.resume continuation reply.response) }) := by
  unfold Driver.reply
  cases hstate : driver.state with
  | waiting binding operation continuation =>
    dsimp only
    cases hcheck : driver.check binding reply with
    | error refusal =>
      refine Or.inl ⟨refusal, rfl, fun b o c h => ?_⟩
      cases h
      exact hcheck
    | ok valid => exact Or.inr ⟨binding, operation, continuation, rfl, hcheck, rfl⟩
  | done outcome => exact Or.inl ⟨_, rfl, by simp⟩
  | failed fatal => exact Or.inl ⟨_, rfl, by simp⟩

theorem checkStore_eq_ok {got expected : Option Store} {u : Unit} :
    Driver.checkStore got expected = .ok u ↔ got = expected := by
  rcases got with _ | ⟨identity, handle⟩ <;> rcases expected with _ | ⟨identity', handle'⟩ <;>
    simp only [Driver.checkStore, reduceCtorEq, Option.some.injEq, Store.mk.injEq]
  split_ifs <;> simp_all

/-- the checks of a reply, for a request of the driver's epoch that was not answered yet -/
theorem check_eq_ok {driver : Driver κ α} {binding : Binding} {reply : Reply} (hepoch : driver.epoch = binding.id.epoch)
    (hnew : driver.answered ≠ some binding.id) :
    driver.check binding reply = .ok () ↔ reply.Answers driver.registry binding := by
  unfold Driver.check
  simp only [Except.bind_eq_ok, Except.ensure_eq_ok, checkStore_eq_ok, exists_const]
  constructor
  · rintro ⟨⟨_, hid⟩, _, _, hordinal, ⟨hport, hresponse⟩, hstore, hsubject, hvalue⟩
    refine ⟨?_, hresponse, fun value hmem => ?_⟩
    · obtain ⟨⟨⟨epoch, ordinal⟩, port, store, subject⟩, response⟩ := reply
      obtain ⟨⟨epoch', ordinal'⟩, port', store', subject'⟩ := binding
      obtain rfl : epoch = epoch' := hid
      obtain rfl : ordinal = ordinal' := hordinal
      obtain rfl : port = port' := hport
      obtain rfl : store = store' := hstore
      obtain rfl : subject = subject' := hsubject
      rfl
    · rw [Option.mem_def.1 hmem] at hvalue
      cases hsignature : driver.registry.signature binding.port with
      | none =>
        rw [hsignature] at hvalue
        cases hvalue
      | some signature =>
        rw [hsignature] at hvalue
        exact ⟨signature, rfl, Except.mapError_eq_ok.1 hvalue⟩
  · rintro ⟨rfl, hresponse, htyped⟩
    refine ⟨⟨hepoch.symm, rfl⟩, hnew.symm, le_rfl, rfl, ⟨rfl, hresponse⟩, rfl, rfl, ?_⟩
    cases hvalue : reply.response.value with
    | none => rfl
    | some value =>
      obtain ⟨signature, hsignature, hconforms⟩ := htyped value hvalue
      rw [hsignature]
      exact Except.mapError_eq_ok.2 hconforms

/-- what every run keeps: its log is in order and agrees with the driver, and the outstanding continuation saved its
identity -/
structure Run.Kept (saved : κ → OpId) (registry : Registry) (epoch : ℕ) (run : Run κ α) : Prop where
  numbered : run.issued.map Prod.fst = (List.range run.issued.length).map (OpId.mk epoch)
  resumed_once : run.issued = run.resumed ++ run.driver.waiting.toList
  not_sequence : run.driver.failure ≠ some .sequence
  saves : ∀ binding operation continuation, run.driver.state = .waiting binding operation continuation →
    saved continuation = binding.id
  registry_eq : run.driver.registry = registry
  epoch_eq : run.driver.epoch = epoch
  answered : ∀ id ∈ run.driver.answered, id.ordinal < run.resumed.length

theorem waiting_toList {driver : Driver κ α} {binding : Binding} {operation : Operation} {continuation : κ}
    (h : driver.state = .waiting binding operation continuation) :
    driver.waiting.toList = [(binding.id, continuation)] := by
  unfold Driver.waiting
  rw [h]
  rfl

/-- the outstanding request is the last one issued -/
theorem Run.Kept.outstanding {run : Run κ α} (h : run.Kept saved registry epoch) {binding : Binding}
    {operation : Operation} {continuation : κ} (hstate : run.driver.state = .waiting binding operation continuation) :
    run.issued = run.resumed ++ [(binding.id, continuation)] ∧ binding.id = ⟨epoch, run.resumed.length⟩ := by
  have hissued : run.issued = run.resumed ++ [(binding.id, continuation)] := by
    rw [h.resumed_once, waiting_toList hstate]
  have hnumbered := h.numbered
  rw [hissued, List.length_append, List.length_singleton, List.range_succ, List.map_append,
    List.map_append] at hnumbered
  exact ⟨hissued, (List.cons.inj (List.append_inj' hnumbered rfl).2).1⟩

theorem Run.Kept.check_iff {run : Run κ α} (h : run.Kept saved registry epoch) {binding : Binding}
    {operation : Operation} {continuation : κ} (hstate : run.driver.state = .waiting binding operation continuation)
    (reply : Reply) : run.driver.check binding reply = .ok () ↔ reply.Answers registry binding := by
  have hid := (h.outstanding hstate).2
  rw [check_eq_ok (by rw [h.epoch_eq, hid]) (fun hanswered => ?_), h.registry_eq]
  have hlt := h.answered binding.id hanswered
  rw [hid] at hlt
  exact lt_irrefl _ hlt

theorem Run.Kept.inOrder (hprogram : Sequenced program saved) {run : Run κ α} (h : run.Kept saved registry epoch) :
    run.InOrder program registry epoch where
  numbered := h.numbered
  resumed_once := h.resumed_once
  not_sequence := h.not_sequence
  admitted reply := by
    rcases @reply_cases _ _ program run.driver reply with ⟨refusal, hreply, hrefused⟩ | ⟨b, o, c, hstate, hcheck, hreply⟩
    · rw [hreply]
      refine ⟨by simp, fun ⟨b, o, c, hstate, hanswers⟩ => ?_⟩
      cases ((h.check_iff hstate reply).2 hanswers).symm.trans (hrefused b o c hstate)
    · rw [hreply]
      exact ⟨fun _ => ⟨b, o, c, hstate, (h.check_iff hstate reply).1 hcheck⟩, fun _ => rfl⟩
  resumes reply binding operation continuation hstate hanswers := by
    rcases @reply_cases _ _ program run.driver reply with ⟨refusal, _, hrefused⟩ | ⟨b, o, c, hstate', _, hreply⟩
    · cases ((h.check_iff hstate reply).2 hanswers).symm.trans (hrefused _ _ _ hstate)
    · rw [hstate] at hstate'
      cases hstate'
      rw [hreply, h.registry_eq]
      refine @resumed_leads _ _ _ _ saved _ _ ?_
      rw [← h.saves _ _ _ hstate]
      exact hprogram continuation reply.response
  refused reply refusal hrefused := by
    rcases @reply_cases _ _ program run.driver reply with ⟨_, hreply, _⟩ | ⟨_, _, _, _, _, hreply⟩
    · rw [hreply]
    · rw [hreply] at hrefused
      cases hrefused

theorem step_kept (hprogram : Sequenced program saved) {run : Run κ α} (h : run.Kept saved registry epoch)
    (reply : Reply) : (run.step program reply).Kept saved registry epoch := by
  unfold Run.step
  rcases @reply_cases _ _ program run.driver reply with ⟨refusal, hreply, _⟩ | ⟨b, operation, c, hstate, _, hreply⟩
  · rw [hreply]
    exact h
  · rw [hreply]
    dsimp only
    obtain ⟨hissued, hid⟩ := h.outstanding hstate
    have hanswered : ∀ id ∈ some b.id, id.ordinal < (run.resumed ++ run.driver.waiting.toList).length := by
      intro id hmem
      obtain rfl := Option.some.inj hmem
      rw [hid, waiting_toList hstate, List.length_append, List.length_singleton]
      exact Nat.lt_succ_self _
    have hadvances : Advances saved b.id (program.resume c reply.response) := by
      rw [← h.saves _ _ _ hstate]
      exact hprogram c reply.response
    have hleads := @resumed_leads _ _ program run.driver.registry saved b.id _ hadvances
    generalize Driver.resumed program run.driver.registry b.id (program.resume c reply.response) = state at hleads
    have hlog : run.resumed ++ run.driver.waiting.toList = run.issued := by rw [h.resumed_once]
    cases hstep : program.resume c reply.response with
    | done outcome =>
      rw [hstep] at hleads
      obtain rfl : state = .done outcome := hleads
      exact ⟨by simpa [Driver.waiting] using h.numbered, by simpa [Driver.waiting] using hlog.symm,
        by simp [Driver.failure],
        by simp, h.registry_eq, h.epoch_eq, hanswered⟩
    | request id operation' c' =>
      rw [hstep] at hleads hadvances
      rcases hleads with ⟨_, rfl⟩ | ⟨_, fatal, hfatal, rfl⟩
      · obtain ⟨hnext, hsaved⟩ := hadvances
        have hid' : id = ⟨epoch, run.issued.length⟩ := by
          unfold OpId.next at hnext
          split_ifs at hnext
          rw [← Option.some.inj hnext, hid, hissued, List.length_append, List.length_singleton]
        refine ⟨?_, by rw [hlog], by simp [Driver.failure], ?_, h.registry_eq, h.epoch_eq, hanswered⟩
        · rw [Driver.waiting, Option.toList_some, List.length_append, List.length_singleton, List.range_succ,
            List.map_append, List.map_append, h.numbered]
          simp [hid', Binding.of]
        · intro binding operation'' continuation heq
          cases heq
          exact hsaved
      · exact ⟨by simpa [Driver.waiting] using h.numbered, by simpa [Driver.waiting] using hlog.symm,
          by simpa [Driver.failure] using hfatal, by simp, h.registry_eq, h.epoch_eq, hanswered⟩

theorem after_kept (hprogram : Sequenced program saved) (replies : List Reply) {run : Run κ α}
    (h : run.Kept saved registry epoch) : (run.after program replies).Kept saved registry epoch := by
  induction replies generalizing run with
  | nil => exact h
  | cons reply replies ih => exact ih (step_kept hprogram h reply)

theorem start_kept {id : OpId} {operation : Operation} {continuation : κ} {driver : Driver κ α}
    {first : Step κ α} (hfirst : first = .request id operation continuation) (hsaved : saved continuation = id)
    (h : Driver.start program registry epoch first = .ok driver) : (Run.start driver).Kept saved registry epoch := by
  subst hfirst
  unfold Driver.start at h
  obtain ⟨_, _, h⟩ := Except.bind_eq_ok.1 h
  obtain ⟨_, _, h⟩ := Except.bind_eq_ok.1 h
  obtain ⟨state, hadmits, h⟩ := Except.bind_eq_ok.1 h
  cases h
  rcases @admitStep_cases _ _ program registry id (OpId.first epoch) operation continuation with
    ⟨fatal, hrefused, -⟩ | ⟨hid, -, hadmitted⟩
  · rw [hrefused] at hadmits
    cases hadmits
  · rw [hadmitted] at hadmits
    cases hadmits
    refine ⟨?_, rfl, by simp [Run.start, Driver.failure], ?_, rfl, rfl, by simp [Run.start]⟩
    · simp [Run.start, Driver.waiting, Binding.of, hid, OpId.first]
    · intro binding operation' continuation' heq
      cases heq
      exact hsaved

/-- **Programs stay within their budget and in sequence.** A commit requests at most `1 + 3r` times with `r` retries, a
recovery `3 + 3r` times, and a delivery of `n` records `1 + 2n + 4r` times, whatever is answered. Under the driver, in any
order of admitted and refused replies, the requests are numbered from zero, each is resumed once, from the continuation
it saved and by a reply that answers it, none is out of sequence, and a refused reply changes nothing. -/
theorem requests_bounded :
    (∀ (invocation : CommitInvocation) (policy : CommitPolicy) (responses : List Response),
      (commitProgram.dialogue.asked (CommitProgram.start invocation policy) responses).length ≤ 1 + 3 * policy.retries ∧
      (commitProgram.dialogue.asked (CommitProgram.recover invocation policy) responses).length ≤
        3 + 3 * policy.retries) ∧
    (∀ (invocation : DeliveryInvocation) (policy : DeliveryPolicy) (isolateDestinations : Bool)
      (responses : List Response),
      (deliveryProgram.dialogue.asked (DeliveryProgram.startWithIsolation invocation policy isolateDestinations)
        responses).length ≤ 1 + 2 * recordsRead responses + 4 * policy.retries) ∧
    (∀ (registry : Registry) (epoch : ℕ) (invocation : CommitInvocation) (policy : CommitPolicy) (first : CommitStep)
      (driver : Driver CommitContinuation CommitReceipt) (replies : List Reply),
      first = CommitProgram.start invocation policy ∨ first = CommitProgram.recover invocation policy →
      Driver.start commitProgram registry epoch first = .ok driver →
      ((Run.start driver).after commitProgram replies).InOrder commitProgram registry epoch) ∧
    ∀ (registry : Registry) (epoch : ℕ) (invocation : DeliveryInvocation) (policy : DeliveryPolicy)
      (isolateDestinations : Bool) (driver : Driver DeliveryContinuation ℕ) (replies : List Reply),
      Driver.start deliveryProgram registry epoch
        (DeliveryProgram.startWithIsolation invocation policy isolateDestinations) = .ok driver →
      ((Run.start driver).after deliveryProgram replies).InOrder deliveryProgram registry epoch := by
  refine ⟨fun invocation policy responses => ⟨commit_asked _ responses, commit_asked _ responses⟩, ?_, ?_, ?_⟩
  · intro invocation policy isolateDestinations responses
    exact delivery_asked _ responses
  · intro registry epoch invocation policy first driver replies hfirst hstart
    rcases hfirst with rfl | rfl
    · exact (after_kept commit_sequenced replies (start_kept (by rfl) (by rfl) hstart)).inOrder commit_sequenced
    · exact (after_kept commit_sequenced replies (start_kept (by rfl) (by rfl) hstart)).inOrder commit_sequenced
  · intro registry epoch invocation policy isolateDestinations driver replies hstart
    exact (after_kept delivery_sequenced replies (start_kept (by rfl) (by rfl) hstart)).inOrder delivery_sequenced

end Driven

namespace Sample

def store : Store := ⟨Hash32.zero, 1⟩

/-- a reply that no request asked for -/
def stray : Reply := ⟨⟨⟨7, 0⟩, .clock, none, []⟩, .clock (.ok ⟨7, 0⟩)⟩

/-- a reply bound to the request of an operation -/
def bound (ordinal : ℕ) (operation : Operation) (response : Response) : Reply :=
  ⟨Binding.of ⟨0, ordinal⟩ operation, response⟩

def invocation : CommitInvocation := ⟨0, store, Hash32.zero, ⟨[], [], [], [], []⟩, .unversioned⟩

def snapshot : Snapshot := ⟨3, [], [], Hash32.zero, Hash32.zero⟩

def receipt : CommitReceipt := ⟨4, Hash32.zero, .committed⟩

/-- a recovery whose store fails to open once: a stray reply, one twice, and those that carry it to its receipt -/
def commitReplies : List Reply :=
  [stray, bound 0 (.reopen store) (.reopen (.notApplied .busy)), bound 0 (.reopen store) (.reopen (.ok snapshot)),
    bound 1 (.reopen store) (.reopen (.ok snapshot)), bound 2 (.readHistory store) (.readHistory (.ok ⟨snapshot, []⟩)),
    stray, bound 3 (commitOperation invocation .unversioned) (.commit (.ok receipt))]

def record : Delivery := ⟨Hash32.zero, 3, 0, 0, [], [], Hash32.zero⟩

/-- a delivery of one record -/
def deliveryReplies : List Reply :=
  [bound 0 (.readOutbox store) (.readOutbox (.ok [record])), stray,
    bound 1 (.send store record) (.send (.sent ⟨Hash32.zero, Hash32.zero⟩)),
    bound 2 (.acknowledge store Hash32.zero Hash32.zero) (.acknowledge (.ok ()))]

theorem commit_started : ∃ driver,
    Driver.start commitProgram registry 0 (CommitProgram.recover invocation ⟨2⟩) = .ok driver ∧
    driver.state = .waiting (Binding.of ⟨0, 0⟩ (.reopen store)) (.reopen store)
      ⟨.reopen, ⟨0, 0⟩, 2, .unversioned, some .io, invocation⟩ ∧
    ((Run.start driver).after commitProgram commitReplies).driver.outcome = some (.ok receipt) ∧
    ((Run.start driver).after commitProgram commitReplies).resumed.map (fun x => x.1.ordinal) = [0, 1, 2, 3] := by
  rw [Driver.start, registry_checked]
  exact ⟨_, rfl, rfl, rfl, rfl⟩

theorem delivery_started : ∃ driver,
    Driver.start deliveryProgram registry 0 (DeliveryProgram.start ⟨0, store⟩ ⟨1, 0, 1⟩) = .ok driver ∧
    ((Run.start driver).after deliveryProgram deliveryReplies).driver.outcome = some (.ok 1) ∧
    ((Run.start driver).after deliveryProgram deliveryReplies).resumed.map (fun x => x.1.ordinal) = [0, 1, 2] := by
  rw [Driver.start, registry_checked]
  exact ⟨_, rfl, rfl, rfl⟩

theorem opened_answers : (bound 0 (.reopen store) (.reopen (.ok snapshot))).Answers registry
    (Binding.of ⟨0, 0⟩ (.reopen store)) := by
  refine ⟨rfl, rfl, fun value hvalue => ?_⟩
  obtain rfl := Option.some.inj hvalue
  exact ⟨_, rfl, rfl⟩

end Sample

/-- a recovered commit and a delivery under the shipped registry, each answered to its end among replies that are
refused; the snapshot of the reopened store is admitted and resumes the saved continuation -/
theorem requests_bounded_started : ∃ driver driver',
    (Driver.start commitProgram registry 0 (CommitProgram.recover Sample.invocation ⟨2⟩) = .ok driver ∧
      (driver.reply commitProgram (Sample.bound 0 (.reopen Sample.store) (.reopen (.ok Sample.snapshot)))).1 = .ok () ∧
      (CommitProgram.resume ⟨.reopen, ⟨0, 0⟩, 2, .unversioned, some .io, Sample.invocation⟩
        (.reopen (.ok Sample.snapshot))).Leads commitProgram registry
        (driver.reply commitProgram (Sample.bound 0 (.reopen Sample.store) (.reopen (.ok Sample.snapshot)))).2.state ∧
      ((Run.start driver).after commitProgram Sample.commitReplies).InOrder commitProgram registry 0 ∧
      ((Run.start driver).after commitProgram Sample.commitReplies).driver.outcome = some (.ok Sample.receipt) ∧
      ((Run.start driver).after commitProgram Sample.commitReplies).resumed.map (fun x => x.1.ordinal) = [0, 1, 2, 3]) ∧
    Driver.start deliveryProgram registry 0 (DeliveryProgram.start ⟨0, Sample.store⟩ ⟨1, 0, 1⟩) = .ok driver' ∧
    ((Run.start driver').after deliveryProgram Sample.deliveryReplies).InOrder deliveryProgram registry 0 ∧
    ((Run.start driver').after deliveryProgram Sample.deliveryReplies).driver.outcome = some (.ok 1) ∧
    ((Run.start driver').after deliveryProgram Sample.deliveryReplies).resumed.map (fun x => x.1.ordinal) = [0, 1, 2] := by
  obtain ⟨driver, hdriver, hstate, houtcome, hresumed⟩ := Sample.commit_started
  obtain ⟨driver', hdriver', houtcome', hresumed'⟩ := Sample.delivery_started
  obtain ⟨_, _, hcommit, hdelivery⟩ := requests_bounded
  have hfirst := hcommit registry 0 Sample.invocation ⟨2⟩ _ driver [] (Or.inr rfl) hdriver
  exact ⟨driver, driver', ⟨hdriver, (hfirst.admitted _).2 ⟨_, _, _, hstate, Sample.opened_answers⟩,
    hfirst.resumes _ _ _ _ hstate Sample.opened_answers, hcommit _ _ _ _ _ _ _ (Or.inr rfl) hdriver, houtcome, hresumed⟩,
    hdriver', hdelivery _ _ _ _ _ _ _ hdriver', houtcome', hresumed'⟩

end ZenoFcis.Effects
