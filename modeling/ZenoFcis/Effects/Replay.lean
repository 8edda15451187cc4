/-
Recorded runs and their replay (`effects/record.rs`, `effects/handler.rs`, `effects/durable.rs`).

Model:
- `Drives`: a driver and a recorder in front of a terminal. Each outstanding request is handled; an answer is fed to the
  driver, a suspended request is handled again, and the run ends at a crash or with the program's recorded outcome;
- a recorder is a stack or a relay with its world; its terminal is arbitrary;
- `Follows`: the entries of a run of the pure program, without driver, recorder and hashes.

Results: a recorded run replays (`stack_replays`, `relay_replays`), provided that a suspension keeps no reservation once
something is recorded: it leaves no entry, so replay does not see what it reserved (`kept_reservation_mismatch`).
Conversely, an accepted transcript follows the pure program (`replay_follows`).
-/
import ZenoFcis.Effects.Relay

namespace ZenoFcis.Effects

open Lib.Except

/-! ## The chain -/

section Chain

variable {build : Build} {transcript : Transcript}

/-- the digest after `links`, from `previous` on -/
def tipFrom (previous : Hash32) (links : List Link) : Hash32 :=
  match links.getLast? with
  | some link => link.digest
  | none => previous

theorem verifyFrom_append {previous tip : Hash32} {index : ℕ} {links : List Link} {entry : Entry}
    (htip : tipFrom previous links = tip) (h : Transcript.verifyFrom build previous index links = .ok ()) :
    Transcript.verifyFrom build previous index (links ++ [⟨entry, tip, linkDigest build tip entry⟩]) = .ok () := by
  induction links generalizing previous index with
  | nil =>
    subst htip
    simp [Transcript.verifyFrom, tipFrom]
  | cons link links ih =>
    rw [Transcript.verifyFrom] at h
    split at h
    · cases h
    next hlink =>
      rw [List.cons_append, Transcript.verifyFrom, if_neg hlink]
      refine ih ?_ h
      rw [← htip]
      cases links with
      | nil => rfl
      | cons =>
        rw [tipFrom, tipFrom, List.getLast?_cons_cons]
        rfl

theorem verify_append (entry : Entry) (h : transcript.verify build = .ok ()) :
    (transcript.append build entry).verify build = .ok () :=
  verifyFrom_append rfl h

theorem appendAll_links (entries : List Entry) :
    ∃ links, transcript.appendAll build entries = { transcript with links := transcript.links ++ links } ∧
      links.map (·.entry) = entries ∧
      (transcript.verify build = .ok () → (transcript.appendAll build entries).verify build = .ok ()) := by
  induction entries generalizing transcript with
  | nil => exact ⟨[], by rw [List.append_nil]; rfl, rfl, id⟩
  | cons entry entries ih =>
    obtain ⟨links, hlinks, hentries, hverify⟩ := @ih (transcript.append build entry)
    refine ⟨⟨entry, transcript.tip build, linkDigest build (transcript.tip build) entry⟩ :: links, hlinks.trans ?_,
      by rw [List.map_cons, hentries], fun h => hverify (verify_append entry h)⟩
    rw [Transcript.append]
    dsimp only
    rw [List.append_assoc]
    rfl

end Chain

/-! ## One exchange -/

section Exchange

variable {κ α : Type} {build : Build} {program : Program κ α} {done : Outcome α → Bytes} {driver driver' : Driver κ α}
  {monitors : List Monitor} {position : ℕ} {binding : Binding} {operation : Operation} {continuation : κ}
  {links rest : List Link}

/-- what is recorded of a request before its answer -/
def asked (build : Build) (monitors : List Monitor) (binding : Binding) (operation : Operation) : List Entry :=
  .request binding operation ::
    if monitors = [] then [] else [.policy binding (admitOperation build monitors operation).2]

theorem replayLoop_exchange {answer : Entry} (hstate : driver.state = .waiting binding operation continuation)
    (hlinks : links.map (·.entry) = asked build monitors binding operation ++ [answer]) :
    ∃ position', replayLoop build program done driver monitors position (links ++ rest) =
      match replayAnswer program driver binding (admitOperation build monitors operation).2 position' answer
        (rest = []) with
      | .error error => .error error
      | .ok (.inr ended) => .ok ended
      | .ok (.inl driver) =>
        replayLoop build program done driver (admitOperation build monitors operation).1 (position + links.length)
          rest := by
  rw [asked, List.cons_append] at hlinks
  obtain ⟨request, links, rfl, hrequest, hlinks⟩ := List.map_eq_cons_iff.1 hlinks
  by_cases hmonitors : monitors = []
  · rw [if_pos hmonitors, List.nil_append] at hlinks
    obtain ⟨link, links, rfl, hlink, hlinks⟩ := List.map_eq_cons_iff.1 hlinks
    obtain rfl := List.map_eq_nil_iff.1 hlinks
    refine ⟨position + 1, ?_⟩
    rw [replayLoop, hstate]
    dsimp only [List.cons_append, List.nil_append]
    rw [if_neg (not_not.2 hrequest), if_pos hmonitors, ← hlink]
    rfl
  · rw [if_neg hmonitors] at hlinks
    obtain ⟨policy, links, rfl, hpolicy, hlinks⟩ := List.map_eq_cons_iff.1 hlinks
    obtain ⟨link, links, rfl, hlink, hlinks⟩ := List.map_eq_cons_iff.1 hlinks
    obtain rfl := List.map_eq_nil_iff.1 hlinks
    refine ⟨position + 2, ?_⟩
    rw [replayLoop, hstate]
    dsimp only [List.cons_append, List.nil_append]
    rw [if_neg (not_not.2 hrequest), if_neg hmonitors, if_neg (not_not.2 hpolicy), ← hlink]
    rfl

theorem replayLoop_answer {response : Response} (hstate : driver.state = .waiting binding operation continuation)
    (hlinks : links.map (·.entry) = asked build monitors binding operation ++ [.response binding response])
    (hrefused : ∀ code, (admitOperation build monitors operation).2.rejection = some code →
      response = .send (.refused code))
    (hreply : driver.reply program ⟨binding, response⟩ = (.ok (), driver')) :
    replayLoop build program done driver monitors position (links ++ rest) =
      replayLoop build program done driver' (admitOperation build monitors operation).1
        (position + links.length) rest := by
  obtain ⟨position', hround⟩ :=
    @replayLoop_exchange _ _ _ program done _ _ position _ _ _ _ rest _ hstate hlinks
  have hany : ¬ (admitOperation build monitors operation).2.rejection.any
      (fun code => response ≠ .send (.refused code)) = true := by
    cases hrejection : (admitOperation build monitors operation).2.rejection with
    | none => simp
    | some code => simp [hrefused code hrejection]
  rw [hround, replayAnswer, if_neg (not_not.2 rfl), if_neg hany, hreply]

theorem replayLoop_crash (hstate : driver.state = .waiting binding operation continuation)
    (hlinks : links.map (·.entry) = asked build monitors binding operation ++ [.crash binding])
    (hallowed : (admitOperation build monitors operation).2.rejection = none) :
    replayLoop build program done driver monitors position links = .ok .crashed := by
  obtain ⟨position', hround⟩ :=
    @replayLoop_exchange _ _ _ program done _ _ position _ _ _ _ [] _ hstate hlinks
  rw [List.append_nil] at hround
  rw [hround, replayAnswer, if_neg (not_not.2 rfl), hallowed]
  rfl

theorem replayLoop_done {outcome : Outcome α} (hstate : driver.state = .done outcome)
    (hlinks : links.map (·.entry) = [.done (done outcome)]) :
    replayLoop build program done driver monitors position links = .ok (.done (done outcome)) := by
  obtain ⟨link, links, rfl, hentry, hlinks⟩ := List.map_eq_cons_iff.1 hlinks
  obtain rfl := List.map_eq_nil_iff.1 hlinks
  rw [replayLoop, hstate]
  dsimp only
  rw [replayDone, if_neg (not_not.2 hentry), if_neg (not_not.2 rfl)]

end Exchange

/-! ## Runs -/

/-- what the driver's loop needs of a stack or a relay, with the world of its terminal -/
structure Recorder (σ : Type) where
  handle : σ → Binding → Operation → Except Durability.Error Handled × σ
  done : σ → Bytes → σ

def Stack.recorder {τ : Type} (build : Build) (terminal : Terminal τ) : Recorder (Stack × τ) where
  handle := fun s binding operation =>
    let (handled, s) := s.1.handle build terminal s.2 binding operation
    (.ok handled, s)
  done := fun s outcome => (s.1.done build outcome, s.2)

def Relay.recorder {τ : Type} (build : Build) (store : StateStore τ) (terminal : Terminal τ) : Recorder (Relay × τ) where
  handle := fun s binding operation => s.1.handle build store terminal s.2 binding operation
  done := fun s outcome => (s.1.done build outcome, s.2)

section Runs

variable {σ τ κ α : Type}

/-- a run of the driver to its end; a suspension may be restricted by `settled` -/
inductive Drives (recorder : Recorder σ) (program : Program κ α) (done : Outcome α → Bytes) (settled : σ → σ → Prop) :
    Driver κ α → σ → Ended → σ → Prop where
  | answer {driver driver' : Driver κ α} {s s' final : σ} {binding : Binding} {operation : Operation}
      {response : Response} {ended : Ended} (hrequest : driver.request = some (binding, operation))
      (hhandle : recorder.handle s binding operation = (.ok (.answer response), s'))
      (hreply : driver.reply program ⟨binding, response⟩ = (.ok (), driver'))
      (hrest : Drives recorder program done settled driver' s' ended final) :
      Drives recorder program done settled driver s ended final
  | suspend {driver : Driver κ α} {s s' final : σ} {binding : Binding} {operation : Operation} {ended : Ended}
      (hrequest : driver.request = some (binding, operation))
      (hhandle : recorder.handle s binding operation = (.ok .suspend, s')) (hsettled : settled s s')
      (hrest : Drives recorder program done settled driver s' ended final) :
      Drives recorder program done settled driver s ended final
  | crash {driver : Driver κ α} {s s' : σ} {binding : Binding} {operation : Operation}
      (hrequest : driver.request = some (binding, operation))
      (hhandle : recorder.handle s binding operation = (.ok .crash, s')) :
      Drives recorder program done settled driver s .crashed s'
  | done {driver : Driver κ α} {s : σ} {outcome : Outcome α} (houtcome : driver.outcome = some outcome) :
      Drives recorder program done settled driver s (.done (done outcome)) (recorder.done s (done outcome))

/-- runs the driver for at most `fuel` requests -/
def Recorder.drive (recorder : Recorder σ) (program : Program κ α) (done : Outcome α → Bytes) (settled : σ → σ → Prop)
    [DecidableRel settled] : ℕ → Driver κ α → σ → Option (Ended × σ)
  | 0, _, _ => none
  | fuel + 1, driver, s =>
    match driver.state with
    | .failed _ => none
    | .done outcome => some (.done (done outcome), recorder.done s (done outcome))
    | .waiting binding operation _ =>
      match recorder.handle s binding operation with
      | (.ok (.answer response), s') =>
        match driver.reply program ⟨binding, response⟩ with
        | (.ok (), driver) => drive recorder program done settled fuel driver s'
        | (.error _, _) => none
      | (.ok .suspend, s') => if settled s s' then drive recorder program done settled fuel driver s' else none
      | (.ok .crash, s') => some (.crashed, s')
      | (.error _, _) => none

theorem Recorder.drive_drives {recorder : Recorder σ} {program : Program κ α} {done : Outcome α → Bytes}
    {settled : σ → σ → Prop} [DecidableRel settled] {fuel : ℕ} {driver : Driver κ α} {s final : σ} {ended : Ended}
    (h : recorder.drive program done settled fuel driver s = some (ended, final)) :
    Drives recorder program done settled driver s ended final := by
  induction fuel generalizing driver s with
  | zero => cases h
  | succ fuel ih =>
    rw [drive] at h
    split at h
    · cases h
    next outcome hstate =>
      cases h
      exact Drives.done (by rw [Driver.outcome, hstate])
    next binding operation continuation hstate =>
      have hrequest : driver.request = some (binding, operation) := by rw [Driver.request, hstate]
      split at h
      next response s' hhandle =>
        split at h
        next driver' hreply => exact Drives.answer hrequest hhandle hreply (ih h)
        · cases h
      next s' hhandle =>
        split at h
        next hsettled => exact Drives.suspend hrequest hhandle hsettled (ih h)
        · cases h
      next s' hhandle =>
        cases h
        exact Drives.crash hrequest hhandle
      · cases h

variable {build : Build} {program : Program κ α} {done : Outcome α → Bytes} {start : Bytes}
  {first driver driver' : Driver κ α} {monitors : List Monitor} {transcript : Transcript} {binding : Binding}
  {operation : Operation}

theorem request_waiting (h : driver.request = some (binding, operation)) :
    ∃ continuation, driver.state = .waiting binding operation continuation := by
  rw [Driver.request] at h
  split at h
  next b o continuation hstate =>
    cases h
    exact ⟨continuation, hstate⟩
  all_goals cases h

theorem outcome_done {outcome : Outcome α} (h : driver.outcome = some outcome) : driver.state = .done outcome := by
  rw [Driver.outcome] at h
  split at h
  next hstate =>
    cases h
    exact hstate
  all_goals cases h

/-- a transcript records the run from `first` to `driver`: replaying it leads to that driver, with these monitors -/
structure Recorded (build : Build) (program : Program κ α) (done : Outcome α → Bytes) (start : Bytes)
    (first driver : Driver κ α) (monitors : List Monitor) (transcript : Transcript) : Prop where
  verified : transcript.verify build = .ok ()
  accepted : transcript.manifest.accepts build start = true
  replays : ∀ rest, replayLoop build program done first transcript.manifest.policies 0 (transcript.links ++ rest) =
    replayLoop build program done driver monitors transcript.links.length rest

theorem Recorded.empty (hlinks : transcript.links = []) (hbound : transcript.manifest.policies = monitors)
    (haccepted : transcript.manifest.accepts build start = true) :
    Recorded build program done start first first monitors transcript where
  verified := by
    rw [Transcript.verify, hlinks]
    rfl
  accepted := haccepted
  replays := by
    intro rest
    rw [hlinks, hbound]
    rfl

theorem Recorded.answer {response : Response}
    (h : Recorded build program done start first driver monitors transcript)
    (hrequest : driver.request = some (binding, operation))
    (hrefused : ∀ code, (admitOperation build monitors operation).2.rejection = some code →
      response = .send (.refused code))
    (hreply : driver.reply program ⟨binding, response⟩ = (.ok (), driver')) :
    Recorded build program done start first driver' (admitOperation build monitors operation).1
      (transcript.appendAll build (asked build monitors binding operation ++ [.response binding response])) := by
  obtain ⟨continuation, hstate⟩ := request_waiting hrequest
  obtain ⟨links, hlinks, hentries, hverify⟩ := @appendAll_links build transcript
    (asked build monitors binding operation ++ [.response binding response])
  refine ⟨hverify h.verified, by rw [hlinks]; exact h.accepted, fun rest => ?_⟩
  rw [hlinks]
  dsimp only
  rw [List.append_assoc, h.replays, replayLoop_answer hstate hentries hrefused hreply, List.length_append]

variable {epoch : ℕ} {step : Step κ α}

theorem replay_eq (hverify : transcript.verify build = .ok ()) (haccepted : transcript.manifest.accepts build start = true)
    (hstart : Driver.start program registry epoch step = .ok first) :
    replay build program transcript start epoch step done =
      replayLoop build program done first transcript.manifest.policies 0 transcript.links := by
  rw [replay, hverify, hstart, Except.mapError, ok_bind, ensure_bind haccepted, Except.mapError, ok_bind]

theorem Recorded.crash (h : Recorded build program done start first driver monitors transcript)
    (hstart : Driver.start program registry epoch step = .ok first)
    (hrequest : driver.request = some (binding, operation))
    (hallowed : (admitOperation build monitors operation).2.rejection = none) :
    replay build program (transcript.appendAll build (asked build monitors binding operation ++ [.crash binding])) start
      epoch step done = .ok .crashed := by
  obtain ⟨continuation, hstate⟩ := request_waiting hrequest
  obtain ⟨links, hlinks, hentries, hverify⟩ := @appendAll_links build transcript
    (asked build monitors binding operation ++ [.crash binding])
  rw [replay_eq (hverify h.verified) (by rw [hlinks]; exact h.accepted) hstart, hlinks]
  dsimp only
  rw [h.replays, replayLoop_crash hstate hentries hallowed]

theorem Recorded.finish {outcome : Outcome α} (h : Recorded build program done start first driver monitors transcript)
    (hstart : Driver.start program registry epoch step = .ok first) (houtcome : driver.outcome = some outcome) :
    replay build program (transcript.appendAll build [.done (done outcome)]) start epoch step done =
      .ok (.done (done outcome)) := by
  obtain ⟨links, hlinks, hentries, hverify⟩ := @appendAll_links build transcript
    [.done (done outcome)]
  rw [replay_eq (hverify h.verified) (by rw [hlinks]; exact h.accepted) hstart, hlinks]
  dsimp only
  rw [h.replays, replayLoop_done (outcome_done houtcome) hentries]

theorem accepts_length {manifest : Manifest} {policies policies' : List Monitor} (h : policies.length = policies'.length) :
    ({ manifest with policies } : Manifest).accepts build start =
      ({ manifest with policies := policies' } : Manifest).accepts build start := by
  rw [Manifest.accepts, Manifest.accepts]
  dsimp only
  rw [h]
  rfl

/-! ## A stack's runs -/

section StackRuns

variable {terminal : Terminal τ} {world world' : τ} {stack stack' : Stack} {handled : Handled}

/-- the transcripts as the next entry finds them -/
def Stack.bound (stack : Stack) : List Transcript := (stack.bindRecording stack.monitors).transcripts

theorem stack_handle (h : stack.handle build terminal world binding operation = (handled, stack', world')) :
    (stack'.transcripts = match handled.entry binding with
      | some entry => stack.bound.map fun transcript =>
        transcript.appendAll build (asked build stack.monitors binding operation ++ [entry])
      | none => stack.bound) ∧
    (handled ≠ .suspend → stack'.monitors = (admitOperation build stack.monitors operation).1) ∧
    (∀ code, (admitOperation build stack.monitors operation).2.rejection = some code →
      handled = .answer (.send (.refused code))) ∧
    stack'.monitors.length = stack.monitors.length := by
  have hentries : ∀ entry, Stack.entries binding operation (admitOperation build stack.monitors operation).2 entry =
      asked build stack.monitors binding operation ++ [entry] := by
    intro entry
    rw [Stack.entries, asked]
    by_cases hmonitors : stack.monitors = []
    · rw [if_pos hmonitors, if_pos (admit_decisions.2 hmonitors)]
    · rw [if_neg hmonitors, if_neg (fun hnil => hmonitors (admit_decisions.1 hnil))]
  have hnext : ((stack.bindRecording stack.monitors).install (admitOperation build stack.monitors operation).1).monitors =
      (admitOperation build stack.monitors operation).1 := by
    refine Stack.install_monitors ?_
    rw [admit_length, Stack.bindRecording, Stack.mapTranscripts_monitors]
  have hback : (((stack.bindRecording stack.monitors).install (admitOperation build stack.monitors operation).1).install
      stack.monitors).monitors = stack.monitors := by
    refine Stack.install_monitors ?_
    rw [hnext, admit_length]
  set check := (admitOperation build stack.monitors operation).2 with hcheck
  set installed := (stack.bindRecording stack.monitors).install (admitOperation build stack.monitors operation).1
    with hinstalled
  rcases hreport : Stack.call terminal world binding operation check.rejection with ⟨⟨outcome, invocation⟩, after⟩
  have hresult : stack.handle build terminal world binding operation =
      (outcome, installed.settle build stack.monitors binding operation check ⟨outcome, invocation⟩, after) := by
    rw [Stack.handle]
    dsimp only
    rw [← hcheck, hreport]
  rw [hresult] at h
  cases h
  have htranscripts : installed.transcripts = stack.bound := Stack.install_transcripts
  refine ⟨?_, ?_, ?_, ?_⟩
  · cases handled <;>
      simp [Stack.settle, Handled.entry, Stack.recordAll, hentries, apply_ite Stack.transcripts, htranscripts]
  · intro hsuspend
    have hkept : Handling.released ⟨handled, invocation⟩ = false := by simp [Handling.released, hsuspend]
    rw [Stack.settle, hkept]
    cases handled <;> simp [Handled.entry, Stack.recordAll, hnext]
  · intro code hcode
    rw [hcode] at hreport
    exact (congrArg (fun report => report.1.outcome) hreport).symm
  · have hlength : ∀ released : Bool, (if released = true then installed.install stack.monitors
        else installed).monitors.length = stack.monitors.length := by
      intro released
      cases released with
      | true => rw [if_pos rfl, hback]
      | false => rw [if_neg Bool.false_ne_true, hnext, admit_length]
    rw [Stack.settle]
    cases handled <;> simp [Handled.entry, Stack.recordAll, hlength]

/-- what the transcripts of a running stack record: nothing yet, or the run so far -/
def Stack.Recording (build : Build) (program : Program κ α) (done : Outcome α → Bytes) (start : Bytes)
    (first driver : Driver κ α) (stack : Stack) : Prop :=
  ∀ transcript ∈ stack.transcripts,
    transcript.links = [] ∧ driver = first ∧
      ({ transcript.manifest with policies := stack.monitors } : Manifest).accepts build start = true ∨
    transcript.links ≠ [] ∧ Recorded build program done start first driver stack.monitors transcript

/-- a suspension that keeps no reservation, or comes before the first entry -/
def Stack.Settled (s s' : Stack × τ) : Prop :=
  s'.1.monitors = s.1.monitors ∨ ∀ transcript ∈ s.1.transcripts, transcript.links = []

instance : DecidableRel (@Stack.Settled τ) := fun s s' =>
  inferInstanceAs (Decidable (s'.1.monitors = s.1.monitors ∨ ∀ transcript ∈ s.1.transcripts, transcript.links = []))

/-- what is recorded of a run before it starts: nothing, in transcripts that replay accepts -/
def Stack.Fresh (build : Build) (start : Bytes) (stack : Stack) : Prop :=
  ∀ transcript ∈ stack.transcripts, transcript.links = [] ∧
    ({ transcript.manifest with policies := stack.monitors } : Manifest).accepts build start = true

theorem bound_recorded (h : stack.Recording build program done start first driver) :
    ∀ transcript ∈ stack.bound, Recorded build program done start first driver stack.monitors transcript := by
  intro transcript htranscript
  rw [Stack.bound, Stack.bindRecording, Stack.mapTranscripts_transcripts] at htranscript
  obtain ⟨original, horiginal, rfl⟩ := List.mem_map.1 htranscript
  rcases h original horiginal with ⟨hlinks, rfl, haccepted⟩ | ⟨hlinks, hrecorded⟩
  · rw [if_pos hlinks]
    exact Recorded.empty hlinks rfl haccepted
  · rw [if_neg hlinks]
    exact hrecorded

theorem appendAll_ne_nil {entries : List Entry} (h : entries ≠ []) : (transcript.appendAll build entries).links ≠ [] := by
  obtain ⟨links, hlinks, hentries, -⟩ := @appendAll_links build transcript entries
  rw [hlinks]
  intro hnil
  rw [(List.append_eq_nil_iff.1 hnil).2] at hentries
  exact h hentries.symm

theorem recording_suspend (h : stack.Recording build program done start first driver)
    (hhandle : stack.handle build terminal world binding operation = (.suspend, stack', world'))
    (hsettled : Stack.Settled (stack, world) (stack', world')) :
    stack'.Recording build program done start first driver := by
  obtain ⟨htranscripts, -, -, hlength⟩ := stack_handle hhandle
  intro transcript htranscript
  rw [htranscripts] at htranscript
  change transcript ∈ stack.bound at htranscript
  rw [Stack.bound, Stack.bindRecording, Stack.mapTranscripts_transcripts] at htranscript
  obtain ⟨original, horiginal, rfl⟩ := List.mem_map.1 htranscript
  rcases h original horiginal with ⟨hlinks, hfirst, haccepted⟩ | ⟨hlinks, hrecorded⟩
  · rw [if_pos hlinks]
    refine Or.inl ⟨hlinks, hfirst, ?_⟩
    rw [← haccepted]
    exact accepts_length hlength
  · rw [if_neg hlinks]
    rcases hsettled with hmonitors | hempty
    · exact Or.inr ⟨hlinks, by rw [show stack'.monitors = stack.monitors from hmonitors]; exact hrecorded⟩
    · exact absurd (hempty original horiginal) hlinks

theorem recording_answer {response : Response} (h : stack.Recording build program done start first driver)
    (hrequest : driver.request = some (binding, operation))
    (hhandle : stack.handle build terminal world binding operation = (.answer response, stack', world'))
    (hreply : driver.reply program ⟨binding, response⟩ = (.ok (), driver')) :
    stack'.Recording build program done start first driver' := by
  obtain ⟨htranscripts, hmonitors, hrefused, -⟩ := stack_handle hhandle
  intro transcript htranscript
  rw [htranscripts] at htranscript
  obtain ⟨bound, hbound, rfl⟩ := List.mem_map.1 htranscript
  refine Or.inr ⟨appendAll_ne_nil (by simp), ?_⟩
  rw [hmonitors (fun h => by cases h)]
  refine (bound_recorded h bound hbound).answer hrequest (fun code hcode => ?_) hreply
  exact Handled.answer.inj (hrefused code hcode)

/-- **A stack's runs replay.** Every transcript of a run whose suspensions are settled replays to the run's end. -/
theorem stack_replays {epoch : ℕ} {step : Step κ α} {s final : Stack × τ} {ended : Ended}
    (hstart : Driver.start program registry epoch step = .ok first)
    (hrun : Drives (Stack.recorder build terminal) program done Stack.Settled driver s ended final)
    (hrecording : s.1.Recording build program done start first driver) :
    ∀ transcript ∈ final.1.transcripts, replay build program transcript start epoch step done = .ok ended := by
  induction hrun with
  | @answer driver driver' s s' final binding operation response ended hrequest hhandle hreply hrest ih =>
    obtain ⟨hhandled, rfl⟩ := Prod.mk.inj hhandle
    refine ih (recording_answer hrecording hrequest (Prod.ext ?_ rfl) hreply)
    exact Except.ok.inj hhandled
  | @suspend driver s s' final binding operation ended hrequest hhandle hsettled hrest ih =>
    obtain ⟨hhandled, rfl⟩ := Prod.mk.inj hhandle
    refine ih (recording_suspend hrecording (Prod.ext ?_ rfl) hsettled)
    exact Except.ok.inj hhandled
  | @crash driver s s' binding operation hrequest hhandle =>
    obtain ⟨hhandled, rfl⟩ := Prod.mk.inj hhandle
    obtain ⟨htranscripts, -, hrefused, -⟩ := @stack_handle _ _ _ _ _ _ _ _ _ .crash (Prod.ext (Except.ok.inj hhandled) rfl)
    intro transcript htranscript
    rw [htranscripts] at htranscript
    obtain ⟨bound, hbound, rfl⟩ := List.mem_map.1 htranscript
    refine (bound_recorded hrecording bound hbound).crash hstart hrequest ?_
    cases hrejection : (admitOperation build s.1.monitors operation).2.rejection with
    | none => rfl
    | some code => cases hrefused code hrejection
  | @done driver s outcome houtcome =>
    intro transcript htranscript
    change transcript ∈ (s.1.done build _).transcripts at htranscript
    rw [Stack.done, Stack.recordAll, Stack.mapTranscripts_transcripts] at htranscript
    obtain ⟨bound, hbound, rfl⟩ := List.mem_map.1 htranscript
    exact (bound_recorded hrecording bound hbound).finish hstart houtcome

end StackRuns

/-! ## A relay's runs -/

section RelayRuns

variable {store : StateStore τ} {terminal : Terminal τ} {world world' : τ} {relay relay' : Relay} {handled : Handled}

/-- what the transcript of a running relay records: the run so far; a relay has a guard -/
def Relay.Recording (build : Build) (program : Program κ α) (done : Outcome α → Bytes) (start : Bytes)
    (first driver : Driver κ α) (relay : Relay) : Prop :=
  relay.monitors ≠ [] ∧ Recorded build program done start first driver relay.monitors relay.transcript

/-- a suspension that keeps no reservation -/
def Relay.Settled (s s' : Relay × τ) : Prop := s'.1.monitors = s.1.monitors

theorem opened_recording {loaded : Except Durability.Error Bytes} {scope : Hash32} {policies : List Policy}
    {manifest : Manifest} (hopen : Relay.open build loaded scope policies manifest = .ok relay)
    (haccepted : relay.transcript.manifest.accepts build start = true) :
    relay.Recording build program done start first first := by
  rw [Relay.open] at hopen
  obtain ⟨stored, -, hopen⟩ := bind_eq_ok.1 hopen
  obtain ⟨monitors, hmonitors, hopen⟩ := bind_eq_ok.1 hopen
  obtain ⟨_, _, hopen⟩ := bind_eq_ok.1 hopen
  cases hopen
  refine ⟨?_, Recorded.empty rfl rfl haccepted⟩
  intro hnil
  have hlife := Durability.restore_lifetime hmonitors
  have hguard := hlife.guarded.guard
  rw [← hlife.bound, show monitors = [] from hnil] at hguard
  cases hguard

theorem relay_asked {entry : Entry} (h : relay.monitors ≠ []) :
    [.request binding operation, .policy binding (admitOperation build relay.monitors operation).2, entry] =
      asked build relay.monitors binding operation ++ [entry] := by
  rw [asked, if_neg h]
  rfl

/-- **A relay's runs replay.** The transcript of a run whose suspensions are settled replays to the run's end. -/
theorem relay_replays {epoch : ℕ} {step : Step κ α} {s final : Relay × τ} {ended : Ended}
    (hstart : Driver.start program registry epoch step = .ok first)
    (hrun : Drives (Relay.recorder build store terminal) program done Relay.Settled driver s ended final)
    (hrecording : s.1.Recording build program done start first driver) :
    replay build program final.1.transcript start epoch step done = .ok ended := by
  induction hrun with
  | @answer driver driver' s s' final binding operation response ended hrequest hhandle hreply hrest ih =>
    obtain ⟨hguard, hrecorded⟩ := hrecording
    obtain ⟨htranscript, hmonitors, hrefused, hlength⟩ := Relay.handle_ok hhandle
    refine ih ⟨fun hnil => hguard (List.length_eq_zero_iff.1 (by rw [← hlength, hnil]; rfl)), ?_⟩
    rw [hmonitors (fun h => by cases h), htranscript]
    dsimp only [Handled.entry]
    rw [relay_asked hguard]
    exact hrecorded.answer hrequest (fun code hcode => Handled.answer.inj (hrefused code hcode)) hreply
  | @suspend driver s s' final binding operation ended hrequest hhandle hsettled hrest ih =>
    obtain ⟨hguard, hrecorded⟩ := hrecording
    obtain ⟨htranscript, -, -, -⟩ := Relay.handle_ok hhandle
    have hmonitors : s'.1.monitors = s.1.monitors := hsettled
    refine ih ⟨by rw [hmonitors]; exact hguard, ?_⟩
    rw [hmonitors, htranscript]
    exact hrecorded
  | @crash driver s s' binding operation hrequest hhandle =>
    obtain ⟨hguard, hrecorded⟩ := hrecording
    obtain ⟨htranscript, -, hrefused, -⟩ := Relay.handle_ok hhandle
    rw [htranscript]
    dsimp only [Handled.entry]
    rw [relay_asked hguard]
    refine hrecorded.crash hstart hrequest ?_
    cases hrejection : (admitOperation build s.1.monitors operation).2.rejection with
    | none => rfl
    | some code => cases hrefused code hrejection
  | @done driver s outcome houtcome => exact hrecording.2.finish hstart houtcome

end RelayRuns

/-! ## Accepted transcripts -/

/-- the entries of a run of the pure program, and its end: every vetoed request is answered by its refusal -/
inductive Follows (build : Build) (program : Program κ α) (done : Outcome α → Bytes) :
    List Monitor → Step κ α → List Entry → Ended → Prop where
  | done {monitors : List Monitor} {outcome : Outcome α} :
      Follows build program done monitors (.done outcome) [.done (done outcome)] (.done (done outcome))
  | crash {monitors : List Monitor} {id : OpId} {operation : Operation} {continuation : κ}
      (hallowed : (admitOperation build monitors operation).2.rejection = none) :
      Follows build program done monitors (.request id operation continuation)
        (asked build monitors (Binding.of id operation) operation ++ [.crash (Binding.of id operation)]) .crashed
  | answer {monitors : List Monitor} {id : OpId} {operation : Operation} {continuation : κ} {response : Response}
      {entries : List Entry} {ended : Ended}
      (hrefused : ∀ code, (admitOperation build monitors operation).2.rejection = some code →
        response = .send (.refused code))
      (hrest : Follows build program done (admitOperation build monitors operation).1
        (program.resume continuation response)
        entries ended) :
      Follows build program done monitors (.request id operation continuation)
        (asked build monitors (Binding.of id operation) operation ++
          .response (Binding.of id operation) response :: entries) ended

/-- a driver's state is what it made of the program's step -/
def Driver.State.Of : Driver.State κ α → Step κ α → Prop
  | .waiting binding operation continuation, step =>
    ∃ id, step = .request id operation continuation ∧ binding = Binding.of id operation
  | .done outcome, step => step = .done outcome
  | .failed _, _ => True

theorem admit_of {expected : OpId} {step : Step κ α} {state : Driver.State κ α}
    (h : Driver.admitStep program registry expected step = .ok state) : state.Of step := by
  cases step with
  | done outcome =>
    cases h
    rfl
  | request id operation continuation =>
    rw [Driver.admitStep] at h
    split at h
    · cases h
    split at h
    · cases h
    split at h
    · cases h
    split at h
    · cases h
    · cases h
      exact ⟨id, rfl, rfl⟩

theorem resumed_of {id : OpId} {step : Step κ α} : (Driver.resumed program registry id step).Of step := by
  rw [Driver.resumed.eq_def]
  split
  · split
    next hadmit => exact admit_of hadmit
    · trivial
  · cases step with
    | done outcome => rfl
    | request => trivial

theorem reply_of {continuation : κ} {reply : Reply} (hregistry : driver.registry = registry)
    (hstate : driver.state = .waiting binding operation continuation)
    (h : driver.reply program reply = (.ok (), driver')) :
    driver'.registry = registry ∧ driver'.state.Of (program.resume continuation reply.response) := by
  rw [Driver.reply, hstate] at h
  dsimp only at h
  split at h
  · cases h
  · obtain ⟨-, rfl⟩ := Prod.mk.inj h
    refine ⟨hregistry, ?_⟩
    dsimp only
    rw [hregistry]
    exact resumed_of

theorem replayAnswer_ok {check : Check} {position : ℕ} {entry : Entry} {last : Bool} {result : Driver κ α ⊕ Ended}
    (h : replayAnswer program driver binding check position entry last = .ok result) :
    (∃ response driver', entry = .response binding response ∧ result = .inl driver' ∧
      (∀ code, check.rejection = some code → response = .send (.refused code)) ∧
      driver.reply program ⟨binding, response⟩ = (.ok (), driver')) ∨
    entry = .crash binding ∧ result = .inr .crashed ∧ check.rejection = none ∧ last = true := by
  rw [replayAnswer.eq_def] at h
  split at h
  next recorded response =>
    split at h
    · cases h
    next hrecorded =>
    split at h
    · cases h
    next hrefused =>
    split at h
    · cases h
    next after hreply =>
    cases h
    obtain rfl := not_not.1 hrecorded
    refine Or.inl ⟨response, after, rfl, rfl, fun code hcode => ?_, hreply⟩
    rw [hcode] at hrefused
    simpa using hrefused
  next recorded =>
    split at h
    · cases h
    next hrecorded =>
    split at h
    · cases h
    next hrejection =>
    split at h
    · cases h
    next hlast =>
    cases h
    obtain rfl := not_not.1 hrecorded
    refine Or.inr ⟨rfl, rfl, ?_, by simpa using hlast⟩
    simpa using hrejection
  · cases h

/-- where an accepted answer leads: to the next round, or to a recorded crash -/
def Continues (build : Build) (program : Program κ α) (done : Outcome α → Bytes) (monitors : List Monitor)
    (position : ℕ) (rest : List Link) (ended : Ended) : Driver κ α ⊕ Ended → Prop
  | .inl driver => replayLoop build program done driver monitors position rest = .ok ended
  | .inr stop => stop = ended

theorem replayLoop_round {position : ℕ} {links : List Link} {continuation : κ} {ended : Ended}
    (hstate : driver.state = .waiting binding operation continuation)
    (h : replayLoop build program done driver monitors position links = .ok ended) :
    ∃ (round rest : List Link) (answer : Entry) (position' : ℕ) (result : Driver κ α ⊕ Ended), links = round ++ rest ∧
      round.map (·.entry) = asked build monitors binding operation ++ [answer] ∧
      replayAnswer program driver binding (admitOperation build monitors operation).2 position' answer (rest = []) =
        .ok result ∧
      Continues build program done (admitOperation build monitors operation).1 (position + round.length)
        rest ended result := by
  rw [replayLoop.eq_def, hstate] at h
  dsimp only at h
  cases links with
  | nil => cases h
  | cons request links =>
    dsimp only at h
    split at h
    · cases h
    next hrequest =>
    cases links with
    | nil => cases h
    | cons link links =>
      dsimp only at h
      split at h
      next hmonitors =>
        have hround : [request, link].map (·.entry) = asked build monitors binding operation ++ [link.entry] := by
          rw [asked, if_pos hmonitors, ← not_not.1 hrequest]
          rfl
        split at h
        · cases h
        next hanswer => exact ⟨_, links, _, _, _, rfl, hround, hanswer, Except.ok.inj h⟩
        next hanswer => exact ⟨_, links, _, _, _, rfl, hround, hanswer, h⟩
      next hmonitors =>
        split at h
        · cases h
        next hpolicy =>
        cases links with
        | nil => cases h
        | cons answer links =>
          have hround : [request, link, answer].map (·.entry) =
              asked build monitors binding operation ++ [answer.entry] := by
            rw [asked, if_neg hmonitors, ← not_not.1 hrequest, ← not_not.1 hpolicy]
            rfl
          dsimp only at h
          split at h
          · cases h
          next hanswer => exact ⟨_, links, _, _, _, rfl, hround, hanswer, Except.ok.inj h⟩
          next hanswer => exact ⟨_, links, _, _, _, rfl, hround, hanswer, h⟩

theorem replayLoop_follows {position : ℕ} {links : List Link} {step : Step κ α} {ended : Ended}
    (hregistry : driver.registry = registry) (hof : driver.state.Of step)
    (h : replayLoop build program done driver monitors position links = .ok ended) :
    Follows build program done monitors step (links.map (·.entry)) ended := by
  induction hlength : links.length using Nat.strong_induction_on generalizing links driver monitors position step with
  | _ n ih =>
    cases hstate : driver.state with
    | failed fatal =>
      rw [replayLoop.eq_def, hstate] at h
      cases h
    | done outcome =>
      rw [hstate] at hof
      obtain rfl : step = .done outcome := hof
      rw [replayLoop.eq_def, hstate] at h
      cases links with
      | nil => cases h
      | cons link links =>
        dsimp only at h
        rw [replayDone] at h
        split at h
        · cases h
        next hentry =>
        split at h
        · cases h
        next hlast =>
        cases h
        rw [List.map_cons, not_not.1 hentry, not_not.1 hlast]
        exact Follows.done
    | waiting binding operation continuation =>
      rw [hstate] at hof
      obtain ⟨id, rfl, rfl⟩ := hof
      obtain ⟨round, rest, answer, position', result, rfl, hround, hanswer, hresult⟩ := replayLoop_round hstate h
      rw [List.map_append, hround]
      rcases replayAnswer_ok hanswer with ⟨response, driver', rfl, rfl, hrefused, hreply⟩ | ⟨rfl, rfl, hallowed, hlast⟩
      · obtain ⟨hregistry', hof'⟩ := reply_of hregistry hstate hreply
        have hshort : rest.length < n := by
          rw [← hlength, List.length_append]
          have hne : round.length = (asked build monitors (Binding.of id operation) operation ++
              [Entry.response (Binding.of id operation) response]).length := by rw [← hround, List.length_map]
          rw [hne, List.length_append, List.length_singleton]
          omega
        rw [List.append_assoc]
        exact Follows.answer hrefused (ih _ hshort hregistry' hof' hresult rfl)
      · obtain rfl : Ended.crashed = ended := hresult
        rw [of_decide_eq_true hlast, List.map_nil, List.append_nil]
        exact Follows.crash hallowed

/-- **Accepted transcripts follow the program.** The entries are the requests, checks and answers of a run of the pure
program. -/
theorem replay_follows {epoch : ℕ} {step : Step κ α} {ended : Ended}
    (h : replay build program transcript start epoch step done = .ok ended) :
    Follows build program done transcript.manifest.policies step (transcript.links.map (·.entry)) ended := by
  rw [replay] at h
  obtain ⟨_, _, h⟩ := bind_eq_ok.1 h
  obtain ⟨_, _, h⟩ := bind_eq_ok.1 h
  obtain ⟨driver, hstart, h⟩ := bind_eq_ok.1 h
  have hstart := mapError_eq_ok.1 hstart
  rw [Driver.start] at hstart
  obtain ⟨_, _, hstart⟩ := bind_eq_ok.1 hstart
  obtain ⟨_, _, hstart⟩ := bind_eq_ok.1 hstart
  obtain ⟨state, hadmit, hstart⟩ := bind_eq_ok.1 hstart
  cases hstart
  exact replayLoop_follows rfl (admit_of hadmit) h

/-- **Recorded runs replay, and accepted transcripts are runs.** A run of any program over any stack, or over an opened
relay, replays to its end, if its suspensions are settled; and the entries of a transcript that replay accepts are those
of a run of the pure program. -/
theorem recorded_runs {epoch : ℕ} {step : Step κ α} (hstart : Driver.start program registry epoch step = .ok first) :
    (∀ {τ : Type} {terminal : Terminal τ} {stack : Stack} {world : τ} {final : Stack × τ} {ended : Ended},
      stack.Fresh build start →
      Drives (Stack.recorder build terminal) program done Stack.Settled first (stack, world) ended final →
      ∀ transcript ∈ final.1.transcripts, replay build program transcript start epoch step done = .ok ended) ∧
    (∀ {τ : Type} {store : StateStore τ} {terminal : Terminal τ} {loaded : Except Durability.Error Bytes}
      {scope : Hash32} {policies : List Policy} {manifest : Manifest} {relay : Relay} {world : τ} {final : Relay × τ}
      {ended : Ended}, Relay.open build loaded scope policies manifest = .ok relay →
      relay.transcript.manifest.accepts build start = true →
      Drives (Relay.recorder build store terminal) program done Relay.Settled first (relay, world) ended final →
      replay build program final.1.transcript start epoch step done = .ok ended) ∧
    ∀ {transcript : Transcript} {ended : Ended}, replay build program transcript start epoch step done = .ok ended →
      Follows build program done transcript.manifest.policies step (transcript.links.map (·.entry)) ended := by
  refine ⟨?_, ?_, ?_⟩
  · intro τ terminal stack world final ended hfresh hrun
    exact stack_replays hstart hrun fun transcript htranscript =>
      Or.inl ⟨(hfresh transcript htranscript).1, rfl, (hfresh transcript htranscript).2⟩
  · intro τ store terminal loaded scope policies manifest relay world final ended hopen haccepted hrun
    exact relay_replays hstart hrun (opened_recording hopen haccepted)
  · intro transcript ended h
    exact replay_follows h

end Runs

/-! ## A suspension that keeps its reservation -/

section Scripted

/-- constant digests -/
def scriptedBuild : Build := ⟨fun _ => Hash32.zero, Hash32.zero, Hash32.zero, Hash32.zero, Hash32.zero⟩

/-- a terminal that reports what its script says, and crashes at its end -/
def scripted : Terminal (List Handling) where
  handleWithInvocation := fun script _ _ =>
    match script with
    | [] => (⟨.crash, .mayHaveInvoked⟩, [])
    | report :: script => (report, script)

/-- a record layer and a guard -/
def scriptedStack : Stack :=
  ⟨[.record (Transcript.new
      { registry := Hash32.zero, program := Hash32.zero, stack := ["policy"], schedule := [], initial := Hash32.zero,
        start := [], implementations := [⟨"policy", ⟨List.replicate 32 1, rfl⟩⟩], configuration := [], seed := 0,
        policies := [] }),
    .policy (Monitor.new (.atMostOne 2))]⟩

/-- a delivery run without retries -/
def scriptedStart : DeliveryStep := DeliveryProgram.start ⟨0, ⟨Hash32.zero, 1⟩⟩ ⟨0, 0, 1⟩

def outcomeBytes (outcome : Outcome ℕ) : Bytes := Codec.outcome outcome none

/-- the outbox holds one delivery, whose first send is suspended with this evidence -/
def suspendedScript (invocation : Invocation) : List Handling :=
  [⟨.answer (.readOutbox (.ok [⟨Hash32.zero, 1, 0, 0, [], [], Hash32.zero⟩])), .mayHaveInvoked⟩, ⟨.suspend, invocation⟩,
    ⟨.answer (.send (.unknown .io)), .mayHaveInvoked⟩]

theorem scripted_fresh : scriptedStack.Fresh scriptedBuild [] := by
  intro transcript htranscript
  obtain rfl := List.mem_singleton.1 htranscript
  exact ⟨rfl, by decide⟩

/-- the driver that waits for the first answer -/
def scriptedDriver : Driver DeliveryContinuation ℕ where
  registry := registry
  epoch := 0
  answered := none
  state := match scriptedStart with
    | .request id operation continuation => .waiting (Binding.of id operation) operation continuation
    | .done outcome => .done outcome

theorem scripted_start : Driver.start deliveryProgram registry 0 scriptedStart = .ok scriptedDriver := by
  rw [Driver.start, registry_checked]
  rfl

/-- a run with released suspensions replays -/
theorem recorded_runs_released :
    ∃ ended final, (Stack.recorder scriptedBuild scripted).drive deliveryProgram outcomeBytes Stack.Settled 9
        scriptedDriver (scriptedStack, suspendedScript .notInvoked) = some (ended, final) ∧
      ∀ transcript ∈ final.1.transcripts,
        replay scriptedBuild deliveryProgram transcript [] 0 scriptedStart outcomeBytes = .ok ended := by
  have hsome : ((Stack.recorder scriptedBuild scripted).drive deliveryProgram outcomeBytes Stack.Settled 9
      scriptedDriver (scriptedStack, suspendedScript .notInvoked)).isSome = true := by decide +kernel
  obtain ⟨⟨ended, final⟩, hrun⟩ := Option.isSome_iff_exists.1 hsome
  refine ⟨ended, final, hrun, ?_⟩
  exact (recorded_runs scripted_start).1 scripted_fresh (Recorder.drive_drives hrun)

/-- **A kept reservation does not replay.** The suspension keeps its reservation and leaves no entry; the request is
refused when it is handled again, and replay, which does not see the reservation, finds another check. -/
theorem kept_reservation_mismatch :
    scriptedStack.Fresh scriptedBuild [] ∧ Driver.start deliveryProgram registry 0 scriptedStart = .ok scriptedDriver ∧
      ∃ ended final, Drives (Stack.recorder scriptedBuild scripted) deliveryProgram outcomeBytes (fun _ _ => True)
        scriptedDriver (scriptedStack, suspendedScript .mayHaveInvoked) ended final ∧
      ∃ transcript ∈ final.1.transcripts,
        replay scriptedBuild deliveryProgram transcript [] 0 scriptedStart outcomeBytes = .error (.mismatch 4) := by
  have hrun : ((Stack.recorder scriptedBuild scripted).drive deliveryProgram outcomeBytes (fun _ _ => True) 9
      scriptedDriver (scriptedStack, suspendedScript .mayHaveInvoked)).any (fun run =>
        run.2.1.transcripts.any fun transcript => transcript.verify scriptedBuild = .ok () ∧
          transcript.manifest.accepts scriptedBuild [] = true ∧ replayLoop scriptedBuild deliveryProgram outcomeBytes
            scriptedDriver transcript.manifest.policies 0 transcript.links = .error (.mismatch 4)) = true := by
    decide +kernel
  obtain ⟨⟨ended, final⟩, hfinal, hreplay⟩ := (Option.any_eq_true _ _).1 hrun
  obtain ⟨transcript, htranscript, hchecked⟩ := List.any_eq_true.1 hreplay
  obtain ⟨hverify, haccepted, hmismatch⟩ := of_decide_eq_true hchecked
  refine ⟨scripted_fresh, scripted_start, ended, final, Recorder.drive_drives hfinal, transcript, htranscript, ?_⟩
  rw [replay_eq hverify haccepted scripted_start, hmismatch]

end Scripted

end ZenoFcis.Effects
