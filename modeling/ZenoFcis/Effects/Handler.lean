/-
Handlers and stacks (`effects/handler.rs`): layers in front of one terminal.

A terminal is a step function over its own world; it returns its outcome, its invocation evidence for exactly this call,
and the world after it. `Stack.handle` returns what it did, the stack after it and the world after it.
-/
import ZenoFcis.Effects.Record

namespace ZenoFcis.Effects

/-- conservative evidence about a request reaching an effect invocation -/
inductive Invocation where
  /-- the handler establishes that no effect invocation occurred -/
  | notInvoked
  /-- an invocation occurred, or its absence has not been established -/
  | mayHaveInvoked
deriving DecidableEq

/-- a call's outcome and its invocation evidence -/
structure Handling where
  outcome : Handled
  invocation : Invocation
deriving DecidableEq

/-- the only evidence that releases a reservation: a suspension that establishes non-invocation -/
def Handling.released (report : Handling) : Bool := report.outcome = .suspend ∧ report.invocation = .notInvoked

/-- a handler that carries requests out, over a world `τ` -/
structure Terminal (τ : Type) where
  handleWithInvocation : τ → Binding → Operation → Handling × τ

/-- the entry that records what was done with a request; a suspension leaves none -/
def Handled.entry (binding : Binding) : Handled → Option Entry
  | .answer response => some (.response binding response)
  | .crash => some (.crash binding)
  | .suspend => none

/-- one forwarding layer -/
inductive Layer where
  | identity
  | record (transcript : Transcript)
  | policy (monitor : Monitor)
deriving DecidableEq

/-- the layer's name, as a manifest binds it -/
def Layer.name : Layer → String
  | identity => "identity"
  | record _ => "record"
  | policy _ => "policy"

/-- layers, innermost first, in front of a terminal -/
structure Stack where
  layers : List Layer
deriving DecidableEq

namespace Stack

def monitors (stack : Stack) : List Monitor :=
  stack.layers.filterMap fun
    | .policy monitor => some monitor
    | _ => none

/-- the transcripts of the record layers, innermost first -/
def transcripts (stack : Stack) : List Transcript :=
  stack.layers.filterMap fun
    | .record transcript => some transcript
    | _ => none

/-- gives the policy layers these monitors, in order -/
def installLayers : List Layer → List Monitor → List Layer
  | .policy _ :: layers, monitor :: monitors => .policy monitor :: installLayers layers monitors
  | layer :: layers, monitors => layer :: installLayers layers monitors
  | [], _ => []

def install (stack : Stack) (monitors : List Monitor) : Stack := ⟨installLayers stack.layers monitors⟩

/-- changes every transcript -/
def mapTranscripts (stack : Stack) (f : Transcript → Transcript) : Stack :=
  ⟨stack.layers.map fun
    | .record transcript => .record (f transcript)
    | layer => layer⟩

/-- an empty transcript binds the monitors that its first entry finds -/
def bindRecording (stack : Stack) (monitors : List Monitor) : Stack :=
  stack.mapTranscripts fun transcript =>
    if transcript.links = [] then { transcript with manifest := { transcript.manifest with policies := monitors } }
    else transcript

/-- the entries of one handled request, oldest first; a check without decisions is left out -/
def entries (binding : Binding) (operation : Operation) (check : Check) (entry : Entry) : List Entry :=
  .request binding operation :: (if check.decisions = [] then [] else [.policy binding check]) ++ [entry]

/-- appends entries to every transcript -/
def recordAll (build : Build) (stack : Stack) (entries : List Entry) : Stack :=
  stack.mapTranscripts fun transcript => transcript.appendAll build entries

/-- the terminal's report, or the refusal of a vetoed request, which never reaches it -/
def call {τ : Type} (terminal : Terminal τ) (world : τ) (binding : Binding) (operation : Operation) :
    Option Code → Handling × τ
  | some code => (⟨.answer (.send (.refused code)), .mayHaveInvoked⟩, world)
  | none => terminal.handleWithInvocation world binding operation

/-- the stack after a report: reservations are undone only on non-invocation evidence, and the entry is recorded -/
def settle (build : Build) (stack : Stack) (previous : List Monitor) (binding : Binding) (operation : Operation)
    (check : Check) (report : Handling) : Stack :=
  let stack := if report.released then stack.install previous else stack
  match report.outcome.entry binding with
  | some entry => stack.recordAll build (entries binding operation check entry)
  | none => stack

/-- passes one request to the terminal and its answer back -/
def handle {τ : Type} (build : Build) (terminal : Terminal τ) (stack : Stack) (world : τ) (binding : Binding)
    (operation : Operation) : Handled × Stack × τ :=
  let previous := stack.monitors
  let stack := stack.bindRecording previous
  let (next, check) := admitOperation build previous operation
  let (report, world) := call terminal world binding operation check.rejection
  (report.outcome, (stack.install next).settle build previous binding operation check report, world)

/-- records the program's outcome -/
def done (build : Build) (stack : Stack) (outcome : Bytes) : Stack :=
  (stack.bindRecording stack.monitors).recordAll build [.done outcome]

/-! ## What a stack does -/

variable {stack : Stack} {monitors : List Monitor} {f : Transcript → Transcript}

@[simp] theorem mapTranscripts_monitors : (stack.mapTranscripts f).monitors = stack.monitors := by
  rw [Stack.monitors, Stack.monitors, mapTranscripts, List.filterMap_map]
  refine List.filterMap_congr fun layer _ => ?_
  cases layer <;> rfl

@[simp] theorem mapTranscripts_transcripts : (stack.mapTranscripts f).transcripts = stack.transcripts.map f := by
  rw [transcripts, transcripts, mapTranscripts, List.filterMap_map, List.map_filterMap]
  refine List.filterMap_congr fun layer _ => ?_
  cases layer <;> rfl

@[simp] theorem install_transcripts : (stack.install monitors).transcripts = stack.transcripts := by
  obtain ⟨layers⟩ := stack
  show (installLayers layers monitors).filterMap _ = layers.filterMap _
  induction layers generalizing monitors with
  | nil => rfl
  | cons layer layers ih =>
    cases layer with
    | policy monitor =>
      cases monitors with
      | nil => exact ih
      | cons => exact ih
    | record transcript => exact congrArg (transcript :: ·) ih
    | identity => exact ih

theorem install_monitors (h : monitors.length = stack.monitors.length) : (stack.install monitors).monitors = monitors := by
  obtain ⟨layers⟩ := stack
  show (installLayers layers monitors).filterMap _ = monitors
  induction layers generalizing monitors with
  | nil => exact (List.length_eq_zero_iff.1 h).symm
  | cons layer layers ih =>
    cases layer with
    | policy monitor =>
      cases monitors with
      | nil => cases h
      | cons m monitors => exact congrArg (m :: ·) (ih (Nat.succ.inj h))
    | record transcript => exact ih h
    | identity => exact ih h

end Stack

end ZenoFcis.Effects
