/-
Hash-linked transcripts and handler-free replay (`effects/record.rs`).

Model:
- `replayLoop` passes on the links that are left and the position of the first of them, as the loop of `replay` does
  with its index; one round takes a request, its policy check when there are monitors, and an answer or a crash;
- a `&'static str` name is a string; it is hashed as its UTF-8 bytes.
-/
import ZenoFcis.Effects.Codec
import ZenoFcis.Effects.Driver
import ZenoFcis.Effects.Policy

namespace ZenoFcis.Effects

open Lib

/-- a handler implementation's source pin -/
structure Implementation where
  name : String
  source : Hash32
deriving DecidableEq

/-- what a run is bound to before it starts -/
structure Manifest where
  registry : Hash32
  program : Hash32
  stack : List String
  schedule : Bytes
  initial : Hash32
  start : Bytes
  implementations : List Implementation
  configuration : Bytes
  seed : ℕ
  policies : List Monitor
deriving DecidableEq

/-- the UTF-8 bytes of a name -/
def nameBytes (name : String) : Bytes := name.toUTF8.toList

namespace Manifest

def policyBytes (build : Build) (policies : List Monitor) : Bytes :=
  if policies = [] then []
  else
    frame (ascii "zeno-fcis/effect-policy-manifest/1") ++ beBytes 8 policies.length ++
      policies.flatMap fun monitor => (monitor.identity build).bytes ++ frame monitor.state.bytes

/-- SHA-256 of the manifest's canonical bytes -/
def digest (build : Build) (manifest : Manifest) : Hash32 :=
  build.sha256 (manifest.registry.bytes ++ manifest.program.bytes ++
    beBytes 8 manifest.stack.length ++ (manifest.stack.flatMap fun name => frame (nameBytes name)) ++
    frame manifest.schedule ++ manifest.initial.bytes ++ frame manifest.start ++
    beBytes 8 manifest.implementations.length ++
    (manifest.implementations.flatMap fun implementation =>
      frame (nameBytes implementation.name) ++ implementation.source.bytes) ++
    frame manifest.configuration ++ beBytes 8 manifest.seed ++ policyBytes build manifest.policies)

/-- whether every named handler has an explicit nonzero implementation pin -/
def provenanceComplete (manifest : Manifest) : Bool :=
  manifest.stack.all fun name =>
    manifest.implementations.any fun implementation =>
      implementation.name == name && implementation.source != Hash32.zero

end Manifest

/-- canonical evidence of an admission -/
def Check.bytes (check : Check) : Bytes :=
  frame (ascii "zeno-fcis/effect-policy-check/1") ++ beBytes 8 check.decisions.length ++
    check.decisions.flatMap fun decision =>
      decision.identity.bytes ++ frame decision.before ++ frame decision.proposed ++
        match decision.verdict with
        | .allow => [0]
        | .reject code => [1, code.byte]

/-- one recorded event -/
inductive Entry where
  | request (binding : Binding) (operation : Operation)
  | response (binding : Binding) (answer : Response)
  | crash (binding : Binding)
  | done (outcome : Bytes)
  | policy (binding : Binding) (check : Check)
deriving DecidableEq

def Entry.bytes : Entry → Bytes
  | request binding operation => 0 :: frame (Codec.binding binding) ++ frame (Codec.operation operation)
  | response binding answer => 1 :: frame (Codec.binding binding) ++ frame (Codec.response answer)
  | crash binding => 2 :: frame (Codec.binding binding)
  | done outcome => 3 :: frame outcome
  | policy binding check => 4 :: frame (Codec.binding binding) ++ frame check.bytes

/-- one entry with its chain link -/
structure Link where
  entry : Entry
  previous : Hash32
  digest : Hash32
deriving DecidableEq

/-- a manifest and its hash-linked entries -/
structure Transcript where
  manifest : Manifest
  links : List Link
deriving DecidableEq

/-- where a transcript's chain fails -/
inductive ChainError where
  | link (index : ℕ)
deriving DecidableEq

def linkDigest (build : Build) (previous : Hash32) (entry : Entry) : Hash32 :=
  build.sha256 (previous.bytes ++ entry.bytes)

namespace Transcript

/-- an empty transcript bound to `manifest` -/
def new (manifest : Manifest) : Transcript := ⟨manifest, []⟩

/-- the digest the next link must name -/
def tip (build : Build) (transcript : Transcript) : Hash32 :=
  match transcript.links.getLast? with
  | some link => link.digest
  | none => transcript.manifest.digest build

/-- appends one entry, linked to the tip -/
def append (build : Build) (transcript : Transcript) (entry : Entry) : Transcript :=
  let previous := transcript.tip build
  { transcript with links := transcript.links ++ [⟨entry, previous, linkDigest build previous entry⟩] }

/-- appends entries in order -/
def appendAll (build : Build) (transcript : Transcript) (entries : List Entry) : Transcript :=
  entries.foldl (append build) transcript

/-- the links from `index` on, which must continue `previous` -/
def verifyFrom (build : Build) : Hash32 → ℕ → List Link → Except ChainError Unit
  | _, _, [] => .ok ()
  | previous, index, link :: links =>
    if link.previous ≠ previous ∨ link.digest ≠ linkDigest build previous link.entry then .error (.link index)
    else verifyFrom build link.digest (index + 1) links

/-- checks every link from the manifest digest onward -/
def verify (build : Build) (transcript : Transcript) : Except ChainError Unit :=
  verifyFrom build (transcript.manifest.digest build) 0 transcript.links

end Transcript

/-! ## Replay -/

/-- how a replayed run ended -/
inductive Ended where
  | done (outcome : Bytes)
  | crashed
deriving DecidableEq

/-- why a replay refused -/
inductive ReplayError where
  | chain (error : ChainError)
  | manifest
  | missing (position : ℕ)
  | mismatch (position : ℕ)
  | extra (position : ℕ)
  | fatal (fatal : Fatal)
deriving DecidableEq

section Replay

variable {κ α : Type}

/-- the recorded answer at `position` to the outstanding request: the driver after it, or the recorded crash -/
def replayAnswer (program : Program κ α) (driver : Driver κ α) (binding : Binding) (check : Check) (position : ℕ)
    (entry : Entry) (last : Bool) : Except ReplayError (Driver κ α ⊕ Ended) :=
  match entry with
  | .response recorded response =>
    if recorded ≠ binding then .error (.mismatch position)
    else if check.rejection.any fun code => response ≠ .send (.refused code) then .error (.mismatch position)
    else
      match driver.reply program ⟨binding, response⟩ with
      | (.error _, _) => .error (.mismatch position)
      | (.ok (), driver) => .ok (.inl driver)
  | .crash recorded =>
    if recorded ≠ binding then .error (.mismatch position)
    else if check.rejection.isSome then .error (.mismatch position)
    else if !last then .error (.extra (position + 1))
    else .ok (.inr .crashed)
  | _ => .error (.mismatch position)

/-- the recorded outcome at `position` of a program that is done -/
def replayDone (outcome : Bytes) (position : ℕ) : List Link → Except ReplayError Ended
  | [] => .error (.missing position)
  | link :: links =>
    if link.entry ≠ .done outcome then .error (.mismatch position)
    else if links ≠ [] then .error (.extra (position + 1))
    else .ok (.done outcome)

def replayLoop (build : Build) (program : Program κ α) (done : Outcome α → Bytes) (driver : Driver κ α)
    (monitors : List Monitor) (position : ℕ) (links : List Link) : Except ReplayError Ended :=
  match driver.state with
  | .failed fatal => .error (.fatal fatal)
  | .done outcome => replayDone (done outcome) position links
  | .waiting binding operation _ =>
    match links with
    | [] => .error (.missing position)
    | request :: links =>
      if request.entry ≠ .request binding operation then .error (.mismatch position)
      else
        let (next, check) := admitOperation build monitors operation
        match links with
        | [] => .error (.missing (position + 1))
        | link :: links =>
          if monitors = [] then
            match replayAnswer program driver binding check (position + 1) link.entry (links = []) with
            | .error error => .error error
            | .ok (.inr ended) => .ok ended
            | .ok (.inl driver) => replayLoop build program done driver next (position + 2) links
          else if link.entry ≠ .policy binding check then .error (.mismatch (position + 1))
          else
            match links with
            | [] => .error (.missing (position + 2))
            | answer :: links =>
              match replayAnswer program driver binding check (position + 2) answer.entry (links = []) with
              | .error error => .error error
              | .ok (.inr ended) => .ok ended
              | .ok (.inl driver) => replayLoop build program done driver next (position + 3) links

/-- whether the manifest names this library's registry and programs, this start and as many policies as it binds -/
def Manifest.accepts (build : Build) (manifest : Manifest) (start : Bytes) : Bool :=
  manifest.provenanceComplete && manifest.registry == build.registryIdentity &&
    manifest.program == build.programSource && manifest.start == start &&
    (manifest.stack.filter (· == "policy")).length == manifest.policies.length

/-- re-runs a program from its transcript with no handler -/
def replay (build : Build) (program : Program κ α) (transcript : Transcript) (start : Bytes) (epoch : ℕ)
    (first : Step κ α) (done : Outcome α → Bytes) : Except ReplayError Ended := do
  (transcript.verify build).mapError ReplayError.chain
  Except.ensure (transcript.manifest.accepts build start = true) ReplayError.manifest
  let driver ← (Driver.start program registry epoch first).mapError ReplayError.fatal
  replayLoop build program done driver transcript.manifest.policies 0 transcript.links

end Replay

end ZenoFcis.Effects
