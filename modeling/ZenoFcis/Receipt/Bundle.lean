/-
Sealed candidates (`zeno-fcis-receipt`): the body that a candidate identity commits to, its receipt, and the complete
bundle, which is validated by sealing its parts again.
-/
import ZenoFcis.Patch.Apply
import ZenoFcis.Plan.Plan
import ZenoFcis.Value.Equality

namespace ZenoFcis

open Lib Patch

deriving instance DecidableEq for PatchOp, CanonicalPatch, PlanEffect, CommitPlan, OutboxEntry, OutboxPlan

/-- the semantic outcomes of a transition -/
inductive DecisionKind where
  | accept | reject | committedFailure
deriving DecidableEq

def maxReasonCodeBytes : ℕ := 96

/-- a stable, bounded, ASCII reason code -/
structure ReasonCode where
  text : Bytes
  bounded : text.length ≤ maxReasonCodeBytes
  ascii : isAscii text = true
deriving DecidableEq

def ReasonCode.tryFromString (text : Bytes) : Except TextError ReasonCode :=
  if h : text.length ≤ maxReasonCodeBytes then
    if ha : isAscii text = true then .ok ⟨text, h, ha⟩ else .error .nonAscii
  else .error (.tooLong ⟨0, maxReasonCodeBytes, text.length⟩)

/-- the content-addressed identity of a candidate -/
structure CandidateId where
  hash : Hash32
deriving DecidableEq

/-- the derived order -/
instance : LinearOrder CandidateId := LinearOrder.lift' CandidateId.hash fun a b h => by cases a; cases b; cases h; rfl

/-- what every component of a candidate shares -/
structure CandidateBindings where
  profileHash : Hash32
  commandHash : Hash32
  contextHash : Hash32
  precedenceHash : Hash32
  algorithmHash : Hash32
  budgetHash : Hash32
deriving DecidableEq

/-- the body from which the candidate identity is derived -/
structure CandidateBody where
  decisionKind : DecisionKind
  reasonCode : Option ReasonCode
  bindings : CandidateBindings
  preRoot : Hash32
  postRoot : Hash32
  patchHash : Hash32
  commitPlanHash : Hash32
  outboxPlanHash : Hash32
deriving DecidableEq

def decisionTag : DecisionKind → UInt8
  | .accept => 0
  | .reject => 1
  | .committedFailure => 2

def encodeBindings (bindings : CandidateBindings) : Bytes :=
  bindings.profileHash.bytes ++ bindings.commandHash.bytes ++ bindings.contextHash.bytes ++
    bindings.precedenceHash.bytes ++ bindings.algorithmHash.bytes ++ bindings.budgetHash.bytes

def CandidateBody.canonicalBytes (body : CandidateBody) : Except EncodeError Bytes := do
  let reason ← match body.reasonCode with
    | none => .ok [0]
    | some reason => do pure (1 :: (← putBlob reason.text))
  return decisionTag body.decisionKind :: reason ++ encodeBindings body.bindings ++ body.preRoot.bytes ++
    body.postRoot.bytes ++ body.patchHash.bytes ++ body.commitPlanHash.bytes ++ body.outboxPlanHash.bytes

/-- the receipt of a committed candidate -/
structure Receipt where
  candidateId : CandidateId
  body : CandidateBody
deriving DecidableEq

/-- the complete publication value of one candidate -/
structure CommitBundle where
  candidateId : CandidateId
  body : CandidateBody
  patch : CanonicalPatch
  commitPlan : CommitPlan
  outboxPlan : OutboxPlan
  receipt : Receipt
deriving DecidableEq

inductive SealError where
  | encode (error : EncodeError)
  | patch (error : PatchError)
  | reasonCode (error : TextError)
  | rejectCannotBeCandidate
  | acceptHasFailureReason
  | missingFailureReason
  | bundleMismatch
deriving DecidableEq

def validateDecisionReason (kind : DecisionKind) (reason : Option Bytes) : Except SealError (Option ReasonCode) :=
  match kind, reason with
  | .accept, none => .ok none
  | .committedFailure, some reason => do return some (← (ReasonCode.tryFromString reason).mapError SealError.reasonCode)
  | .reject, _ => .error .rejectCannotBeCandidate
  | .accept, some _ => .error .acceptHasFailureReason
  | .committedFailure, none => .error .missingFailureReason

def hashComponent (hash : Bytes → Hash32) (domain : Domain) (value : Except EncodeError Bytes) :
    Except SealError Hash32 := do
  let bytes ← value.mapError SealError.encode
  (commitment hash domain bytes).mapError .encode

/-- applies the patch, derives every component hash and seals one bundle -/
def CommitBundle.seal (hash : Bytes → Hash32) (preState : Value) (stateDomain : Domain) (kind : DecisionKind)
    (reason : Option Bytes) (bindings : CandidateBindings) (patch : CanonicalPatch) (commitPlan : CommitPlan)
    (outboxPlan : OutboxPlan) : Except SealError CommitBundle := do
  let reasonCode ← validateDecisionReason kind reason
  let applied ← (patch.apply hash preState stateDomain).mapError SealError.patch
  let patchHash ← hashComponent hash (.fixed "zeno-fcis/patch") patch.canonicalBytes
  let commitPlanHash ← hashComponent hash (.fixed "zeno-fcis/commit-plan") commitPlan.canonicalBytes
  let outboxPlanHash ← hashComponent hash (.fixed "zeno-fcis/outbox-plan") outboxPlan.canonicalBytes
  let body : CandidateBody :=
    ⟨kind, reasonCode, bindings, patch.expectedPreRoot, applied.postRoot, patchHash, commitPlanHash, outboxPlanHash⟩
  let candidateHash ← hashComponent hash (.fixed "zeno-fcis/candidate") body.canonicalBytes
  return ⟨⟨candidateHash⟩, body, patch, commitPlan, outboxPlan, ⟨⟨candidateHash⟩, body⟩⟩

/-- seals the parts again and returns the exact successor state -/
def CommitBundle.validateAndApply (hash : Bytes → Hash32) (bundle : CommitBundle) (preState : Value)
    (stateDomain : Domain) : Except SealError AppliedPatch := do
  let rebuilt ← CommitBundle.seal hash preState stateDomain bundle.body.decisionKind
    (bundle.body.reasonCode.map ReasonCode.text) bundle.body.bindings bundle.patch bundle.commitPlan bundle.outboxPlan
  if rebuilt ≠ bundle then .error .bundleMismatch
  else (bundle.patch.apply hash preState stateDomain).mapError .patch

/-- what validation establishes about a bundle and its successor -/
structure CommitBundle.Validated (hash : Bytes → Hash32) (stateDomain : Domain) (bundle : CommitBundle)
    (applied : AppliedPatch) : Prop where
  receipt : bundle.receipt.candidateId = bundle.candidateId
  root : hashValue hash stateDomain applied.state = .ok applied.postRoot

/-- a bundle that is applied has passed its checks -/
theorem CommitBundle.validateAndApply_ok {hash : Bytes → Hash32} {bundle : CommitBundle} {preState : Value}
    {stateDomain : Domain} {applied : AppliedPatch}
    (h : bundle.validateAndApply hash preState stateDomain = .ok applied) :
    bundle.Validated hash stateDomain applied := by
  simp only [validateAndApply, Lib.Except.bind_eq_ok] at h
  obtain ⟨rebuilt, hseal, h⟩ := h
  split_ifs at h with hne
  rw [not_not] at hne
  subst hne
  constructor
  · simp only [CommitBundle.seal, Lib.Except.bind_eq_ok] at hseal
    obtain ⟨_, _, _, _, _, _, _, _, _, _, _, _, hbundle⟩ := hseal
    rw [← Except.ok.inj hbundle]
  · have happly := Lib.Except.mapError_eq_ok.1 h
    unfold CanonicalPatch.apply at happly
    simp only [Lib.Except.bind_eq_ok] at happly
    obtain ⟨root, _, happly⟩ := happly
    split_ifs at happly
    simp only [Lib.Except.bind_eq_ok] at happly
    obtain ⟨current, _, postRoot, hpost, happly⟩ := happly
    cases happly
    exact hpost

end ZenoFcis
