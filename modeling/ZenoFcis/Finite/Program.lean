/-
Closed finite programs (`zeno-fcis-synthesis/src/finite/ir.rs`, `evaluation/mod.rs` and `evaluation/admission/mod.rs`):
scalar domains, instructions, structural admission and eager evaluation into reused buffers.

A `Program` carries the admission result that its constructors checked. Evaluation follows the source's order: the input
domains, every node in order, every root, the output domains; both buffers are cleared before and after a refusal.
-/
import ZenoFcis.Codec.Decode
import ZenoFcis.Finite.Typed

namespace ZenoFcis.Finite

def maxNodes : ℕ := 256

def maxFields : ℕ := 16

def maxExtendedInputs : ℕ := 64

def maxExtendedOutputs : ℕ := 64

def maxExtendedNodes : ℕ := 4096

/-- a closed scalar domain -/
inductive Domain where
  | bool
  | int (min max : I128)
deriving DecidableEq

namespace Domain

def bounds : Domain → I128 × I128
  | bool => (⟨0, I128.lo_zero, I128.hi_zero⟩, ⟨1, I128.lo_one, I128.hi_one⟩)
  | int min max => (min, max)

def valid (d : Domain) : Bool := decide (d.bounds.1.val ≤ d.bounds.2.val)

def boolean : Domain → Bool
  | bool => true
  | int _ _ => false

def contains (d : Domain) (value : I128) : Bool :=
  decide (value.val ≥ d.bounds.1.val) && decide (value.val ≤ d.bounds.2.val)

end Domain

/-- one typed instruction with operands that refer to earlier nodes -/
inductive Op where
  | input (index : UInt16)
  | int (value : I128)
  | bool (value : Bool)
  | add (a b : UInt16)
  | sub (a b : UInt16)
  | eq (a b : UInt16)
  | lt (a b : UInt16)
  | and (a b : UInt16)
  | not (a : UInt16)
  | select (c a b : UInt16)
  | mul (a b : UInt16)
  | divFloor (a b : UInt16)
  | divCeil (a b : UInt16)
  | mulDivFloor (a b d : UInt16)
  | mulDivCeil (a b d : UInt16)
  | productsGe (a b : Factors)
  | signedMulDivFloor (a b d : UInt16)
deriving DecidableEq

/-! ## Evaluation -/

/-- an execution failure -/
inductive Failure where
  | inputDomain
  | reference
  | arithmetic
  | outputDomain
deriving DecidableEq

def admitted (domains : List Domain) (values : List I128) : Bool :=
  decide (domains.length = values.length) && (List.zipWith Domain.contains domains values).all id

/-- the closed adapter of a legacy instruction -/
def legacyInstruction : Op → Instruction Empty
  | .input i => .input i
  | .int v => .literal (.i128 v) .signed
  | .bool v => .literal (Typed.boolean .legacyInteger01 v) .bool
  | .add a b => .arithmetic .signed128 .add a b
  | .sub a b => .arithmetic .signed128 .sub a b
  | .eq a b => .eq .legacyInteger01 a b
  | .lt a b => .lt .legacyInteger01 a b
  | .and a b => .and .legacyInteger01 a b
  | .not a => .not .legacyInteger01 a
  | .select c a b => .select .legacyInteger01 c a b
  | .mul a b => .scalarMul .signed128 a b
  | .divFloor a b => .scalarDiv .signed128 false a b
  | .divCeil a b => .scalarDiv .signed128 true a b
  | .mulDivFloor a b d => .scalarMulDiv .signed128 false a b d
  | .mulDivCeil a b d => .scalarMulDiv .signed128 true a b d
  | .productsGe a b => .scalarProductsGe .legacyInteger01 a b
  | .signedMulDivFloor a b d => .signedMulDivFloor a b d

def evaluateNode (op : Op) (input values : List I128) : Except Failure I128 :=
  match Typed.node (legacyInstruction op) (.legacy input) (.legacy values) with
  | .ok value =>
    match Typed.project value with
    | some value => .ok value
    | none => .error .arithmetic
  | .error .reference => .error .reference
  | .error .arithmetic => .error .arithmetic
  | .error .kind => .error .arithmetic

/-- the nodes in order; on a failure the values of the nodes before it remain -/
def evaluateNodesLoop (input : List I128) : List Op → List I128 → Except Failure Unit × List I128
  | [], values => (.ok (), values)
  | op :: nodes, values =>
    match evaluateNode op input values with
    | .ok value => evaluateNodesLoop input nodes (values ++ [value])
    | .error error => (.error error, values)

/-- the roots in order -/
def projectLoop (values : List I128) : List UInt16 → List I128 → Except Failure Unit × List I128
  | [], output => (.ok (), output)
  | root :: roots, output =>
    match values[root.toNat]? with
    | some value => projectLoop values roots (output ++ [value])
    | none => (.error .reference, output)

/-- the caller's buffers -/
structure Buffers where
  values : List I128
  output : List I128
deriving DecidableEq

/-- both buffers cleared -/
def Buffers.empty : Buffers := ⟨[], []⟩

def evaluateNodes (inputs outputs : List Domain) (nodes : List Op) (roots : List UInt16) (input : List I128)
    (_ : Buffers) : Except Failure Unit × Buffers :=
  if admitted inputs input then
    match evaluateNodesLoop input nodes [] with
    | (.error error, values) => (.error error, ⟨values, []⟩)
    | (.ok (), values) =>
      match projectLoop values roots [] with
      | (.error error, output) => (.error error, ⟨values, output⟩)
      | (.ok (), output) => (if admitted outputs output then .ok () else .error .outputDomain, ⟨values, output⟩)
  else (.error .inputDomain, .empty)

def evaluateInto (inputs outputs : List Domain) (nodes : List Op) (roots : List UInt16) (input : List I128)
    (buffers : Buffers) : Except Failure Unit × Buffers :=
  match evaluateNodes inputs outputs nodes roots input buffers with
  | (.error error, _) => (.error error, .empty)
  | (.ok (), buffers) => (.ok (), buffers)

/-! ## Admission -/

inductive AdmissionFailure where
  | shape
  | inputReference
  | nodeReference
  | typeMismatch
  | outputType
deriving DecidableEq

def nodeKind (previous : List Bool) (id : UInt16) : Except AdmissionFailure Bool :=
  match previous[id.toNat]? with
  | some kind => .ok kind
  | none => .error .nodeReference

def requireNode (previous : List Bool) (id : UInt16) (expected : Bool) : Except AdmissionFailure Unit := do
  let actual ← nodeKind previous id
  if actual = expected then .ok () else .error .typeMismatch

/-- two integer operands -/
def requireIntegers (previous : List Bool) (a b : UInt16) : Except AdmissionFailure Unit := do
  requireNode previous a false
  requireNode previous b false

/-- three integer operands -/
def requireFactors (previous : List Bool) (a b c : UInt16) : Except AdmissionFailure Unit := do
  requireNode previous a false
  requireNode previous b false
  requireNode previous c false

/-- one instruction's scalar kind, true for a Boolean -/
def kind (op : Op) (inputs : List Domain) (previous : List Bool) : Except AdmissionFailure Bool :=
  match op with
  | .input id =>
    match inputs[id.toNat]? with
    | some input => .ok input.boolean
    | none => .error .inputReference
  | .int _ => .ok false
  | .bool _ => .ok true
  | .add a b | .sub a b | .mul a b | .divFloor a b | .divCeil a b => do
    requireIntegers previous a b
    return false
  | .lt a b => do
    requireIntegers previous a b
    return true
  | .mulDivFloor a b d | .mulDivCeil a b d | .signedMulDivFloor a b d => do
    requireFactors previous a b d
    return false
  | .productsGe a b => do
    requireFactors previous a.first a.second a.third
    requireFactors previous b.first b.second b.third
    return true
  | .and a b => do
    requireNode previous a true
    requireNode previous b true
    return true
  | .eq a b => do
    let left ← nodeKind previous a
    let right ← nodeKind previous b
    if left = right then .ok true else .error .typeMismatch
  | .not a => do
    requireNode previous a true
    return true
  | .select c a b => do
    requireNode previous c true
    let yes ← nodeKind previous a
    let no ← nodeKind previous b
    if yes = no then .ok yes else .error .typeMismatch

def validDomains (domains : List Domain) : Bool := domains.all Domain.valid

def validateShape (inputs outputs : List Domain) (nodes : ℕ) (roots : List UInt16) : Except AdmissionFailure Unit :=
  if inputs.length > 2 * maxFields ∨ outputs.isEmpty ∨ outputs.length > maxFields ∨ nodes = 0 ∨ nodes > maxNodes ∨
      outputs.length ≠ roots.length ∨ ¬validDomains inputs ∨ ¬validDomains outputs then .error .shape
  else .ok ()

def validateExtendedShape (inputs outputs : List Domain) (nodes : ℕ) (roots : List UInt16) :
    Except AdmissionFailure Unit :=
  if inputs.length > maxExtendedInputs ∨ outputs.isEmpty ∨ outputs.length > maxExtendedOutputs ∨ nodes = 0 ∨
      nodes > maxExtendedNodes ∨ outputs.length ≠ roots.length ∨ ¬validDomains inputs ∨ ¬validDomains outputs then
    .error .shape
  else .ok ()

/-- the roots over the overlap with the outputs -/
def validateRoots : List Domain → List UInt16 → List Bool → Except AdmissionFailure Unit
  | output :: outputs, root :: roots, kinds =>
    if kinds[root.toNat]? = some output.boolean then validateRoots outputs roots kinds else .error .outputType
  | _, _, _ => .ok ()

/-- the kinds of the nodes in order -/
def kindsLoop (inputs : List Domain) : List Op → List Bool → Except AdmissionFailure (List Bool)
  | [], kinds => .ok kinds
  | op :: nodes, kinds =>
    match kind op inputs kinds with
    | .ok value => kindsLoop inputs nodes (kinds ++ [value])
    | .error error => .error error

def validateGraph (inputs outputs : List Domain) (nodes : List Op) (roots : List UInt16) :
    Except AdmissionFailure Unit := do
  let kinds ← kindsLoop inputs nodes []
  validateRoots outputs roots kinds

def validateProgram (inputs outputs : List Domain) (nodes : List Op) (roots : List UInt16) :
    Except AdmissionFailure Unit := do
  validateShape inputs outputs nodes.length roots
  validateGraph inputs outputs nodes roots

def validateExtendedProgram (inputs outputs : List Domain) (nodes : List Op) (roots : List UInt16) :
    Except AdmissionFailure Unit := do
  validateExtendedShape inputs outputs nodes.length roots
  validateGraph inputs outputs nodes roots

/-! ## Programs -/

/-- a stable synthesis-hole identifier -/
@[ext]
structure HoleId where
  value : UInt32
  nonzero : value ≠ 0

instance decEqHoleId : DecidableEq HoleId := fun a b =>
  decidable_of_iff (a.value = b.value) (HoleId.ext_iff).symm

/-- a synthesis construction, search or certification failure -/
inductive SynthesisError where
  | zeroHoleId
  | zeroBinding
  | zeroCheckerIdentity
  | emptyProblem
  | tooManyHoles
  | duplicateHoleId
  | emptyCandidateDomain (hole : HoleId)
  | tooManyCandidateValues (hole : HoleId)
  | duplicateCandidateValue (hole : HoleId)
  | cardinalityOverflow
  | searchSpaceTooLarge
  | incompleteSearch (required declared : ℕ)
  | checkerIndeterminate
  | missingAcceptanceEvidence
  | encode (error : EncodeError)
deriving DecidableEq

/-- a failure of the finite profile -/
inductive Error where
  | invalid (code : String)
  | limit (resource : String)
  | budget (resource : String) (required declared : ℕ)
  | arithmetic
  | contractTrap (input output : List I128)
  | search (error : SynthesisError)
deriving DecidableEq

def admissionError : AdmissionFailure → Error
  | .shape => .invalid "program-shape"
  | .inputReference => .invalid "input-reference"
  | .nodeReference => .invalid "node-reference"
  | .typeMismatch => .invalid "type-mismatch"
  | .outputType => .invalid "output-type"

def executionError : Failure → Error
  | .inputDomain => .invalid "input-domain"
  | .reference => .invalid "node-reference"
  | .arithmetic => .arithmetic
  | .outputDomain => .invalid "output-domain"

/-- a structurally validated, closed expression graph -/
structure Program where
  inputs : List Domain
  outputs : List Domain
  nodes : List Op
  roots : List UInt16
  validated : validateProgram inputs outputs nodes roots = .ok () ∨
    validateExtendedProgram inputs outputs nodes roots = .ok ()
deriving DecidableEq

namespace Program

def tryNew (inputs outputs : List Domain) (nodes : List Op) (roots : List UInt16) : Except Error Program :=
  match h : validateProgram inputs outputs nodes roots with
  | .ok () => .ok ⟨inputs, outputs, nodes, roots, .inl h⟩
  | .error error => .error (admissionError error)

def tryNewExtended (inputs outputs : List Domain) (nodes : List Op) (roots : List UInt16) : Except Error Program :=
  match h : validateExtendedProgram inputs outputs nodes roots with
  | .ok () => .ok ⟨inputs, outputs, nodes, roots, .inr h⟩
  | .error error => .error (admissionError error)

def evaluateInto (program : Program) (input : List I128) (buffers : Buffers) : Except Error Unit × Buffers :=
  match Finite.evaluateInto program.inputs program.outputs program.nodes program.roots input buffers with
  | (.ok (), buffers) => (.ok (), buffers)
  | (.error failure, buffers) => (.error (executionError failure), buffers)

def evaluate (program : Program) (input : List I128) : Except Error (List I128) :=
  match program.evaluateInto input .empty with
  | (.ok (), buffers) => .ok buffers.output
  | (.error error, _) => .error error

end Program

end ZenoFcis.Finite
