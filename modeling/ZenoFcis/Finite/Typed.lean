/-
The total numeric node evaluator of the finite profiles (`zeno-fcis-synthesis/src/finite/value/mod.rs` and
`finite/evaluation/typed.rs`), with its legacy and typed adapters.

Every reference of an instruction is resolved before any kind or range is checked. An atom that no instruction computes
with (an enum, a sum, bytes, text, a canonical value) is a value of the parameter `χ`.
-/
import ZenoFcis.Finite.Scalar

namespace ZenoFcis.Finite

/-- a typed leaf -/
inductive Atom (χ : Type) where
  | bool (value : Bool)
  | i128 (value : I128)
  | u128 (value : U128)
  | other (value : χ)
deriving DecidableEq

inductive IntegerWidth where
  | signed64
  | signed128
  | unsigned128
deriving DecidableEq

inductive ArithmeticOp where
  | add
  | sub
deriving DecidableEq

inductive NumericFailure where
  | kind
  | range
deriving DecidableEq

/-- the values of `i64` -/
def inI64 (v : I128) : Prop := -2 ^ 63 ≤ v.val ∧ v.val < 2 ^ 63

instance (v : I128) : Decidable (inI64 v) := inferInstanceAs (Decidable (_ ∧ _))

/-- `u128::checked_sub` -/
def U128.checkedSub (a b : U128) : Option U128 := if b.toNat ≤ a.toNat then some (a - b) else none

/-- `u128::checked_mul` -/
def U128.checkedMul (a b : U128) : Option U128 := if a.toNat * b.toNat < 2 ^ 128 then some (a * b) else none

/-- `u128::checked_div` -/
def U128.checkedDiv (a b : U128) : Option U128 := if b = 0 then none else some (a / b)

variable {χ : Type}

def signedArithmetic (width : IntegerWidth) (op : ArithmeticOp) (a b : I128) : Except NumericFailure (Atom χ) :=
  if width = .signed64 ∧ (¬inI64 a ∨ ¬inI64 b) then .error .range
  else
    let computed := match op with
      | .add => checkedAdd a b
      | .sub => checkedSub a b
    match computed with
    | some value => if width = .signed64 ∧ ¬inI64 value then .error .range else .ok (.i128 value)
    | none => .error .range

def arithmetic (width : IntegerWidth) (op : ArithmeticOp) (left right : Atom χ) : Except NumericFailure (Atom χ) :=
  match width, left, right with
  | .signed64, .i128 a, .i128 b => signedArithmetic .signed64 op a b
  | .signed128, .i128 a, .i128 b => signedArithmetic .signed128 op a b
  | .unsigned128, .u128 a, .u128 b =>
    let computed := match op with
      | .add => Wide.checkedAdd a b
      | .sub => U128.checkedSub a b
    match computed with
    | some value => .ok (.u128 value)
    | none => .error .range
  | _, _, _ => .error .kind

inductive Kind where
  | bool
  | signed
  | unsigned
deriving DecidableEq

inductive BooleanEncoding where
  | legacyInteger01
  | typedBool
deriving DecidableEq

/-- `[u16; 3]` -/
structure Factors where
  first : UInt16
  second : UInt16
  third : UInt16
deriving DecidableEq

inductive Instruction (χ : Type) where
  | input (index : UInt16)
  | literal (value : Atom χ) (kind : Kind)
  | cast (signed : Bool) (a : UInt16)
  | arithmetic (width : IntegerWidth) (op : ArithmeticOp) (a b : UInt16)
  | eq (encoding : BooleanEncoding) (a b : UInt16)
  | lt (encoding : BooleanEncoding) (a b : UInt16)
  | and (encoding : BooleanEncoding) (a b : UInt16)
  | not (encoding : BooleanEncoding) (a : UInt16)
  | select (encoding : BooleanEncoding) (c a b : UInt16)
  | mulDiv (up : Bool) (a b den : UInt16)
  | productsGe (left right : Factors)
  | scalarMul (width : IntegerWidth) (a b : UInt16)
  | scalarDiv (width : IntegerWidth) (up : Bool) (a b : UInt16)
  | scalarMulDiv (width : IntegerWidth) (up : Bool) (a b den : UInt16)
  | scalarProductsGe (encoding : BooleanEncoding) (left right : Factors)
  | signedMulDivFloor (a b den : UInt16)

/-- borrowed inputs or scratch -/
inductive Values (χ : Type) where
  | legacy (values : List I128)
  | typed (values : List (Atom χ))

def Values.get (values : Values χ) (index : UInt16) : Option (Atom χ) :=
  match values with
  | .legacy v => v[index.toNat]?.map .i128
  | .typed v => v[index.toNat]?

namespace Typed

inductive Failure where
  | reference
  | kind
  | arithmetic
deriving DecidableEq

def kind : Atom χ → Option Kind
  | .bool _ => some .bool
  | .i128 _ => some .signed
  | .u128 _ => some .unsigned
  | .other _ => none

def boolean (encoding : BooleanEncoding) (value : Bool) : Atom χ :=
  match encoding with
  | .legacyInteger01 => .i128 (if value then ⟨1, I128.lo_one, I128.hi_one⟩ else ⟨0, I128.lo_zero, I128.hi_zero⟩)
  | .typedBool => .bool value

def project : Atom χ → Option I128
  | .i128 v => some v
  | _ => none

def projectWidth (width : IntegerWidth) (value : Atom χ) : Option I128 :=
  match value with
  | .i128 v => if width = .signed128 ∨ (width = .signed64 ∧ inI64 v) then some v else none
  | _ => none

def widthResult (width : IntegerWidth) (value : Option I128) : Except Failure (Atom χ) :=
  match value.bind fun v => projectWidth width (.i128 v : Atom χ) with
  | some v => .ok (.i128 v)
  | none => .error .arithmetic

/-- a range result of a checked operation -/
def checked (value : Option (Atom χ)) : Except Failure (Atom χ) :=
  match value with
  | some v => .ok v
  | none => .error .arithmetic

/-- two operands, resolved before either is inspected -/
def get2 (values : Values χ) (a b : UInt16) : Except Failure (Atom χ × Atom χ) :=
  match values.get a, values.get b with
  | some a, some b => .ok (a, b)
  | _, _ => .error .reference

/-- three operands, resolved before any is inspected -/
def get3 (values : Values χ) (a b c : UInt16) : Except Failure (Atom χ × Atom χ × Atom χ) :=
  match values.get a, values.get b, values.get c with
  | some a, some b, some c => .ok (a, b, c)
  | _, _, _ => .error .reference

/-- the six factors of a comparison, resolved before any is inspected -/
def getFactors (values : Values χ) (left right : Factors) :
    Except Failure ((Atom χ × Atom χ × Atom χ) × Atom χ × Atom χ × Atom χ) :=
  match get3 values left.first left.second left.third, get3 values right.first right.second right.third with
  | .ok left, .ok right => .ok (left, right)
  | _, _ => .error .reference

def scalarBinary (width : IntegerWidth) (unsigned : U128 → U128 → Option U128) (signed : I128 → I128 → Option I128)
    (left right : Atom χ) : Except Failure (Atom χ) :=
  match left, right with
  | .u128 a, .u128 b =>
    if width = .unsigned128 then checked ((unsigned a b).map .u128) else .error .kind
  | .i128 _, .i128 _ =>
    match projectWidth width left, projectWidth width right with
    | some a, some b => widthResult width (signed a b)
    | _, _ => .error .arithmetic
  | _, _ => .error .kind

/-- the unsigned quotient of `ScalarDiv` -/
def unsignedDiv (up : Bool) (a b : U128) : Option U128 := do
  let q ← U128.checkedDiv a b
  if up ∧ a % b ≠ 0 then Wide.checkedAdd q 1 else some q

def node (op : Instruction χ) (input values : Values χ) : Except Failure (Atom χ) :=
  match op with
  | .input i =>
    match input.get i with
    | none => .error .reference
    | some v => if (kind v).isSome then .ok v else .error .kind
  | .literal v _ => .ok v
  | .cast signed a =>
    match values.get a with
    | none => .error .reference
    | some v =>
      match signed, v with
      | true, .u128 v => checked ((narrow v.toNat).map .i128)
      | false, .i128 v => if 0 ≤ v.val then .ok (.u128 (Scalar.asU128 v.val)) else .error .arithmetic
      | _, _ => .error .kind
  | .scalarMul w a b => do
    let (a, b) ← get2 values a b
    scalarBinary w U128.checkedMul Scalar.multiply a b
  | .scalarDiv w up a b => do
    let (a, b) ← get2 values a b
    scalarBinary w (unsignedDiv up) (Scalar.divide up) a b
  | .scalarMulDiv w up a b d => do
    let (a, b, d) ← get3 values a b d
    match a, b, d with
    | .i128 _, .i128 _, .i128 _ =>
      match projectWidth w a, projectWidth w b, projectWidth w d with
      | some a, some b, some d => widthResult w (Scalar.mulDiv up a b d)
      | _, _, _ => .error .arithmetic
    | _, _, _ => .error .kind
  | .scalarProductsGe encoding left right => do
    let ((a, b, c), d, e, f) ← getFactors values left right
    match project a, project b, project c, project d, project e, project f with
    | some a, some b, some c, some d, some e, some f =>
      checked ((Scalar.productsGe a b c d e f).map (boolean encoding))
    | _, _, _, _, _, _ => .error .kind
  | .signedMulDivFloor a b d => do
    let (a, b, d) ← get3 values a b d
    match a, b, d with
    | .i128 a, .i128 b, .i128 d => checked ((Scalar.signedMulDivFloor a b d).map .i128)
    | _, _, _ => .error .kind
  | .mulDiv up a b den => do
    let (a, b, den) ← get3 values a b den
    match a, b, den with
    | .u128 a, .u128 b, .u128 den =>
      checked ((if up then Wide.mulDivCeil a b den else Wide.mulDivFloor a b den).map .u128)
    | _, _, _ => .error .kind
  | .productsGe left right => do
    let ((a, b, c), d, e, f) ← getFactors values left right
    match a, b, c, d, e, f with
    | .u128 a, .u128 b, .u128 c, .u128 d, .u128 e, .u128 f => .ok (.bool (Wide.productsGe a b c d e f))
    | _, _, _, _, _, _ => .error .kind
  | .not encoding a =>
    match values.get a with
    | none => .error .reference
    | some v =>
      match encoding, v with
      | .legacyInteger01, .i128 v => .ok (boolean encoding (decide (v.val = 0)))
      | .typedBool, .bool v => .ok (boolean encoding (!v))
      | _, _ => .error .kind
  | .select encoding c a b => do
    let (c, a, b) ← get3 values c a b
    match encoding, c, a, b with
    | .legacyInteger01, .i128 c, .i128 a, .i128 b => .ok (.i128 (if c.val = 1 then a else b))
    | .typedBool, .bool c, a, b =>
      if (kind a).isSome ∧ kind a = kind b then .ok (if c then a else b) else .error .kind
    | _, _, _, _ => .error .kind
  | .arithmetic width operation a b => do
    let (left, right) ← get2 values a b
    match Finite.arithmetic width operation left right with
    | .ok v => .ok v
    | .error .kind => .error .kind
    | .error .range => .error .arithmetic
  | .eq encoding a b => do
    let (left, right) ← get2 values a b
    match left, right with
    | .i128 a, .i128 b => .ok (boolean encoding (decide (a = b)))
    | .u128 a, .u128 b => .ok (boolean encoding (decide (a = b)))
    | .bool a, .bool b => .ok (boolean encoding (decide (a = b)))
    | _, _ => .error .kind
  | .lt encoding a b => do
    let (left, right) ← get2 values a b
    match left, right with
    | .i128 a, .i128 b => .ok (boolean encoding (decide (a.val < b.val)))
    | .u128 a, .u128 b => .ok (boolean encoding (decide (a < b)))
    | _, _ => .error .kind
  | .and encoding a b => do
    let (left, right) ← get2 values a b
    match encoding, left, right with
    | .legacyInteger01, .i128 a, .i128 b => .ok (boolean encoding (decide (a.val = 1) && decide (b.val = 1)))
    | .typedBool, .bool a, .bool b => .ok (boolean encoding (a && b))
    | _, _, _ => .error .kind

end Typed

end ZenoFcis.Finite
