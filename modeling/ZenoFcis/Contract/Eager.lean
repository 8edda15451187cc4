/-
The eager value of an expression tree, as the scalar programs of a contract compute it
(`zeno-fcis-contract/src/internals/graph.rs`): every operand is evaluated, and a tree has no value when one of its nodes
has none. A Boolean counts as zero or one among signed numbers, and a signed number is true when it is one; an unsigned
number mixes with neither.
-/
import ZenoFcis.Contract.Expr
import ZenoFcis.Finite.Typed

namespace ZenoFcis.Contract.Expr

open ZenoFcis.Finite

inductive Value where
  | bool (value : Bool)
  | int (value : I128)
  | unsigned (value : U128)
deriving DecidableEq

namespace Value

/-- `boolean` -/
def truth : Value → Option Bool
  | bool b => some b
  | int v => some (decide (v.val = 1))
  | unsigned _ => none

/-- `numeric` of a signed value -/
def number : Value → Option I128
  | bool b => some (if b then ⟨1, I128.lo_one, I128.hi_one⟩ else ⟨0, I128.lo_zero, I128.hi_zero⟩)
  | int v => some v
  | unsigned _ => none

/-- the numbers of two operands of one width -/
def arithmetic (signed : I128 → I128 → Option I128) (wide : U128 → U128 → Option U128) : Value → Value → Option Value
  | unsigned a, unsigned b => (wide a b).map unsigned
  | a, b => do
    let x ← a.number
    let y ← b.number
    (signed x y).map int

def compare (relation : ℤ → ℤ → Bool) : Value → Value → Option Value
  | unsigned a, unsigned b => some (bool (relation a.toNat b.toNat))
  | a, b => do
    let x ← a.number
    let y ← b.number
    some (bool (relation x.val y.val))

def logic (operator : Bool → Bool → Bool) (a b : Value) : Option Value := do
  let x ← a.truth
  let y ← b.truth
  some (bool (operator x y))

def binary : Binary → Value → Value → Option Value
  | .implies => logic fun x y => !x || y
  | .or => logic fun x y => x || y
  | .and => logic fun x y => x && y
  | .eq => compare fun x y => decide (x = y)
  | .ne => compare fun x y => decide (x ≠ y)
  | .lt => compare fun x y => decide (x < y)
  | .le => compare fun x y => decide (x ≤ y)
  | .gt => compare fun x y => decide (x > y)
  | .ge => compare fun x y => decide (x ≥ y)
  | .add => arithmetic Finite.checkedAdd Wide.checkedAdd
  | .sub => arithmetic Finite.checkedSub U128.checkedSub
  | .mul => arithmetic Scalar.multiply U128.checkedMul

/-- one of two values of one kind, or of the numbers of both -/
def choose (condition a b : Value) : Option Value := do
  let c ← condition.truth
  match a, b with
  | bool _, bool _ | int _, int _ | unsigned _, unsigned _ => some (if c then a else b)
  | a, b => do
    let x ← a.number
    let y ← b.number
    some (int (if c then x else y))

def div (rounding : Rounding) : Value → Value → Option Value :=
  arithmetic (Scalar.divide (rounding = .ceil)) (unsignedDiv (rounding = .ceil))
where
  unsignedDiv (up : Bool) (a b : U128) : Option U128 := Typed.unsignedDiv up a b

def mulDiv (rounding : Rounding) : Value → Value → Value → Option Value
  | unsigned a, unsigned b, unsigned d =>
    (match rounding with
      | .floor => Wide.mulDivFloor a b d
      | .ceil => Wide.mulDivCeil a b d).map unsigned
  | a, b, d => do
    let x ← a.number
    let y ← b.number
    let z ← d.number
    (Scalar.mulDiv (rounding = .ceil) x y z).map int

def signedMulDivFloor (a b d : Value) : Option Value := do
  let x ← a.number
  let y ← b.number
  let z ← d.number
  (Scalar.signedMulDivFloor x y z).map int

/-- the step so many times, over operands that have numbers -/
def repeatMulDiv (signed : Bool) (x a d : Value) : ℕ → Option Value
  | 0 => some x
  | count + 1 => do
    let y ← if signed then signedMulDivFloor x a d else mulDiv .floor x a d
    repeatMulDiv signed y a d count

/-- the kind of the first operand of a repeated step -/
def numeric : Value → Value
  | bool b => int (if b then ⟨1, I128.lo_one, I128.hi_one⟩ else ⟨0, I128.lo_zero, I128.hi_zero⟩)
  | v => v

def neg (a : Value) : Option Value := do
  let x ← a.number
  (Finite.checkedSub ⟨0, I128.lo_zero, I128.hi_zero⟩ x).map int

def toI128 : Value → Option Value
  | unsigned v => (narrow v.toNat).map int
  | _ => none

def toU128 : Value → Option Value
  | int v => if 0 ≤ v.val then some (unsigned (Scalar.asU128 v.val)) else none
  | _ => none

/-- the six factors of a comparison of products -/
def productsGe : List Value → Option Value
  | [unsigned a, unsigned b, unsigned c, unsigned d] => some (bool (Wide.productsGe a b 1 c d 1))
  | [unsigned a, unsigned b, unsigned c, unsigned d, unsigned e, unsigned f] => some (bool (Wide.productsGe a b c d e f))
  | l => do
    match ← l.mapM number with
    | [a, b, c, d] =>
      (Scalar.productsGe a b ⟨1, I128.lo_one, I128.hi_one⟩ c d ⟨1, I128.lo_one, I128.hi_one⟩).map bool
    | [a, b, c, d, e, f] => (Scalar.productsGe a b c d e f).map bool
    | _ => none

end Value

/-- the nodes of a circuit in order, over the values of its leaves -/
def circuitValues {φ : Type} : List (BoolNode φ) → List Value → List Bool → Option (List Bool)
  | [], _, values => some values
  | node :: nodes, leaves, values => do
    match node, leaves with
    | .formula _, leaf :: leaves => do
      let b ← leaf.truth
      circuitValues nodes leaves (values ++ [b])
    | .formula _, [] => none
    | .literal b, leaves => circuitValues nodes leaves (values ++ [b])
    | .not a, leaves => do
      let x ← values[a]?
      circuitValues nodes leaves (values ++ [!x])
    | .and a b, leaves => do
      let x ← values[a]?
      let y ← values[b]?
      circuitValues nodes leaves (values ++ [x && y])
    | .or a b, leaves => do
      let x ← values[a]?
      let y ← values[b]?
      circuitValues nodes leaves (values ++ [x || y])
    | .select c a b, leaves => do
      let z ← values[c]?
      let x ← values[a]?
      let y ← values[b]?
      circuitValues nodes leaves (values ++ [if z then x else y])

namespace Ast

/-- what a node makes of the values of its operands -/
def meaning (reason : Option Value) : Ast → List Value → Option Value
  | circuit nodes output, l => do
    let values ← circuitValues nodes l []
    let value ← values[output]?
    some (.bool value)
  | bool b, _ => some (.bool b)
  | int v, _ => some (.int v)
  | u128 v, _ => some (.unsigned v)
  | decisionReason, _ => reason
  | toI128 _, [a] => a.toI128
  | toU128 _, [a] => a.toU128
  | not _, [a] => a.truth.map fun b => .bool !b
  | neg _, [a] => a.neg
  | binary operator _ _, [a, b] => Value.binary operator a b
  | choose _ _ _, [c, a, b] => Value.choose c a b
  | div rounding _ _, [a, b] => Value.div rounding a b
  | mulDiv rounding _ _ _, [a, b, d] => Value.mulDiv rounding a b d
  | signedMulDivFloor _ _ _, [a, b, d] => Value.signedMulDivFloor a b d
  | repeatMulDiv signed _ _ _ count, [x, a, d] => Value.repeatMulDiv signed x.numeric a d count
  | productsGe _, l => Value.productsGe l
  -- a scaled call is lowered first
  | scaledMulDiv .., _ => none
  | _, _ => none

/-- the eager value of a node: all operands have values -/
def eager (reason : Option Value) (a : Ast) (l : List (Option Value)) : Option Value := do
  let values ← l.mapM id
  a.meaning reason values

/-- the eager value of a tree under a valuation of its names -/
def eval (reason : Option Value) (ρ : String → Option Value) : Ast → Option Value := fold ρ (eager reason)

end Ast

theorem circuitValues_refill {φ : Type} {nodes : List (BoolNode φ)} {l : List φ} {leaves : List Value}
    {values : List Bool} : circuitValues (refill nodes l) leaves values = circuitValues nodes leaves values := by
  induction nodes generalizing l leaves values with
  | nil => rfl
  | cons node nodes ih =>
    cases node with
    | formula f => cases l <;> cases leaves <;> simp only [refill, circuitValues, ih]
    | _ => simp only [refill, circuitValues, ih]

/-- the value of an expression depends on its names through their values only -/
theorem Ast.eager_uniform (reason : Option Value) : Uniform (eager reason) := by
  intro a l hl
  have hmeaning : (a.withChildren l).meaning reason = a.meaning reason := by
    funext values
    cases a with
    | circuit nodes output => simp only [withChildren, meaning, circuitValues_refill]
    | productsGe arguments => rfl
    | _ =>
      rcases l with _ | ⟨b, _ | ⟨c, _ | ⟨d, _ | ⟨e, l⟩⟩⟩⟩ <;>
        first
        | rfl
        | cases hl; done
        | rcases values with _ | ⟨v, _ | ⟨w, _ | ⟨x, _ | ⟨y, values⟩⟩⟩⟩ <;> rfl
  funext values
  rw [eager, eager, hmeaning]

end ZenoFcis.Contract.Expr
