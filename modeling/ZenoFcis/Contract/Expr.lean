/-
Decision-rule expressions (`zeno-fcis-contract/src/internals/expr.rs`) as one tree, with the Boolean circuits of
`zeno-fcis-spec/src/bool_circuit.rs`.

Every node is given by its operands (`children`) and by what it makes of them (`withChildren`). Trees are folded node by
node; substitution and the names of a tree are folds.
-/
import ZenoFcis.Finite.Scalar

namespace ZenoFcis.Contract.Expr

open ZenoFcis.Finite

/-- binary operators, from loosest to tightest binding -/
inductive Binary where
  | implies
  | or
  | and
  | eq
  | ne
  | lt
  | le
  | gt
  | ge
  | add
  | sub
  | mul
deriving DecidableEq

/-- rounding of `div_floor` and `div_ceil` -/
inductive Rounding where
  | floor
  | ceil
deriving DecidableEq

/-- one operation of a Boolean circuit over earlier nodes -/
inductive BoolNode (φ : Type) where
  | formula (f : φ)
  | literal (value : Bool)
  | not (a : ℕ)
  | and (a b : ℕ)
  | or (a b : ℕ)
  | select (c a b : ℕ)
deriving DecidableEq

/-- an expression tree -/
inductive Ast where
  | circuit (nodes : List (BoolNode Ast)) (output : ℕ)
  | bool (value : Bool)
  | int (value : I128)
  | u128 (value : U128)
  | toI128 (a : Ast)
  | toU128 (a : Ast)
  /-- candidate reason, available only to rejection and failure laws -/
  | decisionReason
  | name (name : String)
  | not (a : Ast)
  | neg (a : Ast)
  | binary (operator : Binary) (left right : Ast)
  | choose (condition thenTree elseTree : Ast)
  | div (rounding : Rounding) (left right : Ast)
  /-- fused product and division -/
  | mulDiv (rounding : Rounding) (a b d : Ast)
  | signedMulDivFloor (a b d : Ast)
  | scaledMulDiv (rounding : Rounding) (signed : Bool) (a b d : Ast) (scale : ℕ)
  | repeatMulDiv (signed : Bool) (x a d : Ast) (count : ℕ)
  /-- four arguments compare products of two factors, six products of three -/
  | productsGe (arguments : List Ast)

/-! ## Circuits -/

namespace BoolNode

variable {φ : Type}

/-- the formula leaf of a node -/
def leaf : BoolNode φ → Option φ
  | formula f => some f
  | _ => none

end BoolNode

/-- the formula leaves of a circuit, in order -/
def formulas {φ : Type} (nodes : List (BoolNode φ)) : List φ := nodes.filterMap BoolNode.leaf

/-- other formulas in the places of the leaves -/
def refill {φ : Type} : List (BoolNode φ) → List φ → List (BoolNode φ)
  | .formula _ :: nodes, g :: gs => .formula g :: refill nodes gs
  | .formula f :: nodes, [] => .formula f :: refill nodes []
  | node :: nodes, gs => node :: refill nodes gs
  | [], _ => []

namespace Ast

/-- the operands of a node, in the order in which the source visits them -/
def children : Ast → List Ast
  | circuit nodes _ => formulas nodes
  | bool _ | int _ | u128 _ | decisionReason | name _ => []
  | toI128 a | toU128 a | not a | neg a => [a]
  | binary _ left right | div _ left right => [left, right]
  | choose a b c | mulDiv _ a b c | signedMulDivFloor a b c | scaledMulDiv _ _ a b c _ | repeatMulDiv _ a b c _ =>
    [a, b, c]
  | productsGe arguments => arguments

/-- the same node over other operands -/
def withChildren : Ast → List Ast → Ast
  | circuit nodes output, l => circuit (refill nodes l) output
  | toI128 _, [a] => toI128 a
  | toU128 _, [a] => toU128 a
  | not _, [a] => not a
  | neg _, [a] => neg a
  | binary operator _ _, [left, right] => binary operator left right
  | div rounding _ _, [left, right] => div rounding left right
  | choose _ _ _, [a, b, c] => choose a b c
  | mulDiv rounding _ _ _, [a, b, c] => mulDiv rounding a b c
  | signedMulDivFloor _ _ _, [a, b, c] => signedMulDivFloor a b c
  | scaledMulDiv rounding signed _ _ _ scale, [a, b, c] => scaledMulDiv rounding signed a b c scale
  | repeatMulDiv signed _ _ _ count, [a, b, c] => repeatMulDiv signed a b c count
  | productsGe _, l => productsGe l
  | a, _ => a

/-- the name of a node that is one -/
def name? : Ast → Option String
  | name x => some x
  | _ => none

end Ast

theorem mem_formulas {φ : Type} {nodes : List (BoolNode φ)} {f : φ} : f ∈ formulas nodes ↔ .formula f ∈ nodes := by
  rw [formulas, List.mem_filterMap]
  constructor
  · intro ⟨node, hnode, hleaf⟩
    cases node <;> cases hleaf
    exact hnode
  · intro h
    exact ⟨_, h, rfl⟩

theorem formulas_refill {φ : Type} {nodes : List (BoolNode φ)} {l : List φ} (h : l.length = (formulas nodes).length) :
    formulas (refill nodes l) = l := by
  induction nodes generalizing l with
  | nil => exact (List.length_eq_zero_iff.1 h).symm
  | cons node nodes ih =>
    cases node with
    | formula f =>
      cases l with
      | nil => cases h
      | cons g l => exact congrArg (g :: ·) (ih (Nat.succ.inj h))
    | _ => exact ih h

theorem refill_refill {φ : Type} {nodes : List (BoolNode φ)} {l l' : List φ} (h : l.length = (formulas nodes).length)
    (h' : l'.length = (formulas nodes).length) : refill (refill nodes l) l' = refill nodes l' := by
  induction nodes generalizing l l' with
  | nil => rfl
  | cons node nodes ih =>
    cases node with
    | formula f =>
      cases l with
      | nil => cases h
      | cons g l =>
        cases l' with
        | nil => cases h'
        | cons g' l' => exact congrArg (_ :: ·) (ih (Nat.succ.inj h) (Nat.succ.inj h'))
    | _ => exact congrArg (_ :: ·) (ih h h')

theorem refill_formulas {φ : Type} (nodes : List (BoolNode φ)) : refill nodes (formulas nodes) = nodes := by
  induction nodes with
  | nil => rfl
  | cons node nodes ih => cases node <;> exact congrArg (_ :: ·) ih

namespace Ast

@[simp] theorem name?_name (x : String) : (name x).name? = some x := rfl

variable {a : Ast} {lookup : String → Option Ast}

/-- a name node is recognised by its name -/
theorem name?_eq_some {x : String} : a.name? = some x ↔ a = name x := by
  cases a <;> simp [name?]

theorem withChildren_children (a : Ast) : a.withChildren a.children = a := by
  cases a <;> first | rfl | exact congrArg (circuit · _) (refill_formulas _)

/-- new children keep a node's name -/
theorem name?_withChildren (a : Ast) (l : List Ast) : (a.withChildren l).name? = a.name? := by
  cases a <;> first | rfl | (rcases l with _ | ⟨b, _ | ⟨c, _ | ⟨d, _ | ⟨e, l⟩⟩⟩⟩ <;> rfl)

theorem children_withChildren {l : List Ast} (h : l.length = a.children.length) :
    (a.withChildren l).children = l := by
  cases a with
  | circuit nodes output => exact formulas_refill h
  | productsGe arguments => rfl
  | _ => rcases l with _ | ⟨b, _ | ⟨c, _ | ⟨d, _ | ⟨e, l⟩⟩⟩⟩ <;> first | rfl | cases h

theorem withChildren_withChildren {l l' : List Ast} (h : l.length = a.children.length)
    (h' : l'.length = a.children.length) : (a.withChildren l).withChildren l' = a.withChildren l' := by
  cases a with
  | circuit nodes output => exact congrArg (circuit · _) (refill_refill h h')
  | productsGe arguments => rfl
  | _ =>
    rcases l with _ | ⟨b, _ | ⟨c, _ | ⟨d, _ | ⟨e, l⟩⟩⟩⟩ <;>
      first
      | cases h; done
      | rcases l' with _ | ⟨b', _ | ⟨c', _ | ⟨d', _ | ⟨e', l'⟩⟩⟩⟩ <;> first | rfl | cases h'

/-- children are smaller than their node -/
theorem sizeOf_children {c : Ast} (h : c ∈ a.children) : sizeOf c < sizeOf a := by
  cases a with
  | circuit nodes output =>
    have hnode := List.sizeOf_lt_of_mem (mem_formulas.1 h)
    rw [BoolNode.formula.sizeOf_spec] at hnode
    rw [circuit.sizeOf_spec]
    omega
  | productsGe arguments =>
    have hmem : sizeOf c < sizeOf arguments := List.sizeOf_lt_of_mem h
    rw [productsGe.sizeOf_spec]
    omega
  | bool | int | u128 | decisionReason | name => cases h
  | toI128 | toU128 | not | neg =>
    obtain rfl := List.mem_singleton.1 h
    simp only [toI128.sizeOf_spec, toU128.sizeOf_spec, not.sizeOf_spec, neg.sizeOf_spec]
    omega
  | binary | div =>
    simp only [binary.sizeOf_spec, div.sizeOf_spec]
    rcases List.mem_pair.1 h with rfl | rfl <;> omega
  | choose | mulDiv | signedMulDivFloor | scaledMulDiv | repeatMulDiv =>
    simp only [choose.sizeOf_spec, mulDiv.sizeOf_spec, signedMulDivFloor.sizeOf_spec, scaledMulDiv.sizeOf_spec,
      repeatMulDiv.sizeOf_spec]
    rcases List.mem_cons.1 h with rfl | h
    · omega
    · rcases List.mem_pair.1 h with rfl | rfl <;> omega

@[elab_as_elim]
theorem induct {motive : Ast → Prop} (name : ∀ x, motive (.name x))
    (node : ∀ a, a.name? = none → (∀ c ∈ a.children, motive c) → motive a) (a : Ast) : motive a :=
  match h : a.name? with
  | some x => name?_eq_some.1 h ▸ name x
  | none => node a h fun c _ => induct name node c
termination_by sizeOf a
decreasing_by exact sizeOf_children ‹_›

/-- what the nodes make of what their operands are folded to -/
def fold {β : Type} (name : String → β) (node : Ast → List β → β) (a : Ast) : β :=
  match a.name? with
  | some x => name x
  | none => node a (a.children.attach.map fun c => fold name node c.1)
termination_by sizeOf a
decreasing_by exact sizeOf_children c.2

/-- a fold of a name is the value of the name -/
@[simp] theorem fold_name {β : Type} {name : String → β} {node : Ast → List β → β} (x : String) :
    fold name node (.name x) = name x := by
  rw [fold]
  rfl

/-- a fold of a node folds its children first -/
theorem fold_node {β : Type} {name : String → β} {node : Ast → List β → β} (h : a.name? = none) :
    fold name node a = node a (a.children.map (fold name node)) := by
  rw [fold, h]
  exact congrArg _ List.attach_map_val

/-! ## Names and substitution -/

/-- the names of a tree -/
def names : Ast → List String := fold (fun x => [x]) fun _ l => l.flatten

@[simp] theorem names_name (x : String) : (name x).names = [x] := fold_name x

theorem names_node (h : a.name? = none) : a.names = (a.children.map names).flatten := fold_node h

/-- the names of a node are those of its children -/
theorem mem_names (h : a.name? = none) {x : String} : x ∈ a.names ↔ ∃ c ∈ a.children, x ∈ c.names := by
  rw [names_node h, ← List.flatMap_def, List.mem_flatMap]

/-- a tree for every name at once; a name without one stands -/
def subst (lookup : String → Option Ast) : Ast → Ast := fold (fun x => (lookup x).getD (.name x)) withChildren

theorem subst_name (lookup : String → Option Ast) (x : String) : subst lookup (.name x) = (lookup x).getD (.name x) :=
  fold_name x

theorem subst_node (h : a.name? = none) :
    subst lookup a = a.withChildren (a.children.map (subst lookup)) := fold_node h

/-- substituting below a node substitutes in its children -/
theorem subst_iterate_node (h : a.name? = none) (n : ℕ) :
    (subst lookup)^[n] a = a.withChildren (a.children.map (subst lookup)^[n]) := by
  induction n with
  | zero =>
    rw [Function.iterate_zero, List.map_id, withChildren_children]
    rfl
  | succ n ih =>
    have hlength : (a.children.map (subst lookup)^[n]).length = a.children.length := List.length_map _
    rw [Function.iterate_succ_apply', ih, subst_node ((name?_withChildren a _).trans h), children_withChildren hlength,
      List.map_map, withChildren_withChildren hlength (List.length_map _), Function.iterate_succ']

/-- what a node makes of its operands' values does not depend on the operands themselves -/
def Uniform {β : Type} (node : Ast → List β → β) : Prop :=
  ∀ a l, l.length = a.children.length → node (a.withChildren l) = node a

/-- a fold does not see which node the children hang from -/
theorem fold_withChildren {β : Type} {name : String → β} {node : Ast → List β → β} (huniform : Uniform node)
    (h : a.name? = none) {l : List Ast} (hl : l.length = a.children.length) :
    fold name node (a.withChildren l) = node a (l.map (fold name node)) := by
  rw [fold_node ((name?_withChildren a l).trans h), huniform a l hl, children_withChildren hl]

/-- a fold depends on the names that occur -/
theorem fold_congr {β : Type} {name name' : String → β} {node : Ast → List β → β} (a : Ast)
    (h : ∀ x ∈ a.names, name x = name' x) : fold name node a = fold name' node a := by
  induction a using induct with
  | name x =>
    rw [fold_name, fold_name]
    exact h x (by simp)
  | node a ha ih =>
    rw [fold_node ha, fold_node ha]
    refine congrArg (node a) (List.map_congr_left fun c hc => ih c hc fun x hx => ?_)
    exact h x ((mem_names ha).2 ⟨c, hc, hx⟩)

end Ast

end ZenoFcis.Contract.Expr
