/-
What an admitted finite program means: every node has a truth value or a mathematical integer, computed from the
strictly earlier nodes. Evaluation agrees with the meaning as long as every result fits an `i128`, and refuses at the
first node that has no such result.
-/
import ZenoFcis.Finite.Program
import ZenoFcis.Lib.Except

namespace ZenoFcis.Finite

open Lib Lib.Except

/-- the value that a node stands for -/
inductive Denoted where
  | truth (b : Bool)
  | number (z : ℤ)
deriving DecidableEq

namespace Denoted

/-- the integer at the language boundary -/
def wire : Denoted → ℤ
  | truth b => if b then 1 else 0
  | number z => z

def boolean : Denoted → Bool
  | truth _ => true
  | number _ => false

theorem wire_inj {d e : Denoted} (h : d.boolean = e.boolean) : d.wire = e.wire ↔ d = e := by
  cases d with
  | truth b =>
    cases e with
    | truth c => cases b <;> cases c <;> simp [wire]
    | number z => cases h
  | number z =>
    cases e with
    | truth c => cases h
    | number y => simp [wire]

end Denoted

/-- the meaning of an input scalar -/
def Domain.read (d : Domain) (value : I128) : Denoted :=
  if d.boolean then .truth (decide (value.val = 1)) else .number value.val

def readings (inputs : List Domain) (input : List I128) : List Denoted := List.zipWith Domain.read inputs input

def numberAt (earlier : List Denoted) (id : UInt16) : ℤ :=
  match earlier[id.toNat]? with
  | some (.number z) => z
  | _ => 0

def truthAt (earlier : List Denoted) (id : UInt16) : Bool :=
  match earlier[id.toNat]? with
  | some (.truth b) => b
  | _ => false

def productAt (earlier : List Denoted) (f : Factors) : ℤ :=
  numberAt earlier f.first * numberAt earlier f.second * numberAt earlier f.third

namespace Op

def operands : Op → List UInt16
  | input _ | int _ | bool _ => []
  | not a => [a]
  | add a b | sub a b | eq a b | lt a b | and a b | mul a b | divFloor a b | divCeil a b => [a, b]
  | select a b c | mulDivFloor a b c | mulDivCeil a b c | signedMulDivFloor a b c => [a, b, c]
  | productsGe a b => [a.first, a.second, a.third, b.first, b.second, b.third]

/-- the mathematical result of a node over the earlier ones -/
def meaning (input earlier : List Denoted) : Op → Denoted
  | .input i => input[i.toNat]?.getD (.number 0)
  | .int v => .number v.val
  | .bool b => .truth b
  | .add a b => .number (numberAt earlier a + numberAt earlier b)
  | .sub a b => .number (numberAt earlier a - numberAt earlier b)
  | .mul a b => .number (numberAt earlier a * numberAt earlier b)
  | .eq a b => .truth (decide (earlier[a.toNat]? = earlier[b.toNat]?))
  | .lt a b => .truth (decide (numberAt earlier a < numberAt earlier b))
  | .and a b => .truth (truthAt earlier a && truthAt earlier b)
  | .not a => .truth (!truthAt earlier a)
  | .select c a b => (if truthAt earlier c then earlier[a.toNat]? else earlier[b.toNat]?).getD (.number 0)
  | .divFloor a b => .number (roundDiv false (numberAt earlier a) (numberAt earlier b))
  | .divCeil a b => .number (roundDiv true (numberAt earlier a) (numberAt earlier b))
  | .mulDivFloor a b d | .signedMulDivFloor a b d =>
    .number (roundDiv false (numberAt earlier a * numberAt earlier b) (numberAt earlier d))
  | .mulDivCeil a b d => .number (roundDiv true (numberAt earlier a * numberAt earlier b) (numberAt earlier d))
  | .productsGe a b => .truth (decide (productAt earlier b ≤ productAt earlier a))

/-- an invalid divisor or operand sign -/
def Undefined (earlier : List Denoted) : Op → Prop
  | .divFloor _ b | .divCeil _ b => numberAt earlier b = 0
  | .mulDivFloor a b d | .mulDivCeil a b d =>
    numberAt earlier a < 0 ∨ numberAt earlier b < 0 ∨ numberAt earlier d ≤ 0
  | .signedMulDivFloor _ _ d => numberAt earlier d ≤ 0
  | .productsGe a b => numberAt earlier a.first < 0 ∨ numberAt earlier a.second < 0 ∨ numberAt earlier a.third < 0 ∨
      numberAt earlier b.first < 0 ∨ numberAt earlier b.second < 0 ∨ numberAt earlier b.third < 0
  | _ => False

instance (earlier : List Denoted) (op : Op) : Decidable (op.Undefined earlier) := by
  cases op <;> unfold Undefined <;> infer_instance

/-- the node has no result that fits an `i128` -/
def Fails (input earlier : List Denoted) (op : Op) : Prop :=
  op.Undefined earlier ∨ ¬(-2 ^ 127 ≤ (op.meaning input earlier).wire ∧ (op.meaning input earlier).wire < 2 ^ 127)

end Op

/-- the meanings of the nodes in order, after the given ones -/
def meaningsFrom (input : List Denoted) : List Op → List Denoted → List Denoted
  | [], earlier => earlier
  | op :: nodes, earlier => meaningsFrom input nodes (earlier ++ [op.meaning input earlier])

def meanings (input : List Denoted) (nodes : List Op) : List Denoted := meaningsFrom input nodes []

/-! ## Operands -/

/-- the values of the nodes so far stand for their meanings, of the kinds that admission gave them -/
structure Represents (kinds : List Bool) (denoted : List Denoted) (values : List I128) : Prop where
  wires : values.map I128.val = denoted.map Denoted.wire
  kinds : kinds = denoted.map Denoted.boolean

namespace Represents

variable {kinds : List Bool} {denoted : List Denoted} {values : List I128} {id : UInt16}

section

variable (h : Represents kinds denoted values)

include h

theorem nodeKind {k : Bool} (hkind : nodeKind kinds id = .ok k) :
    ∃ v d, values[id.toNat]? = some v ∧ denoted[id.toNat]? = some d ∧ v.val = d.wire ∧ d.boolean = k := by
  unfold Finite.nodeKind at hkind
  cases hget : kinds[id.toNat]? with
  | none =>
    rw [hget] at hkind
    cases hkind
  | some k' =>
    rw [hget] at hkind
    cases hkind
    rw [h.kinds, List.getElem?_map, Option.map_eq_some_iff] at hget
    obtain ⟨d, hd, hboolean⟩ := hget
    have hwire : (values.map I128.val)[id.toNat]? = some d.wire := by
      rw [h.wires, List.getElem?_map, hd]
      rfl
    rw [List.getElem?_map, Option.map_eq_some_iff] at hwire
    obtain ⟨v, hv, hval⟩ := hwire
    exact ⟨v, d, hv, hd, hval, hboolean⟩

theorem requireNode {k : Bool} (hkind : requireNode kinds id k = .ok ()) :
    ∃ v d, values[id.toNat]? = some v ∧ denoted[id.toNat]? = some d ∧ v.val = d.wire ∧ d.boolean = k := by
  obtain ⟨k', hkind', heq⟩ := bind_eq_ok.1 hkind
  split_ifs at heq with hk
  rw [← hk]
  exact h.nodeKind hkind'

theorem number (hkind : Finite.requireNode kinds id false = .ok ()) :
    ∃ v, values[id.toNat]? = some v ∧ numberAt denoted id = v.val := by
  obtain ⟨v, d, hv, hd, hval, hboolean⟩ := h.requireNode hkind
  cases d with
  | truth b => cases hboolean
  | number z => exact ⟨v, hv, by rw [numberAt, hd, hval]; rfl⟩

theorem truth (hkind : Finite.requireNode kinds id true = .ok ()) :
    ∃ v, values[id.toNat]? = some v ∧ v.val = if truthAt denoted id then 1 else 0 := by
  obtain ⟨v, d, hv, hd, hval, hboolean⟩ := h.requireNode hkind
  cases d with
  | truth b => exact ⟨v, hv, by rw [truthAt, hd, hval]; rfl⟩
  | number z => cases hboolean

theorem snoc {d : Denoted} {v : I128} (hval : v.val = d.wire) :
    Represents (kinds ++ [d.boolean]) (denoted ++ [d]) (values ++ [v]) := by
  refine ⟨?_, ?_⟩
  · rw [List.map_append, List.map_append, h.wires, List.map_singleton, List.map_singleton, hval]
  · rw [List.map_append, h.kinds, List.map_singleton]

end

end Represents

/-! ## Nodes -/

/-- the outcome of a node with the given result, when it has one -/
def outcome (undefined : Prop) [Decidable undefined] (z : ℤ) : Except Typed.Failure (Atom Empty) :=
  Typed.checked (if undefined then none else (narrow z).map .i128)

theorem widthResult_narrow (z : ℤ) :
    (Typed.widthResult .signed128 (narrow z) : Except Typed.Failure (Atom Empty)) =
      Typed.checked ((narrow z).map .i128) := by
  cases narrow z <;> rfl

/-- a width check is the outcome of its condition -/
theorem widthResult_outcome (p : Prop) [Decidable p] (z : ℤ) :
    (Typed.widthResult .signed128 (if p then none else narrow z) : Except Typed.Failure (Atom Empty)) = outcome p z := by
  unfold outcome
  split_ifs
  · rfl
  · exact widthResult_narrow z

theorem outcome_val (v : I128) {z : ℤ} (h : v.val = z) : outcome False z = .ok (.i128 v) := by
  rw [outcome, if_neg not_false, narrow_eq_some.2 h]
  rfl

theorem outcome_boolean (b : Bool) : outcome False (Denoted.truth b).wire = .ok (Typed.boolean .legacyInteger01 b) := by
  cases b <;> exact outcome_val _ rfl

theorem get_legacy {values : List I128} {id : UInt16} {v : I128} (h : values[id.toNat]? = some v) :
    (Values.legacy values : Values Empty).get id = some (.i128 v) := by
  rw [Values.get, h]
  rfl

section Node

variable {inputs : List Domain} {input : List I128} {kinds : List Bool} {denoted : List Denoted} {values : List I128}

variable {a b c : UInt16}

theorem get2_legacy {x y : I128} (ha : values[a.toNat]? = some x) (hb : values[b.toNat]? = some y) :
    Typed.get2 (Values.legacy values : Values Empty) a b = .ok (.i128 x, .i128 y) := by
  rw [Typed.get2, get_legacy ha, get_legacy hb]

theorem get3_legacy {x y z : I128} (ha : values[a.toNat]? = some x) (hb : values[b.toNat]? = some y)
    (hc : values[c.toNat]? = some z) :
    Typed.get3 (Values.legacy values : Values Empty) a b c = .ok (.i128 x, .i128 y, .i128 z) := by
  rw [Typed.get3, get_legacy ha, get_legacy hb, get_legacy hc]

/-- a node over two integers computes on their values -/
theorem integers_node {f : Atom Empty × Atom Empty → Except Typed.Failure (Atom Empty)}
    {r : Except Typed.Failure (Atom Empty)}
    {k k' : Bool} (h : Represents kinds denoted values)
    (hkind : (requireIntegers kinds a b >>= fun _ => Except.ok k') = .ok k)
    (hf : ∀ x y : I128, numberAt denoted a = x.val → numberAt denoted b = y.val → f (.i128 x, .i128 y) = r) :
    k' = k ∧ (Typed.get2 (.legacy values) a b >>= f) = r := by
  obtain ⟨_, hab, hk⟩ := bind_eq_ok.1 hkind
  obtain ⟨_, hka, hkb⟩ := bind_eq_ok.1 hab
  obtain ⟨x, hx, hnx⟩ := h.number hka
  obtain ⟨y, hy, hny⟩ := h.number hkb
  rw [get2_legacy hx hy]
  exact ⟨Except.ok.inj hk, hf x y hnx hny⟩

theorem requireFactors_ok (h : Represents kinds denoted values)
    (hkind : requireFactors kinds a b c = .ok ()) :
    ∃ x y z, Typed.get3 (Values.legacy values : Values Empty) a b c = .ok (.i128 x, .i128 y, .i128 z) ∧
      numberAt denoted a = x.val ∧ numberAt denoted b = y.val ∧ numberAt denoted c = z.val := by
  obtain ⟨_, hka, hkbc⟩ := bind_eq_ok.1 hkind
  obtain ⟨_, hkb, hkc⟩ := bind_eq_ok.1 hkbc
  obtain ⟨x, hx, hnx⟩ := h.number hka
  obtain ⟨y, hy, hny⟩ := h.number hkb
  obtain ⟨z, hz, hnz⟩ := h.number hkc
  exact ⟨x, y, z, get3_legacy hx hy hz, hnx, hny, hnz⟩

/-- **Node step.** An admitted node has the kind that admission gave it, and its value is its meaning, refused only when
there is none that fits. -/
theorem node_spec (h : Represents kinds denoted values)
    (hinput : Represents (inputs.map Domain.boolean) (readings inputs input) input) {op : Op} {k : Bool}
    (hkind : kind op inputs kinds = .ok k) :
    (op.meaning (readings inputs input) denoted).boolean = k ∧
      Typed.node (legacyInstruction op) (.legacy input) (.legacy values) =
        outcome (op.Undefined denoted) (op.meaning (readings inputs input) denoted).wire := by
  cases op with
  | input id =>
    have hkind' : Finite.nodeKind (inputs.map Domain.boolean) id = .ok k := by
      rw [kind] at hkind
      rw [Finite.nodeKind, List.getElem?_map]
      cases hget : inputs[id.toNat]? with
      | none =>
        rw [hget] at hkind
        cases hkind
      | some d =>
        rw [hget] at hkind
        exact hkind
    obtain ⟨v, d, hv, hd, hval, hboolean⟩ := hinput.nodeKind hkind'
    have hmeaning : (Op.input id).meaning (readings inputs input) denoted = d := by rw [Op.meaning, hd]; rfl
    rw [hmeaning]
    refine ⟨hboolean, (Eq.trans ?_ (outcome_val v hval).symm)⟩
    rw [legacyInstruction, Typed.node, get_legacy hv]
    rfl
  | int v =>
    cases hkind
    exact ⟨rfl, (outcome_val v rfl).symm⟩
  | bool b =>
    cases hkind
    exact ⟨rfl, (outcome_boolean b).symm⟩
  | add a b =>
    refine integers_node h hkind fun x y hx hy => ?_
    simp only [Op.meaning, Denoted.wire, hx, hy, arithmetic, signedArithmetic, checkedAdd, Op.Undefined, outcome]
    cases narrow (x.val + y.val) <;> rfl
  | sub a b =>
    refine integers_node h hkind fun x y hx hy => ?_
    simp only [Op.meaning, Denoted.wire, hx, hy, arithmetic, signedArithmetic, checkedSub, Op.Undefined, outcome]
    cases narrow (x.val - y.val) <;> rfl
  | mul a b =>
    refine integers_node h hkind fun x y hx hy => ?_
    rw [Op.meaning, hx, hy]
    exact widthResult_outcome False _
  | divFloor a b =>
    refine integers_node h hkind fun x y hx hy => ?_
    simp only [Op.meaning, Op.Undefined, hx, hy]
    exact (congrArg _ (Scalar.divide_eq false x y)).trans (widthResult_outcome _ _)
  | divCeil a b =>
    refine integers_node h hkind fun x y hx hy => ?_
    simp only [Op.meaning, Op.Undefined, hx, hy]
    exact (congrArg _ (Scalar.divide_eq true x y)).trans (widthResult_outcome _ _)
  | lt a b =>
    refine integers_node h hkind fun x y hx hy => ?_
    rw [Op.meaning, hx, hy]
    exact (outcome_boolean _).symm
  | mulDivFloor a b d =>
    obtain ⟨_, hab, hk⟩ := bind_eq_ok.1 hkind
    obtain ⟨x, y, z, hget, hx, hy, hz⟩ := requireFactors_ok h hab
    refine ⟨Except.ok.inj hk, ?_⟩
    simp only [legacyInstruction, Typed.node, hget, ok_bind, Op.meaning, Op.Undefined, hx, hy, hz]
    exact (congrArg _ (Scalar.mulDiv_eq false x y z)).trans (widthResult_outcome _ _)
  | mulDivCeil a b d =>
    obtain ⟨_, hab, hk⟩ := bind_eq_ok.1 hkind
    obtain ⟨x, y, z, hget, hx, hy, hz⟩ := requireFactors_ok h hab
    refine ⟨Except.ok.inj hk, ?_⟩
    simp only [legacyInstruction, Typed.node, hget, ok_bind, Op.meaning, Op.Undefined, hx, hy, hz]
    exact (congrArg _ (Scalar.mulDiv_eq true x y z)).trans (widthResult_outcome _ _)
  | signedMulDivFloor a b d =>
    obtain ⟨_, hab, hk⟩ := bind_eq_ok.1 hkind
    obtain ⟨x, y, z, hget, hx, hy, hz⟩ := requireFactors_ok h hab
    refine ⟨Except.ok.inj hk, ?_⟩
    simp only [legacyInstruction, Typed.node, hget, ok_bind, Op.meaning, Op.Undefined, hx, hy, hz,
      Scalar.signedMulDivFloor_eq, outcome, Denoted.wire]
    split_ifs <;> rfl
  | productsGe a b =>
    obtain ⟨_, ha, hb⟩ := bind_eq_ok.1 hkind
    obtain ⟨_, hb, hk⟩ := bind_eq_ok.1 hb
    obtain ⟨x₁, x₂, x₃, hgetx, hx₁, hx₂, hx₃⟩ := requireFactors_ok h ha
    obtain ⟨y₁, y₂, y₃, hgety, hy₁, hy₂, hy₃⟩ := requireFactors_ok h hb
    refine ⟨Except.ok.inj hk, ?_⟩
    simp only [legacyInstruction, Typed.node, Typed.getFactors, hgetx, hgety, ok_bind, Op.meaning, Op.Undefined,
      productAt,
      hx₁, hx₂, hx₃, hy₁, hy₂, hy₃, Typed.project, Scalar.productsGe_eq, outcome]
    split_ifs with hsigns
    · rfl
    · have hboolean := outcome_boolean (decide (y₁.val * y₂.val * y₃.val ≤ x₁.val * x₂.val * x₃.val))
      rw [outcome, if_neg not_false] at hboolean
      rw [hboolean]
      rfl
  | and a b =>
    obtain ⟨_, ha, hb⟩ := bind_eq_ok.1 hkind
    obtain ⟨_, hb, hk⟩ := bind_eq_ok.1 hb
    obtain ⟨x, hx, hvx⟩ := h.truth ha
    obtain ⟨y, hy, hvy⟩ := h.truth hb
    refine ⟨Except.ok.inj hk, ?_⟩
    rw [legacyInstruction, Typed.node, get2_legacy hx hy, ok_bind, Op.meaning]
    simp only [hvx, hvy]
    refine Eq.trans ?_ (outcome_boolean _).symm
    cases truthAt denoted a <;> cases truthAt denoted b <;> rfl
  | eq a b =>
    obtain ⟨left, ha, hb⟩ := bind_eq_ok.1 hkind
    obtain ⟨right, hb, hk⟩ := bind_eq_ok.1 hb
    obtain ⟨x, d, hx, hd, hvx, hkx⟩ := h.nodeKind ha
    obtain ⟨y, e, hy, he, hvy, hky⟩ := h.nodeKind hb
    split_ifs at hk with hlr
    refine ⟨Except.ok.inj hk, ?_⟩
    rw [legacyInstruction, Typed.node, get2_legacy hx hy, ok_bind, Op.meaning, hd, he]
    refine Eq.trans ?_ (outcome_boolean _).symm
    have hiff : x = y ↔ some d = some e := by
      rw [← val_inj, hvx, hvy, Denoted.wire_inj (hkx.trans (hlr.trans hky.symm)), Option.some_inj]
    simp only [hiff]
  | not a =>
    obtain ⟨_, ha, hk⟩ := bind_eq_ok.1 hkind
    obtain ⟨x, hx, hvx⟩ := h.truth ha
    refine ⟨Except.ok.inj hk, ?_⟩
    rw [legacyInstruction, Typed.node, get_legacy hx, Op.meaning]
    simp only [hvx]
    refine Eq.trans ?_ (outcome_boolean _).symm
    cases truthAt denoted a <;> rfl
  | select c a b =>
    obtain ⟨_, hc, hab⟩ := bind_eq_ok.1 hkind
    obtain ⟨yes, ha, hb⟩ := bind_eq_ok.1 hab
    obtain ⟨no, hb, hk⟩ := bind_eq_ok.1 hb
    obtain ⟨w, hw, hvw⟩ := h.truth hc
    obtain ⟨x, d, hx, hd, hvx, hkx⟩ := h.nodeKind ha
    obtain ⟨y, e, hy, he, hvy, hky⟩ := h.nodeKind hb
    split_ifs at hk with hlr
    have hk := Except.ok.inj hk
    rw [legacyInstruction, Typed.node, get3_legacy hw hx hy, ok_bind, Op.meaning, hd, he]
    cases htruth : truthAt denoted c with
    | false =>
      rw [htruth] at hvw
      refine ⟨hky.trans (hlr.symm.trans hk), Eq.trans ?_ (outcome_val y hvy).symm⟩
      simp only [if_neg (show ¬w.val = 1 by rw [hvw]; decide)]
    | true =>
      rw [htruth] at hvw
      refine ⟨hkx.trans hk, Eq.trans ?_ (outcome_val x hvx).symm⟩
      simp only [if_pos (show w.val = 1 by rw [hvw]; rfl)]

end Node

/-! ## Runs -/

section Run

variable {inputs : List Domain} {input : List I128}

theorem meaningsFrom_take (input : List Denoted) (nodes : List Op) (earlier : List Denoted) :
    (meaningsFrom input nodes earlier).take earlier.length = earlier := by
  induction nodes generalizing earlier with
  | nil => exact List.take_length
  | cons op nodes ih =>
    have h := congrArg (List.take earlier.length) (ih (earlier ++ [op.meaning input earlier]))
    rw [List.take_take, List.length_append, Nat.min_eq_left (Nat.le_add_right _ _), List.take_left] at h
    exact h

/-- the node at position `i` fails over the meanings before it -/
def FailsAt (input : List Denoted) (nodes : List Op) (earlier : List Denoted) (i : ℕ) : Prop :=
  ∃ op, nodes[i]? = some op ∧ op.Fails input ((meaningsFrom input nodes earlier).take (earlier.length + i))

variable {op : Op} {nodes : List Op} {k : Bool} {kinds₀ previous : List Bool}

theorem kindsLoop_cons {kinds : List Bool} (h : kindsLoop inputs (op :: nodes) kinds₀ = .ok kinds) :
    ∃ k, kind op inputs kinds₀ = .ok k ∧ kindsLoop inputs nodes (kinds₀ ++ [k]) = .ok kinds := by
  rw [kindsLoop] at h
  cases hkind : kind op inputs kinds₀ with
  | error e =>
    rw [hkind] at h
    cases h
  | ok k =>
    rw [hkind] at h
    exact ⟨k, rfl, h⟩

theorem failsAt_zero {input : List Denoted} {earlier : List Denoted} :
    FailsAt input (op :: nodes) earlier 0 ↔ op.Fails input earlier := by
  have htake := meaningsFrom_take input (op :: nodes) earlier
  unfold FailsAt
  rw [Nat.add_zero, htake]
  exact ⟨fun ⟨_, h, hfails⟩ => Option.some.inj h ▸ hfails, fun h => ⟨op, rfl, h⟩⟩

theorem failsAt_succ {input : List Denoted} {earlier : List Denoted} {i : ℕ} :
    FailsAt input (op :: nodes) earlier (i + 1) ↔ FailsAt input nodes (earlier ++ [op.meaning input earlier]) i := by
  unfold FailsAt
  rw [meaningsFrom, List.length_append, List.length_singleton, List.getElem?_cons_succ, Nat.add_right_comm,
    Nat.add_assoc]

theorem outcome_ok {undefined : Prop} [Decidable undefined] {z : ℤ} (h : ¬undefined) (hlo : -2 ^ 127 ≤ z)
    (hhi : z < 2 ^ 127) : outcome undefined z = .ok (.i128 ⟨z, hlo, hhi⟩) := by
  rw [outcome, if_neg h, narrow_eq_some.2 (show (I128.mk z hlo hhi).val = z from rfl)]
  rfl

theorem outcome_error {undefined : Prop} [Decidable undefined] {z : ℤ}
    (h : undefined ∨ ¬(-2 ^ 127 ≤ z ∧ z < 2 ^ 127)) : outcome undefined z = .error .arithmetic := by
  unfold outcome
  by_cases hundefined : undefined
  · rw [if_pos hundefined]
    rfl
  · rw [if_neg hundefined, narrow_eq_none.2 (h.resolve_left hundefined)]
    rfl

theorem evaluateNode_spec {kinds : List Bool} {denoted : List Denoted} {values : List I128}
    (h : Represents kinds denoted values)
    (hinput : Represents (inputs.map Domain.boolean) (readings inputs input) input)
    (hkind : kind op inputs kinds = .ok k) :
    (op.Fails (readings inputs input) denoted ∧ evaluateNode op input values = .error .arithmetic) ∨
      (¬op.Fails (readings inputs input) denoted ∧ ∃ v, evaluateNode op input values = .ok v ∧
        Represents (kinds ++ [k]) (denoted ++ [op.meaning (readings inputs input) denoted]) (values ++ [v])) := by
  obtain ⟨hboolean, hnode⟩ := node_spec h hinput hkind
  unfold evaluateNode
  rw [hnode]
  by_cases hfails : op.Fails (readings inputs input) denoted
  · rw [outcome_error hfails]
    exact .inl ⟨hfails, rfl⟩
  · have hfit := not_or.1 hfails
    obtain ⟨hlo, hhi⟩ := not_not.1 hfit.2
    rw [outcome_ok hfit.1 hlo hhi]
    exact .inr ⟨hfails, _, rfl, hboolean ▸ h.snoc rfl⟩

/-- **Run.** The nodes evaluate to their meanings, or the evaluation stops by arithmetic at a node that fails. -/
theorem evaluateNodesLoop_spec {kinds : List Bool} {denoted : List Denoted}
    {values₀ : List I128} (h : Represents kinds₀ denoted values₀)
    (hinput : Represents (inputs.map Domain.boolean) (readings inputs input) input)
    (hkinds : kindsLoop inputs nodes kinds₀ = .ok kinds) :
    ((∃ i, FailsAt (readings inputs input) nodes denoted i) ∧
      ∃ values, evaluateNodesLoop input nodes values₀ = (.error .arithmetic, values)) ∨
    ((¬∃ i, FailsAt (readings inputs input) nodes denoted i) ∧
      ∃ values, evaluateNodesLoop input nodes values₀ = (.ok (), values) ∧
        Represents kinds (meaningsFrom (readings inputs input) nodes denoted) values) := by
  induction nodes generalizing kinds₀ denoted values₀ with
  | nil =>
    cases hkinds
    exact .inr ⟨fun ⟨_, _, hop, _⟩ => by simp at hop, values₀, rfl, h⟩
  | cons op nodes ih =>
    obtain ⟨k, hkind, hkinds⟩ := kindsLoop_cons hkinds
    rcases evaluateNode_spec h hinput hkind with ⟨hfails, hnode⟩ | ⟨hfits, v, hnode, hnext⟩
    · refine .inl ⟨⟨0, failsAt_zero.2 hfails⟩, values₀, ?_⟩
      rw [evaluateNodesLoop, hnode]
    · rw [evaluateNodesLoop, hnode]
      rcases ih hnext hkinds with ⟨⟨i, hi⟩, hrun⟩ | ⟨hnone, hrun⟩
      · exact .inl ⟨⟨i + 1, failsAt_succ.2 hi⟩, hrun⟩
      · refine .inr ⟨?_, hrun⟩
        rintro ⟨i, hi⟩
        cases i with
        | zero => exact hfits (failsAt_zero.1 hi)
        | succ i => exact hnone ⟨i, failsAt_succ.1 hi⟩

theorem kindsLoop_take {kinds : List Bool} (h : kindsLoop inputs nodes kinds₀ = .ok kinds)
    (i : ℕ) : kindsLoop inputs (nodes.take i) kinds₀ = .ok (kinds.take (kinds₀.length + i)) := by
  induction nodes generalizing kinds₀ i with
  | nil =>
    cases h
    rw [List.take_nil, List.take_of_length_le (Nat.le_add_right _ _)]
    rfl
  | cons op nodes ih =>
    obtain ⟨k, hkind, h⟩ := kindsLoop_cons h
    cases i with
    | zero =>
      have hprefix := ih h 0
      rw [List.take_zero] at hprefix
      have htake := congrArg (List.take kinds₀.length) (Except.ok.inj hprefix)
      rw [List.take_left, List.take_take, List.length_append, Nat.min_eq_left (by omega)] at htake
      rw [List.take_zero, Nat.add_zero, ← htake]
      rfl
    | succ i =>
      have hprefix := ih h i
      rw [List.length_append, List.length_singleton, Nat.add_right_comm, Nat.add_assoc] at hprefix
      rw [List.take_succ_cons, kindsLoop, hkind]
      exact hprefix

theorem kindsLoop_length {kinds : List Bool} (h : kindsLoop inputs nodes kinds₀ = .ok kinds) :
    kinds.length = kinds₀.length + nodes.length := by
  induction nodes generalizing kinds₀ with
  | nil =>
    cases h
    rfl
  | cons op nodes ih =>
    obtain ⟨k, hkind, h⟩ := kindsLoop_cons h
    rw [ih h, List.length_append, List.length_singleton, List.length_cons]
    omega

/-- the kind of the node at position `i`, over the kinds before it -/
theorem kindsLoop_get {kinds : List Bool} (h : kindsLoop inputs nodes kinds₀ = .ok kinds)
    {i : ℕ} (hop : nodes[i]? = some op) : ∃ k, kind op inputs (kinds.take (kinds₀.length + i)) = .ok k := by
  induction nodes generalizing kinds₀ i with
  | nil => cases hop
  | cons first nodes ih =>
    have htake := kindsLoop_take h 0
    obtain ⟨k, hkind, h⟩ := kindsLoop_cons h
    cases i with
    | zero =>
      cases hop
      rw [List.take_zero] at htake
      rw [← Except.ok.inj htake]
      exact ⟨k, hkind⟩
    | succ i =>
      have hnext := ih h hop
      rwa [List.length_append, List.length_singleton, Nat.add_right_comm, Nat.add_assoc] at hnext

theorem nodeKind_lt {id : UInt16} (h : nodeKind previous id = .ok k) :
    id.toNat < previous.length := by
  unfold nodeKind at h
  cases hget : previous[id.toNat]? with
  | none =>
    rw [hget] at h
    cases h
  | some k' => exact (List.getElem?_eq_some_iff.1 hget).1

theorem requireNode_lt {id : UInt16} (h : requireNode previous id k = .ok ()) :
    id.toNat < previous.length := by
  obtain ⟨_, hkind, _⟩ := bind_eq_ok.1 h
  exact nodeKind_lt hkind

theorem operands_lt (h : kind op inputs previous = .ok k) :
    ∀ a ∈ op.operands, a.toNat < previous.length := by
  cases op with
  | input | int | bool => exact fun a ha => absurd ha List.not_mem_nil
  | add a b | sub a b | mul a b | divFloor a b | divCeil a b | lt a b =>
    obtain ⟨_, hab, _⟩ := bind_eq_ok.1 h
    obtain ⟨_, ha, hb⟩ := bind_eq_ok.1 hab
    simpa [Op.operands] using ⟨requireNode_lt ha, requireNode_lt hb⟩
  | and a b =>
    obtain ⟨_, ha, hb⟩ := bind_eq_ok.1 h
    obtain ⟨_, hb, _⟩ := bind_eq_ok.1 hb
    simpa [Op.operands] using ⟨requireNode_lt ha, requireNode_lt hb⟩
  | eq a b =>
    obtain ⟨_, ha, hb⟩ := bind_eq_ok.1 h
    obtain ⟨_, hb, _⟩ := bind_eq_ok.1 hb
    simpa [Op.operands] using ⟨nodeKind_lt ha, nodeKind_lt hb⟩
  | not a =>
    obtain ⟨_, ha, _⟩ := bind_eq_ok.1 h
    simpa [Op.operands] using requireNode_lt ha
  | select c a b =>
    obtain ⟨_, hc, hab⟩ := bind_eq_ok.1 h
    obtain ⟨_, ha, hb⟩ := bind_eq_ok.1 hab
    obtain ⟨_, hb, _⟩ := bind_eq_ok.1 hb
    simpa [Op.operands] using ⟨requireNode_lt hc, nodeKind_lt ha, nodeKind_lt hb⟩
  | mulDivFloor a b d | mulDivCeil a b d | signedMulDivFloor a b d =>
    obtain ⟨_, habd, _⟩ := bind_eq_ok.1 h
    obtain ⟨_, ha, hbd⟩ := bind_eq_ok.1 habd
    obtain ⟨_, hb, hd⟩ := bind_eq_ok.1 hbd
    simpa [Op.operands] using ⟨requireNode_lt ha, requireNode_lt hb, requireNode_lt hd⟩
  | productsGe a b =>
    obtain ⟨_, ha, hb⟩ := bind_eq_ok.1 h
    obtain ⟨_, hb, _⟩ := bind_eq_ok.1 hb
    obtain ⟨_, ha₁, ha⟩ := bind_eq_ok.1 ha
    obtain ⟨_, ha₂, ha₃⟩ := bind_eq_ok.1 ha
    obtain ⟨_, hb₁, hb⟩ := bind_eq_ok.1 hb
    obtain ⟨_, hb₂, hb₃⟩ := bind_eq_ok.1 hb
    simpa [Op.operands] using ⟨requireNode_lt ha₁, requireNode_lt ha₂, requireNode_lt ha₃, requireNode_lt hb₁,
      requireNode_lt hb₂, requireNode_lt hb₃⟩

theorem represents_input {inputs : List Domain} {input : List I128} (h : admitted inputs input = true) :
    Represents (inputs.map Domain.boolean) (readings inputs input) input := by
  rw [admitted, Bool.and_eq_true, decide_eq_true_eq] at h
  obtain ⟨hlen, hall⟩ := h
  unfold readings
  induction inputs generalizing input with
  | nil =>
    obtain rfl := List.length_eq_zero_iff.1 hlen.symm
    exact ⟨rfl, rfl⟩
  | cons d inputs ih =>
    cases input with
    | nil => cases hlen
    | cons v input =>
      rw [List.zipWith_cons_cons, List.all_cons, Bool.and_eq_true] at hall
      have htail := ih (Nat.succ.inj hlen) hall.2
      have hread : v.val = (d.read v).wire ∧ d.boolean = (d.read v).boolean := by
        cases d with
        | int min max => exact ⟨rfl, rfl⟩
        | bool =>
          have hcontains : 0 ≤ v.val ∧ v.val ≤ 1 := by
            have hbool : Domain.bool.contains v = true := hall.1
            rw [Domain.contains, Bool.and_eq_true] at hbool
            exact ⟨of_decide_eq_true hbool.1, of_decide_eq_true hbool.2⟩
          refine ⟨?_, rfl⟩
          by_cases hone : v.val = 1
          · simp [Domain.read, Domain.boolean, Denoted.wire, hone]
          · have hzero : v.val = 0 := by omega
            simp [Domain.read, Domain.boolean, Denoted.wire, hzero]
      refine ⟨?_, ?_⟩
      · rw [List.zipWith_cons_cons, List.map_cons, List.map_cons, htail.wires, hread.1]
      · rw [List.zipWith_cons_cons, List.map_cons, List.map_cons, htail.kinds, hread.2]

theorem projectLoop_spec {outputs : List Domain} {roots : List UInt16} {kinds : List Bool} {denoted : List Denoted}
    {values output : List I128} (h : Represents kinds denoted values) (hlen : outputs.length = roots.length)
    (hroots : validateRoots outputs roots kinds = .ok ()) :
    ∃ tail, projectLoop values roots output = (.ok (), output ++ tail) ∧
      tail.map (fun v => some v.val) = roots.map fun root => denoted[root.toNat]?.map Denoted.wire := by
  induction outputs generalizing roots output with
  | nil =>
    obtain rfl := List.length_eq_zero_iff.1 hlen.symm
    exact ⟨[], by rw [projectLoop, List.append_nil], rfl⟩
  | cons d outputs ih =>
    cases roots with
    | nil => cases hlen
    | cons root roots =>
      rw [validateRoots] at hroots
      split_ifs at hroots with hroot
      have hkind : nodeKind kinds root = .ok d.boolean := by rw [nodeKind, hroot]
      obtain ⟨v, m, hv, hm, hval, _⟩ := h.nodeKind hkind
      obtain ⟨tail, hrun, htail⟩ := @ih roots (output ++ [v]) (Nat.succ.inj hlen) hroots
      refine ⟨v :: tail, ?_, ?_⟩
      · rw [projectLoop, hv]
        simpa using hrun
      · rw [List.map_cons, List.map_cons, htail, hm, hval]
        rfl

end Run

/-! ## Programs -/

namespace Program

theorem exists_kinds (program : Program) : ∃ kinds, kindsLoop program.inputs program.nodes [] = .ok kinds ∧
    program.outputs.length = program.roots.length ∧ validateRoots program.outputs program.roots kinds = .ok () := by
  have hgraph : program.outputs.length = program.roots.length ∧
      validateGraph program.inputs program.outputs program.nodes program.roots = .ok () := by
    rcases program.validated with h | h
    · obtain ⟨_, hshape, hgraph⟩ := bind_eq_ok.1 h
      unfold validateShape at hshape
      split_ifs at hshape with hbad
      exact ⟨by tauto, hgraph⟩
    · obtain ⟨_, hshape, hgraph⟩ := bind_eq_ok.1 h
      unfold validateExtendedShape at hshape
      split_ifs at hshape with hbad
      exact ⟨by tauto, hgraph⟩
  obtain ⟨kinds, hkinds, hroots⟩ := bind_eq_ok.1 hgraph.2
  exact ⟨kinds, hkinds, hgraph.1, hroots⟩

theorem tryNew_eq_ok {inputs outputs : List Domain} {nodes : List Op} {roots : List UInt16} {program : Program}
    (h : tryNew inputs outputs nodes roots = .ok program ∨ tryNewExtended inputs outputs nodes roots = .ok program) :
    program.inputs = inputs ∧ program.outputs = outputs ∧ program.nodes = nodes ∧ program.roots = roots := by
  rcases h with h | h
  · unfold tryNew at h
    split at h <;> cases h
    exact ⟨rfl, rfl, rfl, rfl⟩
  · unfold tryNewExtended at h
    split at h <;> cases h
    exact ⟨rfl, rfl, rfl, rfl⟩

variable (program : Program) (input : List I128)

/-- the meaning of the graph on an input tuple -/
def denote : List Denoted := meanings (readings program.inputs input) program.nodes

/-- some node has no result that fits, dead nodes and unselected branches included -/
def NodeFails : Prop :=
  ∃ (i : ℕ) (op : Op), program.nodes[i]? = some op ∧ op.Fails (readings program.inputs input)
    ((program.denote input).take i)

/-- some root value lies outside its output domain -/
def RootOutside : Prop :=
  ∃ (i : ℕ) (root : UInt16) (d : Domain) (m : Denoted), program.roots[i]? = some root ∧ program.outputs[i]? = some d ∧
    (program.denote input)[root.toNat]? = some m ∧ ¬(d.bounds.1.val ≤ m.wire ∧ m.wire ≤ d.bounds.2.val)

variable {program input}

theorem admitted_outputs {output : List I128} (hlen : program.outputs.length = program.roots.length)
    (houtput : output.map (fun v => some v.val) =
      program.roots.map fun root => (program.denote input)[root.toNat]?.map Denoted.wire) :
    admitted program.outputs output = true ↔ ¬program.RootOutside input := by
  have hlen' : output.length = program.roots.length := by
    simpa using congrArg List.length houtput
  have hget (i : ℕ) : (output[i]?).map (fun v => some v.val) =
      (program.roots[i]?).map fun root => (program.denote input)[root.toNat]?.map Denoted.wire := by
    rw [← List.getElem?_map, ← List.getElem?_map, houtput]
  rw [admitted, Bool.and_eq_true, decide_eq_true_eq, List.all_eq_true]
  constructor
  · rintro ⟨_, hall⟩ ⟨i, root, d, m, hroot, hd, hm, hout⟩
    have hi := hget i
    rw [hroot, Option.map_some, hm, Option.map_some, Option.map_eq_some_iff] at hi
    obtain ⟨v, hv, hval⟩ := hi
    have hmem : d.contains v ∈ List.zipWith Domain.contains program.outputs output := by
      refine List.mem_of_getElem? (i := i) ?_
      rw [List.getElem?_zipWith, hd, hv]
    have hcontains := hall _ hmem
    simp only [id, Domain.contains, Bool.and_eq_true, decide_eq_true_eq] at hcontains
    rw [← Option.some.inj hval] at hout
    exact hout hcontains
  · intro hinside
    refine ⟨hlen.trans hlen'.symm, fun b hb => ?_⟩
    obtain ⟨i, hi⟩ := List.getElem?_of_mem hb
    rw [List.getElem?_zipWith] at hi
    cases hd : program.outputs[i]? with
    | none => simp [hd] at hi
    | some d =>
      cases hv : output[i]? with
      | none => simp [hd, hv] at hi
      | some v =>
        simp only [hd, hv, Option.some.injEq] at hi
        have hroot := hget i
        rw [hv, Option.map_some, eq_comm, Option.map_eq_some_iff] at hroot
        obtain ⟨root, hroot, hm⟩ := hroot
        rw [Option.map_eq_some_iff] at hm
        obtain ⟨m, hm, hval⟩ := hm
        by_contra hb'
        refine hinside ⟨i, root, d, m, hroot, hd, hm, fun hbounds => hb' ?_⟩
        rw [hval] at hbounds
        rw [← hi]
        simp only [id, Domain.contains, Bool.and_eq_true, decide_eq_true_eq]
        exact hbounds

/-- **Evaluation.** It fails at a node, or at a root outside its domain, or gives what the program denotes. -/
theorem evaluateInto_spec (hin : admitted program.inputs input = true) (buffers : Buffers) :
    (program.NodeFails input ∧ program.evaluateInto input buffers = (.error .arithmetic, .empty)) ∨
    (¬program.NodeFails input ∧ program.RootOutside input ∧
      program.evaluateInto input buffers = (.error (.invalid "output-domain"), .empty)) ∨
    (¬program.NodeFails input ∧ ¬program.RootOutside input ∧ ∃ values output,
      program.evaluateInto input buffers = (.ok (), ⟨values, output⟩) ∧
      admitted program.outputs output = true ∧ values.map I128.val = (program.denote input).map Denoted.wire ∧
      output.map (fun v => some v.val) =
        program.roots.map fun root => (program.denote input)[root.toNat]?.map Denoted.wire) := by
  obtain ⟨kinds, hkinds, hlen, hroots⟩ := program.exists_kinds
  have hempty : Represents [] [] [] := ⟨rfl, rfl⟩
  have hfails : program.NodeFails input ↔
      ∃ i, FailsAt (readings program.inputs input) program.nodes [] i := by
    unfold NodeFails FailsAt denote meanings
    simp only [List.length_nil, Nat.zero_add]
  unfold Program.evaluateInto Finite.evaluateInto evaluateNodes
  rw [if_pos hin]
  rcases evaluateNodesLoop_spec hempty (represents_input hin) hkinds with ⟨hfail, values, hrun⟩ | ⟨hnone, values, hrun,
    hrep⟩
  · rw [hrun]
    exact .inl ⟨hfails.2 hfail, rfl⟩
  · obtain ⟨output, hproject, houtput⟩ := @projectLoop_spec _ _ _ _ _ [] hrep hlen hroots
    rw [List.nil_append] at hproject
    have hiff := admitted_outputs hlen houtput
    rw [hrun]
    simp only [hproject]
    by_cases hadmitted : admitted program.outputs output = true
    · rw [if_pos hadmitted]
      exact .inr (.inr ⟨mt hfails.1 hnone, hiff.1 hadmitted, values, output, rfl, hadmitted, hrep.wires, houtput⟩)
    · rw [if_neg hadmitted]
      exact .inr (.inl ⟨mt hfails.1 hnone, not_not.1 (mt hiff.2 hadmitted), rfl⟩)

end Program

/-- **Admitted programs.** On an admitted input tuple a program fails only by arithmetic or by its output domain: every
node sees strictly earlier nodes, no reference or kind fails, Boolean nodes are 0 or 1, the outcome is decided by the
mathematical meaning of the whole graph, and a failure leaves both buffers empty. -/
theorem admitted_program {inputs outputs : List Domain} {nodes : List Op} {roots : List UInt16} {program : Program}
    (h : Program.tryNew inputs outputs nodes roots = .ok program ∨
      Program.tryNewExtended inputs outputs nodes roots = .ok program)
    {input : List I128} (hin : admitted inputs input = true) (buffers : Buffers) :
    (∀ (i : ℕ) (op : Op), nodes[i]? = some op → ∀ a ∈ op.operands, a.toNat < i) ∧
    (∃ kinds, kindsLoop inputs nodes [] = .ok kinds ∧
      ∀ i values, evaluateNodesLoop input (nodes.take i) [] = (.ok (), values) →
        (∀ (j : ℕ) (v : I128), kinds[j]? = some true → values[j]? = some v → v.val = 0 ∨ v.val = 1) ∧
        ∀ op, nodes[i]? = some op →
          Typed.node (legacyInstruction op) (.legacy input) (.legacy values) ≠ .error .reference ∧
          Typed.node (legacyInstruction op) (.legacy input) (.legacy values) ≠ .error .kind) ∧
    ((program.evaluateInto input buffers).1 = .error .arithmetic ↔ program.NodeFails input) ∧
    ((program.evaluateInto input buffers).1 = .error (.invalid "output-domain") ↔
      ¬program.NodeFails input ∧ program.RootOutside input) ∧
    ((program.evaluateInto input buffers).1 = .ok () ↔ ¬program.NodeFails input ∧ ¬program.RootOutside input) ∧
    ((program.evaluateInto input buffers).1 = .ok () →
      (program.evaluateInto input buffers).2.output.length = outputs.length ∧
      admitted outputs (program.evaluateInto input buffers).2.output = true ∧
      (program.evaluateInto input buffers).2.output.map (fun v => some v.val) =
        roots.map fun root => (program.denote input)[root.toNat]?.map Denoted.wire) ∧
    ((program.evaluateInto input buffers).1 ≠ .ok () → (program.evaluateInto input buffers).2 = .empty) := by
  obtain ⟨rfl, rfl, rfl, rfl⟩ := Program.tryNew_eq_ok h
  obtain ⟨kinds, hkinds, hlen, hroots⟩ := program.exists_kinds
  have hkindLen : kinds.length = program.nodes.length := by simpa using kindsLoop_length hkinds
  refine ⟨?_, ⟨kinds, hkinds, ?_⟩, ?_⟩
  · intro i op hop a ha
    obtain ⟨k, hk⟩ := kindsLoop_get hkinds hop
    have hlt := operands_lt hk a ha
    rw [List.length_nil, Nat.zero_add, List.length_take] at hlt
    omega
  · intro i values hrun
    have htake := kindsLoop_take hkinds i
    rw [List.length_nil, Nat.zero_add] at htake
    have hempty : Represents [] [] [] := ⟨rfl, rfl⟩
    rcases evaluateNodesLoop_spec hempty (represents_input hin) htake with ⟨_, _, hbad⟩ | ⟨_, values', hgood, hrep⟩
    · rw [hrun] at hbad
      cases hbad
    rw [hrun] at hgood
    obtain rfl := (Prod.mk.inj hgood).2
    refine ⟨fun j v hj hv => ?_, fun op hop => ?_⟩
    · have hwire : (values.map I128.val)[j]? = some v.val := by rw [List.getElem?_map, hv]; rfl
      rw [hrep.wires, List.getElem?_map, Option.map_eq_some_iff] at hwire
      obtain ⟨m, hm, hval⟩ := hwire
      have hkind : (kinds.take i)[j]? = some m.boolean := by rw [hrep.kinds, List.getElem?_map, hm]; rfl
      rw [List.getElem?_take] at hkind
      split_ifs at hkind with hji
      rw [hj] at hkind
      cases m with
      | number z => cases hkind
      | truth b => cases b <;> simp [Denoted.wire] at hval <;> omega
    · obtain ⟨k, hk⟩ := kindsLoop_get hkinds hop
      rw [List.length_nil, Nat.zero_add] at hk
      rw [(node_spec hrep (represents_input hin) hk).2]
      unfold outcome Typed.checked
      split <;> exact ⟨nofun, nofun⟩
  · rcases Program.evaluateInto_spec hin buffers with ⟨hfail, hrun⟩ | ⟨hnode, hroot, hrun⟩ |
      ⟨hnode, hroot, values, output, hrun, hadmitted, _, houtput⟩
    · rw [hrun]
      simp [hfail]
    · rw [hrun]
      simp [hnode, hroot]
    · rw [hrun]
      have hlength : output.length = program.outputs.length := by
        rw [hlen]
        simpa using congrArg List.length houtput
      simp [hnode, hroot, hadmitted, houtput, hlength]

/-- the program `x + 3` on the integers from 0 to 10 -/
def addThree : Program where
  inputs := [.int ⟨0, I128.lo_zero, I128.hi_zero⟩ ⟨10, by norm_num, by norm_num⟩]
  outputs := [.int ⟨0, I128.lo_zero, I128.hi_zero⟩ ⟨12, by norm_num, by norm_num⟩]
  nodes := [.input 0, .int ⟨3, by norm_num, by norm_num⟩, .add 0 1]
  roots := [2]
  validated := .inl rfl

theorem nine_lo : (-2 ^ 127 : ℤ) ≤ 9 := by norm_num

theorem nine_hi : (9 : ℤ) < 2 ^ 127 := by norm_num

theorem admitted_program_addThree :
    (addThree.evaluateInto [⟨9, nine_lo, nine_hi⟩] .empty).1 = .ok () ↔
      ¬addThree.NodeFails [⟨9, nine_lo, nine_hi⟩] ∧ ¬addThree.RootOutside [⟨9, nine_lo, nine_hi⟩] :=
  (admitted_program (.inl (show Program.tryNew addThree.inputs addThree.outputs addThree.nodes addThree.roots =
    .ok addThree from rfl)) rfl .empty).2.2.2.2.1

end ZenoFcis.Finite
