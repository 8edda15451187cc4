/-
The scaled arithmetic of the finite profile, operator by operator: `DivFloor`, `DivCeil`, `MulDivFloor`, `MulDivCeil`,
`SignedMulDivFloor` and `ProductsGe` over the values of earlier nodes.

An operator refuses exactly when its signs or its divisor are not admitted, or when the exact rounded quotient does not
fit an `i128`; `ProductsGe` compares whole products, so that it orders the admitted triples totally.
-/
import ZenoFcis.Finite.Meaning

namespace ZenoFcis.Finite

/-- the result is the exact integer `z` when the operands are admitted and it fits an `i128`, and arithmetic refuses in
every other case -/
structure Exact (result : Except Failure I128) (admitted : Prop) (z : ℤ) : Prop where
  ok (q : I128) : result = .ok q ↔ admitted ∧ q.val = z
  refused : result = .error .arithmetic ↔ ¬(admitted ∧ -2 ^ 127 ≤ z ∧ z < 2 ^ 127)

theorem exact_of_checked {op : Op} {input values : List I128} {admitted : Prop} [Decidable admitted] {z : ℤ}
    (h : Typed.node (legacyInstruction op) (.legacy input) (.legacy values) =
      Typed.checked (if admitted then (narrow z).map .i128 else none)) :
    Exact (evaluateNode op input values) admitted z := by
  unfold evaluateNode
  rw [h]
  by_cases hadmitted : admitted
  · rw [if_pos hadmitted]
    cases hz : narrow z with
    | none =>
      have hwide := narrow_eq_none.1 hz
      refine ⟨fun q => iff_of_false nofun fun hq => hwide ⟨hq.2 ▸ q.lo, hq.2 ▸ q.hi⟩, iff_of_true rfl fun hq => hwide hq.2⟩
    | some v =>
      have hv := narrow_eq_some.1 hz
      refine ⟨fun q => ?_, iff_of_false nofun (not_not.2 ⟨hadmitted, hv ▸ v.lo, hv ▸ v.hi⟩)⟩
      change Except.ok v = Except.ok q ↔ _
      rw [Except.ok.injEq, ← val_inj, hv, eq_comm]
      exact (and_iff_right hadmitted).symm
  · rw [if_neg hadmitted]
    exact ⟨fun q => iff_of_false nofun fun hq => hadmitted hq.1, iff_of_true rfl fun hq => hadmitted hq.1⟩

theorem ite_narrow (p : Prop) [Decidable p] (z : ℤ) :
    ((if p then none else narrow z).map Atom.i128 : Option (Atom Empty)) = if ¬p then (narrow z).map .i128 else none := by
  by_cases hp : p
  · rw [if_pos hp, if_neg (not_not.2 hp)]
    rfl
  · rw [if_neg hp, if_pos hp]

theorem widthResult_ite (p : Prop) [Decidable p] (z : ℤ) :
    (Typed.widthResult .signed128 (if p then none else narrow z) : Except Typed.Failure (Atom Empty)) =
      Typed.checked (if ¬p then (narrow z).map .i128 else none) := by
  rw [widthResult_outcome, outcome]
  by_cases hp : p
  · rw [if_pos hp, if_neg (not_not.2 hp)]
  · rw [if_neg hp, if_pos hp]

section Operators

variable {values : List I128} {i j k : UInt16} {a b d : I128}

theorem node_div (up : Bool) (input : List I128) (ha : values[i.toNat]? = some a) (hb : values[j.toNat]? = some b) :
    Typed.node (.scalarDiv .signed128 up i j) (.legacy input) (Values.legacy values : Values Empty) =
      Typed.checked (if ¬b.val = 0 then (narrow (roundDiv up a.val b.val)).map .i128 else none) := by
  rw [← widthResult_ite, ← Scalar.divide_eq]
  simp only [Typed.node, get2_legacy ha hb]
  rfl

theorem node_mulDiv (up : Bool) (input : List I128) (ha : values[i.toNat]? = some a) (hb : values[j.toNat]? = some b)
    (hd : values[k.toNat]? = some d) :
    Typed.node (.scalarMulDiv .signed128 up i j k) (.legacy input) (Values.legacy values : Values Empty) =
      Typed.checked (if ¬(a.val < 0 ∨ b.val < 0 ∨ d.val ≤ 0) then
        (narrow (roundDiv up (a.val * b.val) d.val)).map .i128 else none) := by
  rw [← widthResult_ite, ← Scalar.mulDiv_eq]
  simp only [Typed.node, get3_legacy ha hb hd]
  rfl

theorem node_signedMulDivFloor (input : List I128) (ha : values[i.toNat]? = some a) (hb : values[j.toNat]? = some b)
    (hd : values[k.toNat]? = some d) :
    Typed.node (.signedMulDivFloor i j k) (.legacy input) (Values.legacy values : Values Empty) =
      Typed.checked (if ¬d.val ≤ 0 then (narrow (roundDiv false (a.val * b.val) d.val)).map .i128 else none) := by
  rw [← ite_narrow, ← Scalar.signedMulDivFloor_eq]
  simp only [Typed.node, get3_legacy ha hb hd]
  rfl

end Operators

/-! ## Triples -/

/-- three factors that `ProductsGe` admits -/
structure Triple where
  first : I128
  second : I128
  third : I128
  first_nonneg : 0 ≤ first.val
  second_nonneg : 0 ≤ second.val
  third_nonneg : 0 ≤ third.val

namespace Triple

def product (t : Triple) : ℤ := t.first.val * t.second.val * t.third.val

/-- the comparison of the source -/
def ge (s t : Triple) : Prop := Scalar.productsGe s.first s.second s.third t.first t.second t.third = some true

theorem productsGe_eq (s t : Triple) :
    Scalar.productsGe s.first s.second s.third t.first t.second t.third = some (decide (t.product ≤ s.product)) := by
  have hs := s.first_nonneg
  have hs' := s.second_nonneg
  have hs'' := s.third_nonneg
  have ht := t.first_nonneg
  have ht' := t.second_nonneg
  have ht'' := t.third_nonneg
  rw [Scalar.productsGe_eq, if_neg (by omega)]
  rfl

theorem ge_iff (s t : Triple) : s.ge t ↔ t.product ≤ s.product := by
  unfold ge
  rw [productsGe_eq, Option.some_inj, decide_eq_true_eq]

end Triple

/-- the six factors of a `ProductsGe` node, found at their places -/
structure Factored (values : List I128) (f : Factors) (x y z : I128) : Prop where
  first : values[f.first.toNat]? = some x
  second : values[f.second.toNat]? = some y
  third : values[f.third.toNat]? = some z

theorem node_productsGe {values : List I128} {f g : Factors} {x y z x' y' z' : I128} (input : List I128)
    (hf : Factored values f x y z) (hg : Factored values g x' y' z') :
    Typed.node (.scalarProductsGe .legacyInteger01 f g) (.legacy input) (Values.legacy values : Values Empty) =
      Typed.checked ((Scalar.productsGe x y z x' y' z').map (Typed.boolean .legacyInteger01)) := by
  simp only [Typed.node, Typed.getFactors, get3_legacy hf.first hf.second hf.third,
    get3_legacy hg.first hg.second hg.third]
  rfl

theorem evaluateNode_productsGe {values : List I128} {f g : Factors} {x y z x' y' z' : I128} (input : List I128)
    (hf : Factored values f x y z) (hg : Factored values g x' y' z') :
    Exact (evaluateNode (.productsGe f g) input values)
      (¬(x.val < 0 ∨ y.val < 0 ∨ z.val < 0 ∨ x'.val < 0 ∨ y'.val < 0 ∨ z'.val < 0))
      (if x'.val * y'.val * z'.val ≤ x.val * y.val * z.val then 1 else 0) := by
  refine exact_of_checked ?_
  rw [legacyInstruction, node_productsGe input hf hg, Scalar.productsGe_eq]
  by_cases hsigns : x.val < 0 ∨ y.val < 0 ∨ z.val < 0 ∨ x'.val < 0 ∨ y'.val < 0 ∨ z'.val < 0
  · rw [if_pos hsigns, if_neg (not_not.2 hsigns)]
    rfl
  · rw [if_neg hsigns, if_pos hsigns]
    by_cases hle : x'.val * y'.val * z'.val ≤ x.val * y.val * z.val
    · rw [if_pos hle, decide_eq_true hle]
      rfl
    · rw [if_neg hle, decide_eq_false hle]
      rfl

/-- **Scaled arithmetic.** Over every operand value, each quotient operator returns the floor or the ceiling of the exact
rational and refuses exactly when its signs, its divisor or the result do not fit; the products of the comparison keep
every bit, and the comparison is reflexive, transitive and total on the admitted triples. -/
theorem scaled_arithmetic {values : List I128} {i j k : UInt16} {f g : Factors} {a b d x y z x' y' z' : I128}
    (input : List I128) (ha : values[i.toNat]? = some a) (hb : values[j.toNat]? = some b)
    (hd : values[k.toNat]? = some d) (hf : Factored values f x y z) (hg : Factored values g x' y' z') :
    Exact (evaluateNode (.divFloor i j) input values) (b.val ≠ 0) ⌊(a.val : ℚ) / b.val⌋ ∧
    Exact (evaluateNode (.divCeil i j) input values) (b.val ≠ 0) ⌈(a.val : ℚ) / b.val⌉ ∧
    Exact (evaluateNode (.mulDivFloor i j k) input values) (0 ≤ a.val ∧ 0 ≤ b.val ∧ 0 < d.val)
      ⌊(a.val * b.val : ℚ) / d.val⌋ ∧
    Exact (evaluateNode (.mulDivCeil i j k) input values) (0 ≤ a.val ∧ 0 ≤ b.val ∧ 0 < d.val)
      ⌈(a.val * b.val : ℚ) / d.val⌉ ∧
    Exact (evaluateNode (.signedMulDivFloor i j k) input values) (0 < d.val) ⌊(a.val * b.val : ℚ) / d.val⌋ ∧
    Exact (evaluateNode (.productsGe f g) input values)
      (0 ≤ x.val ∧ 0 ≤ y.val ∧ 0 ≤ z.val ∧ 0 ≤ x'.val ∧ 0 ≤ y'.val ∧ 0 ≤ z'.val)
      (if x'.val * y'.val * z'.val ≤ x.val * y.val * z.val then 1 else 0) ∧
    (∀ u v w : U128, Wide.number2 (Wide.multiply u v) = u.toNat * v.toNat ∧
      Wide.number3 (Wide.multiplyThree u v w) = u.toNat * v.toNat * w.toNat) ∧
    (∀ s : Triple, s.ge s) ∧ (∀ s t u : Triple, s.ge t → t.ge u → s.ge u) ∧ ∀ s t : Triple, s.ge t ∨ t.ge s := by
  have hsigns : ¬(a.val < 0 ∨ b.val < 0 ∨ d.val ≤ 0) ↔ 0 ≤ a.val ∧ 0 ≤ b.val ∧ 0 < d.val := by omega
  have hfactors : ¬(x.val < 0 ∨ y.val < 0 ∨ z.val < 0 ∨ x'.val < 0 ∨ y'.val < 0 ∨ z'.val < 0) ↔
      0 ≤ x.val ∧ 0 ≤ y.val ∧ 0 ≤ z.val ∧ 0 ≤ x'.val ∧ 0 ≤ y'.val ∧ 0 ≤ z'.val := by omega
  have hfloor : ⌊(a.val * b.val : ℚ) / d.val⌋ = roundDiv false (a.val * b.val) d.val := by
    rw [roundDiv, if_neg Bool.false_ne_true, Int.cast_mul]
  have hceil : ⌈(a.val * b.val : ℚ) / d.val⌉ = roundDiv true (a.val * b.val) d.val := by
    rw [roundDiv, if_pos rfl, Int.cast_mul]
  refine ⟨exact_of_checked (node_div false input ha hb), exact_of_checked (node_div true input ha hb), ?_, ?_, ?_, ?_,
    ?_, ?_, ?_, ?_⟩
  · rw [← hsigns, hfloor]
    exact exact_of_checked (node_mulDiv false input ha hb hd)
  · rw [← hsigns, hceil]
    exact exact_of_checked (node_mulDiv true input ha hb hd)
  · rw [← not_le, hfloor]
    exact exact_of_checked (node_signedMulDivFloor input ha hb hd)
  · rw [← hfactors]
    exact evaluateNode_productsGe input hf hg
  · exact fun u v w => ⟨Wide.number2_multiply u v, Wide.number3_multiplyThree u v w⟩
  · intro s
    exact (s.ge_iff s).2 le_rfl
  · intro s t u hst htu
    rw [Triple.ge_iff] at hst htu ⊢
    exact htu.trans hst
  · intro s t
    rw [Triple.ge_iff, Triple.ge_iff]
    exact le_total _ _

theorem seven_lo : (-2 ^ 127 : ℤ) ≤ 7 := by norm_num

theorem seven_hi : (7 : ℤ) < 2 ^ 127 := by norm_num

theorem three_lo : (-2 ^ 127 : ℤ) ≤ 3 := by norm_num

theorem three_hi : (3 : ℤ) < 2 ^ 127 := by norm_num

/-- seven thirds rounded up -/
theorem scaled_arithmetic_sevenths :
    Exact (evaluateNode (.divCeil 0 1) [] [⟨7, seven_lo, seven_hi⟩, ⟨3, three_lo, three_hi⟩])
      ((3 : ℤ) ≠ 0) ⌈((7 : ℤ) : ℚ) / ((3 : ℤ) : ℚ)⌉ :=
  (@scaled_arithmetic [⟨7, seven_lo, seven_hi⟩, ⟨3, three_lo, three_hi⟩] 0 1 1 ⟨0, 1, 1⟩ ⟨0, 0, 1⟩ _ _ _ _ _
    _ _ _ _ [] rfl rfl rfl ⟨rfl, rfl, rfl⟩ ⟨rfl, rfl, rfl⟩).2.1

end ZenoFcis.Finite
