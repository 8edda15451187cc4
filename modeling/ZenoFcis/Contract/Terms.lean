/-
Canonical terms of scalar programs (`zeno-fcis-contract/src/checked_composition/term.rs`): the hash-consed arena with its
folding constructors, the canonical terms of a program, the comparison of selection terms and the interval analysis.

Programs and terms are one language over two kinds of input, so one evaluator serves both. Every constructor meets the
same specification, `Built`: it keeps the arena sound and its term has the value of the operation that it stands for,
wherever that operation has one.
-/
import ZenoFcis.Finite.Scalar
import ZenoFcis.Lib.StraightLine
import Mathlib.Data.List.GetD

namespace ZenoFcis.Contract.Terms

open Lib.StraightLine

/-- an aggregate input: a state, command or context field by id -/
inductive Key where
  | state (id : UInt16)
  | command (id : UInt16)
  | context (id : UInt16)
deriving DecidableEq

/-- the scalar operations; operands are earlier nodes of a program, or term ids -/
inductive Op (ι : Type) where
  | input (i : ι)
  | int (value : I128)
  | bool (value : Bool)
  | add (a b : ℕ)
  | sub (a b : ℕ)
  | eq (a b : ℕ)
  | lt (a b : ℕ)
  | and (a b : ℕ)
  | not (a : ℕ)
  | select (c a b : ℕ)
deriving DecidableEq

abbrev Term := Op Key

abbrev Node := Op ℕ

/-- `i128::from` of a Boolean -/
def ofBool (b : Bool) : I128 := if b then ⟨1, I128.lo_one, I128.hi_one⟩ else ⟨0, I128.lo_zero, I128.hi_zero⟩

/-- the value 0 or 1 -/
def IsBit (v : I128) : Prop := v.val = 0 ∨ v.val = 1

@[simp] theorem ofBool_val (b : Bool) : (ofBool b).val = if b then 1 else 0 := by cases b <;> rfl

theorem isBit_ofBool (b : Bool) : IsBit (ofBool b) := by cases b <;> simp [IsBit]

theorem ext_val {a b : I128} (h : a.val = b.val) : a = b := by
  cases a
  cases b
  cases h
  rfl

theorem IsBit.ofBool_one {v : I128} (h : IsBit v) : ofBool (decide (v.val = 1)) = v := by
  refine ext_val ?_
  rcases h with h | h <;> simp [h]

/-! ### Evaluation -/

section Evaluation

variable {ι : Type} {input : ι → Option I128} {get get' : ℕ → Option I128} {ops : List (Op ι)} {op : Op ι}

/-- one operation; every operand is evaluated -/
def Op.eval (input : ι → Option I128) (get : ℕ → Option I128) : Op ι → Option I128
  | .input i => input i
  | .int v => some v
  | .bool b => some (ofBool b)
  | .add a b => do
    let a ← get a
    let b ← get b
    Finite.checkedAdd a b
  | .sub a b => do
    let a ← get a
    let b ← get b
    Finite.checkedSub a b
  | .eq a b => do
    let a ← get a
    let b ← get b
    some (ofBool (decide (a = b)))
  | .lt a b => do
    let a ← get a
    let b ← get b
    some (ofBool (decide (a.val < b.val)))
  | .and a b => do
    let a ← get a
    let b ← get b
    some (ofBool (decide (a.val = 1 ∧ b.val = 1)))
  | .not a => do
    let a ← get a
    some (ofBool (decide (a.val = 0)))
  | .select c a b => do
    let c ← get c
    let a ← get a
    let b ← get b
    some (if c.val = 1 then a else b)

def Op.operands : Op ι → List ℕ
  | .input _ | .int _ | .bool _ => []
  | .add a b | .sub a b | .eq a b | .lt a b | .and a b => [a, b]
  | .not a => [a]
  | .select c a b => [c, a, b]

theorem Op.eval_congr (h : ∀ i ∈ op.operands, get i = get' i) : op.eval input get = op.eval input get' := by
  cases op <;> simp_all [Op.operands, Op.eval]

/-- the value of one operation of a list, each operation over the values before it -/
def value (input : ι → Option I128) (ops : List (Op ι)) (i : ℕ) : Option I128 :=
  resultAt (fun get op => op.eval input get) ops i

theorem value_eq {i : ℕ} (hop : ops[i]? = some op) (hoperands : ∀ j ∈ op.operands, j < i) :
    value input ops i = op.eval input (value input ops) :=
  resultAt_eq hop fun _ _ h => Op.eval_congr fun j hj => h j (hoperands j hj)

end Evaluation

/-! ### The arena -/

structure Arena where
  terms : List Term
  booleans : List Bool
  index : Term → Option ℕ
  booleanInputs : Finset Key

/-- `u32::MAX` -/
def maxId : ℕ := 2 ^ 32 - 1

namespace Arena

def new (booleanInputs : Finset Key) : Arena := ⟨[], [], fun _ => none, booleanInputs⟩

/-- `self.booleans[id]` -/
def boolean (arena : Arena) (id : ℕ) : Bool := arena.booleans.getD id false

/-- whether a term is Boolean -/
def flag (arena : Arena) : Term → Bool
  | .input key => decide (key ∈ arena.booleanInputs)
  | .int _ | .add _ _ | .sub _ _ => false
  | .bool _ | .eq _ _ | .lt _ _ | .and _ _ | .not _ => true
  | .select _ a b => arena.boolean a && arena.boolean b

/-- `u32::try_from(len).unwrap_or(u32::MAX)` -/
def nextId (arena : Arena) : ℕ := min arena.terms.length maxId

def intern (arena : Arena) (term : Term) : Arena × ℕ :=
  match arena.index term with
  | some id => (arena, id)
  | none =>
    ({ arena with
        terms := arena.terms ++ [term]
        booleans := arena.booleans ++ [arena.flag term]
        index := Function.update arena.index term (some arena.nextId) }, arena.nextId)

def constant (arena : Arena) (value : Bool) : Arena × ℕ := arena.intern (.bool value)

def constantBool (arena : Arena) (id : ℕ) : Option Bool :=
  match arena.terms[id]? with
  | some (.bool value) => some value
  | _ => none

def constantInt (arena : Arena) (id : ℕ) : Option I128 :=
  match arena.terms[id]? with
  | some (.int value) => some value
  | _ => none

def add (arena : Arena) (left right : ℕ) : Arena × ℕ :=
  match arena.constantInt left, arena.constantInt right with
  | some a, some b =>
    match Finite.checkedAdd a b with
    | some sum => arena.intern (.int sum)
    | none => arena.intern (.add left right)
  | _, _ => arena.intern (.add left right)

def sub (arena : Arena) (left right : ℕ) : Arena × ℕ :=
  match arena.constantInt left, arena.constantInt right with
  | some a, some b =>
    match Finite.checkedSub a b with
    | some difference => arena.intern (.int difference)
    | none => arena.intern (.sub left right)
  | _, _ => arena.intern (.sub left right)

def eq (arena : Arena) (left right : ℕ) : Arena × ℕ :=
  if left = right then arena.constant true
  else
    match arena.terms[left]?, arena.terms[right]? with
    | some (.int a), some (.int b) => arena.constant (decide (a = b))
    | some (.bool a), some (.bool b) => arena.constant (decide (a = b))
    | _, _ => arena.intern (.eq left right)

def lt (arena : Arena) (left right : ℕ) : Arena × ℕ :=
  match arena.constantInt left, arena.constantInt right with
  | some a, some b => arena.constant (decide (a.val < b.val))
  | _, _ => if left = right then arena.constant false else arena.intern (.lt left right)

def and (arena : Arena) (left right : ℕ) : Arena × ℕ :=
  let a := arena.constantBool left
  let b := arena.constantBool right
  if a = some false ∨ b = some false then arena.constant false
  else if a = some true ∧ arena.boolean right = true then (arena, right)
  else if (b = some true ∨ left = right) ∧ arena.boolean left = true then (arena, left)
  else arena.intern (.and left right)

def not (arena : Arena) (operand : ℕ) : Arena × ℕ :=
  match arena.terms[operand]? with
  | some (.bool value) => arena.constant !value
  | some (.not inner) => if arena.boolean inner then (arena, inner) else arena.intern (.not operand)
  | _ => arena.intern (.not operand)

def select (arena : Arena) (condition a b : ℕ) : Arena × ℕ :=
  match arena.constantBool condition with
  | some true => (arena, a)
  | some false => (arena, b)
  | none => if a = b then (arena, a) else arena.intern (.select condition a b)

/-- the constructor of an operation -/
def build (arena : Arena) : Term → Arena × ℕ
  | .input key => arena.intern (.input key)
  | .int value => arena.intern (.int value)
  | .bool value => arena.constant value
  | .add a b => arena.add a b
  | .sub a b => arena.sub a b
  | .eq a b => arena.eq a b
  | .lt a b => arena.lt a b
  | .and a b => arena.and a b
  | .not a => arena.not a
  | .select c a b => arena.select c a b

/-- a term's value, where `input` gives each input's value -/
def evaluate (arena : Arena) (input : Key → Option I128) (id : ℕ) : Option I128 := value input arena.terms id

/-- what construction maintains while ids stay distinct -/
structure Sound (arena : Arena) : Prop where
  flags : arena.booleans.length = arena.terms.length
  index_iff : ∀ (t : Term) (id : ℕ), arena.index t = some id ↔ arena.terms[id]? = some t
  earlier : ∀ {t : Term} {id : ℕ}, arena.terms[id]? = some t → ∀ j ∈ t.operands, j < id
  flagged : ∀ {t : Term} {id : ℕ}, arena.terms[id]? = some t → arena.boolean id = arena.flag t

/-- the arena grows at its end -/
structure Extends (arena out : Arena) : Prop where
  terms : arena.terms <+: out.terms
  booleans : arena.booleans <+: out.booleans
  booleanInputs : out.booleanInputs = arena.booleanInputs

/-- the inputs with a Boolean domain are 0 or 1 -/
def BooleanInputs (arena : Arena) (input : Key → Option I128) : Prop :=
  ∀ key ∈ arena.booleanInputs, ∀ v, input key = some v → IsBit v

/-- the specification of a constructor -/
structure Built (arena : Arena) (op : Term) (r : Arena × ℕ) : Prop where
  sound : r.1.Sound
  id_lt : r.2 < r.1.terms.length
  value : ∀ input, arena.BooleanInputs input → ∀ v, op.eval input (arena.evaluate input) = some v →
    r.1.evaluate input r.2 = some v

variable {arena out : Arena} {input : Key → Option I128}

theorem Extends.refl (arena : Arena) : arena.Extends arena := ⟨List.prefix_rfl, List.prefix_rfl, rfl⟩

variable {a b c : Arena} {left right : ℕ}

theorem Extends.trans (h : a.Extends b) (h' : b.Extends c) : a.Extends c :=
  ⟨h.terms.trans h'.terms, h.booleans.trans h'.booleans, h'.booleanInputs.trans h.booleanInputs⟩

theorem Extends.length_le (h : arena.Extends out) : arena.terms.length ≤ out.terms.length := h.terms.length_le

theorem Extends.evaluate (h : arena.Extends out) {id : ℕ} (hid : id < arena.terms.length) :
    out.evaluate input id = arena.evaluate input id := resultAt_extend h.terms hid

theorem Extends.booleanInputs_iff (h : arena.Extends out) : out.BooleanInputs input ↔ arena.BooleanInputs input := by
  unfold BooleanInputs
  rw [h.booleanInputs]

theorem new_sound (booleanInputs : Finset Key) : (new booleanInputs).Sound where
  flags := rfl
  index_iff := by simp [new]
  earlier := by simp [new]
  flagged := by simp [new]

section

variable (h : arena.Sound)

include h

theorem Sound.evaluate_eq {id : ℕ} {t : Term} (ht : arena.terms[id]? = some t) :
    arena.evaluate input id = t.eval input (arena.evaluate input) := value_eq ht (h.earlier ht)

theorem Sound.boolean_lt {id : ℕ} (hb : arena.boolean id = true) : id < arena.terms.length := by
  by_contra hge
  rw [boolean, List.getD_eq_default _ _ (by rw [h.flags]; omega)] at hb
  exact Bool.false_ne_true hb

/-- **Flags.** A term flagged Boolean evaluates to 0 or 1. -/
theorem Sound.isBit (hinputs : arena.BooleanInputs input) {id : ℕ} (hb : arena.boolean id = true) {v : I128}
    (hv : arena.evaluate input id = some v) : IsBit v := by
  induction id using Nat.strong_induction_on generalizing v with
  | _ id ih =>
    obtain ⟨t, ht⟩ : ∃ t, arena.terms[id]? = some t := ⟨_, List.getElem?_eq_getElem (h.boolean_lt hb)⟩
    have hearlier := h.earlier ht
    rw [h.flagged ht] at hb
    rw [h.evaluate_eq ht] at hv
    cases t with
    | input key => exact hinputs key (of_decide_eq_true hb) v hv
    | bool value =>
      rw [← Option.some.inj hv]
      exact isBit_ofBool value
    | int | add | sub => exact absurd hb Bool.false_ne_true
    | eq a b | lt a b | and a b =>
      simp only [Op.eval, Option.bind_eq_bind, Option.bind_eq_some_iff, Option.some.injEq] at hv
      obtain ⟨_, _, _, _, rfl⟩ := hv
      exact isBit_ofBool _
    | not a =>
      simp only [Op.eval, Option.bind_eq_bind, Option.bind_eq_some_iff, Option.some.injEq] at hv
      obtain ⟨_, _, rfl⟩ := hv
      exact isBit_ofBool _
    | select c a b =>
      simp only [Op.eval, Option.bind_eq_bind, Option.bind_eq_some_iff, Option.some.injEq] at hv
      obtain ⟨_, _, _, ha, _, hb', rfl⟩ := hv
      obtain ⟨hflagA, hflagB⟩ := Bool.and_eq_true_iff.1 hb
      split_ifs
      · exact ih a (hearlier a (by simp [Op.operands])) hflagA ha
      · exact ih b (hearlier b (by simp [Op.operands])) hflagB hb'

omit h in
theorem intern_extends (t : Term) : arena.Extends (arena.intern t).1 := by
  unfold intern
  split
  · exact .refl arena
  · exact ⟨List.prefix_append _ _, List.prefix_append _ _, rfl⟩

omit h in
theorem Extends.flag (h : arena.Extends out) (hsound : arena.Sound) {t : Term}
    (ht : ∀ j ∈ t.operands, j < arena.terms.length) : out.flag t = arena.flag t := by
  have hboolean {j : ℕ} (hj : j < arena.terms.length) : out.boolean j = arena.boolean j := by
    obtain ⟨rest, hrest⟩ := h.booleans
    rw [boolean, ← hrest, List.getD_append _ _ _ _ (by rwa [hsound.flags]), boolean]
  cases t with
  | input key => rw [Arena.flag, Arena.flag, h.booleanInputs]
  | select c a b =>
    rw [Arena.flag, Arena.flag, hboolean (ht a (by simp [Op.operands])), hboolean (ht b (by simp [Op.operands]))]
  | _ => rfl

theorem intern_sound {t : Term} (ht : ∀ j ∈ t.operands, j < arena.terms.length)
    (hsize : (arena.intern t).1.terms.length ≤ maxId + 1) :
    (arena.intern t).1.Sound ∧ (arena.intern t).1.terms[(arena.intern t).2]? = some t := by
  have hext := @intern_extends arena t
  unfold intern at hsize hext ⊢
  split at hsize
  · rename_i id hid
    simp only
    exact ⟨h, (h.index_iff t id).1 hid⟩
  · rename_i hnone
    simp only [hnone] at hext ⊢
    have hlen : arena.terms.length ≤ maxId := by simpa using hsize
    have hid : arena.nextId = arena.terms.length := min_eq_left hlen
    rw [hid] at hext ⊢
    have hget (i : ℕ) (u : Term) : (arena.terms ++ [t])[i]? = some u ↔
        arena.terms[i]? = some u ∨ i = arena.terms.length ∧ t = u := by
      rcases lt_trichotomy i arena.terms.length with hi | rfl | hi
      · rw [List.getElem?_append_left hi]
        simp [hi.ne]
      · simp
      · rw [List.getElem?_eq_none (by simp; omega), List.getElem?_eq_none (by omega)]
        simp [hi.ne']
    refine ⟨⟨?_, fun u i => ?_, fun {u i} hu => ?_, fun {u i} hu => ?_⟩, by simp⟩
    · simp [h.flags]
    · rw [hget]
      by_cases hu : u = t
      · subst hu
        have hno (i : ℕ) : ¬arena.terms[i]? = some u := fun hi => by simp [(h.index_iff u i).2 hi] at hnone
        simp [hno, eq_comm]
      · dsimp only
        rw [Function.update_of_ne hu, h.index_iff]
        simp [Ne.symm hu]
    · rcases (hget i u).1 hu with hu | ⟨rfl, rfl⟩
      · exact h.earlier hu
      · exact ht
    · rcases (hget i u).1 hu with hu | ⟨rfl, rfl⟩
      · obtain ⟨hi, _⟩ := List.getElem?_eq_some_iff.1 hu
        rw [hext.flag h fun j hj => (h.earlier hu j hj).trans hi, ← h.flagged hu, boolean, boolean,
          List.getD_append _ _ _ _ (by rwa [h.flags])]
      · rw [hext.flag h ht, boolean, ← h.flags]
        simp

theorem built_intern {op t : Term} (ht : ∀ j ∈ t.operands, j < arena.terms.length)
    (hsize : (arena.intern t).1.terms.length ≤ maxId + 1)
    (hvalue : ∀ input, arena.BooleanInputs input → ∀ v, op.eval input (arena.evaluate input) = some v →
      t.eval input (arena.evaluate input) = some v) : Built arena op (arena.intern t) := by
  obtain ⟨hsound, hget⟩ := intern_sound h ht hsize
  obtain ⟨hid, _⟩ := List.getElem?_eq_some_iff.1 hget
  refine ⟨hsound, hid, fun input hinput v hv => ?_⟩
  have hext := @intern_extends arena t
  rw [hsound.evaluate_eq hget, Op.eval_congr fun j hj => hext.evaluate (ht j hj)]
  exact hvalue input hinput v hv

theorem built_self {op : Term} {id : ℕ} (hid : id < arena.terms.length)
    (hvalue : ∀ input, arena.BooleanInputs input → ∀ v, op.eval input (arena.evaluate input) = some v →
      arena.evaluate input id = some v) : Built arena op (arena, id) := ⟨h, hid, hvalue⟩

theorem built_constant {op : Term} {b : Bool} (hsize : (arena.constant b).1.terms.length ≤ maxId + 1)
    (hvalue : ∀ input, arena.BooleanInputs input → ∀ v, op.eval input (arena.evaluate input) = some v → ofBool b = v) :
    Built arena op (arena.constant b) :=
  built_intern h (by simp [Op.operands]) hsize fun input hinput v hv => congrArg some (hvalue input hinput v hv)

theorem Sound.evaluate_int {id : ℕ} {a : I128} (ha : arena.constantInt id = some a) :
    arena.evaluate input id = some a := by
  unfold constantInt at ha
  split at ha
  · rename_i ht
    rw [h.evaluate_eq ht, ← ha]
    rfl
  · exact absurd ha (by simp)

theorem Sound.evaluate_bool {id : ℕ} {b : Bool} (hb : arena.constantBool id = some b) :
    arena.evaluate input id = some (ofBool b) := by
  unfold constantBool at hb
  split at hb
  · rename_i ht
    rw [h.evaluate_eq ht, ← Option.some.inj hb]
    rfl
  · exact absurd hb (by simp)

theorem built_add (hl : left < arena.terms.length) (hr : right < arena.terms.length)
    (hsize : (arena.add left right).1.terms.length ≤ maxId + 1) :
    Built arena (.add left right) (arena.add left right) := by
  have hoperands : ∀ j ∈ (Op.add left right : Term).operands, j < arena.terms.length := by simp [Op.operands, hl, hr]
  unfold add at hsize ⊢
  split
  · rename_i a b ha hb
    simp only [ha, hb] at hsize
    split
    · rename_i sum hsum
      simp only [hsum] at hsize
      refine built_intern h (by simp [Op.operands]) hsize fun input _ v hv => ?_
      simpa [Op.eval, h.evaluate_int ha, h.evaluate_int hb, hsum] using hv
    · rename_i hsum
      simp only [hsum] at hsize
      exact built_intern h hoperands hsize fun _ _ _ hv => hv
  · rename_i hno
    refine built_intern h hoperands ?_ fun _ _ _ hv => hv
    split at hsize
    · rename_i a b ha hb
      exact absurd hb (hno a b ha)
    · exact hsize

theorem built_sub (hl : left < arena.terms.length) (hr : right < arena.terms.length)
    (hsize : (arena.sub left right).1.terms.length ≤ maxId + 1) :
    Built arena (.sub left right) (arena.sub left right) := by
  have hoperands : ∀ j ∈ (Op.sub left right : Term).operands, j < arena.terms.length := by simp [Op.operands, hl, hr]
  unfold sub at hsize ⊢
  split
  · rename_i a b ha hb
    simp only [ha, hb] at hsize
    split
    · rename_i difference hdifference
      simp only [hdifference] at hsize
      refine built_intern h (by simp [Op.operands]) hsize fun input _ v hv => ?_
      simpa [Op.eval, h.evaluate_int ha, h.evaluate_int hb, hdifference] using hv
    · rename_i hdifference
      simp only [hdifference] at hsize
      exact built_intern h hoperands hsize fun _ _ _ hv => hv
  · rename_i hno
    refine built_intern h hoperands ?_ fun _ _ _ hv => hv
    split at hsize
    · rename_i a b ha hb
      exact absurd hb (hno a b ha)
    · exact hsize

omit h in
theorem ofBool_inj {a b : Bool} : ofBool a = ofBool b ↔ a = b := by cases a <;> cases b <;> simp [ofBool]

theorem built_eq (hl : left < arena.terms.length) (hr : right < arena.terms.length)
    (hsize : (arena.eq left right).1.terms.length ≤ maxId + 1) :
    Built arena (.eq left right) (arena.eq left right) := by
  have hoperands : ∀ j ∈ (Op.eq left right : Term).operands, j < arena.terms.length := by simp [Op.operands, hl, hr]
  unfold eq at hsize ⊢
  split_ifs at hsize ⊢ with hsame
  · subst hsame
    refine built_constant h hsize fun input _ v hv => ?_
    simp only [Op.eval, Option.bind_eq_bind, Option.bind_eq_some_iff, Option.some.injEq] at hv
    obtain ⟨x, hx, y, hy, rfl⟩ := hv
    rw [Option.some.inj (hx.symm.trans hy), decide_eq_true rfl]
  · split
    · rename_i a b ha hb
      simp only [ha, hb] at hsize
      refine built_constant h hsize fun input _ v hv => ?_
      simpa [Op.eval, h.evaluate_eq ha, h.evaluate_eq hb] using hv
    · rename_i a b ha hb
      simp only [ha, hb] at hsize
      refine built_constant h hsize fun input _ v hv => ?_
      simpa [Op.eval, h.evaluate_eq ha, h.evaluate_eq hb, ofBool_inj] using hv
    · rename_i hint hbool
      refine built_intern h hoperands ?_ fun _ _ _ hv => hv
      split at hsize
      · rename_i a b ha hb
        exact absurd hb (hint a b ha)
      · rename_i a b ha hb
        exact absurd hb (hbool a b ha)
      · exact hsize

theorem built_lt (hl : left < arena.terms.length) (hr : right < arena.terms.length)
    (hsize : (arena.lt left right).1.terms.length ≤ maxId + 1) :
    Built arena (.lt left right) (arena.lt left right) := by
  have hoperands : ∀ j ∈ (Op.lt left right : Term).operands, j < arena.terms.length := by simp [Op.operands, hl, hr]
  unfold lt at hsize ⊢
  split
  · rename_i a b ha hb
    simp only [ha, hb] at hsize
    refine built_constant h hsize fun input _ v hv => ?_
    simpa [Op.eval, h.evaluate_int ha, h.evaluate_int hb] using hv
  · rename_i hno
    have hrest : (if left = right then arena.constant false else arena.intern (.lt left right)).1.terms.length ≤
        maxId + 1 := by
      split at hsize
      · rename_i a b ha hb
        exact absurd hb (hno a b ha)
      · exact hsize
    split_ifs at hrest ⊢ with hsame
    · subst hsame
      refine built_constant h hrest fun input _ v hv => ?_
      simp only [Op.eval, Option.bind_eq_bind, Option.bind_eq_some_iff, Option.some.injEq] at hv
      obtain ⟨x, hx, y, hy, rfl⟩ := hv
      rw [Option.some.inj (hx.symm.trans hy), decide_eq_false (lt_irrefl _)]
    · exact built_intern h hoperands hrest fun _ _ _ hv => hv

theorem built_and (hl : left < arena.terms.length) (hr : right < arena.terms.length)
    (hsize : (arena.and left right).1.terms.length ≤ maxId + 1) :
    Built arena (.and left right) (arena.and left right) := by
  have hoperands : ∀ j ∈ (Op.and left right : Term).operands, j < arena.terms.length := by simp [Op.operands, hl, hr]
  unfold and at hsize ⊢
  dsimp only at hsize ⊢
  split_ifs at hsize ⊢ with hfalse hright hleft
  · refine built_constant h hsize fun input _ v hv => ?_
    simp only [Op.eval, Option.bind_eq_bind, Option.bind_eq_some_iff, Option.some.injEq] at hv
    obtain ⟨x, hx, y, hy, rfl⟩ := hv
    refine congrArg ofBool (decide_eq_false ?_).symm
    rintro ⟨hx1, hy1⟩
    rcases hfalse with hb | hb
    · rw [h.evaluate_bool hb, Option.some.injEq] at hx
      simp [← hx] at hx1
    · rw [h.evaluate_bool hb, Option.some.injEq] at hy
      simp [← hy] at hy1
  · refine built_self h hr fun input hinput v hv => ?_
    simp only [Op.eval, Option.bind_eq_bind, Option.bind_eq_some_iff, Option.some.injEq] at hv
    obtain ⟨x, hx, y, hy, rfl⟩ := hv
    rw [h.evaluate_bool hright.1, Option.some.injEq] at hx
    have hbit := h.isBit hinput hright.2 hy
    rw [hy, ← hx]
    simp [hbit.ofBool_one]
  · refine built_self h hl fun input hinput v hv => ?_
    simp only [Op.eval, Option.bind_eq_bind, Option.bind_eq_some_iff, Option.some.injEq] at hv
    obtain ⟨x, hx, y, hy, rfl⟩ := hv
    have hbit := h.isBit hinput hleft.2 hx
    rcases hleft.1 with hb | hsame
    · rw [h.evaluate_bool hb, Option.some.injEq] at hy
      rw [hx, ← hy]
      simp [hbit.ofBool_one]
    · rw [hsame, hy, Option.some.injEq] at hx
      rw [hsame, hy, hx]
      simp [hbit.ofBool_one]
  · exact built_intern h hoperands hsize fun _ _ _ hv => hv

theorem built_not {operand : ℕ} (ho : operand < arena.terms.length)
    (hsize : (arena.not operand).1.terms.length ≤ maxId + 1) : Built arena (.not operand) (arena.not operand) := by
  have hoperands : ∀ j ∈ (Op.not operand : Term).operands, j < arena.terms.length := by simp [Op.operands, ho]
  unfold not at hsize ⊢
  split
  · rename_i value ht
    simp only [ht] at hsize
    refine built_constant h hsize fun input _ v hv => ?_
    cases value <;> simpa [Op.eval, h.evaluate_eq ht] using hv
  · rename_i inner ht
    simp only [ht] at hsize
    split_ifs at hsize ⊢ with hflag
    · refine built_self h ((h.earlier ht inner (by simp [Op.operands])).trans ho) fun input hinput v hv => ?_
      simp only [Op.eval, h.evaluate_eq ht, Option.bind_eq_bind, Option.bind_eq_some_iff, Option.some.injEq] at hv
      obtain ⟨_, ⟨x, hx, rfl⟩, rfl⟩ := hv
      rw [hx]
      refine congrArg some (ext_val ?_)
      rcases h.isBit hinput hflag hx with hbit | hbit <;> simp [hbit]
    · exact built_intern h hoperands hsize fun _ _ _ hv => hv
  · rename_i hbool hnot
    refine built_intern h hoperands ?_ fun _ _ _ hv => hv
    split at hsize
    · rename_i value ht
      exact absurd ht (hbool value)
    · rename_i inner ht
      exact absurd ht (hnot inner)
    · exact hsize

theorem built_select {c a b : ℕ} (hc : c < arena.terms.length) (ha : a < arena.terms.length)
    (hb : b < arena.terms.length) (hsize : (arena.select c a b).1.terms.length ≤ maxId + 1) :
    Built arena (.select c a b) (arena.select c a b) := by
  have hoperands : ∀ j ∈ (Op.select c a b : Term).operands, j < arena.terms.length := by
    simp [Op.operands, hc, ha, hb]
  unfold select at hsize ⊢
  split
  · rename_i hcond
    refine built_self h ha fun input _ v hv => ?_
    simp only [Op.eval, Option.bind_eq_bind, Option.bind_eq_some_iff, Option.some.injEq] at hv
    obtain ⟨x, hx, y, hy, z, hz, rfl⟩ := hv
    rw [h.evaluate_bool hcond, Option.some.injEq] at hx
    rw [hy, ← hx]
    simp
  · rename_i hcond
    refine built_self h hb fun input _ v hv => ?_
    simp only [Op.eval, Option.bind_eq_bind, Option.bind_eq_some_iff, Option.some.injEq] at hv
    obtain ⟨x, hx, y, hy, z, hz, rfl⟩ := hv
    rw [h.evaluate_bool hcond, Option.some.injEq] at hx
    rw [hz, ← hx]
    simp
  · rename_i hcond
    simp only [hcond] at hsize
    split_ifs at hsize ⊢ with hsame
    · subst hsame
      refine built_self h ha fun input _ v hv => ?_
      simp only [Op.eval, Option.bind_eq_bind, Option.bind_eq_some_iff, Option.some.injEq] at hv
      obtain ⟨x, hx, y, hy, z, hz, rfl⟩ := hv
      rw [hy] at hz ⊢
      rw [← Option.some.inj hz, ite_self]
    · exact built_intern h hoperands hsize fun _ _ _ hv => hv

/-- **Construction.** Every constructor's term has the value of its operation. -/
theorem built_build {op : Term} (hop : ∀ j ∈ op.operands, j < arena.terms.length)
    (hsize : (arena.build op).1.terms.length ≤ maxId + 1) : Built arena op (arena.build op) := by
  cases op with
  | input key | int value | bool value => exact built_intern h hop hsize fun _ _ _ hv => hv
  | add a b => exact built_add h (hop a (by simp [Op.operands])) (hop b (by simp [Op.operands])) hsize
  | sub a b => exact built_sub h (hop a (by simp [Op.operands])) (hop b (by simp [Op.operands])) hsize
  | eq a b => exact built_eq h (hop a (by simp [Op.operands])) (hop b (by simp [Op.operands])) hsize
  | lt a b => exact built_lt h (hop a (by simp [Op.operands])) (hop b (by simp [Op.operands])) hsize
  | and a b => exact built_and h (hop a (by simp [Op.operands])) (hop b (by simp [Op.operands])) hsize
  | not a => exact built_not h (hop a (by simp [Op.operands])) hsize
  | select c a b =>
    exact built_select h (hop c (by simp [Op.operands])) (hop a (by simp [Op.operands])) (hop b (by simp [Op.operands]))
      hsize

end

theorem build_extends (op : Term) : arena.Extends (arena.build op).1 := by
  cases op with
  | input key => exact intern_extends _
  | int value => exact intern_extends _
  | bool value => exact intern_extends _
  | add a b =>
    rw [build, add]
    split
    · split <;> exact intern_extends _
    · exact intern_extends _
  | sub a b =>
    rw [build, sub]
    split
    · split <;> exact intern_extends _
    · exact intern_extends _
  | eq a b =>
    rw [build, eq]
    split_ifs
    · exact intern_extends _
    · split <;> exact intern_extends _
  | lt a b =>
    rw [build, lt]
    split
    · exact intern_extends _
    · split_ifs <;> exact intern_extends _
  | and a b =>
    rw [build, and]
    split_ifs
    · exact intern_extends _
    · exact .refl arena
    · exact .refl arena
    · exact intern_extends _
  | not a =>
    rw [build, not]
    split
    · exact intern_extends _
    · split_ifs
      · exact .refl arena
      · exact intern_extends _
    · exact intern_extends _
  | select c a b =>
    rw [build, select]
    split
    · exact .refl arena
    · exact .refl arena
    · split_ifs
      · exact .refl arena
      · exact intern_extends _

/-- constructor calls on ids of the arena -/
inductive Steps (first : Arena) : Arena → Prop
  | refl : Steps first first
  | build {arena : Arena} (h : Steps first arena) (op : Term) (hop : ∀ j ∈ op.operands, j < arena.terms.length) :
    Steps first (arena.build op).1

theorem Steps.extends (h : Steps a b) : a.Extends b := by
  induction h with
  | refl => exact .refl a
  | build _ op _ ih => exact ih.trans (build_extends op)

/-- **Soundness** survives every run of constructor calls that ends with at most `2 ^ 32` terms. -/
theorem Steps.sound (h : Steps a b) (ha : a.Sound) (hsize : b.terms.length ≤ maxId + 1) : b.Sound := by
  induction h with
  | refl => exact ha
  | build _ op hop ih => exact (built_build (ih ((build_extends op).length_le.trans hsize)) hop hsize).sound

end Arena

/-! ### Canonical programs -/

/-- how a caller maps the inputs of a program to terms: by constructor calls, or not at all -/
structure InputMap where
  call : Arena → ℕ → Option (Arena × ℕ)
  steps : ∀ {arena index out id}, call arena index = some (out, id) → Arena.Steps arena out
  id_lt : ∀ {arena index out id}, arena.Sound → out.terms.length ≤ maxId + 1 → call arena index = some (out, id) →
    id < out.terms.length

/-- the mapped terms have the values of the program's inputs -/
def InputMap.Carries (map : InputMap) (input : Key → Option I128) (x : ℕ → Option I128) : Prop :=
  ∀ {arena index out id}, arena.Sound → out.terms.length ≤ maxId + 1 → map.call arena index = some (out, id) →
    out.evaluate input id = x index

/-- the canonical term of one node, over the ids of the nodes before it -/
def canonicalNode (map : InputMap) (arena : Arena) (ids : List ℕ) : Node → Option (Arena × ℕ)
  | .input index => map.call arena index
  | .int value => some (arena.intern (.int value))
  | .bool value => some (arena.constant value)
  | .add a b => do
    let a ← ids[a]?
    let b ← ids[b]?
    some (arena.add a b)
  | .sub a b => do
    let a ← ids[a]?
    let b ← ids[b]?
    some (arena.sub a b)
  | .eq a b => do
    let a ← ids[a]?
    let b ← ids[b]?
    some (arena.eq a b)
  | .lt a b => do
    let a ← ids[a]?
    let b ← ids[b]?
    some (arena.lt a b)
  | .and a b => do
    let a ← ids[a]?
    let b ← ids[b]?
    some (arena.and a b)
  | .not a => do
    let a ← ids[a]?
    some (arena.not a)
  | .select c a b => do
    let c ← ids[c]?
    let a ← ids[a]?
    let b ← ids[b]?
    some (arena.select c a b)

/-- the loop of `canonical` -/
def canonicalLoop (map : InputMap) : List Node → Arena → List ℕ → Option (Arena × List ℕ)
  | [], arena, ids => some (arena, ids)
  | node :: rest, arena, ids => do
    let (out, id) ← canonicalNode map arena ids node
    canonicalLoop map rest out (ids ++ [id])

def canonical (arena : Arena) (nodes : List Node) (map : InputMap) : Option (Arena × List ℕ) :=
  canonicalLoop map nodes arena []

section Canonical

variable {map : InputMap} {arena out final : Arena} {ids : List ℕ} {node : Node} {id : ℕ} {input : Key → Option I128}
  {x : ℕ → Option I128}

/-- the operation that a node becomes -/
structure Renames (ids : List ℕ) (node : Node) (op : Term) : Prop where
  operands : ∀ j ∈ op.operands, j ∈ ids
  eval : ∀ input x (get get' : ℕ → Option I128), (∀ i j, ids[i]? = some j → ∀ v, get i = some v → get' j = some v) →
    ∀ v, node.eval x get = some v → op.eval input get' = some v

theorem Renames.binary {op : Term} (g : I128 → I128 → Option I128) {a b a' b' : ℕ} (ha : ids[a]? = some a')
    (hb : ids[b]? = some b') (hop : op.operands = [a', b'])
    (hnode : ∀ x get, node.eval x get = (get a).bind fun u => (get b).bind (g u))
    (heval : ∀ input get, op.eval input get = (get a').bind fun u => (get b').bind (g u)) : Renames ids node op := by
  refine ⟨?_, fun input x get get' hget v hv => ?_⟩
  · simp [hop, List.mem_of_getElem? ha, List.mem_of_getElem? hb]
  · simp only [hnode, heval, Option.bind_eq_some_iff] at hv ⊢
    obtain ⟨u, hu, w, hw, hv⟩ := hv
    exact ⟨u, hget a a' ha u hu, w, hget b b' hb w hw, hv⟩

theorem canonicalNode_cases (h : canonicalNode map arena ids node = some (out, id)) :
    (∃ index, node = .input index ∧ map.call arena index = some (out, id)) ∨
      ∃ op, Renames ids node op ∧ arena.build op = (out, id) := by
  cases node with
  | input index => exact .inl ⟨index, rfl, h⟩
  | int value => exact .inr ⟨.int value, ⟨by simp [Op.operands], fun _ _ _ _ _ _ hv => hv⟩, Option.some.inj h⟩
  | bool value => exact .inr ⟨.bool value, ⟨by simp [Op.operands], fun _ _ _ _ _ _ hv => hv⟩, Option.some.inj h⟩
  | add a b =>
    simp only [canonicalNode, Option.bind_eq_bind, Option.bind_eq_some_iff, Option.some.injEq] at h
    obtain ⟨a', ha, b', hb, h⟩ := h
    exact .inr ⟨.add a' b', .binary Finite.checkedAdd ha hb rfl (fun _ _ => rfl) fun _ _ => rfl, h⟩
  | sub a b =>
    simp only [canonicalNode, Option.bind_eq_bind, Option.bind_eq_some_iff, Option.some.injEq] at h
    obtain ⟨a', ha, b', hb, h⟩ := h
    exact .inr ⟨.sub a' b', .binary Finite.checkedSub ha hb rfl (fun _ _ => rfl) fun _ _ => rfl, h⟩
  | eq a b =>
    simp only [canonicalNode, Option.bind_eq_bind, Option.bind_eq_some_iff, Option.some.injEq] at h
    obtain ⟨a', ha, b', hb, h⟩ := h
    exact .inr ⟨.eq a' b',
      .binary (fun u w => some (ofBool (decide (u = w)))) ha hb rfl (fun _ _ => rfl) fun _ _ => rfl, h⟩
  | lt a b =>
    simp only [canonicalNode, Option.bind_eq_bind, Option.bind_eq_some_iff, Option.some.injEq] at h
    obtain ⟨a', ha, b', hb, h⟩ := h
    exact .inr ⟨.lt a' b',
      .binary (fun u w => some (ofBool (decide (u.val < w.val)))) ha hb rfl (fun _ _ => rfl) fun _ _ => rfl, h⟩
  | and a b =>
    simp only [canonicalNode, Option.bind_eq_bind, Option.bind_eq_some_iff, Option.some.injEq] at h
    obtain ⟨a', ha, b', hb, h⟩ := h
    exact .inr ⟨.and a' b',
      .binary (fun u w => some (ofBool (decide (u.val = 1 ∧ w.val = 1)))) ha hb rfl (fun _ _ => rfl) fun _ _ => rfl,
      h⟩
  | not a =>
    simp only [canonicalNode, Option.bind_eq_bind, Option.bind_eq_some_iff, Option.some.injEq] at h
    obtain ⟨a', ha, h⟩ := h
    refine .inr ⟨.not a', ⟨?_, fun _ _ get get' hget v hv => ?_⟩, h⟩
    · simp [Op.operands, List.mem_of_getElem? ha]
    · simp only [Op.eval, Option.bind_eq_bind, Option.bind_eq_some_iff] at hv ⊢
      obtain ⟨u, hu, hv⟩ := hv
      exact ⟨u, hget a a' ha u hu, hv⟩
  | select c a b =>
    simp only [canonicalNode, Option.bind_eq_bind, Option.bind_eq_some_iff, Option.some.injEq] at h
    obtain ⟨c', hc, a', ha, b', hb, h⟩ := h
    refine .inr ⟨.select c' a' b', ⟨?_, fun _ _ get get' hget v hv => ?_⟩, h⟩
    · simp [Op.operands, List.mem_of_getElem? hc, List.mem_of_getElem? ha, List.mem_of_getElem? hb]
    · simp only [Op.eval, Option.bind_eq_bind, Option.bind_eq_some_iff] at hv ⊢
      obtain ⟨t, ht, u, hu, w, hw, hv⟩ := hv
      exact ⟨t, hget c c' hc t ht, u, hget a a' ha u hu, w, hget b b' hb w hw, hv⟩

theorem canonicalNode_extends (h : canonicalNode map arena ids node = some (out, id)) : arena.Extends out := by
  rcases canonicalNode_cases h with ⟨index, _, hcall⟩ | ⟨op, _, hbuild⟩
  · exact (map.steps hcall).extends
  · have hext := @Arena.build_extends arena op
    rwa [hbuild] at hext

theorem canonicalLoop_extends {nodes : List Node} {ids' : List ℕ}
    (h : canonicalLoop map nodes arena ids = some (final, ids')) : arena.Extends final := by
  induction nodes generalizing arena ids with
  | nil =>
    obtain ⟨rfl, _⟩ := Prod.mk.inj (Option.some.inj h)
    exact .refl arena
  | cons node rest ih =>
    obtain ⟨⟨out, id⟩, hnode, hrest⟩ := Option.bind_eq_some_iff.1 h
    exact (canonicalNode_extends hnode).trans (ih hrest)

/-- what the loop maintains over the nodes already done -/
structure Tracks (map : InputMap) (arena : Arena) (ids : List ℕ) (nodes : List Node) : Prop where
  sound : arena.Sound
  length : ids.length = nodes.length
  id_lt : ∀ id ∈ ids, id < arena.terms.length
  value : ∀ {input x}, arena.BooleanInputs input → map.Carries input x → ∀ {i id v}, ids[i]? = some id →
    value x nodes i = some v → arena.evaluate input id = some v

theorem Tracks.step {nodes : List Node} (h : Tracks map arena ids nodes)
    (hnode : canonicalNode map arena ids node = some (out, id)) (hsize : out.terms.length ≤ maxId + 1) :
    Tracks map out (ids ++ [id]) (nodes ++ [node]) := by
  have hext := canonicalNode_extends hnode
  have hnew : out.Sound ∧ id < out.terms.length ∧ ∀ {input x}, arena.BooleanInputs input → map.Carries input x →
      ∀ v, node.eval x (Terms.value x nodes) = some v → out.evaluate input id = some v := by
    rcases canonicalNode_cases hnode with ⟨index, rfl, hcall⟩ | ⟨op, hop, hbuild⟩
    · refine ⟨(map.steps hcall).sound h.sound hsize, map.id_lt h.sound hsize hcall, fun _ hcarries v hv => ?_⟩
      exact (hcarries h.sound hsize hcall).trans hv
    · have hbuilt := Arena.built_build h.sound (fun j hj => h.id_lt j (hop.operands j hj)) (by rwa [hbuild])
      rw [hbuild] at hbuilt
      refine ⟨hbuilt.sound, hbuilt.id_lt, fun hinput hcarries v hv => hbuilt.value _ hinput v ?_⟩
      exact hop.eval _ _ _ _ (fun i j hij v hv => h.value hinput hcarries hij hv) v hv
  refine ⟨hnew.1, by simp [h.length], fun j hj => ?_, fun {_ _} hinput hcarries {i j v} hj hv => ?_⟩
  · rcases List.mem_append.1 hj with hj | hj
    · exact (h.id_lt j hj).trans_le hext.length_le
    · rw [List.mem_singleton.1 hj]
      exact hnew.2.1
  · have hinput := hext.booleanInputs_iff.1 hinput
    rcases resultAt_concat hv with ⟨hi, hearlier⟩ | ⟨rfl, hlast⟩
    · rw [List.getElem?_append_left (by rwa [h.length])] at hj
      rw [hext.evaluate (h.id_lt j (List.mem_of_getElem? hj))]
      exact h.value hinput hcarries hj hearlier
    · rw [← h.length, List.getElem?_concat_length, Option.some.injEq] at hj
      rw [← hj]
      exact hnew.2.2 hinput hcarries v hlast

theorem Tracks.loop {nodes rest : List Node} {ids' : List ℕ} (h : Tracks map arena ids nodes)
    (hloop : canonicalLoop map rest arena ids = some (final, ids')) (hsize : final.terms.length ≤ maxId + 1) :
    Tracks map final ids' (nodes ++ rest) := by
  induction rest generalizing arena ids nodes with
  | nil =>
    obtain ⟨rfl, rfl⟩ := Prod.mk.inj (Option.some.inj hloop)
    rwa [List.append_nil]
  | cons node rest ih =>
    obtain ⟨⟨out, id⟩, hnode, hrest⟩ := Option.bind_eq_some_iff.1 hloop
    have hout := h.step hnode ((canonicalLoop_extends hrest).length_le.trans hsize)
    have hall := ih hout hrest
    rwa [List.append_assoc, List.singleton_append] at hall

theorem canonical_tracks {nodes : List Node} (harena : arena.Sound) (h : canonical arena nodes map = some (out, ids))
    (hsize : out.terms.length ≤ maxId + 1) : Tracks map out ids nodes := by
  have hstart : Tracks map arena [] [] := ⟨harena, rfl, by simp, fun {_ _} _ _ {i id v} hid _ => absurd hid (by simp)⟩
  exact hstart.loop h hsize

end Canonical

/-! ### Selection terms -/

/-- the aggregate's case numbers mapped to the leaf's -/
abbrev Cases := I128 → Option I128

/-- the recursion of `same_selection`, with fuel -/
def sameSelectionFuel (arena : Arena) : ℕ → ℕ → ℕ → Cases → Bool × Cases
  | 0, _, _, cases => (false, cases)
  | fuel + 1, aggregate, leaf, cases =>
    match arena.terms[aggregate]?, arena.terms[leaf]? with
    | some (.int mine), some (.int theirs) =>
      let held := (cases mine).getD theirs
      (decide (held = theirs), Function.update cases mine (some held))
    | some (.select condition a b), some (.select theirs a' b') =>
      if condition = theirs then
        let (accepted, cases) := sameSelectionFuel arena fuel a a' cases
        if accepted then sameSelectionFuel arena fuel b b' cases else (false, cases)
      else (false, cases)
    | _, _ => (false, cases)

/-- operands are earlier terms, so the id bounds the recursion -/
def sameSelection (arena : Arena) (aggregate leaf : ℕ) (cases : Cases) : Bool × Cases :=
  sameSelectionFuel arena (aggregate + 1) aggregate leaf cases

section Selection

variable {arena : Arena} {input : Key → Option I128} {cases cases' : Cases} {aggregate leaf : ℕ}

theorem sameSelectionFuel_eq (h : arena.Sound) {fuel : ℕ} (hfuel : aggregate < fuel) (leaf : ℕ) (cases : Cases) :
    sameSelectionFuel arena fuel aggregate leaf cases = sameSelection arena aggregate leaf cases := by
  have hall : ∀ n m aggregate leaf cases, aggregate < n → aggregate < m →
      sameSelectionFuel arena n aggregate leaf cases = sameSelectionFuel arena m aggregate leaf cases := by
    intro n
    induction n with
    | zero => exact fun _ _ _ _ hn => absurd hn (Nat.not_lt_zero _)
    | succ n ih =>
      intro m aggregate leaf cases hn hm
      cases m with
      | zero => exact absurd hm (Nat.not_lt_zero _)
      | succ m =>
        unfold sameSelectionFuel
        split
        · rfl
        · rename_i condition a b theirs a' b' hterm _
          have ha := h.earlier hterm a (by simp [Op.operands])
          have hb := h.earlier hterm b (by simp [Op.operands])
          rw [ih m a a' cases (by omega) (by omega)]
          split_ifs with hcondition
          · dsimp only
            split_ifs
            · exact ih m b b' _ (by omega) (by omega)
            · rfl
          · rfl
        · rfl
  exact hall _ _ _ _ _ hfuel (Nat.lt_succ_self _)

theorem sameSelection_select (h : arena.Sound) {c a b theirs a' b' : ℕ}
    (ht : arena.terms[aggregate]? = some (.select c a b)) (hl : arena.terms[leaf]? = some (.select theirs a' b')) :
    sameSelection arena aggregate leaf cases = if c = theirs then
        if (sameSelection arena a a' cases).1 then sameSelection arena b b' (sameSelection arena a a' cases).2
        else (false, (sameSelection arena a a' cases).2)
      else (false, cases) := by
  have ha := h.earlier ht a (by simp [Op.operands])
  have hb := h.earlier ht b (by simp [Op.operands])
  rw [sameSelection, sameSelectionFuel, ht, hl]
  dsimp only
  rw [sameSelectionFuel_eq h ha, sameSelectionFuel_eq h hb]

/-- **Selections.** An accepted pair chooses corresponding cases, and the comparison keeps the cases it was given. -/
theorem sameSelection_accepted (h : arena.Sound) (haccepted : sameSelection arena aggregate leaf cases = (true, cases')) :
    (∀ k w, cases k = some w → cases' k = some w) ∧
    ∀ input v w, arena.evaluate input aggregate = some v → arena.evaluate input leaf = some w →
      cases' v = some w := by
  induction aggregate using Nat.strong_induction_on generalizing leaf cases cases' with
  | _ aggregate ih =>
    have hterms : (∃ mine theirs, arena.terms[aggregate]? = some (.int mine) ∧ arena.terms[leaf]? = some (.int theirs)) ∨
        ∃ c a b theirs a' b', arena.terms[aggregate]? = some (.select c a b) ∧
          arena.terms[leaf]? = some (.select theirs a' b') := by
      rw [sameSelection, sameSelectionFuel] at haccepted
      split at haccepted
      · rename_i mine theirs ht hl
        exact .inl ⟨mine, theirs, ht, hl⟩
      · rename_i c a b theirs a' b' ht hl
        exact .inr ⟨c, a, b, theirs, a', b', ht, hl⟩
      · exact absurd (congrArg Prod.fst haccepted) Bool.false_ne_true
    rcases hterms with ⟨mine, theirs, ht, hl⟩ | ⟨c, a, b, theirs, a', b', ht, hl⟩
    · rw [sameSelection, sameSelectionFuel, ht, hl, Prod.mk.injEq, decide_eq_true_iff] at haccepted
      obtain ⟨hheld, rfl⟩ := haccepted
      rw [hheld]
      refine ⟨fun k w hk => ?_, fun input v w hv hw => ?_⟩
      · by_cases hkey : k = mine
        · subst hkey
          rw [hk] at hheld
          rw [Function.update_self, ← hheld]
          rfl
        · rw [Function.update_of_ne hkey, hk]
      · rw [h.evaluate_eq ht] at hv
        rw [h.evaluate_eq hl] at hw
        rw [← Option.some.inj hv, ← Option.some.inj hw, Function.update_self]
    · rw [sameSelection_select h ht hl] at haccepted
      split_ifs at haccepted with hcondition hfirst
      · subst hcondition
        have hlt (j : ℕ) (hj : j = a ∨ j = b) : j < aggregate := by
          rcases hj with rfl | rfl <;> exact h.earlier ht _ (by simp [Op.operands])
        obtain ⟨hkeepA, hcaseA⟩ := ih a (hlt a (.inl rfl)) (Prod.ext hfirst rfl)
        obtain ⟨hkeepB, hcaseB⟩ := ih b (hlt b (.inr rfl)) haccepted
        refine ⟨fun k w hk => hkeepB k w (hkeepA k w hk), fun input v w hv hw => ?_⟩
        rw [h.evaluate_eq ht] at hv
        rw [h.evaluate_eq hl] at hw
        simp only [Op.eval, Option.bind_eq_bind, Option.bind_eq_some_iff, Option.some.injEq] at hv hw
        obtain ⟨p, hp, va, hva, vb, hvb, rfl⟩ := hv
        obtain ⟨p', hp', wa, hwa, wb, hwb, rfl⟩ := hw
        obtain rfl : p = p' := Option.some.inj (hp.symm.trans hp')
        split_ifs
        · exact hkeepB _ _ (hcaseA input va wa hva hwa)
        · exact hcaseB input vb wb hvb hwb
      · exact absurd (congrArg Prod.fst haccepted) Bool.false_ne_true
      · exact absurd (congrArg Prod.fst haccepted) Bool.false_ne_true

end Selection

/-! ### Intervals -/

/-- an inclusive interval -/
abbrev Interval := I128 × I128

def Within (v : I128) (i : Interval) : Prop := i.1.val ≤ v.val ∧ v.val ≤ i.2.val

def minimum (a b : I128) : I128 := if a.val ≤ b.val then a else b

def maximum (a b : I128) : I128 := if a.val ≤ b.val then b else a

/-- both ends lie in `i128::MIN..=i128::MAX` -/
def fits (i : Interval) : Bool :=
  decide ((-2 ^ 127 ≤ i.1.val ∧ i.1.val ≤ 2 ^ 127 - 1) ∧ -2 ^ 127 ≤ i.2.val ∧ i.2.val ≤ 2 ^ 127 - 1)

/-- the interval of one node, over those of the nodes before it -/
def interval (domains : List Interval) (get : ℕ → Option Interval) : Node → Option Interval
  | .input index => domains[index]?
  | .int value => some (value, value)
  | .bool value => some (ofBool value, ofBool value)
  | .add a b => Option.filter fits do
    let (al, ah) ← get a
    let (bl, bh) ← get b
    let low ← Finite.checkedAdd al bl
    let high ← Finite.checkedAdd ah bh
    some (low, high)
  | .sub a b => Option.filter fits do
    let (al, ah) ← get a
    let (bl, bh) ← get b
    let low ← Finite.checkedSub al bh
    let high ← Finite.checkedSub ah bl
    some (low, high)
  | .eq a b | .lt a b | .and a b => do
    let _ ← get a
    let _ ← get b
    some (ofBool false, ofBool true)
  | .not a => do
    let _ ← get a
    some (ofBool false, ofBool true)
  | .select c a b => do
    let _ ← get c
    let (al, ah) ← get a
    let (bl, bh) ← get b
    some (minimum al bl, maximum ah bh)

def intervals (nodes : List Node) (domains : List Interval) : List (Option Interval) := scan (interval domains) nodes

section Intervals

variable {domains : List Interval} {x : ℕ → Option I128}

theorem within_ofBool (b : Bool) : Within (ofBool b) (ofBool false, ofBool true) := by
  cases b <;> simp [Within]

theorem narrow_within {z : ℤ} {low high : I128} (hlow : low.val ≤ z) (hhigh : z ≤ high.val) :
    ∃ v, Finite.narrow z = some v ∧ Within v (low, high) :=
  ⟨⟨z, low.lo.trans hlow, hhigh.trans_lt high.hi⟩, Finite.narrow_eq_some.2 rfl, hlow, hhigh⟩

theorem interval_sound (hx : ∀ index i, domains[index]? = some i → ∃ v, x index = some v ∧ Within v i)
    {get : ℕ → Option Interval} {get' : ℕ → Option I128} (hget : ∀ j i, get j = some i → ∃ v, get' j = some v ∧ Within v i)
    {node : Node} {i : Interval} (hi : interval domains get node = some i) :
    ∃ v, node.eval x get' = some v ∧ Within v i := by
  cases node with
  | input index => exact hx index i hi
  | int value =>
    cases hi
    exact ⟨value, rfl, le_rfl, le_rfl⟩
  | bool value =>
    cases hi
    exact ⟨ofBool value, rfl, le_rfl, le_rfl⟩
  | add a b =>
    simp only [interval, Option.filter_eq_some_iff, Option.bind_eq_bind, Option.bind_eq_some_iff, Option.some.injEq] at hi
    obtain ⟨⟨⟨al, ah⟩, ha, ⟨bl, bh⟩, hb, low, hlow, high, hhigh, rfl⟩, -⟩ := hi
    obtain ⟨u, hu, hul, huh⟩ := hget a _ ha
    obtain ⟨w, hw, hwl, hwh⟩ := hget b _ hb
    have hlow := Finite.narrow_eq_some.1 hlow
    have hhigh := Finite.narrow_eq_some.1 hhigh
    dsimp only at hul huh hwl hwh hlow hhigh
    obtain ⟨v, hv, hwithin⟩ := @narrow_within (u.val + w.val) low high (by omega) (by omega)
    refine ⟨v, ?_, hwithin⟩
    simp only [Op.eval, hu, hw, Option.bind_eq_bind, Option.bind_some]
    exact hv
  | sub a b =>
    simp only [interval, Option.filter_eq_some_iff, Option.bind_eq_bind, Option.bind_eq_some_iff, Option.some.injEq] at hi
    obtain ⟨⟨⟨al, ah⟩, ha, ⟨bl, bh⟩, hb, low, hlow, high, hhigh, rfl⟩, -⟩ := hi
    obtain ⟨u, hu, hul, huh⟩ := hget a _ ha
    obtain ⟨w, hw, hwl, hwh⟩ := hget b _ hb
    have hlow := Finite.narrow_eq_some.1 hlow
    have hhigh := Finite.narrow_eq_some.1 hhigh
    dsimp only at hul huh hwl hwh hlow hhigh
    obtain ⟨v, hv, hwithin⟩ := @narrow_within (u.val - w.val) low high (by omega) (by omega)
    refine ⟨v, ?_, hwithin⟩
    simp only [Op.eval, hu, hw, Option.bind_eq_bind, Option.bind_some]
    exact hv
  | eq a b | lt a b | and a b =>
    simp only [interval, Option.bind_eq_bind, Option.bind_eq_some_iff, Option.some.injEq] at hi
    obtain ⟨_, ha, _, hb, rfl⟩ := hi
    obtain ⟨u, hu, -⟩ := hget a _ ha
    obtain ⟨w, hw, -⟩ := hget b _ hb
    simp only [Op.eval, hu, hw, Option.bind_eq_bind, Option.bind_some]
    exact ⟨_, rfl, within_ofBool _⟩
  | not a =>
    simp only [interval, Option.bind_eq_bind, Option.bind_eq_some_iff, Option.some.injEq] at hi
    obtain ⟨_, ha, rfl⟩ := hi
    obtain ⟨u, hu, -⟩ := hget a _ ha
    simp only [Op.eval, hu, Option.bind_eq_bind, Option.bind_some]
    exact ⟨_, rfl, within_ofBool _⟩
  | select c a b =>
    simp only [interval, Option.bind_eq_bind, Option.bind_eq_some_iff, Option.some.injEq] at hi
    obtain ⟨_, hc, ⟨al, ah⟩, ha, ⟨bl, bh⟩, hb, rfl⟩ := hi
    obtain ⟨p, hp, -⟩ := hget c _ hc
    obtain ⟨u, hu, hul, huh⟩ := hget a _ ha
    obtain ⟨w, hw, hwl, hwh⟩ := hget b _ hb
    simp only [Op.eval, hp, hu, hw, Option.bind_eq_bind, Option.bind_some]
    refine ⟨_, rfl, ?_, ?_⟩
    · dsimp only [minimum] at hul hwl ⊢
      split_ifs <;> omega
    · dsimp only [maximum] at huh hwh ⊢
      split_ifs <;> omega

/-- **Intervals.** A node with an interval cannot fail, and its value lies there. -/
theorem intervals_sound (hx : ∀ index i, domains[index]? = some i → ∃ v, x index = some v ∧ Within v i)
    {nodes : List Node} {j : ℕ} {i : Interval} (hi : resultAt (interval domains) nodes j = some i) :
    ∃ v, value x nodes j = some v ∧ Within v i := by
  induction nodes using List.reverseRecOn generalizing j i with
  | nil => exact absurd hi (by simp [resultAt, scan])
  | append_singleton nodes node ih =>
    rcases resultAt_concat hi with ⟨hj, hearlier⟩ | ⟨rfl, hlast⟩
    · obtain ⟨v, hv, hwithin⟩ := ih hearlier
      exact ⟨v, (resultAt_extend (List.prefix_append _ _) hj).trans hv, hwithin⟩
    · obtain ⟨v, hv, hwithin⟩ := interval_sound hx (fun _ _ => ih) hlast
      exact ⟨v, resultAt_last.trans hv, hwithin⟩

end Intervals

/-! ### The arena over its whole history -/

/-- a program whose canonical terms were made while the arena grew to `final` -/
structure Canonicalized (booleanInputs : Finset Key) (final : Arena) where
  arena : Arena
  nodes : List Node
  map : InputMap
  out : Arena
  ids : List ℕ
  earlier : Arena.Steps (.new booleanInputs) arena
  made : canonical arena nodes map = some (out, ids)
  later : Arena.Steps out final

/-- the inputs of a program: each Boolean input is 0 or 1, the mapped terms carry the values, no node overflows -/
structure Valuation (map : InputMap) (nodes : List Node) (booleanInputs : Finset Key) (input : Key → Option I128)
    (x : ℕ → Option I128) : Prop where
  booleans : ∀ key ∈ booleanInputs, ∀ v, input key = some v → IsBit v
  carries : map.Carries input x
  defined : ∀ i < nodes.length, value x nodes i ≠ none

theorem Canonicalized.values {booleanInputs : Finset Key} {final : Arena} (P : Canonicalized booleanInputs final)
    (hsize : final.terms.length ≤ maxId + 1) {input : Key → Option I128} {x : ℕ → Option I128}
    (h : Valuation P.map P.nodes booleanInputs input x) :
    P.ids.length = P.nodes.length ∧
    ∀ i id, P.ids[i]? = some id → ∃ v, value x P.nodes i = some v ∧ final.evaluate input id = some v := by
  have hout := P.later.extends.length_le.trans hsize
  have harena := P.earlier.sound (Arena.new_sound booleanInputs) ((canonicalLoop_extends P.made).length_le.trans hout)
  have htracks := canonical_tracks harena P.made hout
  have hbooleans : P.out.BooleanInputs input := by
    rw [(canonicalLoop_extends P.made).booleanInputs_iff, P.earlier.extends.booleanInputs_iff]
    exact h.booleans
  refine ⟨htracks.length, fun i id hid => ?_⟩
  have hi : i < P.nodes.length := htracks.length ▸ (List.getElem?_eq_some_iff.1 hid).1
  obtain ⟨v, hv⟩ := Option.ne_none_iff_exists'.1 (h.defined i hi)
  refine ⟨v, hv, ?_⟩
  rw [P.later.extends.evaluate (htracks.id_lt id (List.mem_of_getElem? hid))]
  exact htracks.value hbooleans h.carries hid hv

/-- **Canonical terms.** While the arena holds at most `2 ^ 32` terms, terms and ids correspond, flags are right, every
program of its history has the values of its canonical terms, so that equal ids mean equal values, and accepted
selections choose corresponding cases; the interval analysis is sound. -/
theorem canonical_terms (booleanInputs : Finset Key) :
    (∀ final : Arena, Arena.Steps (.new booleanInputs) final → final.terms.length ≤ 2 ^ 32 →
      (∀ t id, final.index t = some id ↔ final.terms[id]? = some t) ∧
      (∀ input, final.BooleanInputs input → ∀ id v, final.boolean id = true → final.evaluate input id = some v →
        IsBit v) ∧
      (∀ (P : Canonicalized booleanInputs final) input x, Valuation P.map P.nodes booleanInputs input x →
        P.ids.length = P.nodes.length ∧
        ∀ i id, P.ids[i]? = some id → ∃ v, value x P.nodes i = some v ∧ final.evaluate input id = some v) ∧
      (∀ (P Q : Canonicalized booleanInputs final) input x y, Valuation P.map P.nodes booleanInputs input x →
        Valuation Q.map Q.nodes booleanInputs input y →
        ∀ i j id, P.ids[i]? = some id → Q.ids[j]? = some id → value x P.nodes i = value y Q.nodes j) ∧
      ∀ aggregate leaf cases cases', sameSelection final aggregate leaf cases = (true, cases') →
        ∀ input v w, final.evaluate input aggregate = some v → final.evaluate input leaf = some w →
          cases' v = some w) ∧
    ∀ (nodes : List Node) (domains : List Interval) (x : ℕ → Option I128),
      (∀ index i, domains[index]? = some i → ∃ v, x index = some v ∧ Within v i) →
      (∀ i ∈ intervals nodes domains, i ≠ none) →
      ∀ j < nodes.length, ∃ v i, (intervals nodes domains)[j]? = some (some i) ∧ value x nodes j = some v ∧
        Within v i := by
  refine ⟨fun final hsteps hsize => ?_, fun nodes domains x hx hknown j hj => ?_⟩
  · have hsound := hsteps.sound (Arena.new_sound booleanInputs) hsize
    refine ⟨hsound.index_iff, fun input hinput id v hb hv => hsound.isBit hinput hb hv,
      fun P input x h => P.values hsize h, fun P Q input x y hx hy i j id hi hj => ?_,
      fun aggregate leaf cases cases' haccepted => (sameSelection_accepted hsound haccepted).2⟩
    obtain ⟨v, hv, hid⟩ := (P.values hsize hx).2 i id hi
    obtain ⟨w, hw, hid'⟩ := (Q.values hsize hy).2 j id hj
    rw [hv, hw, ← hid, hid']
  · have hlen : j < (intervals nodes domains).length := by rwa [intervals, length_scan]
    obtain ⟨i, hi⟩ := Option.ne_none_iff_exists'.1 (hknown _ (List.getElem_mem hlen))
    have hget : (intervals nodes domains)[j]? = some (some i) := by rw [List.getElem?_eq_getElem hlen, hi]
    obtain ⟨v, hv, hwithin⟩ := intervals_sound hx (show resultAt (interval domains) nodes j = some i by
      rw [resultAt, ← intervals, hget]; rfl)
    exact ⟨v, i, hget, hv, hwithin⟩

/-! ### Beyond the range of the ids -/

def numeral (n : ℕ) : I128 := ⟨(n % 2 ^ 127 : ℕ), by omega, by omega⟩

theorem numeral_ne {m n : ℕ} (hm : m < 2 ^ 127) (hn : n < 2 ^ 127) (hne : m ≠ n) : numeral m ≠ numeral n := by
  intro h
  have hval : (numeral m).val = (numeral n).val := by rw [h]
  rw [numeral, numeral, Int.natCast_inj, Nat.mod_eq_of_lt hm, Nat.mod_eq_of_lt hn] at hval
  exact hne hval

/-- a program of distinct constants, and a map for its inputs, of which it has none -/
def constants (n : ℕ) : List Node := (List.range' 0 n).map fun k => .int (numeral k)

def noInputs : InputMap := ⟨fun _ _ => none, by simp, by simp⟩

theorem canonicalLoop_constants {k n : ℕ} (hn : k + n ≤ 2 ^ 127) {arena : Arena} (hlength : arena.terms.length = k)
    (hfresh : ∀ j, k ≤ j → j < 2 ^ 127 → arena.index (.int (numeral j)) = none) :
    ∃ out, canonicalLoop noInputs ((List.range' k n).map fun k => .int (numeral k)) arena
      ((List.range' 0 k).map fun k => min k maxId) = some (out, (List.range' 0 (k + n)).map fun k => min k maxId) := by
  induction n generalizing k arena with
  | zero => exact ⟨arena, rfl⟩
  | succ n ih =>
    have hindex := hfresh k le_rfl (by omega)
    have hids : ((List.range' 0 k).map fun k => min k maxId) ++ [min k maxId] =
        (List.range' 0 (k + 1)).map fun k => min k maxId := by
      rw [List.range'_concat, List.map_append, List.map_singleton, zero_add, one_mul]
    have hnode : canonicalNode noInputs arena ((List.range' 0 k).map fun k => min k maxId) (.int (numeral k)) =
        some ((arena.intern (.int (numeral k))).1, min k maxId) := by
      rw [canonicalNode, Arena.intern, hindex, Arena.nextId, hlength]
    have hnext : (arena.intern (.int (numeral k))).1.terms.length = k + 1 ∧
        ∀ j, k + 1 ≤ j → j < 2 ^ 127 → (arena.intern (.int (numeral k))).1.index (.int (numeral j)) = none := by
      rw [Arena.intern, hindex]
      refine ⟨by simp [hlength], fun j hj hj' => ?_⟩
      have hne := numeral_ne hj' (by omega : k < 2 ^ 127) (by omega)
      exact (Function.update_of_ne (fun h => hne (Op.int.inj h)) _ _).trans (hfresh j (by omega) hj')
    obtain ⟨out, hout⟩ := ih (by omega) hnext.1 hnext.2
    refine ⟨out, ?_⟩
    rw [List.range'_succ, List.map_cons, canonicalLoop, hnode, Option.bind_eq_bind, Option.bind_some]
    dsimp only
    rw [hids, hout, add_assoc, add_comm 1 n]

theorem value_constants {n i : ℕ} (hi : i < n) (x : ℕ → Option I128) : value x (constants n) i = some (numeral i) := by
  have hget : (constants n)[i]? = some (.int (numeral i)) := by
    rw [constants, List.getElem?_map, List.getElem?_range' hi]
    simp
  rw [value_eq hget (by simp [Op.operands])]
  rfl

/-- one constant more than the ids can tell apart: the last two constants share an id -/
theorem canonical_ids_collide :
    ∃ out ids id, canonical (.new ∅) (constants (2 ^ 32 + 1)) noInputs = some (out, ids) ∧
      ids[2 ^ 32 - 1]? = some id ∧ ids[2 ^ 32]? = some id ∧
      ∀ x, value x (constants (2 ^ 32 + 1)) (2 ^ 32 - 1) ≠ value x (constants (2 ^ 32 + 1)) (2 ^ 32) := by
  obtain ⟨out, hout⟩ := @canonicalLoop_constants 0 (2 ^ 32 + 1) (by norm_num) (.new ∅) rfl fun _ _ _ => rfl
  refine ⟨out, _, maxId, hout, ?_, ?_, fun x => ?_⟩
  · rw [List.getElem?_map, List.getElem?_range' (by norm_num)]
    rfl
  · rw [List.getElem?_map, List.getElem?_range' (by norm_num)]
    rfl
  · rw [value_constants (by norm_num), value_constants (by norm_num)]
    exact fun h => numeral_ne (by norm_num) (by norm_num) (by norm_num) (Option.some.inj h)

/-! ### Two programs of one arena -/

/-- the inputs of a program, interned as command fields -/
def internCommand (arena : Arena) (index : ℕ) : Option (Arena × ℕ) :=
  some (arena.build (.input (.command (UInt16.ofNat index))))

theorem internCommand_steps {arena : Arena} {index : ℕ} {out : Arena} {id : ℕ}
    (h : internCommand arena index = some (out, id)) : Arena.Steps arena out := by
  have hstart : Arena.Steps arena arena := .refl
  have hstep := hstart.build (.input (.command (UInt16.ofNat index))) (by simp [Op.operands])
  rwa [Option.some.inj h] at hstep

theorem internCommand_sound {arena : Arena} {index : ℕ} {out : Arena} {id : ℕ} (harena : arena.Sound)
    (hsize : out.terms.length ≤ maxId + 1) (h : internCommand arena index = some (out, id)) :
    out.Sound ∧ out.terms[id]? = some (.input (.command (UInt16.ofNat index))) := by
  have hintern : arena.intern (.input (.command (UInt16.ofNat index))) = (out, id) := Option.some.inj h
  have hsound := @Arena.intern_sound arena harena (.input (.command (UInt16.ofNat index))) (by simp [Op.operands])
  rw [hintern] at hsound
  exact hsound hsize

theorem internCommand_lt {arena : Arena} {index : ℕ} {out : Arena} {id : ℕ} (harena : arena.Sound)
    (hsize : out.terms.length ≤ maxId + 1) (h : internCommand arena index = some (out, id)) : id < out.terms.length :=
  (List.getElem?_eq_some_iff.1 (internCommand_sound harena hsize h).2).1

def commandInputs : InputMap := ⟨internCommand, @internCommand_steps, @internCommand_lt⟩

theorem commandInputs_carries (input : Key → Option I128) :
    commandInputs.Carries input fun index => input (.command (UInt16.ofNat index)) := by
  intro arena index out id harena hsize h
  obtain ⟨hsound, hget⟩ := internCommand_sound harena hsize h
  rw [hsound.evaluate_eq hget]
  rfl

/-- whether the input is two, with two as a sum -/
def sumProgram : List Node := [.input 0, .int (numeral 1), .add 1 1, .eq 0 2]

/-- whether the input is two -/
def twoProgram : List Node := [.int (numeral 2), .input 0, .eq 1 0]

/-- the arena after the first program -/
def sumArena : Arena :=
  ((((Arena.new ∅).build (.input (.command 0))).1.build (.int (numeral 1))).1.build (.add 1 1)).1.build (.eq 0 2) |>.1

theorem sumArena_steps : Arena.Steps (.new ∅) sumArena := by
  refine .build (.build (.build (.build .refl _ ?_) _ ?_) _ ?_) _ ?_ <;> decide

theorem sumProgram_made : canonical (.new ∅) sumProgram commandInputs = some (sumArena, [0, 1, 2, 3]) := rfl

theorem twoProgram_made : canonical sumArena twoProgram commandInputs = some (sumArena, [2, 0, 3]) := rfl

def sumCanonicalized : Canonicalized ∅ sumArena :=
  ⟨.new ∅, sumProgram, commandInputs, sumArena, [0, 1, 2, 3], .refl, sumProgram_made, .refl⟩

def twoCanonicalized : Canonicalized ∅ sumArena :=
  ⟨sumArena, twoProgram, commandInputs, sumArena, [2, 0, 3], sumArena_steps, twoProgram_made, .refl⟩

/-- every input is two -/
def allTwo (_ : Key) : Option I128 := some (numeral 2)

theorem sumProgram_valuation :
    Valuation commandInputs sumProgram ∅ allTwo fun index => allTwo (.command (UInt16.ofNat index)) :=
  ⟨by simp, commandInputs_carries allTwo, by decide⟩

theorem twoProgram_valuation :
    Valuation commandInputs twoProgram ∅ allTwo fun index => allTwo (.command (UInt16.ofNat index)) :=
  ⟨by simp, commandInputs_carries allTwo, by decide⟩

/-- the two programs share their last id, and so the value of their last nodes -/
theorem canonical_terms_shared :
    sumCanonicalized.ids[3]? = some 3 ∧ twoCanonicalized.ids[2]? = some 3 ∧
      value (fun index => allTwo (.command (UInt16.ofNat index))) sumProgram 3 =
        value (fun index => allTwo (.command (UInt16.ofNat index))) twoProgram 2 ∧
      ∃ v, value (fun index => allTwo (.command (UInt16.ofNat index))) sumProgram 3 = some v ∧
        sumArena.evaluate allTwo 3 = some v := by
  obtain ⟨_, _, hvalues, hequal, _⟩ := (canonical_terms ∅).1 sumArena sumArena_steps (by decide)
  exact ⟨rfl, rfl, hequal sumCanonicalized twoCanonicalized _ _ _ sumProgram_valuation twoProgram_valuation 3 2 3 rfl rfl,
    (hvalues sumCanonicalized _ _ sumProgram_valuation).2 3 3 rfl⟩

end ZenoFcis.Contract.Terms
