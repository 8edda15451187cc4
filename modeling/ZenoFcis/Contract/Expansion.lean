/-
Expansion of rule variables (`expand_with` of `zeno-fcis-contract/src/internals/expr.rs`).

A name with a definition is replaced by the expansion of its definition; a name in progress that comes up again is
refused. An expansion is a derivation with its number of visits and its height (`Expanded`), the two quantities that the
limits of the authoring boundary are about. Every expansion ends, since each definition entered is one that is not in
progress. It derives exactly when no name that the tree reaches refers to itself.

Result: `expand_exact`.
-/
import ZenoFcis.Contract.Eager
import ZenoFcis.Lib.Definitions
import ZenoFcis.Lib.Except

namespace ZenoFcis.Contract.Expr

open Relation
open Lib.Definitions Lib.Except

/-- the definitions of the rule variables -/
abbrev Variables := List (String × Ast)

inductive Refusal where
  | workCap
  | depth
  | selfReference (name : String)
deriving DecidableEq

/-- the rest of the work cap, where there is one -/
abbrev Work := StateT (Option ℕ) (Except Refusal)

def maxWork : ℕ := 65536

def maxNesting : ℕ := 256

def visit (depth : ℕ) : Work Unit := do
  match ← get with
  | none => pure ()
  | some 0 => throw .workCap
  | some (remaining + 1) =>
    set (some remaining)
    if maxNesting < depth then throw .depth

/-- the definitions that are not in progress -/
def idle (definitions : Variables) (stack : List String) : List String := (definitions.map Prod.fst).filter (· ∉ stack)

theorem idle_push {definitions : Variables} {stack : List String} {x : String} {d : Ast}
    (hx : definitions.lookup x = some d) (hstack : x ∉ stack) :
    (idle definitions (x :: stack)).length < (idle definitions stack).length := by
  have hmem : x ∈ definitions.map Prod.fst := by
    obtain ⟨pre, post, hsplit⟩ := List.lookup_eq_some_iff.1 hx
    rw [hsplit.1]
    simp
  have hsub : (idle definitions (x :: stack)).Sublist ((idle definitions stack).filter (· ≠ x)) := by
    rw [idle, idle, List.filter_filter]
    apply List.monotone_filter_right
    intro y hy
    simp only [List.mem_cons, not_or, decide_eq_true_eq, decide_not, Bool.and_eq_true, Bool.not_eq_true'] at hy ⊢
    simpa using hy
  refine hsub.length_le.trans_lt ?_
  apply List.length_filter_lt_length_iff_exists.2
  refine ⟨x, List.mem_filter.2 ⟨hmem, decide_eq_true hstack⟩, ?_⟩
  simp

def expandWith (definitions : Variables) (stack : List String) (depth : ℕ) (a : Ast) : Work Ast := do
  visit depth
  match ha : a.name? with
  | some x =>
    match hx : definitions.lookup x with
    | some definition =>
      if hstack : x ∈ stack then throw (.selfReference x)
      else expandWith definitions (x :: stack) (depth + 1) definition
    | none => pure a
  | none => do
    let operands ← a.children.attach.mapM fun c => expandWith definitions stack (depth + 1) c.1
    pure (a.withChildren operands)
termination_by ((idle definitions stack).length, sizeOf a)
decreasing_by
  · exact Prod.Lex.left _ _ (idle_push hx hstack)
  · exact Prod.Lex.right _ (Ast.sizeOf_children c.2)

def expandWithLimits (a : Ast) (definitions : Variables) (bounded : Bool) : Except Refusal Ast :=
  ((expandWith definitions [] 0 a).run (if bounded then some maxWork else none)).map Prod.fst

/-- whether a tree uses the syntax that opts into the limits -/
def usesNewArithmetic : Ast → Bool := Ast.fold (fun _ => false) fun a l => match a with
  | .u128 _ | .toI128 _ | .toU128 _ | .scaledMulDiv .. | .repeatMulDiv .. => true
  | _ => l.any id

def expand (a : Ast) (definitions : Variables) : Except Refusal Ast :=
  expandWithLimits a definitions (usesNewArithmetic a || definitions.any fun row => usesNewArithmetic row.2)

/-! ## One visit -/

section Visit

variable {definitions : Variables} {stack : List String} {depth : ℕ} {x : String} {d a : Ast}

/-- a defined name is visited and expanded below its definition -/
theorem expandWith_defined (hx : definitions.lookup x = some d) (hstack : x ∉ stack) :
    expandWith definitions stack depth (.name x) =
      visit depth >>= fun _ => expandWith definitions (x :: stack) (depth + 1) d := by
  rw [expandWith]
  congr 1
  funext u
  split
  · rename_i y hy
    cases hy
    split
    · rename_i e he
      obtain rfl := Option.some.inj (hx.symm.trans he)
      rw [dif_neg hstack]
    · rename_i he
      rw [hx] at he
      cases he
  · rename_i hy
    cases hy

theorem expandWith_again (hx : definitions.lookup x = some d) (hstack : x ∈ stack) :
    expandWith definitions stack depth (.name x) =
      visit depth >>= fun _ => throw (.selfReference x) := by
  rw [expandWith]
  congr 1
  funext u
  split
  · rename_i y hy
    cases hy
    split
    · rw [dif_pos hstack]
    · rename_i he
      rw [hx] at he
      cases he
  · rename_i hy
    cases hy

/-- a free name is visited -/
theorem expandWith_free (hx : definitions.lookup x = none) :
    expandWith definitions stack depth (.name x) = visit depth >>= fun _ => pure (.name x) := by
  rw [expandWith]
  congr 1
  funext u
  split
  · rename_i y hy
    cases hy
    split
    · rename_i e he
      rw [hx] at he
      cases he
    · rfl
  · rename_i hy
    cases hy

/-- a node is visited, then its children -/
theorem expandWith_node (ha : a.name? = none) :
    expandWith definitions stack depth a =
      visit depth >>= fun _ => a.children.mapM (expandWith definitions stack (depth + 1)) >>= fun operands =>
        pure (a.withChildren operands) := by
  rw [expandWith]
  congr 1
  funext u
  split
  · rename_i y hy
    rw [ha] at hy
    cases hy
  · congr 1
    conv_rhs => rw [← List.attach_map_subtype_val a.children, List.mapM_map]
    rfl

theorem run_visit (fuel : Option ℕ) : (visit depth).run fuel = match fuel with
    | none => .ok ((), none)
    | some 0 => .error .workCap
    | some (remaining + 1) => if maxNesting < depth then .error .depth else .ok ((), some remaining) := by
  rcases fuel with _ | _ | remaining
  · rfl
  · rfl
  · change StateT.run (if maxNesting < depth then throw Refusal.depth else pure ()) (some remaining) = _
    by_cases h : maxNesting < depth
    · rw [if_pos h]
      exact (if_pos h).symm
    · rw [if_neg h]
      exact (if_neg h).symm

end Visit

theorem walk (definitions : Variables) {motive : List String → Ast → Prop}
    (defined : ∀ stack x d, definitions.lookup x = some d → x ∉ stack → motive (x :: stack) d → motive stack (.name x))
    (again : ∀ stack x d, definitions.lookup x = some d → x ∈ stack → motive stack (.name x))
    (free : ∀ stack x, definitions.lookup x = none → motive stack (.name x))
    (node : ∀ stack a, a.name? = none → (∀ c ∈ a.children, motive stack c) → motive stack a) (stack : List String)
    (a : Ast) : motive stack a :=
  match ha : a.name? with
  | some x => by
    rw [Ast.name?_eq_some.1 ha]
    exact match hx : definitions.lookup x with
    | some d =>
      if hstack : x ∈ stack then again stack x d hx hstack
      else defined stack x d hx hstack (walk definitions defined again free node (x :: stack) d)
    | none => free stack x hx
  | none => node stack a ha fun c _ => walk definitions defined again free node stack c
termination_by ((idle definitions stack).length, sizeOf a)
decreasing_by
  · exact Prod.Lex.left _ _ (idle_push hx hstack)
  · exact Prod.Lex.right _ (Ast.sizeOf_children ‹_›)

/-! ## Derivations -/

/-- one operand with its expansion -/
structure Row where
  source : Ast
  result : Ast
  visits : ℕ
  height : ℕ

/-- an expansion with its number of visits and its height -/
inductive Expanded (definitions : Variables) : Ast → Ast → ℕ → ℕ → Prop
  | defined {x : String} {d b : Ast} {visits height : ℕ} (hx : definitions.lookup x = some d)
      (hd : Expanded definitions d b visits height) : Expanded definitions (.name x) b (visits + 1) (height + 1)
  | free {x : String} (hx : definitions.lookup x = none) : Expanded definitions (.name x) (.name x) 1 0
  | node {a : Ast} {rows : List Row} (ha : a.name? = none) (hrows : a.children = rows.map Row.source)
      (h : ∀ row ∈ rows, Expanded definitions row.source row.result row.visits row.height) :
      Expanded definitions a (a.withChildren (rows.map Row.result)) ((rows.map Row.visits).sum + 1)
        ((rows.map fun row => row.height + 1).foldr max 0)

/-- the limits, where there are any -/
def Within (fuel : Option ℕ) (depth visits height : ℕ) : Prop :=
  ∀ cap, fuel = some cap → visits ≤ cap ∧ depth + height ≤ maxNesting

def spend (fuel : Option ℕ) (visits : ℕ) : Option ℕ := fuel.map (· - visits)

/-- fuel is spent bit by bit -/
theorem spend_spend (fuel : Option ℕ) (m n : ℕ) : spend (spend fuel m) n = spend fuel (m + n) := by
  cases fuel with
  | none => rfl
  | some cap => exact congrArg some (Nat.sub_sub cap m n)

theorem run_visit_ok {depth : ℕ} {fuel fuel' : Option ℕ} :
    (visit depth).run fuel = .ok ((), fuel') ↔ Within fuel depth 1 0 ∧ fuel' = spend fuel 1 := by
  rw [run_visit]
  rcases fuel with _ | _ | remaining
  · exact ⟨fun h => ⟨nofun, (Prod.mk.inj (Except.ok.inj h)).2.symm⟩, fun h => by rw [h.2]; rfl⟩
  · exact iff_of_false nofun fun h => absurd (h.1 0 rfl).1 (by omega)
  · dsimp only
    split_ifs with hdepth
    · refine iff_of_false nofun fun h => ?_
      have hlimit := (h.1 _ rfl).2
      omega
    · rw [Except.ok.injEq, Prod.mk.injEq, eq_comm (a := some remaining)]
      refine ⟨fun h => ⟨?_, h.2⟩, fun h => ⟨rfl, h.2⟩⟩
      intro cap hcap
      cases hcap
      omega

theorem foldr_max_le {l : List ℕ} {n : ℕ} : l.foldr max 0 ≤ n ↔ ∀ m ∈ l, m ≤ n := by
  induction l with
  | nil => simp
  | cons m l ih => rw [List.foldr_cons, max_le_iff, ih, List.forall_mem_cons]

/-- the rows of the operands of a node, within the limits of its operands -/
structure Operands (definitions : Variables) (l bs : List Ast) (depth : ℕ) (fuel fuel' : Option ℕ) (rows : List Row) :
    Prop where
  source : l = rows.map Row.source
  result : bs = rows.map Row.result
  expanded : ∀ row ∈ rows, Expanded definitions row.source row.result row.visits row.height
  within : ∀ cap, fuel = some cap → (rows.map Row.visits).sum ≤ cap ∧ ∀ row ∈ rows, depth + row.height ≤ maxNesting
  spent : fuel' = spend fuel (rows.map Row.visits).sum

theorem within_node {fuel : Option ℕ} {depth : ℕ} {rows : List Row} :
    Within fuel depth ((rows.map Row.visits).sum + 1) ((rows.map fun row => row.height + 1).foldr max 0) ↔
      Within fuel depth 1 0 ∧ ∀ cap, spend fuel 1 = some cap →
        (rows.map Row.visits).sum ≤ cap ∧ ∀ row ∈ rows, depth + 1 + row.height ≤ maxNesting := by
  cases fuel with
  | none => exact iff_of_true nofun ⟨nofun, nofun⟩
  | some cap =>
    have hheights (h : depth ≤ maxNesting) : depth + (rows.map fun row => row.height + 1).foldr max 0 ≤ maxNesting ↔
        ∀ row ∈ rows, depth + 1 + row.height ≤ maxNesting := by
      rw [← Nat.le_sub_iff_add_le' h, foldr_max_le, List.forall_mem_map]
      refine forall₂_congr fun row _ => ?_
      omega
    simp only [Within, spend, Option.map_some, Option.some_inj, forall_eq']
    constructor
    · intro ⟨hvisits, hheight⟩
      have hdepth : depth ≤ maxNesting := by omega
      exact ⟨⟨by omega, hdepth⟩, by omega, (hheights hdepth).1 hheight⟩
    · intro ⟨⟨hone, hdepth⟩, hvisits, hrows⟩
      exact ⟨by omega, (hheights hdepth).2 hrows⟩

section Runs

variable {definitions : Variables} {stack : List String} {depth : ℕ} {l : List Ast}

/-- what an expansion that succeeds derives -/
def Sound (definitions : Variables) (stack : List String) (a : Ast) : Prop :=
  ∀ depth fuel b fuel', (expandWith definitions stack depth a).run fuel = .ok (b, fuel') →
    ∃ visits height, Expanded definitions a b visits height ∧ Within fuel depth visits height ∧ fuel' = spend fuel visits

theorem sound_operands (h : ∀ c ∈ l, Sound definitions stack c) {fuel fuel' : Option ℕ} {bs : List Ast}
    (hrun : (l.mapM (expandWith definitions stack depth)).run fuel = .ok (bs, fuel')) :
    ∃ rows, Operands definitions l bs depth fuel fuel' rows := by
  induction l generalizing fuel bs with
  | nil =>
    cases hrun
    refine ⟨[], rfl, rfl, nofun, fun cap _ => ⟨Nat.zero_le _, nofun⟩, ?_⟩
    cases fuel' <;> rfl
  | cons c l ih =>
    rw [List.mapM_cons, StateT.run_bind] at hrun
    obtain ⟨⟨b, fuel₁⟩, hfirst, hrun⟩ := bind_eq_ok.1 hrun
    rw [StateT.run_bind] at hrun
    obtain ⟨⟨bs', fuel₂⟩, hrest, hrun⟩ := bind_eq_ok.1 hrun
    cases hrun
    obtain ⟨visits, height, hexpanded, hwithin, rfl⟩ := h c List.mem_cons_self depth fuel b fuel₁ hfirst
    obtain ⟨rows, hrows⟩ := ih (fun c' hc' => h c' (List.mem_cons_of_mem _ hc')) hrest
    refine ⟨⟨c, b, visits, height⟩ :: rows, ?_, ?_, ?_, ?_, ?_⟩
    · rw [List.map_cons, ← hrows.source]
    · rw [List.map_cons, ← hrows.result]
    · exact List.forall_mem_cons.2 ⟨hexpanded, hrows.expanded⟩
    · intro cap hcap
      have hfirst := hwithin cap hcap
      have hrest := hrows.within (cap - visits) (by rw [hcap]; rfl)
      rw [List.map_cons, List.sum_cons]
      refine ⟨?_, List.forall_mem_cons.2 ⟨hfirst.2, hrest.2⟩⟩
      have hsum := hrest.1
      change visits + _ ≤ cap
      omega
    · rw [hrows.spent, spend_spend, List.map_cons, List.sum_cons]

theorem sound (stack : List String) (a : Ast) : Sound definitions stack a := by
  induction stack, a using walk definitions with
  | defined stack x d hx hstack ih =>
    intro depth fuel b fuel' hrun
    rw [expandWith_defined hx hstack, StateT.run_bind] at hrun
    obtain ⟨⟨_, fuel₁⟩, hvisit, hrun⟩ := bind_eq_ok.1 hrun
    obtain ⟨hone, rfl⟩ := run_visit_ok.1 hvisit
    obtain ⟨visits, height, hexpanded, hwithin, rfl⟩ := ih _ _ _ _ hrun
    refine ⟨visits + 1, height + 1, .defined hx hexpanded, ?_, ?_⟩
    · intro cap hcap
      have hfirst := hone cap hcap
      have hrest := hwithin (cap - 1) (by rw [hcap]; rfl)
      omega
    · rw [spend_spend, Nat.add_comm]
  | again stack x d hx hstack =>
    intro depth fuel b fuel' hrun
    rw [expandWith_again hx hstack, StateT.run_bind] at hrun
    obtain ⟨_, -, hrun⟩ := bind_eq_ok.1 hrun
    cases hrun
  | free stack x hx =>
    intro depth fuel b fuel' hrun
    rw [expandWith_free hx, StateT.run_bind] at hrun
    obtain ⟨⟨_, fuel₁⟩, hvisit, hrun⟩ := bind_eq_ok.1 hrun
    obtain ⟨hone, rfl⟩ := run_visit_ok.1 hvisit
    cases hrun
    exact ⟨1, 0, .free hx, hone, rfl⟩
  | node stack a ha ih =>
    intro depth fuel b fuel' hrun
    rw [expandWith_node ha, StateT.run_bind] at hrun
    obtain ⟨⟨_, fuel₁⟩, hvisit, hrun⟩ := bind_eq_ok.1 hrun
    obtain ⟨hone, rfl⟩ := run_visit_ok.1 hvisit
    rw [StateT.run_bind] at hrun
    obtain ⟨⟨bs, fuel₂⟩, hoperands, hrun⟩ := bind_eq_ok.1 hrun
    cases hrun
    obtain ⟨rows, hrows⟩ := sound_operands ih hoperands
    rw [hrows.result]
    refine ⟨_, _, .node ha hrows.source hrows.expanded, within_node.2 ⟨hone, hrows.within⟩, ?_⟩
    rw [hrows.spent, spend_spend, Nat.add_comm]

/-! ## Cycles -/

abbrev references (definitions : Variables) : String → String → Prop :=
  Refers (fun x => definitions.lookup x) Ast.names

theorem Expanded.acyclic {a b : Ast} {visits height : ℕ} (h : Expanded definitions a b visits height) :
    ∀ x ∈ a.names, ∀ y, ReflTransGen (references definitions) x y → ¬ TransGen (references definitions) y y := by
  induction h with
  | @defined x d b visits height hx hd ih =>
    intro x' hx' y hreach hcycle
    rw [Ast.names_name, List.mem_singleton] at hx'
    subst hx'
    rcases ReflTransGen.cases_head hreach with rfl | ⟨z, ⟨e, he, hz⟩, hzy⟩
    · obtain ⟨z, ⟨e, he, hz⟩, hzx⟩ := TransGen.head'_iff.1 hcycle
      obtain rfl := Option.some.inj (hx.symm.trans he)
      exact ih z hz _ hzx hcycle
    · obtain rfl := Option.some.inj (hx.symm.trans he)
      exact ih z hz y hzy hcycle
  | @free x hx =>
    intro x' hx' y hreach hcycle
    rw [Ast.names_name, List.mem_singleton] at hx'
    subst hx'
    have hnone : ∀ z, ¬ references definitions x' z := by
      intro z ⟨e, he, _⟩
      cases hx.symm.trans he
    rcases ReflTransGen.cases_head hreach with rfl | ⟨z, hz, _⟩
    · obtain ⟨z, hz, _⟩ := TransGen.head'_iff.1 hcycle
      exact hnone z hz
    · exact hnone z hz
  | @node a rows ha hrows h ih =>
    intro x hx
    obtain ⟨c, hc, hxc⟩ := (Ast.mem_names ha).1 hx
    rw [hrows] at hc
    obtain ⟨row, hrow, rfl⟩ := List.mem_map.1 hc
    exact ih row hrow x hxc

/-- no name of a tree reaches a definition in progress -/
def Clear (definitions : Variables) (stack : List String) (a : Ast) : Prop :=
  ∀ s ∈ stack, ∀ x ∈ a.names, ¬ ReflTransGen (references definitions) x s

theorem complete_operands {rows : List Row} {fuel : Option ℕ}
    (h : ∀ row ∈ rows, ∀ fuel, Within fuel depth row.visits row.height →
      (expandWith definitions stack depth row.source).run fuel = .ok (row.result, spend fuel row.visits))
    (hwithin : ∀ cap, fuel = some cap → (rows.map Row.visits).sum ≤ cap ∧ ∀ row ∈ rows, depth + row.height ≤ maxNesting) :
    ((rows.map Row.source).mapM (expandWith definitions stack depth)).run fuel =
      .ok (rows.map Row.result, spend fuel (rows.map Row.visits).sum) := by
  induction rows generalizing fuel with
  | nil => cases fuel <;> rfl
  | cons row rows ih =>
    rw [List.forall_mem_cons] at h
    have hfirst : Within fuel depth row.visits row.height := by
      intro cap hcap
      have hall := hwithin cap hcap
      rw [List.map_cons, List.sum_cons, List.forall_mem_cons] at hall
      exact ⟨by omega, hall.2.1⟩
    have hrest : ∀ cap, spend fuel row.visits = some cap →
        (rows.map Row.visits).sum ≤ cap ∧ ∀ row ∈ rows, depth + row.height ≤ maxNesting := by
      intro cap hcap
      obtain ⟨all, hall, rfl⟩ := Option.map_eq_some_iff.1 hcap
      have hboth := hwithin all hall
      rw [List.map_cons, List.sum_cons, List.forall_mem_cons] at hboth
      exact ⟨by omega, hboth.2.2⟩
    rw [List.map_cons, List.mapM_cons, StateT.run_bind, h.1 fuel hfirst, ok_bind, StateT.run_bind, ih h.2 hrest, ok_bind,
      spend_spend]
    rfl

theorem Expanded.complete {a b : Ast} {visits height : ℕ} (h : Expanded definitions a b visits height) :
    ∀ stack, Clear definitions stack a → ∀ depth fuel, Within fuel depth visits height →
      (expandWith definitions stack depth a).run fuel = .ok (b, spend fuel visits) := by
  have hvisit : ∀ {depth fuel visits height}, Within fuel depth (visits + 1) height →
      (Expr.visit depth).run fuel = .ok ((), spend fuel 1) := by
    intro depth fuel visits height hwithin
    refine run_visit_ok.2 ⟨fun cap hcap => ?_, rfl⟩
    have hlimits := hwithin cap hcap
    omega
  induction h with
  | @defined x d b visits height hx hd ih =>
    intro stack hclear depth fuel hwithin
    have hstack : x ∉ stack := fun hmem => hclear x hmem x (by simp) .refl
    have hclear' : Clear definitions (x :: stack) d := by
      intro s hs y hy hreach
      have hstep : references definitions x y := ⟨d, hx, hy⟩
      rcases List.mem_cons.1 hs with rfl | hs
      · exact hd.acyclic y hy _ hreach (TransGen.head' hstep hreach)
      · exact hclear s hs x (by simp) (.head hstep hreach)
    rw [expandWith_defined hx hstack, StateT.run_bind, hvisit hwithin, ok_bind, ih _ hclear', spend_spend, Nat.add_comm]
    intro cap hcap
    obtain ⟨all, hall, rfl⟩ := Option.map_eq_some_iff.1 hcap
    have hlimits := hwithin all hall
    omega
  | @free x hx =>
    intro stack hclear depth fuel hwithin
    rw [expandWith_free hx, StateT.run_bind, hvisit hwithin, ok_bind]
    rfl
  | @node a rows ha hrows h ih =>
    intro stack hclear depth fuel hwithin
    have hoperands : ((rows.map Row.source).mapM (expandWith definitions stack (depth + 1))).run (spend fuel 1) =
        .ok (rows.map Row.result, spend (spend fuel 1) (rows.map Row.visits).sum) := complete_operands
      (fun row hrow fuel hrow' => ih row hrow stack (fun s hs x hx => hclear s hs x (by
        rw [Ast.mem_names ha, hrows]
        exact ⟨row.source, List.mem_map_of_mem hrow, hx⟩)) (depth + 1) fuel hrow') (within_node.1 hwithin).2
    rw [expandWith_node ha, StateT.run_bind, hvisit hwithin, ok_bind, StateT.run_bind, hrows, hoperands, ok_bind,
      spend_spend, Nat.add_comm]
    rfl

/-- every definition in progress refers to every name of a tree -/
def Chained (definitions : Variables) (stack : List String) (a : Ast) : Prop :=
  ∀ s ∈ stack, ∀ x ∈ a.names, TransGen (references definitions) s x

theorem error_operand {e : Refusal} (h : (l.mapM (expandWith definitions stack depth)).run none = .error e) :
    ∃ c ∈ l, (expandWith definitions stack depth c).run none = .error e := by
  induction l with
  | nil => cases h
  | cons c l ih =>
    rw [List.mapM_cons, StateT.run_bind] at h
    rcases bind_eq_error.1 h with h | ⟨⟨b, fuel⟩, hfirst, h⟩
    · exact ⟨c, List.mem_cons_self, h⟩
    · obtain ⟨_, _, _, _, rfl⟩ := sound stack c depth none b fuel hfirst
      rw [StateT.run_bind] at h
      rcases bind_eq_error.1 h with h | ⟨_, _, h⟩
      · obtain ⟨c', hc', hrun⟩ := ih h
        exact ⟨c', List.mem_cons_of_mem _ hc', hrun⟩
      · cases h

theorem cyclic_of_error (stack : List String) (a : Ast) : Chained definitions stack a → ∀ depth e,
    (expandWith definitions stack depth a).run none = .error e →
      Cyclic (fun x => definitions.lookup x) Ast.names a := by
  have hvisit : ∀ {depth e}, (visit depth).run none ≠ .error e := by
    intro depth e
    rw [run_visit]
    nofun
  induction stack, a using walk definitions with
  | defined stack x d hx hstack ih =>
    intro hchained depth e hrun
    rw [expandWith_defined hx hstack, StateT.run_bind, run_visit, ok_bind] at hrun
    have hchained' : Chained definitions (x :: stack) d := by
      intro s hs y hy
      have hstep : references definitions x y := ⟨d, hx, hy⟩
      rcases List.mem_cons.1 hs with rfl | hs
      · exact .single hstep
      · exact (hchained s hs x (by simp)).tail hstep
    obtain ⟨y, hy, z, hyz, hz⟩ := ih hchained' _ _ hrun
    exact ⟨x, by simp, z, .head ⟨d, hx, hy⟩ hyz, hz⟩
  | again stack x d hx hstack =>
    intro hchained depth e hrun
    exact ⟨x, by simp, x, .refl, hchained x hstack x (by simp)⟩
  | free stack x hx =>
    intro hchained depth e hrun
    rw [expandWith_free hx, StateT.run_bind, run_visit, ok_bind] at hrun
    cases hrun
  | node stack a ha ih =>
    intro hchained depth e hrun
    rw [expandWith_node ha, StateT.run_bind, run_visit, ok_bind, StateT.run_bind] at hrun
    rcases bind_eq_error.1 hrun with hrun | ⟨_, _, hrun⟩
    · obtain ⟨c, hc, hrun⟩ := error_operand hrun
      have hsub : ∀ x ∈ c.names, x ∈ a.names := fun x hx => (Ast.mem_names ha).2 ⟨c, hc, hx⟩
      obtain ⟨x, hx, hcycle⟩ := ih c hc (fun s hs x hx => hchained s hs x (hsub x hx)) _ _ hrun
      exact ⟨x, hsub x hx, hcycle⟩
    · cases hrun

end Runs

/-! ## Expansions -/

section Expansions

variable {definitions : Variables} {a b : Ast} {visits height : ℕ}

theorem clear_nil : Clear definitions [] a := nofun

theorem rows_unique {rows rows' : List Row} (hsource : rows.map Row.source = rows'.map Row.source)
    (h : ∀ row ∈ rows, ∀ row' ∈ rows', row.source = row'.source → row = row') : rows = rows' := by
  induction rows generalizing rows' with
  | nil => exact (List.map_eq_nil_iff.1 hsource.symm).symm
  | cons row rows ih =>
    cases rows' with
    | nil => cases hsource
    | cons row' rows' =>
      rw [List.map_cons, List.map_cons, List.cons.injEq] at hsource
      rw [h row List.mem_cons_self row' List.mem_cons_self hsource.1]
      refine congrArg _ (ih hsource.2 fun r hr r' hr' heq => ?_)
      exact h r (List.mem_cons_of_mem _ hr) r' (List.mem_cons_of_mem _ hr') heq

section

variable (h : Expanded definitions a b visits height)

include h

theorem Expanded.unique : ∀ {b' visits' height'},
    Expanded definitions a b' visits' height' → b = b' ∧ visits = visits' ∧ height = height' := by
  induction h with
  | defined hx hd ih =>
    intro b' visits' height' h'
    cases h' with
    | defined hx' hd' =>
      obtain rfl := Option.some.inj (hx.symm.trans hx')
      obtain ⟨rfl, rfl, rfl⟩ := ih hd'
      exact ⟨rfl, rfl, rfl⟩
    | free hx' => cases hx.symm.trans hx'
    | node ha => cases ha
  | free hx =>
    intro b' visits' height' h'
    cases h' with
    | defined hx' hd' => cases hx.symm.trans hx'
    | free hx' => exact ⟨rfl, rfl, rfl⟩
    | node ha => cases ha
  | @node a rows ha hrows h ih =>
    intro b' visits' height' h'
    cases h' with
    | defined hx' hd' => cases ha
    | free hx' => cases ha
    | @node _ rows' ha' hrows' h' =>
      obtain rfl : rows = rows' := by
        refine rows_unique (hrows.symm.trans hrows') fun row hrow row' hrow' heq => ?_
        have hexpanded := h' row' hrow'
        rw [← heq] at hexpanded
        obtain ⟨hresult, hvisits, hheight⟩ := ih row hrow hexpanded
        cases row
        cases row'
        cases heq
        cases hresult
        cases hvisits
        cases hheight
        rfl
      exact ⟨rfl, rfl, rfl⟩

omit h in
theorem exists_expanded : (∃ b visits height, Expanded definitions a b visits height) ↔
    ¬ Cyclic (fun x => definitions.lookup x) Ast.names a := by
  constructor
  · intro ⟨b, visits, height, h⟩ ⟨x, hx, y, hreach, hcycle⟩
    exact h.acyclic x hx y hreach hcycle
  · intro hacyclic
    cases hrun : (expandWith definitions [] 0 a).run none with
    | error e => exact absurd (cyclic_of_error [] a nofun 0 e hrun) hacyclic
    | ok out =>
      obtain ⟨visits, height, h, _⟩ := sound [] a 0 none out.1 out.2 hrun
      exact ⟨out.1, visits, height, h⟩

theorem Expanded.closed : ∀ x ∈ b.names, definitions.lookup x = none := by
  induction h with
  | defined hx hd ih => exact ih
  | free hx =>
    intro y hy
    rw [Ast.names_name, List.mem_singleton] at hy
    rw [hy, hx]
  | @node a rows ha hrows h ih =>
    intro x hx
    have hlength : (rows.map Row.result).length = a.children.length := by rw [hrows, List.length_map, List.length_map]
    rw [Ast.mem_names ((Ast.name?_withChildren a _).trans ha), Ast.children_withChildren hlength] at hx
    obtain ⟨c, hc, hxc⟩ := hx
    obtain ⟨row, hrow, rfl⟩ := List.mem_map.1 hc
    exact ih row hrow x hxc

theorem Expanded.subst :
    ∀ n, height ≤ n → (Ast.subst fun x => definitions.lookup x)^[n] a = b := by
  induction h with
  | @defined x d b visits height hx hd ih =>
    intro n hn
    obtain ⟨n, rfl⟩ := Nat.exists_eq_add_of_le' (Nat.one_le_of_lt (Nat.lt_of_succ_le hn))
    rw [Function.iterate_succ_apply, Ast.subst_name, hx, Option.getD_some]
    exact ih n (by omega)
  | @free x hx =>
    intro n _
    apply Function.iterate_fixed
    rw [Ast.subst_name, hx, Option.getD_none]
  | @node a rows ha hrows h ih =>
    intro n hn
    rw [Ast.subst_iterate_node ha, hrows, List.map_map]
    refine congrArg _ (List.map_congr_left fun row hrow => ih row hrow n ?_)
    have hle := foldr_max_le.1 hn (row.height + 1) (List.mem_map_of_mem hrow)
    omega

theorem Expanded.order :
    ∃ order, Ordered (fun x => definitions.lookup x) Ast.names order ∧
      ∀ x ∈ a.names, (definitions.lookup x).isSome → x ∈ order := by
  induction h with
  | @defined x d b visits height hx hd ih =>
    obtain ⟨order, horder, hcovers⟩ := ih
    by_cases hmem : x ∈ order
    · refine ⟨order, horder, fun y hy _ => ?_⟩
      rw [Ast.names_name, List.mem_singleton] at hy
      exact hy ▸ hmem
    · refine ⟨order ++ [x], .snoc hx hmem hcovers horder, fun y hy _ => ?_⟩
      rw [Ast.names_name, List.mem_singleton] at hy
      rw [hy]
      exact List.mem_append_right _ (List.mem_singleton_self x)
  | @free x hx =>
    refine ⟨[], .nil, fun y hy hdefined => ?_⟩
    rw [Ast.names_name, List.mem_singleton] at hy
    rw [hy, hx] at hdefined
    cases hdefined
  | @node a rows ha hrows h ih =>
    have hall : ∀ l : List Row, l ⊆ rows → ∃ order, Ordered (fun x => definitions.lookup x) Ast.names order ∧
        ∀ row ∈ l, ∀ x ∈ row.source.names, (definitions.lookup x).isSome → x ∈ order := by
      intro l
      induction l with
      | nil => exact fun _ => ⟨[], .nil, nofun⟩
      | cons row l ihl =>
        intro hsub
        obtain ⟨order, horder, hcovers⟩ := ih row (hsub List.mem_cons_self)
        obtain ⟨order', horder', hcovers'⟩ := ihl fun r hr => hsub (List.mem_cons_of_mem _ hr)
        obtain ⟨all, hall, hmem⟩ := horder.merge horder'
        refine ⟨all, hall, List.forall_mem_cons.2 ⟨?_, ?_⟩⟩
        · intro x hx hdefined
          exact (hmem x).2 (Or.inl (hcovers x hx hdefined))
        · intro r hr x hx hdefined
          exact (hmem x).2 (Or.inr (hcovers' r hr x hx hdefined))
    obtain ⟨order, horder, hcovers⟩ := hall rows (List.Subset.refl _)
    refine ⟨order, horder, fun x hx hdefined => ?_⟩
    obtain ⟨c, hc, hxc⟩ := (Ast.mem_names ha).1 hx
    rw [hrows] at hc
    obtain ⟨row, hrow, rfl⟩ := List.mem_map.1 hc
    exact hcovers row hrow x hxc hdefined

end

/-- **The value of an expansion.** It is the value of the tree where the definitions are evaluated first, each after
those that it refers to. -/
theorem Expanded.fold {β : Type} {ρ : String → β} {node : Ast → List β → β} (huniform : Ast.Uniform node)
    {order : List String} (horder : Ordered (fun x => definitions.lookup x) Ast.names order)
    (h : Expanded definitions a b visits height)
    (hcovers : ∀ x ∈ a.names, (definitions.lookup x).isSome → x ∈ order) :
    Ast.fold ρ node b = Ast.fold
      (evaluate (fun x => definitions.lookup x) (fun env => Ast.fold env node) ρ order) node a := by
  induction h with
  | @defined x d b visits height hx hd ih =>
    have hmem : x ∈ order := hcovers x (by simp) (by rw [hx]; rfl)
    rw [Ast.fold_name, horder.solves (fun t env env' henv => Ast.fold_congr t henv) hmem hx]
    exact ih fun y hy hdefined => horder.closed hmem hx hy hdefined
  | @free x hx => rw [Ast.fold_name, Ast.fold_name, horder.evaluate_free hx]
  | @node a rows ha hrows h ih =>
    have hlength : (rows.map Row.result).length = a.children.length := by rw [hrows, List.length_map, List.length_map]
    rw [Ast.fold_withChildren huniform ha hlength, Ast.fold_node ha, hrows, List.map_map, List.map_map]
    refine congrArg _ (List.map_congr_left fun row hrow => ih row hrow fun x hx hdefined => ?_)
    refine hcovers x ((Ast.mem_names ha).2 ⟨row.source, ?_, hx⟩) hdefined
    rw [hrows]
    exact List.mem_map_of_mem hrow

end Expansions

/-- **Variable expansion is full substitution.** Over any definitions it ends. It is refused when a name that the tree
reaches refers to itself. Otherwise the tree has one expansion, which it returns unless a limit of the authoring boundary
is exceeded: an expansion has no defined name left, it is the simultaneous substitution repeated, and its value under
any valuation is that of the tree with the definitions evaluated first in any dependency order. -/
theorem expand_exact (definitions : Variables) (a : Ast) :
    (Cyclic (fun x => definitions.lookup x) Ast.names a →
      ∀ bounded, ∃ e, expandWithLimits a definitions bounded = .error e) ∧
    (¬ Cyclic (fun x => definitions.lookup x) Ast.names a → ∃ b visits height, Expanded definitions a b visits height ∧
      (∀ bounded b', expandWithLimits a definitions bounded = .ok b' ↔
        b' = b ∧ (bounded = true → visits ≤ maxWork ∧ height ≤ maxNesting)) ∧
      (∀ x ∈ b.names, definitions.lookup x = none) ∧
      (∀ n, height ≤ n → (Ast.subst fun x => definitions.lookup x)^[n] a = b) ∧
      (∃ order, Ordered (fun x => definitions.lookup x) Ast.names order ∧
        ∀ x ∈ a.names, (definitions.lookup x).isSome → x ∈ order) ∧
      ∀ order, Ordered (fun x => definitions.lookup x) Ast.names order →
        (∀ x ∈ a.names, (definitions.lookup x).isSome → x ∈ order) → ∀ reason ρ,
          b.eval reason ρ = a.eval reason
            (evaluate (fun x => definitions.lookup x) (fun env t => t.eval reason env) ρ order)) := by
  have hok : ∀ bounded b', expandWithLimits a definitions bounded = .ok b' ↔ ∃ visits height,
      Expanded definitions a b' visits height ∧ (bounded = true → visits ≤ maxWork ∧ height ≤ maxNesting) := by
    intro bounded b'
    have hwithin : ∀ visits height, Within (if bounded then some maxWork else none) 0 visits height ↔
        (bounded = true → visits ≤ maxWork ∧ height ≤ maxNesting) := by
      intro visits height
      cases bounded <;> simp [Within]
    rw [expandWithLimits]
    constructor
    · intro hmap
      cases hrun : (expandWith definitions [] 0 a).run (if bounded then some maxWork else none) with
      | error e =>
        rw [hrun] at hmap
        cases hmap
      | ok out =>
        rw [hrun] at hmap
        cases hmap
        obtain ⟨visits, height, h, hlimits, _⟩ := sound [] a _ _ out.1 out.2 hrun
        exact ⟨visits, height, h, (hwithin _ _).1 hlimits⟩
    · intro ⟨visits, height, h, hlimits⟩
      rw [h.complete [] clear_nil 0 _ ((hwithin _ _).2 hlimits)]
      rfl
  constructor
  · intro hcyclic bounded
    rcases ok_or_error (expandWithLimits a definitions bounded) with ⟨b, hb⟩ | herror
    · obtain ⟨visits, height, h, _⟩ := (hok bounded b).1 hb
      exact absurd hcyclic (exists_expanded.1 ⟨b, visits, height, h⟩)
    · exact herror
  · intro hacyclic
    obtain ⟨b, visits, height, h⟩ := exists_expanded.2 hacyclic
    refine ⟨b, visits, height, h, ?_, h.closed, h.subst, h.order, ?_⟩
    · intro bounded b'
      rw [hok]
      constructor
      · intro ⟨visits', height', h', hlimits⟩
        obtain ⟨rfl, rfl, rfl⟩ := h.unique h'
        exact ⟨rfl, hlimits⟩
      · intro ⟨heq, hlimits⟩
        exact ⟨visits, height, heq ▸ h, hlimits⟩
    · intro order horder hcovers reason ρ
      exact h.fold (Ast.eager_uniform reason) horder hcovers

end ZenoFcis.Contract.Expr
