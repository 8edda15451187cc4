/-
The checker of grammar-derivation certificates of `zeno-fcis-spec/src/syntax_certificate.rs`.

A check that answers `false` is `none` here, so that its steps read in order. The end of a node is its `stop`.
`select_indexed`: the index over the rows of a decision table does not change the row that is selected.
-/
import Mathlib.Tactic

namespace ZenoFcis.Spec

/-! ## Data -/

/-- a terminal token tag or a nonterminal grammar tag -/
structure Symbol where
  terminal : Bool
  tag : UInt32
deriving DecidableEq

/-- a production; its right-hand side is a slice of the symbols of the grammar -/
structure Production where
  lhs : UInt32
  rhsStart : ℕ
  rhsLen : ℕ

/-- a decision by two token tags of lookahead -/
structure Decision where
  lhs : UInt32
  first : UInt32
  second : UInt32
  production : ℕ

/-- a postorder derivation node, covering the tokens from `start` to `stop` -/
structure Node where
  symbol : Symbol
  production : ℕ
  childrenStart : ℕ
  childrenLen : ℕ
  start : ℕ
  stop : ℕ
  firstNode : ℕ

namespace SyntaxCertificate

/-- the tag that matches every tag -/
def any : UInt32 := 4294967295

/-! ## Decisions -/

def decisionMatches (row : Decision) (lhs first second : UInt32) : Prop :=
  row.lhs = lhs ∧ (row.first = any ∨ row.first = first) ∧ (row.second = any ∨ row.second = second)

instance (row : Decision) (lhs first second : UInt32) : Decidable (decisionMatches row lhs first second) :=
  inferInstanceAs (Decidable (_ ∧ _))

/-- the tags at a position and after it; a missing tag is that of the end of the file -/
def lookaheadPair (tokens : List UInt32) (position : ℕ) (eofTag : UInt32) : UInt32 × UInt32 :=
  (tokens[position]?.getD eofTag, tokens[position + 1]?.getD eofTag)

/-- the first matching decision -/
def selectProduction (decisions : List Decision) (lhs first second : UInt32) : Option ℕ :=
  (decisions.find? fun row => decide (decisionMatches row lhs first second)).map Decision.production

/-- the tags below it are indexed -/
def decisionPrefixSlots : ℕ := 256

/-- one turn of the indexing loop: the first row of a run of rows is kept if its tag has none -/
def recordRow (decisions : List Decision) (rows : Fin decisionPrefixSlots → ℕ) (index : ℕ) :
    Fin decisionPrefixSlots → ℕ :=
  match decisions[index]? with
  | none => rows
  | some row =>
    if h : row.lhs.toNat < decisionPrefixSlots then
      if (index = 0 ∨ decisions[index - 1]?.map Decision.lhs ≠ some row.lhs) ∧ rows ⟨row.lhs.toNat, h⟩ = decisions.length
        then Function.update rows ⟨row.lhs.toNat, h⟩ index
      else rows
    else rows

/-- the first row of each indexed tag -/
def firstDecisionRows (decisions : List Decision) : Fin decisionPrefixSlots → ℕ :=
  (List.range decisions.length).foldl (recordRow decisions) fun _ => decisions.length

/-- the rows after some turns: none before the row of a tag is for that tag -/
structure Indexing (decisions : List Decision) (index : ℕ) (rows : Fin decisionPrefixSlots → ℕ) : Prop where
  skipped : ∀ slot j row, j < index → j < rows slot → decisions[j]? = some row → row.lhs.toNat ≠ slot
  bound : ∀ slot, rows slot < index ∨ rows slot = decisions.length

variable {decisions : List Decision} {rows : Fin decisionPrefixSlots → ℕ}

theorem Indexing.keep {index : ℕ}
    (h : Indexing decisions index rows)
    (hrow : ∀ slot row, index < rows slot → decisions[index]? = some row → row.lhs.toNat ≠ slot) :
    Indexing decisions (index + 1) rows := by
  refine ⟨fun slot j row hj hlt hget => ?_, fun slot => ?_⟩
  · rcases Nat.lt_succ_iff_lt_or_eq.1 hj with hj | rfl
    · exact h.skipped slot j row hj hlt hget
    · exact hrow slot row hlt hget
  · rcases h.bound slot with hbound | hbound
    · exact .inl (Nat.lt_succ_of_lt hbound)
    · exact .inr hbound

theorem recordRow_indexing {index : ℕ}
    (h : Indexing decisions index rows) : Indexing decisions (index + 1) (recordRow decisions rows index) := by
  unfold recordRow
  cases hget : decisions[index]? with
  | none =>
    apply h.keep
    intro slot row _ hrow
    rw [hget] at hrow
    cases hrow
  | some row =>
    have hindex : index < decisions.length := (List.getElem?_eq_some_iff.1 hget).1
    dsimp only
    by_cases hslot : row.lhs.toNat < decisionPrefixSlots
    · rw [dif_pos hslot]
      by_cases hnew : (index = 0 ∨ decisions[index - 1]?.map Decision.lhs ≠ some row.lhs) ∧
          rows ⟨row.lhs.toNat, hslot⟩ = decisions.length
      · rw [if_pos hnew]
        -- the rows below are not for the tag, since it had no row
        refine ⟨fun slot j other hj hlt hother => ?_, fun slot => ?_⟩
        · by_cases hsame : slot = ⟨row.lhs.toNat, hslot⟩
          · subst hsame
            rw [Function.update_self] at hlt
            exact h.skipped _ j other hlt (by rw [hnew.2]; exact hlt.trans hindex) hother
          · rw [Function.update_of_ne hsame] at hlt
            rcases Nat.lt_succ_iff_lt_or_eq.1 hj with hj | rfl
            · exact h.skipped slot j other hj hlt hother
            · obtain rfl : row = other := Option.some.inj (hget.symm.trans hother)
              intro heq
              exact hsame (Fin.ext heq.symm)
        · by_cases hsame : slot = ⟨row.lhs.toNat, hslot⟩
          · subst hsame
            rw [Function.update_self]
            exact .inl (Nat.lt_succ_self index)
          · rw [Function.update_of_ne hsame]
            rcases h.bound slot with hbound | hbound
            · exact .inl (Nat.lt_succ_of_lt hbound)
            · exact .inr hbound
      · rw [if_neg hnew]
        apply h.keep
        intro slot other hlt hother heq
        obtain rfl : row = other := Option.some.inj (hget.symm.trans hother)
        obtain rfl : (⟨row.lhs.toNat, hslot⟩ : Fin decisionPrefixSlots) = slot := Fin.ext heq
        -- the tag has no row yet, so the row before this one is not for it either
        have hnone : rows ⟨row.lhs.toNat, hslot⟩ = decisions.length := by
          rcases h.bound ⟨row.lhs.toNat, hslot⟩ with hbound | hbound
          · exact absurd (hlt.trans hbound) (lt_irrefl _)
          · exact hbound
        apply hnew
        refine ⟨?_, hnone⟩
        by_contra hfollows
        push Not at hfollows
        obtain ⟨before, hbefore, hlhs⟩ := Option.map_eq_some_iff.1 hfollows.2
        apply h.skipped ⟨row.lhs.toNat, hslot⟩ (index - 1) before (by omega) (by omega) hbefore
        rw [hlhs]
    · rw [dif_neg hslot]
      apply h.keep
      intro slot other _ hother heq
      obtain rfl : row = other := Option.some.inj (hget.symm.trans hother)
      exact hslot (heq ▸ slot.isLt)

theorem firstDecisionRows_indexing (decisions : List Decision) :
    Indexing decisions decisions.length (firstDecisionRows decisions) := by
  have hrange : ∀ n, Indexing decisions n ((List.range n).foldl (recordRow decisions) fun _ => decisions.length) := by
    intro n
    induction n with
    | zero => exact ⟨fun _ _ _ hj => absurd hj (Nat.not_lt_zero _), fun _ => .inr rfl⟩
    | succ n ih =>
      rw [List.range_succ, List.foldl_append, List.foldl_cons, List.foldl_nil]
      exact recordRow_indexing ih
  exact hrange _

/-- a decision table with the first row of each indexed tag -/
structure PreparedDecisions where
  decisions : List Decision
  firstRows : Fin decisionPrefixSlots → ℕ
  indexing : Indexing decisions decisions.length firstRows

def prepareDecisions (decisions : List Decision) : PreparedDecisions :=
  ⟨decisions, firstDecisionRows decisions, firstDecisionRows_indexing decisions⟩

/-- the scan starts at the first row of an indexed tag -/
def selectProductionIndexed (prepared : PreparedDecisions) (lhs first second : UInt32) : Option ℕ :=
  let index := if h : lhs.toNat < decisionPrefixSlots then prepared.firstRows ⟨lhs.toNat, h⟩ else 0
  selectProduction (prepared.decisions.drop index) lhs first second

theorem selectProduction_drop {n : ℕ} {lhs first second : UInt32}
    (h : ∀ row ∈ decisions.take n, row.lhs ≠ lhs) :
    selectProduction (decisions.drop n) lhs first second = selectProduction decisions lhs first second := by
  have hnone : (decisions.take n).find? (fun row => decide (decisionMatches row lhs first second)) = none := by
    rw [List.find?_eq_none]
    intro row hrow hmatch
    exact h row hrow (of_decide_eq_true hmatch).1
  unfold selectProduction
  conv_rhs => rw [← List.take_append_drop n decisions, List.find?_append, hnone, Option.none_or]

/-- **Selection.** The index does not change which row is selected, whatever the order of the rows and the tag are. -/
theorem select_indexed (prepared : PreparedDecisions) (lhs first second : UInt32) :
    selectProductionIndexed prepared lhs first second = selectProduction prepared.decisions lhs first second := by
  unfold selectProductionIndexed
  dsimp only
  split
  next hslot =>
    apply selectProduction_drop
    rintro row hrow rfl
    obtain ⟨j, hj, hget⟩ := List.mem_take_iff_getElem.1 hrow
    have hlt := lt_min_iff.1 hj
    exact prepared.indexing.skipped _ j row hlt.2 hlt.1 (by rw [List.getElem?_eq_getElem hlt.2, hget]) rfl
  next => rfl

/-! ## Nodes -/

section Check

variable (tokens : List UInt32) (productions : List Production) (rhs : List Symbol) (nodes : List Node)
  (children : List ℕ) (prepared : PreparedDecisions) (eofTag : UInt32)

/-- one turn of the loop over the children of a node: the cursors are the next token and the next node -/
def checkChild (index : ℕ) (cursors : ℕ × ℕ) (edge : ℕ × Symbol) : Option (ℕ × ℕ) := do
  guard (edge.1 < index)
  let child ← nodes[edge.1]?
  guard (child.symbol = edge.2 ∧ child.start = cursors.1 ∧ child.firstNode = cursors.2 ∧ child.stop ≤ tokens.length)
  return (child.stop, edge.1 + 1)

/-- a terminal refers to its token -/
def checkTerminal (index : ℕ) (node : Node) : Option Unit :=
  guard (node.production = 0 ∧ node.childrenLen = 0 ∧ node.firstNode = index ∧ node.start < tokens.length ∧
    node.stop - node.start = 1 ∧ tokens[node.start]? = some node.symbol.tag)

/-- a nonterminal uses the production that is selected for it, and its children follow one another -/
def checkProduction (index : ℕ) (node : Node) : Option Unit := do
  let production ← productions[node.production]?
  let (first, second) := lookaheadPair tokens node.start eofTag
  guard (selectProductionIndexed prepared node.symbol.tag first second = some node.production)
  guard (production.lhs = node.symbol.tag ∧ production.rhsStart ≤ rhs.length ∧
    production.rhsLen ≤ rhs.length - production.rhsStart ∧ production.rhsLen = node.childrenLen)
  let edges := ((children.drop node.childrenStart).take node.childrenLen).zip
    ((rhs.drop production.rhsStart).take node.childrenLen)
  let (tokenCursor, subtreeCursor) ← edges.foldlM (checkChild tokens nodes index) (node.start, node.firstNode)
  guard (tokenCursor = node.stop ∧ subtreeCursor = index)

def checkNode (index : ℕ) (node : Node) : Option Unit := do
  guard (node.start ≤ node.stop ∧ node.stop ≤ tokens.length ∧ node.firstNode ≤ index)
  guard (node.childrenStart ≤ children.length ∧ node.childrenLen ≤ children.length - node.childrenStart)
  if node.symbol.terminal then checkTerminal tokens index node
  else checkProduction tokens productions rhs nodes children prepared eofTag index node

/-- one turn of the loop over the nodes -/
def checkNext (childCursor index : ℕ) : Option ℕ := do
  let node ← nodes[index]?
  guard (node.childrenStart = childCursor)
  checkNode tokens productions rhs nodes children prepared eofTag index node
  return node.childrenStart + node.childrenLen

variable (rootTag : UInt32) (maxNodes : ℕ)

def checkDerivationPrepared : Option Unit := do
  guard (nodes ≠ [] ∧ nodes.length ≤ maxNodes ∧ children.length < nodes.length)
  let childCursor ← (List.range nodes.length).foldlM
    (checkNext tokens productions rhs nodes children prepared eofTag) 0
  guard (childCursor = children.length)
  let root ← nodes.getLast?
  guard (root.symbol.terminal = false ∧ root.symbol.tag = rootTag ∧ root.start = 0 ∧ root.stop = tokens.length ∧
    root.firstNode = 0)

/-- the table is prepared within the call -/
def checkDerivation (decisions : List Decision) : Option Unit := do
  guard (nodes ≠ [] ∧ nodes.length ≤ maxNodes ∧ children.length < nodes.length)
  checkDerivationPrepared tokens productions rhs nodes children (prepareDecisions decisions) eofTag rootTag maxNodes

end Check

end SyntaxCertificate

end ZenoFcis.Spec
