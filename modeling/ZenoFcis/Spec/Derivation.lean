/-
Derivation trees of a predictive grammar, and their postorder listings. Results:
- `nodes_sound`: an array whose nodes all pass lists derivation trees;
- `listing_complete`: the listing of a derivation tree passes;
- `Tree.Derives.unique`: a tag has at most one derivation tree from a position;
- `certificate_iff`, `syntax_certificate`: what the checker accepts.
-/
import ZenoFcis.Spec.SyntaxCertificate

namespace ZenoFcis.Spec

namespace SyntaxCertificate

/-! ## Trees -/

/-- a derivation: a token by itself, or a production over derivations -/
inductive Tree where
  | token (tag : UInt32)
  | rule (tag : UInt32) (production : ℕ) (children : List Tree)

def Tree.symbol : Tree → Symbol
  | .token tag => ⟨true, tag⟩
  | .rule tag _ _ => ⟨false, tag⟩

/-! the tokens, the nodes and the edges of a tree -/

mutual

def Tree.width : Tree → ℕ
  | .token _ => 1
  | .rule _ _ ts => widths ts

def widths : List Tree → ℕ
  | [] => 0
  | t :: ts => t.width + widths ts

end

mutual

def Tree.size : Tree → ℕ
  | .token _ => 1
  | .rule _ _ ts => sizes ts + 1

def sizes : List Tree → ℕ
  | [] => 0
  | t :: ts => t.size + sizes ts

end

mutual

def Tree.edges : Tree → ℕ
  | .token _ => 0
  | .rule _ _ ts => edgesOf ts + ts.length

def edgesOf : List Tree → ℕ
  | [] => 0
  | t :: ts => t.edges + edgesOf ts

end

/-- the root of a tree that starts at a token, at a node and at an edge -/
def Tree.root (start first edge : ℕ) : Tree → Node
  | .token tag => ⟨⟨true, tag⟩, 0, edge, 0, start, start + 1, first⟩
  | .rule tag production ts =>
    ⟨⟨false, tag⟩, production, edge + edgesOf ts, ts.length, start, start + widths ts, first⟩

mutual

/-- the nodes of a tree in postorder -/
def Tree.nodes (start first edge : ℕ) : Tree → List Node
  | .token tag => [Tree.root start first edge (.token tag)]
  | .rule tag production ts => nodesOf start first edge ts ++ [Tree.root start first edge (.rule tag production ts)]

def nodesOf (start first edge : ℕ) : List Tree → List Node
  | [] => []
  | t :: ts => t.nodes start first edge ++ nodesOf (start + t.width) (first + t.size) (edge + t.edges) ts

end

/-- the indices of the roots of trees that follow one another -/
def roots (first : ℕ) : List Tree → List ℕ
  | [] => []
  | t :: ts => (first + t.size - 1) :: roots (first + t.size) ts

mutual

/-- the children of the nodes of a tree, one slice after another -/
def Tree.children (first : ℕ) : Tree → List ℕ
  | .token _ => []
  | .rule _ _ ts => childrenOf first ts ++ roots first ts

def childrenOf (first : ℕ) : List Tree → List ℕ
  | [] => []
  | t :: ts => t.children first ++ childrenOf (first + t.size) ts

end

/-! ### Sizes -/

mutual

/-- a tree lists as many nodes as its size -/
theorem Tree.nodes_length (start first edge : ℕ) (t : Tree) : (t.nodes start first edge).length = t.size := by
  cases t with
  | token tag => rfl
  | rule tag production ts => rw [Tree.nodes, Tree.size, List.length_append, nodesOf_length, List.length_singleton]

theorem nodesOf_length (start first edge : ℕ) (ts : List Tree) : (nodesOf start first edge ts).length = sizes ts := by
  cases ts with
  | nil => rfl
  | cons t ts => rw [nodesOf, sizes, List.length_append, Tree.nodes_length, nodesOf_length]

end

theorem roots_length (first : ℕ) (ts : List Tree) : (roots first ts).length = ts.length := by
  induction ts generalizing first with
  | nil => rfl
  | cons t ts ih => rw [roots, List.length_cons, List.length_cons, ih]

mutual

theorem Tree.children_length (first : ℕ) (t : Tree) : (t.children first).length = t.edges := by
  cases t with
  | token tag => rfl
  | rule tag production ts => rw [Tree.children, Tree.edges, List.length_append, childrenOf_length, roots_length]

theorem childrenOf_length (first : ℕ) (ts : List Tree) : (childrenOf first ts).length = edgesOf ts := by
  cases ts with
  | nil => rfl
  | cons t ts => rw [childrenOf, edgesOf, List.length_append, Tree.children_length, childrenOf_length]

end

mutual

theorem Tree.nodes_edges (start first edge : ℕ) (t : Tree) :
    ((t.nodes start first edge).map Node.childrenLen).sum = t.edges := by
  cases t with
  | token tag => rfl
  | rule tag production ts =>
    rw [Tree.nodes, Tree.edges, List.map_append, List.sum_append, nodesOf_edges]
    rfl

theorem nodesOf_edges (start first edge : ℕ) (ts : List Tree) :
    ((nodesOf start first edge ts).map Node.childrenLen).sum = edgesOf ts := by
  cases ts with
  | nil => rfl
  | cons t ts => rw [nodesOf, edgesOf, List.map_append, List.sum_append, Tree.nodes_edges, nodesOf_edges]

end

mutual

theorem Tree.edges_add_one (t : Tree) : t.edges + 1 = t.size := by
  cases t with
  | token tag => rfl
  | rule tag production ts => rw [Tree.edges, Tree.size, edgesOf_add_length]

theorem edgesOf_add_length (ts : List Tree) : edgesOf ts + ts.length = sizes ts := by
  cases ts with
  | nil => rfl
  | cons t ts =>
    have ht := t.edges_add_one
    have hts := edgesOf_add_length ts
    rw [edgesOf, sizes, List.length_cons]
    omega

end

theorem Tree.size_pos (t : Tree) : 0 < t.size := by
  rw [← t.edges_add_one]
  exact Nat.succ_pos _

theorem Tree.nodes_eq (start first edge : ℕ) (t : Tree) :
    ∃ before, t.nodes start first edge = before ++ [t.root start first edge] := by
  cases t with
  | token tag => exact ⟨[], rfl⟩
  | rule tag production ts => exact ⟨_, rfl⟩

theorem Tree.root_symbol (start first edge : ℕ) (t : Tree) : (t.root start first edge).symbol = t.symbol := by
  cases t with
  | _ => rfl

theorem Tree.root_start (start first edge : ℕ) (t : Tree) : (t.root start first edge).start = start := by
  cases t with
  | _ => rfl

theorem Tree.root_stop (start first edge : ℕ) (t : Tree) : (t.root start first edge).stop = start + t.width := by
  cases t with
  | _ => rfl

theorem Tree.root_firstNode (start first edge : ℕ) (t : Tree) : (t.root start first edge).firstNode = first := by
  cases t with
  | _ => rfl

/-! ## Derivations -/

/-- the first row that matches selects the production -/
def FirstMatch (decisions : List Decision) (lhs first second : UInt32) (production : ℕ) : Prop :=
  ∃ before row after, decisions = before ++ row :: after ∧ (∀ r ∈ before, ¬ decisionMatches r lhs first second) ∧
    decisionMatches row lhs first second ∧ row.production = production

/-- a selected production is the first match -/
theorem selectProduction_eq_some {decisions : List Decision} {lhs first second : UInt32} {production : ℕ} :
    selectProduction decisions lhs first second = some production ↔
      FirstMatch decisions lhs first second production := by
  unfold selectProduction FirstMatch
  rw [Option.map_eq_some_iff]
  constructor
  · rintro ⟨row, hrow, hproduction⟩
    obtain ⟨hmatch, before, after, hl, hbefore⟩ := List.find?_eq_some_iff_append.1 hrow
    refine ⟨before, row, after, hl, fun r hr hmatches => ?_, of_decide_eq_true hmatch, hproduction⟩
    have hnot := hbefore r hr
    rw [decide_eq_true hmatches] at hnot
    cases hnot
  · rintro ⟨before, row, after, hl, hbefore, hmatch, hproduction⟩
    refine ⟨row, List.find?_eq_some_iff_append.2 ⟨decide_eq_true hmatch, before, after, hl, fun r hr => ?_⟩, hproduction⟩
    rw [decide_eq_false (hbefore r hr)]
    rfl

section Grammar

variable (tokens : List UInt32) (productions : List Production) (rhs : List Symbol) (decisions : List Decision)
  (eofTag : UInt32)

/-- the symbols of a right-hand side -/
def rhsOf (production : Production) : List Symbol := (rhs.drop production.rhsStart).take production.rhsLen

/-- a production may be used for a tag at a position, over children with these symbols -/
structure Applies (tag : UInt32) (start index : ℕ) (symbols : List Symbol) : Prop where
  selected : FirstMatch decisions tag (tokens[start]?.getD eofTag) (tokens[start + 1]?.getD eofTag) index
  production : ∃ p, productions[index]? = some p ∧ p.lhs = tag ∧ p.rhsStart + p.rhsLen ≤ rhs.length ∧
    symbols = rhsOf rhs p

mutual

/-- a tree derives the tokens from a position on -/
def Tree.Derives (start : ℕ) : Tree → Prop
  | .token tag => tokens[start]? = some tag
  | .rule tag production ts => Applies tokens productions rhs decisions eofTag tag start production (ts.map Tree.symbol) ∧
    DeriveAll start ts

/-- trees derive the tokens from a position on, one after another -/
def DeriveAll (start : ℕ) : List Tree → Prop
  | [] => True
  | t :: ts => t.Derives start ∧ DeriveAll (start + t.width) ts

end

/-! ## Uniqueness -/

variable {tokens productions rhs decisions eofTag}

theorem FirstMatch.unique {lhs first second : UInt32} {p q : ℕ} (hp : FirstMatch decisions lhs first second p)
    (hq : FirstMatch decisions lhs first second q) : p = q :=
  Option.some.inj ((selectProduction_eq_some.2 hp).symm.trans (selectProduction_eq_some.2 hq))

theorem Applies.unique {tag : UInt32} {start p q : ℕ} {symbols symbols' : List Symbol}
    (h : Applies tokens productions rhs decisions eofTag tag start p symbols)
    (h' : Applies tokens productions rhs decisions eofTag tag start q symbols') : p = q ∧ symbols = symbols' := by
  obtain rfl := h.selected.unique h'.selected
  obtain ⟨r, hget, _, _, rfl⟩ := h.production
  obtain ⟨r', hget', _, _, rfl⟩ := h'.production
  obtain rfl := Option.some.inj (hget.symm.trans hget')
  exact ⟨rfl, rfl⟩

mutual

/-- **Uniqueness.** A symbol has at most one derivation tree from a position. -/
theorem Tree.Derives.unique {start : ℕ} (t : Tree) (t' : Tree)
    (h : t.Derives tokens productions rhs decisions eofTag start)
    (h' : t'.Derives tokens productions rhs decisions eofTag start) (hsymbol : t.symbol = t'.symbol) : t = t' := by
  cases t with
  | token tag =>
    cases t' with
    | token tag' =>
      cases hsymbol
      rfl
    | rule => cases hsymbol
  | rule tag p ts =>
    cases t' with
    | token => cases hsymbol
    | rule tag' p' ts' =>
      cases hsymbol
      rw [Tree.Derives] at h h'
      obtain ⟨rfl, hsymbols⟩ := h.1.unique h'.1
      rw [DeriveAll.unique ts ts' h.2 h'.2 hsymbols]

theorem DeriveAll.unique {start : ℕ} (ts : List Tree) (ts' : List Tree)
    (h : DeriveAll tokens productions rhs decisions eofTag start ts)
    (h' : DeriveAll tokens productions rhs decisions eofTag start ts')
    (hsymbols : ts.map Tree.symbol = ts'.map Tree.symbol) : ts = ts' := by
  cases ts with
  | nil => exact (List.map_eq_nil_iff.1 hsymbols.symm).symm
  | cons t ts =>
    cases ts' with
    | nil => cases hsymbols
    | cons t' ts' =>
      rw [List.map_cons, List.map_cons, List.cons.injEq] at hsymbols
      rw [DeriveAll] at h h'
      obtain rfl := Tree.Derives.unique t t' h.1 h'.1 hsymbols.1
      rw [DeriveAll.unique ts ts' h.2 h'.2 hsymbols.2]

end

/-! ## Segments

What stands in an array from a position on is a prefix of the rest of the array. -/

section Segments

variable {α : Type} {xs l l' : List α} {i : ℕ}

theorem segment_append : l ++ l' <+: xs.drop i ↔ l <+: xs.drop i ∧ l' <+: xs.drop (i + l.length) := by
  constructor
  · intro h
    obtain ⟨rest, hrest⟩ := h
    refine ⟨⟨l' ++ rest, by rw [← hrest, List.append_assoc]⟩, rest, ?_⟩
    rw [← List.drop_drop, ← hrest, List.append_assoc, List.drop_left]
  · rintro ⟨⟨rest, hrest⟩, rest', hrest'⟩
    rw [← List.drop_drop, ← hrest, List.drop_left] at hrest'
    exact ⟨rest', by rw [List.append_assoc, hrest', hrest]⟩

theorem segment_singleton {x : α} : [x] <+: xs.drop i ↔ xs[i]? = some x := by
  constructor
  · rintro ⟨rest, hrest⟩
    have hget := congrArg (fun l => l[0]?) hrest
    rw [List.getElem?_drop, Nat.add_zero] at hget
    exact hget.symm
  · intro h
    obtain ⟨hi, hget⟩ := List.getElem?_eq_some_iff.1 h
    rw [List.drop_eq_getElem_cons hi, hget]
    exact ⟨xs.drop (i + 1), rfl⟩

end Segments

def edgesBefore (nodes : List Node) (index : ℕ) : ℕ := ((nodes.take index).map Node.childrenLen).sum

theorem edgesBefore_add {nodes l : List Node} {i : ℕ} (h : l <+: nodes.drop i) :
    edgesBefore nodes (i + l.length) = edgesBefore nodes i + (l.map Node.childrenLen).sum := by
  have htake : (nodes.drop i).take l.length = l := (List.prefix_iff_eq_take.1 h).symm
  unfold edgesBefore
  rw [List.take_add, htake, List.map_append, List.sum_append]

/-! ## Arrays that list trees -/

section Arrays

variable (nodes : List Node) (children : List ℕ)

/-- the subtree of a node stands in the arrays -/
structure Listed (t : Tree) (start first : ℕ) : Prop where
  records : t.nodes start first (edgesBefore nodes first) <+: nodes.drop first
  slices : t.children first <+: children.drop (edgesBefore nodes first)

/-- trees stand in the arrays one after another -/
structure ListedAll (ts : List Tree) (start first : ℕ) : Prop where
  records : nodesOf start first (edgesBefore nodes first) ts <+: nodes.drop first
  slices : childrenOf first ts <+: children.drop (edgesBefore nodes first)

variable {nodes children}

variable {start first production index n T S : ℕ} {ts : List Tree} {tag : UInt32} {prepared : PreparedDecisions}
  {node : Node}

theorem Listed.edges {t : Tree} (h : Listed nodes children t start first) :
    edgesBefore nodes (first + t.size) = edgesBefore nodes first + t.edges := by
  have hadd := edgesBefore_add h.records
  rwa [t.nodes_length, t.nodes_edges] at hadd

theorem ListedAll.edges (h : ListedAll nodes children ts start first) :
    edgesBefore nodes (first + sizes ts) = edgesBefore nodes first + edgesOf ts := by
  have hadd := edgesBefore_add h.records
  rwa [nodesOf_length, nodesOf_edges] at hadd

theorem listedAll_nil (start first : ℕ) : ListedAll nodes children [] start first :=
  ⟨List.nil_prefix, List.nil_prefix⟩

theorem listedAll_cons {t : Tree} :
    ListedAll nodes children (t :: ts) start first ↔
      Listed nodes children t start first ∧ ListedAll nodes children ts (start + t.width) (first + t.size) := by
  constructor
  · rintro ⟨hnodes, hchildren⟩
    rw [nodesOf, segment_append, t.nodes_length] at hnodes
    rw [childrenOf, segment_append, t.children_length] at hchildren
    have hfirst : Listed nodes children t start first := ⟨hnodes.1, hchildren.1⟩
    refine ⟨hfirst, ?_, ?_⟩
    · rw [hfirst.edges]
      exact hnodes.2
    · rw [hfirst.edges]
      exact hchildren.2
  · rintro ⟨hfirst, hnodes, hchildren⟩
    rw [hfirst.edges] at hnodes hchildren
    refine ⟨?_, ?_⟩
    · rw [nodesOf, segment_append, t.nodes_length]
      exact ⟨hfirst.records, hnodes⟩
    · rw [childrenOf, segment_append, t.children_length]
      exact ⟨hfirst.slices, hchildren⟩

theorem listed_rule :
    Listed nodes children (.rule tag production ts) start first ↔ ListedAll nodes children ts start first ∧
      nodes[first + sizes ts]? =
        some (Tree.root start first (edgesBefore nodes first) (.rule tag production ts)) ∧
      roots first ts <+: children.drop (edgesBefore nodes first + edgesOf ts) := by
  constructor
  · rintro ⟨hnodes, hchildren⟩
    rw [Tree.nodes, segment_append, nodesOf_length, segment_singleton] at hnodes
    rw [Tree.children, segment_append, childrenOf_length] at hchildren
    exact ⟨⟨hnodes.1, hchildren.1⟩, hnodes.2, hchildren.2⟩
  · rintro ⟨hall, hroot, hroots⟩
    refine ⟨?_, ?_⟩
    · rw [Tree.nodes, segment_append, nodesOf_length, segment_singleton]
      exact ⟨hall.records, hroot⟩
    · rw [Tree.children, segment_append, childrenOf_length]
      exact ⟨hall.slices, hroots⟩

theorem Listed.root {t : Tree} (h : Listed nodes children t start first) :
    nodes[first + t.size - 1]? = some (t.root start first (edgesBefore nodes first)) := by
  obtain ⟨before, hbefore⟩ := t.nodes_eq start first (edgesBefore nodes first)
  have hnodes := h.records
  have hlength := t.nodes_length start first (edgesBefore nodes first)
  rw [hbefore, List.length_append, List.length_singleton] at hlength
  rw [hbefore, segment_append, segment_singleton] at hnodes
  rw [← hlength, ← Nat.add_assoc, Nat.add_sub_cancel]
  exact hnodes.2

/-! ## What passes -/

theorem checkChild_eq_some {cursors next : ℕ × ℕ} {edge : ℕ × Symbol} :
    checkChild tokens nodes index cursors edge = some next ↔ edge.1 < index ∧ ∃ child, nodes[edge.1]? = some child ∧
      child.symbol = edge.2 ∧ child.start = cursors.1 ∧ child.firstNode = cursors.2 ∧ child.stop ≤ tokens.length ∧
      next = (child.stop, edge.1 + 1) := by
  simp only [checkChild, Option.bind_eq_bind, Option.bind_eq_some_iff, Option.guard_eq_some', exists_const,
    Option.pure_def, Option.some.injEq, and_assoc, eq_comm (a := next)]

variable (tokens rhs nodes children) in
/-- the loop over the children of a node, from the first token and the first node of its subtree to its last ones -/
def ChildrenPass (index : ℕ) (node : Node) (production : Production) : Prop :=
  (((children.drop node.childrenStart).take node.childrenLen).zip
    ((rhs.drop production.rhsStart).take node.childrenLen)).foldlM (checkChild tokens nodes index)
      (node.start, node.firstNode) = some (node.stop, index)

theorem checkProduction_eq_some :
    checkProduction tokens productions rhs nodes children prepared eofTag index node = some () ↔
      ∃ production, productions[node.production]? = some production ∧
        FirstMatch prepared.decisions node.symbol.tag (tokens[node.start]?.getD eofTag)
          (tokens[node.start + 1]?.getD eofTag) node.production ∧
        production.lhs = node.symbol.tag ∧ production.rhsStart + production.rhsLen ≤ rhs.length ∧
        production.rhsLen = node.childrenLen ∧ ChildrenPass tokens rhs nodes children index node production := by
  unfold checkProduction ChildrenPass
  rw [Option.bind_eq_bind, Option.bind_eq_some_iff]
  refine exists_congr fun production => and_congr_right fun _ => ?_
  dsimp only [lookaheadPair]
  simp only [Option.bind_eq_bind, Option.bind_eq_some_iff, Option.guard_eq_some', exists_const, Prod.exists]
  rw [select_indexed, selectProduction_eq_some]
  have hbounds : production.rhsStart ≤ rhs.length ∧ production.rhsLen ≤ rhs.length - production.rhsStart ↔
      production.rhsStart + production.rhsLen ≤ rhs.length := by omega
  constructor
  · rintro ⟨hselected, ⟨hlhs, hstart, hlen, heq⟩, _, _, hfold, rfl, rfl⟩
    exact ⟨hselected, hlhs, hbounds.1 ⟨hstart, hlen⟩, heq, hfold⟩
  · rintro ⟨hselected, hlhs, hbound, heq, hfold⟩
    have hsplit := hbounds.2 hbound
    exact ⟨hselected, ⟨hlhs, hsplit.1, hsplit.2, heq⟩, _, _, hfold, rfl, rfl⟩

theorem checkNode_eq_some :
    checkNode tokens productions rhs nodes children prepared eofTag index node = some () ↔
      (node.start ≤ node.stop ∧ node.stop ≤ tokens.length ∧ node.firstNode ≤ index) ∧
      node.childrenStart + node.childrenLen ≤ children.length ∧
      if node.symbol.terminal then checkTerminal tokens index node = some ()
      else checkProduction tokens productions rhs nodes children prepared eofTag index node = some () := by
  have hbounds : node.childrenStart ≤ children.length ∧ node.childrenLen ≤ children.length - node.childrenStart ↔
      node.childrenStart + node.childrenLen ≤ children.length := by omega
  unfold checkNode
  simp only [Option.bind_eq_bind, Option.bind_eq_some_iff, Option.guard_eq_some', exists_const, hbounds]
  split
  · rfl
  · rfl

variable (tokens productions rhs eofTag nodes children) in
/-- a record stands after the records before it, and passes -/
def NodePasses (prepared : PreparedDecisions) (index : ℕ) : Prop :=
  ∃ node, nodes[index]? = some node ∧ node.childrenStart = edgesBefore nodes index ∧
    checkNode tokens productions rhs nodes children prepared eofTag index node = some ()

theorem edgesBefore_succ (h : nodes[index]? = some node) :
    edgesBefore nodes (index + 1) = edgesBefore nodes index + node.childrenLen := by
  have hadd := edgesBefore_add (segment_singleton.2 h)
  rwa [List.map_singleton, List.sum_singleton, List.length_singleton] at hadd

theorem checkNext_range {cursor : ℕ} :
    (List.range n).foldlM (checkNext tokens productions rhs nodes children prepared eofTag) 0 = some cursor ↔
      (∀ index < n, NodePasses tokens productions rhs eofTag nodes children prepared index) ∧
        cursor = edgesBefore nodes n := by
  induction n generalizing cursor with
  | zero =>
    constructor
    · rintro h
      cases h
      exact ⟨fun _ hlt => absurd hlt (Nat.not_lt_zero _), rfl⟩
    · rintro ⟨_, rfl⟩
      rfl
  | succ n ih =>
    rw [List.range_succ, List.foldlM_append]
    simp only [List.foldlM_cons, List.foldlM_nil, Option.bind_eq_bind, Option.bind_eq_some_iff, Option.pure_def,
      Option.some.injEq, exists_eq_right, ih, checkNext, Option.guard_eq_some', exists_const]
    constructor
    · rintro ⟨before, ⟨hpass, rfl⟩, node, hnode, hstart, _, hcheck, rfl⟩
      refine ⟨fun index hlt => ?_, ?_⟩
      · rcases Nat.lt_succ_iff_lt_or_eq.1 hlt with hlt | rfl
        · exact hpass index hlt
        · exact ⟨node, hnode, hstart, hcheck⟩
      · rw [edgesBefore_succ hnode, hstart]
    · rintro ⟨hpass, rfl⟩
      obtain ⟨node, hnode, hstart, hcheck⟩ := hpass n (Nat.lt_succ_self n)
      refine ⟨_, ⟨fun index hlt => hpass index (Nat.lt_succ_of_lt hlt), rfl⟩, node, hnode, hstart, (), hcheck, ?_⟩
      rw [edgesBefore_succ hnode, hstart]

/-! ## Soundness -/

variable (tokens productions rhs decisions eofTag nodes children) in
/-- a record is the root of a derivation tree that stands before it -/
def Rooted (index : ℕ) : Prop := ∃ t node, nodes[index]? = some node ∧ t.symbol = node.symbol ∧
  t.Derives tokens productions rhs decisions eofTag node.start ∧ node.stop = node.start + t.width ∧
  node.firstNode + t.size = index + 1 ∧ Listed nodes children t node.start node.firstNode

theorem children_sound {T' S' : ℕ} {edges : List (ℕ × Symbol)}
    (hrooted : ∀ i < index, Rooted tokens productions rhs decisions eofTag nodes children i)
    (h : edges.foldlM (checkChild tokens nodes index) (T, S) = some (T', S')) :
    ∃ ts, ts.map Tree.symbol = edges.map Prod.snd ∧ roots S ts = edges.map Prod.fst ∧
      DeriveAll tokens productions rhs decisions eofTag T ts ∧ T' = T + widths ts ∧ S' = S + sizes ts ∧
      ListedAll nodes children ts T S := by
  induction edges generalizing T S with
  | nil =>
    cases h
    exact ⟨[], rfl, rfl, trivial, rfl, rfl, listedAll_nil _ _⟩
  | cons edge edges ih =>
    rw [List.foldlM_cons, Option.bind_eq_bind, Option.bind_eq_some_iff] at h
    obtain ⟨cursors, hchild, h⟩ := h
    obtain ⟨hbefore, child, hget, hsymbol, rfl, rfl, _, rfl⟩ := checkChild_eq_some.1 hchild
    obtain ⟨t, node, hnode, htsymbol, hderives, hstop, hsize, hlisted⟩ := hrooted edge.1 hbefore
    obtain rfl : child = node := Option.some.inj (hget.symm.trans hnode)
    obtain ⟨ts, hsymbols, hroots, hall, rfl, rfl, hlistedAll⟩ := ih h
    rw [hstop] at hall
    rw [hstop, ← hsize] at hlistedAll
    refine ⟨t :: ts, ?_, ?_, ⟨hderives, hall⟩, ?_, ?_, listedAll_cons.2 ⟨hlisted, hlistedAll⟩⟩
    · rw [List.map_cons, List.map_cons, hsymbols, htsymbol, hsymbol]
    · rw [roots, List.map_cons, hsize, hroots, Nat.add_sub_cancel]
    · rw [hstop, widths, Nat.add_assoc]
    · rw [← hsize, sizes, Nat.add_assoc]

theorem terminal_rooted (hnode : nodes[index]? = some node)
    (hstart : node.childrenStart = edgesBefore nodes index) (hterminal : node.symbol.terminal = true)
    (h : checkTerminal tokens index node = some ()) :
    Rooted tokens productions rhs decisions eofTag nodes children index := by
  obtain ⟨hproduction, hlen, hfirst, hbound, hwidth, htag⟩ := (Option.guard_eq_some' ()).1 h
  obtain ⟨⟨terminal, tag⟩, production, childrenStart, childrenLen, start, stop, firstNode⟩ := node
  dsimp only at hstart hterminal hproduction hlen hfirst hbound hwidth htag
  have hstop : stop = start + 1 := by omega
  subst hterminal hproduction hlen hfirst hstart hstop
  refine ⟨.token tag, _, hnode, rfl, htag, rfl, rfl, ?_, List.nil_prefix⟩
  exact segment_singleton.2 hnode

theorem production_rooted
    (hrooted : ∀ i < index, Rooted tokens productions rhs prepared.decisions eofTag nodes children i)
    (hnode : nodes[index]? = some node) (hstart : node.childrenStart = edgesBefore nodes index)
    (hslice : node.childrenStart + node.childrenLen ≤ children.length) (hterminal : node.symbol.terminal = false)
    (h : checkProduction tokens productions rhs nodes children prepared eofTag index node = some ()) :
    Rooted tokens productions rhs prepared.decisions eofTag nodes children index := by
  obtain ⟨p, hp, hselected, hlhs, hbound, hlen, hpass⟩ := checkProduction_eq_some.1 h
  obtain ⟨ts, hsymbols, hroots, hall, hstop, hindex, hlisted⟩ := children_sound hrooted hpass
  have hslices : ((children.drop node.childrenStart).take node.childrenLen).length =
      ((rhs.drop p.rhsStart).take node.childrenLen).length := by
    rw [List.length_take, List.length_take, List.length_drop, List.length_drop]
    omega
  rw [List.map_snd_zip hslices.ge] at hsymbols
  rw [List.map_fst_zip hslices.le] at hroots
  have hlength : node.childrenLen = ts.length := by
    rw [← roots_length node.firstNode, hroots, List.length_take, List.length_drop]
    omega
  have hedges := hlisted.edges
  rw [← hindex, ← hstart] at hedges
  have hsymbol : node.symbol = ⟨false, node.symbol.tag⟩ := by rw [← hterminal]
  refine ⟨.rule node.symbol.tag node.production ts, node, hnode, hsymbol.symm,
    ⟨⟨hselected, p, hp, hlhs, hbound, ?_⟩, hall⟩,
    hstop, ?_, listed_rule.2 ⟨hlisted, ?_, ?_⟩⟩
  · rw [hsymbols, rhsOf, hlen]
  · rw [Tree.size, hindex, Nat.add_assoc]
  · rw [← hindex, hnode, Tree.root, ← hedges, ← hlength, ← hstop, ← hsymbol]
  · rw [hroots, ← hedges]
    exact List.take_prefix _ _

/-- **Soundness.** Records that all pass are roots of derivation trees. -/
theorem nodes_sound (h : ∀ index < n, NodePasses tokens productions rhs eofTag nodes children prepared index) :
    ∀ index < n, Rooted tokens productions rhs prepared.decisions eofTag nodes children index := by
  intro index
  induction index using Nat.strong_induction_on with
  | h index ih =>
    intro hlt
    obtain ⟨node, hnode, hstart, hcheck⟩ := h index hlt
    obtain ⟨_, hslice, hcheck⟩ := checkNode_eq_some.1 hcheck
    cases hterminal : node.symbol.terminal with
    | true =>
      rw [if_pos hterminal] at hcheck
      exact terminal_rooted hnode hstart hterminal hcheck
    | false =>
      rw [if_neg (by rw [hterminal]; exact Bool.false_ne_true)] at hcheck
      exact production_rooted (fun i hi => ih i hi (hi.trans hlt)) hnode hstart hslice hterminal hcheck

/-! ## Completeness -/

theorem children_complete (hlisted : ListedAll nodes children ts T S)
    (hindex : S + sizes ts ≤ index) (htokens : T + widths ts ≤ tokens.length) :
    ((roots S ts).zip (ts.map Tree.symbol)).foldlM (checkChild tokens nodes index) (T, S) =
      some (T + widths ts, S + sizes ts) := by
  induction ts generalizing T S with
  | nil => rfl
  | cons t ts ih =>
    obtain ⟨hfirst, hrest⟩ := listedAll_cons.1 hlisted
    rw [sizes] at hindex
    rw [widths] at htokens
    have hpos := t.size_pos
    have hchild : checkChild tokens nodes index (T, S) (S + t.size - 1, t.symbol) = some (T + t.width, S + t.size) := by
      rw [checkChild_eq_some]
      refine ⟨by dsimp only; omega, _, hfirst.root, t.root_symbol _ _ _, t.root_start _ _ _, t.root_firstNode _ _ _,
        ?_, ?_⟩
      · rw [t.root_stop]
        omega
      · rw [t.root_stop, Nat.sub_add_cancel (by omega)]
    rw [roots, List.map_cons, List.zip_cons_cons, List.foldlM_cons, hchild]
    change ((roots (S + t.size) ts).zip (ts.map Tree.symbol)).foldlM (checkChild tokens nodes index)
      (T + t.width, S + t.size) = _
    rw [ih hrest (by omega) (by omega), widths, sizes, Nat.add_assoc, Nat.add_assoc]

theorem terminal_complete
    (hderives : tokens[start]? = some tag) (hlisted : Listed nodes children (.token tag) start first)
    (hedges : edgesBefore nodes first ≤ children.length) :
    NodePasses tokens productions rhs eofTag nodes children prepared first := by
  have hbound := (List.getElem?_eq_some_iff.1 hderives).1
  refine ⟨_, hlisted.root, rfl, checkNode_eq_some.2 ⟨⟨Nat.le_succ start, hbound, le_rfl⟩, hedges, ?_⟩⟩
  rw [Tree.root, if_pos rfl]
  exact (Option.guard_eq_some' ()).2 ⟨rfl, rfl, rfl, hbound, Nat.add_sub_cancel_left start 1, hderives⟩

theorem production_complete
    (happlies : Applies tokens productions rhs prepared.decisions eofTag tag start production (ts.map Tree.symbol))
    (hlisted : Listed nodes children (.rule tag production ts) start first)
    (htokens : start + widths ts ≤ tokens.length)
    (hedges : edgesBefore nodes first + edgesOf ts + ts.length ≤ children.length) :
    NodePasses tokens productions rhs eofTag nodes children prepared (first + sizes ts) := by
  obtain ⟨hall, hroot, hroots⟩ := listed_rule.1 hlisted
  obtain ⟨p, hp, hlhs, hbound, hsymbols⟩ := happlies.production
  have hlen : p.rhsLen = ts.length := by
    have hlength := congrArg List.length hsymbols
    rw [List.length_map, rhsOf, List.length_take, List.length_drop] at hlength
    omega
  have hslice : (children.drop (edgesBefore nodes first + edgesOf ts)).take ts.length = roots first ts := by
    rw [← roots_length first ts]
    exact (List.prefix_iff_eq_take.1 hroots).symm
  refine ⟨_, hroot, hall.edges.symm, checkNode_eq_some.2 ⟨⟨Nat.le_add_right _ _, htokens, Nat.le_add_right _ _⟩,
    hedges, ?_⟩⟩
  rw [if_neg (by exact Bool.false_ne_true), checkProduction_eq_some]
  refine ⟨p, hp, happlies.selected, hlhs, hbound, hlen, ?_⟩
  unfold ChildrenPass
  change (((children.drop (edgesBefore nodes first + edgesOf ts)).take ts.length).zip
    ((rhs.drop p.rhsStart).take ts.length)).foldlM (checkChild tokens nodes (first + sizes ts)) (start, first) =
      some (start + widths ts, first + sizes ts)
  rw [hslice, ← hlen, ← rhsOf, ← hsymbols]
  exact children_complete hall le_rfl htokens

mutual

/-- **Completeness.** The records of a listed derivation tree pass. -/
theorem listing_complete {prepared : PreparedDecisions} {start first : ℕ} (t : Tree)
    (hderives : t.Derives tokens productions rhs prepared.decisions eofTag start)
    (hlisted : Listed nodes children t start first) (htokens : start + t.width ≤ tokens.length)
    (hedges : edgesBefore nodes first + t.edges ≤ children.length) :
    ∀ index, first ≤ index → index < first + t.size →
      NodePasses tokens productions rhs eofTag nodes children prepared index := by
  intro index hle hlt
  cases t with
  | token tag =>
    rw [Tree.size] at hlt
    obtain rfl : index = first := by omega
    exact terminal_complete hderives hlisted hedges
  | rule tag production ts =>
    rw [Tree.Derives] at hderives
    rw [Tree.width] at htokens
    rw [Tree.edges, ← Nat.add_assoc] at hedges
    rw [Tree.size, ← Nat.add_assoc] at hlt
    rcases Nat.lt_succ_iff_lt_or_eq.1 hlt with hlt | rfl
    · exact listings_complete ts hderives.2 (listed_rule.1 hlisted).1 htokens (by omega) index hle hlt
    · exact production_complete hderives.1 hlisted htokens hedges

theorem listings_complete {prepared : PreparedDecisions} {start first : ℕ} (ts : List Tree)
    (hderives : DeriveAll tokens productions rhs prepared.decisions eofTag start ts)
    (hlisted : ListedAll nodes children ts start first) (htokens : start + widths ts ≤ tokens.length)
    (hedges : edgesBefore nodes first + edgesOf ts ≤ children.length) :
    ∀ index, first ≤ index → index < first + sizes ts →
      NodePasses tokens productions rhs eofTag nodes children prepared index := by
  intro index hle hlt
  cases ts with
  | nil => exact absurd (hle.trans_lt hlt) (lt_irrefl _)
  | cons t ts =>
    obtain ⟨hfirst, hrest⟩ := listedAll_cons.1 hlisted
    rw [DeriveAll] at hderives
    rw [widths] at htokens
    rw [edgesOf] at hedges
    rw [sizes] at hlt
    by_cases hindex : index < first + t.size
    · exact listing_complete t hderives.1 hfirst (by omega) (by omega) index hle hindex
    · refine listings_complete ts hderives.2 hrest (by omega) ?_ index (by omega) (by omega)
      rw [hfirst.edges]
      omega

end

end Arrays

/-! ## Certificates -/

section Certificate

variable (rootTag : UInt32) (maxNodes : ℕ)

variable (tokens productions rhs decisions eofTag) in
/-- the arrays are the listing of a derivation tree of all tokens from the root tag -/
structure Certifies (nodes : List Node) (children : List ℕ) (t : Tree) : Prop where
  root : t.symbol = ⟨false, rootTag⟩
  derives : t.Derives tokens productions rhs decisions eofTag 0
  width : t.width = tokens.length
  size : t.size ≤ maxNodes
  nodes : nodes = t.nodes 0 0 0
  children : children = t.children 0

variable {nodes : List Node} {children : List ℕ} {rootTag maxNodes}

variable {prepared : PreparedDecisions}

theorem checkDerivationPrepared_eq_some :
    checkDerivationPrepared tokens productions rhs nodes children prepared eofTag rootTag maxNodes = some () ↔
      (nodes ≠ [] ∧ nodes.length ≤ maxNodes ∧ children.length < nodes.length) ∧
      (∀ index < nodes.length, NodePasses tokens productions rhs eofTag nodes children prepared index) ∧
      edgesBefore nodes nodes.length = children.length ∧ ∃ root, nodes.getLast? = some root ∧
        root.symbol.terminal = false ∧ root.symbol.tag = rootTag ∧ root.start = 0 ∧ root.stop = tokens.length ∧
        root.firstNode = 0 := by
  unfold checkDerivationPrepared
  simp only [Option.bind_eq_bind, Option.bind_eq_some_iff, Option.guard_eq_some', exists_const, checkNext_range]
  constructor
  · rintro ⟨hbounds, _, ⟨hpass, rfl⟩, hedges, hroot⟩
    exact ⟨hbounds, hpass, hedges, hroot⟩
  · rintro ⟨hbounds, hpass, hedges, hroot⟩
    exact ⟨hbounds, _, ⟨hpass, rfl⟩, hedges, hroot⟩

theorem certifies_of_checked
    (h : checkDerivationPrepared tokens productions rhs nodes children prepared eofTag rootTag maxNodes = some ()) :
    ∃ t, Certifies tokens productions rhs prepared.decisions eofTag rootTag maxNodes nodes children t := by
  obtain ⟨⟨hne, hmax, _⟩, hpass, hedges, root, hroot, hterminal, htag, hstart, hstop, hfirst⟩ :=
    checkDerivationPrepared_eq_some.1 h
  have hpos := List.length_pos_of_ne_nil hne
  obtain ⟨t, node, hnode, hsymbol, hderives, hwidth, hsize, hlisted⟩ :=
    nodes_sound hpass (nodes.length - 1) (Nat.sub_lt hpos Nat.one_pos)
  rw [← List.getLast?_eq_getElem?, hroot] at hnode
  cases hnode
  rw [hstart, hfirst] at hlisted
  rw [hstart] at hderives hwidth
  rw [hfirst, Nat.sub_add_cancel hpos, Nat.zero_add] at hsize
  have htotal := hlisted.edges
  rw [Nat.zero_add, hsize, hedges] at htotal
  have hzero : edgesBefore nodes 0 = 0 := rfl
  rw [hzero, Nat.zero_add] at htotal
  have hrecords := hlisted.records
  have hslices := hlisted.slices
  rw [hzero, List.drop_zero] at hrecords hslices
  refine ⟨t, ?_, hderives, ?_, hsize ▸ hmax, ?_, ?_⟩
  · rw [hsymbol, ← hterminal, ← htag]
  · rw [← hstop, hwidth, Nat.zero_add]
  · exact (hrecords.eq_of_length (by rw [t.nodes_length, hsize])).symm
  · exact (hslices.eq_of_length (by rw [t.children_length, htotal])).symm

theorem Certifies.checked {t : Tree}
    (h : Certifies tokens productions rhs prepared.decisions eofTag rootTag maxNodes nodes children t) :
    checkDerivationPrepared tokens productions rhs nodes children prepared eofTag rootTag maxNodes = some () := by
  have hlength : nodes.length = t.size := by rw [h.nodes, t.nodes_length]
  have hchildren : children.length = t.edges := by rw [h.children, t.children_length]
  have hzero : edgesBefore nodes 0 = 0 := rfl
  have hlisted : Listed nodes children t 0 0 := by
    refine ⟨?_, ?_⟩
    · rw [hzero, List.drop_zero, ← h.nodes]
    · rw [hzero, List.drop_zero, ← h.children]
  have hedges := hlisted.edges
  rw [Nat.zero_add, hzero, Nat.zero_add, ← hlength, ← hchildren] at hedges
  have hcount := t.edges_add_one
  rw [checkDerivationPrepared_eq_some]
  refine ⟨⟨?_, hlength ▸ h.size, by omega⟩, fun index hlt => ?_, hedges, ?_⟩
  · intro hnil
    rw [hnil, List.length_nil] at hlength
    exact absurd hlength t.size_pos.ne
  · apply listing_complete t h.derives hlisted
    · rw [Nat.zero_add, h.width]
    · rw [hzero, Nat.zero_add, hchildren]
    · exact Nat.zero_le index
    · rwa [Nat.zero_add, ← hlength]
  · have hroot := hlisted.root
    rw [Nat.zero_add, ← hlength, ← List.getLast?_eq_getElem?] at hroot
    refine ⟨_, hroot, ?_, ?_, t.root_start _ _ _, ?_, t.root_firstNode _ _ _⟩
    · rw [t.root_symbol, h.root]
    · rw [t.root_symbol, h.root]
    · rw [t.root_stop, Nat.zero_add, h.width]

theorem certificate_iff :
    checkDerivationPrepared tokens productions rhs nodes children prepared eofTag rootTag maxNodes = some () ↔
      ∃ t, Certifies tokens productions rhs prepared.decisions eofTag rootTag maxNodes nodes children t := by
  constructor
  · exact certifies_of_checked
  · rintro ⟨t, h⟩
    exact h.checked

theorem checkDerivation_eq (decisions : List Decision) :
    checkDerivation tokens productions rhs nodes children eofTag rootTag maxNodes decisions =
      checkDerivationPrepared tokens productions rhs nodes children (prepareDecisions decisions) eofTag rootTag
        maxNodes := by
  unfold checkDerivation
  by_cases hbounds : nodes ≠ [] ∧ nodes.length ≤ maxNodes ∧ children.length < nodes.length
  · rw [guard, if_pos hbounds]
    rfl
  · unfold checkDerivationPrepared
    rw [guard, if_neg hbounds]
    rfl

theorem Certifies.unique {nodes' : List Node} {children' : List ℕ} {maxNodes' : ℕ} {t t' : Tree}
    (h : Certifies tokens productions rhs decisions eofTag rootTag maxNodes nodes children t)
    (h' : Certifies tokens productions rhs decisions eofTag rootTag maxNodes' nodes' children' t') :
    nodes = nodes' ∧ children = children' := by
  obtain rfl := Tree.Derives.unique t t' h.derives h'.derives (h.root.trans h'.root.symm)
  exact ⟨h.nodes.trans h'.nodes.symm, h.children.trans h'.children.symm⟩

/-- **The syntax certificate.** A certificate is accepted exactly if it lists a derivation tree within the bound, the
indexed selection is the first match, and at most one certificate is accepted. -/
theorem syntax_certificate (tokens : List UInt32) (productions : List Production) (rhs : List Symbol)
    (decisions : List Decision) (eofTag rootTag : UInt32) :
    (∀ maxNodes nodes children,
      (checkDerivation tokens productions rhs nodes children eofTag rootTag maxNodes decisions = some () ↔
        ∃ t, Certifies tokens productions rhs decisions eofTag rootTag maxNodes nodes children t) ∧
      (checkDerivationPrepared tokens productions rhs nodes children (prepareDecisions decisions) eofTag rootTag
          maxNodes = some () ↔
        ∃ t, Certifies tokens productions rhs decisions eofTag rootTag maxNodes nodes children t)) ∧
    (∀ lhs first second, selectProductionIndexed (prepareDecisions decisions) lhs first second =
      selectProduction decisions lhs first second) ∧
    (∀ lhs first second production, selectProduction decisions lhs first second = some production ↔
      FirstMatch decisions lhs first second production) ∧
    ∀ maxNodes maxNodes' nodes nodes' children children',
      checkDerivation tokens productions rhs nodes children eofTag rootTag maxNodes decisions = some () →
      checkDerivation tokens productions rhs nodes' children' eofTag rootTag maxNodes' decisions = some () →
      nodes = nodes' ∧ children = children' := by
  refine ⟨fun maxNodes nodes children => ⟨?_, certificate_iff⟩, ?_, ?_, ?_⟩
  · rw [checkDerivation_eq]
    exact certificate_iff
  · exact select_indexed (prepareDecisions decisions)
  · intro lhs first second production
    exact selectProduction_eq_some
  · intro maxNodes maxNodes' nodes nodes' children children' h h'
    rw [checkDerivation_eq] at h h'
    obtain ⟨t, ht⟩ := certificate_iff.1 h
    obtain ⟨t', ht'⟩ := certificate_iff.1 h'
    exact ht.unique ht'

end Certificate


end Grammar

end SyntaxCertificate

end ZenoFcis.Spec
