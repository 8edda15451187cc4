/-
Searches that stop at the first solution. Over a list in increasing order the first solution is the least one, and the
nested loops over pairs and triples of positions find the least pair and the least triple in lexicographic order.
-/
import ZenoFcis.Lib.Metered

namespace ZenoFcis.Lib

variable {α β κ ρ ε : Type}

section Least

variable [Preorder κ]

/-- a least element of a set by rank, or the set is empty -/
def Least (rank : α → κ) (s : Set α) : Option α → Prop
  | none => ∀ a, a ∉ s
  | some a => a ∈ s ∧ ∀ b ∈ s, rank a ≤ rank b

variable {rank : α → κ} {s t : Set α} {o o' : Option α}

/-- a least member depends on the members only -/
theorem Least.congr (h : Least rank s o) (hst : ∀ a, a ∈ s ↔ a ∈ t) : Least rank t o := by
  cases o with
  | none => exact fun a ha => h a ((hst a).2 ha)
  | some a => exact ⟨(hst a).1 h.1, fun b hb => h.2 b ((hst b).2 hb)⟩

/-- a search that goes on only after a failure, when everything it may find later is above what it may find first -/
theorem Least.or (h : Least rank s o) (h' : Least rank t o') (hst : ∀ a ∈ s, ∀ b ∈ t, rank a ≤ rank b) :
    Least rank (s ∪ t) (o.or o') := by
  cases o with
  | none =>
    rw [Option.none_or]
    refine h'.congr fun a => ?_
    rw [Set.mem_union]
    exact ⟨Or.inr, fun ha => ha.resolve_left (h a)⟩
  | some a =>
    refine ⟨Or.inl h.1, fun b hb => ?_⟩
    rcases hb with hb | hb
    · exact h.2 b hb
    · exact hst a h.1 b hb

/-- a monotone image of a least member is least -/
theorem Least.map {κ' : Type} [Preorder κ'] {rank' : β → κ'} {f : α → β} (h : Least rank s o)
    (hf : ∀ a b, rank a ≤ rank b → rank' (f a) ≤ rank' (f b)) : Least rank' (f '' s) (o.map f) := by
  cases o with
  | none =>
    intro b hb
    obtain ⟨a, ha, -⟩ := hb
    exact h a ha
  | some a =>
    refine ⟨⟨a, h.1, rfl⟩, fun b hb => ?_⟩
    obtain ⟨c, hc, rfl⟩ := hb
    exact hf a c (h.2 c hc)

/-- the least member is unique when ranks tell members apart -/
theorem Least.unique {κ : Type} [PartialOrder κ] {rank : α → κ} {s : Set α} {o o' : Option α} (h : Least rank s o)
    (h' : Least rank s o') (hinj : ∀ a ∈ s, ∀ b ∈ s, rank a = rank b → a = b) : o = o' := by
  cases o with
  | none =>
    cases o' with
    | none => rfl
    | some b => exact absurd h'.1 (h b)
  | some a =>
    cases o' with
    | none => exact absurd h.1 (h' a)
    | some b => exact congrArg some (hinj a h.1 b h'.1 (le_antisymm (h.2 b h'.1) (h'.2 a h.1)))

end Least

/-! ## Loops -/

/-- `for c in l { if test(c) { break } }` -/
def firstOne (test : α → Metered ρ ε Bool) : List α → Metered ρ ε (Option α)
  | [] => pure none
  | c :: l => do
    if ← test c then pure (some c) else firstOne test l

/-- the loop over the pairs of positions in order -/
def firstTwo (test : α → α → Metered ρ ε Bool) : List α → Metered ρ ε (Option (α × α))
  | [] => pure none
  | b :: l => do
    match ← firstOne (test b) l with
    | some c => pure (some (b, c))
    | none => firstTwo test l

/-- the loop over the triples of positions in order -/
def firstThree (test : α → α → α → Metered ρ ε Bool) : List α → Metered ρ ε (Option (α × α × α))
  | [] => pure none
  | a :: l => do
    match ← firstTwo (test a) l with
    | some bc => pure (some (a, bc))
    | none => firstThree test l

/-- the elements, pairs and triples of a list, in the order of their positions, that satisfy a condition -/
def ones (p : α → Prop) (l : List α) : Set α := {c | [c].Sublist l ∧ p c}

def twos (p : α → α → Prop) (l : List α) : Set (α × α) := {t | [t.1, t.2].Sublist l ∧ p t.1 t.2}

def threes (p : α → α → α → Prop) (l : List α) : Set (α × α × α) :=
  {t | [t.1, t.2.1, t.2.2].Sublist l ∧ p t.1 t.2.1 t.2.2}

/-- pairs and triples are ranked lexicographically -/
def rankTwo (key : α → κ) (t : α × α) : κ ×ₗ κ := toLex (key t.1, key t.2)

def rankThree (key : α → κ) (t : α × α × α) : κ ×ₗ (κ ×ₗ κ) := toLex (key t.1, rankTwo key t.2)

theorem mem_ones {p : α → Prop} {l : List α} {c : α} : c ∈ ones p l ↔ c ∈ l ∧ p c := by
  unfold ones
  rw [Set.mem_ofPred_eq, List.singleton_sublist]

theorem twos_cons {p : α → α → Prop} {b : α} {l : List α} :
    twos p (b :: l) = (fun c => (b, c)) '' ones (p b) l ∪ twos p l := by
  ext ⟨x, y⟩
  simp only [twos, mem_ones, Set.mem_ofPred_eq, Set.mem_union, Set.mem_image, Prod.mk.injEq]
  constructor
  · intro h
    obtain ⟨hs, hp⟩ := h
    cases hs with
    | cons _ hs => exact Or.inr ⟨hs, hp⟩
    | cons_cons _ hs => exact Or.inl ⟨y, ⟨List.singleton_sublist.1 hs, hp⟩, rfl, rfl⟩
  · intro h
    rcases h with ⟨c, ⟨hc, hp⟩, rfl, rfl⟩ | ⟨hs, hp⟩
    · exact ⟨(List.singleton_sublist.2 hc).cons_cons _, hp⟩
    · exact ⟨hs.cons _, hp⟩

theorem threes_cons {p : α → α → α → Prop} {a : α} {l : List α} :
    threes p (a :: l) = (fun t => (a, t)) '' twos (p a) l ∪ threes p l := by
  ext ⟨x, y, z⟩
  simp only [twos, threes, Set.mem_ofPred_eq, Set.mem_union, Set.mem_image, Prod.mk.injEq]
  constructor
  · intro h
    obtain ⟨hs, hp⟩ := h
    cases hs with
    | cons _ hs => exact Or.inr ⟨hs, hp⟩
    | cons_cons _ hs => exact Or.inl ⟨(y, z), ⟨hs, hp⟩, rfl, rfl⟩
  · intro h
    rcases h with ⟨⟨c, d⟩, ⟨hs, hp⟩, rfl, hcd⟩ | ⟨hs, hp⟩
    · obtain ⟨rfl, rfl⟩ := Prod.mk.inj hcd
      exact ⟨hs.cons_cons _, hp⟩
    · exact ⟨hs.cons _, hp⟩

/-- triples in increasing order, which the predicate admits -/
theorem mem_threes [LinearOrder κ] {key : α → κ} {p : α → α → α → Prop} {l : List α}
    (hl : l.Pairwise fun a b => key a < key b) {t : α × α × α} :
    t ∈ threes p l ↔ (t.1 ∈ l ∧ t.2.1 ∈ l ∧ t.2.2 ∈ l) ∧ (key t.1 < key t.2.1 ∧ key t.2.1 < key t.2.2) ∧
      p t.1 t.2.1 t.2.2 := by
  rcases t with ⟨a, b, c⟩
  simp only [threes, Set.mem_ofPred_eq]
  constructor
  · intro h
    obtain ⟨hs, hp⟩ := h
    have horder := List.pairwise_cons.1 (hl.sublist hs)
    refine ⟨⟨hs.subset (by simp), hs.subset (by simp), hs.subset (by simp)⟩, ⟨horder.1 b (by simp), ?_⟩, hp⟩
    exact (List.pairwise_cons.1 horder.2).1 c (by simp)
  · intro h
    obtain ⟨⟨ha, hb, hc⟩, ⟨hab, hbc⟩, hp⟩ := h
    have hsub : [a, b, c] ⊆ l := by
      intro x hx
      simp only [List.mem_cons, List.not_mem_nil, or_false] at hx
      rcases hx with rfl | rfl | rfl <;> assumption
    have hpair : [a, b, c].Pairwise fun a b => key a < key b := by
      simp [hab, hbc, hab.trans hbc]
    have hnodup : [a, b, c].Nodup := hpair.imp fun hlt => ne_of_apply_ne key hlt.ne
    exact ⟨List.sublist_of_subperm_of_pairwise (List.subperm_of_subset hnodup hsub) hpair hl, hp⟩

section Search

variable [LinearOrder κ] {key : α → κ} {l : List α}

theorem firstOne_spec {f : α → Metered ρ ε Bool} {p : α → Prop} (hl : l.Pairwise fun a b => key a < key b)
    (htest : ∀ c ∈ l, ∃ b, (f c).result = .ok b ∧ (b = true ↔ p c)) :
    ∃ o, (firstOne f l).result = .ok o ∧ Least key (ones p l) o := by
  induction l with
  | nil => exact ⟨none, rfl, fun a ha => List.not_mem_nil (mem_ones.1 ha).1⟩
  | cons c l ih =>
    obtain ⟨hc, hl⟩ := List.pairwise_cons.1 hl
    obtain ⟨b, hb, hp⟩ := htest c List.mem_cons_self
    obtain ⟨o, ho, hleast⟩ := ih hl fun x hx => htest x (List.mem_cons_of_mem c hx)
    have hstep : (firstOne f (c :: l)).result = if b = true then .ok (some c) else .ok o := by
      simp only [firstOne, Metered.result_bind, hb, Metered.result_ite, Metered.result_pure, ← ho]
      rfl
    by_cases hb : b = true
    · refine ⟨some c, by rw [hstep, if_pos hb], mem_ones.2 ⟨List.mem_cons_self, hp.1 hb⟩, fun x hx => ?_⟩
      rcases List.mem_cons.1 (mem_ones.1 hx).1 with rfl | hx
      · exact le_rfl
      · exact (hc x hx).le
    · refine ⟨o, by rw [hstep, if_neg hb], hleast.congr fun x => ?_⟩
      rw [mem_ones, mem_ones, List.mem_cons]
      refine ⟨fun hx => ⟨Or.inr hx.1, hx.2⟩, fun hx => ⟨hx.1.resolve_left ?_, hx.2⟩⟩
      intro he
      exact hb (hp.2 (he ▸ hx.2))

theorem firstTwo_spec {f : α → α → Metered ρ ε Bool} {p : α → α → Prop}
    (hl : l.Pairwise fun a b => key a < key b)
    (htest : ∀ b ∈ l, ∀ c ∈ l, ∃ d, (f b c).result = .ok d ∧ (d = true ↔ p b c)) :
    ∃ o, (firstTwo f l).result = .ok o ∧ Least (rankTwo key) (twos p l) o := by
  induction l with
  | nil => exact ⟨none, rfl, fun a ha => by simpa using List.sublist_nil.1 ha.1⟩
  | cons b l ih =>
    obtain ⟨hb, hl⟩ := List.pairwise_cons.1 hl
    obtain ⟨o, ho, hleast⟩ := firstOne_spec hl fun c hc => htest b List.mem_cons_self c (List.mem_cons_of_mem b hc)
    obtain ⟨o', ho', hleast'⟩ := ih hl fun x hx c hc =>
      htest x (List.mem_cons_of_mem b hx) c (List.mem_cons_of_mem b hc)
    refine ⟨(o.map fun c => (b, c)).or o', ?_, ?_⟩
    · simp only [firstTwo, Metered.result_bind, ho]
      cases o with
      | none => exact ho'
      | some c => rfl
    · rw [twos_cons]
      refine (hleast.map fun c d hcd => ?_).or hleast' fun s hs t ht => ?_
      · exact Prod.Lex.toLex_le_toLex.2 (Or.inr ⟨rfl, hcd⟩)
      · obtain ⟨c, -, rfl⟩ := hs
        exact Prod.Lex.toLex_le_toLex.2 (Or.inl (hb t.1 (ht.1.subset List.mem_cons_self)))

/-- **First triple.** Over a list in strictly increasing order the triple loop finds the least triple. -/
theorem firstThree_spec {f : α → α → α → Metered ρ ε Bool} {p : α → α → α → Prop}
    (hl : l.Pairwise fun a b => key a < key b)
    (htest : ∀ a ∈ l, ∀ b ∈ l, ∀ c ∈ l, ∃ d, (f a b c).result = .ok d ∧ (d = true ↔ p a b c)) :
    ∃ o, (firstThree f l).result = .ok o ∧ Least (rankThree key) (threes p l) o := by
  induction l with
  | nil => exact ⟨none, rfl, fun a ha => by simpa using List.sublist_nil.1 ha.1⟩
  | cons a l ih =>
    obtain ⟨ha, hl⟩ := List.pairwise_cons.1 hl
    obtain ⟨o, ho, hleast⟩ := firstTwo_spec hl fun b hb c hc =>
      htest a List.mem_cons_self b (List.mem_cons_of_mem a hb) c (List.mem_cons_of_mem a hc)
    obtain ⟨o', ho', hleast'⟩ := ih hl fun x hx b hb c hc =>
      htest x (List.mem_cons_of_mem a hx) b (List.mem_cons_of_mem a hb) c (List.mem_cons_of_mem a hc)
    refine ⟨(o.map fun t => (a, t)).or o', ?_, ?_⟩
    · simp only [firstThree, Metered.result_bind, ho]
      cases o with
      | none => exact ho'
      | some t => rfl
    · rw [threes_cons]
      refine (hleast.map fun s t hst => ?_).or hleast' fun s hs t ht => ?_
      · exact Prod.Lex.toLex_le_toLex.2 (Or.inr ⟨rfl, hst⟩)
      · obtain ⟨c, -, rfl⟩ := hs
        exact Prod.Lex.toLex_le_toLex.2 (Or.inl (ha t.1 (ht.1.subset List.mem_cons_self)))

end Search

end ZenoFcis.Lib
