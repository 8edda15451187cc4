/-
The indexed search is exact in its fragment. Results:
- `new_indexed`: the index holds which leaves agree with the target and which predicates are true;
- `branch_exact`: a branch is found if there is one within the ceiling, and it is a cheapest one;
- `answer_exact`: the answer for a root is a cheapest tree of the fragment;
- `indexed_search`: both against a meter.
-/
import ZenoFcis.Lib.Cheapest
import ZenoFcis.Lib.Except
import ZenoFcis.Search.Indexed

namespace ZenoFcis.Search

open Lib Lib.Metered
open Lib.Except (ok_bind)

/-! ## Masks -/

theorem lt_words {i n : ℕ} (h : i < n) : i < 64 * words n := by
  unfold words
  omega

@[simp] theorem full_length (size : ℕ) : (full size).length = words size := by
  rw [full, List.length_map, List.length_range]

theorem ones_below {r j : ℕ} (hr : r < 64) : ((1#64 <<< r) - 1).getLsbD j = decide (j < r) := by
  have hpow : 2 ^ r < 2 ^ 64 := Nat.pow_lt_pow_right (by norm_num) hr
  have hshift : (1#64 <<< r).toNat = 2 ^ r := by
    rw [BitVec.toNat_shiftLeft, Nat.shiftLeft_eq]
    exact (Nat.mod_eq_of_lt (by rwa [show (1#64).toNat = 1 from rfl, Nat.one_mul])).trans (Nat.one_mul _)
  have hone : (1 : BitVec 64) ≤ 1#64 <<< r := by
    rw [BitVec.le_def, hshift]
    exact Nat.one_le_two_pow
  rw [BitVec.getLsbD, BitVec.toNat_sub_of_le hone, hshift]
  exact Nat.testBit_two_pow_sub_one r j

theorem test_full (size i : ℕ) : Bitset.test (full size) i = decide (i < size) := by
  by_cases hi : i < 64 * words size
  · have hword : i / 64 < words size := Nat.div_lt_of_lt_mul hi
    have hget : Bitset.word (full size) (i / 64) = if min (size - i / 64 * 64) 64 = 64 then BitVec.allOnes 64
        else (1#64 <<< min (size - i / 64 * 64) 64) - 1 := by
      unfold Bitset.word full
      rw [List.getElem?_map, List.getElem?_range hword]
      rfl
    rw [Bitset.test, hget]
    have hmod := Bitset.mod_lt i
    split
    next hfull =>
      rw [BitVec.getLsbD_allOnes, decide_eq_true hmod]
      exact (decide_eq_true (by omega)).symm
    next hpart =>
      rw [ones_below (by omega)]
      congr 1
      rw [eq_iff_iff]
      omega
  · have hfalse : Bitset.test (full size) i = false := by
      by_contra htrue
      have hlt := Bitset.lt_of_test (Bool.eq_true_of_not_eq_false htrue)
      rw [full_length] at hlt
      exact hi hlt
    rw [hfalse]
    exact (decide_eq_false fun hlt => hi (lt_words hlt)).symm

/-- the mask of all tuples -/
def Mask.full (size : ℕ) : Mask size := ⟨Search.full size, full_length size, fun i hi => by
  rw [test_full] at hi
  exact of_decide_eq_true hi⟩

/-! ## The fragment -/

section Fragment

variable (search : TopDown) (target : Vector I128 search.size) (output : Kind) (predicates : Predicates search)

def IsLeaf (id : search.Id) : Prop := search.kind id = output ∧ search.expanded id ≤ componentCost

/-- a leaf, or a selection between two leaves -/
inductive IsBranch : Branch search → Prop where
  | leaf {id : search.Id} (h : IsLeaf search output id) : IsBranch ⟨none, id, id, search.expanded id⟩
  | select {guard yes no : search.Id} (hguard : guard ∈ predicates.ids) (hyes : IsLeaf search output yes)
      (hno : IsLeaf search output no) :
      IsBranch ⟨some guard, yes, no, 1 + search.expanded yes + search.expanded no + search.expanded guard⟩

/-- a branch, or a selection between two branches -/
inductive IsAnswer : Answer search → Prop where
  | branch {b : Branch search} (h : IsBranch search output predicates b) : IsAnswer ⟨none, b, b, b.cost⟩
  | select {guard : search.Id} {yes no : Branch search} (hguard : guard ∈ predicates.ids)
      (hyes : IsBranch search output predicates yes) (hno : IsBranch search output predicates no) :
      IsAnswer ⟨some guard, yes, no, 1 + search.expanded guard + yes.cost + no.cost⟩

variable {search}

/-- the arm that a guard chooses on a tuple -/
def choose {α : Type} (guard : Option search.Id) (case : Fin search.size) (yes no : α) : α :=
  match guard with
  | none => yes
  | some guard => if (search.value guard case).val = 1 then yes else no

def Branch.value (b : Branch search) (case : Fin search.size) : I128 :=
  choose b.guard case (search.value b.yes case) (search.value b.no case)

def Answer.value (a : Answer search) (case : Fin search.size) : I128 :=
  choose a.guard case (a.yes.value case) (a.no.value case)

/-- a branch agrees with the target on the tuples of a mask -/
def Branch.Agrees (b : Branch search) (bits : List (BitVec 64)) : Prop :=
  ∀ case : Fin search.size, Bitset.test bits case = true → b.value case = target.get case

/-- an answer equals the target on every tuple -/
def Answer.Agrees (a : Answer search) : Prop := ∀ case, a.value case = target.get case

end Fragment

/-! ## The index -/

section Index

variable {search : TopDown} {target : Vector I128 search.size} {output : Kind} {predicates : Predicates search}

/-- a leaf agrees with the target on a tuple -/
def LeafAgrees (target : Vector I128 search.size) (id : search.Id) (case : Fin search.size) : Prop :=
  search.value id case = target.get case

/-- what an index holds -/
structure Indexed (target : Vector I128 search.size) (output : Kind) (predicates : Predicates search)
    (index : Index search) : Prop where
  leaves : ∀ id, id ∈ index.leaves ↔ IsLeaf search output id
  sorted : index.leaves.Pairwise fun a b => search.expanded a ≤ search.expanded b
  costs : index.costs = index.leaves.map search.expanded
  table : index.predicates = predicates
  cover : index.cover = index.leaves.map (coverOf search target)
  pairWords : index.pairWords = words (index.leaves.length * index.leaves.length)
  guardWords : index.guardWords = words predicates.ids.length
  pairs : ∀ (case : Fin search.size) (a b : ℕ) (yes no : search.Id), index.leaves[a]? = some yes →
    index.leaves[b]? = some no →
    (Bitset.test index.pairCover (case * index.pairWords * 64 + (a * index.leaves.length + b)) = true ↔
      LeafAgrees target yes case ∨ LeafAgrees target no case)
  guards : ∀ (case : Fin search.size) (p : ℕ) (guard : search.Id), predicates.ids[p]? = some guard →
    (Bitset.test index.guardTrue (case * index.guardWords * 64 + p) = true ↔ (search.value guard case).val = 1)

/-- filling sets the bits of the cases -/
theorem fill_spec {p : Fin search.size → Prop} [DecidablePred p] :
    ((List.finRange search.size).foldl (fun v case => if p case then Bitset.insert v case else v)
        (List.replicate (words search.size) 0)).length = words search.size ∧
      ∀ j, Bitset.test ((List.finRange search.size).foldl
        (fun v case => if p case then Bitset.insert v case else v) (List.replicate (words search.size) 0)) j = true ↔
        ∃ case, p case ∧ (case : ℕ) = j := by
  have hadds : Bitset.Adds (words search.size)
      (fun v => (List.finRange search.size).foldl (fun v case => if p case then Bitset.insert v case else v) v)
      fun j => ∃ case ∈ List.finRange search.size, p case ∧ (case : ℕ) = j :=
    Bitset.Adds.foldl fun case _ => .ite fun _ => .insert (lt_words case.isLt)
  obtain ⟨hlength, htest⟩ := hadds.from_empty
  refine ⟨hlength, fun j => ?_⟩
  rw [htest]
  simp only [List.mem_finRange, true_and]

theorem exists_case {p : Fin search.size → Prop} (case : Fin search.size) :
    (∃ other, p other ∧ (other : ℕ) = case) ↔ p case := by
  constructor
  · rintro ⟨other, hp, heq⟩
    rwa [← Fin.ext heq]
  · intro hp
    exact ⟨case, hp, rfl⟩

theorem coverOf_length (id : search.Id) : (coverOf search target id).length = words search.size := fill_spec.1

/-- a cover has the cases that the leaf answers -/
theorem test_coverOf (id : search.Id) (case : Fin search.size) :
    Bitset.test (coverOf search target id) case = true ↔ LeafAgrees target id case :=
  (fill_spec.2 case).trans (exists_case case)

theorem mem_leavesOf (id : search.Id) : id ∈ leavesOf search output ↔ IsLeaf search output id := by
  unfold leavesOf sortLeaves IsLeaf
  rw [List.mem_mergeSort, List.mem_filter, decide_eq_true_eq]
  exact and_iff_right (List.mem_finRange id)

theorem leavesOf_sorted : (leavesOf search output).Pairwise fun a b => search.expanded a ≤ search.expanded b := by
  have hsorted := @List.pairwise_mergeSort _ (fun a b : search.Id =>
    decide (search.expanded a < search.expanded b ∨ search.expanded a = search.expanded b ∧ a ≤ b)) ?_ ?_
    ((List.finRange search.arena.length).filter fun id =>
      decide (search.kind id = output ∧ search.expanded id ≤ componentCost))
  · refine List.Pairwise.imp ?_ hsorted
    intro a b hab
    rcases of_decide_eq_true hab with hlt | ⟨heq, _⟩
    · exact hlt.le
    · exact heq.le
  · intro a b c hab hbc
    simp only [decide_eq_true_eq, Fin.le_def] at hab hbc ⊢
    omega
  · intro a b
    simp only [Bool.or_eq_true, decide_eq_true_eq, Fin.le_def]
    omega

theorem row_inj {row row' width i i' : ℕ} (hi : i < width) (hi' : i' < width) (h : row * width + i = row' * width + i') :
    row = row' ∧ i = i' := by
  have hmod : i = i' := by
    have hmod : (row * width + i) % width = (row' * width + i') % width := by rw [h]
    rwa [Nat.mul_add_mod_of_lt hi, Nat.mul_add_mod_of_lt hi'] at hmod
  subst hmod
  have hrow : row * width = row' * width := Nat.add_right_cancel h
  exact ⟨Nat.eq_of_mul_eq_mul_right ((Nat.zero_le i).trans_lt hi) hrow, rfl⟩

theorem row_lt {row rows width i : ℕ} (hrow : row < rows) (hi : i < width) : row * width + i < rows * width := by
  calc row * width + i
      < row * width + width := Nat.add_lt_add_left hi _
    _ = (row + 1) * width := (Nat.succ_mul row width).symm
    _ ≤ rows * width := Nat.mul_le_mul_right width hrow

theorem pair_lt {a b n : ℕ} (ha : a < n) (hb : b < n) : a * n + b < n * n := row_lt ha hb

theorem coverPairs_adds {leaves : List search.Id} (case : Fin search.size) :
    Bitset.Adds (search.size * words (leaves.length * leaves.length))
      (coverPairs (leaves.map (coverOf search target)) leaves.length (words (leaves.length * leaves.length)) case)
      fun j => ∃ a ∈ List.range leaves.length, ∃ b ∈ List.range leaves.length,
        (Bitset.test ((leaves.map (coverOf search target))[a]?.getD []) case ||
          Bitset.test ((leaves.map (coverOf search target))[b]?.getD []) case) = true ∧
        case * words (leaves.length * leaves.length) * 64 + (a * leaves.length + b) = j := by
  refine Bitset.Adds.foldl fun a ha => Bitset.Adds.foldl fun b hb => .ite fun _ => .insert ?_
  have hpair := lt_words (pair_lt (List.mem_range.1 ha) (List.mem_range.1 hb))
  rw [Nat.mul_comm 64] at hpair ⊢
  rw [Nat.mul_assoc, Nat.mul_assoc]
  exact row_lt case.isLt hpair

theorem coverGuards_adds {ids : List search.Id} (case : Fin search.size) :
    Bitset.Adds (search.size * words ids.length) (coverGuards search ids (words ids.length) case)
      fun j => ∃ x ∈ ids.zipIdx, (search.value x.1 case).val = 1 ∧ case * words ids.length * 64 + x.2 = j := by
  refine Bitset.Adds.foldl fun x hx => .ite fun _ => .insert ?_
  have hlt : x.2 < ids.length := (List.mem_zipIdx' hx).1
  have hguard := lt_words hlt
  rw [Nat.mul_comm 64] at hguard ⊢
  rw [Nat.mul_assoc, Nat.mul_assoc]
  exact row_lt case.isLt hguard

theorem foldl_pair {α β γ : Type} (f : β → α → β) (g : γ → α → γ) (l : List α) (b : β) (c : γ) :
    l.foldl (fun s a => (f s.1 a, g s.2 a)) (b, c) = (l.foldl f b, l.foldl g c) := by
  induction l generalizing b c with
  | nil => rfl
  | cons a l ih => exact ih (f b a) (g c a)

variable (target output predicates) in
def built : Index search :=
  let leaves := leavesOf search output
  let cover := leaves.map (coverOf search target)
  let pairWords := words (leaves.length * leaves.length)
  let guardWords := words predicates.ids.length
  ⟨leaves, leaves.map search.expanded, predicates, cover,
    (List.finRange search.size).foldl (fun v (case : Fin search.size) => coverPairs cover leaves.length pairWords case v)
      (List.replicate (search.size * pairWords) 0),
    (List.finRange search.size).foldl (fun v (case : Fin search.size) =>
      coverGuards search predicates.ids guardWords case v)
      (List.replicate (search.size * guardWords) 0),
    pairWords, guardWords⟩

theorem new_result : (Index.new search target output predicates).result = .ok (built target output predicates) := by
  have hcover : ((leavesOf search output).mapM fun id => (do
      work search.size
      return coverOf search target id : Budgeted (List (BitVec 64)))).result =
        .ok ((leavesOf search output).map (coverOf search target)) := result_mapM_ok fun _ _ => rfl
  have hcovers : ∀ (cover : List (List (BitVec 64))) (n pairWords guardWords : ℕ) (b c : List (BitVec 64)),
      ((List.finRange search.size).foldlM (coverCase search cover n pairWords guardWords predicates.ids) (b, c)).result =
        .ok ((List.finRange search.size).foldl (fun v (case : Fin search.size) => coverPairs cover n pairWords case v) b,
          (List.finRange search.size).foldl
            (fun v (case : Fin search.size) => coverGuards search predicates.ids guardWords case v) c) := by
    intro cover n pairWords guardWords b c
    rw [← foldl_pair]
    exact result_foldlM_ok (fun _ _ _ => rfl) (b, c)
  unfold Index.new
  dsimp only
  rw [result_bind, result_bind, hcover]
  change ((List.finRange search.size).foldlM (coverCase search _ _ _ _ predicates.ids) _ >>= _).result = _
  rw [result_bind, hcovers]
  rfl

/-- **The index** holds the agreement of every pair of leaves and the truth of every predicate. -/
theorem new_indexed : Indexed target output predicates (built target output predicates) := by
  refine ⟨mem_leavesOf, leavesOf_sorted, rfl, rfl, rfl, rfl, rfl, ?_, ?_⟩
  · intro case a b yes no hyes hno
    change (leavesOf search output)[a]? = some yes at hyes
    change (leavesOf search output)[b]? = some no at hno
    have ha := (List.getElem?_eq_some_iff.1 hyes).1
    have hb := (List.getElem?_eq_some_iff.1 hno).1
    have hadds := (Bitset.Adds.foldl fun (case : Fin search.size) (_ : case ∈ List.finRange search.size) =>
      @coverPairs_adds search target (leavesOf search output) case).from_empty.2
    refine (hadds _).trans ?_
    have hcover : ∀ {i : ℕ} {id : search.Id}, (leavesOf search output)[i]? = some id →
        ∀ c : Fin search.size, Bitset.test (((leavesOf search output).map (coverOf search target))[i]?.getD []) c = true ↔
          LeafAgrees target id c := by
      intro i id hid c
      rw [List.getElem?_map, hid]
      exact test_coverOf id c
    constructor
    · rintro ⟨c, _, a', ha', b', hb', hor, heq⟩
      have ha' := List.mem_range.1 ha'
      have hb' := List.mem_range.1 hb'
      -- the position determines the tuple and the two leaves
      have hwidth := lt_words (pair_lt ha hb)
      have hwidth' := lt_words (pair_lt ha' hb')
      rw [Nat.mul_comm 64] at hwidth hwidth'
      change (c : ℕ) * _ * 64 + _ = (case : ℕ) * words
        ((leavesOf search output).length * (leavesOf search output).length) *
        64 + (a * (leavesOf search output).length + b) at heq
      rw [Nat.mul_assoc, Nat.mul_assoc] at heq
      obtain ⟨hcase, hpair⟩ := row_inj hwidth' hwidth heq
      obtain ⟨rfl, rfl⟩ := row_inj hb' hb hpair
      obtain rfl := Fin.ext hcase
      rwa [Bool.or_eq_true, hcover hyes, hcover hno] at hor
    · intro hor
      refine ⟨case, List.mem_finRange case, a, List.mem_range.2 ha, b, List.mem_range.2 hb, ?_, rfl⟩
      rw [Bool.or_eq_true, hcover hyes, hcover hno]
      exact hor
  · intro case p guard hguard
    have hp := (List.getElem?_eq_some_iff.1 hguard).1
    have hadds := (Bitset.Adds.foldl fun (case : Fin search.size) (_ : case ∈ List.finRange search.size) =>
      @coverGuards_adds search predicates.ids case).from_empty.2
    refine (hadds _).trans ?_
    constructor
    · rintro ⟨c, _, ⟨other, q⟩, hx, htrue, heq⟩
      have hq := (List.mem_zipIdx' hx).1
      have hwidth := lt_words hp
      have hwidth' := lt_words hq
      rw [Nat.mul_comm 64] at hwidth hwidth'
      change (c : ℕ) * words predicates.ids.length * 64 + q = (case : ℕ) * words predicates.ids.length * 64 + p at heq
      rw [Nat.mul_assoc, Nat.mul_assoc] at heq
      obtain ⟨hcase, rfl⟩ := row_inj hwidth' hwidth heq
      obtain rfl := Fin.ext hcase
      have hget := List.mem_zipIdx_iff_getElem?.1 hx
      obtain rfl : other = guard := Option.some.inj (hget.symm.trans hguard)
      exact htrue
    · intro htrue
      exact ⟨case, List.mem_finRange case, (guard, p), List.mem_zipIdx_iff_getElem?.2 hguard, htrue, rfl⟩

/-! ## Branches -/

def leafBranch (id : search.Id) : Branch search := ⟨none, id, id, search.expanded id⟩

theorem leaf_agrees {id : search.Id} {bits : List (BitVec 64)} :
    (leafBranch id).Agrees target bits ↔ ∀ case : Fin search.size, Bitset.test bits case = true →
      LeafAgrees target id case := Iff.rfl

theorem covers_iff (bits : Mask search.size) (id : search.Id) :
    ((bits.bits.zip (coverOf search target id)).all fun (s, c) => s &&& ~~~c = 0) = true ↔
      (leafBranch id).Agrees target bits.bits := by
  rw [Bitset.subset_iff (by rw [bits.length, coverOf_length]), leaf_agrees]
  constructor
  · intro h case hcase
    exact (test_coverOf id case).1 (h case hcase)
  · intro h i hi
    exact (test_coverOf id ⟨i, bits.within i hi⟩).2 (h ⟨i, bits.within i hi⟩ hi)

theorem scanLeaves_exact (bits : Mask search.size) (ceiling : ℕ) {ids : List search.Id}
    (hsorted : ids.Pairwise fun a b => search.expanded a ≤ search.expanded b) :
    ∃ found, (scanLeaves bits.bits ceiling
        (ids.zip ((ids.map search.expanded).zip (ids.map (coverOf search target))))).result = .ok found ∧
      Cheapest Branch.cost (fun b => ∃ id ∈ ids, b = leafBranch id ∧ b.Agrees target bits.bits) ceiling found := by
  induction ids with
  | nil =>
    refine ⟨none, rfl, ?_⟩
    rintro b ⟨id, hid, _⟩
    cases hid
  | cons id ids ih =>
    rw [List.pairwise_cons] at hsorted
    have hcovers : _ ↔ (leafBranch id).Agrees target bits.bits := covers_iff bits id
    rw [List.map_cons, List.map_cons, List.zip_cons_cons, List.zip_cons_cons, scanLeaves]
    by_cases htake : search.expanded id ≤ ceiling ∧ (leafBranch id).Agrees target bits.bits
    · refine ⟨some (leafBranch id), ?_, ⟨id, List.mem_cons_self, rfl, htake.2⟩, htake.1, ?_⟩
      · rw [if_pos ⟨htake.1, hcovers.2 htake.2⟩]
        rfl
      · rintro b ⟨other, hother, rfl, _⟩
        rcases List.mem_cons.1 hother with rfl | hother
        · exact le_rfl
        · exact hsorted.1 other hother
    · obtain ⟨found, hfound, hcheapest⟩ := ih hsorted.2
      refine ⟨found, ?_, ?_⟩
      · rw [if_neg fun h => htake ⟨h.1, hcovers.1 h.2⟩]
        exact hfound
      · refine (hcheapest.skip (Q := fun b => b = leafBranch id ∧ b.Agrees target bits.bits) ?_).congr fun b => ?_
        · rintro b ⟨rfl, hagrees⟩
          have habove : ceiling < search.expanded id := by
            by_contra hle
            exact htake ⟨not_lt.1 hle, hagrees⟩
          exact (Cheapest.limit_le ceiling found).trans_lt habove
        · simp only [List.mem_cons, exists_eq_or_imp]
          exact or_comm

theorem narrowPairs_exact (index : Index search) (cases : List ℕ) {pairs : List (BitVec 64)}
    (hlength : pairs.length = index.pairWords) :
    ∃ out, (narrowPairs index cases pairs).result = .ok out ∧ (∀ left, out = some left → left.length = index.pairWords) ∧
      ∀ i < 64 * index.pairWords, (∃ left, out = some left ∧ Bitset.test left i = true) ↔
        Bitset.test pairs i = true ∧
        ∀ case ∈ cases, Bitset.test index.pairCover (case * index.pairWords * 64 + i) = true := by
  induction cases generalizing pairs with
  | nil =>
    refine ⟨some pairs, rfl, ?_, fun i _ => by simp⟩
    intro left hleft
    cases hleft
    exact hlength
  | cons case cases ih =>
    have hnext : ∀ i < 64 * index.pairWords, Bitset.test (pairs.mapIdx fun w possible =>
        possible &&& Bitset.word index.pairCover (case * index.pairWords + w)) i =
          (Bitset.test pairs i && Bitset.test index.pairCover (case * index.pairWords * 64 + i)) := by
      intro i hi
      rw [Bitset.test_mapIdx _ (by rwa [hlength]), BitVec.getLsbD_and, Bitset.test_row]
      rfl
    rw [narrowPairs]
    dsimp only
    by_cases hzero : (pairs.mapIdx fun w possible =>
        possible &&& Bitset.word index.pairCover (case * index.pairWords + w)).all (· = 0) = true
    · refine ⟨none, ?_, ?_, fun i hi => ?_⟩
      · rw [if_pos hzero]
        rfl
      · intro left hleft
        cases hleft
      · have hempty := (Bitset.all_zero_iff _).1 (fun x hx => of_decide_eq_true (List.all_eq_true.1 hzero x hx)) i
        rw [hnext i hi, Bool.and_eq_false_iff] at hempty
        constructor
        · rintro ⟨left, hleft, _⟩
          cases hleft
        · rintro ⟨hpair, hall⟩
          rcases hempty with hempty | hempty
          · rw [hpair] at hempty
            cases hempty
          · rw [hall case List.mem_cons_self] at hempty
            cases hempty
    · obtain ⟨out, hout, hwords, hspec⟩ := @ih (pairs.mapIdx fun w possible =>
        possible &&& Bitset.word index.pairCover (case * index.pairWords + w)) (by rw [List.length_mapIdx, hlength])
      refine ⟨out, ?_, hwords, fun i hi => ?_⟩
      · rw [if_neg hzero]
        exact hout
      · rw [hspec i hi, hnext i hi, Bool.and_eq_true, List.forall_mem_cons, and_assoc]

/-- a predicate that chooses a leaf that agrees on a tuple -/
def Chooses (index : Index search) (coverA coverB : List (BitVec 64)) (case p : ℕ) : Prop :=
  (Bitset.test coverB case = false → Bitset.test index.guardTrue (case * index.guardWords * 64 + p) = true) ∧
    (Bitset.test coverA case = false → Bitset.test index.guardTrue (case * index.guardWords * 64 + p) = false)

theorem narrowWord_bit (mustTrue mustFalse : Bool) (truth possible : BitVec 64) {j : ℕ} (hj : j < 64) :
    (narrowWord mustTrue mustFalse truth possible).getLsbD j = true ↔ possible.getLsbD j = true ∧
      (mustTrue = true → truth.getLsbD j = true) ∧ (mustFalse = true → truth.getLsbD j = false) := by
  cases mustTrue with
  | false =>
    cases mustFalse with
    | false => simp [narrowWord]
    | true => simp [narrowWord, hj]
  | true =>
    cases mustFalse with
    | false => simp [narrowWord]
    | true => simp [narrowWord, hj, and_assoc]

theorem narrowGuards_exact (index : Index search) (coverA coverB : List (BitVec 64)) (cases : List ℕ)
    {guards : List (BitVec 64)} (hlength : guards.length = index.guardWords) :
    ∃ out, (narrowGuards index coverA coverB cases guards).result = .ok out ∧ out.length = index.guardWords ∧
      ∀ p < 64 * index.guardWords, Bitset.test out p = true ↔
        Bitset.test guards p = true ∧ ∀ case ∈ cases, Chooses index coverA coverB case p := by
  induction cases generalizing guards with
  | nil => exact ⟨guards, rfl, hlength, fun p _ => by simp⟩
  | cons case cases ih =>
    rw [narrowGuards]
    dsimp only
    by_cases hfree : (!!Bitset.test coverB case && !!Bitset.test coverA case) = true
    · obtain ⟨out, hout, hwords, hspec⟩ := ih hlength
      refine ⟨out, ?_, hwords, fun p hp => ?_⟩
      · rw [if_pos hfree]
        exact hout
      · rw [Bool.not_not, Bool.not_not, Bool.and_eq_true] at hfree
        have hchooses : Chooses index coverA coverB case p := by
          refine ⟨fun h => ?_, fun h => ?_⟩
          · rw [hfree.1] at h
            cases h
          · rw [hfree.2] at h
            cases h
        rw [hspec p hp, List.forall_mem_cons]
        simp only [hchooses, true_and]
    · have hnext : ∀ p < 64 * index.guardWords, Bitset.test (guards.mapIdx fun w possible =>
          narrowWord (!Bitset.test coverB case) (!Bitset.test coverA case)
            (Bitset.word index.guardTrue (case * index.guardWords + w)) possible) p = true ↔
            Bitset.test guards p = true ∧ Chooses index coverA coverB case p := by
        intro p hp
        rw [Bitset.test_mapIdx _ (by rwa [hlength]), narrowWord_bit _ _ _ _ (Bitset.mod_lt p), Bitset.test_row,
          Bool.not_eq_true', Bool.not_eq_true']
        rfl
      generalize hdef : (guards.mapIdx fun w possible =>
        narrowWord (!Bitset.test coverB case) (!Bitset.test coverA case)
          (Bitset.word index.guardTrue (case * index.guardWords + w)) possible) = next at hnext
      rw [if_neg hfree, result_bind]
      change ∃ out, (if next.all (· = 0) then pure next else narrowGuards index coverA coverB cases next :
        Budgeted _).result = .ok out ∧ _
      have hnextLength : next.length = index.guardWords := by rw [← hdef, List.length_mapIdx, hlength]
      by_cases hzero : next.all (· = 0) = true
      · rw [if_pos hzero]
        refine ⟨next, rfl, hnextLength, fun p hp => ?_⟩
        have hempty := (Bitset.all_zero_iff _).1 (fun x hx => of_decide_eq_true (List.all_eq_true.1 hzero x hx)) p
        have hnone := mt (hnext p hp).2 (by rw [hempty]; exact Bool.false_ne_true)
        rw [hempty, List.forall_mem_cons]
        constructor
        · intro h
          cases h
        · rintro ⟨hguard, hchooses, _⟩
          exact absurd ⟨hguard, hchooses⟩ hnone
      · rw [if_neg hzero]
        obtain ⟨out, hout, hwords, hspec⟩ := ih hnextLength
        refine ⟨out, hout, hwords, fun p hp => ?_⟩
        rw [hspec p hp, hnext p hp, List.forall_mem_cons, and_assoc]

/-- a selection between two leaves -/
def selectBranch (guard yes no : search.Id) : Branch search :=
  ⟨some guard, yes, no, 1 + search.expanded yes + search.expanded no + search.expanded guard⟩

variable {index : Index search} {guard yes no : search.Id}

theorem chooses_iff (h : Indexed target output predicates index) (bits : Mask search.size)
    {p : ℕ} (hguard : predicates.ids[p]? = some guard) :
    (∀ case ∈ ones bits.bits, Chooses index (coverOf search target yes) (coverOf search target no) case p) ↔
      (selectBranch guard yes no).Agrees target bits.bits := by
  have hfalse : ∀ {id : search.Id} {case : Fin search.size},
      Bitset.test (coverOf search target id) case = false ↔ ¬ LeafAgrees target id case := by
    intro id case
    rw [← test_coverOf, Bool.not_eq_true]
  have hchooses : ∀ case : Fin search.size,
      Chooses index (coverOf search target yes) (coverOf search target no) case p ↔
        (selectBranch guard yes no).value case = target.get case := by
    intro case
    unfold Chooses
    rw [hfalse, hfalse, h.guards case p guard hguard, ← Bool.not_eq_true, h.guards case p guard hguard]
    change (¬ LeafAgrees target no case → _) ∧ (¬ LeafAgrees target yes case → _) ↔
      (if (search.value guard case).val = 1 then search.value yes case else search.value no case) = target.get case
    unfold LeafAgrees
    split
    next htrue =>
      simp only [htrue, implies_true, true_and, not_true_eq_false, imp_false, not_not]
    next hfalse =>
      simp only [hfalse, imp_false, not_not, not_false_eq_true, implies_true, and_true]
  constructor
  · intro hall case hcase
    exact (hchooses case).1 (hall case (Bitset.mem_elements.2 hcase))
  · intro hagrees case hcase
    have htest := Bitset.mem_elements.1 hcase
    exact (hchooses ⟨case, bits.within case htest⟩).2 (hagrees ⟨case, bits.within case htest⟩ htest)

theorem nth_result {α : Type} {l : List α} {i : ℕ} {a : α} (h : l[i]? = some a) : (nth l i).result = .ok a := by
  rw [nth, h]
  rfl

@[simp] theorem result_work (units : ℕ) : (work units).result = .ok () := rfl

theorem tryPair_exact (h : Indexed target output predicates index) (bits : Mask search.size)
    {first : search.Id} (hfirst : predicates.ids[0]? = some first) {pair ceiling : ℕ}
    (hyes : index.leaves[pair / index.leaves.length]? = some yes)
    (hno : index.leaves[pair % index.leaves.length]? = some no) {P : Branch search → Prop} {best : Option (Branch search)}
    (hbest : Cheapest Branch.cost P ceiling best) :
    ∃ next, (tryPair index bits.bits ceiling best pair).result = .ok next ∧ Cheapest Branch.cost
      (fun b => P b ∨ ∃ guard ∈ predicates.ids, b = selectBranch guard yes no ∧ b.Agrees target bits.bits) ceiling
        next := by
  have hcost : ∀ {i : ℕ} {id : search.Id}, index.leaves[i]? = some id →
      (nth index.costs i).result = .ok (search.expanded id) := by
    intro i id hid
    apply nth_result
    rw [h.costs, List.getElem?_map, hid]
    rfl
  have hcover : ∀ {i : ℕ} {id : search.Id}, index.leaves[i]? = some id →
      (nth index.cover i).result = .ok (coverOf search target id) := by
    intro i id hid
    apply nth_result
    rw [h.cover, List.getElem?_map, hid]
    rfl
  have hsorted : ∀ {p q : ℕ} {g g' : search.Id}, predicates.ids[p]? = some g → predicates.ids[q]? = some g' → p ≤ q →
      search.expanded g ≤ search.expanded g' := by
    intro p q g g' hg hg' hle
    obtain ⟨hp, rfl⟩ := List.getElem?_eq_some_iff.1 hg
    obtain ⟨hq, rfl⟩ := List.getElem?_eq_some_iff.1 hg'
    rcases hle.eq_or_lt with rfl | hlt
    · exact le_rfl
    · exact List.pairwise_iff_getElem.1 predicates.sorted p q hp hq hlt
  obtain ⟨out, hout, hlength, hspec⟩ := @narrowGuards_exact _ index (coverOf search target yes)
    (coverOf search target no) (ones bits.bits) (full predicates.ids.length) (by rw [full_length, h.guardWords])
  -- what is left of the predicates
  have hleft : ∀ {p : ℕ} {guard : search.Id}, predicates.ids[p]? = some guard →
      (Bitset.test out p = true ↔ (selectBranch guard yes no).Agrees target bits.bits) := by
    intro p guard hguard
    have hp := (List.getElem?_eq_some_iff.1 hguard).1
    have hwords := lt_words hp
    rw [← h.guardWords] at hwords
    rw [hspec p hwords, test_full, decide_eq_true hp, chooses_iff h bits hguard]
    exact and_iff_right rfl
  unfold tryPair
  simp only [result_bind, result_work, h.table, hcost hyes, hcost hno, nth_result hfirst, ok_bind, result_ite,
    hcover hyes, hcover hno, hout]
  change ∃ next, (if limit Branch.cost ceiling best < _ then _ else _) = _ ∧ _
  by_cases hskip : limit Branch.cost ceiling best <
      1 + search.expanded yes + search.expanded no + search.expanded first
  · rw [if_pos hskip]
    refine ⟨best, rfl, hbest.skip ?_⟩
    rintro b ⟨guard, hguard, rfl, _⟩
    obtain ⟨p, hp⟩ := List.mem_iff_getElem?.1 hguard
    have hle := hsorted hfirst hp (Nat.zero_le p)
    exact hskip.trans_le (Nat.add_le_add_left hle _)
  · rw [if_neg hskip]
    cases hhead : (ones out).head? with
    | none =>
      refine ⟨best, rfl, hbest.skip ?_⟩
      rintro b ⟨guard, hguard, rfl, hagrees⟩
      obtain ⟨p, hp⟩ := List.mem_iff_getElem?.1 hguard
      have htest := (hleft hp).2 hagrees
      rw [Bitset.head_elements_none hhead p] at htest
      cases htest
    | some p =>
      obtain ⟨htest, hleast⟩ := Bitset.head_elements hhead
      have hp : p < predicates.ids.length := by
        have hlt := Bitset.lt_of_test htest
        rw [hlength] at hlt
        have hfull := ((hspec p hlt).1 htest).1
        rw [test_full] at hfull
        exact of_decide_eq_true hfull
      have hguard : predicates.ids[p]? = some predicates.ids[p] := List.getElem?_eq_getElem hp
      simp only [result_bind, nth_result hguard, nth_result hyes, nth_result hno, ok_bind]
      refine ⟨_, rfl, hbest.offer (Q := fun b => ∃ guard ∈ predicates.ids, b = selectBranch guard yes no ∧
        b.Agrees target bits.bits) (a := selectBranch predicates.ids[p] yes no) ?_ ?_⟩
      · exact ⟨_, List.getElem_mem hp, rfl, (hleft hguard).1 htest⟩
      · rintro b ⟨guard, hmem, rfl, hagrees⟩
        obtain ⟨q, hq⟩ := List.mem_iff_getElem?.1 hmem
        have hle := hsorted hguard hq (hleast q ((hleft hq).2 hagrees))
        exact Nat.add_le_add_left hle _

/-- **Branches.** A branch is found if one within the ceiling agrees, and it is a cheapest one. -/
theorem branch_exact (h : Indexed target output predicates index) (bits : Mask search.size)
    (ceiling : ℕ) :
    ∃ found, (index.branch bits.bits ceiling).result = .ok found ∧ Cheapest Branch.cost
      (fun b => IsBranch search output predicates b ∧ b.Agrees target bits.bits) ceiling found := by
  -- leaves by themselves, then selections
  have hfragment : ∀ b, IsBranch search output predicates b ∧ b.Agrees target bits.bits ↔
      (∃ id ∈ index.leaves, b = leafBranch id ∧ b.Agrees target bits.bits) ∨
      ∃ guard ∈ predicates.ids, ∃ yes ∈ index.leaves, ∃ no ∈ index.leaves, b = selectBranch guard yes no ∧
        b.Agrees target bits.bits := by
    intro b
    constructor
    · rintro ⟨hb, hagrees⟩
      cases hb with
      | leaf hleaf => exact .inl ⟨_, (h.leaves _).2 hleaf, rfl, hagrees⟩
      | select hguard hyes hno =>
        exact .inr ⟨_, hguard, _, (h.leaves _).2 hyes, _, (h.leaves _).2 hno, rfl, hagrees⟩
    · rintro (⟨id, hid, rfl, hagrees⟩ | ⟨guard, hguard, yes, hyes, no, hno, rfl, hagrees⟩)
      · exact ⟨.leaf ((h.leaves id).1 hid), hagrees⟩
      · exact ⟨.select hguard ((h.leaves yes).1 hyes) ((h.leaves no).1 hno), hagrees⟩
  obtain ⟨best, hscan, hbest⟩ := @scanLeaves_exact search target bits ceiling _ h.sorted
  rw [← h.costs, ← h.cover] at hscan
  unfold Index.branch
  simp only [result_bind, hscan, ok_bind, h.table]
  by_cases hempty : predicates.ids = []
  · rw [if_pos hempty]
    refine ⟨best, rfl, hbest.congr fun b => ?_⟩
    rw [hfragment, hempty]
    simp
  · rw [if_neg hempty]
    obtain ⟨out, hout, hlength, hspec⟩ := @narrowPairs_exact _ index (ones bits.bits)
      (full (index.leaves.length * index.leaves.length)) (by rw [full_length, h.pairWords])
    simp only [result_bind, result_work, ok_bind, hout]
    -- a selection that agrees leaves its pair
    have hleft : ∀ {a b : ℕ} {guard yes no : search.Id}, index.leaves[a]? = some yes → index.leaves[b]? = some no →
        (selectBranch guard yes no).Agrees target bits.bits →
        ∃ left, out = some left ∧ Bitset.test left (a * index.leaves.length + b) = true := by
      intro a b guard yes no hyes hno hagrees
      have hpair := pair_lt (List.getElem?_eq_some_iff.1 hyes).1 (List.getElem?_eq_some_iff.1 hno).1
      have hwords := lt_words hpair
      rw [← h.pairWords] at hwords
      rw [hspec _ hwords, test_full, decide_eq_true hpair]
      refine ⟨rfl, fun case hcase => ?_⟩
      have htest := Bitset.mem_elements.1 hcase
      refine (h.pairs ⟨case, bits.within case htest⟩ a b yes no hyes hno).2 ?_
      have hvalue := hagrees ⟨case, bits.within case htest⟩ htest
      change (if (search.value guard _).val = 1 then search.value yes _ else search.value no _) = _ at hvalue
      split at hvalue
      · exact .inl hvalue
      · exact .inr hvalue
    cases out with
    | none =>
      refine ⟨best, rfl, hbest.congr fun b => ?_⟩
      rw [hfragment]
      refine (or_iff_left ?_).symm
      rintro ⟨guard, _, yes, hyes, no, hno, rfl, hagrees⟩
      obtain ⟨a, ha⟩ := List.mem_iff_getElem?.1 hyes
      obtain ⟨b, hb⟩ := List.mem_iff_getElem?.1 hno
      obtain ⟨left, hnone, _⟩ := hleft ha hb hagrees
      cases hnone
    | some left =>
      have hfirst : ∃ first, predicates.ids[0]? = some first :=
        ⟨_, List.getElem?_eq_getElem (List.length_pos_of_ne_nil hempty)⟩
      obtain ⟨first, hfirst⟩ := hfirst
      have hindex : ∀ pair ∈ ones left, pair < index.leaves.length * index.leaves.length := by
        intro pair hpair
        have htest := Bitset.mem_elements.1 hpair
        have hlt := Bitset.lt_of_test htest
        rw [hlength left rfl] at hlt
        have hfull := ((hspec pair hlt).1 ⟨left, rfl, htest⟩).1
        rw [test_full] at hfull
        exact of_decide_eq_true hfull
      have hloop := Cheapest.foldlM (F := fun best pair => (tryPair index bits.bits ceiling best pair).result)
        (l := ones left) (G := fun pair b => ∃ yes no, index.leaves[pair / index.leaves.length]? = some yes ∧
          index.leaves[pair % index.leaves.length]? = some no ∧ ∃ guard ∈ predicates.ids,
            b = selectBranch guard yes no ∧ b.Agrees target bits.bits) ?_ hbest
      · obtain ⟨found, hfound, hcheapest⟩ := hloop
        refine ⟨found, ?_, hcheapest.congr fun b => ?_⟩
        · change ((ones left).foldlM (tryPair index bits.bits ceiling) best).result = _
          rw [result_foldlM]
          exact hfound
        · rw [hfragment]
          refine or_congr_right ?_
          constructor
          · rintro ⟨pair, _, yes, no, hyes, hno, guard, hguard, rfl, hagrees⟩
            exact ⟨guard, hguard, yes, List.mem_of_getElem? hyes, no, List.mem_of_getElem? hno, rfl, hagrees⟩
          · rintro ⟨guard, hguard, yes, hyes, no, hno, rfl, hagrees⟩
            obtain ⟨a, ha⟩ := List.mem_iff_getElem?.1 hyes
            obtain ⟨b, hb⟩ := List.mem_iff_getElem?.1 hno
            obtain ⟨_, hsome, htest⟩ := hleft ha hb hagrees
            cases hsome
            have hlt := (List.getElem?_eq_some_iff.1 hb).1
            have hpos := (Nat.zero_le b).trans_lt hlt
            have hdiv : (a * index.leaves.length + b) / index.leaves.length = a := by
              rw [Nat.mul_comm, Nat.mul_add_div hpos, Nat.div_eq_of_lt hlt, Nat.add_zero]
            refine ⟨_, Bitset.mem_elements.2 htest, yes, no, ?_, ?_, guard, hguard, rfl, hagrees⟩
            · rw [hdiv, ha]
            · rw [Nat.mul_add_mod_of_lt hlt, hb]
      · intro pair hpair P current hcurrent
        have hlt := hindex pair hpair
        have hpos : 0 < index.leaves.length := Nat.pos_of_mul_pos_left ((Nat.zero_le pair).trans_lt hlt)
        have hyes := List.getElem?_eq_getElem (l := index.leaves) (Nat.div_lt_of_lt_mul hlt)
        have hno := List.getElem?_eq_getElem (l := index.leaves) (Nat.mod_lt pair hpos)
        obtain ⟨next, hnext, hcheapest⟩ := tryPair_exact h bits hfirst hyes hno hcurrent
        refine ⟨next, hnext, hcheapest.congr fun b => or_congr_right ?_⟩
        constructor
        · rintro ⟨guard, hguard, hb, hagrees⟩
          exact ⟨_, _, hyes, hno, guard, hguard, hb, hagrees⟩
        · rintro ⟨yes, no, hyes', hno', guard, hguard, hb, hagrees⟩
          obtain rfl := Option.some.inj (hyes.symm.trans hyes')
          obtain rfl := Option.some.inj (hno.symm.trans hno')
          exact ⟨guard, hguard, hb, hagrees⟩

/-! ## Answers -/

/-- the tuples of which a guard is true -/
def onBits (guard : search.Id) : Mask search.size := ⟨onMask guard, fill_spec.1, fun j hj => by
  obtain ⟨case, _, rfl⟩ := (fill_spec.2 j).1 hj
  exact case.isLt⟩

theorem test_on (guard : search.Id) (case : Fin search.size) :
    Bitset.test (onBits guard).bits case = true ↔ (search.value guard case).val = 1 :=
  (fill_spec.2 case).trans (exists_case case)

theorem test_off (guard : search.Id) {i : ℕ} (hi : i < 64 * words search.size) :
    Bitset.test (((full search.size).zip (onMask guard)).map fun (a, b) => a &&& ~~~b) i =
      (decide (i < search.size) && !Bitset.test (onMask guard) i) := by
  rw [Bitset.test_zipWith (by rw [full_length]; exact (onBits guard).length.symm) (fun a b => a &&& ~~~b) i
    (by rwa [full_length]), BitVec.getLsbD_and, BitVec.getLsbD_not, decide_eq_true (Bitset.mod_lt i), Bool.true_and,
    ← test_full]
  rfl

/-- the other tuples -/
def offBits (guard : search.Id) : Mask search.size :=
  ⟨((full search.size).zip (onMask guard)).map fun (a, b) => a &&& ~~~b, by
    rw [List.length_map, List.length_zip, full_length, (onBits guard).length.symm]
    exact min_self _, fun i hi => by
    have hlt := Bitset.lt_of_test hi
    rw [List.length_map, List.length_zip, full_length] at hlt
    rw [test_off guard (by omega), Bool.and_eq_true] at hi
    exact of_decide_eq_true hi.1⟩

theorem test_off_case (guard : search.Id) (case : Fin search.size) :
    Bitset.test (offBits guard).bits case = true ↔ ¬ (search.value guard case).val = 1 := by
  change Bitset.test (((full search.size).zip (onMask guard)).map fun (a, b) => a &&& ~~~b) case = true ↔ _
  rw [test_off guard (lt_words case.isLt), decide_eq_true case.isLt, Bool.true_and, Bool.not_eq_true',
    ← test_on, ← Bool.not_eq_true]
  rfl

/-- a selection between two branches -/
def selectAnswer (guard : search.Id) (yes no : Branch search) : Answer search :=
  ⟨some guard, yes, no, 1 + search.expanded guard + yes.cost + no.cost⟩

theorem selectAnswer_agrees {yes no : Branch search} :
    (selectAnswer guard yes no).Agrees target ↔
      yes.Agrees target (onBits guard).bits ∧ no.Agrees target (offBits guard).bits := by
  constructor
  · intro h
    refine ⟨fun case hcase => ?_, fun case hcase => ?_⟩
    · have hvalue := h case
      change (if (search.value guard case).val = 1 then yes.value case else no.value case) = _ at hvalue
      rwa [if_pos ((test_on guard case).1 hcase)] at hvalue
    · have hvalue := h case
      change (if (search.value guard case).val = 1 then yes.value case else no.value case) = _ at hvalue
      rwa [if_neg ((test_off_case guard case).1 hcase)] at hvalue
  · rintro ⟨hyes, hno⟩ case
    change (if (search.value guard case).val = 1 then yes.value case else no.value case) = _
    split
    next htrue => exact hyes case ((test_on guard case).2 htrue)
    next hfalse => exact hno case ((test_off_case guard case).2 hfalse)

theorem least_le (h : Indexed target output predicates index) {least : ℕ}
    (hleast : index.costs.head? = some least) {b : Branch search} (hb : IsBranch search output predicates b) :
    least ≤ b.cost := by
  have hleaf : ∀ {id : search.Id}, IsLeaf search output id → least ≤ search.expanded id := by
    intro id hid
    have hmem := (h.leaves id).2 hid
    have hsorted := h.sorted
    rw [h.costs] at hleast
    cases hleaves : index.leaves with
    | nil =>
      rw [hleaves] at hmem
      cases hmem
    | cons first rest =>
      rw [hleaves] at hmem hsorted hleast
      cases hleast
      rcases List.mem_cons.1 hmem with rfl | hmem
      · exact le_rfl
      · exact (List.pairwise_cons.1 hsorted).1 id hmem
  cases hb with
  | leaf hid => exact hleaf hid
  | select _ hyes _ =>
    have hle := hleaf hyes
    dsimp only
    omega

theorem tryGuard_exact (h : Indexed target output predicates index) (guard : search.Id)
    {P : Answer search → Prop} {answer : Option (Answer search)} (hanswer : Cheapest Answer.cost P treeCost answer) :
    ∃ next, (tryGuard index answer guard).result = .ok next ∧ Cheapest Answer.cost (fun a => P a ∨ ∃ yes no,
      IsBranch search output predicates yes ∧ IsBranch search output predicates no ∧ a = selectAnswer guard yes no ∧
        a.Agrees target) treeCost next := by
  have hceiling : (answer.map Answer.cost).getD treeCost = limit Answer.cost treeCost answer := by
    cases answer with
    | none => rfl
    | some a => exact (Cheapest.limit_some hanswer).symm
  unfold tryGuard
  dsimp only
  rw [hceiling]
  cases hleast : index.costs.head? with
  | none =>
    -- without leaves there are no branches
    refine ⟨answer, rfl, hanswer.skip ?_⟩
    rintro a ⟨yes, no, hyes, _, rfl, _⟩
    rw [h.costs, List.head?_map, Option.map_eq_none_iff, List.head?_eq_none_iff] at hleast
    have hnone : ∀ id, ¬ IsLeaf search output id := by
      intro id hid
      have hmem := (h.leaves id).2 hid
      rw [hleast] at hmem
      cases hmem
    cases hyes with
    | leaf hid => exact absurd hid (hnone _)
    | select _ hid _ => exact absurd hid (hnone _)
  | some least =>
    dsimp only
    by_cases hskip : limit Answer.cost treeCost answer < 1 + search.expanded guard + 2 * least
    · rw [if_pos hskip]
      refine ⟨answer, rfl, hanswer.skip ?_⟩
      rintro a ⟨yes, no, hyes, hno, rfl, _⟩
      have hyesLeast := least_le h hleast hyes
      have hnoLeast := least_le h hleast hno
      change _ < 1 + search.expanded guard + yes.cost + no.cost
      omega
    · rw [if_neg hskip]
      generalize hlimit : limit Answer.cost treeCost answer = ceiling at hskip
      have hone : (subtract ceiling 1).result = .ok (ceiling - 1) := by
        rw [subtract, if_pos (by omega)]
        rfl
      have hpred : (subtract (ceiling - 1) (search.expanded guard)).result =
          .ok (ceiling - 1 - search.expanded guard) := by
        rw [subtract, if_pos (by omega)]
        rfl
      have hrest : (subtract (ceiling - 1 - search.expanded guard) least).result =
          .ok (ceiling - 1 - search.expanded guard - least) := by
        rw [subtract, if_pos (by omega)]
        rfl
      obtain ⟨foundYes, hfoundYes, hcheapestYes⟩ :=
        branch_exact h (onBits guard) (ceiling - 1 - search.expanded guard - least)
      simp only [result_bind, result_work, ok_bind, hone, hpred, hrest]
      change ∃ next, ((index.branch (onBits guard).bits
        (ceiling - 1 - search.expanded guard - least)).result >>= _) = _ ∧ _
      rw [hfoundYes, ok_bind]
      cases foundYes with
      | none =>
        refine ⟨answer, rfl, hanswer.skip ?_⟩
        rintro a ⟨yes, no, hyes, hno, rfl, hagrees⟩
        have habove := hcheapestYes yes ⟨hyes, (selectAnswer_agrees.1 hagrees).1⟩
        have hnoLeast := least_le h hleast hno
        rw [hlimit]
        change _ < 1 + search.expanded guard + yes.cost + no.cost
        omega
      | some yes =>
        obtain ⟨⟨hyes, hyesAgrees⟩, hyesCost, hyesLeast⟩ := hcheapestYes
        have hyesRest : (subtract (ceiling - 1 - search.expanded guard) yes.cost).result =
            .ok (ceiling - 1 - search.expanded guard - yes.cost) := by
          rw [subtract, if_pos (by omega)]
          rfl
        obtain ⟨foundNo, hfoundNo, hcheapestNo⟩ :=
          branch_exact h (offBits guard) (ceiling - 1 - search.expanded guard - yes.cost)
        simp only [result_bind, ok_bind, hyesRest]
        change ∃ next, ((index.branch (offBits guard).bits
          (ceiling - 1 - search.expanded guard - yes.cost)).result >>= _) =
          _ ∧ _
        rw [hfoundNo, ok_bind]
        cases foundNo with
        | none =>
          refine ⟨answer, rfl, hanswer.skip ?_⟩
          rintro a ⟨yes', no, hyes', hno, rfl, hagrees⟩
          obtain ⟨hon, hoff⟩ := selectAnswer_agrees.1 hagrees
          have habove := hcheapestNo no ⟨hno, hoff⟩
          have hle := hyesLeast yes' ⟨hyes', hon⟩
          rw [hlimit]
          change _ < 1 + search.expanded guard + yes'.cost + no.cost
          omega
        | some no =>
          obtain ⟨⟨hno, hnoAgrees⟩, hnoCost, hnoLeast⟩ := hcheapestNo
          have hwithin : (selectAnswer guard yes no).cost ≤ limit Answer.cost treeCost answer := by
            rw [hlimit]
            change 1 + search.expanded guard + yes.cost + no.cost ≤ ceiling
            omega
          refine ⟨_, rfl, ?_⟩
          have hoffer := hanswer.offer (Q := fun a => ∃ yes no, IsBranch search output predicates yes ∧
            IsBranch search output predicates no ∧ a = selectAnswer guard yes no ∧ a.Agrees target)
            (a := selectAnswer guard yes no)
            ⟨yes, no, hyes, hno, rfl, selectAnswer_agrees.2 ⟨hyesAgrees, hnoAgrees⟩⟩ ?_
          · simp only [hwithin, true_and] at hoffer
            exact hoffer
          · rintro a ⟨yes', no', hyes', hno', rfl, hagrees⟩
            obtain ⟨hon, hoff⟩ := selectAnswer_agrees.1 hagrees
            have hleYes := hyesLeast yes' ⟨hyes', hon⟩
            have hleNo := hnoLeast no' ⟨hno', hoff⟩
            change 1 + search.expanded guard + yes.cost + no.cost ≤ 1 + search.expanded guard + yes'.cost + no'.cost
            omega

/-- **Answers.** The answer for a root is a cheapest tree of the fragment that equals the target. -/
theorem answer_exact (h : Indexed target output predicates index) :
    ∃ answer, (answerFor index predicates).result = .ok answer ∧ Cheapest Answer.cost
      (fun a => IsAnswer search output predicates a ∧ a.Agrees target) treeCost answer := by
  obtain ⟨found, hfound, hcheapest⟩ := branch_exact h (Mask.full search.size) treeCost
  have hall : ∀ b : Branch search, b.Agrees target (Mask.full search.size).bits ↔
      ∀ case, b.value case = target.get case := by
    intro b
    have hfull : ∀ case : Fin search.size, Bitset.test (Mask.full search.size).bits case = true := fun case =>
      (test_full search.size case).trans (decide_eq_true case.isLt)
    exact ⟨fun hagrees case => hagrees case (hfull case), fun hvalue case _ => hvalue case⟩
  have hstart : Cheapest Answer.cost (fun a => ∃ b, IsBranch search output predicates b ∧ a = ⟨none, b, b, b.cost⟩ ∧
      a.Agrees target) treeCost (found.map fun branch => ⟨none, branch, branch, branch.cost⟩) := by
    cases found with
    | none =>
      rintro a ⟨b, hb, rfl, hagrees⟩
      exact hcheapest b ⟨hb, (hall b).2 hagrees⟩
    | some b =>
      refine ⟨⟨b, hcheapest.1.1, rfl, (hall b).1 hcheapest.1.2⟩, hcheapest.2.1, ?_⟩
      rintro a ⟨b', hb', rfl, hagrees⟩
      exact hcheapest.2.2 b' ⟨hb', (hall b').2 hagrees⟩
  obtain ⟨answer, hanswer, hbest⟩ := Cheapest.foldlM (F := fun answer guard => (tryGuard index answer guard).result)
    (l := predicates.ids) (G := fun guard a => ∃ yes no, IsBranch search output predicates yes ∧
      IsBranch search output predicates no ∧ a = selectAnswer guard yes no ∧ a.Agrees target)
    (fun guard _ P current hcurrent => tryGuard_exact h guard hcurrent) hstart
  refine ⟨answer, ?_, hbest.congr fun a => ?_⟩
  · unfold answerFor
    rw [result_bind]
    change ((index.branch (Mask.full search.size).bits treeCost).result >>= _) = _
    rw [hfound, ok_bind, result_foldlM]
    exact hanswer
  · constructor
    · rintro (⟨b, hb, rfl, hagrees⟩ | ⟨guard, hguard, yes, no, hyes, hno, rfl, hagrees⟩)
      · exact ⟨.branch hb, hagrees⟩
      · exact ⟨.select hguard hyes hno, hagrees⟩
    · rintro ⟨ha, hagrees⟩
      cases ha with
      | branch hb => exact .inl ⟨_, hb, rfl, hagrees⟩
      | select hguard hyes hno => exact .inr ⟨_, hguard, _, _, hyes, hno, rfl, hagrees⟩

end Index

/-! ## Budgets -/

section Budget

variable {α : Type}

def workOf (charges : List (Charge × ℕ)) : ℕ := (charges.map fun
  | (.work, amount) => amount
  | (.cells, _) => 0).sum

def cellsOf (charges : List (Charge × ℕ)) : ℕ := (charges.map fun
  | (.work, _) => 0
  | (.cells, amount) => amount).sum

/-- a meter that can pay for a computation -/
structure Suffices (m : Meter) (x : Budgeted α) : Prop where
  work : m.used + workOf x.charges ≤ m.limit
  cells : m.cells + cellsOf x.charges ≤ m.maxCells

theorem asked_work (charges : List (Charge × ℕ)) : asked charges .work = workOf charges := by
  induction charges with
  | nil => rfl
  | cons c charges ih =>
    obtain ⟨charge, amount⟩ := c
    rw [asked_cons, ih]
    cases charge <;> rfl

theorem asked_cells (charges : List (Charge × ℕ)) : asked charges .cells = cellsOf charges := by
  induction charges with
  | nil => rfl
  | cons c charges ih =>
    obtain ⟨charge, amount⟩ := c
    rw [asked_cons, ih]
    cases charge <;> rfl

/-- a meter takes what its limits leave; a saturated counter has taken no more than was asked -/
theorem meter_rooms : Rooms Meter.pay fun m charge n => match charge with
    | .work => m.used + n ≤ m.limit
    | .cells => m.cells + n ≤ m.maxCells where
  refused {m r n e} h := by
    cases r with
    | work =>
      unfold Meter.pay at h
      dsimp only at h ⊢
      split_ifs at h
      omega
    | cells =>
      unfold Meter.pay at h
      dsimp only at h ⊢
      split_ifs at h
      omega
  paid {m r n m'} h q k hfits := by
    cases r with
    | work =>
      unfold Meter.pay at h
      dsimp only at h
      split_ifs at h
      obtain rfl := Except.ok.inj h
      cases q with
      | work =>
        rw [if_pos rfl] at hfits
        dsimp only at hfits ⊢
        omega
      | cells => simpa using hfits
    | cells =>
      unfold Meter.pay at h
      dsimp only at h
      split_ifs at h
      obtain rfl := Except.ok.inj h
      cases q with
      | work => simpa using hfits
      | cells =>
        rw [if_pos rfl] at hfits
        dsimp only at hfits ⊢
        omega
  less {m r n} k h := by
    cases r with
    | work =>
      dsimp only at h ⊢
      omega
    | cells =>
      dsimp only at h ⊢
      omega

theorem run_suffices {x : Budgeted α} {m : Meter} (h : Suffices m x) : (run Meter.pay Fault.stop x m).1 = x.result := by
  refine meter_rooms.run_enough fun charge => ?_
  cases charge with
  | work =>
    rw [asked_work]
    exact h.work
  | cells =>
    rw [asked_cells]
    exact h.cells

end Budget

/-- the index for a target, and a branch of it -/
def branchFor (search : TopDown) (target : Vector I128 search.size) (output : Kind) (predicates : Predicates search)
    (bits : Mask search.size) (ceiling : ℕ) : Budgeted (Option (Branch search)) := do
  let index ← Index.new search target output predicates
  index.branch bits.bits ceiling

/-- **The indexed search.** With a meter that suffices, a branch is found if one within the ceiling agrees on the mask, and
the answer of every root exists if a tree within the cap equals its target; both are cheapest. -/
theorem indexed_search (search : TopDown) (predicates : Predicates search) :
    (∀ target output bits ceiling, ∃ found, Cheapest Branch.cost
        (fun b => IsBranch search output predicates b ∧ b.Agrees target bits.bits) ceiling found ∧
      ∀ m, Suffices m (branchFor search target output predicates bits ceiling) →
        (run Meter.pay Fault.stop (branchFor search target output predicates bits ceiling) m).1 = .ok found) ∧
    ∀ targets, ∃ answers, List.Forall₂ (fun t answer => Cheapest Answer.cost
        (fun a => IsAnswer search t.2 predicates a ∧ a.Agrees t.1) treeCost answer) targets answers ∧
      ∀ m, Suffices m (programFor search targets predicates) →
        (run Meter.pay Fault.stop (programFor search targets predicates) m).1 = .ok answers := by
  constructor
  · intro target output bits ceiling
    obtain ⟨found, hfound, hcheapest⟩ := branch_exact (@new_indexed search target output predicates) bits ceiling
    refine ⟨found, hcheapest, fun m hm => ?_⟩
    rw [run_suffices hm, branchFor, result_bind, new_result, ok_bind, hfound]
  · intro targets
    have hroots : ∃ answers, (programFor search targets predicates).result = .ok answers ∧
        List.Forall₂ (fun t answer => Cheapest Answer.cost
          (fun a => IsAnswer search t.2 predicates a ∧ a.Agrees t.1) treeCost answer) targets answers := by
      unfold programFor
      rw [result_mapM]
      induction targets with
      | nil => exact ⟨[], rfl, .nil⟩
      | cons t targets ih =>
        obtain ⟨answers, hanswers, hall⟩ := ih
        obtain ⟨answer, hanswer, hcheapest⟩ := answer_exact (@new_indexed search t.1 t.2 predicates)
        refine ⟨answer :: answers, ?_, .cons hcheapest hall⟩
        have hfirst : (Index.new search t.1 t.2 predicates >>= fun index => answerFor index predicates).result =
            .ok answer := by rw [result_bind, new_result, ok_bind, hanswer]
        rw [List.mapM_cons, hanswers]
        change ((Index.new search t.1 t.2 predicates >>= fun index => answerFor index predicates).result >>= _) = _
        rw [hfirst]
        rfl
    obtain ⟨answers, hanswers, hall⟩ := hroots
    refine ⟨answers, hall, fun m hm => ?_⟩
    rw [run_suffices hm, hanswers]

def zero128 : I128 := ⟨0, I128.lo_zero, I128.hi_zero⟩

def one128 : I128 := ⟨1, I128.lo_one, I128.hi_one⟩

/-- a boolean input and two numbers, on the two tuples -/
def toggleArena : List (Entry 2) :=
  [⟨.input 0, #v[zero128, one128], 1⟩, ⟨.int zero128, #v[zero128, zero128], 1⟩, ⟨.int one128, #v[one128, one128], 1⟩]

theorem toggle_earlier : ∀ id c a b, toggleArena[id]?.map Entry.node = some (.select c a b) → a < id := by
  intro id c a b h
  rcases id with _ | _ | _ | id <;> simp [toggleArena] at h

def toggle : TopDown := ⟨[.bool], 2, toggleArena, toggle_earlier⟩

/-- the ids of the input and of the two numbers -/
def toggleId (n : ℕ) : toggle.Id := Fin.ofNat 3 n

theorem toggle_sorted : [toggleId 0].Pairwise fun p q => toggle.expanded p ≤ toggle.expanded q :=
  List.pairwise_singleton _ _

def togglePredicates : Predicates toggle := ⟨[toggleId 0], toggle_sorted⟩

/-- the input negated, as a number -/
def negated : Vector I128 toggle.size := #v[one128, zero128]

/-- the selection that negates the input -/
def toggleBranch : Branch toggle := ⟨some (toggleId 0), toggleId 1, toggleId 2, 4⟩

theorem toggleBranch_answer : IsAnswer toggle .int togglePredicates ⟨none, toggleBranch, toggleBranch, 4⟩ := by
  have hone : IsLeaf toggle .int (toggleId 1) := ⟨by rw [TopDown.kind]; rfl, by decide⟩
  have htwo : IsLeaf toggle .int (toggleId 2) := ⟨by rw [TopDown.kind]; rfl, by decide⟩
  have hguard : toggleId 0 ∈ togglePredicates.ids := List.mem_singleton.2 rfl
  exact .branch (.select hguard hone htwo)

theorem toggleBranch_agrees : Answer.Agrees negated ⟨none, toggleBranch, toggleBranch, 4⟩ := by
  intro case
  fin_cases case <;> rfl

/-- the negation is found, at the cost of one selection -/
theorem indexed_search_toggle : ∃ a m,
    (run Meter.pay Fault.stop (programFor toggle [(negated, .int)] togglePredicates) m).1 = .ok [some a] ∧
      a.Agrees negated ∧ a.cost ≤ 4 := by
  obtain ⟨answers, hcheapest, hrun⟩ := (indexed_search toggle togglePredicates).2 [(negated, .int)]
  have hmeter := hrun ⟨0, workOf (programFor toggle [(negated, .int)] togglePredicates).charges, 0,
    cellsOf (programFor toggle [(negated, .int)] togglePredicates).charges⟩ ⟨by rw [Nat.zero_add], by rw [Nat.zero_add]⟩
  cases hcheapest with
  | @cons _ answer _ _ h hnil =>
    cases hnil
    cases answer with
    | none => exact absurd (h _ ⟨toggleBranch_answer, toggleBranch_agrees⟩) (by decide)
    | some a => exact ⟨a, _, hmeter, h.1.2, h.2.2 _ ⟨toggleBranch_answer, toggleBranch_agrees⟩⟩

end ZenoFcis.Search
