/-
Sets of numbers as lists of 64-bit words. A number is an element if its bit is set; a word is emptied from its lowest
bit. Words that the list does not have are empty.

Results:
- `test_insert`, `Adds`: what one insertion adds, and what loops of insertions add;
- `elements_eq`: emptying a list of words yields its elements in ascending order;
- `all_zero_iff`, `subset_iff`: what comparisons of whole words say of the elements.
-/
import Mathlib.Tactic

namespace ZenoFcis.Lib.Bitset

def word (v : List (BitVec 64)) (w : ℕ) : BitVec 64 := v[w]?.getD 0

def test (v : List (BitVec 64)) (i : ℕ) : Bool := (word v (i / 64)).getLsbD (i % 64)

/-- a bit is set in place -/
def insert (v : List (BitVec 64)) (i : ℕ) : List (BitVec 64) := v.modify (i / 64) (· ||| 1#64 <<< (i % 64))

/-! ## Insertion -/

@[simp] theorem insert_length (v : List (BitVec 64)) (i : ℕ) : (insert v i).length = v.length :=
  List.length_modify _ _ _

variable {v u : List (BitVec 64)} {i : ℕ}

theorem test_insert (h : i < 64 * v.length) (j : ℕ) :
    test (insert v i) j = (test v j || decide (i = j)) := by
  have hword : i / 64 < v.length := Nat.div_lt_of_lt_mul h
  unfold test insert word
  rw [List.getElem?_modify]
  by_cases hsame : i / 64 = j / 64
  · have hbit : i % 64 = j % 64 ↔ i = j := by omega
    have hlt : j % 64 < 64 := Nat.mod_lt _ (by norm_num)
    rw [← hsame, List.getElem?_eq_getElem hword]
    simp only [Option.map_eq_map, Option.map_some, Option.getD_some, if_true, BitVec.getLsbD_or]
    rw [← BitVec.twoPow_eq, BitVec.getLsbD_twoPow]
    simp [hbit, Nat.mod_lt]
  · have hne : ¬ i = j := fun heq => hsame (by rw [heq])
    simp only [hsame, if_false, decide_eq_false hne, Bool.or_false, Option.map_eq_map, Option.map_id']

@[simp] theorem test_replicate (n j : ℕ) : test (List.replicate n 0#64) j = false := by
  unfold test word
  rw [List.getElem?_replicate]
  split
  · simp
  · simp

/-- an update of a list of words that adds numbers -/
def Adds (n : ℕ) (f : List (BitVec 64) → List (BitVec 64)) (S : ℕ → Prop) : Prop :=
  ∀ v, v.length = n → (f v).length = n ∧ ∀ j, test (f v) j = true ↔ test v j = true ∨ S j

namespace Adds

variable {n : ℕ} {α : Type}

/-- inserting adds one bit -/
theorem insert {i : ℕ} (h : i < 64 * n) : Adds n (Bitset.insert · i) fun j => i = j := by
  rintro v rfl
  refine ⟨insert_length v i, fun j => ?_⟩
  rw [test_insert h, Bool.or_eq_true, decide_eq_true_eq]

variable {f : List (BitVec 64) → List (BitVec 64)}

/-- adding under a condition -/
theorem ite {S : ℕ → Prop} {p : Prop} [Decidable p] (h : p → Adds n f S) :
    Adds n (fun v => if p then f v else v) fun j => p ∧ S j := by
  intro v hv
  by_cases hp : p
  · simp only [hp, if_true, true_and]
    exact h hp v hv
  · simp only [hp, if_false, false_and, or_false]
    exact ⟨hv, fun _ => trivial⟩

/-- adding for each member of a list -/
theorem foldl {f : List (BitVec 64) → α → List (BitVec 64)} {S : α → ℕ → Prop} {l : List α}
    (h : ∀ a ∈ l, Adds n (f · a) (S a)) : Adds n (fun v => l.foldl f v) fun j => ∃ a ∈ l, S a j := by
  induction l with
  | nil => exact fun v hv => ⟨hv, fun j => by simp⟩
  | cons a l ih =>
    rw [List.forall_mem_cons] at h
    intro v hv
    obtain ⟨hlength, hfirst⟩ := h.1 v hv
    obtain ⟨hlengths, hrest⟩ := ih h.2 (f v a) hlength
    refine ⟨hlengths, fun j => ?_⟩
    dsimp only at hrest hfirst ⊢
    rw [List.foldl_cons, hrest, hfirst]
    simp only [List.mem_cons, exists_eq_or_imp, or_assoc]

/-- what is added to the empty set is what it holds -/
theorem from_empty {S : ℕ → Prop} (h : Adds n f S) :
    (f (List.replicate n 0)).length = n ∧ ∀ j, test (f (List.replicate n 0)) j = true ↔ S j := by
  obtain ⟨hlength, htest⟩ := h (List.replicate n 0) List.length_replicate
  refine ⟨hlength, fun j => ?_⟩
  rw [htest, show (0 : BitVec 64) = 0#64 from rfl, test_replicate]
  simp

end Adds

/-! ## Elements -/

theorem and_pred_lt {x : BitVec 64} (h : x ≠ 0) : (x &&& (x - 1)).toNat < x.toNat := by
  have hpos : 0 < x.toNat := Nat.pos_of_ne_zero fun hzero => h (BitVec.eq_of_toNat_eq hzero)
  have hone : (1 : BitVec 64) ≤ x := BitVec.le_def.2 hpos
  calc (x &&& (x - 1)).toNat
      ≤ (x - 1).toNat := by
        rw [BitVec.toNat_and]
        exact Nat.and_le_right
    _ = x.toNat - 1 := BitVec.toNat_sub_of_le hone
    _ < x.toNat := Nat.sub_lt hpos Nat.one_pos

/-- the bits of a word, the lowest one first -/
def bits (remaining : BitVec 64) : List ℕ :=
  if remaining = 0 then [] else remaining.ctz.toNat :: bits (remaining &&& (remaining - 1))
termination_by remaining.toNat
decreasing_by exact and_pred_lt ‹_›

theorem testBit_and_pred {n k : ℕ} (hlow : ∀ j < k, n.testBit j = false) (hk : n.testBit k = true) (j : ℕ) :
    (n &&& (n - 1)).testBit j = (n.testBit j && decide (j ≠ k)) := by
  have hmod : n % 2 ^ k = 0 := by
    apply Nat.eq_of_testBit_eq
    intro j
    rw [Nat.testBit_mod_two_pow, Nat.zero_testBit]
    by_cases hj : j < k
    · rw [hlow j hj, Bool.and_false]
    · rw [decide_eq_false hj, Bool.false_and]
  obtain ⟨q, rfl⟩ := Nat.dvd_of_mod_eq_zero hmod
  have hodd : q % 2 = 1 := by
    have hbit := Nat.testBit_two_pow_mul_add q (Nat.two_pow_pos k) k
    rw [Nat.add_zero, hk, if_neg (lt_irrefl k), Nat.sub_self, Nat.testBit_zero] at hbit
    exact of_decide_eq_true hbit.symm
  obtain ⟨m, rfl⟩ : ∃ m, q = 2 * m + 1 := ⟨q / 2, by omega⟩
  have hpos : 2 ^ k - 1 < 2 ^ k := Nat.sub_lt (Nat.two_pow_pos k) Nat.one_pos
  have hpred : 2 ^ k * (2 * m + 1) - 1 = 2 ^ k * (2 * m) + (2 ^ k - 1) := by
    rw [Nat.mul_add, Nat.mul_one, Nat.add_sub_assoc (Nat.two_pow_pos k)]
  have hself := Nat.testBit_two_pow_mul_add (2 * m + 1) (Nat.two_pow_pos k) j
  rw [Nat.add_zero] at hself
  rw [Nat.testBit_and, hpred, Nat.testBit_two_pow_mul_add _ hpos, hself]
  by_cases hj : j < k
  · simp [hj]
  · rw [if_neg hj, if_neg hj]
    rcases Nat.eq_or_lt_of_not_lt hj with rfl | hj
    · simp
    · obtain ⟨i, rfl⟩ : ∃ i, j = k + 1 + i := ⟨j - (k + 1), by omega⟩
      rw [show k + 1 + i - k = i + 1 by omega, Nat.testBit_succ, Nat.testBit_succ]
      have hne : k + 1 + i ≠ k := by omega
      simp only [hne, decide_true, ne_eq, not_false_eq_true, Bool.and_true]
      rw [show (2 * m + 1) / 2 = m by omega, show 2 * m / 2 = m by omega, Bool.and_self]

theorem bits_eq (x : BitVec 64) : bits x = (List.range 64).filter x.getLsbD := by
  induction x using bits.induct with
  | case1 =>
    rw [bits, if_pos rfl]
    simp
  | case2 x hx ih =>
    have hk : x.ctz.toNat < 64 := by
      have hlt := (BitVec.ctz_lt_iff_ne_zero (x := x)).2 hx
      exact BitVec.lt_def.1 hlt
    have hlow : ∀ j < x.ctz.toNat, x.getLsbD j = false := fun j hj => BitVec.getLsbD_false_of_lt_ctz hj
    have htrue : x.getLsbD x.ctz.toNat = true := BitVec.getLsbD_true_ctz_of_ne_zero hx
    have hrest : ∀ j, (x &&& (x - 1)).getLsbD j = (x.getLsbD j && decide (j ≠ x.ctz.toNat)) := by
      intro j
      have hpos : 0 < x.toNat := Nat.pos_of_ne_zero fun hzero => hx (BitVec.eq_of_toNat_eq hzero)
      have hone : (1 : BitVec 64) ≤ x := BitVec.le_def.2 hpos
      have hpred : (x - 1).toNat = x.toNat - 1 := BitVec.toNat_sub_of_le hone
      rw [BitVec.getLsbD, BitVec.toNat_and, hpred]
      exact testBit_and_pred hlow htrue j
    -- the bits below the lowest one are no elements, and only that bit is gone from the rest
    have hsplit : List.range 64 =
        List.range x.ctz.toNat ++ x.ctz.toNat :: List.range' (x.ctz.toNat + 1) (63 - x.ctz.toNat) := by
      have happend : List.range' 0 x.ctz.toNat ++ List.range' (0 + x.ctz.toNat) (63 - x.ctz.toNat + 1) =
          List.range' 0 (x.ctz.toNat + (63 - x.ctz.toNat + 1)) := List.range'_append_1
      rw [Nat.zero_add] at happend
      rw [List.range_eq_range', List.range_eq_range', ← List.range'_succ, happend]
      congr 1
      omega
    have hbelow : ∀ y : BitVec 64, (∀ j < x.ctz.toNat, y.getLsbD j = false) →
        (List.range x.ctz.toNat).filter y.getLsbD = [] := by
      intro y hy
      rw [List.filter_eq_nil_iff]
      intro j hj
      rw [hy j (List.mem_range.1 hj)]
      exact Bool.false_ne_true
    have habove : (List.range' (x.ctz.toNat + 1) (63 - x.ctz.toNat)).filter (x &&& (x - 1)).getLsbD =
        (List.range' (x.ctz.toNat + 1) (63 - x.ctz.toNat)).filter x.getLsbD := by
      apply List.filter_congr
      intro j hj
      have hle := (List.mem_range'_1.1 hj).1
      rw [hrest, decide_eq_true (by omega), Bool.and_true]
    have hself : (x &&& (x - 1)).getLsbD x.ctz.toNat = false := by
      rw [hrest]
      simp
    rw [bits, if_neg hx, ih, hsplit, List.filter_append, List.filter_append, hbelow x hlow,
      hbelow _ fun j hj => by rw [hrest, hlow j hj, Bool.false_and], List.filter_cons_of_pos htrue,
      List.filter_cons_of_neg (by rw [hself]; exact Bool.false_ne_true), habove]
    rfl

/-- the elements of a list of words -/
def elements (v : List (BitVec 64)) : List ℕ := v.zipIdx.flatMap fun (value, w) => (bits value).map (w * 64 + ·)

theorem elements_eq (v : List (BitVec 64)) : elements v = (List.range (64 * v.length)).filter (test v) := by
  have hword : ∀ w, (List.range' (64 * w) 64).filter (test v) = (bits (word v w)).map (w * 64 + ·) := by
    intro w
    have hshift : List.range' (64 * w) 64 = (List.range 64).map (w * 64 + ·) := by
      rw [List.range_eq_range', List.map_add_range', Nat.mul_comm, Nat.add_zero]
    rw [hshift, List.filter_map, bits_eq]
    congr 1
    apply List.filter_congr
    intro j hj
    have hlt := List.mem_range.1 hj
    change test v (w * 64 + j) = _
    unfold test
    rw [show (w * 64 + j) / 64 = w by omega, show (w * 64 + j) % 64 = j by omega]
  have hrange : ∀ n, (List.range n).flatMap (fun w => (bits (word v w)).map (w * 64 + ·)) =
      (List.range (64 * n)).filter (test v) := by
    intro n
    induction n with
    | zero => rfl
    | succ n ih =>
      have happend : List.range' 0 (64 * n) ++ List.range' (0 + 64 * n) 64 = List.range' 0 (64 * n + 64) :=
        List.range'_append_1
      rw [Nat.zero_add, ← List.range_eq_range', ← List.range_eq_range'] at happend
      rw [List.range_succ, List.flatMap_append, ih, Nat.mul_succ, ← happend, List.filter_append, hword,
        List.flatMap_singleton]
  have hwords : v.zipIdx = (List.range v.length).map fun w => (word v w, w) := by
    apply List.ext_getElem
    · simp
    · intro w h h'
      rw [List.length_zipIdx] at h
      simp [word, List.getElem?_eq_getElem h]
  rw [← hrange, elements, hwords, List.flatMap_map]

/-- a bit that is set is within the length -/
theorem lt_of_test (h : test v i = true) : i < 64 * v.length := by
  by_contra hle
  have hnone : v[i / 64]? = none := List.getElem?_eq_none (by omega)
  rw [test, word, hnone] at h
  simp at h

/-- the elements are the bits that are set -/
theorem mem_elements : i ∈ elements v ↔ test v i = true := by
  rw [elements_eq, List.mem_filter, List.mem_range]
  exact ⟨fun h => h.2, fun h => ⟨lt_of_test h, h⟩⟩

theorem elements_sorted (v : List (BitVec 64)) : (elements v).Pairwise (· < ·) := by
  rw [elements_eq]
  exact List.pairwise_lt_range.filter _

/-- the first element is the least bit that is set -/
theorem head_elements (h : (elements v).head? = some i) :
    test v i = true ∧ ∀ j, test v j = true → i ≤ j := by
  obtain ⟨rest, hrest⟩ := List.head?_eq_some_iff.1 h
  refine ⟨mem_elements.1 (by rw [hrest]; exact List.mem_cons_self), fun j hj => ?_⟩
  have hsorted := elements_sorted v
  have hmem := mem_elements.2 hj
  rw [hrest] at hsorted hmem
  rcases List.mem_cons.1 hmem with rfl | hmem
  · exact le_rfl
  · exact ((List.pairwise_cons.1 hsorted).1 j hmem).le

/-- without a first element no bit is set -/
theorem head_elements_none (h : (elements v).head? = none) (j : ℕ) : test v j = false := by
  rw [List.head?_eq_none_iff] at h
  by_contra htest
  have hmem := mem_elements.2 (Bool.eq_true_of_not_eq_false htest)
  rw [h] at hmem
  cases hmem

/-! ## Words -/

theorem test_mapIdx (f : ℕ → BitVec 64 → BitVec 64) (h : i < 64 * v.length) :
    test (v.mapIdx f) i = (f (i / 64) (word v (i / 64))).getLsbD (i % 64) := by
  have hword : i / 64 < v.length := Nat.div_lt_of_lt_mul h
  unfold test word
  rw [List.getElem?_mapIdx, List.getElem?_eq_getElem hword]
  rfl

theorem mod_lt (i : ℕ) : i % 64 < 64 := Nat.mod_lt i (by norm_num)

theorem test_row (v : List (BitVec 64)) (row i : ℕ) :
    (word v (row + i / 64)).getLsbD (i % 64) = test v (row * 64 + i) := by
  unfold test
  rw [show (row * 64 + i) / 64 = row + i / 64 by omega, show (row * 64 + i) % 64 = i % 64 by omega]

/-- all words are zero when no bit is set -/
theorem all_zero_iff (v : List (BitVec 64)) : (∀ x ∈ v, x = 0) ↔ ∀ i, test v i = false := by
  constructor
  · intro h i
    unfold test word
    cases hget : v[i / 64]? with
    | none => simp
    | some x =>
      rw [Option.getD_some, h x (List.mem_of_getElem? hget)]
      simp
  · intro h x hx
    obtain ⟨w, hw⟩ := List.mem_iff_getElem?.1 hx
    apply BitVec.eq_of_getLsbD_eq
    intro j hj
    have htest := h (w * 64 + j)
    unfold test word at htest
    rw [show (w * 64 + j) / 64 = w by omega, show (w * 64 + j) % 64 = j by omega, hw, Option.getD_some] at htest
    rw [htest]
    simp

theorem test_zipWith (h : v.length = u.length) (f : BitVec 64 → BitVec 64 → BitVec 64) (i : ℕ)
    (hi : i < 64 * v.length) :
    test ((v.zip u).map fun (a, b) => f a b) i = (f (word v (i / 64)) (word u (i / 64))).getLsbD (i % 64) := by
  have hword : i / 64 < v.length := Nat.div_lt_of_lt_mul hi
  have hword' : i / 64 < u.length := h ▸ hword
  have hzip : (v.zip u)[i / 64]? = some (v[i / 64], u[i / 64]) :=
    List.getElem?_zip_eq_some.2 ⟨List.getElem?_eq_getElem hword, List.getElem?_eq_getElem hword'⟩
  unfold test word
  rw [List.getElem?_map, hzip, List.getElem?_eq_getElem hword, List.getElem?_eq_getElem hword']
  rfl

/-- `a & !b` is zero everywhere when one set is within the other -/
theorem subset_iff (h : v.length = u.length) :
    ((v.zip u).all fun (a, b) => a &&& ~~~b = 0) = true ↔ ∀ i, test v i = true → test u i = true := by
  have hmap : ((v.zip u).all fun (a, b) => a &&& ~~~b = 0) = true ↔
      ∀ x ∈ (v.zip u).map (fun (a, b) => a &&& ~~~b), x = 0 := by
    rw [List.all_eq_true, List.forall_mem_map]
    exact forall₂_congr fun p _ => decide_eq_true_iff
  have htest : ∀ i, i < 64 * v.length →
      test ((v.zip u).map fun (a, b) => a &&& ~~~b) i = (test v i && !test u i) := by
    intro i hi
    rw [test_zipWith h (fun a b => a &&& ~~~b) i hi, BitVec.getLsbD_and, BitVec.getLsbD_not, decide_eq_true (mod_lt i),
      Bool.true_and]
    rfl
  rw [hmap, all_zero_iff]
  constructor
  · intro hzero i hv
    have hi := hzero i
    rw [htest i (lt_of_test hv), hv, Bool.true_and] at hi
    simpa using hi
  · intro hsubset i
    by_contra htrue
    have htrue := Bool.eq_true_of_not_eq_false htrue
    have hlt := lt_of_test htrue
    rw [List.length_map, List.length_zip, ← h, min_self] at hlt
    rw [htest i hlt, Bool.and_eq_true] at htrue
    rw [hsubset i htrue.1] at htrue
    cases htrue.2

end ZenoFcis.Lib.Bitset
