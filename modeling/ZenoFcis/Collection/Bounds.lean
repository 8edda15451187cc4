/-
What indexed storage needs to read: adjacent keys and ranges of keys.

Model: `bounds` is the source's, on top of `keyPrefix` and `siblingPrefix`; a slice of keys stands for the stored set,
in any order and with any repetition.

Result: `indexed_reads`. The path length needs only the predecessor and the successor of a key; the bounds at a depth hold
exactly the keys that share the prefix; and they split into the bounds of the two children.
-/
import ZenoFcis.Collection.Update

namespace ZenoFcis.CollectionMerkle

open Lib

/-- `bounds`: the least and the greatest key with this prefix; depths above 256 clamp to 256 -/
def bounds (key : Key) (depth : ℕ) : Key × Key :=
  let depth := min depth keyBits
  let low := keyPrefix key depth
  let whole := depth / 8
  let remainder := depth % 8
  let high := tabulate fun i =>
    if i < whole then byteAt low i
    else if i = whole ∧ remainder ≠ 0 then byteAt low i ||| 0xff >>> UInt8.ofNat remainder
    else 0xff
  (low, high)

/-- inside an inclusive interval of keys -/
def Within (range : Key × Key) (x : Key) : Prop := before x range.1 = false ∧ before range.2 x = false

/-- the greatest key below `key`, if there is one -/
def Predecessor (keys : List Key) (key : Key) : Option Key → Prop
  | none => ∀ x ∈ keys, before x key = false
  | some p => p ∈ keys ∧ before p key = true ∧ ∀ x ∈ keys, before x key = true → x = p ∨ before x p = true

/-- the least key above `key`, if there is one -/
def Successor (keys : List Key) (key : Key) : Option Key → Prop
  | none => ∀ x ∈ keys, before key x = false
  | some s => s ∈ keys ∧ before key s = true ∧ ∀ x ∈ keys, before key x = true → x = s ∨ before s x = true

variable {key x : Key} {d : ℕ}

/-! ## The ends of a range -/

theorem fill_bit : ∀ r < 8, ∀ j < 8, ((0xff : UInt8) >>> UInt8.ofNat r).toNat.testBit (7 - j) = decide (r ≤ j) := by
  decide

theorem full_bit : ∀ j < 8, (0xff : UInt8).toNat.testBit (7 - j) = true := by decide

theorem bitSet_low {p : ℕ} (hd : d < keyBits) : bitSet (bounds key p).1 d = (decide (d < p) && bitSet key d) := by
  have hlow : bitSet (bounds key p).1 d = (decide (d < min p keyBits) && bitSet key d) := bitSet_keyPrefix hd
  rw [hlow]
  congr 1
  apply decide_eq_decide.2
  omega

theorem bitSet_high {p : ℕ} (hd : d < keyBits) : bitSet (bounds key p).2 d = (decide (p ≤ d) || bitSet key d) := by
  have hd' : d < 256 := hd
  have hlow := @bitSet_keyPrefix key (min p keyBits) d hd
  have hmin : min p keyBits = min p 256 := rfl
  rw [bitSet_eq] at hlow
  rw [bitSet_eq, bounds, byteAt_tabulate (by omega)]
  split_ifs with hwhole hpart
  · rw [hlow, decide_eq_true (show d < min p keyBits by omega), decide_eq_false (show ¬ p ≤ d by omega)]
    rfl
  · obtain ⟨hq, hr⟩ := hpart
    rw [UInt8.toNat_or, Nat.testBit_or, hlow, fill_bit _ (by omega) _ (by omega)]
    by_cases hp : p ≤ d
    · rw [decide_eq_true (show min p keyBits % 8 ≤ d % 8 by omega), decide_eq_true hp]
      simp
    · rw [decide_eq_false (show ¬ min p keyBits % 8 ≤ d % 8 by omega), decide_eq_false hp,
        decide_eq_true (show d < min p keyBits by omega)]
      simp
  · rw [full_bit _ (by omega), decide_eq_true (show p ≤ d by omega)]
    rfl

/-! ## Order and first differing bit -/

theorem before_of_bits {a b : Key} {e : ℕ} (hsame : ∀ i < e, bitSet a i = bitSet b i)
    (ha : bitSet a e = false) (hb : bitSet b e = true) : before a b = true := by
  have hne : a ≠ b := by
    intro heq
    rw [heq, hb] at ha
    cases ha
  rcases before_total hne with hab | hba
  · exact hab
  · obtain ⟨f, -, hsame', hbf, haf⟩ := before_bits hba
    rcases Nat.lt_trichotomy e f with hlt | heq | hlt
    · rw [← hsame' e hlt, hb] at ha
      cases ha
    · rw [← heq, hb] at hbf
      cases hbf
    · rw [hsame f hlt, hbf] at haf
      cases haf

/-- two keys share bits up to the first that differs -/
theorem le_sharedBits_iff {a b : Key} (hd : d ≤ keyBits) : d ≤ sharedBits a b ↔ ∀ i < d, bitSet a i = bitSet b i := by
  constructor
  · intro h i hi
    have hlen : i < ((List.range keyBits).takeWhile fun i => bit a i == bit b i).length := lt_of_lt_of_le hi h
    have hget : ((List.range keyBits).takeWhile fun i => bit a i == bit b i)[i] = i := by
      rw [(List.takeWhile_prefix _).getElem hlen, List.getElem_range]
    have hbit := List.all_eq_true.1 (List.all_takeWhile (l := List.range keyBits)) _ (List.getElem_mem hlen)
    rw [hget, bit_beq, beq_iff_eq] at hbit
    exact hbit
  · intro h
    exact @le_sharedBits (fun _ => .zero) a b d hd h

theorem within_iff (hd : d ≤ keyBits) : Within (bounds key d) x ↔ d ≤ sharedBits key x := by
  rw [le_sharedBits_iff hd]
  constructor
  · intro ⟨hlow, hhigh⟩
    -- up to each depth the keys agree, else the next bit puts `x` below or above the range
    have hupto : ∀ n ≤ d, ∀ i < n, bitSet key i = bitSet x i := by
      intro n
      induction n with
      | zero =>
        intro _ i hi
        omega
      | succ n ih =>
        intro hn i hi
        have hsame := ih (by omega)
        have hn' : n < keyBits := by omega
        by_cases hin : i = n
        · subst hin
          have hlows : bitSet (bounds key d).1 i = bitSet key i := by
            rw [bitSet_low hn', decide_eq_true (show i < d by omega), Bool.true_and]
          have hhighs : bitSet (bounds key d).2 i = bitSet key i := by
            rw [bitSet_high hn', decide_eq_false (show ¬ d ≤ i by omega), Bool.false_or]
          have hlowsame : ∀ j < i, bitSet x j = bitSet (bounds key d).1 j := by
            intro j hj
            rw [bitSet_low (by omega), decide_eq_true (show j < d by omega), Bool.true_and]
            exact (hsame j hj).symm
          have hhighsame : ∀ j < i, bitSet (bounds key d).2 j = bitSet x j := by
            intro j hj
            rw [bitSet_high (by omega), decide_eq_false (show ¬ d ≤ j by omega), Bool.false_or]
            exact hsame j hj
          cases hk : bitSet key i <;> cases hx : bitSet x i
          · rfl
          · rw [before_of_bits hhighsame (hhighs.trans hk) hx] at hhigh
            cases hhigh
          · rw [before_of_bits hlowsame hx (hlows.trans hk)] at hlow
            cases hlow
          · rfl
        · exact hsame i (by omega)
    exact hupto d le_rfl
  · intro hsame
    constructor
    · by_contra hcon
      obtain ⟨e, he, -, hxe, hle⟩ := before_bits (by simpa using hcon)
      rw [bitSet_low he, Bool.and_eq_true, decide_eq_true_eq] at hle
      rw [hsame e hle.1, hxe] at hle
      cases hle.2
    · by_contra hcon
      obtain ⟨e, he, -, hhe, hxe⟩ := before_bits (by simpa using hcon)
      rw [bitSet_high he, Bool.or_eq_false_iff, decide_eq_false_iff_not] at hhe
      rw [hsame e (by omega), hxe] at hhe
      cases hhe.2

/-! ## The children of a range -/

theorem siblingPrefix_some (hd : d < keyBits) : ∃ other, siblingPrefix key d = some other := by
  unfold siblingPrefix
  rw [if_neg (not_le.2 hd)]
  exact ⟨_, rfl⟩

/-- a key shares the sibling's prefix when it leaves the path at `d` -/
theorem sibling_shares {other : Key} (hd : d < keyBits) (h : siblingPrefix key d = some other) :
    d + 1 ≤ sharedBits other x ↔ d ≤ sharedBits key x ∧ bitSet key d ≠ bitSet x d := by
  rw [le_sharedBits_iff hd, le_sharedBits_iff hd.le]
  have hbelow : ∀ i < d, bitSet other i = bitSet key i := by
    intro i hi
    rw [bitSet_siblingPrefix h (by omega), decide_eq_true (show i < d + 1 by omega), decide_eq_false (by omega)]
    simp
  have hat : bitSet other d = !bitSet key d := by
    rw [bitSet_siblingPrefix h hd, decide_eq_true (show d < d + 1 by omega), decide_eq_true rfl]
    simp
  constructor
  · intro hsame
    refine ⟨fun i hi => (hbelow i hi).symm.trans (hsame i (by omega)), ?_⟩
    rw [← hsame d (by omega), hat]
    cases bitSet key d <;> simp
  · intro ⟨hsame, hne⟩ i hi
    by_cases hid : i = d
    · subst hid
      rw [hat]
      cases hk : bitSet key i <;> cases hx : bitSet x i <;> simp_all
    · rw [hbelow i (by omega), hsame i (by omega)]

theorem path_shares (hd : d < keyBits) :
    d + 1 ≤ sharedBits key x ↔ d ≤ sharedBits key x ∧ bitSet key d = bitSet x d := by
  rw [le_sharedBits_iff hd, le_sharedBits_iff hd.le]
  constructor
  · intro hsame
    exact ⟨fun i hi => hsame i (by omega), hsame d (by omega)⟩
  · intro ⟨hsame, hat⟩ i hi
    by_cases hid : i = d
    · rwa [hid]
    · exact hsame i (by omega)

theorem bounds_split {other : Key} (hd : d < keyBits) (h : siblingPrefix key d = some other) :
    (Within (bounds key d) x ↔ Within (bounds key (d + 1)) x ∨ Within (bounds other (d + 1)) x) ∧
      ¬ (Within (bounds key (d + 1)) x ∧ Within (bounds other (d + 1)) x) := by
  rw [within_iff hd.le, within_iff hd, within_iff hd, sibling_shares hd h, path_shares hd]
  constructor
  · rw [← and_or_left]
    exact ⟨fun hle => ⟨hle, em _⟩, And.left⟩
  · intro ⟨hpath, hside⟩
    exact hside.2 hpath.2

/-! ## Adjacent keys -/

theorem sharedPathLength_le_iff {keys : List Key} {n : ℕ} :
    sharedPathLength key keys ≤ n ↔ ∀ y ∈ keys, y ≠ key → sharedBits key y + 1 ≤ n := by
  have hall : (∀ y ∈ keys, y ≠ key → sharedBits key y + 1 ≤ n) ↔
      ∀ l ∈ (keys.filter (· ≠ key)).map fun other => sharedBits key other + 1, l ≤ n := by
    simp only [List.forall_mem_map, List.mem_filter, decide_eq_true_eq, and_imp]
  rw [hall, sharedPathLength]
  rcases hmax : ((keys.filter (· ≠ key)).map fun other => sharedBits key other + 1).max? with _ | top
  · have hnil := List.max?_eq_none_iff.1 hmax
    rw [hnil]
    simp
  · rw [Option.getD_some]
    exact List.max?_le_iff hmax

theorem sharedBits_between {a b c : Key} (hab : before a b = true) (hbc : before b c = true) :
    sharedBits a c ≤ sharedBits a b ∧ sharedBits a c ≤ sharedBits b c := by
  have hagree : (trie fun _ => .zero).Agree (sharedBits a c) a c := (le_sharedBits_iff (sharedBits_le a c)).1 le_rfl
  obtain ⟨hab', hbc'⟩ := BitTrie.agree_between (fun a b => before_trie fun _ => .zero) hab hbc hagree
  exact ⟨le_sharedBits (sharedBits_le a c) hab', le_sharedBits (sharedBits_le a c) hbc'⟩

theorem sharedBits_comm (a b : Key) : sharedBits a b = sharedBits b a := by
  unfold sharedBits
  congr 2
  funext i
  exact Bool.beq_comm

theorem sharedPathLength_adjacent {keys : List Key} {p s : Option Key} (hp : Predecessor keys key p)
    (hs : Successor keys key s) : sharedPathLength key keys = sharedPathLength key (p.toList ++ s.toList) := by
  apply Nat.le_antisymm
  · rw [sharedPathLength_le_iff]
    have hbound := sharedPathLength_le_iff.1 (le_refl (sharedPathLength key (p.toList ++ s.toList)))
    intro x hx hne
    rcases before_total hne with hlt | hlt
    · cases p with
      | none =>
        rw [hp x hx] at hlt
        cases hlt
      | some p =>
        obtain ⟨-, hpk, hgreatest⟩ := hp
        have hp' := hbound p (by simp) (before_ne hpk)
        rcases hgreatest x hx hlt with rfl | hxp
        · exact hp'
        · have hshare := (sharedBits_between hxp hpk).2
          rw [sharedBits_comm p, sharedBits_comm x] at hshare
          omega
    · cases s with
      | none =>
        rw [hs x hx] at hlt
        cases hlt
      | some s =>
        obtain ⟨-, hks, hleast⟩ := hs
        have hs' := hbound s (by simp) (before_ne hks).symm
        rcases hleast x hx hlt with rfl | hsx
        · exact hs'
        · have hshare := (sharedBits_between hks hsx).1
          omega
  · rw [sharedPathLength_le_iff]
    have hbound := sharedPathLength_le_iff.1 (le_refl (sharedPathLength key keys))
    intro y hy hne
    refine hbound y ?_ hne
    rcases List.mem_append.1 hy with hy | hy
    · obtain rfl := Option.mem_toList.1 hy
      exact hp.1
    · obtain rfl := Option.mem_toList.1 hy
      exact hs.1

/-- **Adjacent keys and ranges suffice.** The path length of a key is that from its predecessor and successor; the
inclusive bounds at a depth hold exactly the keys that share the prefix; and below the last bit they are the disjoint
union of the bounds of the two children. -/
theorem indexed_reads :
    (∀ (keys : List Key) (key : Key) (p s : Option Key), Predecessor keys key p → Successor keys key s →
      sharedPathLength key keys = sharedPathLength key (p.toList ++ s.toList)) ∧
    (∀ (key x : Key) (d : ℕ), d ≤ keyBits → (Within (bounds key d) x ↔ d ≤ sharedBits key x)) ∧
    ∀ (key : Key) (d : ℕ), d < keyBits → ∃ other, siblingPrefix key d = some other ∧ ∀ x,
      (Within (bounds key d) x ↔ Within (bounds key (d + 1)) x ∨ Within (bounds other (d + 1)) x) ∧
        ¬ (Within (bounds key (d + 1)) x ∧ Within (bounds other (d + 1)) x) := by
  refine ⟨fun keys key p s hp hs => sharedPathLength_adjacent hp hs, fun key x d hd => within_iff hd, ?_⟩
  intro key d hd
  obtain ⟨other, hother⟩ := siblingPrefix_some hd
  exact ⟨other, hother, fun x => bounds_split hd hother⟩

/-- three keys around the middle one, at depth 3 -/
theorem indexed_reads_between :
    let low : Key := tabulate fun _ => 0
    let key : Key := tabulate fun _ => 0x40
    let high : Key := tabulate fun _ => 0x80
    sharedPathLength key [high, key, low] = sharedPathLength key [low, high] ∧
      (Within (bounds key 3) key ↔ 3 ≤ sharedBits key key) ∧ ∃ other, siblingPrefix key 3 = some other := by
  refine ⟨indexed_reads.1 _ _ (some _) (some _) ?_ ?_, indexed_reads.2.1 _ _ 3 (by decide), ?_⟩
  · unfold Predecessor
    decide
  · unfold Successor
    decide
  · obtain ⟨other, hother, -⟩ := indexed_reads.2.2 (tabulate fun _ => 0x40) 3 (by decide)
    exact ⟨other, hother⟩

end ZenoFcis.CollectionMerkle
