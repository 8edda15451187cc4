/-
Labels that name the pattern of some keys: labels in order of first use for an equality pattern, ranks for an order
pattern. Each pattern has exactly one such labelling, and the labellings of `n` keys are counted by Bell numbers and by
ordered Bell numbers.
-/
import Mathlib.Combinatorics.Enumerative.Bell
import Mathlib.Combinatorics.Enumerative.Stirling
import Mathlib.Tactic

namespace ZenoFcis.Lib.Labelling

open Finset

variable {P K : Type}

/-- a restricted-growth word: with labels below `m` in use, the next label is one of these or `m` itself -/
def Grows : ℕ → List ℕ → Prop
  | _, [] => True
  | m, c :: w => c ≤ m ∧ Grows (max m (c + 1)) w

/-- the labels are contiguous ranks -/
def Ranks (w : List ℕ) : Prop := ∃ n, ∀ v, v ∈ w ↔ v < n

/-! ### Restricted growth -/

/-- two growing labellings with one pattern agree -/
theorem Grows.agree {a b : P → ℕ} :
    ∀ {ps done : List P} {m : ℕ}, (∀ p ∈ done, a p = b p) → (∀ v, v < m ↔ ∃ p ∈ done, a p = v) →
      (∀ p ∈ done ++ ps, ∀ q ∈ done ++ ps, a p = a q ↔ b p = b q) → Grows m (ps.map a) → Grows m (ps.map b) →
      ∀ p ∈ ps, a p = b p
  | [], _, _, _, _, _, _, _ => by simp
  | p :: ps, done, m, hdone, hused, hpattern, ha, hb => by
    have hp : p ∈ done ++ p :: ps := List.mem_append_right _ List.mem_cons_self
    have hearlier (q : P) (hq : q ∈ done) : q ∈ done ++ p :: ps := List.mem_append_left _ hq
    have heq : a p = b p := by
      rcases lt_or_eq_of_le ha.1 with hlt | ha'
      · obtain ⟨q, hq, hqp⟩ := (hused (a p)).1 hlt
        rw [← hqp, hdone q hq]
        exact (hpattern q (hearlier q hq) p hp).1 hqp
      · rcases lt_or_eq_of_le hb.1 with hlt | hb'
        · obtain ⟨q, hq, hqp⟩ := (hused (b p)).1 hlt
          rw [← hqp]
          exact ((hpattern q (hearlier q hq) p hp).2 ((hdone q hq).symm.trans hqp)).symm
        · rw [ha', hb']
    have hrest : ∀ q ∈ ps, a q = b q := by
      refine @Grows.agree a b ps (done ++ [p]) (max m (a p + 1)) (fun q hq => ?_) (fun v => ?_) ?_ ha.2
        (heq ▸ hb.2)
      · rcases List.mem_append.1 hq with hq | hq
        · exact hdone q hq
        · rw [List.mem_singleton.1 hq, heq]
      · have hle := ha.1
        have hnew : (∃ q ∈ done ++ [p], a q = v) ↔ (∃ q ∈ done, a q = v) ∨ a p = v := by
          simp [or_and_right, exists_or]
        rw [hnew, ← hused]
        omega
      · rw [List.append_assoc, List.singleton_append]
        exact hpattern
    intro q hq
    rcases List.mem_cons.1 hq with rfl | hq
    · exact heq
    · exact hrest q hq

section FirstUse

variable [DecidableEq K]

/-- the keys in order of first use, after those already seen -/
def firsts : List K → List K → List K
  | seen, [] => seen
  | seen, k :: ks => if k ∈ seen then firsts seen ks else firsts (seen ++ [k]) ks

/-- what was seen comes first -/
theorem prefix_firsts (seen ks : List K) : seen <+: firsts seen ks := by
  induction ks generalizing seen with
  | nil => exact List.prefix_rfl
  | cons k ks ih =>
    unfold firsts
    split_ifs with hk
    · exact ih seen
    · exact (List.prefix_append seen [k]).trans (ih (seen ++ [k]))

theorem mem_firsts {seen ks : List K} {k : K} (hk : k ∈ ks) : k ∈ firsts seen ks := by
  induction ks generalizing seen with
  | nil => exact absurd hk List.not_mem_nil
  | cons k' ks ih =>
    unfold firsts
    split_ifs with hk'
    · rcases List.mem_cons.1 hk with rfl | hk
      · exact (prefix_firsts seen ks).subset hk'
      · exact ih hk
    · rcases List.mem_cons.1 hk with rfl | hk
      · exact (prefix_firsts (seen ++ [k]) ks).subset (List.mem_append_right _ List.mem_cons_self)
      · exact ih hk

theorem grows_firsts (seen ks : List K) :
    Grows seen.length (ks.map fun k => (firsts seen ks).idxOf k) := by
  induction ks generalizing seen with
  | nil => trivial
  | cons k ks ih =>
    unfold firsts
    split_ifs with hk
    · obtain ⟨rest, hrest⟩ := prefix_firsts seen ks
      have hlt : (firsts seen ks).idxOf k < seen.length := by
        rw [← hrest, List.idxOf_append_of_mem hk]
        exact List.idxOf_lt_length_of_mem hk
      refine ⟨hlt.le, ?_⟩
      rw [max_eq_left hlt]
      exact ih seen
    · obtain ⟨rest, hrest⟩ := prefix_firsts (seen ++ [k]) ks
      have hindex : (firsts (seen ++ [k]) ks).idxOf k = seen.length := by
        rw [← hrest, List.append_assoc, List.idxOf_append_of_notMem hk, List.singleton_append, List.idxOf_cons_self,
          Nat.add_zero]
      refine ⟨hindex.le, ?_⟩
      have hnext := ih (seen ++ [k])
      rw [List.length_append, List.length_singleton] at hnext
      dsimp only
      rw [hindex, max_eq_right (Nat.le_succ _)]
      exact hnext

/-- **First-use labels.** Keys can be labelled in order of first use. -/
theorem exists_grows (key : P → K) (ps : List P) :
    ∃ a : P → ℕ, Grows 0 (ps.map a) ∧ ∀ p ∈ ps, ∀ q ∈ ps, a p = a q ↔ key p = key q := by
  refine ⟨fun p => (firsts [] (ps.map key)).idxOf (key p), ?_, fun p hp q _ => ?_⟩
  · have h := grows_firsts [] (ps.map key)
    rwa [List.map_map] at h
  · exact List.idxOf_inj (mem_firsts (List.mem_map_of_mem hp))

end FirstUse

/-! ### Ranks -/

/-- two rank labellings with one pattern agree -/
theorem Ranks.agree {a b : P → ℕ} {ps : List P} (ha : Ranks (ps.map a)) (hb : Ranks (ps.map b))
    (hpattern : ∀ p ∈ ps, ∀ q ∈ ps, a p < a q ↔ b p < b q) : ∀ p ∈ ps, a p = b p := by
  obtain ⟨m, hm⟩ := ha
  obtain ⟨n, hn⟩ := hb
  have hall (v : ℕ) : ∀ p ∈ ps, a p = v → b p = v := by
    induction v using Nat.strong_induction_on with
    | _ v ih =>
      intro p hp hv
      have hlow (u : ℕ) (hu : u < v) : u < b p := by
        have hum : u < m := hu.trans (hv ▸ (hm (a p)).1 (List.mem_map_of_mem hp))
        obtain ⟨q, hq, hqu⟩ := List.mem_map.1 ((hm u).2 hum)
        rw [← ih u hu q hq hqu]
        exact (hpattern q hq p hp).1 (by rw [hqu, hv]; exact hu)
      have hle : v ≤ b p := le_of_not_gt fun h => lt_irrefl _ (hlow _ h)
      rcases hle.lt_or_eq with hlt | heq
      · have hvn : v < n := hlt.trans ((hn (b p)).1 (List.mem_map_of_mem hp))
        obtain ⟨r, hr, hrv⟩ := List.mem_map.1 ((hn v).2 hvn)
        have hlt' : a r < a p := (hpattern r hr p hp).2 (by rw [hrv]; exact hlt)
        have hbr := ih (a r) (hv ▸ hlt') r hr rfl
        omega
      · exact heq.symm
  exact fun p hp => (hall (a p) p hp rfl).symm

/-- **Ranks.** Keys of a linear order can be labelled by their ranks. -/
theorem exists_ranks [LinearOrder K] (key : P → K) (ps : List P) :
    ∃ a : P → ℕ, Ranks (ps.map a) ∧ ∀ p ∈ ps, ∀ q ∈ ps, a p < a q ↔ key p < key q := by
  let S := (ps.map key).toFinset
  let rank (k : K) : ℕ := #{x ∈ S | x < k}
  have hmem (p : P) (hp : p ∈ ps) : key p ∈ S := List.mem_toFinset.2 (List.mem_map_of_mem hp)
  have hmono {k k' : K} (hk : k ∈ S) (hlt : k < k') : rank k < rank k' := by
    refine card_lt_card (ssubset_iff_of_subset (monotone_filter_right S fun x _ hx => hx.trans hlt) |>.2 ⟨k, ?_, ?_⟩)
    · exact mem_filter.2 ⟨hk, hlt⟩
    · exact fun h => lt_irrefl _ (mem_filter.1 h).2
  have hlt_iff {k k' : K} (hk : k ∈ S) (hk' : k' ∈ S) : rank k < rank k' ↔ k < k' := by
    refine ⟨fun h => ?_, hmono hk⟩
    rcases lt_trichotomy k k' with hlt | rfl | hgt
    · exact hlt
    · exact absurd h (lt_irrefl _)
    · exact absurd (h.trans (hmono hk' hgt)) (lt_irrefl _)
  have hinj : Set.InjOn rank S := fun k hk k' hk' h => by
    rcases lt_trichotomy k k' with hlt | heq | hgt
    · exact absurd h (hmono hk hlt).ne
    · exact heq
    · exact absurd h.symm (hmono hk' hgt).ne
  have himage : S.image rank = range #S := by
    refine eq_of_subset_of_card_le (fun v hv => ?_) ?_
    · obtain ⟨k, hk, rfl⟩ := mem_image.1 hv
      refine mem_range.2 (card_lt_card ((filter_ssubset).2 ⟨k, hk, lt_irrefl k⟩))
    · rw [card_image_of_injOn hinj, card_range]
  refine ⟨fun p => rank (key p), ⟨#S, fun v => ?_⟩, fun p hp q hq => hlt_iff (hmem p hp) (hmem q hq)⟩
  rw [← mem_range, ← himage, mem_image, List.mem_map]
  constructor
  · rintro ⟨p, hp, rfl⟩
    exact ⟨key p, hmem p hp, rfl⟩
  · rintro ⟨k, hk, rfl⟩
    obtain ⟨p, hp, rfl⟩ := List.mem_map.1 (List.mem_toFinset.1 hk)
    exact ⟨p, hp, rfl⟩

/-! ### Counts -/

theorem card_image_cons {α : Type} [DecidableEq α] (c : α) (s : Finset (List α)) : #(s.image (c :: ·)) = #s :=
  card_image_of_injective s fun _ _ h => (List.cons.inj h).2

/-- the words of a length that grow with labels below `m` in use -/
def growths : ℕ → ℕ → Finset (List ℕ)
  | 0, _ => {[]}
  | n + 1, m => ((range m).biUnion fun c => (growths n m).image (c :: ·)) ∪ (growths n (m + 1)).image (m :: ·)

/-- the growths are the words that grow -/
theorem mem_growths {n m : ℕ} {w : List ℕ} : w ∈ growths n m ↔ w.length = n ∧ Grows m w := by
  induction n generalizing m w with
  | zero =>
    rw [growths, mem_singleton, List.length_eq_zero_iff]
    exact ⟨fun h => ⟨h, h ▸ trivial⟩, fun h => h.1⟩
  | succ n ih =>
    cases w with
    | nil => simp [growths]
    | cons c w =>
      simp only [growths, mem_union, mem_biUnion, mem_range, mem_image, ih, List.length_cons, Nat.succ_inj, Grows]
      constructor
      · rintro (⟨c', hc, w', ⟨hlen, hgrows⟩, heq⟩ | ⟨w', ⟨hlen, hgrows⟩, heq⟩)
        · obtain ⟨rfl, rfl⟩ := List.cons.inj heq
          exact ⟨hlen, hc.le, by rwa [max_eq_left hc]⟩
        · obtain ⟨rfl, rfl⟩ := List.cons.inj heq
          exact ⟨hlen, le_rfl, by rwa [max_eq_right (Nat.le_succ _)]⟩
      · rintro ⟨hlen, hc, hgrows⟩
        rcases lt_or_eq_of_le hc with hlt | rfl
        · rw [max_eq_left hlt] at hgrows
          exact .inl ⟨c, hlt, w, ⟨hlen, hgrows⟩, rfl⟩
        · rw [max_eq_right (Nat.le_succ _)] at hgrows
          exact .inr ⟨w, ⟨hlen, hgrows⟩, rfl⟩

theorem card_growths_succ (n m : ℕ) : #(growths (n + 1) m) = m * #(growths n m) + #(growths n (m + 1)) := by
  have hdisjoint : Disjoint ((range m).biUnion fun c => (growths n m).image (c :: ·))
      ((growths n (m + 1)).image (m :: ·)) := by
    refine disjoint_left.2 fun w hw hw' => ?_
    obtain ⟨c, hc, hw⟩ := mem_biUnion.1 hw
    obtain ⟨u, _, rfl⟩ := mem_image.1 hw
    obtain ⟨v, _, heq⟩ := mem_image.1 hw'
    exact absurd (mem_range.1 hc) (by rw [(List.cons.inj heq).1]; exact lt_irrefl c)
  have hpairwise : ((range m : Finset ℕ) : Set ℕ).PairwiseDisjoint fun c => (growths n m).image (c :: ·) := by
    intro c _ c' _ hne
    refine disjoint_left.2 fun w hw hw' => hne ?_
    obtain ⟨u, _, rfl⟩ := mem_image.1 hw
    obtain ⟨v, _, heq⟩ := mem_image.1 hw'
    exact (List.cons.inj heq).1.symm
  rw [growths, card_union_of_disjoint hdisjoint, card_biUnion hpairwise, card_image_cons]
  simp only [card_image_cons, sum_const, card_range, smul_eq_mul]

theorem card_growths_label (n m : ℕ) :
    #(growths n (m + 1)) = ∑ ij ∈ HasAntidiagonal.antidiagonal n, n.choose ij.1 * #(growths ij.2 m) := by
  induction n generalizing m with
  | zero => simp [growths]
  | succ n ih =>
    have hpascal := sum_antidiagonal_choose_succ_mul (R := ℕ) (fun _ j => #(growths j m)) n
    simp only [Nat.cast_id] at hpascal
    have hsymm : ∑ ij ∈ HasAntidiagonal.antidiagonal n, n.choose ij.2 * #(growths ij.2 m) =
        ∑ ij ∈ HasAntidiagonal.antidiagonal n, n.choose ij.1 * #(growths ij.2 m) :=
      sum_congr rfl fun ij hij => by rw [Nat.choose_symm_of_eq_add (HasAntidiagonal.mem_antidiagonal.1 hij).symm]
    rw [hpascal, hsymm, card_growths_succ, ih m, ih (m + 1), mul_sum, ← sum_add_distrib, ← sum_add_distrib]
    refine sum_congr rfl fun ij _ => ?_
    rw [card_growths_succ]
    ring

/-- **Growth words.** There are as many restricted-growth words of a length as its Bell number. -/
theorem card_growths (n : ℕ) : #(growths n 0) = n.bell := by
  induction n using Nat.strong_induction_on with
  | _ n ih =>
    cases n with
    | zero => simp [growths]
    | succ n =>
      rw [card_growths_succ, zero_mul, zero_add, card_growths_label, Nat.bell_succ']
      refine sum_congr rfl fun ij hij => ?_
      have hsum := HasAntidiagonal.mem_antidiagonal.1 hij
      rw [ih ij.2 (by omega)]

/-- the words of a length that use exactly the letters of a set -/
def words {α : Type} [DecidableEq α] : ℕ → Finset α → Finset (List α)
  | 0, A => if A = ∅ then {[]} else ∅
  | n + 1, A => A.biUnion fun c => (words n A ∪ words n (A.erase c)).image (c :: ·)

section Words

variable {α : Type} [DecidableEq α]

theorem mem_words {n : ℕ} {A : Finset α} {w : List α} : w ∈ words n A ↔ w.length = n ∧ w.toFinset = A := by
  induction n generalizing A w with
  | zero =>
    rw [words, List.length_eq_zero_iff]
    split_ifs with hA
    · rw [mem_singleton]
      exact ⟨fun h => ⟨h, by rw [h, hA, List.toFinset_nil]⟩, fun h => h.1⟩
    · refine ⟨fun h => absurd h (notMem_empty _), fun ⟨hw, hset⟩ => absurd ?_ hA⟩
      rw [← hset, hw, List.toFinset_nil]
  | succ n ih =>
    cases w with
    | nil => simp [words]
    | cons c w =>
      simp only [words, mem_biUnion, mem_image, mem_union, ih, List.length_cons, Nat.succ_inj, List.toFinset_cons]
      constructor
      · rintro ⟨c', hc, w', hw, heq⟩
        obtain ⟨rfl, rfl⟩ := List.cons.inj heq
        rcases hw with ⟨hlen, hset⟩ | ⟨hlen, hset⟩
        · exact ⟨hlen, by rw [hset, insert_eq_of_mem hc]⟩
        · exact ⟨hlen, by rw [hset, insert_erase hc]⟩
      · rintro ⟨hlen, hset⟩
        refine ⟨c, hset ▸ mem_insert_self c _, w, ?_, rfl⟩
        by_cases hc : c ∈ w.toFinset
        · exact .inl ⟨hlen, by rw [← hset, insert_eq_of_mem hc]⟩
        · exact .inr ⟨hlen, by rw [← hset, erase_insert hc]⟩

theorem card_words (n : ℕ) (A : Finset α) : #(words n A) = (#A).factorial * n.stirlingSecond #A := by
  induction n generalizing A with
  | zero =>
    rw [words]
    split_ifs with hA
    · rw [hA, card_empty, card_singleton]
      rfl
    · obtain ⟨k, hk⟩ := Nat.exists_eq_succ_of_ne_zero (mt card_eq_zero.1 hA)
      rw [hk, Nat.stirlingSecond_zero_succ, card_empty, mul_zero]
  | succ n ih =>
    have hpairwise : (A : Set α).PairwiseDisjoint fun c => (words n A ∪ words n (A.erase c)).image (c :: ·) := by
      intro c _ c' _ hne
      refine disjoint_left.2 fun w hw hw' => hne ?_
      obtain ⟨u, _, rfl⟩ := mem_image.1 hw
      obtain ⟨v, _, heq⟩ := mem_image.1 hw'
      exact (List.cons.inj heq).1.symm
    have hletter (c : α) (hc : c ∈ A) : #((words n A ∪ words n (A.erase c)).image (c :: ·)) =
        (#A).factorial * n.stirlingSecond #A + (#A - 1).factorial * n.stirlingSecond (#A - 1) := by
      have hdisjoint : Disjoint (words n A) (words n (A.erase c)) := by
        refine disjoint_left.2 fun w hw hw' => ?_
        have hset := (mem_words.1 hw).2.symm.trans (mem_words.1 hw').2
        exact absurd (hset ▸ hc) (notMem_erase c A)
      rw [card_image_cons, card_union_of_disjoint hdisjoint, ih, ih, card_erase_of_mem hc]
    rw [words, card_biUnion hpairwise, sum_congr rfl hletter, sum_const, smul_eq_mul]
    cases hk : #A with
    | zero => rw [Nat.stirlingSecond_succ_zero, zero_mul, mul_zero]
    | succ k =>
      rw [Nat.stirlingSecond_succ_succ, Nat.add_sub_cancel, Nat.factorial_succ]
      ring

end Words

/-- the words of a length whose labels are ranks -/
def ranked (n : ℕ) : Finset (List ℕ) := (range (n + 1)).biUnion fun k => words n (range k)

theorem ranks_iff {w : List ℕ} : Ranks w ↔ ∃ k, w.toFinset = range k :=
  exists_congr fun k => by simp [Finset.ext_iff]

/-- the ranked words are the words of ranks -/
theorem mem_ranked {n : ℕ} {w : List ℕ} : w ∈ ranked n ↔ w.length = n ∧ Ranks w := by
  simp only [ranked, mem_biUnion, mem_words, ranks_iff, mem_range]
  constructor
  · rintro ⟨k, _, hlen, hset⟩
    exact ⟨hlen, k, hset⟩
  · rintro ⟨hlen, k, hset⟩
    refine ⟨k, ?_, hlen, hset⟩
    have hcard := List.toFinset_card_le w
    rw [hset, card_range, hlen] at hcard
    omega

/-- **Rank words.** There are as many rank words of a length as its ordered Bell number. -/
theorem card_ranked (n : ℕ) : #(ranked n) = ∑ k ∈ range (n + 1), k.factorial * n.stirlingSecond k := by
  rw [ranked, card_biUnion]
  · exact sum_congr rfl fun k _ => by rw [card_words, card_range]
  · intro k _ k' _ hne
    refine disjoint_left.2 fun w hw hw' => hne ?_
    have hset := (mem_words.1 hw).2.symm.trans (mem_words.1 hw').2
    rw [← card_range k, hset, card_range]

/-- labellings are counted by their words -/
theorem labellings_of_words [DecidableEq P] {places : List P} (hnodup : places.Nodup) (hall : ∀ p, p ∈ places)
    {W : Finset (List ℕ)} (hlength : ∀ w ∈ W, w.length = places.length) :
    {label : P → ℕ | places.map label ∈ W}.Finite ∧ {label : P → ℕ | places.map label ∈ W}.ncard = #W := by
  have hinj : Function.Injective fun label : P → ℕ => places.map label :=
    fun a b h => funext fun p => List.map_inj_left.1 h p (hall p)
  have himage : (fun label : P → ℕ => places.map label) '' {label | places.map label ∈ W} = (W : Set (List ℕ)) := by
    refine Set.eq_of_subset_of_subset ?_ fun w hw => ?_
    · rintro _ ⟨label, hlabel, rfl⟩
      exact hlabel
    · have hword : places.map (fun p => w.getD (places.idxOf p) 0) = w := by
        refine List.ext_getElem (by rw [List.length_map, hlength w hw]) fun i hi hi' => ?_
        rw [List.getElem_map, hnodup.idxOf_getElem, List.getD_eq_getElem w 0 hi']
      exact ⟨_, (congrArg (· ∈ W) hword).mpr hw, hword⟩
  refine ⟨Set.Finite.of_finite_image ?_ hinj.injOn, ?_⟩
  · rw [himage]
    exact W.finite_toSet
  · rw [← Set.ncard_image_of_injective _ hinj, himage, Set.ncard_coe_finset]

end ZenoFcis.Lib.Labelling
