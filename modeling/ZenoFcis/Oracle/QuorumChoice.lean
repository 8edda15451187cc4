/-
What quorum selection computes, part by part: unique rows, the ranked snapshot, the sources of a triple, diversity and the
statistics of three observations. Each part of the producer and of its laws is compared with one specification here:
`Rows`, `Diverse` and `Exact`.
-/
import ZenoFcis.Oracle.QuorumLaws

namespace ZenoFcis.Oracle

open Lib Lib.Except
open Lib.Metered (result_bind result_fail result_ite result_lift result_pure)

/-! ## Specification -/

/-- every row is named, by an identity of its own -/
structure Rows (observations : List Observation) (sources : List Source) : Prop where
  reporters : (observations.map (·.reporter)).Nodup
  reports : (observations.map (·.id)).Nodup
  named : ∀ o ∈ observations, o.id ≠ .zero ∧ o.admission ≠ .zero
  sources : (sources.map (·.id)).Nodup

/-- on every axis enough classes occur and none occurs too often -/
def Spread (d : Diversity) (s t u : Source) : Prop :=
  ∀ i, (d.minimum i).toNat ≤ [s.axis i, t.axis i, u.axis i].toFinset.card ∧
    ∀ x, [s.axis i, t.axis i, u.axis i].count x ≤ (d.maxSameClass i).toNat

/-- three different sources of the snapshot that are spread over the declared groups -/
structure Diverse (sources : List Source) (d : Diversity) (a b c : Observation) : Prop where
  apart : a.source ≠ b.source ∧ a.source ≠ c.source ∧ b.source ≠ c.source
  spread : ∃ s ∈ sources, ∃ t ∈ sources, ∃ u ∈ sources, s.id = a.source ∧ t.id = b.source ∧ u.id = c.source ∧
    Spread d s t u

/-- `m` is the middle one of three values in ascending order -/
def Middle {α : Type} [LE α] (xs : Fin 3 → α) (m : α) : Prop :=
  ∃ σ : Equiv.Perm (Fin 3), xs (σ 0) ≤ xs (σ 1) ∧ xs (σ 1) ≤ xs (σ 2) ∧ m = xs (σ 1)

/-- the exact statistics of three observations -/
structure Exact (three : Fin 3 → Observation) (n : AggregateNumbers) : Prop where
  median : Middle (fun i => (three i).value.raw) n.median.raw
  /-- the greatest distance of a price from the median -/
  confidence : IsGreatest (Set.range fun i => ((three i).value.raw.val - n.median.raw.val : ℤ).natAbs) n.confidence.val
  /-- that distance in basis points of the median, rounded up -/
  deviation : IsLeast {d | n.confidence.val * 10000 ≤ d * n.median.raw.val} n.deviationBps.val
  oldest : IsLeast (Set.range fun i => (three i).epoch) n.oldestEpoch
  seconds : Middle (fun i => (three i).seconds) n.medianSeconds

/-! ## Unique rows -/

theorem result_observation (o : Observation) : ∃ v, Wire.observation o = .ok v ∧ Wire.Sized 1000 v := by
  have hsized : Wire.AllSized [69, 69, 69, 69, 69, 69, 69, 17, 17, 17, 17]
      [.bytes o.id.bytes, .bytes o.admission.bytes, .bytes o.reporter.bytes, .bytes o.source.bytes,
        .bytes o.feed.bytes, .bytes o.profile.bytes, .bytes o.query.bytes, Wire.unsigned (Wire.widen o.round),
        Wire.unsigned o.value.raw, Wire.unsigned (Wire.widen o.epoch), Wire.unsigned (Wire.widen o.seconds)] := by
    simp [Wire.AllSized, Wire.sized_hash, Wire.sized_id, Wire.sized_unsigned]
  obtain ⟨v, hv, hlen⟩ := Wire.record_sized hsized (by simp)
  refine ⟨v, ?_, hlen.mono (by simp)⟩
  simp only [Wire.observation, Wire.blob_hash, Wire.blob_id, ok_bind]
  exact hv

theorem result_source (s : Source) : ∃ v, Wire.source s = .ok v ∧ Wire.Sized 1000 v := by
  have hsized : Wire.AllSized [69, 69, 69, 69, 69, 69] [.bytes s.id.bytes, .bytes s.operator.bytes,
      .bytes s.venue.bytes, .bytes s.family.bytes, .bytes s.transport.bytes, .bytes s.jurisdiction.bytes] := by
    simp [Wire.AllSized, Wire.sized_id]
  obtain ⟨v, hv, hlen⟩ := Wire.record_sized hsized (by simp)
  refine ⟨v, ?_, hlen.mono (by simp)⟩
  simp only [Wire.source, Wire.blob_id, ok_bind]
  exact hv

/-- the conditions that the observation loop checks -/
def NamedOnce (observations : List Observation) : Prop :=
  (observations.map (·.reporter)).Nodup ∧ (observations.map (·.id)).Nodup ∧
    ∀ o ∈ observations, o.id ≠ .zero ∧ o.admission ≠ .zero

instance (observations : List Observation) : Decidable (NamedOnce observations) := by
  unfold NamedOnce
  infer_instance

theorem namedOnce_snoc {seen : List Observation} {o : Observation} (h : NamedOnce seen) :
    NamedOnce (seen ++ [o]) ↔ ¬ (o.id = .zero ∨ o.admission = .zero ∨ (∃ p ∈ seen, p.reporter = o.reporter) ∨
      ∃ p ∈ seen, p.id = o.id) := by
  obtain ⟨hreporters, hreports, hnamed⟩ := h
  simp only [NamedOnce, List.map_append, List.map_cons, List.map_nil, List.nodup_append, hreporters, hreports,
    List.nodup_singleton, List.mem_map, List.mem_singleton, List.mem_append, true_and]
  grind

theorem namedOnce_left {l l' : List Observation} (h : NamedOnce (l ++ l')) : NamedOnce l := by
  obtain ⟨hreporters, hreports, hnamed⟩ := h
  rw [List.map_append] at hreporters hreports
  exact ⟨hreporters.of_append_left, hreports.of_append_left, fun o ho => hnamed o (List.mem_append_left _ ho)⟩

variable {observations : List Observation}

/-- observations are admitted when each source is named once -/
theorem result_admitObservations {seen : List Observation} (h : NamedOnce seen) :
    (admitObservations seen observations).result = ensure (NamedOnce (seen ++ observations)) .invalidState := by
  induction observations generalizing seen with
  | nil => simp [admitObservations, ensure, h]
  | cons o observations ih =>
    obtain ⟨v, hv, hsized⟩ := result_observation o
    have hstep := @namedOnce_snoc seen o h
    have hrest : seen ++ o :: observations = (seen ++ [o]) ++ observations := by simp
    simp only [admitObservations, result_bind, result_visit, result_lift, hv,
      Wire.result_charge hsized (by decide), failIf, result_ite, result_fail, result_pure,
      ok_bind]
    by_cases hbad : o.id = .zero ∨ o.admission = .zero ∨ (∃ p ∈ seen, p.reporter = o.reporter) ∨
        ∃ p ∈ seen, p.id = o.id
    · have hnot : ¬ NamedOnce (seen ++ o :: observations) := by
        intro hall
        rw [hrest] at hall
        exact hstep.1 (namedOnce_left hall) hbad
      rw [if_pos hbad, ensure, if_neg hnot]
      rfl
    · rw [if_neg hbad, ok_bind, ih (hstep.2 hbad), hrest]

/-- sources are admitted when their ids differ -/
theorem result_admitSources {seen sources : List Source} (h : (seen.map (·.id)).Nodup) :
    (admitSources seen sources).result = ensure (((seen ++ sources).map (·.id)).Nodup) .invalidState := by
  induction sources generalizing seen with
  | nil =>
    rw [List.append_nil, ensure, if_pos h]
    rfl
  | cons s sources ih =>
    obtain ⟨v, hv, hsized⟩ := result_source s
    have hstep : ((seen ++ [s]).map (·.id)).Nodup ↔ ¬ ∃ t ∈ seen, t.id = s.id := by
      simp only [List.map_append, List.map_cons, List.map_nil, List.nodup_append, h, List.nodup_singleton, List.mem_map,
        List.mem_singleton, true_and]
      grind
    have hrest : seen ++ s :: sources = (seen ++ [s]) ++ sources := by simp
    simp only [admitSources, result_bind, result_visit, result_lift, hv,
      Wire.result_charge hsized (by decide), failIf, result_ite, result_fail, result_pure,
      ok_bind]
    by_cases hbad : ∃ t ∈ seen, t.id = s.id
    · have hnot : ¬ ((seen ++ s :: sources).map (·.id)).Nodup := by
        intro hall
        rw [hrest, List.map_append] at hall
        exact hstep.1 hall.of_append_left hbad
      rw [if_pos hbad, ensure, if_neg hnot]
      rfl
    · rw [if_neg hbad, ok_bind, ih (hstep.2 hbad), hrest]

/-- rows name each observation once and each source once -/
theorem rows_iff {sources : List Source} :
    Rows observations sources ↔ NamedOnce observations ∧ (sources.map (·.id)).Nodup := by
  constructor
  · intro h
    exact ⟨⟨h.reporters, h.reports, h.named⟩, h.sources⟩
  · intro h
    obtain ⟨⟨hreporters, hreports, hnamed⟩, hsources⟩ := h
    exact ⟨hreporters, hreports, hnamed, hsources⟩

instance (observations : List Observation) (sources : List Source) : Decidable (Rows observations sources) :=
  decidable_of_iff _ rows_iff.symm

/-- the law calls malformed what is not in rows -/
theorem malformed_iff {sources : List Source} :
    QuorumLaws.malformed observations sources ↔ ¬ Rows observations sources := by
  have hcard {α β : Type} [DecidableEq β] (f : α → β) (l : List α) :
      (l.map f).toFinset.card = l.length ↔ (l.map f).Nodup := by
    rw [← List.length_map f]
    exact Multiset.toFinset_card_eq_card_iff_nodup
  rw [rows_iff]
  unfold QuorumLaws.malformed NamedOnce
  rw [Ne, Ne, Ne, hcard, hcard, hcard]
  grind

/-- rows do not depend on the order -/
theorem Rows.perm {observations' : List Observation} {sources sources' : List Source}
    (h : Rows observations sources) (ho : observations.Perm observations') (hs : sources.Perm sources') :
    Rows observations' sources' :=
  ⟨(ho.map _).nodup h.reporters, (ho.map _).nodup h.reports, fun o hmem => h.named o (ho.mem_iff.2 hmem),
    (hs.map _).nodup h.sources⟩

/-! ## The ranked snapshot -/

theorem sink_ok {o : Observation} {done : List Observation} (h : done.Pairwise fun p q => q.rank < p.rank)
    (hne : ∀ p ∈ done, p.rank ≠ o.rank) :
    ∃ l, (sink o done).result = .ok l ∧ l.Perm (o :: done) ∧ l.Pairwise fun p q => q.rank < p.rank := by
  induction done with
  | nil => exact ⟨[o], rfl, .refl _, List.pairwise_singleton _ _⟩
  | cons p done ih =>
    obtain ⟨hp, hdone⟩ := List.pairwise_cons.1 h
    simp only [sink, result_bind, result_step, Metered.result_charge, ok_bind, result_ite,
      result_pure]
    by_cases hle : p.rank ≤ o.rank
    · have hlt : p.rank < o.rank := lt_of_le_of_ne hle (hne p List.mem_cons_self)
      refine ⟨o :: p :: done, if_pos hle, .refl _, List.pairwise_cons.2 ⟨?_, h⟩⟩
      intro q hq
      rcases List.mem_cons.1 hq with rfl | hq
      · exact hlt
      · exact (hp q hq).trans hlt
    · obtain ⟨l, hl, hperm, hpair⟩ := ih hdone fun q hq => hne q (List.mem_cons_of_mem _ hq)
      refine ⟨p :: l, by rw [if_neg hle, hl]; rfl, ?_, List.pairwise_cons.2 ⟨?_, hpair⟩⟩
      · exact (hperm.cons p).trans (.swap o p done)
      · intro q hq
        rcases List.mem_cons.1 (hperm.mem_iff.1 hq) with rfl | hq
        · exact not_le.1 hle
        · exact hp q hq

theorem ranked_from {done observations : List Observation} (h : done.Pairwise fun p q => q.rank < p.rank)
    (hnodup : ((observations ++ done).map Observation.rank).Nodup) :
    ∃ l, (observations.foldlM (fun done o => sink o done) done).result = .ok l ∧ l.Perm (observations ++ done) ∧
      l.Pairwise fun p q => q.rank < p.rank := by
  induction observations generalizing done with
  | nil => exact ⟨done, rfl, .refl _, h⟩
  | cons o observations ih =>
    rw [List.cons_append, List.map_cons, List.nodup_cons] at hnodup
    obtain ⟨ho, hrest⟩ := hnodup
    have hne : ∀ p ∈ done, p.rank ≠ o.rank := by
      intro p hp he
      exact ho (he ▸ List.mem_map_of_mem (List.mem_append_right _ hp))
    obtain ⟨l, hl, hperm, hpair⟩ := sink_ok h hne
    have hmid : (observations ++ l).Perm (o :: (observations ++ done)) :=
      (hperm.append_left observations).trans List.perm_middle
    obtain ⟨l', hl', hperm', hpair'⟩ := ih hpair ((hmid.map _).nodup_iff.2 (List.nodup_cons.2 ⟨ho, hrest⟩))
    refine ⟨l', ?_, hperm'.trans hmid, hpair'⟩
    rw [List.foldlM_cons, result_bind, hl]
    exact hl'

/-- observations with distinct ranks are sorted by rank -/
theorem ranked_ok (h : (observations.map Observation.rank).Nodup) :
    (ranked observations).result = .ok (observations.mergeSort fun o p => o.rank ≤ p.rank) := by
  obtain ⟨l, hl, hperm, hpair⟩ := @ranked_from [] observations List.Pairwise.nil (by simpa using h)
  rw [List.append_nil] at hperm
  have hsort := Increasing.mergeSort h
  have heq : l.reverse = observations.mergeSort fun o p => o.rank ≤ p.rank := by
    refine List.Perm.eq_of_pairwise' (r := fun a b => Observation.rank a < Observation.rank b)
      (List.pairwise_reverse.2 hpair) hsort ?_
    exact (List.reverse_perm l).trans (hperm.trans (List.mergeSort_perm _ _).symm)
  simp [ranked, hl, ok_bind, heq]

theorem Rows.ranks {sources : List Source} (h : Rows observations sources) :
    (observations.map Observation.rank).Nodup := by
  refine List.Nodup.of_map (fun k => (ofLex k).1) ?_
  rw [List.map_map]
  exact h.reporters

/-! ## Sources and diversity -/

theorem foldl_source {sources : List Source} (h : (sources.map (·.id)).Nodup) (id : Id) (found : Option Source) :
    sources.foldl (fun found s => if s.id = id then some s else found) found =
      (sources.find? fun s => s.id = id).or found := by
  induction sources generalizing found with
  | nil => rfl
  | cons s sources ih =>
    rw [List.map_cons, List.nodup_cons] at h
    obtain ⟨hs, hrest⟩ := h
    rw [List.foldl_cons, ih hrest]
    by_cases hid : s.id = id
    · have hnone : (sources.find? fun x => x.id = id) = none := by
        refine List.find?_eq_none.2 fun x hx => ?_
        rw [decide_eq_true_eq]
        intro he
        exact hs (hid ▸ he ▸ List.mem_map_of_mem hx)
      simp [hid, hnone]
    · simp [hid]

theorem result_findSource {sources : List Source} (h : (sources.map (·.id)).Nodup) (id : Id) :
    (findSource sources id).result = .ok (sources.find? fun s => s.id = id) := by
  unfold findSource
  rw [Metered.result_foldlM]
  simp only [result_bind, result_visit, ok_bind, result_pure]
  have hfold := foldl_source h id none
  rw [Option.or_none] at hfold
  rw [← hfold]
  exact List.foldlM_pure

theorem find_source {sources : List Source} (h : (sources.map (·.id)).Nodup) {s : Source} (hs : s ∈ sources) :
    (sources.find? fun x => x.id = s.id) = some s := by
  cases hfind : sources.find? fun x => decide (x.id = s.id) with
  | none => exact absurd (List.find?_eq_none.1 hfind s hs) (by simp)
  | some x =>
    have hx : x.id = s.id := by simpa using List.find?_some hfind
    rw [List.inj_on_of_nodup_map h (List.mem_of_find?_eq_some hfind) hs hx]

theorem distinctFrom_add (before ids : List Id) :
    distinctFrom before ids + before.toFinset.card = (before ++ ids).toFinset.card := by
  induction ids generalizing before with
  | nil => simp [distinctFrom]
  | cons x ids ih =>
    have hi := ih (before ++ [x])
    rw [List.append_assoc, List.singleton_append] at hi
    rw [distinctFrom, ← hi]
    by_cases hx : x ∈ before
    · have hsame : (before ++ [x]).toFinset = before.toFinset := by
        ext y
        simp only [List.toFinset_append, List.toFinset_cons, List.toFinset_nil, Finset.mem_union, List.mem_toFinset,
          Finset.mem_insert, Finset.notMem_empty, or_false]
        grind
      rw [if_pos hx, hsame, Nat.zero_add]
    · have hone : (before ++ [x]).toFinset.card = before.toFinset.card + 1 := by
        have hinsert : (before ++ [x]).toFinset = insert x before.toFinset := by
          ext y
          simp only [List.toFinset_append, List.toFinset_cons, List.toFinset_nil, Finset.mem_union, List.mem_toFinset,
            Finset.mem_insert, Finset.notMem_empty, or_false]
          grind
        rw [hinsert, Finset.card_insert_of_notMem (by simpa using hx)]
      rw [if_neg hx, hone]
      omega

theorem distinctFrom_nil (ids : List Id) : distinctFrom [] ids = ids.toFinset.card := by
  have h := distinctFrom_add [] ids
  simpa using h

theorem foldl_max_le {l : List ℕ} {a n : ℕ} : l.foldl max a ≤ n ↔ a ≤ n ∧ ∀ x ∈ l, x ≤ n := by
  induction l generalizing a with
  | nil => simp
  | cons x l ih => simp [ih, and_assoc]

theorem maximumCount_le {ids : List Id} {n : ℕ} : maximumCount ids ≤ n ↔ ∀ x, ids.count x ≤ n := by
  unfold maximumCount
  rw [foldl_max_le]
  simp only [zero_le, true_and, List.mem_map, forall_exists_index, and_imp, forall_apply_eq_imp_iff₂]
  constructor
  · intro h x
    by_cases hx : x ∈ ids
    · exact h x hx
    · rw [List.count_eq_zero_of_not_mem hx]
      exact Nat.zero_le n
  · intro h x _
    exact h x

theorem result_steps (n : ℕ) : (steps n).result = .ok () := by
  induction n with
  | zero => rfl
  | succ n ih => simp [steps, ok_bind, ih]

theorem result_classes {d : Diversity} {s t u : Source} {axes : List (Fin 5)} :
    ∃ b, (classes d [s, t, u] axes).result = .ok b ∧
      (b = true ↔ ∀ i ∈ axes, (d.minimum i).toNat ≤ [s.axis i, t.axis i, u.axis i].toFinset.card ∧
        ∀ x, [s.axis i, t.axis i, u.axis i].count x ≤ (d.maxSameClass i).toNat) := by
  induction axes with
  | nil => exact ⟨true, rfl, by simp⟩
  | cons i axes ih =>
    obtain ⟨b, hb, hiff⟩ := ih
    simp only [classes, result_bind, result_steps, ok_bind, result_ite, result_pure, hb,
      List.map_cons, List.map_nil]
    by_cases hbad : distinctFrom [] [s.axis i, t.axis i, u.axis i] < (d.minimum i).toNat ∨
        (d.maxSameClass i).toNat < maximumCount [s.axis i, t.axis i, u.axis i]
    · refine ⟨false, if_pos hbad, iff_of_false nofun ?_⟩
      intro hall
      obtain ⟨hmin, hmax⟩ := hall i List.mem_cons_self
      rw [distinctFrom_nil] at hbad
      exact hbad.elim (not_lt.2 hmin) (not_lt.2 (maximumCount_le.2 hmax))
    · refine ⟨b, if_neg hbad, ?_⟩
      rw [hiff, List.forall_mem_cons]
      rw [not_or, not_lt, not_lt, distinctFrom_nil, maximumCount_le] at hbad
      exact ⟨fun h => ⟨hbad, h⟩, fun h => h.2⟩

section Diverse

variable {sources : List Source} {d : Diversity} {a b c : Observation}

theorem diverse_iff (h : (sources.map (·.id)).Nodup) {s t u : Source} (hs : s ∈ sources) (ht : t ∈ sources)
    (hu : u ∈ sources) (hsa : s.id = a.source) (htb : t.id = b.source) (huc : u.id = c.source) :
    Diverse sources d a b c ↔
      ¬ (a.source = b.source ∨ a.source = c.source ∨ b.source = c.source) ∧ Spread d s t u := by
  constructor
  · intro hd
    obtain ⟨⟨hab, hac, hbc⟩, s', hs', t', ht', u', hu', hsa', htb', huc', hspread⟩ := hd
    obtain rfl := List.inj_on_of_nodup_map h hs' hs (hsa'.trans hsa.symm)
    obtain rfl := List.inj_on_of_nodup_map h ht' ht (htb'.trans htb.symm)
    obtain rfl := List.inj_on_of_nodup_map h hu' hu (huc'.trans huc.symm)
    exact ⟨by simp [hab, hac, hbc], hspread⟩
  · intro hd
    obtain ⟨hapart, hspread⟩ := hd
    rw [not_or, not_or] at hapart
    exact ⟨hapart, s, hs, t, ht, u, hu, hsa, htb, huc, hspread⟩

/-- diversity is decided for sources that are listed -/
theorem result_diverse (h : (sources.map (·.id)).Nodup) (ha : ∃ s ∈ sources, s.id = a.source)
    (hb : ∃ s ∈ sources, s.id = b.source) (hc : ∃ s ∈ sources, s.id = c.source) :
    ∃ e, (diverse sources d a b c).result = .ok e ∧ (e = true ↔ Diverse sources d a b c) := by
  obtain ⟨s, hs, hsa⟩ := ha
  obtain ⟨t, ht, htb⟩ := hb
  obtain ⟨u, hu, huc⟩ := hc
  rw [diverse_iff h hs ht hu hsa htb huc]
  unfold diverse
  by_cases hsame : a.source = b.source ∨ a.source = c.source ∨ b.source = c.source
  · refine ⟨false, ?_, iff_of_false nofun fun hd => hd.1 hsame⟩
    rw [if_pos hsame]
    rfl
  · obtain ⟨e, he, hiff⟩ := @result_classes d s t u (List.finRange 5)
    refine ⟨e, ?_, ?_⟩
    · rw [if_neg hsame]
      simp only [result_bind, result_findSource h, ← hsa, ← htb, ← huc, find_source h hs, find_source h ht,
        find_source h hu, ok_bind, Metered.result_okOr_some]
      exact he
    · rw [hiff]
      simp [hsame, Spread]

theorem counts_snoc (ids : List Id) (x : Id) :
    QuorumLaws.counts (ids ++ [x]) =
      (QuorumLaws.counts ids).insert x (((QuorumLaws.counts ids).get x).getD 0 + 1) := by
  simp [QuorumLaws.counts]

theorem counts_get (ids : List Id) (x : Id) :
    (QuorumLaws.counts ids).get x = if x ∈ ids then some (UInt8.ofNat (ids.count x)) else none := by
  induction ids using List.reverseRecOn with
  | nil => rfl
  | append_singleton ids y ih =>
    rw [counts_snoc, OrdMap.get_insert]
    by_cases hxy : x = y
    · subst hxy
      rw [if_pos rfl, if_pos (by simp), ih, List.count_append, List.count_singleton_self]
      by_cases hx : x ∈ ids
      · rw [if_pos hx, Option.getD_some, UInt8.ofNat_add]
        rfl
      · rw [if_neg hx, List.count_eq_zero_of_not_mem hx]
        rfl
    · have hcount : (ids ++ [y]).count x = ids.count x := by
        rw [List.count_append, List.count_singleton, if_neg (by simpa using Ne.symm hxy), Nat.add_zero]
      rw [if_neg hxy, ih, hcount]
      simp [hxy]

theorem counts_size (ids : List Id) : (QuorumLaws.counts ids).size = ids.toFinset.card := by
  induction ids using List.reverseRecOn with
  | nil => rfl
  | append_singleton ids x ih =>
    have hsize := OrdMap.size_insert (m := QuorumLaws.counts ids) (k := x)
      (a := ((QuorumLaws.counts ids).get x).getD 0 + 1)
    rw [← counts_snoc, counts_get, ih] at hsize
    have hset : (ids ++ [x]).toFinset = insert x ids.toFinset := by
      ext y
      simp
    rw [hset]
    by_cases hx : x ∈ ids
    · rw [if_pos hx] at hsize
      rw [Finset.insert_eq_of_mem (by simpa using hx)]
      simpa using hsize
    · rw [if_neg hx] at hsize
      rw [Finset.card_insert_of_notMem (by simpa using hx)]
      simpa using hsize

theorem counts_all {ids : List Id} (hlen : ids.length < 256) (n : UInt8) :
    ((QuorumLaws.counts ids).values.all fun m => decide (m ≤ n)) = true ↔ ∀ x, ids.count x ≤ n.toNat := by
  have hfit (x : Id) : (UInt8.ofNat (ids.count x)).toNat = ids.count x := by
    rw [UInt8.toNat_ofNat']
    exact Nat.mod_eq_of_lt (lt_of_le_of_lt List.count_le_length hlen)
  simp only [List.all_eq_true, decide_eq_true_eq, OrdMap.values, List.mem_map, Prod.exists, exists_eq_right,
    ← OrdMap.get_eq_some_iff, counts_get]
  constructor
  · intro h x
    by_cases hx : x ∈ ids
    · have hle := UInt8.le_iff_toNat_le.1 (h _ ⟨x, if_pos hx⟩)
      rwa [hfit] at hle
    · rw [List.count_eq_zero_of_not_mem hx]
      exact Nat.zero_le _
  · intro h m hm
    obtain ⟨x, hx⟩ := hm
    by_cases hmem : x ∈ ids
    · rw [if_pos hmem] at hx
      cases hx
      rw [UInt8.le_iff_toNat_le, hfit]
      exact h x
    · rw [if_neg hmem] at hx
      cases hx

/-- the law decides diversity as the code does -/
theorem lawDiverse_iff (h : (sources.map (·.id)).Nodup) (ha : ∃ s ∈ sources, s.id = a.source)
    (hb : ∃ s ∈ sources, s.id = b.source) (hc : ∃ s ∈ sources, s.id = c.source) :
    QuorumLaws.diverse sources d a b c = true ↔ Diverse sources d a b c := by
  obtain ⟨s, hs, hsa⟩ := ha
  obtain ⟨t, ht, htb⟩ := hb
  obtain ⟨u, hu, huc⟩ := hc
  rw [diverse_iff h hs ht hu hsa htb huc]
  unfold QuorumLaws.diverse
  by_cases hsame : a.source = b.source ∨ a.source = c.source ∨ b.source = c.source
  · simp [hsame]
  · have hcounts (i : Fin 5) := @counts_all [s.axis i, t.axis i, u.axis i] (by simp) (d.maxSameClass i)
    rw [if_neg hsame]
    simp only [← hsa, ← htb, ← huc, find_source h hs, find_source h ht, find_source h hu, List.all_eq_true,
      Bool.and_eq_true, decide_eq_true_eq, counts_size, List.mem_finRange, true_implies] at hcounts ⊢
    simp only [hcounts]
    rw [hsa, htb, huc]
    simp [hsame, Spread]

end Diverse

/-! ## Statistics -/

section Network

variable {α : Type} [LinearOrder α] {xs : Fin 3 → α}

theorem exchange_perm (i j : Fin 3) (xs : Fin 3 → α) : ∃ σ : Equiv.Perm (Fin 3), exchange i j xs = xs ∘ σ := by
  unfold exchange
  by_cases h : xs j < xs i
  · exact ⟨Equiv.swap i j, if_pos h⟩
  · exact ⟨1, if_neg h⟩

theorem exchange_first (xs : Fin 3 → α) :
    exchange 0 1 xs 0 = min (xs 0) (xs 1) ∧ exchange 0 1 xs 1 = max (xs 0) (xs 1) ∧ exchange 0 1 xs 2 = xs 2 := by
  unfold exchange
  by_cases h : xs 1 < xs 0
  · rw [if_pos h, min_eq_right h.le, max_eq_left h.le]
    exact ⟨rfl, rfl, rfl⟩
  · rw [if_neg h, min_eq_left (not_lt.1 h), max_eq_right (not_lt.1 h)]
    exact ⟨rfl, rfl, rfl⟩

theorem exchange_last (xs : Fin 3 → α) :
    exchange 1 2 xs 0 = xs 0 ∧ exchange 1 2 xs 1 = min (xs 1) (xs 2) ∧ exchange 1 2 xs 2 = max (xs 1) (xs 2) := by
  unfold exchange
  by_cases h : xs 2 < xs 1
  · rw [if_pos h, min_eq_right h.le, max_eq_left h.le]
    exact ⟨rfl, rfl, rfl⟩
  · rw [if_neg h, min_eq_left (not_lt.1 h), max_eq_right (not_lt.1 h)]
    exact ⟨rfl, rfl, rfl⟩

/-- three numbers in ascending order -/
theorem ascending_ordered (xs : Fin 3 → α) :
    ascending xs 0 ≤ ascending xs 1 ∧ ascending xs 1 ≤ ascending xs 2 := by
  obtain ⟨h0, h1, h2⟩ := exchange_first xs
  obtain ⟨k0, k1, k2⟩ := exchange_last (exchange 0 1 xs)
  obtain ⟨l0, l1, l2⟩ := exchange_first (exchange 1 2 (exchange 0 1 xs))
  unfold ascending
  rw [l0, l1, l2, k0, k1, k2, h0, h1, h2]
  refine ⟨min_le_max, max_le ?_ ?_⟩
  · exact min_le_max.trans (le_max_left _ _)
  · exact min_le_max

/-- ascending order permutes -/
theorem ascending_perm (xs : Fin 3 → α) : ∃ σ : Equiv.Perm (Fin 3), ascending xs = xs ∘ σ := by
  obtain ⟨σ, hσ⟩ := exchange_perm 0 1 xs
  obtain ⟨τ, hτ⟩ := exchange_perm 1 2 (exchange 0 1 xs)
  obtain ⟨υ, hυ⟩ := exchange_perm 0 1 (exchange 1 2 (exchange 0 1 xs))
  refine ⟨υ.trans (τ.trans σ), ?_⟩
  unfold ascending
  rw [hυ, hτ, hσ]
  rfl

/-- the middle of three numbers -/
theorem ascending_middle (xs : Fin 3 → α) : Middle xs (ascending xs 1) := by
  obtain ⟨σ, hσ⟩ := ascending_perm xs
  obtain ⟨h01, h12⟩ := ascending_ordered xs
  rw [hσ] at h01 h12 ⊢
  exact ⟨σ, h01, h12, rfl⟩

theorem ascending_eq (xs : Fin 3 → α) : ascending xs = xs ∘ Tuple.sort xs := by
  obtain ⟨σ, hσ⟩ := ascending_perm xs
  obtain ⟨h01, h12⟩ := ascending_ordered xs
  rw [hσ] at h01 h12 ⊢
  refine Tuple.unique_monotone (fun i j hij => ?_) (Tuple.monotone_sort xs)
  have h02 := h01.trans h12
  fin_cases i <;> fin_cases j <;> simp_all

end Network

theorem mulDivCeil_some {a b den q : U128} (hden : den ≠ .zero) (h : mulDivCeil a b den = some q) :
    IsLeast {d | a.val * b.val ≤ d * den.val} q.val := by
  have hbits (n : U128) : (BitVec.ofNat 128 n.val).toNat = n.val := by
    rw [BitVec.toNat_ofNat, Nat.mod_eq_of_lt n.fits]
  have hpos : 0 < den.val := Nat.pos_of_ne_zero (mt Unsigned.eq_zero_iff.2 hden)
  have hnonzero : BitVec.ofNat 128 den.val ≠ 0 := by
    intro he
    have hz := congrArg BitVec.toNat he
    rw [hbits] at hz
    exact hpos.ne' hz
  unfold mulDivCeil at h
  rw [Finite.Wide.mulDivCeil_eq hnonzero, Option.map_eq_some_iff] at h
  obtain ⟨v, hv, rfl⟩ := h
  rw [Finite.Wide.fit_eq_some, hbits, hbits, hbits] at hv
  have hdivision := Nat.div_add_mod (a.val * b.val) den.val
  have hrest := Nat.mod_lt (a.val * b.val) hpos
  have hval : v.toNat = a.val * b.val / den.val + if a.val * b.val % den.val = 0 then 0 else 1 := hv
  constructor
  · change a.val * b.val ≤ v.toNat * den.val
    rw [hval]
    by_cases hmod : a.val * b.val % den.val = 0
    · rw [if_pos hmod, Nat.add_zero, mul_comm _ den.val]
      omega
    · rw [if_neg hmod, Nat.add_mul, one_mul, mul_comm _ den.val]
      omega
  · intro d hd
    change a.val * b.val ≤ d * den.val at hd
    change v.toNat ≤ d
    rw [hval]
    by_cases hmod : a.val * b.val % den.val = 0
    · rw [if_pos hmod, Nat.add_zero]
      exact Nat.div_le_of_le_mul (by rw [mul_comm den.val]; exact hd)
    · rw [if_neg hmod, Nat.succ_le_iff, Nat.div_lt_iff_lt_mul hpos]
      refine lt_of_le_of_ne hd fun he => hmod ?_
      rw [he, Nat.mul_mod_left]

section Numbers

variable {three : Fin 3 → Observation}

/-- `numbers` over the fields of three observations -/
def threeNumbers (three : Fin 3 → Observation) : Work AggregateNumbers :=
  numbers (fun i => (three i).value) (fun i => (three i).epoch) fun i => (three i).seconds

/-- the median of prices is a price -/
theorem price_new {xs : Fin 3 → U128} {p : U128} (hm : Middle xs p) (hx : ∀ i, xs i ≠ .zero) :
    ∃ m, PriceE8.new p = .ok m ∧ m.raw = p := by
  obtain ⟨σ, -, -, rfl⟩ := hm
  exact ⟨⟨_, hx (σ 1)⟩, dif_neg (hx (σ 1)), rfl⟩

/-- what `numbers` computes, with the prices in ascending order -/
theorem result_numbers (three : Fin 3 → Observation) (xs : Fin 3 → U128)
    (hxs : ascending (fun i => (three i).value.raw) = xs) :
    (threeNumbers three).result =
      (do
        let deviation ← okOr (mulDivCeil (max ((xs 1).sub (xs 0)) ((xs 2).sub (xs 1))) tenThousand (xs 1)) .arithmetic
        let median ← PriceE8.new (xs 1)
        return ⟨median, max ((xs 1).sub (xs 0)) ((xs 2).sub (xs 1)), deviation,
          min (min (three 0).epoch (three 1).epoch) (three 2).epoch, ascending (fun i => (three i).seconds) 1⟩) := by
  unfold threeNumbers numbers
  simp only [result_bind, result_steps, result_step, ok_bind, hxs]
  cases mulDivCeil (max ((xs 1).sub (xs 0)) ((xs 2).sub (xs 1))) tenThousand (xs 1) with
  | none => rfl
  | some q => rfl

theorem greatest_distance {xs ys : Fin 3 → U128} {σ : Equiv.Perm (Fin 3)} (hys : ys = xs ∘ σ) (h01 : ys 0 ≤ ys 1)
    (h12 : ys 1 ≤ ys 2) :
    IsGreatest (Set.range fun i => ((xs i).val - (ys 1).val : ℤ).natAbs)
      (max ((ys 1).sub (ys 0)) ((ys 2).sub (ys 1))).val := by
  have hrange : (Set.range fun i => ((xs i).val - (ys 1).val : ℤ).natAbs) =
      Set.range fun i => ((ys i).val - (ys 1).val : ℤ).natAbs := by
    rw [hys]
    exact (σ.surjective.range_comp fun i => ((xs i).val - (xs (σ 1)).val : ℤ).natAbs).symm
  have hval : (max ((ys 1).sub (ys 0)) ((ys 2).sub (ys 1))).val =
      max ((ys 1).val - (ys 0).val) ((ys 2).val - (ys 1).val) := by
    rcases le_total ((ys 1).sub (ys 0)) ((ys 2).sub (ys 1)) with hle | hle
    · rw [max_eq_right hle, max_eq_right (by simpa [Unsigned.le_def] using hle)]
      rfl
    · rw [max_eq_left hle, max_eq_left (by simpa [Unsigned.le_def] using hle)]
      rfl
  rw [Unsigned.le_def] at h01 h12
  rw [hrange, hval]
  constructor
  · rcases le_total ((ys 1).val - (ys 0).val) ((ys 2).val - (ys 1).val) with hle | hle
    · exact ⟨2, by simp only; omega⟩
    · exact ⟨0, by simp only; omega⟩
  · intro d hd
    obtain ⟨i, rfl⟩ := hd
    fin_cases i <;> simp only [Fin.zero_eta, Fin.mk_one, Fin.reduceFinMk] <;> omega

/-- **Exact statistics.** The median, the spread and the confidence that are computed are the exact ones. -/
theorem numbers_exact {three : Fin 3 → Observation} {n : AggregateNumbers}
    (h : (threeNumbers three).result = .ok n) : Exact three n := by
  obtain ⟨σ, hσ⟩ := ascending_perm fun i => (three i).value.raw
  obtain ⟨h01, h12⟩ := ascending_ordered fun i => (three i).value.raw
  have hmiddle := ascending_middle fun i => (three i).value.raw
  obtain ⟨m, hm, hraw⟩ := price_new hmiddle fun i => (three i).value.positive
  have hpositive : ascending (fun i => (three i).value.raw) 1 ≠ .zero := hraw ▸ m.positive
  rw [result_numbers three _ rfl] at h
  simp only [bind_eq_ok, okOr_eq_ok, pure_eq, Except.ok.injEq, hm] at h
  obtain ⟨q, hq, _, rfl, rfl⟩ := h
  refine ⟨hraw ▸ hmiddle, ?_, ?_, ⟨?_, ?_⟩, ascending_middle _⟩
  · rw [hraw]
    exact greatest_distance hσ h01 h12
  · rw [hraw]
    exact mulDivCeil_some hpositive hq
  · rcases min_choice (min (three 0).epoch (three 1).epoch) (three 2).epoch with he | he
    · rcases min_choice (three 0).epoch (three 1).epoch with he' | he'
      · exact ⟨0, by simp only; rw [he, he']⟩
      · exact ⟨1, by simp only; rw [he, he']⟩
    · exact ⟨2, he.symm⟩
  · intro e he
    obtain ⟨i, rfl⟩ := he
    fin_cases i
    · exact (min_le_left _ _).trans (min_le_left _ _)
    · exact (min_le_left _ _).trans (min_le_right _ _)
    · exact min_le_right _ _

end Numbers

end ZenoFcis.Oracle
