/-
Exactness of quorum selection. Results:
- `select_admitted`: over an admitted snapshot the producer returns the least quorum, so its answer depends neither on the
  order of the rows (`select_perm`) nor on the observed prices (`select_prices`);
- `selected_eq`, `lawReference_eq`: the independent laws compute the same result or the same first refusal;
- `quorum_selection`: the whole statement, with the exact statistics of the built aggregate.
-/
import ZenoFcis.Lib.Ends
import ZenoFcis.Oracle.QuorumChoice

namespace ZenoFcis.Oracle

open Lib Lib.Except
open Lib.Metered (result_bind result_lift result_pure)

abbrev Triple := Observation × Observation × Observation

/-- the quorums of a snapshot: three observations in rank order whose reporters, sources and groups are diverse -/
structure Quorum (sources : List Source) (d : Diversity) (observations : List Observation) (t : Triple) : Prop where
  members : t.1 ∈ observations ∧ t.2.1 ∈ observations ∧ t.2.2 ∈ observations
  ranked : t.1.rank < t.2.1.rank ∧ t.2.1.rank < t.2.2.rank
  reporters : t.1.reporter ≠ t.2.1.reporter ∧ t.1.reporter ≠ t.2.2.reporter ∧ t.2.1.reporter ≠ t.2.2.reporter
  diverse : Diverse sources d t.1 t.2.1 t.2.2

def quorums (sources : List Source) (d : Diversity) (observations : List Observation) : Set Triple :=
  {t | Quorum sources d observations t}

section Snapshot

variable (r : FeedRules) (round cutoff now : U64) (observations : List Observation) (sources : List Source)

/-- the row checks: identities, binding, times, sources -/
def bound : Except Stop Unit := do
  ensure (Rows observations sources) (.fail .invalidState)
  ensure (¬ ∃ o ∈ observations, misbound r round o) (.refuse .bindingMismatch)
  ensure (¬ ∃ o ∈ observations, now < o.epoch) (.refuse .futureObservation)
  ensure (¬ ∃ o ∈ observations, r.clock.maxAge < now.sub o.epoch) (.refuse .staleObservation)
  ensure (∀ o ∈ observations, ∃ s ∈ sources, s.id = o.source) (.refuse .wrongSourceOrDiversity)

/-- the scan tariff of a snapshot -/
def scans : Except Stop Unit := do
  let rows ← (checkedAdd usizeMax observations.length sources.length .arithmetic).mapError .fail
  (reserveScans rows).result.mapError .fail

/-- everything that the producer checks before its search -/
def guardOf : Except Stop Unit := do
  r.validate.mapError .fail
  ensure (¬ now < cutoff) (.refuse .wrongPhase)
  ensure (¬ (r.bounds.maxEntries.val < observations.length ∨ r.bounds.maxEntries.val < sources.length))
    (.fail .invalidState)
  scans observations sources
  bound r round now observations sources

end Snapshot

variable {r : FeedRules} {round cutoff now : U64} {observations observations' : List Observation}
  {sources sources' : List Source}

/-- the search of the producer over a snapshot -/
def search (r : FeedRules) (observations : List Observation) (sources : List Source) : Work (Option Triple) := do
  let ordered ← ranked observations
  firstThree (fun a b c => do
    visit
    diverse sources r.diversity a b c) ordered

def lawSearch (r : FeedRules) (observations : List Observation) (sources : List Source) : Work (Option Triple) :=
  firstThree (fun a b c => do
    visit
    let reads ← .lift (checkedMul u64Max sources.length 3 .arithmetic)
    .charge .read reads
    pure (QuorumLaws.diverse sources r.diversity a b c)) (observations.mergeSort fun o p => o.rank ≤ p.rank)

theorem result_admitRows (observations : List Observation) (sources : List Source) :
    ((admitObservations [] observations).result >>= fun _ => (admitSources [] sources).result) =
      ensure (Rows observations sources) .invalidState := by
  rw [result_admitObservations (by simp [NamedOnce]), result_admitSources (by simp),
    List.nil_append, List.nil_append, ensure_congr rows_iff]
  by_cases hnamed : NamedOnce observations
  · rw [ensure_bind hnamed]
    exact ensure_congr (by simp [hnamed])
  · simp [ensure, hnamed, error_bind]

/-- selection checks its guard and then searches -/
theorem result_select : (select r round cutoff now observations sources).result =
    (do
      guardOf r round cutoff now observations sources
      let selected ← (search r observations sources).result.mapError .fail
      okOr selected (.refuse .noCompleteQuorum)) := by
  have hrows : ensure (Rows observations sources) (Stop.fail .invalidState) =
      ((admitObservations [] observations).result.mapError .fail >>= fun _ =>
        (admitSources [] sources).result.mapError .fail) := by
    rw [← mapError_bind, result_admitRows, mapError_ensure]
  have hsources : ensure (∀ o ∈ observations, ∃ s ∈ sources, s.id = o.source) (Stop.refuse .wrongSourceOrDiversity) =
      ensure (¬ ∃ o ∈ observations, ¬ ∃ s ∈ sources, s.id = o.source) (.refuse .wrongSourceOrDiversity) :=
    ensure_congr (by simp)
  have hlast (o : Option Triple) :
      (Metered.okOr o (Stop.refuse .noCompleteQuorum) : Arm Triple).result = okOr o (.refuse .noCompleteQuorum) := by
    cases o <;> rfl
  simp only [select, guardOf, bound, scans, search, result_bind, result_arm, result_lift, result_step,
    refuseIf_eq, failIf_eq, hrows, hsources, hlast, mapError_bind, mapError_ok, ok_bind, bind_assoc]

theorem result_selected : (QuorumLaws.selected r round cutoff now observations sources).result =
    (do
      r.validate.mapError .fail
      scans observations sources
      ensure (¬ now < cutoff) (.refuse .wrongPhase)
      ensure (¬ (r.bounds.maxEntries.val < observations.length ∨ r.bounds.maxEntries.val < sources.length))
        (.fail .invalidState)
      bound r round now observations sources
      let selected ← (lawSearch r observations sources).result.mapError .fail
      okOr selected (.refuse .noCompleteQuorum)) := by
  have hrows : ensure (Rows observations sources) (Stop.fail .invalidState) =
      ensure (¬ QuorumLaws.malformed observations sources) (.fail .invalidState) :=
    ensure_congr (by rw [malformed_iff, not_not])
  have hsources : ensure (∀ o ∈ observations, ∃ s ∈ sources, s.id = o.source) (Stop.refuse .wrongSourceOrDiversity) =
      ensure (¬ ∃ o ∈ observations, o.source ∉ (sources.map (·.id)).toFinset) (.refuse .wrongSourceOrDiversity) :=
    ensure_congr (by simp)
  have hlast (o : Option Triple) :
      (Metered.okOr o (Stop.refuse .noCompleteQuorum) : Arm Triple).result = okOr o (.refuse .noCompleteQuorum) := by
    cases o <;> rfl
  simp only [QuorumLaws.selected, bound, scans, lawSearch, result_bind, result_arm, result_lift,
    refuseIf_eq, failIf_eq, hrows, hsources, hlast, bind_assoc]

/-! ## The least quorum -/

/-- what an admitted snapshot satisfies -/
structure Admitted (r : FeedRules) (round cutoff now : U64) (observations : List Observation) (sources : List Source) :
    Prop where
  rules : r.validate = .ok ()
  phase : cutoff ≤ now
  sizes : observations.length ≤ r.bounds.maxEntries.val ∧ sources.length ≤ r.bounds.maxEntries.val
  tariff : scans observations sources = .ok ()
  rows : Rows observations sources
  binding : ∀ o ∈ observations, o.feed = r.feed ∧ o.profile = r.profile ∧ o.query = r.query ∧ o.round = round
  times : ∀ o ∈ observations, o.epoch ≤ now ∧ now.val - o.epoch.val ≤ r.clock.maxAge.val
  assigned : ∀ o ∈ observations, ∃ s ∈ sources, s.id = o.source

theorem bound_ok : bound r round now observations sources = .ok () ↔ Rows observations sources ∧
    (∀ o ∈ observations, o.feed = r.feed ∧ o.profile = r.profile ∧ o.query = r.query ∧ o.round = round) ∧
    (∀ o ∈ observations, o.epoch ≤ now ∧ now.val - o.epoch.val ≤ r.clock.maxAge.val) ∧
    ∀ o ∈ observations, ∃ s ∈ sources, s.id = o.source := by
  simp only [bound, bind_eq_ok, ensure_eq_ok, exists_unit, misbound, not_exists, not_and, not_or, not_not, not_lt,
    Unsigned.le_def, Unsigned.val_sub]
  grind

/-- the guard admits what the rules admit -/
theorem guardOf_ok : guardOf r round cutoff now observations sources = .ok () ↔
    Admitted r round cutoff now observations sources := by
  simp only [guardOf, bind_eq_ok, ensure_eq_ok, exists_unit, mapError_eq_ok, bound_ok, not_or, not_lt]
  constructor
  · intro h
    obtain ⟨hrules, hphase, hsizes, htariff, hrows, hbinding, htimes, hassigned⟩ := h
    exact ⟨hrules, hphase, hsizes, htariff, hrows, hbinding, htimes, hassigned⟩
  · intro h
    exact ⟨h.rules, h.phase, h.sizes, h.tariff, h.rows, h.binding, h.times, h.assigned⟩

theorem mem_quorums (h : Rows observations sources) {l : List Observation} (hperm : l.Perm observations)
    (hl : l.Pairwise fun a b => a.rank < b.rank) {d : Diversity} {t : Triple} :
    t ∈ threes (Diverse sources d) l ↔ t ∈ quorums sources d observations := by
  rw [mem_threes hl]
  simp only [hperm.mem_iff]
  constructor
  · intro ht
    obtain ⟨⟨ha, hb, hc⟩, ⟨hab, hbc⟩, hd⟩ := ht
    have hne {x y : Observation} (hx : x ∈ observations) (hy : y ∈ observations) (hlt : x.rank < y.rank) :
        x.reporter ≠ y.reporter := by
      intro he
      rw [List.inj_on_of_nodup_map h.reporters hx hy he] at hlt
      exact lt_irrefl _ hlt
    exact ⟨⟨ha, hb, hc⟩, ⟨hab, hbc⟩, ⟨hne ha hb hab, hne ha hc (hab.trans hbc), hne hb hc hbc⟩, hd⟩
  · intro ht
    exact ⟨ht.members, ht.ranked, ht.diverse⟩

/-- a quorum is determined by its rank -/
theorem quorum_inj (h : Rows observations sources) {d : Diversity} {s t : Triple} (hs : s ∈ quorums sources d observations)
    (ht : t ∈ quorums sources d observations) (he : rankThree Observation.rank s = rankThree Observation.rank t) :
    s = t := by
  have hinj {x y : Observation} (hx : x ∈ observations) (hy : y ∈ observations) (hxy : x.rank = y.rank) : x = y :=
    List.inj_on_of_nodup_map h.ranks hx hy hxy
  obtain ⟨ha, hb, hc⟩ := hs.members
  obtain ⟨ha', hb', hc'⟩ := ht.members
  simp only [rankThree, rankTwo, EmbeddingLike.apply_eq_iff_eq, Prod.mk.injEq] at he
  exact Prod.ext (hinj ha ha' he.1) (Prod.ext (hinj hb hb' he.2.1) (hinj hc hc' he.2.2))

theorem searches_least (h : Admitted r round cutoff now observations sources) :
    ∃ o, (search r observations sources).result = .ok o ∧ (lawSearch r observations sources).result = .ok o ∧
      Least (rankThree Observation.rank) (quorums sources r.diversity observations) o := by
  have hsorted := Increasing.mergeSort h.rows.ranks
  have hperm := observations.mergeSort_perm fun o p => decide (o.rank ≤ p.rank)
  have hassigned : ∀ o ∈ observations.mergeSort (fun o p => o.rank ≤ p.rank), ∃ s ∈ sources, s.id = o.source :=
    fun o ho => h.assigned o (hperm.mem_iff.1 ho)
  have hreads : sources.length * 3 ≤ u64Max := by
    have hfits := r.bounds.maxEntries.fits
    have hsize := h.sizes.2
    unfold u64Max
    omega
  obtain ⟨o, ho, hleast⟩ := firstThree_spec (ρ := Resource) (ε := Failure) (p := Diverse sources r.diversity)
    (f := fun a b c => do
      visit
      diverse sources r.diversity a b c) hsorted fun a ha b hb c hc => by
    obtain ⟨e, he, hiff⟩ := result_diverse (d := r.diversity) h.rows.sources (hassigned a ha) (hassigned b hb)
      (hassigned c hc)
    exact ⟨e, by simpa [ok_bind] using he, hiff⟩
  obtain ⟨o', ho', hleast'⟩ := firstThree_spec (ρ := Resource) (ε := Failure) (p := Diverse sources r.diversity)
    (f := fun a b c => do
      visit
      let reads ← .lift (checkedMul u64Max sources.length 3 .arithmetic)
      .charge .read reads
      pure (QuorumLaws.diverse sources r.diversity a b c)) hsorted fun a ha b hb c hc => by
    refine ⟨QuorumLaws.diverse sources r.diversity a b c, ?_, lawDiverse_iff h.rows.sources (hassigned a ha)
      (hassigned b hb) (hassigned c hc)⟩
    simp [checkedMul_of_le hreads, ok_bind]
  have hmem (t : Triple) := mem_quorums h.rows hperm hsorted (d := r.diversity) (t := t)
  have hproducer := hleast.congr hmem
  have hlaw := hleast'.congr hmem
  obtain rfl := hproducer.unique hlaw fun s hs t ht he => quorum_inj h.rows hs ht he
  refine ⟨o, ?_, ho', hproducer⟩
  simp only [search, result_bind, ranked_ok h.rows.ranks, ok_bind]
  exact ho

/-- **Least quorum.** Over an admitted snapshot the producer returns the least quorum, or reports that there is none. -/
theorem select_admitted (h : Admitted r round cutoff now observations sources) :
    ∃ o, (select r round cutoff now observations sources).result = okOr o (.refuse .noCompleteQuorum) ∧
      Least (rankThree Observation.rank) (quorums sources r.diversity observations) o := by
  obtain ⟨o, ho, -, hleast⟩ := searches_least h
  refine ⟨o, ?_, hleast⟩
  rw [result_select, guardOf_ok.2 h, ok_bind, ho]
  rfl

/-- selection refuses what its guard refuses -/
theorem select_refused {e : Stop} (h : guardOf r round cutoff now observations sources = .error e) :
    (select r round cutoff now observations sources).result = .error e := by
  rw [result_select, h]
  rfl

theorem mapError_fail_ends {α : Type} (x : Except Failure α) :
    Ends (fun _ => True) (fun e => e ≠ .refuse .noCompleteQuorum) (x.mapError Stop.fail) := by
  cases x with
  | error e => exact nofun
  | ok a => exact True.intro

theorem ensure_ends {p : Prop} [Decidable p] {e : Stop} (h : e ≠ .refuse .noCompleteQuorum) :
    Ends (fun _ => True) (fun e => e ≠ .refuse .noCompleteQuorum) (ensure p e) := by
  unfold ensure
  split_ifs
  · exact True.intro
  · exact h

theorem guardOf_error {e : Stop} (h : guardOf r round cutoff now observations sources = .error e) :
    e ≠ .refuse .noCompleteQuorum := by
  have hends : Ends (fun _ => True) (fun e => e ≠ .refuse .noCompleteQuorum)
      (guardOf r round cutoff now observations sources) := by
    unfold guardOf bound scans
    refine (mapError_fail_ends _).bind fun _ _ => (ensure_ends (by simp)).bind fun _ _ => (ensure_ends (by simp)).bind
      fun _ _ => ((mapError_fail_ends _).bind fun _ _ => mapError_fail_ends _).bind fun _ _ => ?_
    exact (ensure_ends (by simp)).bind fun _ _ => (ensure_ends (by simp)).bind fun _ _ => (ensure_ends (by simp)).bind
      fun _ _ => (ensure_ends (by simp)).bind fun _ _ => ensure_ends (by simp)
  exact hends.error_of h

/-- the guard admits or refuses with a reason -/
theorem guardOf_cases (r : FeedRules) (round cutoff now : U64) (observations : List Observation)
    (sources : List Source) : Admitted r round cutoff now observations sources ∨
      ∃ e, guardOf r round cutoff now observations sources = .error e := by
  rcases ok_or_error (guardOf r round cutoff now observations sources) with ⟨u, hu⟩ | he
  · exact Or.inl (guardOf_ok.1 hu)
  · exact Or.inr he

theorem admitted_not_error (h : Admitted r round cutoff now observations sources) {e : Stop}
    (he : guardOf r round cutoff now observations sources = .error e) : False := by
  rw [guardOf_ok.2 h] at he
  cases he

theorem select_ok {t : Triple} : (select r round cutoff now observations sources).result = .ok t ↔
    Admitted r round cutoff now observations sources ∧ Quorum sources r.diversity observations t ∧
      ∀ s, Quorum sources r.diversity observations s →
        rankThree Observation.rank t ≤ rankThree Observation.rank s := by
  rcases guardOf_cases r round cutoff now observations sources with hadmitted | ⟨e, he⟩
  · obtain ⟨o, ho, hleast⟩ := select_admitted hadmitted
    rw [ho, okOr_eq_ok]
    constructor
    · intro hsome
      rw [hsome] at hleast
      exact ⟨hadmitted, hleast⟩
    · intro ht
      obtain ⟨-, hquorum, hfirst⟩ := ht
      have hanswer : Least (rankThree Observation.rank) (quorums sources r.diversity observations) (some t) :=
        ⟨hquorum, hfirst⟩
      exact hleast.unique hanswer fun s hs t ht he => quorum_inj hadmitted.rows hs ht he
  · rw [select_refused he]
    exact iff_of_false nofun fun ht => admitted_not_error ht.1 he

/-- `NoCompleteQuorum` is the answer exactly when an admitted snapshot has no quorum -/
theorem select_none : (select r round cutoff now observations sources).result = .error (.refuse .noCompleteQuorum) ↔
    Admitted r round cutoff now observations sources ∧ ∀ t, ¬ Quorum sources r.diversity observations t := by
  rcases guardOf_cases r round cutoff now observations sources with hadmitted | ⟨e, he⟩
  · obtain ⟨o, ho, hleast⟩ := select_admitted hadmitted
    rw [ho]
    cases o with
    | none => exact iff_of_true rfl ⟨hadmitted, hleast⟩
    | some t => exact iff_of_false nofun fun hnone => hnone.2 t hleast.1
  · rw [select_refused he, Except.error.injEq]
    exact iff_of_false (guardOf_error he) fun ht => admitted_not_error ht.1 he

/-! ## Order and prices -/

theorem quorums_perm (ho : observations.Perm observations') (hs : sources.Perm sources') (d : Diversity) (t : Triple) :
    t ∈ quorums sources d observations ↔ t ∈ quorums sources' d observations' := by
  have hdiverse (a b c : Observation) : Diverse sources d a b c ↔ Diverse sources' d a b c := by
    constructor
    · intro h
      exact ⟨h.apart, by simpa only [hs.mem_iff] using h.spread⟩
    · intro h
      exact ⟨h.apart, by simpa only [hs.mem_iff] using h.spread⟩
  constructor
  · intro h
    exact ⟨by simpa only [ho.mem_iff] using h.members, h.ranked, h.reporters, (hdiverse _ _ _).1 h.diverse⟩
  · intro h
    exact ⟨by simpa only [ho.mem_iff] using h.members, h.ranked, h.reporters, (hdiverse _ _ _).2 h.diverse⟩

theorem guardOf_perm (ho : observations.Perm observations') (hs : sources.Perm sources') :
    guardOf r round cutoff now observations sources = guardOf r round cutoff now observations' sources' := by
  have hrows : ensure (Rows observations sources) (Stop.fail .invalidState) =
      ensure (Rows observations' sources') (.fail .invalidState) :=
    ensure_congr ⟨fun h => h.perm ho hs, fun h => h.perm ho.symm hs.symm⟩
  unfold guardOf bound scans
  simp only [ho.mem_iff, hs.mem_iff, ho.length_eq, hs.length_eq, hrows]

/-- **Order-free.** A permuted snapshot has the same answer. -/
theorem select_perm (ho : observations.Perm observations') (hs : sources.Perm sources') :
    (select r round cutoff now observations sources).result =
      (select r round cutoff now observations' sources').result := by
  have hadm := @guardOf_perm r round cutoff now _ _ _ _ ho hs
  rcases guardOf_cases r round cutoff now observations sources with h | ⟨e, he⟩
  · have h' : Admitted r round cutoff now observations' sources' := guardOf_ok.1 (hadm ▸ guardOf_ok.2 h)
    obtain ⟨o, hsel, hleast⟩ := select_admitted h
    obtain ⟨o', hsel', hleast'⟩ := select_admitted h'
    have hsame : o = o' := hleast.unique (hleast'.congr fun t => (quorums_perm ho hs _ t).symm)
      fun s hs t ht he => quorum_inj h.rows hs ht he
    rw [hsel, hsel', hsame]
  · rw [select_refused he, select_refused (hadm ▸ he)]

/-- the observation without its price -/
def Observation.unpriced (o : Observation) : Observation := { o with value := ⟨.of 1, by decide⟩ }

def Triple.unpriced (t : Triple) : Triple := (t.1.unpriced, t.2.1.unpriced, t.2.2.unpriced)

theorem quorums_unpriced (d : Diversity) (t : Triple) :
    t ∈ Triple.unpriced '' quorums sources d observations ↔
      t ∈ quorums sources d (observations.map Observation.unpriced) := by
  constructor
  · intro h
    obtain ⟨s, hs, rfl⟩ := h
    obtain ⟨ha, hb, hc⟩ := hs.members
    exact ⟨⟨List.mem_map_of_mem ha, List.mem_map_of_mem hb, List.mem_map_of_mem hc⟩, hs.ranked, hs.reporters,
      ⟨hs.diverse.apart, hs.diverse.spread⟩⟩
  · intro h
    rcases t with ⟨a, b, c⟩
    obtain ⟨ha, hb, hc⟩ := h.members
    obtain ⟨x, hx, rfl⟩ := List.mem_map.1 ha
    obtain ⟨y, hy, rfl⟩ := List.mem_map.1 hb
    obtain ⟨z, hz, rfl⟩ := List.mem_map.1 hc
    exact ⟨(x, y, z), ⟨⟨hx, hy, hz⟩, h.ranked, h.reporters, ⟨h.diverse.apart, h.diverse.spread⟩⟩, rfl⟩

theorem guardOf_unpriced : guardOf r round cutoff now (observations.map Observation.unpriced) sources =
    guardOf r round cutoff now observations sources := by
  have hrows : Rows (observations.map Observation.unpriced) sources ↔ Rows observations sources := by
    rw [rows_iff, rows_iff]
    unfold NamedOnce
    rw [List.map_map, List.map_map, List.forall_mem_map]
    exact Iff.rfl
  have hexists (q : Observation → Prop) :
      (∃ o ∈ observations.map Observation.unpriced, q o) ↔ ∃ o ∈ observations, q o.unpriced := by
    simp only [List.mem_map, exists_exists_and_eq_and]
  unfold guardOf bound scans
  simp only [List.length_map, ensure_congr hrows, hexists, List.forall_mem_map]
  rfl

theorem select_unpriced : (select r round cutoff now (observations.map Observation.unpriced) sources).result =
    (select r round cutoff now observations sources).result.map Triple.unpriced := by
  have hadm := @guardOf_unpriced r round cutoff now observations sources
  rcases guardOf_cases r round cutoff now observations sources with h | ⟨e, he⟩
  · have h' := guardOf_ok.1 (hadm.trans (guardOf_ok.2 h))
    obtain ⟨o, hsel, hleast⟩ := select_admitted h
    obtain ⟨o', hsel', hleast'⟩ := select_admitted h'
    have hmap : Least (rankThree Observation.rank) (Triple.unpriced '' quorums sources r.diversity observations)
        (o.map Triple.unpriced) := hleast.map fun s t hst => hst
    have hsame : o' = o.map Triple.unpriced := hleast'.unique (hmap.congr (quorums_unpriced r.diversity))
      fun s hs t ht he => quorum_inj h'.rows hs ht he
    rw [hsel, hsel', hsame]
    cases o <;> rfl
  · rw [select_refused he, select_refused (hadm.trans he)]
    rfl

/-- **Price-free.** Snapshots that differ in their prices only have the same answer up to these prices. -/
theorem select_prices (h : observations.map Observation.unpriced = observations'.map Observation.unpriced) :
    (select r round cutoff now observations sources).result.map Triple.unpriced =
      (select r round cutoff now observations' sources).result.map Triple.unpriced := by
  rw [← select_unpriced, ← select_unpriced, h]

/-! ## The laws -/

theorem selected_eq : (QuorumLaws.selected r round cutoff now observations sources).result =
    (do
      r.validate.mapError .fail
      scans observations sources
      (select r round cutoff now observations sources).result) := by
  rw [result_selected]
  rcases ok_or_error (r.validate.mapError Stop.fail) with ⟨u, hrules⟩ | ⟨e, hrules⟩
  · rcases ok_or_error (scans observations sources) with ⟨v, htariff⟩ | ⟨e, htariff⟩
    · have hadm : guardOf r round cutoff now observations sources =
          (do
            ensure (¬ now < cutoff) (.refuse .wrongPhase)
            ensure (¬ (r.bounds.maxEntries.val < observations.length ∨ r.bounds.maxEntries.val < sources.length))
              (.fail .invalidState)
            bound r round now observations sources) := by
        simp only [guardOf, hrules, htariff, ok_bind]
      rw [hrules, htariff, ok_bind, ok_bind, ok_bind, ok_bind]
      rcases guardOf_cases r round cutoff now observations sources with h | ⟨e, he⟩
      · obtain ⟨o, ho, hlaw, -⟩ := searches_least h
        rw [result_select, guardOf_ok.2 h, ho, hlaw, ok_bind]
        have hok := hadm.symm.trans (guardOf_ok.2 h)
        simp only [bind_eq_ok, exists_unit] at hok
        rw [hok.1, hok.2.1, hok.2.2, ok_bind, ok_bind, ok_bind]
      · rw [select_refused he]
        have herr := hadm.symm.trans he
        simp only [← bind_assoc] at herr ⊢
        rw [herr]
        rfl
    · rw [hrules, htariff]
      rfl
  · rw [hrules]
    rfl

/-- the tail of `build`, after the selection -/
def built (sha : Bytes → Hash32) (r : FeedRules) (round : U64) (t : Triple) : Arm PriceAggregate := do
  let three := ![t.1, t.2.1, t.2.2]
  let numbers ← arm (threeNumbers three)
  refuseIf (r.maxDeviationBps < numbers.deviationBps) .excessUncertainty
  let out : PriceAggregate := ⟨.zero, r.feed, r.profile, r.query, round, fun i => (three i).id,
    fun i => (three i).admission, fun i => (three i).reporter, fun i => (three i).source, numbers⟩
  let value ← arm (.lift out.value)
  let length ← arm (Wire.charge value)
  let framed ← arm (.lift (checkedAdd u64Max length 48 .arithmetic))
  failIf (r.frameBytes.val < framed) (.fail .canonical)
  let id ← arm (.lift (Wire.hash sha aggregateDomain value))
  pure { out with id }

/-- a build is a selection and its aggregate -/
theorem result_build {sha : Bytes → Hash32} : (build sha r round cutoff now observations sources).result =
    ((select r round cutoff now observations sources).result >>= fun t => (built sha r round t).result) := by
  rw [build, result_bind]
  rfl

/-- the tail of `reference`, after the selection -/
def lawBuilt (sha : Bytes → Hash32) (r : FeedRules) (round : U64) (t : Triple) : Arm PriceAggregate := do
  let three := ![t.1, t.2.1, t.2.2]
  let raw : Fin 3 → U128 := fun i => (three i).value.raw
  let prices := raw ∘ Tuple.sort raw
  let (confidence, deviation) ← arm (.lift (QuorumLaws.reduce prices))
  refuseIf (r.maxDeviationBps < deviation) .excessUncertainty
  let times : Fin 3 → U64 := fun i => (three i).seconds
  let seconds := times ∘ Tuple.sort times
  let median ← arm (.lift (PriceE8.new (prices 1)))
  let oldest ← arm (.lift (okOr (List.min? ((List.finRange 3).map fun i => (three i).epoch)) .invalidState))
  let out : PriceAggregate := ⟨.zero, r.feed, r.profile, r.query, round, fun i => (three i).id,
    fun i => (three i).admission, fun i => (three i).reporter, fun i => (three i).source,
    ⟨median, confidence, deviation, oldest, seconds 1⟩⟩
  let value ← arm (.lift out.value)
  let length ← arm (Wire.charge value)
  let framed ← arm (.lift (checkedAdd u64Max length 48 .arithmetic))
  failIf (r.frameBytes.val < framed) (.fail .canonical)
  let id ← arm (.lift (Wire.hash sha aggregateDomain value))
  pure { out with id }

theorem result_reference {sha : Bytes → Hash32} :
    (QuorumLaws.reference sha r round cutoff now observations sources).result =
      ((QuorumLaws.selected r round cutoff now observations sources).result >>= fun t =>
        (lawBuilt sha r round t).result) := by
  rw [QuorumLaws.reference, result_bind]
  rfl

theorem absDiff_of_le {a b : U128} (h : b ≤ a) : QuorumLaws.absDiff a b = a.sub b := if_pos h

theorem lawBuilt_eq (sha : Bytes → Hash32) (r : FeedRules) (round : U64) (t : Triple) :
    (lawBuilt sha r round t).result = (built sha r round t).result := by
  have hsort := ascending_eq fun i => (![t.1, t.2.1, t.2.2] i).value.raw
  have htimes := ascending_eq fun i => (![t.1, t.2.1, t.2.2] i).seconds
  obtain ⟨xs, hxs⟩ : ∃ xs, ascending (fun i => (![t.1, t.2.1, t.2.2] i).value.raw) = xs := ⟨_, rfl⟩
  have h12 : xs 1 ≤ xs 2 := hxs ▸ (ascending_ordered _).2
  have hmiddle := ascending_middle fun i => (![t.1, t.2.1, t.2.2] i).value.raw
  rw [hxs] at hmiddle
  obtain ⟨m, hm, hraw⟩ := price_new hmiddle fun i => (![t.1, t.2.1, t.2.2] i).value.positive
  have hmin : List.min? ((List.finRange 3).map fun i => (![t.1, t.2.1, t.2.2] i).epoch) =
      some (min (min (![t.1, t.2.1, t.2.2] 0).epoch (![t.1, t.2.1, t.2.2] 1).epoch)
        (![t.1, t.2.1, t.2.2] 2).epoch) := rfl
  unfold lawBuilt built
  simp only [result_bind, result_arm, result_lift, result_numbers _ xs hxs, QuorumLaws.reduce, hm, hmin,
    ← hsort, ← htimes, hxs, absDiff_of_le h12, max_comm ((xs 2).sub (xs 1))]
  cases mulDivCeil (max ((xs 1).sub (xs 0)) ((xs 2).sub (xs 1))) tenThousand (xs 1) with
  | none => rfl
  | some q => rfl

/-- **Agreement.** The laws answer what the producer answers, unless the scan tariff is not a machine integer. -/
theorem lawReference_eq (sha : Bytes → Hash32) :
    (QuorumLaws.reference sha r round cutoff now observations sources).result =
      (do
        r.validate.mapError .fail
        scans observations sources
        (build sha r round cutoff now observations sources).result) := by
  rw [result_reference, selected_eq, result_build]
  simp only [lawBuilt_eq, bind_assoc]

theorem lawless_rules (r : FeedRules) : Lawless r.validate := by
  unfold FeedRules.validate Diversity.validate
  refine (lawless_clock r.clock).bind fun _ => Lawless.ensure_bind (by trivial) fun _ => ?_
  exact lawless_ensure (by trivial)

theorem lawless_blobs (xs : Fin 3 → Bytes) : Lawless (Wire.blobs xs) := by
  unfold Wire.blobs
  refine (Wire.lawless_blob _).bind fun _ => (Wire.lawless_blob _).bind fun _ => ?_
  exact (Wire.lawless_blob _).bind fun _ => Wire.lawless_tuple _

/-- no law refuses the value of an aggregate -/
theorem lawless_value (a : PriceAggregate) : Lawless a.value := by
  unfold PriceAggregate.value Wire.integers
  refine (Wire.lawless_blob _).bind fun _ => (Wire.lawless_blob _).bind fun _ => (Wire.lawless_blob _).bind fun _ => ?_
  refine (lawless_blobs _).bind fun _ => (lawless_blobs _).bind fun _ => (lawless_blobs _).bind fun _ => ?_
  exact (lawless_blobs _).bind fun _ => (Wire.lawless_tuple _).bind fun _ => Wire.lawless_record _

theorem lawless_tariff : LawlessArm (scans observations sources) := by
  unfold scans checkedAdd
  refine (Lawless.arm ?_).bind fun _ => (lawless_reserveScans _).arm
  split_ifs
  · exact Lawless.ok _
  · exact lawless_error (by trivial)

theorem lawless_guard : LawlessArm (guardOf r round cutoff now observations sources) := by
  unfold guardOf bound
  refine (lawless_rules r).arm.bind fun _ => (lawlessArm_ensure (by simp)).bind fun _ => ?_
  refine (lawlessArm_ensure (by simp)).bind fun _ => lawless_tariff.bind fun _ => ?_
  refine (lawlessArm_ensure (by simp)).bind fun _ => (lawlessArm_ensure (by simp)).bind fun _ => ?_
  refine (lawlessArm_ensure (by simp)).bind fun _ => (lawlessArm_ensure (by simp)).bind fun _ => ?_
  exact lawlessArm_ensure (by simp)

theorem lawless_select : LawlessArm (select r round cutoff now observations sources).result := by
  rcases guardOf_cases r round cutoff now observations sources with h | ⟨e, he⟩
  · obtain ⟨o, ho, -⟩ := select_admitted h
    rw [ho]
    cases o <;> exact nofun
  · have hadm := @lawless_guard r round cutoff now observations sources
    rw [he] at hadm
    rw [select_refused he]
    cases e with
    | refuse reason => exact nofun
    | fail f =>
      intro code h
      cases h
      exact hadm code rfl

theorem lawless_numbers (three : Fin 3 → Observation) : Lawless (threeNumbers three).result := by
  rw [result_numbers three _ rfl]
  refine Lawless.okOr_bind (by trivial) fun _ => Lawless.bind ?_ fun _ => Lawless.ok _
  unfold PriceE8.new
  split_ifs
  · exact lawless_error (by trivial)
  · exact Lawless.ok _

theorem lawless_built (sha : Bytes → Hash32) (t : Triple) : LawlessArm (built sha r round t).result := by
  unfold built
  simp only [result_bind, result_arm, result_lift, refuseIf_eq, failIf_eq, result_pure]
  refine (lawless_numbers _).arm.bind fun _ => (lawlessArm_ensure (by simp)).bind fun _ => ?_
  refine (lawless_value _).arm.bind fun _ => (Wire.lawless_charge _).arm.bind fun _ => ?_
  refine (Lawless.arm ?_).bind fun _ => (lawlessArm_ensure (by simp)).bind fun _ => ?_
  · unfold checkedAdd
    split_ifs
    · exact Lawless.ok _
    · exact lawless_error (by trivial)
  · exact (Wire.lawless_hash _ _ _).arm.bind fun _ => LawlessArm.ok _

theorem lawless_build (sha : Bytes → Hash32) : LawlessArm (build sha r round cutoff now observations sources).result := by
  rw [result_build]
  exact lawless_select.bind fun t => lawless_built sha t

theorem check_self {α : Type} [DecidableEq α] (x : Except Reason α) : QuorumLaws.check x x = .ok () := by
  cases x <;> simp [QuorumLaws.check, ensure]

theorem reference_cases (sha : Bytes → Hash32) :
    (QuorumLaws.reference sha r round cutoff now observations sources).result =
        (build sha r round cutoff now observations sources).result ∨
      (QuorumLaws.reference sha r round cutoff now observations sources).result = .error (.fail .arithmetic) ∧
        2 ^ 31 ≤ observations.length + sources.length + 4 := by
  rw [lawReference_eq, result_build]
  rcases ok_or_error (r.validate.mapError Stop.fail) with ⟨u, hrules⟩ | ⟨e, hrules⟩
  · rcases ok_or_error (scans observations sources) with ⟨v, htariff⟩ | ⟨e, htariff⟩
    · rw [hrules, htariff]
      exact Or.inl rfl
    · have hscans := htariff
      unfold scans checkedAdd at hscans
      by_cases hrows : observations.length + sources.length + 4 < 2 ^ 31
      · have hadd : observations.length + sources.length ≤ usizeMax := by
          unfold usizeMax
          omega
        rw [if_pos hadd, mapError_ok, ok_bind, result_reserveScans, if_pos hrows] at hscans
        cases hscans
      · have he : e = .fail .arithmetic := by
          by_cases hadd : observations.length + sources.length ≤ usizeMax
          · rw [if_pos hadd, mapError_ok, ok_bind, result_reserveScans, if_neg hrows] at hscans
            exact (Except.error.inj hscans).symm
          · rw [if_neg hadd] at hscans
            exact (Except.error.inj hscans).symm
        refine Or.inr ⟨?_, not_lt.1 hrows⟩
        rw [hrules, htariff, he]
        rfl
  · refine Or.inl ?_
    have hselect : (select r round cutoff now observations sources).result = .error e := by
      rw [result_select, guardOf, hrules]
      rfl
    rw [hrules, hselect]
    rfl

theorem lawless_aggregate (sha : Bytes → Hash32) :
    Lawless (aggregate sha r round cutoff now observations sources).result := by
  have hbuild := @lawless_build r round cutoff now observations sources sha
  have hlaws := @reference_cases r round cutoff now observations sources sha
  unfold aggregate
  simp only [result_bind, result_settle, result_lift, result_pure]
  unfold LawlessArm at hbuild
  cases hx : outcome (build sha r round cutoff now observations sources).result with
  | error e =>
    rw [hx] at hbuild
    exact hbuild
  | ok x =>
    rw [ok_bind]
    rcases hlaws with hsame | ⟨herror, -⟩
    · rw [hsame, hx, ok_bind, check_self]
      exact Lawless.ok x
    · rw [herror]
      exact lawless_error (by trivial)

/-- a measured computation without laws fails by none -/
theorem lawless_measured {α : Type} {x : Work α} (h : Lawless x.result) (limits : Resource → ℕ) (code : ℕ) :
    (measured limits x).1 ≠ .error (.law code) := by
  rcases Metered.run_result Meter.charge Failure.budget x (Meter.new limits) with hr | ⟨e, hr⟩
  · rw [measured, hr]
    exact h code
  · rw [measured, hr]
    simp

/-- what a built aggregate says about the quorum it reduces -/
structure Carries (r : FeedRules) (round : U64) (t : Triple) (a : PriceAggregate) : Prop where
  identity : a.feed = r.feed ∧ a.profile = r.profile ∧ a.query = r.query ∧ a.round = round
  reports : a.reports = ![t.1.id, t.2.1.id, t.2.2.id] ∧
    a.admissions = ![t.1.admission, t.2.1.admission, t.2.2.admission]
  reporters : a.reporters = ![t.1.reporter, t.2.1.reporter, t.2.2.reporter] ∧
    a.sources = ![t.1.source, t.2.1.source, t.2.2.source]
  numbers : Exact ![t.1, t.2.1, t.2.2] a.numbers
  spread : a.numbers.deviationBps ≤ r.maxDeviationBps

theorem map_three {α β : Type} (f : α → β) (a b c : α) : (fun i => f (![a, b, c] i)) = ![f a, f b, f c] := by
  funext i
  fin_cases i <;> rfl

theorem built_carries {sha : Bytes → Hash32} {t : Triple} {a : PriceAggregate}
    (h : (built sha r round t).result = .ok a) : Carries r round t a := by
  unfold built at h
  simp only [result_bind, result_arm, result_lift, refuseIf_eq, failIf_eq, result_pure,
    bind_eq_ok, mapError_eq_ok, ensure_eq_ok, exists_unit, Except.ok.injEq, map_three] at h
  obtain ⟨n, hn, hspread, _, -, _, -, _, -, -, id, -, rfl⟩ := h
  exact ⟨⟨rfl, rfl, rfl, rfl⟩, ⟨rfl, rfl⟩, ⟨rfl, rfl⟩, numbers_exact hn, not_lt.1 hspread⟩

/-- **Quorum selection.** The answer is free of the order of the rows and of the prices; it is the first quorum of an
admitted snapshot, or `NoCompleteQuorum` exactly when there is none; the built aggregate carries the exact statistics of
that quorum; and the laws answer what the producer answers. -/
theorem quorum_selection (sha : Bytes → Hash32) (r : FeedRules) (round cutoff now : U64)
    (observations : List Observation) (sources : List Source) :
    (∀ observations' sources', observations.Perm observations' → sources.Perm sources' →
      (select r round cutoff now observations' sources').result =
        (select r round cutoff now observations sources).result) ∧
    (∀ t, (select r round cutoff now observations sources).result = .ok t ↔
      Admitted r round cutoff now observations sources ∧ Quorum sources r.diversity observations t ∧
        ∀ s, Quorum sources r.diversity observations s →
          rankThree Observation.rank t ≤ rankThree Observation.rank s) ∧
    ((select r round cutoff now observations sources).result = .error (.refuse .noCompleteQuorum) ↔
      Admitted r round cutoff now observations sources ∧ ∀ t, ¬ Quorum sources r.diversity observations t) ∧
    (∀ observations', observations'.map Observation.unpriced = observations.map Observation.unpriced →
      (select r round cutoff now observations' sources).result.map Triple.unpriced =
        (select r round cutoff now observations sources).result.map Triple.unpriced) ∧
    (∀ a, (build sha r round cutoff now observations sources).result = .ok a →
      ∃ t, (select r round cutoff now observations sources).result = .ok t ∧ Carries r round t a) ∧
    (∀ x, outcome (QuorumLaws.reference sha r round cutoff now observations sources).result = .ok x →
      outcome (build sha r round cutoff now observations sources).result = .ok x) ∧
    (observations.length + sources.length + 4 < 2 ^ 31 →
      (QuorumLaws.reference sha r round cutoff now observations sources).result =
        (build sha r round cutoff now observations sources).result) ∧
    ∀ limits code, (measured limits (aggregate sha r round cutoff now observations sources)).1 ≠ .error (.law code) := by
  have hlaws := @reference_cases r round cutoff now observations sources sha
  refine ⟨fun _ _ ho hs => (select_perm ho hs).symm, fun t => select_ok, select_none, fun _ h => select_prices h,
    fun a ha => ?_, fun x hx => ?_, fun hrows => ?_, fun limits code =>
      lawless_measured (lawless_aggregate sha) limits code⟩
  · rw [result_build, bind_eq_ok] at ha
    obtain ⟨t, ht, ha⟩ := ha
    exact ⟨t, ht, built_carries ha⟩
  · rcases hlaws with hsame | ⟨herror, -⟩
    · rwa [hsame] at hx
    · rw [herror] at hx
      cases hx
  · rcases hlaws with hsame | ⟨-, hlong⟩
    · exact hsame
    · exact absurd hrows (not_lt.2 hlong)

/-! ## A snapshot of three reports -/

def quorumHash (n : UInt8) : Hash := ⟨List.replicate 32 n, hash_length n⟩

def quorumId (n : UInt8) : Id := ⟨[n], Id.single_bounded n⟩

def quorumRules : FeedRules :=
  ⟨quorumHash 1, quorumHash 2, quorumHash 3, ⟨fun _ => 2, fun _ => 2⟩, .of 500,
    ⟨quorumHash 4, .of 1, .of 1, .of 1, .of 1, .of 9, .of 1,
      .of 1⟩, ⟨.of 8, .of 64, .of 64⟩, .of 4096⟩

def samplePrice (n : ℕ) (h : 0 < n ∧ n < 2 ^ 128) : PriceE8 :=
  ⟨⟨n, h.2⟩, fun he => h.1.ne' (congrArg Unsigned.val he)⟩

theorem hundred_price : 0 < 100 ∧ 100 < 2 ^ 128 := by decide

def sampleObservation (n : UInt8) (price : PriceE8) : Observation :=
  ⟨quorumHash n, quorumHash n, quorumId n, quorumId n, quorumHash 1, quorumHash 2, quorumHash 3, ⟨7, by decide⟩, price,
    ⟨5, by decide⟩, ⟨60, by decide⟩⟩

def sampleSource (n axis : UInt8) : Source :=
  ⟨quorumId n, quorumId axis, quorumId axis, quorumId axis, quorumId axis, quorumId axis⟩

def sampleSources : List Source := [sampleSource 11 1, sampleSource 12 1, sampleSource 13 2]

def sampleObservations : List Observation :=
  [sampleObservation 13 (samplePrice 100 (by decide)), sampleObservation 11 (samplePrice 103 (by decide)),
    sampleObservation 12 (samplePrice 101 (by decide))]

/-- the same reports at other prices -/
def repricedObservations : List Observation :=
  [sampleObservation 13 (samplePrice 7 (by decide)), sampleObservation 11 (samplePrice 9 (by decide)),
    sampleObservation 12 (samplePrice 8 (by decide))]

def sampleSelect (observations : List Observation) (sources : List Source) : Except Stop Triple :=
  (select quorumRules ⟨7, by decide⟩ ⟨5, by decide⟩ ⟨6, by decide⟩ observations sources).result

def sampleBuild : Except Stop PriceAggregate :=
  (build (fun _ => quorumHash 9) quorumRules ⟨7, by decide⟩ ⟨5, by decide⟩ ⟨6, by decide⟩ sampleObservations
    sampleSources).result

def sampleReference : Except Stop PriceAggregate :=
  (QuorumLaws.reference (fun _ => quorumHash 9) quorumRules ⟨7, by decide⟩ ⟨5, by decide⟩ ⟨6, by decide⟩
    sampleObservations sampleSources).result

theorem quorum_selection_three :
    sampleSelect sampleObservations.reverse sampleSources.reverse = sampleSelect sampleObservations sampleSources ∧
      (sampleSelect repricedObservations sampleSources).map Triple.unpriced =
        (sampleSelect sampleObservations sampleSources).map Triple.unpriced ∧
      (∃ t a, sampleBuild = .ok a ∧ sampleSelect sampleObservations sampleSources = .ok t ∧
        Carries quorumRules ⟨7, by decide⟩ t a ∧ a.numbers.deviationBps.val = 199) ∧
      sampleReference = sampleBuild := by
  have h := quorum_selection (fun _ => quorumHash 9) quorumRules ⟨7, by decide⟩ ⟨5, by decide⟩ ⟨6, by decide⟩
    sampleObservations sampleSources
  refine ⟨h.1 _ _ (List.reverse_perm _).symm (List.reverse_perm _).symm, h.2.2.2.1 repricedObservations rfl, ?_,
    h.2.2.2.2.2.2.1 (by decide)⟩
  have hbuilt : (sampleBuild.map fun a => a.numbers.deviationBps.val) = .ok 199 := by decide +kernel
  cases hb : sampleBuild with
  | error e =>
    rw [hb] at hbuilt
    cases hbuilt
  | ok a =>
    obtain ⟨t, ht, hcarries⟩ := h.2.2.2.2.1 a hb
    rw [hb] at hbuilt
    exact ⟨t, a, rfl, ht, hcarries, Except.ok.inj hbuilt⟩

/-- a snapshot of `2 ^ 31` reports before its cutoff: the producer refuses the phase first, and the laws fail on the scan
tariff, which they reserve first -/
theorem long_snapshot_disagrees :
    let observations := List.replicate (2 ^ 31) (sampleObservation 13 (samplePrice 100 hundred_price))
    (build (fun _ => quorumHash 9) quorumRules (.of 7) (.of 7) (.of 6) observations []).result =
      .error (.refuse .wrongPhase) ∧
    (QuorumLaws.reference (fun _ => quorumHash 9) quorumRules (.of 7) (.of 7) (.of 6) observations []).result =
      .error (.fail .arithmetic) := by
  have hrules : quorumRules.validate.mapError Stop.fail = .ok () := by decide +kernel
  have hearly : (.of 6 : U64) < .of 7 := by decide
  intro observations
  have hlength : observations.length = 2 ^ 31 := List.length_replicate
  clear_value observations
  constructor
  · rw [result_build, result_select, guardOf, hrules]
    simp only [ok_bind, ensure, not_true_eq_false, hearly, if_false, error_bind]
  · have hscans : scans observations [] = .error (.fail .arithmetic) := by
      have hadd : observations.length + ([] : List Source).length ≤ usizeMax := by
        rw [hlength]
        decide
      rw [scans, checkedAdd, if_pos hadd, mapError_ok, ok_bind, result_reserveScans, if_neg]
      · rfl
      · rw [hlength]
        decide
    rw [lawReference_eq, hrules, hscans]
    rfl

end ZenoFcis.Oracle
