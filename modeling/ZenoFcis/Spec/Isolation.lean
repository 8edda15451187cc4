/-
The Mini Determinator does not depend on the schedule, and its workers do not see each other. Results:
- `executePrograms_perm`: the order of the programs and of their completion does not matter;
- `runWorker_local`, `executePrograms_isolated`: a worker depends on its instructions and on the cells it may read;
- `executePrograms_accepted`: what is merged;
- `executePrograms_rejected`, `executePrograms_witness`: when a run is rejected, and which conflict it reports;
- `mini_determinator`: these for every run.
-/
import ZenoFcis.Lib.Except
import ZenoFcis.Spec.MiniDeterminator

namespace ZenoFcis.Spec

open Lib Lib.Except

namespace MiniDeterminator

/-! ## Order -/

theorem sortPrograms_perm (programs : List WorkerProgram) : (sortPrograms programs).Perm programs :=
  List.mergeSort_perm programs _

theorem sortPrograms_sorted (programs : List WorkerProgram) :
    (sortPrograms programs).Pairwise fun a b => a.worker ≤ b.worker := sorted_mergeSort WorkerProgram.worker programs

theorem sortPrograms_distinct (programs : List WorkerProgram) :
    ((sortPrograms programs).map WorkerProgram.worker).IsChain (· ≠ ·) ↔ (programs.map WorkerProgram.worker).Nodup := by
  rw [← increasing_iff_chain (sortPrograms_sorted programs)]
  constructor
  · intro h
    exact ((sortPrograms_perm programs).map WorkerProgram.worker).nodup_iff.1 h.nodup
  · exact Increasing.mergeSort

/-- the completion order is an exact permutation of the workers -/
structure ValidOrder (programs : List WorkerProgram) (order : List UInt32) : Prop where
  length : order.length = programs.length
  card : order.toFinset.card = order.length
  workers : order.toFinset = (programs.map WorkerProgram.worker).toFinset

instance (programs : List WorkerProgram) (order : List UInt32) : Decidable (ValidOrder programs order) :=
  decidable_of_iff (order.length = programs.length ∧ order.toFinset.card = order.length ∧
    order.toFinset = (programs.map WorkerProgram.worker).toFinset) ⟨fun h => ⟨h.1, h.2.1, h.2.2⟩, fun h => ⟨h.1, h.2, h.3⟩⟩

theorem validOrder_perm {programs programs' : List WorkerProgram} {order order' : List UInt32}
    (h : programs.Perm programs') (horder : order.Perm order') :
    ValidOrder programs order ↔ ValidOrder programs' order' := by
  have hset : order.toFinset = order'.toFinset := List.toFinset_eq_of_perm _ _ horder
  have hworkers : (programs.map WorkerProgram.worker).toFinset = (programs'.map WorkerProgram.worker).toFinset :=
    List.toFinset_eq_of_perm _ _ (h.map _)
  constructor
  · intro hvalid
    refine ⟨?_, ?_, ?_⟩
    · rw [← horder.length_eq, ← h.length_eq, hvalid.length]
    · rw [← hset, ← horder.length_eq, hvalid.card]
    · rw [← hset, ← hworkers, hvalid.workers]
  · intro hvalid
    refine ⟨?_, ?_, ?_⟩
    · rw [horder.length_eq, h.length_eq, hvalid.length]
    · rw [hset, horder.length_eq, hvalid.card]
    · rw [hset, hworkers, hvalid.workers]

theorem spawn_eq (pre : MiniState) (programs : List WorkerProgram) (order : List UInt32) (budget : MiniBudget) :
    spawn pre programs order budget = (do
      ensure (programs.length ≤ budget.maxWorkers) .workerBudget
      ensure ((programs.map WorkerProgram.worker).Nodup) .duplicateWorker
      ensure (ValidOrder programs order) .invalidCompletionOrder
      (sortPrograms programs).mapM (runWorker pre budget)) := by
  have hensure : ∀ {p q : Prop} [Decidable p] [Decidable q] (e : MiniBlocker), (p ↔ q) → ensure p e = ensure q e := by
    intro p q _ _ e h
    unfold ensure
    simp only [h]
  have hvalid : (order.length = (sortPrograms programs).length ∧ order.toFinset.card = order.length ∧
      order.toFinset = ((sortPrograms programs).map WorkerProgram.worker).toFinset) ↔ ValidOrder programs order := by
    rw [← validOrder_perm (sortPrograms_perm programs) (.refl order)]
    exact ⟨fun h => ⟨h.1, h.2.1, h.2.2⟩, fun h => ⟨h.1, h.2, h.3⟩⟩
  unfold spawn
  dsimp only
  rw [hensure _ (sortPrograms_distinct programs), hensure _ hvalid]

theorem sortPrograms_eq {programs programs' : List WorkerProgram} (h : programs.Perm programs')
    (hnodup : (programs.map WorkerProgram.worker).Nodup) : sortPrograms programs = sortPrograms programs' := by
  have hincreasing : Increasing WorkerProgram.worker (sortPrograms programs) := Increasing.mergeSort hnodup
  have hincreasing' : Increasing WorkerProgram.worker (sortPrograms programs') :=
    Increasing.mergeSort ((h.map _).nodup_iff.1 hnodup)
  exact hincreasing.perm_eq hincreasing'
    ((sortPrograms_perm programs).trans (h.trans (sortPrograms_perm programs').symm))

theorem spawn_perm (pre : MiniState) {programs programs' : List WorkerProgram} {order order' : List UInt32}
    (budget : MiniBudget) (h : programs.Perm programs') (horder : order.Perm order') :
    spawn pre programs order budget = spawn pre programs' order' budget := by
  rw [spawn_eq, spawn_eq]
  by_cases hnodup : (programs.map WorkerProgram.worker).Nodup
  · simp only [h.length_eq, (h.map WorkerProgram.worker).nodup_iff, validOrder_perm h horder, sortPrograms_eq h hnodup]
  · have hnodup' : ¬ (programs'.map WorkerProgram.worker).Nodup := mt (h.map _).nodup_iff.2 hnodup
    simp only [ensure, if_neg hnodup, if_neg hnodup', h.length_eq]
    rfl

/-- **No schedule.** The order of the programs and the order of their completion do not matter. -/
theorem executePrograms_perm (pre : MiniState) {programs programs' : List WorkerProgram} {order order' : List UInt32}
    (budget : MiniBudget) (h : programs.Perm programs') (horder : order.Perm order') :
    executePrograms pre programs order budget = executePrograms pre programs' order' budget := by
  unfold executePrograms
  rw [spawn_perm pre budget h horder]

/-! ## Workers -/

/-- two states with the same cells in a footprint -/
def Agree (footprint : List UInt32) (s s' : MiniState) : Prop := ∀ slot ∈ footprint, s.get slot = s'.get slot

section Worker

variable {pre pre' : MiniState} {reads writes reads' writes' : Finset UInt32} {w w' w'' : Workspace}
  {instruction : WorkerInstruction} {instructions : List WorkerInstruction}

theorem instruct_agree (h : ∀ slot ∈ reads, pre.get slot = pre'.get slot) :
    instruct pre reads writes w instruction = instruct pre' reads writes w instruction := by
  cases instruction with
  | get slot =>
    unfold instruct
    dsimp only
    by_cases hmem : slot ∈ reads
    · rw [h slot hmem]
    · simp only [ensure, if_neg hmem]
      rfl
  | _ => rfl

theorem instructions_agree (h : ∀ slot ∈ reads, pre.get slot = pre'.get slot) :
    instructions.foldlM (instruct pre reads writes) w = instructions.foldlM (instruct pre' reads writes) w := by
  have hinstruct : instruct pre reads writes = instruct pre' reads writes := by
    funext w instruction
    exact instruct_agree h
  rw [hinstruct]

theorem instruct_footprint (h : instruct pre reads writes w instruction = .ok w')
    (h' : instruct pre reads' writes' w instruction = .ok w'') : w' = w'' := by
  obtain ⟨_, _, h⟩ := bind_eq_ok.1 h
  obtain ⟨_, _, h'⟩ := bind_eq_ok.1 h'
  cases instruction with
  | get slot | put slot =>
    obtain ⟨_, _, h⟩ := bind_eq_ok.1 h
    obtain ⟨_, _, h'⟩ := bind_eq_ok.1 h'
    exact Except.ok.inj (h.symm.trans h')
  | _ => exact Except.ok.inj (h.symm.trans h')

theorem instructions_footprint (h : instructions.foldlM (instruct pre reads writes) w = .ok w')
    (h' : instructions.foldlM (instruct pre reads' writes') w = .ok w'') : w' = w'' := by
  induction instructions generalizing w with
  | nil => exact Except.ok.inj (h.symm.trans h')
  | cons instruction instructions ih =>
    rw [List.foldlM_cons] at h h'
    obtain ⟨v, hv, h⟩ := bind_eq_ok.1 h
    obtain ⟨v', hv', h'⟩ := bind_eq_ok.1 h'
    obtain rfl := instruct_footprint hv hv'
    exact ih h h'

end Worker

/-- what a worker that ran leaves -/
structure Ran (pre : MiniState) (budget : MiniBudget) (program : WorkerProgram) (r : PrivateWork × WorkerTrace) :
    Prop where
  work : r.1 = ⟨program.worker, program.writeFootprint, r.2.writes, r.2.returned⟩
  worker : r.2.worker = program.worker
  nodup : program.writeFootprint.Nodup
  increasing : Increasing WorkspaceCell.slot r.2.writes
  slots : ∀ slot, slot ∈ r.2.writes.map WorkspaceCell.slot ↔ slot ∈ program.writeFootprint

theorem cellsOf_slots (m : OrdMap UInt32 I128) : (cellsOf m).map WorkspaceCell.slot = m.entries.map Prod.fst := by
  rw [cellsOf, List.map_map]
  rfl

variable {program : WorkerProgram} {r : PrivateWork × WorkerTrace} {work : PrivateWork} {slot : UInt32}

theorem runWorker_ran {pre : MiniState} {budget : MiniBudget}
    (h : runWorker pre budget program = .ok r) : Ran pre budget program r := by
  obtain ⟨_, _, h⟩ := bind_eq_ok.1 h
  obtain ⟨_, _, h⟩ := bind_eq_ok.1 h
  obtain ⟨_, hwrites, h⟩ := bind_eq_ok.1 h
  obtain ⟨w, _, h⟩ := bind_eq_ok.1 h
  cases hreturned : w.returned with
  | none =>
    rw [hreturned] at h
    cases h
  | some returned =>
    rw [hreturned] at h
    obtain ⟨_, hslots, h⟩ := bind_eq_ok.1 h
    cases h
    refine ⟨rfl, rfl, ?_, ?_, fun slot => ?_⟩
    · exact Multiset.toFinset_card_eq_card_iff_nodup.1 (ensure_eq_ok.1 hwrites)
    · exact (stateOf w.overlay).increasing
    · rw [cellsOf_slots, ← List.mem_toFinset, ensure_eq_ok.1 hslots, List.mem_toFinset]

/-- **Locality.** The trace of a worker depends on its instructions and on the cells it may read, whatever its
footprints and its budget are. -/
theorem runWorker_local {pre pre' : MiniState} {budget budget' : MiniBudget} {program' : WorkerProgram}
    {r' : PrivateWork × WorkerTrace} (h : runWorker pre budget program = .ok r)
    (h' : runWorker pre' budget' program' = .ok r') (hworker : program.worker = program'.worker)
    (hinstructions : program.instructions = program'.instructions) (hagree : Agree program.readFootprint pre pre') :
    r.2 = r'.2 := by
  obtain ⟨_, _, h⟩ := bind_eq_ok.1 h
  obtain ⟨_, _, h⟩ := bind_eq_ok.1 h
  obtain ⟨_, _, h⟩ := bind_eq_ok.1 h
  obtain ⟨w, hw, h⟩ := bind_eq_ok.1 h
  obtain ⟨_, _, h'⟩ := bind_eq_ok.1 h'
  obtain ⟨_, _, h'⟩ := bind_eq_ok.1 h'
  obtain ⟨_, _, h'⟩ := bind_eq_ok.1 h'
  obtain ⟨w', hw', h'⟩ := bind_eq_ok.1 h'
  rw [instructions_agree fun slot hslot => hagree slot (List.mem_toFinset.1 hslot), hinstructions] at hw
  obtain rfl := instructions_footprint hw hw'
  cases hreturned : w.returned with
  | none =>
    rw [hreturned] at h
    cases h
  | some returned =>
    rw [hreturned] at h h'
    obtain ⟨_, _, h⟩ := bind_eq_ok.1 h
    obtain ⟨_, _, h'⟩ := bind_eq_ok.1 h'
    cases h
    cases h'
    rw [hworker]

theorem runWorker_agree {pre pre' : MiniState} (budget : MiniBudget)
    (hagree : Agree program.readFootprint pre pre') : runWorker pre budget program = runWorker pre' budget program := by
  unfold runWorker
  dsimp only
  rw [instructions_agree fun slot hslot => hagree slot (List.mem_toFinset.1 hslot)]

/-! ## The writes of one worker -/

/-- a private result with one write for each slot of its footprint -/
structure Complete (work : PrivateWork) : Prop where
  nodup : work.writeFootprint.Nodup
  increasing : Increasing WorkspaceCell.slot work.writes
  slots : ∀ slot, slot ∈ work.writes.map WorkspaceCell.slot ↔ slot ∈ work.writeFootprint

theorem Ran.complete {pre : MiniState} {budget : MiniBudget} (h : Ran pre budget program r) : Complete r.1 := by
  rw [h.work]
  exact ⟨h.nodup, h.increasing, h.slots⟩

/-- a slot of a private result that the join has given to an earlier worker, the least one -/
structure Clash (join : Join) (work : PrivateWork) (conflict : MergeConflict) : Prop where
  second : conflict.secondWorker = work.worker
  owner : join.ownership.get conflict.slot = some conflict.firstWorker
  mem : conflict.slot ∈ work.writeFootprint
  least : ∀ slot ∈ work.writeFootprint, join.ownership.get slot ≠ none → conflict.slot ≤ slot

/-- the join after some writes of a worker -/
structure Written (join : Join) (work : PrivateWork) (done : List WorkspaceCell) (s : Finset UInt32 × Join) : Prop where
  left : ∀ slot, slot ∈ s.1 ↔ slot ∈ work.writeFootprint ∧ slot ∉ done.map WorkspaceCell.slot
  free : ∀ slot ∈ done.map WorkspaceCell.slot, join.ownership.get slot = none
  ownership : s.2.ownership = join.ownership.extend (done.map fun c => (c.slot, work.worker))
  merged : s.2.merged = join.merged.extend (done.map fun c => (c.slot, c.value))
  returns : s.2.returns = join.returns

theorem map_owner_slots (done : List WorkspaceCell) (worker : UInt32) :
    (done.map fun c => (c.slot, worker)).map Prod.fst = done.map WorkspaceCell.slot := by
  rw [List.map_map]
  rfl

theorem map_value_slots (done : List WorkspaceCell) :
    (done.map fun c => (c.slot, c.value)).map Prod.fst = done.map WorkspaceCell.slot := by
  rw [List.map_map]
  rfl

theorem split_slots {writes done rest : List WorkspaceCell} {c : WorkspaceCell}
    (h : Increasing WorkspaceCell.slot writes) (hl : writes = done ++ c :: rest) :
    (∀ x ∈ done, x.slot < c.slot) ∧ ∀ x ∈ rest, c.slot < x.slot := by
  rw [hl, Increasing, List.pairwise_append, List.pairwise_cons] at h
  exact ⟨fun x hx => h.2.2 x hx c List.mem_cons_self, h.2.1.1⟩

theorem joinWrite_ends {join : Join} (hwork : Complete work) {done rest : List WorkspaceCell}
    {c : WorkspaceCell} {s : Finset UInt32 × Join} (hl : work.writes = done ++ c :: rest)
    (hs : Written join work done s) :
    Ends (Written join work (done ++ [c])) (fun d => ∃ conflict, Clash join work conflict ∧ d = .rejected conflict)
      (joinWrite work.worker s c) := by
  obtain ⟨hbefore, hafter⟩ := split_slots hwork.increasing hl
  have hnew : c.slot ∉ done.map WorkspaceCell.slot := by
    intro hmem
    obtain ⟨x, hx, heq⟩ := List.mem_map.1 hmem
    exact absurd (hbefore x hx) (by rw [heq]; exact lt_irrefl _)
  have hfootprint : c.slot ∈ work.writeFootprint := by
    rw [← hwork.slots, hl]
    exact List.mem_map_of_mem (List.mem_append_right _ List.mem_cons_self)
  have hleft : c.slot ∈ s.1 := (hs.left c.slot).2 ⟨hfootprint, hnew⟩
  have hget : s.2.ownership.get c.slot = join.ownership.get c.slot := by
    rw [hs.ownership]
    apply OrdMap.get_extend_not_mem
    rwa [map_owner_slots]
  unfold joinWrite
  rw [ensure_bind hleft, hget]
  cases howner : join.ownership.get c.slot with
  | some first =>
    refine ⟨⟨c.slot, first, work.worker⟩, ⟨rfl, howner, hfootprint, fun slot hslot howned => ?_⟩, rfl⟩
    -- the slots before `c` are free, those after it are greater
    rw [← hwork.slots, hl, List.map_append, List.map_cons, List.mem_append, List.mem_cons] at hslot
    rcases hslot with hslot | rfl | hslot
    · exact absurd (hs.free slot hslot) howned
    · exact le_rfl
    · obtain ⟨x, hx, rfl⟩ := List.mem_map.1 hslot
      exact (hafter x hx).le
  | none =>
    refine ⟨fun slot => ?_, fun slot hslot => ?_, ?_, ?_, hs.returns⟩
    · rw [Finset.mem_erase, hs.left, List.map_append, List.mem_append, List.map_singleton, List.mem_singleton]
      tauto
    · rw [List.map_append, List.mem_append, List.map_singleton, List.mem_singleton] at hslot
      rcases hslot with hslot | rfl
      · exact hs.free slot hslot
      · exact howner
    · rw [List.map_append, List.map_singleton, OrdMap.extend_snoc, ← hs.ownership]
    · rw [List.map_append, List.map_singleton, OrdMap.extend_snoc, ← hs.merged]

/-- the join after a worker: all its slots were free -/
structure Joined (join : Join) (work : PrivateWork) (next : Join) : Prop where
  free : ∀ slot ∈ work.writeFootprint, join.ownership.get slot = none
  ownership : next.ownership = join.ownership.extend (work.writes.map fun c => (c.slot, work.worker))
  merged : next.merged = join.merged.extend (work.writes.map fun c => (c.slot, c.value))
  returns : next.returns = join.returns ++ [(work.worker, work.returned)]

theorem sortCells_eq {cells : List WorkspaceCell} (h : Increasing WorkspaceCell.slot cells) : sortCells cells = cells :=
  List.mergeSort_of_pairwise (h.imp fun hlt => decide_eq_true (.inl hlt))

/-- **One worker.** All its writes join, or the least slot that is taken is reported. -/
theorem joinWork_ends (join : Join) (hwork : Complete work) :
    Ends (Joined join work) (fun d => ∃ conflict, Clash join work conflict ∧ d = .rejected conflict)
      (joinWork join work) := by
  have hcard : work.writeFootprint.toFinset.card = work.writeFootprint.length :=
    List.toFinset_card_of_nodup hwork.nodup
  have hchain : (work.writes.map WorkspaceCell.slot).IsChain (· ≠ ·) :=
    (increasing_iff_chain (hwork.increasing.imp fun hlt => hlt.le)).1 hwork.increasing
  unfold joinWork
  dsimp only
  rw [ensure_bind hcard, sortCells_eq hwork.increasing, ensure_bind hchain]
  have hstart : Written join work [] (work.writeFootprint.toFinset, join) := by
    refine ⟨fun slot => ?_, List.forall_mem_nil _, rfl, rfl, rfl⟩
    rw [List.mem_toFinset]
    simp
  refine (Ends.foldlM (Written join work) (fun done c rest s hl hs => joinWrite_ends hwork hl hs) hstart).bind ?_
  intro s hs
  have hempty : s.1 = ∅ := by
    apply Finset.eq_empty_of_forall_notMem
    intro slot hslot
    obtain ⟨hmem, hnot⟩ := (hs.left slot).1 hslot
    exact hnot ((hwork.slots slot).2 hmem)
  rw [ensure_bind hempty]
  refine ⟨fun slot hslot => hs.free slot ((hwork.slots slot).2 hslot), hs.ownership, hs.merged, ?_⟩
  rw [hs.returns]

/-! ## All workers -/

/-- two private results write different slots -/
def Apart (a b : PrivateWork) : Prop := ∀ slot ∈ a.writeFootprint, slot ∉ b.writeFootprint

/-- the join after some workers -/
structure Gathered (done : List PrivateWork) (join : Join) : Prop where
  owner : ∀ slot worker, join.ownership.get slot = some worker ↔
    ∃ work ∈ done, work.worker = worker ∧ slot ∈ work.writeFootprint
  value : ∀ slot value, join.merged.get slot = some value ↔ ∃ work ∈ done, (⟨slot, value⟩ : WorkspaceCell) ∈ work.writes
  apart : done.Pairwise Apart
  returns : join.returns = done.map fun work => (work.worker, work.returned)

theorem gathered_nil : Gathered [] ⟨.empty, .empty, []⟩ := by
  refine ⟨fun slot worker => ?_, fun slot value => ?_, .nil, rfl⟩
  · constructor
    · intro h
      cases h
    · rintro ⟨_, hmem, _⟩
      cases hmem
  · constructor
    · intro h
      cases h
    · rintro ⟨_, hmem, _⟩
      cases hmem

theorem Gathered.taken {done : List PrivateWork} {join : Join} (h : Gathered done join)
    (hmem : work ∈ done) (hslot : slot ∈ work.writeFootprint) : join.ownership.get slot ≠ none := by
  rw [(h.owner slot work.worker).2 ⟨work, hmem, rfl, hslot⟩]
  exact Option.some_ne_none _

theorem Joined.gathered {done : List PrivateWork} {join next : Join} (hwork : Complete work)
    (hdone : ∀ w ∈ done, Complete w) (h : Gathered done join) (hnext : Joined join work next) :
    Gathered (done ++ [work]) next := by
  have hslots : ∀ slot, slot ∈ work.writes.map WorkspaceCell.slot → join.ownership.get slot = none :=
    fun slot hslot => hnext.free slot ((hwork.slots slot).1 hslot)
  refine ⟨fun slot worker => ?_, fun slot value => ?_, ?_, ?_⟩
  · rw [hnext.ownership, OrdMap.get_extend_eq_some (by rw [map_owner_slots]; exact hwork.increasing.nodup),
      map_owner_slots, h.owner]
    simp only [List.mem_append, List.mem_singleton, List.mem_map, Prod.mk.injEq]
    constructor
    · rintro (⟨c, hc, rfl, rfl⟩ | ⟨_, w, hw, hworker, hslot⟩)
      · exact ⟨work, .inr rfl, rfl, (hwork.slots _).1 (List.mem_map_of_mem hc)⟩
      · exact ⟨w, .inl hw, hworker, hslot⟩
    · rintro ⟨w, hw | rfl, hworker, hslot⟩
      · refine .inr ⟨fun hmem => ?_, w, hw, hworker, hslot⟩
        exact h.taken hw hslot (hslots slot (List.mem_map.2 hmem))
      · obtain ⟨c, hc, rfl⟩ := List.mem_map.1 ((hwork.slots slot).2 hslot)
        exact .inl ⟨c, hc, rfl, hworker⟩
  · rw [hnext.merged, OrdMap.get_extend_eq_some (by rw [map_value_slots]; exact hwork.increasing.nodup),
      map_value_slots, h.value]
    simp only [List.mem_append, List.mem_singleton, List.mem_map, Prod.mk.injEq]
    constructor
    · rintro (⟨c, hc, rfl, rfl⟩ | ⟨_, w, hw, hcell⟩)
      · exact ⟨work, .inr rfl, hc⟩
      · exact ⟨w, .inl hw, hcell⟩
    · rintro ⟨w, hw | rfl, hcell⟩
      · refine .inr ⟨fun hmem => ?_, w, hw, hcell⟩
        have hslot := ((hdone w hw).slots slot).1 (List.mem_map_of_mem hcell)
        exact h.taken hw hslot (hslots slot (List.mem_map.2 hmem))
      · exact .inl ⟨_, hcell, rfl, rfl⟩
  · rw [List.pairwise_append]
    refine ⟨h.apart, List.pairwise_singleton _ _, fun w hw w' hw' slot hslot hslot' => ?_⟩
    obtain rfl := List.mem_singleton.1 hw'
    exact h.taken hw hslot (hnext.free slot hslot')
  · rw [hnext.returns, h.returns, List.map_append, List.map_singleton]

/-- the first worker that meets an earlier owner, and its least such slot -/
structure FirstClash (all : List PrivateWork) (conflict : MergeConflict) : Prop where
  split : ∃ done work rest join, all = done ++ work :: rest ∧ Gathered done join ∧ Clash join work conflict

/-- **All workers.** They are gathered, or the first clash is reported. -/
theorem joinAll_ends {all : List PrivateWork} (hall : ∀ w ∈ all, Complete w) :
    Ends (Gathered all) (fun d => ∃ conflict, FirstClash all conflict ∧ d = .rejected conflict)
      (all.foldlM joinWork ⟨.empty, .empty, []⟩) := by
  apply Ends.foldlM Gathered _ gathered_nil
  intro done work rest join hl hjoin
  have hdone : ∀ w ∈ done, Complete w := by
    intro w hw
    rw [hl] at hall
    exact hall w (List.mem_append_left _ hw)
  have hwork : Complete work := by
    rw [hl] at hall
    exact hall work (List.mem_append_right _ List.mem_cons_self)
  apply (joinWork_ends join hwork).mono
  · intro next hnext
    exact hnext.gathered hwork hdone hjoin
  · rintro d ⟨conflict, hclash, rfl⟩
    exact ⟨conflict, ⟨done, work, rest, join, hl, hjoin, hclash⟩, rfl⟩

theorem FirstClash.not_apart {all : List PrivateWork} {conflict : MergeConflict} (h : FirstClash all conflict) :
    ¬ all.Pairwise Apart := by
  obtain ⟨done, work, rest, join, rfl, hdone, hclash⟩ := h.split
  intro hapart
  obtain ⟨first, hfirst, _, hslot⟩ := (hdone.owner _ _).1 hclash.owner
  rw [List.pairwise_append] at hapart
  exact hapart.2.2 first hfirst work List.mem_cons_self _ hslot hclash.mem

/-! ## States as maps -/

theorem get_eq_some_iff {s : MiniState} {value : I128} :
    s.get slot = some value ↔ ⟨slot, value⟩ ∈ s.cells := by
  have hget : s.get slot = (Lib.slot WorkspaceCell.slot slot s.cells).map WorkspaceCell.value := by
    unfold MiniState.get
    cases hi : binarySearch WorkspaceCell.slot slot s.cells with
    | ok i =>
      rw [(binarySearch_ok hi).slot]
      rfl
    | error i =>
      rw [(binarySearch_error s.increasing hi).1]
      rfl
  rw [hget, Option.map_eq_some_iff]
  constructor
  · rintro ⟨c, hc, rfl⟩
    have hslot := slot_key hc
    subst hslot
    exact slot_mem hc
  · intro hmem
    exact ⟨⟨slot, value⟩, (slot_eq_some s.increasing).2 ⟨hmem, rfl⟩, rfl⟩

theorem get_stateOf (m : OrdMap UInt32 I128) (slot : UInt32) : (stateOf m).get slot = m.get slot := by
  apply Option.ext
  intro value
  rw [get_eq_some_iff, OrdMap.get_eq_some_iff]
  change (⟨slot, value⟩ : WorkspaceCell) ∈ cellsOf m ↔ _
  simp [cellsOf]

theorem get_mapOf (s : MiniState) (slot : UInt32) : (mapOf s).get slot = s.get slot := by
  apply Option.ext
  intro value
  rw [get_eq_some_iff, OrdMap.get_eq_some_iff]
  constructor
  · intro h
    obtain ⟨c, hc, heq⟩ := List.mem_map.1 h
    cases heq
    exact hc
  · intro h
    exact List.mem_map.2 ⟨_, h, rfl⟩

theorem get_overwritten {pre : MiniState} {merged : OrdMap UInt32 I128} {value : I128} :
    (stateOf ((mapOf pre).extend merged.entries)).get slot = some value ↔
      merged.get slot = some value ∨ merged.get slot = none ∧ pre.get slot = some value := by
  have hkeys : slot ∉ merged.entries.map Prod.fst ↔ merged.get slot = none := by
    rw [Option.eq_none_iff_forall_ne_some]
    constructor
    · intro hnot v hv
      exact hnot (List.mem_map.2 ⟨_, OrdMap.get_eq_some_iff.1 hv, rfl⟩)
    · intro hnone hmem
      obtain ⟨⟨k, v⟩, he, rfl⟩ := List.mem_map.1 hmem
      exact hnone v (OrdMap.get_eq_some_iff.2 he)
  rw [get_stateOf, OrdMap.get_extend_eq_some merged.increasing.nodup, hkeys, get_mapOf, OrdMap.get_eq_some_iff]

/-! ## The decision -/

theorem foldl_saturating (lengths : List ℕ) (n : ℕ) (hn : n ≤ usizeMax) :
    lengths.foldl (fun total length => min (total + length) usizeMax) n = min (n + lengths.sum) usizeMax := by
  induction lengths generalizing n with
  | nil =>
    rw [List.sum_nil, Nat.add_zero]
    exact (min_eq_left hn).symm
  | cons length lengths ih =>
    rw [List.foldl_cons, ih _ (min_le_right _ _), List.sum_cons]
    omega

theorem totalWrites_eq (work : List PrivateWork) :
    totalWrites work = min (work.map fun w => w.writes.length).sum usizeMax := by
  have hfold := foldl_saturating (work.map fun w => w.writes.length) 0 (Nat.zero_le _)
  rw [List.foldl_map, Nat.zero_add] at hfold
  exact hfold

/-- the decision once the writes have been gathered -/
def conclude (pre : MiniState) (joined : Except MiniDecision Join) : MiniDecision :=
  match joined with
  | .ok join => .accepted (stateOf ((mapOf pre).extend join.merged.entries)) join.returns
  | .error decision => decision

theorem execute_eq (pre : MiniState) {work : List PrivateWork} {budget : MiniBudget}
    (hlength : work.length ≤ budget.maxWorkers) (hsorted : Increasing PrivateWork.worker work) :
    execute pre work budget = if totalWrites work ≤ budget.maxWrites
      then conclude pre (work.foldlM joinWork ⟨.empty, .empty, []⟩) else .blocked .writeBudget := by
  have hle : work.Pairwise fun a b => a.worker ≤ b.worker := hsorted.imp fun hlt => hlt.le
  have hsort : sortWork work = work := List.mergeSort_of_pairwise (hle.imp fun h => decide_eq_true h)
  unfold execute join
  rw [ensure_bind hlength]
  dsimp only
  rw [hsort, ensure_bind ((increasing_iff_chain hle).1 hsorted)]
  by_cases hwrites : totalWrites work ≤ budget.maxWrites
  · rw [ensure_bind hwrites, if_pos hwrites]
    cases work.foldlM joinWork ⟨.empty, .empty, []⟩ with
    | ok join => rfl
    | error decision => rfl
  · rw [ensure, if_neg hwrites, if_neg hwrites]
    rfl

/-! ## Programs -/

section Programs

variable {pre : MiniState} {programs : List WorkerProgram} {order : List UInt32} {budget : MiniBudget}

/-- the conditions under which the workers run at all, and all of them end -/
structure AllRan (pre : MiniState) (programs : List WorkerProgram) (order : List UInt32) (budget : MiniBudget)
    (results : List (PrivateWork × WorkerTrace)) : Prop where
  workers : programs.length ≤ budget.maxWorkers
  distinct : (programs.map WorkerProgram.worker).Nodup
  order : ValidOrder programs order
  ran : List.Forall₂ (fun p r => runWorker pre budget p = .ok r) (sortPrograms programs) results

variable {p : WorkerProgram} {r : PrivateWork × WorkerTrace} {conflict : MergeConflict}

theorem spawn_ok {results : List (PrivateWork × WorkerTrace)} :
    spawn pre programs order budget = .ok results ↔ AllRan pre programs order budget results := by
  rw [spawn_eq]
  simp only [bind_eq_ok, ensure_eq_ok, exists_const]
  constructor
  · rintro ⟨hworkers, hdistinct, horder, hran⟩
    exact ⟨hworkers, hdistinct, horder, mapM_eq_ok.1 hran⟩
  · intro h
    exact ⟨h.workers, h.distinct, h.order, mapM_eq_ok.2 h.ran⟩

namespace AllRan

variable {results : List (PrivateWork × WorkerTrace)}

section

variable (h : AllRan pre programs order budget results)

include h

theorem result_of {p : WorkerProgram} (hp : p ∈ programs) : ∃ r ∈ results, runWorker pre budget p = .ok r :=
  forall₂_right h.ran ((sortPrograms_perm programs).mem_iff.2 hp)

theorem program_of {r : PrivateWork × WorkerTrace} (hr : r ∈ results) :
    ∃ p ∈ programs, runWorker pre budget p = .ok r := by
  obtain ⟨p, hp, hran⟩ := forall₂_left h.ran hr
  exact ⟨p, (sortPrograms_perm programs).mem_iff.1 hp, hran⟩

theorem same_worker {p q : WorkerProgram} (hp : p ∈ programs) (hq : q ∈ programs) (heq : p.worker = q.worker) :
    p = q := List.inj_on_of_nodup_map h.distinct hp hq heq

theorem complete : ∀ w ∈ results.map Prod.fst, Complete w := by
  intro w hw
  obtain ⟨r, hr, rfl⟩ := List.mem_map.1 hw
  obtain ⟨p, _, hran⟩ := h.program_of hr
  exact (runWorker_ran hran).complete

theorem map_eq {α : Type} {f : WorkerProgram → α} {g : PrivateWork × WorkerTrace → α}
    (hfg : ∀ p r, Ran pre budget p r → f p = g r) : (sortPrograms programs).map f = results.map g := by
  have hran := h.ran
  clear h
  generalize sortPrograms programs = sorted at hran ⊢
  induction hran with
  | nil => rfl
  | cons hfirst _ ih => rw [List.map_cons, List.map_cons, ih, hfg _ _ (runWorker_ran hfirst)]

theorem workers_eq :
    (sortPrograms programs).map WorkerProgram.worker = results.map fun r => r.1.worker :=
  h.map_eq fun p r hran => by rw [hran.work]

theorem sorted : Increasing PrivateWork.worker (results.map Prod.fst) := by
  have hsorted : Increasing WorkerProgram.worker (sortPrograms programs) := Increasing.mergeSort h.distinct
  unfold Increasing at hsorted ⊢
  rw [← List.pairwise_map (f := WorkerProgram.worker), h.workers_eq, List.pairwise_map] at hsorted
  rwa [List.pairwise_map]

theorem total :
    totalWrites (results.map Prod.fst) = min (programs.map fun p => p.writeFootprint.length).sum usizeMax := by
  have hlengths : (sortPrograms programs).map (fun p => p.writeFootprint.length) =
      results.map fun r => r.1.writes.length := by
    apply h.map_eq
    intro p r hran
    have hcomplete := hran.complete
    have hperm : (r.1.writes.map WorkspaceCell.slot).Perm r.1.writeFootprint :=
      (List.perm_ext_iff_of_nodup hcomplete.increasing.nodup hcomplete.nodup).2 hcomplete.slots
    have hlength := hperm.length_eq
    rw [List.length_map] at hlength
    rw [hlength, hran.work]
  rw [totalWrites_eq, List.map_map, ← ((sortPrograms_perm programs).map _).sum_eq, hlengths]
  rfl

theorem run_eq :
    executePrograms pre programs order budget = ⟨execute pre (results.map Prod.fst) budget, results.map Prod.snd⟩ := by
  unfold executePrograms
  rw [spawn_ok.2 h]

theorem length_le : (results.map Prod.fst).length ≤ budget.maxWorkers := by
  have hlength := congrArg List.length h.workers_eq
  rw [List.length_map, List.length_map, (sortPrograms_perm programs).length_eq] at hlength
  rw [List.length_map, ← hlength]
  exact h.workers

theorem decision_eq :
    (executePrograms pre programs order budget).decision =
      if min (programs.map fun p => p.writeFootprint.length).sum usizeMax ≤ budget.maxWrites
      then conclude pre ((results.map Prod.fst).foldlM joinWork ⟨.empty, .empty, []⟩) else .blocked .writeBudget := by
  rw [h.run_eq, execute_eq pre h.length_le h.sorted, h.total]

end

end AllRan

theorem ran_or_blocked (pre : MiniState) (programs : List WorkerProgram) (order : List UInt32) (budget : MiniBudget) :
    (∃ results, AllRan pre programs order budget results) ∨
      ∃ reason, executePrograms pre programs order budget = ⟨.blocked reason, []⟩ := by
  cases hspawn : spawn pre programs order budget with
  | ok results => exact .inl ⟨results, spawn_ok.1 hspawn⟩
  | error reason =>
    refine .inr ⟨reason, ?_⟩
    unfold executePrograms
    rw [hspawn]

/-! ## Isolation -/

theorem sortPrograms_singleton (p : WorkerProgram) : sortPrograms [p] = [p] := List.mergeSort_singleton p

theorem executePrograms_alone
    (h : runWorker pre budget p = .ok r) : (executePrograms pre [p] [p.worker] budget).traces = [r.2] := by
  have hran : AllRan pre [p] [p.worker] budget [r] := by
    refine ⟨budget.workers_pos, List.nodup_singleton _, ⟨rfl, rfl, rfl⟩, ?_⟩
    rw [sortPrograms_singleton]
    exact .cons h .nil
  rw [hran.run_eq]
  rfl

/-- The trace of a program is the one that it leaves when it runs alone, from any state that agrees on the cells it may
read, and the one that its instructions leave among any other workers. -/
structure Isolated (pre : MiniState) (budget : MiniBudget) (p : WorkerProgram) (t : WorkerTrace) : Prop where
  alone : ∀ pre', Agree p.readFootprint pre pre' → (executePrograms pre' [p] [p.worker] budget).traces = [t]
  among : ∀ pre' programs' order' budget', ∀ p' ∈ programs', p'.worker = p.worker → p'.instructions = p.instructions →
    Agree p.readFootprint pre pre' →
    ∀ t' ∈ (executePrograms pre' programs' order' budget').traces, t'.worker = p.worker → t' = t

theorem runWorker_isolated (h : runWorker pre budget p = .ok r) :
    Isolated pre budget p r.2 := by
  refine ⟨fun pre' hagree => ?_, ?_⟩
  · rw [runWorker_agree budget hagree] at h
    exact executePrograms_alone h
  · intro pre' programs' order' budget' p' hp' hworker hinstructions hagree t' ht' hsame
    rcases ran_or_blocked pre' programs' order' budget' with ⟨results, hran⟩ | ⟨reason, hblocked⟩
    · rw [hran.run_eq] at ht'
      obtain ⟨r', hr', rfl⟩ := List.mem_map.1 ht'
      obtain ⟨q, hq, hrun⟩ := hran.program_of hr'
      have heq : q = p' := hran.same_worker hq hp' (by rw [← (runWorker_ran hrun).worker, hsame, hworker])
      subst heq
      exact (runWorker_local h hrun hworker.symm hinstructions.symm hagree).symm
    · rw [hblocked] at ht'
      cases ht'

/-- **Isolation.** Every trace of a run is that of its program. -/
theorem executePrograms_isolated :
    ∀ t ∈ (executePrograms pre programs order budget).traces, ∃ p ∈ programs, p.worker = t.worker ∧
      Isolated pre budget p t := by
  intro t ht
  rcases ran_or_blocked pre programs order budget with ⟨results, hran⟩ | ⟨reason, hblocked⟩
  · rw [hran.run_eq] at ht
    obtain ⟨r, hr, rfl⟩ := List.mem_map.1 ht
    obtain ⟨p, hp, hrun⟩ := hran.program_of hr
    exact ⟨p, hp, (runWorker_ran hrun).worker.symm, runWorker_isolated hrun⟩
  · rw [hblocked] at ht
    cases ht

/-! ## Acceptance -/

/-- the successor of an accepted run, with its traces and returns -/
structure Merged (pre : MiniState) (programs : List WorkerProgram) (traces : List WorkerTrace) (state : MiniState)
    (returns : List (UInt32 × I128)) : Prop where
  returned : returns = traces.map fun t => (t.worker, t.returned)
  ascending : Increasing Prod.fst returns
  once : (returns.map Prod.fst).Perm (programs.map WorkerProgram.worker)
  footprints : ∀ p ∈ programs, ∀ t ∈ traces, t.worker = p.worker →
    ∀ slot, slot ∈ t.writes.map WorkspaceCell.slot ↔ slot ∈ p.writeFootprint
  disjoint : ∀ p ∈ programs, ∀ q ∈ programs, p.worker ≠ q.worker → ∀ slot ∈ p.writeFootprint, slot ∉ q.writeFootprint
  written : ∀ t ∈ traces, ∀ c ∈ t.writes, state.get c.slot = some c.value
  kept : ∀ slot, (∀ p ∈ programs, slot ∉ p.writeFootprint) → state.get slot = pre.get slot

instance : Std.Symm Apart := ⟨fun _ _ h slot hb ha => h slot ha hb⟩

theorem AllRan.apart_iff {results : List (PrivateWork × WorkerTrace)} (h : AllRan pre programs order budget results) :
    (results.map Prod.fst).Pairwise Apart ↔
      ∀ p ∈ programs, ∀ q ∈ programs, p.worker ≠ q.worker → ∀ slot ∈ p.writeFootprint, slot ∉ q.writeFootprint := by
  constructor
  · intro hapart p hp q hq hne slot hslot hslot'
    obtain ⟨r, hr, hrun⟩ := h.result_of hp
    obtain ⟨r', hr', hrun'⟩ := h.result_of hq
    have hwork := (runWorker_ran hrun).work
    have hwork' := (runWorker_ran hrun').work
    have hdiff : r.1 ≠ r'.1 := by
      intro heq
      apply hne
      rw [hwork, hwork'] at heq
      exact congrArg PrivateWork.worker heq
    have hmem : ∀ {p r}, r ∈ results → runWorker pre budget p = .ok r → r.1.writeFootprint = p.writeFootprint := by
      intro p r _ hrun
      rw [(runWorker_ran hrun).work]
    have happly := hapart.forall (List.mem_map_of_mem hr) (List.mem_map_of_mem hr') hdiff
    rw [Apart, hmem hr hrun, hmem hr' hrun'] at happly
    exact happly slot hslot hslot'
  · intro hdisjoint
    refine h.sorted.imp_of_mem fun {a b} ha hb hlt slot hslot => ?_
    obtain ⟨r, hr, rfl⟩ := List.mem_map.1 ha
    obtain ⟨r', hr', rfl⟩ := List.mem_map.1 hb
    obtain ⟨p, hp, hrun⟩ := h.program_of hr
    obtain ⟨q, hq, hrun'⟩ := h.program_of hr'
    rw [(runWorker_ran hrun).work] at hlt hslot
    rw [(runWorker_ran hrun').work] at hlt ⊢
    exact hdisjoint p hp q hq hlt.ne slot hslot

theorem merged_of_gathered {results : List (PrivateWork × WorkerTrace)} {join : Join}
    (h : AllRan pre programs order budget results) (hjoin : Gathered (results.map Prod.fst) join) :
    Merged pre programs (results.map Prod.snd) (stateOf ((mapOf pre).extend join.merged.entries)) join.returns := by
  have hreturns : join.returns = (results.map Prod.snd).map fun t => (t.worker, t.returned) := by
    rw [hjoin.returns, List.map_map, List.map_map]
    apply List.map_congr_left
    intro r hr
    obtain ⟨p, _, hrun⟩ := h.program_of hr
    change (r.1.worker, r.1.returned) = (r.2.worker, r.2.returned)
    rw [(runWorker_ran hrun).work, (runWorker_ran hrun).worker]
  have hworkers : join.returns.map Prod.fst = (sortPrograms programs).map WorkerProgram.worker := by
    rw [h.workers_eq, hjoin.returns, List.map_map, List.map_map]
    rfl
  refine ⟨hreturns, ?_, ?_, ?_, h.apart_iff.1 hjoin.apart, ?_, ?_⟩
  · have hsorted : Increasing WorkerProgram.worker (sortPrograms programs) := Increasing.mergeSort h.distinct
    unfold Increasing at hsorted ⊢
    rwa [← List.pairwise_map (f := Prod.fst), hworkers, List.pairwise_map]
  · rw [hworkers]
    exact (sortPrograms_perm programs).map _
  · intro p hp t ht hworker slot
    obtain ⟨r, hr, rfl⟩ := List.mem_map.1 ht
    obtain ⟨q, hq, hrun⟩ := h.program_of hr
    obtain rfl := h.same_worker hq hp (by rw [← (runWorker_ran hrun).worker, hworker])
    exact (runWorker_ran hrun).slots slot
  · intro t ht c hc
    obtain ⟨r, hr, rfl⟩ := List.mem_map.1 ht
    obtain ⟨p, _, hrun⟩ := h.program_of hr
    apply get_overwritten.2
    refine .inl ((hjoin.value c.slot c.value).2 ⟨r.1, List.mem_map_of_mem hr, ?_⟩)
    rw [(runWorker_ran hrun).work]
    exact hc
  · intro slot hslot
    apply Option.ext
    intro value
    have hnone : join.merged.get slot = none := by
      rw [Option.eq_none_iff_forall_ne_some]
      intro v hv
      obtain ⟨w, hw, hcell⟩ := (hjoin.value slot v).1 hv
      obtain ⟨r, hr, rfl⟩ := List.mem_map.1 hw
      obtain ⟨p, hp, hrun⟩ := h.program_of hr
      rw [(runWorker_ran hrun).work] at hcell
      exact hslot p hp (((runWorker_ran hrun).slots slot).1 (List.mem_map_of_mem hcell))
    rw [get_overwritten, hnone]
    simp

/-- **Acceptance.** An accepted run overwrites the state by the writes of all workers. -/
theorem executePrograms_accepted {state : MiniState} {returns : List (UInt32 × I128)}
    (haccepted : (executePrograms pre programs order budget).decision = .accepted state returns) :
    Merged pre programs (executePrograms pre programs order budget).traces state returns := by
  rcases ran_or_blocked pre programs order budget with ⟨results, hran⟩ | ⟨reason, hblocked⟩
  · rw [hran.decision_eq] at haccepted
    rw [hran.run_eq]
    split at haccepted
    · have hends := joinAll_ends hran.complete
      cases hjoin : (results.map Prod.fst).foldlM joinWork ⟨.empty, .empty, []⟩ with
      | ok join =>
        rw [hjoin] at haccepted hends
        cases haccepted
        exact merged_of_gathered hran hends
      | error decision =>
        rw [hjoin] at haccepted hends
        obtain ⟨conflict, _, rfl⟩ := hends
        cases haccepted
    · cases haccepted
  · rw [hblocked] at haccepted
    cases haccepted

/-! ## Rejection -/

/-- workers that are valid by themselves and within the budgets, two of which may write one slot -/
structure Conflicting (pre : MiniState) (programs : List WorkerProgram) (order : List UInt32) (budget : MiniBudget) :
    Prop where
  workers : programs.length ≤ budget.maxWorkers
  distinct : (programs.map WorkerProgram.worker).Nodup
  order : ValidOrder programs order
  valid : ∀ p ∈ programs, ∃ r, runWorker pre budget p = .ok r
  writes : min (programs.map fun p => p.writeFootprint.length).sum usizeMax ≤ budget.maxWrites
  shared : ∃ p ∈ programs, ∃ q ∈ programs, p.worker ≠ q.worker ∧ ∃ slot ∈ p.writeFootprint, slot ∈ q.writeFootprint

/-- the least slot of the first worker that meets an earlier owner -/
structure Witness (programs : List WorkerProgram) (conflict : MergeConflict) : Prop where
  owners : ∃ p ∈ programs, ∃ q ∈ programs, p.worker = conflict.firstWorker ∧ q.worker = conflict.secondWorker ∧
    p.worker < q.worker ∧ conflict.slot ∈ p.writeFootprint ∧ conflict.slot ∈ q.writeFootprint
  least : ∀ p ∈ programs, ∀ q ∈ programs, p.worker < q.worker → q.worker = conflict.secondWorker →
    ∀ slot ∈ p.writeFootprint, slot ∈ q.writeFootprint → conflict.slot ≤ slot
  first : ∀ p ∈ programs, ∀ q ∈ programs, p.worker < q.worker → q.worker < conflict.secondWorker →
    ∀ slot ∈ p.writeFootprint, slot ∉ q.writeFootprint

theorem FirstClash.witness {results : List (PrivateWork × WorkerTrace)}
    (h : AllRan pre programs order budget results) (hclash : FirstClash (results.map Prod.fst) conflict) :
    Witness programs conflict := by
  obtain ⟨done, work, rest, join, hl, hdone, hmeets⟩ := hclash.split
  have hsorted := h.sorted
  rw [hl, Increasing, List.pairwise_append, List.pairwise_cons] at hsorted
  have hbefore : ∀ w ∈ done, w.worker < work.worker := fun w hw => hsorted.2.2 w hw work List.mem_cons_self
  have hmem : ∀ w, w ∈ done ++ work :: rest → ∃ p ∈ programs, w.worker = p.worker ∧
      w.writeFootprint = p.writeFootprint := by
    intro w hw
    rw [← hl] at hw
    obtain ⟨r, hr, rfl⟩ := List.mem_map.1 hw
    obtain ⟨p, hp, hrun⟩ := h.program_of hr
    refine ⟨p, hp, ?_, ?_⟩
    all_goals rw [(runWorker_ran hrun).work]
  have hof : ∀ p ∈ programs, ∃ w ∈ done ++ work :: rest, w.worker = p.worker ∧
      w.writeFootprint = p.writeFootprint := by
    intro p hp
    obtain ⟨r, hr, hrun⟩ := h.result_of hp
    refine ⟨r.1, by rw [← hl]; exact List.mem_map_of_mem hr, ?_, ?_⟩
    all_goals rw [(runWorker_ran hrun).work]
  -- the workers below that of `work` have been gathered
  have hgathered : ∀ w ∈ done ++ work :: rest, w.worker < work.worker → w ∈ done := by
    intro w hw hlt
    rcases List.mem_append.1 hw with hw | hw
    · exact hw
    · rcases List.mem_cons.1 hw with rfl | hw
      · exact absurd hlt (lt_irrefl _)
      · exact absurd (hsorted.2.1.1 w hw) hlt.asymm
  have hfind : ∀ p ∈ programs, p.worker < work.worker → ∃ w ∈ done, w.worker = p.worker ∧
      w.writeFootprint = p.writeFootprint := by
    intro p hp hlt
    obtain ⟨w, hw, hworker, hfootprint⟩ := hof p hp
    exact ⟨w, hgathered w hw (hworker ▸ hlt), hworker, hfootprint⟩
  obtain ⟨q, hq, hqworker, hqfootprint⟩ := hmem work (List.mem_append_right _ List.mem_cons_self)
  refine ⟨?_, ?_, ?_⟩
  · obtain ⟨w, hw, hworker, hslot⟩ := (hdone.owner _ _).1 hmeets.owner
    obtain ⟨p, hp, hpworker, hpfootprint⟩ := hmem w (List.mem_append_left _ hw)
    refine ⟨p, hp, q, hq, hpworker.symm.trans hworker, hqworker.symm.trans hmeets.second.symm, ?_, ?_, ?_⟩
    · rw [← hpworker, ← hqworker]
      exact hbefore w hw
    · rw [← hpfootprint]
      exact hslot
    · rw [← hqfootprint]
      exact hmeets.mem
  · intro p hp q' hq' hlt hworker slot hslot hslot'
    obtain rfl := h.same_worker hq' hq (by rw [hworker, hmeets.second, hqworker])
    obtain ⟨w, hw, _, hfootprint⟩ := hfind p hp (hqworker ▸ hlt)
    apply hmeets.least slot (by rw [hqfootprint]; exact hslot')
    exact hdone.taken hw (by rw [hfootprint]; exact hslot)
  · intro p hp q' hq' hlt hbelow slot hslot hslot'
    rw [hmeets.second] at hbelow
    obtain ⟨w', hw', hworker', hfootprint'⟩ := hfind q' hq' hbelow
    obtain ⟨w, hw, hworker, hfootprint⟩ := hfind p hp (hlt.trans hbelow)
    have hne : w ≠ w' := by
      rintro rfl
      rw [hworker] at hworker'
      exact hlt.ne hworker'
    apply hdone.apart.forall hw hw' hne slot
    · rw [hfootprint]
      exact hslot
    · rw [hfootprint']
      exact hslot'

/-- **Rejection.** A run is rejected exactly when its workers conflict. -/
theorem executePrograms_rejected :
    (∃ conflict, (executePrograms pre programs order budget).decision = .rejected conflict) ↔
      Conflicting pre programs order budget := by
  constructor
  · rintro ⟨conflict, hrejected⟩
    rcases ran_or_blocked pre programs order budget with ⟨results, hran⟩ | ⟨reason, hblocked⟩
    · rw [hran.decision_eq] at hrejected
      split at hrejected
      next hwrites =>
        refine ⟨hran.workers, hran.distinct, hran.order, fun p hp => ?_, hwrites, ?_⟩
        · obtain ⟨r, _, hrun⟩ := hran.result_of hp
          exact ⟨r, hrun⟩
        · have hends := joinAll_ends hran.complete
          cases hjoin : (results.map Prod.fst).foldlM joinWork ⟨.empty, .empty, []⟩ with
          | ok join =>
            rw [hjoin] at hrejected
            cases hrejected
          | error decision =>
            rw [hjoin] at hends
            obtain ⟨first, hclash, _⟩ := hends
            have hapart := mt hran.apart_iff.2 hclash.not_apart
            push Not at hapart
            exact hapart
      next => cases hrejected
    · rw [hblocked] at hrejected
      cases hrejected
  · intro hconflicting
    obtain ⟨results, hresults⟩ : ∃ results,
        List.Forall₂ (fun p r => runWorker pre budget p = .ok r) (sortPrograms programs) results :=
      exists_forall₂.2 fun p hp => hconflicting.valid p ((sortPrograms_perm programs).mem_iff.1 hp)
    have hran : AllRan pre programs order budget results :=
      ⟨hconflicting.workers, hconflicting.distinct, hconflicting.order, hresults⟩
    have hends := joinAll_ends hran.complete
    rw [hran.decision_eq, if_pos hconflicting.writes]
    cases hjoin : (results.map Prod.fst).foldlM joinWork ⟨.empty, .empty, []⟩ with
    | ok join =>
      rw [hjoin] at hends
      obtain ⟨p, hp, q, hq, hne, slot, hslot, hslot'⟩ := hconflicting.shared
      exact absurd hslot' (hran.apart_iff.1 hends.apart p hp q hq hne slot hslot)
    | error decision =>
      rw [hjoin] at hends
      obtain ⟨conflict, _, rfl⟩ := hends
      exact ⟨conflict, rfl⟩

theorem executePrograms_witness
    (hrejected : (executePrograms pre programs order budget).decision = .rejected conflict) :
    Witness programs conflict := by
  rcases ran_or_blocked pre programs order budget with ⟨results, hran⟩ | ⟨reason, hblocked⟩
  · rw [hran.decision_eq] at hrejected
    split at hrejected
    · have hends := joinAll_ends hran.complete
      cases hjoin : (results.map Prod.fst).foldlM joinWork ⟨.empty, .empty, []⟩ with
      | ok join =>
        rw [hjoin] at hrejected
        cases hrejected
      | error decision =>
        rw [hjoin] at hends hrejected
        obtain ⟨first, hclash, rfl⟩ := hends
        cases hrejected
        exact hclash.witness hran
    · cases hrejected
  · rw [hblocked] at hrejected
    cases hrejected

/-! ## The determinator -/

theorem ValidOrder.perm {order' : List UInt32} (h : ValidOrder programs order) (h' : ValidOrder programs order') :
    order.Perm order' :=
  List.perm_of_nodup_nodup_toFinset_eq (Multiset.toFinset_card_eq_card_iff_nodup.1 h.card)
    (Multiset.toFinset_card_eq_card_iff_nodup.1 h'.card) (h.workers.trans h'.workers.symm)

/-- **The Mini Determinator.** Its runs do not depend on the schedule, its workers are isolated, an accepted run merges
disjoint footprints, and a rejected one names the first conflict. -/
theorem mini_determinator (pre : MiniState) (programs : List WorkerProgram) (order : List UInt32)
    (budget : MiniBudget) :
    (∀ programs' order', programs.Perm programs' →
      order.Perm order' ∨ ValidOrder programs order ∧ ValidOrder programs' order' →
      executePrograms pre programs order budget = executePrograms pre programs' order' budget) ∧
    (∀ t ∈ (executePrograms pre programs order budget).traces, ∃ p ∈ programs, p.worker = t.worker ∧
      Isolated pre budget p t) ∧
    (∀ state returns, (executePrograms pre programs order budget).decision = .accepted state returns →
      Merged pre programs (executePrograms pre programs order budget).traces state returns) ∧
    ((∃ conflict, (executePrograms pre programs order budget).decision = .rejected conflict) ↔
      Conflicting pre programs order budget) ∧
    ∀ conflict, (executePrograms pre programs order budget).decision = .rejected conflict →
      Witness programs conflict := by
  refine ⟨?_, executePrograms_isolated, ?_, executePrograms_rejected, ?_⟩
  · intro programs' order' hperm horder
    apply executePrograms_perm pre budget hperm
    rcases horder with horder | ⟨hvalid, hvalid'⟩
    · exact horder
    · exact hvalid.perm ((validOrder_perm hperm (.refl order')).2 hvalid')
  · intro state returns
    exact executePrograms_accepted
  · intro conflict
    exact executePrograms_witness

end Programs

/-! ## Two copying workers -/

theorem copied_increasing : Increasing WorkspaceCell.slot [⟨0, ⟨1, I128.lo_one, I128.hi_one⟩⟩] :=
  List.pairwise_singleton _ _

/-- one cell -/
def copied : MiniState := ⟨[⟨0, ⟨1, I128.lo_one, I128.hi_one⟩⟩], copied_increasing⟩

/-- copies the cell to a slot of its own -/
def copier (worker slot : UInt32) : WorkerProgram := ⟨worker, [0], [slot], [.get 0, .put slot, .return]⟩

/-- what a copier leaves -/
def copy (worker slot : UInt32) : PrivateWork × WorkerTrace :=
  (⟨worker, [slot], [⟨slot, ⟨1, I128.lo_one, I128.hi_one⟩⟩], ⟨1, I128.lo_one, I128.hi_one⟩⟩,
    ⟨worker, copied.cells, [⟨slot, ⟨1, I128.lo_one, I128.hi_one⟩⟩], ⟨1, I128.lo_one, I128.hi_one⟩⟩)

theorem smallBudget_steps : 0 < 3 := by decide

def smallBudget : MiniBudget := ⟨2, 2, 3, Nat.two_pos, Nat.two_pos, smallBudget_steps⟩

theorem copiers_order (slot slot' : UInt32) : ValidOrder [copier 1 slot, copier 2 slot'] [1, 2] := ⟨rfl, rfl, rfl⟩

theorem copiers_conflict : Conflicting copied [copier 1 5, copier 2 5] [1, 2] smallBudget where
  workers := le_rfl
  distinct := by decide
  order := copiers_order 5 5
  valid := by
    intro p hp
    rcases List.mem_pair.1 hp with rfl | rfl
    · exact ⟨copy 1 5, rfl⟩
    · exact ⟨copy 2 5, rfl⟩
  writes := by decide
  shared := ⟨copier 1 5, by simp, copier 2 5, by simp, by decide, 5, by simp [copier], by simp [copier]⟩

theorem copiers_ran : AllRan copied [copier 1 5, copier 2 6] [1, 2] smallBudget [copy 1 5, copy 2 6] := by
  refine ⟨le_rfl, by decide, copiers_order 5 6, ?_⟩
  rw [show sortPrograms [copier 1 5, copier 2 6] = [copier 1 5, copier 2 6] from List.mergeSort_of_pairwise (by decide)]
  exact .cons rfl (.cons rfl .nil)

theorem joinWork_singleton {join : Join} {worker slot : UInt32} {value returned : I128}
    (h : join.ownership.get slot = none) : joinWork join ⟨worker, [slot], [⟨slot, value⟩], returned⟩ =
      .ok ⟨join.ownership.insert slot worker, join.merged.insert slot value, join.returns ++ [(worker, returned)]⟩ := by
  have hwrite : joinWrite worker ({slot}, join) ⟨slot, value⟩ = .ok (∅, { join with
      ownership := join.ownership.insert slot worker
      merged := join.merged.insert slot value }) := by
    simp [joinWrite, h, ensure]
  simp only [joinWork, sortCells, List.mergeSort_singleton, List.map_cons, List.map_nil, List.foldlM_cons,
    List.foldlM_nil, List.toFinset_cons, List.toFinset_nil, insert_empty_eq, hwrite]
  simp only [ensure, Finset.card_singleton, List.length_singleton, List.IsChain.singleton, if_true, ok_bind]
  rfl

theorem copiers_accepted : ∃ state returns,
    (executePrograms copied [copier 1 5, copier 2 6] [1, 2] smallBudget).decision = .accepted state returns := by
  rw [copiers_ran.decision_eq, if_pos (by decide)]
  have hfirst : joinWork ⟨.empty, .empty, []⟩ (copy 1 5).1 = .ok _ := joinWork_singleton rfl
  rw [List.map_cons, List.map_cons, List.map_nil, List.foldlM_cons, hfirst, ok_bind, List.foldlM_cons, copy,
    joinWork_singleton (by rfl), ok_bind]
  exact ⟨_, _, rfl⟩

/-- two copiers of different slots are merged in either order, and two copiers of one slot conflict in it -/
theorem mini_determinator_copiers :
    executePrograms copied [copier 2 6, copier 1 5] [2, 1] smallBudget =
        executePrograms copied [copier 1 5, copier 2 6] [1, 2] smallBudget ∧
      (∃ state returns,
        (executePrograms copied [copier 1 5, copier 2 6] [1, 2] smallBudget).decision = .accepted state returns ∧
        Merged copied [copier 1 5, copier 2 6] (executePrograms copied [copier 1 5, copier 2 6] [1, 2] smallBudget).traces
          state returns) ∧
      ∃ conflict, (executePrograms copied [copier 1 5, copier 2 5] [1, 2] smallBudget).decision = .rejected conflict ∧
        Witness [copier 1 5, copier 2 5] conflict := by
  obtain ⟨horder, _, hmerged, _, _⟩ := mini_determinator copied [copier 1 5, copier 2 6] [1, 2] smallBudget
  obtain ⟨_, _, _, hrejected, hwitness⟩ := mini_determinator copied [copier 1 5, copier 2 5] [1, 2] smallBudget
  obtain ⟨state, returns, haccepted⟩ := copiers_accepted
  obtain ⟨conflict, hconflict⟩ := hrejected.2 copiers_conflict
  exact ⟨(horder _ _ (.swap _ _ _) (Or.inl (.swap _ _ _))).symm, ⟨state, returns, haccepted, hmerged _ _ haccepted⟩,
    conflict, hconflict, hwitness _ hconflict⟩

end MiniDeterminator

end ZenoFcis.Spec
