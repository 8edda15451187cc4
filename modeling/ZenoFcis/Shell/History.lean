/-
The reference shell over whole histories. Every reachable state keeps its four indexes sorted and in step with one
another, whatever bundles, replay identities and acknowledgements it is given.

Result: `shell_history`.
-/
import ZenoFcis.Shell.Reference

namespace ZenoFcis

open Lib Lib.Except
open Effects (CommitStatus)

variable {hash : Bytes → Hash32} {domains : Set Domain} {stateDomain : Domain}

/-- a record apart from its acknowledgement -/
def OutboxRecord.obligation (record : OutboxRecord) : OutboxRecord := { record with acknowledged := false }

/-- the root commits to the state under one of the domains in use; the indexes are sorted and agree -/
structure ShellState.Consistent (hash : Bytes → Hash32) (domains : Set Domain) (s : ShellState) : Prop where
  root : ∃ stateDomain ∈ domains, hashValue hash stateDomain s.state = .ok s.root
  replay_sorted : Increasing ReplayRecord.replayId s.replay
  bundles_sorted : Increasing Prod.fst s.bundles
  outbox_sorted : Increasing OutboxRecord.place s.outbox
  keyed : ∀ x ∈ s.bundles, x.2.candidateId = x.1 ∧ x.2.receipt.candidateId = x.1
  receipts : s.receipts = s.bundles.map fun x => (x.1, x.2.receipt)
  bound : (s.replay.map ReplayRecord.candidateId).Perm (s.bundles.map Prod.fst)
  outbox : ∀ r, r ∈ s.outbox.map OutboxRecord.obligation ↔
    ∃ x ∈ s.bundles, ∃ e ∈ x.2.outboxPlan.entries, outboxRecord hash x.1 e = .ok r

variable {s : ShellState} {c : CandidateId} {replayId : Hash32} {bundle : CommitBundle}

theorem ShellState.Consistent.receipts_sorted (h : s.Consistent hash domains) :
    Increasing Prod.fst s.receipts := by
  rw [h.receipts]
  exact List.pairwise_map.2 h.bundles_sorted

/-- what a later state keeps of an earlier one -/
structure ShellState.Extends (s s' : ShellState) : Prop where
  replay : s.replay ⊆ s'.replay
  bundles : s.bundles ⊆ s'.bundles
  outbox : ∀ r ∈ s.outbox, ∃ r' ∈ s'.outbox,
    r'.obligation = r.obligation ∧ (r.acknowledged = true → r'.acknowledged = true)

theorem ShellState.Extends.refl (s : ShellState) : s.Extends s :=
  ⟨List.Subset.refl _, List.Subset.refl _, fun r hr => ⟨r, hr, rfl, id⟩⟩

theorem ShellState.Extends.trans {s₁ s₂ s₃ : ShellState} (h : s₁.Extends s₂) (h' : s₂.Extends s₃) : s₁.Extends s₃ := by
  refine ⟨fun x hx => h'.replay (h.replay hx), fun x hx => h'.bundles (h.bundles hx), fun r hr => ?_⟩
  obtain ⟨r₂, hr₂, ho₂, ha₂⟩ := h.outbox r hr
  obtain ⟨r₃, hr₃, ho₃, ha₃⟩ := h'.outbox r₂ hr₂
  exact ⟨r₃, hr₃, ho₃.trans ho₂, fun ha => ha₃ (ha₂ ha)⟩

/-! ## The outbox loop -/

/-- an outbox record takes its entry over -/
theorem outboxRecord_ok {e : OutboxEntry} {r : OutboxRecord} (h : outboxRecord hash c e = .ok r) :
    r.candidateId = c ∧ r.ordinal = e.ordinal ∧ r.entry = e ∧ r.acknowledged = false := by
  simp only [outboxRecord, bind_eq_ok] at h
  obtain ⟨_, _, _, _, hr⟩ := h
  cases hr
  exact ⟨rfl, rfl, rfl, rfl⟩

theorem outboxRecord_error {e : OutboxEntry} {error : ShellError}
    (h : outboxRecord hash c e = .error error) : ∃ e', error = .encode e' := by
  unfold outboxRecord hashOutboxEntry at h
  cases hid : e.deliveryId hash c.hash with
  | error e' =>
    rw [hid] at h
    cases h
    exact ⟨e', rfl⟩
  | ok id =>
    cases hbytes : e.canonicalBytes with
    | error e' =>
      rw [hid, hbytes] at h
      cases h
      exact ⟨e', rfl⟩
    | ok bytes =>
      cases hhash : commitment hash (.fixed "zeno-fcis/outbox-entry") bytes with
      | error e' =>
        rw [hid, hbytes] at h
        simp only [Except.mapError, ok_bind, hhash, error_bind] at h
        cases h
        exact ⟨e', rfl⟩
      | ok entryHash =>
        rw [hid, hbytes] at h
        simp only [Except.mapError, ok_bind, hhash] at h
        cases h

theorem insertOutbox_spec {c : CandidateId} {entries : List OutboxEntry} {outbox : List OutboxRecord}
    (hsorted : Increasing OutboxRecord.place outbox) (hentries : Increasing OutboxEntry.ordinal entries)
    (hnew : ∀ r ∈ outbox, r.candidateId = c → ∀ e ∈ entries, r.ordinal ≠ e.ordinal) :
    match insertOutbox hash c entries outbox with
    | .error error => ∃ e, error = .encode e
    | .ok outbox' => Increasing OutboxRecord.place outbox' ∧
        ∀ r, r ∈ outbox' ↔ r ∈ outbox ∨ ∃ e ∈ entries, outboxRecord hash c e = .ok r := by
  induction entries generalizing outbox with
  | nil => exact ⟨hsorted, fun r => by simp⟩
  | cons e entries ih =>
    unfold insertOutbox
    cases hrecord : outboxRecord hash c e with
    | error error => exact outboxRecord_error hrecord
    | ok record =>
      obtain ⟨hc, hordinal, _, _⟩ := outboxRecord_ok hrecord
      rw [ok_bind]
      have habsent : slot OutboxRecord.place record.place outbox = none := by
        refine slot_eq_none.2 fun r hr hplace => ?_
        have hpair := toLex.injective hplace
        rw [Prod.mk.injEq] at hpair
        exact hnew r hr (hpair.1.trans hc) e List.mem_cons_self (hpair.2.trans hordinal)
      cases hsearch : binarySearch OutboxRecord.place record.place outbox with
      | ok i =>
        rw [(binarySearch_ok hsearch).slot] at habsent
        cases habsent
      | error i =>
        obtain ⟨_, hput⟩ := binarySearch_error hsorted hsearch
        have hmem : ∀ r, r ∈ outbox.insertIdx i record ↔ r = record ∨ r ∈ outbox := by
          intro r
          rw [hput, (put_perm habsent).mem_iff, List.mem_cons]
        have hspec := @ih (outbox.insertIdx i record)
          (by rw [hput]; exact hsorted.put fun y hy => by cases hy; rfl) hentries.tail ?_
        · cases hrest : insertOutbox hash c entries (outbox.insertIdx i record) with
          | error error =>
            rw [hrest] at hspec
            simpa only [hrest] using hspec
          | ok outbox' =>
            rw [hrest] at hspec
            simp only [hrest]
            refine ⟨hspec.1, fun r => ?_⟩
            rw [hspec.2, hmem, List.exists_mem_cons_iff, hrecord, Except.ok.injEq]
            tauto
        · intro r hr hrc e' he'
          rcases (hmem r).1 hr with rfl | hr
          · rw [hordinal]
            exact (hentries.head_lt he').ne
          · exact hnew r hr hrc e' (List.mem_cons_of_mem _ he')

/-! ## One call -/

/-- the errors that would mean a broken state -/
def ShellError.Broken (error : ShellError) : Prop :=
  error = .corruptReferenceState ∨ error = .duplicateOutboxRecord

/-- a bundle is committed under a replay identity -/
structure ShellState.Committed (s : ShellState) (replayId : Hash32) (bundle : CommitBundle) : Prop where
  replay : ⟨replayId, bundle.candidateId⟩ ∈ s.replay
  bundle : (bundle.candidateId, bundle) ∈ s.bundles

/-- what a call that ends in state `s'` has kept -/
structure ShellState.Keeps (hash : Bytes → Hash32) (domains : Set Domain) (s s' : ShellState) : Prop where
  consistent : s'.Consistent hash domains
  since : s.Extends s'

section

variable (h : s.Consistent hash domains)

include h

theorem ShellState.Consistent.keeps : s.Keeps hash domains s := ⟨h, .refl s⟩

omit h in
theorem not_broken_encode (e : EncodeError) : ¬ (ShellError.encode e).Broken := by
  rintro (h | h) <;> cases h

theorem ShellState.Consistent.outbox_candidate {r : OutboxRecord} (hr : r ∈ s.outbox) :
    ∃ x ∈ s.bundles, x.1 = r.candidateId := by
  obtain ⟨x, hx, e, _, hrecord⟩ := (h.outbox r.obligation).1 (List.mem_map_of_mem hr)
  exact ⟨x, hx, (outboxRecord_ok hrecord).1.symm⟩

theorem ShellState.Consistent.commit {applied : AppliedPatch} {outbox : List OutboxRecord}
    (hdomain : stateDomain ∈ domains) (hvalid : bundle.Validated hash stateDomain applied)
    (hreplay : slot ReplayRecord.replayId replayId s.replay = none)
    (hbundle : slot Prod.fst bundle.candidateId s.bundles = none)
    (hsorted : Increasing OutboxRecord.place outbox)
    (houtbox : ∀ r, r ∈ outbox ↔
      r ∈ s.outbox ∨ ∃ e ∈ bundle.outboxPlan.entries, outboxRecord hash bundle.candidateId e = .ok r)
    {s' : ShellState} (hs' : s' = { state := applied.state
                                    root := applied.postRoot
                                    replay := put ReplayRecord.replayId replayId (some ⟨replayId, bundle.candidateId⟩)
                                      s.replay
                                    receipts := put Prod.fst bundle.candidateId
                                      (some (bundle.candidateId, bundle.receipt)) s.receipts
                                    bundles := put Prod.fst bundle.candidateId (some (bundle.candidateId, bundle))
                                      s.bundles
                                    outbox }) :
    s.Keeps hash domains s' ∧ s'.Committed replayId bundle := by
  have hp := put_perm (x := (⟨replayId, bundle.candidateId⟩ : ReplayRecord)) hreplay
  have hb := put_perm (x := (bundle.candidateId, bundle)) hbundle
  subst hs'
  refine ⟨⟨⟨⟨_, hdomain, hvalid.root⟩, ?_, ?_, hsorted, ?_, ?_, ?_, ?_⟩, ⟨?_, ?_, ?_⟩⟩, ⟨?_, ?_⟩⟩
  · exact h.replay_sorted.put fun y hy => by cases hy; rfl
  · exact h.bundles_sorted.put fun y hy => by cases hy; rfl
  · intro x hx
    rcases List.mem_cons.1 (hb.mem_iff.1 hx) with rfl | hx
    · exact ⟨rfl, hvalid.receipt⟩
    · exact h.keyed x hx
  · simp only [h.receipts]
    have hmap := @put_map (CandidateId × CommitBundle) CandidateId _ Prod.fst bundle.candidateId _ Prod.fst
      (fun x => (x.1, x.2.receipt)) (fun _ => rfl) (some (bundle.candidateId, bundle)) s.bundles
    exact hmap.symm
  · calc List.map ReplayRecord.candidateId (put ReplayRecord.replayId replayId _ s.replay)
        |>.Perm (bundle.candidateId :: s.replay.map ReplayRecord.candidateId) := hp.map _
      _ |>.Perm (bundle.candidateId :: s.bundles.map Prod.fst) := h.bound.cons _
      _ |>.Perm _ := (hb.map Prod.fst).symm
  · intro r
    simp only [hb.mem_iff, List.exists_mem_cons_iff, ← h.outbox r, List.mem_map, houtbox]
    constructor
    · rintro ⟨r', hr' | ⟨e, he, hr'⟩, rfl⟩
      · exact Or.inr ⟨r', hr', rfl⟩
      · refine Or.inl ⟨e, he, ?_⟩
        rw [hr', OutboxRecord.obligation, ← (outboxRecord_ok hr').2.2.2]
    · rintro (⟨e, he, hr⟩ | ⟨r', hr', rfl⟩)
      · refine ⟨r, Or.inr ⟨e, he, hr⟩, ?_⟩
        rw [OutboxRecord.obligation, ← (outboxRecord_ok hr).2.2.2]
      · exact ⟨r', Or.inl hr', rfl⟩
  · exact fun x hx => hp.mem_iff.2 (List.mem_cons_of_mem _ hx)
  · exact fun x hx => hb.mem_iff.2 (List.mem_cons_of_mem _ hx)
  · exact fun r hr => ⟨r, (houtbox r).2 (Or.inl hr), rfl, id⟩
  · exact hp.mem_iff.2 List.mem_cons_self
  · exact hb.mem_iff.2 List.mem_cons_self

theorem commitBundle_spec (hdomain : stateDomain ∈ domains)
    (hreplay : slot ReplayRecord.replayId replayId s.replay = none) :
    match commitBundle hash stateDomain s replayId bundle with
    | .error error => ¬ error.Broken
    | .ok result => s.Keeps hash domains result.state ∧ result.state.Committed replayId bundle := by
  unfold commitBundle
  split_ifs with hroot
  · rintro (h | h) <;> cases h
  cases hvalid : bundle.validateAndApply hash s.state stateDomain with
  | error error =>
    rintro (h | h) <;> cases h
  | ok applied =>
    have hv := CommitBundle.validateAndApply_ok hvalid
    simp only [Except.mapError, ok_bind]
    cases hbundle : binarySearch Prod.fst bundle.candidateId s.bundles with
    | ok i => rintro (h | h) <;> cases h
    | error bundleIndex =>
      cases hreceipt : binarySearch Prod.fst bundle.candidateId s.receipts with
      | ok i => rintro (h | h) <;> cases h
      | error receiptIndex =>
        cases hsearch : binarySearch ReplayRecord.replayId replayId s.replay with
        | ok i =>
          rw [(binarySearch_ok hsearch).slot] at hreplay
          cases hreplay
        | error replayIndex =>
          obtain ⟨hnone, hput⟩ := binarySearch_error h.bundles_sorted hbundle
          have hspec := @insertOutbox_spec hash bundle.candidateId _ _ h.outbox_sorted
            bundle.outboxPlan.increasing fun r hr hc => by
              obtain ⟨x, hx, hxc⟩ := h.outbox_candidate hr
              exact absurd (hxc.trans hc) (slot_eq_none.1 hnone x hx)
          cases hinsert : insertOutbox hash bundle.candidateId bundle.outboxPlan.entries s.outbox with
          | error error =>
            rw [hinsert] at hspec
            obtain ⟨e, rfl⟩ := hspec
            exact not_broken_encode e
          | ok outbox =>
            rw [hinsert] at hspec
            refine h.commit hdomain hv hreplay hnone hspec.1 hspec.2 ?_
            rw [hput, (binarySearch_error h.receipts_sorted hreceipt).2,
              (binarySearch_error h.replay_sorted hsearch).2]

theorem applyReferenceBundle_spec (hdomain : stateDomain ∈ domains)
    (replayId : Hash32) (bundle : CommitBundle) :
    match applyReferenceBundle hash stateDomain s replayId bundle with
    | .error error => ¬ error.Broken
    | .ok result => s.Keeps hash domains result.state ∧ result.state.Committed replayId bundle := by
  unfold applyReferenceBundle
  cases hsearch : binarySearch ReplayRecord.replayId replayId s.replay with
  | error i => exact commitBundle_spec h hdomain (binarySearch_error h.replay_sorted hsearch).1
  | ok i =>
    have hrecord : s.replay[i] ∈ s.replay := List.getElem_mem _
    have hkey : s.replay[i].replayId = replayId := slot_key (binarySearch_ok hsearch).slot
    simp only
    split_ifs with hcandidate
    · rintro (h | h) <;> cases h
    rw [not_not] at hcandidate
    cases hbundle : binarySearch Prod.fst s.replay[i].candidateId s.bundles with
    | error j =>
      have hin := h.bound.mem_iff.1 (List.mem_map_of_mem hrecord)
      obtain ⟨x, hx, hxc⟩ := List.mem_map.1 hin
      exact absurd hxc (slot_eq_none.1 (binarySearch_error h.bundles_sorted hbundle).1 x hx)
    | ok j =>
      have hfst : s.bundles[j].1 = bundle.candidateId :=
        (slot_key (binarySearch_ok hbundle).slot).trans hcandidate
      simp only
      split_ifs with hsame
      · rintro (h | h) <;> cases h
      rw [not_not] at hsame
      refine ⟨h.keeps, ?_, ?_⟩
      · rw [← hkey, ← hcandidate]
        exact hrecord
      · have hmem : s.bundles[j] ∈ s.bundles := List.getElem_mem _
        rwa [show s.bundles[j] = (bundle.candidateId, bundle) from Prod.ext hfst hsame] at hmem

theorem applyReferenceBundle_committed (hc : s.Committed replayId bundle) :
    applyReferenceBundle hash stateDomain s replayId bundle = .ok ⟨s, .idempotentReplay⟩ := by
  have hreplay := (slot_eq_some h.replay_sorted).2 ⟨hc.replay, rfl⟩
  have hbundle := (slot_eq_some h.bundles_sorted).2 ⟨hc.bundle, rfl⟩
  simp only at hreplay hbundle
  unfold applyReferenceBundle
  cases hsearch : binarySearch ReplayRecord.replayId replayId s.replay with
  | error i =>
    rw [(binarySearch_error h.replay_sorted hsearch).1] at hreplay
    cases hreplay
  | ok i =>
    rw [(binarySearch_ok hsearch).slot, Option.some.injEq] at hreplay
    simp only [hreplay, ne_eq, not_true_eq_false, if_false]
    cases hsearch' : binarySearch Prod.fst bundle.candidateId s.bundles with
    | error j =>
      rw [(binarySearch_error h.bundles_sorted hsearch').1] at hbundle
      cases hbundle
    | ok j =>
      rw [(binarySearch_ok hsearch').slot, Option.some.injEq] at hbundle
      simp only [hbundle, not_true_eq_false, if_false]

omit h in
theorem map_set_of_eq {α β : Type} {f : α → β} {l : List α} {i : ℕ} (hi : i < l.length) {x : α} (hx : f x = f l[i]) :
    (l.set i x).map f = l.map f := by
  rw [List.map_set, hx, ← List.getElem_map f (h := by simpa using hi), List.set_getElem_self]

theorem acknowledge_spec (deliveryId observed : Hash32) :
    match acknowledge s deliveryId observed with
    | .error error => ¬ error.Broken
    | .ok s' => s.Keeps hash domains s' := by
  unfold acknowledge
  split
  · rename_i error herror
    split at herror
    · cases herror
      rintro (h | h) <;> cases h
    · simp only at herror
      split_ifs at herror
      cases herror
      rintro (h | h) <;> cases h
  · rename_i s' hs'
    split at hs'
    · cases hs'
    · rename_i index hindex
      have hi : index < s.outbox.length := (List.findIdx?_eq_some_iff_getElem.1 hindex).1
      simp only at hs'
      split_ifs at hs' with hne hdone
      · cases hs'
        exact h.keeps
      · cases hs'
        have hplace := map_set_of_eq (f := OutboxRecord.place) hi
          (x := { s.outbox[index] with acknowledged := true }) rfl
        have hobligation := map_set_of_eq (f := OutboxRecord.obligation) hi
          (x := { s.outbox[index] with acknowledged := true }) rfl
        refine ⟨{ h with outbox_sorted := ?_, outbox := ?_ }, ⟨List.Subset.refl _, List.Subset.refl _, ?_⟩⟩
        · have hsorted := List.pairwise_map.2 h.outbox_sorted
          rw [← hplace] at hsorted
          exact List.pairwise_map.1 hsorted
        · intro r
          simp only [hobligation]
          exact h.outbox r
        · intro r hr
          obtain ⟨j, hj, rfl⟩ := List.getElem_of_mem hr
          by_cases hij : index = j
          · subst hij
            exact ⟨_, List.mem_set hi _, rfl, fun _ => rfl⟩
          · refine ⟨s.outbox[j], ?_, rfl, id⟩
            refine List.mem_iff_getElem.2 ⟨j, by simpa using hj, ?_⟩
            exact List.getElem_set_ne hij _

end

/-! ## Histories -/

inductive ShellCall where
  | apply (stateDomain : Domain) (replayId : Hash32) (bundle : CommitBundle)
  | acknowledge (deliveryId observedEntryHash : Hash32)

/-- what a call returns: the state it hands back, or its error -/
def ShellCall.perform (hash : Bytes → Hash32) (s : ShellState) : ShellCall → Except ShellError ShellState
  | .apply stateDomain replayId bundle => return (← applyReferenceBundle hash stateDomain s replayId bundle).state
  | .acknowledge deliveryId observed => ZenoFcis.acknowledge s deliveryId observed

/-- the caller's state after a call: a refused call leaves it -/
def ShellCall.after (hash : Bytes → Hash32) (s : ShellState) (call : ShellCall) : ShellState :=
  match call.perform hash s with
  | .ok s' => s'
  | .error _ => s

/-- the caller's state after a history -/
def runShell (hash : Bytes → Hash32) (s : ShellState) (calls : List ShellCall) : ShellState :=
  calls.foldl (ShellCall.after hash) s

/-- the domain a call commits the state under -/
def ShellCall.domain : ShellCall → Option Domain
  | .apply stateDomain _ _ => some stateDomain
  | .acknowledge _ _ => none

/-- the domains of a history that starts under `stateDomain` -/
def usedDomains (stateDomain : Domain) (calls : List ShellCall) : Set Domain :=
  fun d => d = stateDomain ∨ ∃ call ∈ calls, call.domain = some d

theorem call_spec (h : s.Consistent hash domains) (call : ShellCall)
    (hdomain : ∀ d, call.domain = some d → d ∈ domains) :
    match call.perform hash s with
    | .error error => ¬ error.Broken
    | .ok s' => s.Keeps hash domains s' := by
  cases call with
  | acknowledge deliveryId observed => exact acknowledge_spec h deliveryId observed
  | apply stateDomain replayId bundle =>
    have hspec := applyReferenceBundle_spec h (hdomain stateDomain rfl) replayId bundle
    simp only [ShellCall.perform]
    cases hresult : applyReferenceBundle hash stateDomain s replayId bundle with
    | error error =>
      rw [hresult] at hspec
      exact hspec
    | ok result =>
      rw [hresult] at hspec
      exact hspec.1

theorem after_keeps (h : s.Consistent hash domains) (call : ShellCall)
    (hdomain : ∀ d, call.domain = some d → d ∈ domains) : s.Keeps hash domains (call.after hash s) := by
  have hspec := call_spec h call hdomain
  unfold ShellCall.after
  cases hresult : call.perform hash s with
  | error error => exact h.keeps
  | ok s' =>
    rw [hresult] at hspec
    exact hspec

theorem runShell_keeps (h : s.Consistent hash domains) (calls : List ShellCall)
    (hdomains : ∀ call ∈ calls, ∀ d, call.domain = some d → d ∈ domains) :
    s.Keeps hash domains (runShell hash s calls) := by
  induction calls generalizing s with
  | nil => exact h.keeps
  | cons call calls ih =>
    have hstep := after_keeps h call (hdomains call List.mem_cons_self)
    have hrest := ih hstep.consistent fun c hc => hdomains c (List.mem_cons_of_mem _ hc)
    exact ⟨hrest.consistent, hstep.since.trans hrest.since⟩

theorem new_consistent {state : Value} (h : ShellState.new hash stateDomain state = .ok s)
    (hdomain : stateDomain ∈ domains) : s.Consistent hash domains := by
  simp only [ShellState.new, bind_eq_ok] at h
  obtain ⟨root, hroot, hs⟩ := h
  cases hs
  exact ⟨⟨_, hdomain, mapError_eq_ok.1 hroot⟩, .nil, .nil, .nil, by simp, rfl, .refl _, by simp⟩

theorem ShellState.Consistent.bound_once (h : s.Consistent hash domains)
    (hc : c ∈ s.bundles.map Prod.fst) :
    (s.replay.map ReplayRecord.candidateId).count c = 1 ∧ (s.bundles.map Prod.fst).count c = 1 ∧
      (s.receipts.map Prod.fst).count c = 1 := by
  have hnodup : (s.bundles.map Prod.fst).Nodup :=
    List.pairwise_map.2 (h.bundles_sorted.imp fun hlt => hlt.ne)
  have hone := List.count_eq_one_of_mem hnodup hc
  refine ⟨(h.bound.count_eq c).trans hone, hone, ?_⟩
  rw [h.receipts, List.map_map]
  exact hone

/-- **The shell over whole histories.** After any calls the root commits to the state, the indexes are sorted, in
bijection, and hold exactly the deliveries of the committed bundles. From there on a refused call names no corruption
and leaves the state, an acknowledgement stays, and a bundle that was accepted once is recognised for ever. -/
theorem shell_history {state : Value} {s₀ : ShellState} (hnew : ShellState.new hash stateDomain state = .ok s₀)
    (calls : List ShellCall) :
    let s := runShell hash s₀ calls
    (s.Consistent hash (usedDomains stateDomain calls) ∧ Increasing Prod.fst s.receipts ∧
      ∀ c ∈ s.bundles.map Prod.fst, (s.replay.map ReplayRecord.candidateId).count c = 1 ∧
        (s.bundles.map Prod.fst).count c = 1 ∧ (s.receipts.map Prod.fst).count c = 1) ∧
    (∀ call error, ShellCall.perform hash s call = .error error → ¬ error.Broken ∧ call.after hash s = s) ∧
    (∀ r ∈ s.outbox, r.acknowledged = true → ∀ later, ∃ r' ∈ (runShell hash s later).outbox,
      r'.obligation = r.obligation ∧ r'.acknowledged = true) ∧
    ∀ domain replayId bundle result, applyReferenceBundle hash domain s replayId bundle = .ok result →
      ∀ later domain', let t := runShell hash result.state later
        applyReferenceBundle hash domain' t replayId bundle = .ok ⟨t, .idempotentReplay⟩ := by
  intro s
  have hs : s.Consistent hash (usedDomains stateDomain calls) :=
    (runShell_keeps (new_consistent hnew (.inl rfl)) calls fun call hcall d hd => .inr ⟨call, hcall, hd⟩).consistent
  have hany : s.Consistent hash Set.univ := { hs with root := hs.root.imp fun _ h => ⟨trivial, h.2⟩ }
  refine ⟨⟨hs, hs.receipts_sorted, fun c hc => hs.bound_once hc⟩, ?_, ?_, ?_⟩
  · intro call error herror
    have hspec := call_spec hany call fun _ _ => trivial
    rw [herror] at hspec
    refine ⟨hspec, ?_⟩
    simp only [ShellCall.after, herror]
  · intro r hr hacknowledged later
    obtain ⟨r', hr', hsame, hkeep⟩ := (runShell_keeps hany later fun _ _ _ _ => trivial).since.outbox r hr
    exact ⟨r', hr', hsame, hkeep hacknowledged⟩
  · intro domain replayId bundle result hresult later domain' t
    have hspec := applyReferenceBundle_spec hany (Set.mem_univ domain) replayId bundle
    rw [hresult] at hspec
    have hlater := runShell_keeps hspec.1.consistent later fun _ _ _ _ => trivial
    refine applyReferenceBundle_committed hlater.consistent ⟨?_, ?_⟩
    · exact hlater.since.replay hspec.2.replay
    · exact hlater.since.bundles hspec.2.bundle

/-- a provider that keeps nothing apart -/
def flatHash : Bytes → Hash32 := fun _ => .zero

/-- a shell over the unit value -/
def unitShell : ShellState := ⟨.unit, .zero, [], [], [], []⟩

/-- one delivery of a unit to a unit -/
def unitEntry : OutboxEntry := ⟨3, 5, .unit, .unit⟩

/-- a sealed bundle that keeps the state and owes one delivery -/
def unitBundle : CommitBundle :=
  let body : CandidateBody :=
    ⟨.accept, none, ⟨.zero, .zero, .zero, .zero, .zero, .zero⟩, .zero, .zero, .zero, .zero, .zero⟩
  ⟨⟨.zero⟩, body, ⟨7, .zero, []⟩, .empty, ⟨[unitEntry], List.pairwise_singleton _ _⟩, ⟨⟨.zero⟩, body⟩⟩

/-- the shell after that bundle -/
def unitCommitted : ShellState :=
  ⟨.unit, .zero, [⟨.zero, ⟨.zero⟩⟩], [(⟨.zero⟩, unitBundle.receipt)], [(⟨.zero⟩, unitBundle)],
    [⟨⟨.zero⟩, 3, .zero, .zero, unitEntry, false⟩]⟩

theorem shell_history_unit :
    let t := runShell flatHash unitCommitted [.acknowledge .zero .zero]
    applyReferenceBundle flatHash .value t .zero unitBundle = .ok ⟨t, .idempotentReplay⟩ := by
  have hnew : ShellState.new flatHash .value .unit = .ok unitShell := rfl
  have hcommit : applyReferenceBundle flatHash .value unitShell .zero unitBundle = .ok ⟨unitCommitted, .committed⟩ := by
    decide +kernel
  exact (shell_history hnew []).2.2.2 .value .zero unitBundle ⟨unitCommitted, .committed⟩ hcommit
    [.acknowledge .zero .zero] .value

end ZenoFcis
