/-
What an issuance and an offset do to a valid pool. Each step of an offset has one rule that gives its outcome for every
input: the sums advance exactly (`accumulator_ok`, `result_raise`), the loss of a unit never exceeds `Q`
(`unitLoss_le`), and the tables keep their shape (`shrink_spec`). Results:
- `issue_ok`, `Issued`: an issuance the stock has succeeds; the sum of rewards can not overflow (`Sound`);
- `offset_outcome`: the outcome of an offset in terms of the pool before it.
-/
import ZenoFcis.Zusd.StabilityState

namespace ZenoFcis.Zusd.Stability

open Lib Lib.Except
open Lib.Metered (result_bind result_lift result_okOr_some result_pure)

variable {n m : ℕ} {total debt p factor : U128} {s s' : State} {delta : Option U128} {b : Bounds}

/-- an accumulator is read back from its value -/
theorem accumulatorOf_eq_ok {a : Accumulator256} : Wide.accumulatorOf n = .ok a ↔ a.val = n := by
  unfold Wide.accumulatorOf
  by_cases h : n < 2 ^ 256
  · rw [dif_pos h, Except.ok.injEq]
    have hval : (⟨⟨n / 2 ^ 128, by omega⟩, ⟨n % 2 ^ 128, Nat.mod_lt _ (by decide)⟩⟩ : Accumulator256).val = n :=
      Nat.mod_add_div n (2 ^ 128)
    constructor
    · intro ha
      rw [← ha, hval]
    · intro ha
      exact Accumulator256.val_inj (hval.trans ha.symm)
  · rw [dif_neg h]
    refine iff_of_false (by rintro ⟨⟩) (fun ha => h ?_)
    rw [← ha]
    exact a.val_lt

theorem accumulatorOf_ok (h : n < 2 ^ 256) : ∃ a, Wide.accumulatorOf n = .ok a ∧ a.val = n :=
  ⟨_, dif_pos h, Nat.mod_add_div n (2 ^ 128)⟩

theorem accumulatorOf_large (h : 2 ^ 256 ≤ n) : Wide.accumulatorOf n = .error .arithmetic :=
  dif_neg (not_lt.2 h)

/-! ## Sums with feedback -/

theorem amount_mul_lt (amount : U128) : amount.val * Q.val < 2 ^ 188 :=
  (Nat.mul_lt_mul'' amount.fits (by decide : Q.val < 2 ^ 60)).trans_eq (by decide)

theorem wide_sum (hm : m < 2 ^ 188) (hn : n < 2 ^ 256) : m + n < Wide.bound :=
  (Nat.add_lt_add hm hn).trans_le (by decide)

theorem small_sum (hm : m < 2 ^ 188) (hn : n < 2 ^ 128) : m + n < 2 ^ 256 := by
  omega

theorem accumulator_eq (amount : U128) (error : Accumulator256) (ht : 0 < total.val) :
    (accumulator amount error total).result = (do
      let q ← Wide.accumulatorOf ((amount.val * Q.val + error.val) / total.val)
      let r ← Wide.accumulatorOf ((amount.val * Q.val + error.val) % total.val)
      return (q, r)) := by
  have hproduct : amount.val * Q.val < Wide.bound := product_lt (amount.fits.trans (by decide)) Q.fits
  have hn := wide_sum (amount_mul_lt amount) error.val_lt
  simp only [accumulator, result_bind, Wide.result_mul, Wide.val_ofU128, result_pure,
    result_lift]
  rw [Wide.exact, if_pos hproduct, ok_bind, Wide.result_add, Wide.val_ofNat hproduct, Wide.val_ofAccumulator,
    Wide.exact, if_pos hn, ok_bind, Wide.result_quotientWide, Wide.val_ofU128, if_neg (Nat.ne_of_gt ht), ok_bind,
    Wide.accumulator_eq, Wide.accumulator_eq, Wide.val_ofNat hn,
    Wide.val_ofNat ((Nat.div_le_self _ _).trans_lt hn), Wide.val_ofNat ((Nat.mod_le _ _).trans_lt hn)]
  rfl

theorem accumulator_ok (amount : U128) {error : Accumulator256} (ht : 0 < total.val)
    (he : error.val < 2 ^ 128) : ∃ q r, (accumulator amount error total).result = .ok (q, r) ∧
      q.val = (amount.val * Q.val + error.val) / total.val ∧ r.val = (amount.val * Q.val + error.val) % total.val ∧
      r.val < 2 ^ 128 := by
  have hn := small_sum (amount_mul_lt amount) he
  obtain ⟨q, hq, hqval⟩ := accumulatorOf_ok ((Nat.div_le_self _ total.val).trans_lt hn)
  obtain ⟨r, hr, hrval⟩ := accumulatorOf_ok ((Nat.mod_le _ total.val).trans_lt hn)
  refine ⟨q, r, ?_, hqval, hrval, ?_⟩
  · rw [accumulator_eq amount error ht, hq, ok_bind, hr, ok_bind]
    rfl
  · rw [hrval]
    exact (Nat.mod_lt _ ht).trans total.fits

theorem result_raise (sums gain : Accumulator256) (p : U128) : (raise sums gain p).result =
    Wide.accumulatorOf (sums.val + gain.val * p.val) := by
  have hgain := gain.val_lt
  have hproduct : gain.val * p.val < Wide.bound := product_lt hgain p.fits
  simp only [raise, result_bind, Wide.result_mul, Wide.val_ofAccumulator, result_lift,
    Accumulator256.result_add]
  rw [Wide.exact, if_pos hproduct, ok_bind, Wide.accumulator_eq, Wide.val_ofNat hproduct]
  by_cases hlarge : 2 ^ 256 ≤ gain.val * p.val
  · rw [accumulatorOf_large hlarge, accumulatorOf_large (hlarge.trans (Nat.le_add_left _ _))]
    rfl
  · obtain ⟨x, hx, hval⟩ := accumulatorOf_ok (not_le.1 hlarge)
    rw [hx, ok_bind, hval]

/-! ## Issuance -/

/-- the errors are remainders, and the rewards of the current cell are covered by what was allocated -/
structure Sound (s : State) : Prop where
  errorS_lt : s.errorS.val < 2 ^ 128
  errorG_lt : s.errorG.val < 2 ^ 128
  rewards : (lastCell s).g.val + Q.val * s.errorG.val ≤ Q.val * Q.val * s.stock.allocated.val

/-- what an issuance leaves as it was -/
structure Issued (s s' : State) : Prop where
  total_eq : s'.total = s.total
  p_eq : s'.p = s.p
  epoch_eq : s'.epoch = s.epoch
  scale_eq : s'.scale = s.scale
  errorS_eq : s'.errorS = s.errorS
  errorLoss_eq : s'.errorLoss = s.errorLoss
  collateral_eq : s'.collateral = s.collateral
  epochs_eq : s'.epochs = s.epochs
  keys_eq : s'.history.map Cell.key = s.history.map Cell.key
  sums_eq : s'.history.map Cell.s = s.history.map Cell.s
  funded : Funded s.stock → Funded s'.stock
  sound : s.p.val ≤ Q.val → Sound s → Sound s'

theorem Issued.length_eq (h : Issued s s') : s'.history.length = s.history.length := by
  have hkeys := congrArg List.length h.keys_eq
  rwa [List.length_map, List.length_map] at hkeys

theorem lastCell_append (s : State) (l : List Cell) (c : Cell) (h : s.history = l ++ [c]) : lastCell s = c := by
  rw [lastCell, h, List.getLast?_append]
  rfl

theorem Issued.lastCell_s (h : Issued s s') : (lastCell s').s = (lastCell s).s := by
  have hlast := congrArg List.getLast? h.sums_eq
  rw [List.getLast?_map, List.getLast?_map] at hlast
  unfold lastCell
  rcases hs : s.history.getLast? with - | c
  · rcases hs' : s'.history.getLast? with - | c'
    · rfl
    · rw [hs, hs'] at hlast
      exact nomatch hlast
  · rcases hs' : s'.history.getLast? with - | c'
    · rw [hs, hs'] at hlast
      exact nomatch hlast
    · rw [hs, hs'] at hlast
      exact Option.some.inj hlast

theorem map_replaceLast {α β : Type} {f : α → β} {l : List α} {a a' : α} (h : l.getLast? = some a) (hf : f a' = f a) :
    (l.dropLast ++ [a']).map f = l.map f := by
  have hl : l.dropLast ++ [a] = l := List.dropLast_append_getLast? a h
  conv_rhs => rw [← hl]
  rw [List.map_append, List.map_append, List.map_singleton, List.map_singleton, hf]

/-- an issuance the schedule supplies and the stock has -/
def Available (s : State) (delta : Option U128) : Prop := ∃ amount, delta = some amount ∧ amount ≤ s.stock.remaining

theorem rewards_step {g error amount allocated total p q r : ℕ} (hg : g + Q.val * error ≤ Q.val * Q.val * allocated)
    (ht : 0 < total) (hp : p ≤ Q.val) (hq : q = (amount * Q.val + error) / total)
    (hr : r = (amount * Q.val + error) % total) :
    g + q * p + Q.val * r ≤ Q.val * Q.val * (allocated + amount) := by
  have hsplit : total * q + r = amount * Q.val + error := by
    rw [hq, hr]
    exact Nat.div_add_mod _ _
  have hone : q ≤ total * q := Nat.le_mul_of_pos_left q ht
  have hqp : q * p ≤ (total * q) * Q.val := Nat.mul_le_mul hone hp
  calc g + q * p + Q.val * r ≤ g + (total * q) * Q.val + Q.val * r := by omega
    _ = g + Q.val * (total * q + r) := by ring
    _ = g + Q.val * error + Q.val * Q.val * amount := by
      rw [hsplit]
      ring
    _ ≤ Q.val * Q.val * allocated + Q.val * Q.val * amount := Nat.add_le_add_right hg _
    _ = _ := by ring

/-- what an issue does -/
theorem issue_issued (h : (issue s delta).result = .ok s') : Issued s s' := by
  simp only [issue, result_bind, result_failIf, bind_eq_ok, Metered.result_okOr_eq_ok, ensure_eq_ok,
    exists_and_left, exists_const, not_lt] at h
  obtain ⟨amount, hdelta, havailable, remaining, hremaining, scheduled, hscheduled, h⟩ := h
  rw [result_sub, if_pos havailable] at hremaining
  rw [result_add] at hscheduled
  have hle := Unsigned.le_def.1 havailable
  split_ifs at hscheduled with hfits
  have hrem : remaining.val = s.stock.remaining.val - amount.val := by rw [← Except.ok.inj hremaining]; rfl
  have hsch : scheduled.val = s.stock.scheduled.val + amount.val := by rw [← Except.ok.inj hscheduled]
  by_cases htotal : s.total = .zero
  · rw [if_pos htotal] at h
    simp only [result_bind, bind_eq_ok, result_pure, result_add] at h
    obtain ⟨missed, hmissed, h⟩ := h
    split_ifs at hmissed with hfits'
    have hmis : missed.val = s.stock.missed.val + amount.val := by rw [← Except.ok.inj hmissed]
    cases h
    refine ⟨rfl, rfl, rfl, rfl, rfl, rfl, rfl, rfl, rfl, rfl, ?_, ?_⟩
    · intro hf
      have h1 := hf.scheduled_eq
      have h2 := hf.funded
      exact ⟨by simp only; omega, by simp only; omega, hf.paid_le⟩
    · intro _ hs
      exact ⟨hs.errorS_lt, hs.errorG_lt, hs.rewards⟩
  · rw [if_neg htotal] at h
    have hpos : 0 < s.total.val := Nat.pos_of_ne_zero fun h0 => htotal (Unsigned.ext h0)
    by_cases hamount : Unsigned.zero < amount
    · rw [if_pos hamount] at h
      simp only [result_bind, bind_eq_ok, result_pure, result_add,
        Metered.result_okOr_eq_ok] at h
      obtain ⟨allocated, hallocated, part, hacc, last, hlast, sums, hsums, h⟩ := h
      split_ifs at hallocated with hfits'
      have hall : allocated.val = s.stock.allocated.val + amount.val := by rw [← Except.ok.inj hallocated]
      rw [result_raise, accumulatorOf_eq_ok] at hsums
      cases h
      refine ⟨rfl, rfl, rfl, rfl, rfl, rfl, rfl, rfl, map_replaceLast hlast rfl, map_replaceLast hlast rfl, ?_, ?_⟩
      · intro hf
        have h1 := hf.scheduled_eq
        have h2 := hf.funded
        have h3 := hf.paid_le
        exact ⟨by simp only; omega, by simp only; omega, by simp only; omega⟩
      · intro hp hs
        obtain ⟨q, r, hqr, hq, hr, hsmall⟩ := accumulator_ok amount hpos hs.errorG_lt
        rw [hqr] at hacc
        cases hacc
        have hold := hs.rewards
        have hg : (lastCell s).g = last.g := by rw [lastCell, hlast]; rfl
        rw [hg] at hold
        have hnew := rewards_step hold hpos hp hq hr
        have hsums' : sums.val = last.g.val + q.val * s.p.val := hsums
        rw [← hsums', ← hall] at hnew
        refine ⟨hs.errorS_lt, hsmall, ?_⟩
        have hlast' := lastCell_append
          { s with
            stock := { s.stock with remaining, scheduled, allocated }, errorG := r,
            history := s.history.dropLast ++ [{ last with g := sums }] } _ _ rfl
        rw [hlast']
        exact hnew
    · rw [if_neg hamount] at h
      cases h
      have hzero : amount.val = 0 := Nat.eq_zero_of_not_pos hamount
      refine ⟨rfl, rfl, rfl, rfl, rfl, rfl, rfl, rfl, rfl, rfl, ?_, ?_⟩
      · intro hf
        have h1 := hf.scheduled_eq
        have h2 := hf.funded
        exact ⟨by simp only; omega, by simp only; omega, hf.paid_le⟩
      · intro _ hs
        exact ⟨hs.errorS_lt, hs.errorG_lt, hs.rewards⟩

theorem Shape.history_pos (h : Shape s b) : 0 < s.history.length := by
  have hscale := h.scale_eq
  have hnumbered := h.numbered
  cases hepochs : s.epochs with
  | nil =>
    rw [hepochs] at hscale
    exact nomatch hscale
  | cons r rest =>
    rw [hepochs] at hnumbered
    exact (Nat.zero_le _).trans_lt hnumbered.1.2.2

theorem Shape.last_cell (h : Shape s b) : s.history.getLast? = some (lastCell s) := by
  have hne : s.history ≠ [] := List.ne_nil_of_length_pos h.history_pos
  rw [lastCell, List.getLast?_eq_getLast_of_ne_nil hne]
  rfl

theorem Shape.congr (h : Shape s b)
    (hkeys : s'.history.map Cell.key = s.history.map Cell.key) (hepochs : s'.epochs = s.epochs)
    (hepoch : s'.epoch = s.epoch) (hscale : s'.scale = s.scale) : Shape s' b := by
  have hlength := congrArg List.length hkeys
  rw [List.length_map, List.length_map] at hlength
  refine ⟨hlength ▸ h.history_le, hepochs ▸ h.epochs_le, ?_, ?_, ?_, ?_⟩
  · rw [hepochs, hepoch, h.count]
  · rw [hepochs, hepoch, hlength]
    exact h.numbered
  · rw [hkeys, hepochs, h.keys]
  · rw [hepochs, hscale, h.scale_eq]

/-- **No issuance is stuck.** What the stock has can be issued to a pool that is not empty. -/
theorem issue_ok (hv : Valid s b) (hs : Sound s)
    (ht : 0 < s.total.val) (ha : Available s delta) : ∃ s', (issue s delta).result = .ok s' := by
  obtain ⟨amount, rfl, hle⟩ := ha
  have hfund := hv.funded.funded
  have hsplit := hv.funded.scheduled_eq
  have hcap : FUNDED_CAP.val < 2 ^ 86 := by decide
  have hle' := Unsigned.le_def.1 hle
  have hscheduled : s.stock.scheduled.val + amount.val < 2 ^ 128 := by omega
  have hallocated : s.stock.allocated.val + amount.val < 2 ^ 128 := by omega
  have htotal : s.total ≠ .zero := fun h => by
    rw [h, Unsigned.val_zero] at ht
    exact lt_irrefl 0 ht
  unfold issue
  rw [result_bind, result_okOr_some, ok_bind, result_bind, result_failIf,
    ensure_bind (not_lt.2 hle), result_bind, result_sub, if_pos hle, ok_bind, result_bind, result_add,
    dif_pos hscheduled, ok_bind, if_neg htotal]
  by_cases hamount : Unsigned.zero < amount
  · obtain ⟨q, r, hqr, hq, hr, hsmall⟩ := accumulator_ok amount ht hs.errorG_lt
    have hroom := rewards_step hs.rewards ht hv.p_le hq hr
    have hfits : (lastCell s).g.val + q.val * s.p.val < 2 ^ 256 := by
      have hbound : Q.val * Q.val * (s.stock.allocated.val + amount.val) ≤ Q.val * Q.val * 2 ^ 86 :=
        Nat.mul_le_mul_left _ (by omega)
      have hnumber : Q.val * Q.val * 2 ^ 86 < 2 ^ 256 := by decide
      omega
    obtain ⟨sums, hsums, -⟩ := accumulatorOf_ok hfits
    rw [if_pos hamount, result_bind, result_add, dif_pos hallocated, ok_bind, result_bind, hqr, ok_bind,
      result_bind, hv.shape.last_cell, result_okOr_some, ok_bind, result_bind, result_raise,
      hsums, ok_bind]
    exact ⟨_, rfl⟩
  · rw [if_neg hamount]
    exact ⟨_, rfl⟩

theorem issue_unavailable (ha : ¬ Available s delta) :
    (issue s delta).result = .error .unboundProfile ∨ (issue s delta).result = .error .conservation := by
  unfold issue
  cases delta with
  | none =>
    left
    rw [result_bind, Metered.result_okOr_none, error_bind]
  | some amount =>
    right
    have hlt : s.stock.remaining < amount := not_le.1 fun hle => ha ⟨amount, rfl, hle⟩
    rw [result_bind, result_okOr_some, ok_bind, result_bind, result_failIf, ensure,
      if_neg (not_not.2 hlt), error_bind]

/-! ## The loss of a unit -/

/-- the loss of a unit, as a number -/
def unitLoss (s : State) (debt : U128) : ℕ :=
  if debt = s.total then Q.val else (debt.val * Q.val - s.errorLoss.val) / s.total.val + 1

/-- the loss that is fed back to the next offset, as a number -/
def nextLoss (s : State) (debt : U128) : ℕ :=
  if debt = s.total then 0 else unitLoss s debt * s.total.val - (debt.val * Q.val - s.errorLoss.val)

/-- the loss that was fed back does not exceed the loss of this debt -/
def Fed (s : State) (debt : U128) : Prop := debt = s.total ∨ s.errorLoss.val ≤ debt.val * Q.val

theorem floor_lt {total debt error q : ℕ} (hlt : debt < total) (hq : 0 < q) : (debt * q - error) / total < q := by
  refine Nat.div_lt_of_lt_mul ?_
  calc debt * q - error ≤ debt * q := Nat.sub_le _ _
    _ < total * q := Nat.mul_lt_mul_of_pos_right hlt hq

/-- **The loss per unit never exceeds `Q`.** -/
theorem unitLoss_le (hle : debt ≤ s.total) : unitLoss s debt ≤ Q.val := by
  unfold unitLoss
  split_ifs with h
  · exact le_rfl
  · have hlt : debt.val < s.total.val := lt_of_le_of_ne hle fun h' => h (Unsigned.ext h')
    exact floor_lt hlt (by decide)

theorem loss_fed (hle : debt ≤ s.total) (hd : 0 < debt.val) (hfed : Fed s debt) :
    ∃ out, (lossPerUnit s debt).result = .ok out ∧ out.1.val = unitLoss s debt ∧ out.2.val = nextLoss s debt := by
  unfold lossPerUnit nextLoss unitLoss
  by_cases htotal : debt = s.total
  · rw [if_pos htotal, if_pos htotal, if_pos htotal]
    exact ⟨_, rfl, rfl, rfl⟩
  · have hlt : debt.val < s.total.val := lt_of_le_of_ne hle fun h => htotal (Unsigned.ext h)
    have hsub : s.errorLoss.val ≤ debt.val * Q.val := hfed.resolve_left htotal
    have hsmall := @floor_lt s.total.val debt.val s.errorLoss.val Q.val hlt (by decide)
    have hproduct : debt.val * Q.val < Wide.bound := product_lt (debt.fits.trans (by decide)) Q.fits
    have hn : debt.val * Q.val - s.errorLoss.val < Wide.bound := (Nat.sub_le _ _).trans_lt hproduct
    have hpos : s.total.val ≠ 0 := by omega
    set floor := (debt.val * Q.val - s.errorLoss.val) / s.total.val with hfloor
    have hq : Q.val < 2 ^ 60 := by decide
    have hfits : floor < 2 ^ 128 := by omega
    have hsucc : floor + 1 < 2 ^ 128 := by omega
    have hover : (floor + 1) * s.total.val < Wide.bound := product_lt (hsucc.trans (by decide)) s.total.fits
    have hcover : debt.val * Q.val - s.errorLoss.val ≤ (floor + 1) * s.total.val := by
      have hmod := Nat.mod_lt (debt.val * Q.val - s.errorLoss.val) (Nat.pos_of_ne_zero hpos)
      have hdiv := Nat.div_add_mod (debt.val * Q.val - s.errorLoss.val) s.total.val
      rw [← hfloor, mul_comm] at hdiv
      rw [Nat.add_mul, one_mul]
      omega
    have hfed' : (floor + 1) * s.total.val - (debt.val * Q.val - s.errorLoss.val) < 2 ^ 256 := by
      have htop : (floor + 1) * s.total.val < 2 ^ 60 * 2 ^ 128 :=
        Nat.mul_lt_mul_of_le_of_lt (by omega) s.total.fits (by omega)
      omega
    obtain ⟨fed, hfed'', hval⟩ := accumulatorOf_ok hfed'
    have hone : (⟨1, by decide⟩ : U128).val = 1 := rfl
    rw [if_neg htotal, if_neg htotal, if_neg htotal, result_bind, Wide.result_mul, Wide.val_ofU128, Wide.exact,
      if_pos hproduct, ok_bind, result_bind, Wide.result_sub, Wide.val_ofNat hproduct, Wide.val_ofAccumulator,
      if_pos hsub, ok_bind, result_bind, Wide.result_quotient, Wide.val_ofU128, Wide.val_ofNat hn,
      dif_pos ⟨hpos, hfits⟩, ok_bind, result_bind, result_add, dif_pos hsucc, ok_bind, result_bind,
      Wide.result_mul, Wide.val_ofU128, Wide.exact, if_pos hover, ok_bind, result_bind, Wide.result_sub,
      Wide.val_ofNat hover, Wide.val_ofNat hn, if_pos hcover, ok_bind, result_bind, result_lift,
      Wide.accumulator_eq, Wide.val_ofNat ((Nat.sub_le _ _).trans_lt hover), hfed'', ok_bind]
    exact ⟨_, rfl, rfl, hval⟩

theorem loss_starved (hfed : ¬ Fed s debt) :
    (lossPerUnit s debt).result = .error .arithmetic := by
  have htotal : debt ≠ s.total := fun h => hfed (Or.inl h)
  have hsub : ¬ s.errorLoss.val ≤ debt.val * Q.val := fun h => hfed (Or.inr h)
  have hproduct : debt.val * Q.val < Wide.bound := product_lt (debt.fits.trans (by decide)) Q.fits
  unfold lossPerUnit
  rw [if_neg htotal, result_bind, Wide.result_mul, Wide.val_ofU128, Wide.exact, if_pos hproduct, ok_bind,
    result_bind, Wide.result_sub, Wide.val_ofNat hproduct, Wide.val_ofAccumulator, if_neg hsub, error_bind]

/-! ## The product -/

/-- the step needs a new epoch or a new scale, and the tables have no place for it -/
def Full (s : State) (b : Bounds) (factor : ℕ) : Prop :=
  if factor = 0 then b.epochs.val ≤ s.epochs.length ∨ b.history.val ≤ s.history.length
  else s.p.val * factor / Q.val < SCALE.val ∧ b.history.val ≤ s.history.length

/-- the product after a loss, as a number -/
def nextP (s : State) (factor : ℕ) : ℕ :=
  if factor = 0 then Q.val
  else if s.p.val * factor / Q.val < SCALE.val then s.p.val * factor * SCALE.val / Q.val
  else s.p.val * factor / Q.val

theorem nextP_le {factor : ℕ} (hp : s.p.val ≤ Q.val) (hf : factor ≤ Q.val) : nextP s factor ≤ Q.val := by
  have hq : 0 < Q.val := by decide
  unfold nextP
  split_ifs with h1 h2
  · exact le_rfl
  · have hlt : s.p.val * factor < Q.val * SCALE.val := by
      rw [mul_comm Q.val]
      exact (Nat.div_lt_iff_lt_mul hq).1 h2
    have hscale : SCALE.val * SCALE.val = Q.val := by decide
    refine Nat.div_le_of_le_mul ?_
    calc s.p.val * factor * SCALE.val ≤ Q.val * SCALE.val * SCALE.val := Nat.mul_le_mul_right _ hlt.le
      _ = Q.val * Q.val := by rw [Nat.mul_assoc, hscale]
  · refine Nat.div_le_of_le_mul ?_
    calc s.p.val * factor ≤ Q.val * Q.val := Nat.mul_le_mul hp hf

/-- what the product step leaves as it was -/
structure Shrunk (s s' : State) (b : Bounds) (factor : ℕ) : Prop where
  p_eq : s'.p.val = nextP s factor
  shape : Shape s' b
  total_eq : s'.total = s.total
  collateral_eq : s'.collateral = s.collateral
  stock_eq : s'.stock = s.stock
  errorS_eq : s'.errorS = s.errorS
  errorG_eq : s'.errorG = s.errorG
  errorLoss_eq : s'.errorLoss = s.errorLoss
  rewards_le : (lastCell s').g.val ≤ (lastCell s).g.val

theorem Shape.epochs_append (h : Shape s b) :
    ∃ l r, s.epochs = l ++ [r] ∧ r.lastScale = s.scale ∧ r.epoch = s.epoch ∧ l.length = s.epoch.val := by
  have hscale := h.scale_eq
  have hcount := h.count
  have hnumbered := h.numbered
  rcases List.eq_nil_or_concat' s.epochs with hnil | ⟨l, r, hl⟩
  · rw [hnil] at hscale
    exact nomatch hscale
  · rw [hl, List.getLast?_append] at hscale
    rw [hl, List.length_append, List.length_singleton] at hcount
    rw [hl, numbered_append, Nat.zero_add] at hnumbered
    have hlength : l.length = s.epoch.val := by omega
    exact ⟨l, r, hl, Option.some.inj hscale, Unsigned.ext (hnumbered.2.1.1.trans hlength), hlength⟩

theorem length_append_one {α : Type} (l : List α) (a : α) : (l ++ [a]).length = l.length + 1 := by
  rw [List.length_append, List.length_singleton]

theorem Shape.seal (h : Shape s b) {epoch : U64} (hepoch : epoch.val = s.epoch.val + 1)
    {r : Epoch} (hr : s.epochs.getLast? = some r) (hepochs : s.epochs.length < b.epochs.val)
    (hhistory : s.history.length < b.history.val) :
    Shape { s with
      epoch, scale := .zero, p,
      epochs := s.epochs.dropLast ++ [{ r with isSealed := true }, ⟨epoch, .zero, false⟩],
      history := s.history ++ [emptyCell epoch .zero] } b := by
  obtain ⟨l, r', hl, hscale, hrepoch, hlength⟩ := h.epochs_append
  have hrr : r' = r := by
    rw [hl, List.getLast?_append] at hr
    exact Option.some.inj hr
  subst hrr
  have hdrop : s.epochs.dropLast = l := by rw [hl, List.dropLast_concat]
  have hnumbered := h.numbered
  have hkeys := h.keys
  rw [hl, numbered_append, Nat.zero_add] at hnumbered
  rw [hl, List.flatMap_append, List.flatMap_singleton] at hkeys
  have hle : s.epoch ≤ epoch := Unsigned.le_def.2 (by omega)
  refine ⟨?_, ?_, ?_, ?_, ?_, ?_⟩
  · rw [length_append_one]
    exact hhistory
  · rw [hdrop, List.length_append]
    rw [hl, length_append_one] at hepochs
    exact hepochs
  · rw [hdrop, List.length_append, hlength, hepoch]
    rfl
  · rw [hdrop, numbered_append, Nat.zero_add]
    refine ⟨hnumbered.1.mono hle ?_ (by omega), ⟨?_, ?_, ?_⟩, ⟨?_, ?_, ?_⟩, trivial⟩
    · rw [length_append_one]
      exact Nat.le_succ _
    · exact hnumbered.2.1.1
    · have hlt : r'.epoch < epoch := Unsigned.lt_def.2 (by rw [hrepoch]; omega)
      exact (decide_eq_true hlt).symm
    · rw [length_append_one]
      exact hnumbered.2.1.2.2.trans (Nat.lt_succ_self _)
    · change epoch.val = _
      omega
    · exact (decide_eq_false (lt_irrefl epoch)).symm
    · rw [length_append_one]
      exact Nat.succ_pos _
  · rw [List.map_append, hkeys, hdrop, List.flatMap_append, List.append_assoc]
    rfl
  · rw [hdrop, List.getLast?_append]
    rfl

theorem Shape.rescale (h : Shape s b) {scale : U64} (hscale : scale.val = s.scale.val + 1)
    {r : Epoch} (hr : s.epochs.getLast? = some r) (hhistory : s.history.length < b.history.val) :
    Shape { s with
      p, scale,
      epochs := s.epochs.dropLast ++ [{ r with lastScale := scale }],
      history := s.history ++ [emptyCell s.epoch scale] } b := by
  obtain ⟨l, r', hl, hlast, hrepoch, hlength⟩ := h.epochs_append
  have hrr : r' = r := by
    rw [hl, List.getLast?_append] at hr
    exact Option.some.inj hr
  subst hrr
  have hdrop : s.epochs.dropLast = l := by rw [hl, List.dropLast_concat]
  have hnumbered := h.numbered
  have hkeys := h.keys
  have hcount := h.count
  have hepochs := h.epochs_le
  rw [hl, numbered_append, Nat.zero_add] at hnumbered
  rw [hl, List.flatMap_append, List.flatMap_singleton] at hkeys
  rw [hl, length_append_one] at hcount hepochs
  have hbelow := hnumbered.2.1.2.2
  rw [hlast] at hbelow
  refine ⟨?_, ?_, ?_, ?_, ?_, ?_⟩
  · rw [length_append_one]
    exact hhistory
  · rw [hdrop, length_append_one]
    exact hepochs
  · rw [hdrop, length_append_one]
    exact hcount
  · rw [hdrop, numbered_append, Nat.zero_add]
    refine ⟨hnumbered.1.mono le_rfl ?_ (by omega), ⟨hnumbered.2.1.1, hnumbered.2.1.2.1, ?_⟩, trivial⟩
    · rw [length_append_one]
      exact Nat.le_succ _
    · rw [length_append_one]
      change scale.val < _
      omega
  · have hrange : Epoch.keys { r' with lastScale := scale } = r'.keys ++ [(s.epoch.val, scale.val)] := by
      unfold Epoch.keys
      rw [hscale, hlast, List.range_succ, List.map_append, hrepoch]
      rfl
    rw [List.map_append, hkeys, hdrop, List.flatMap_append, List.flatMap_singleton, hrange, List.append_assoc]
    rfl
  · rw [hdrop, List.getLast?_append]
    rfl

theorem shrink_full (hfull : Full s b factor.val) :
    (shrink s factor b).result = .error (.reject 1061) := by
  have hq : Q.val ≠ 0 := by decide
  unfold Full at hfull
  unfold shrink
  by_cases hzero : factor = .zero
  · have hval : factor.val = 0 := congrArg Unsigned.val hzero
    rw [if_pos hval] at hfull
    rw [if_pos hzero, result_bind, result_failIf, ensure, if_neg (not_not.2 hfull), error_bind]
  · have hval : factor.val ≠ 0 := fun h => hzero (Unsigned.ext h)
    rw [if_neg hval] at hfull
    have hscale : SCALE.val < 2 ^ 128 := SCALE.fits
    have hfits : s.p.val * factor.val / Q.val < 2 ^ 128 := hfull.1.trans hscale
    have hless : (⟨s.p.val * factor.val / Q.val, hfits⟩ : U128) < SCALE := hfull.1
    rw [if_neg hzero, result_bind, result_muldiv, dif_pos ⟨hq, hfits⟩, ok_bind, if_pos hless,
      result_bind, result_failIf, ensure, if_neg (not_not.2 hfull.2), error_bind]

theorem shrink_ok (h : Shape s b) (hp : s.p.val ≤ Q.val)
    (hf : factor.val ≤ Q.val) (hfull : ¬ Full s b factor.val) :
    ∃ s', (shrink s factor b).result = .ok s' ∧ Shrunk s s' b factor.val := by
  have hq : Q.val ≠ 0 := by decide
  have hsmall : Q.val < 2 ^ 128 := Q.fits
  have hnext := nextP_le hp hf
  obtain ⟨l, r, hl, hlast, hrepoch, hlength⟩ := h.epochs_append
  have hr : s.epochs.getLast? = some r := by
    rw [hl, List.getLast?_append]
    rfl
  have hlimit := b.history.fits
  unfold Full at hfull
  unfold shrink
  by_cases hzero : factor = .zero
  · have hval : factor.val = 0 := congrArg Unsigned.val hzero
    rw [if_pos hval, not_or, not_le, not_le] at hfull
    have hsucc : s.epoch.checkedSucc = some ⟨s.epoch.val + 1, h.succ_fits⟩ := Unsigned.checkedSucc_eq_some.2 rfl
    rw [if_pos hzero, result_bind, result_failIf, ensure_bind (not_or.2 ⟨not_le.2 hfull.1, not_le.2 hfull.2⟩),
      result_bind, hr, result_okOr_some, ok_bind, result_bind, hsucc, result_okOr_some,
      ok_bind]
    refine ⟨_, rfl, ?_, h.seal rfl hr hfull.1 hfull.2, rfl, rfl, rfl, rfl, rfl, rfl, ?_⟩
    · rw [nextP, if_pos hval]
    · rw [lastCell_append _ _ _ rfl]
      exact Nat.zero_le _
  · have hval : factor.val ≠ 0 := fun h => hzero (Unsigned.ext h)
    have hle : s.p.val * factor.val / Q.val ≤ Q.val := Nat.div_le_of_le_mul (Nat.mul_le_mul hp hf)
    have hfits : s.p.val * factor.val / Q.val < 2 ^ 128 := hle.trans_lt hsmall
    rw [if_neg hval] at hfull
    rw [if_neg hzero, result_bind, result_muldiv, dif_pos ⟨hq, hfits⟩, ok_bind]
    by_cases hless : s.p.val * factor.val / Q.val < SCALE.val
    · have hroom : s.history.length < b.history.val := not_le.1 fun hle => hfull ⟨hless, hle⟩
      have hp' : s.p.val * factor.val * SCALE.val / Q.val < 2 ^ 128 := by
        rw [nextP, if_neg hval, if_pos hless] at hnext
        exact hnext.trans_lt hsmall
      have hproduct : s.p.val * factor.val < Wide.bound := product_lt (s.p.fits.trans (by decide)) factor.fits
      have hscaled : s.p.val * factor.val * SCALE.val < Wide.bound := by
        refine product_lt ?_ SCALE.fits
        calc s.p.val * factor.val < 2 ^ 128 * 2 ^ 128 := Nat.mul_lt_mul'' s.p.fits factor.fits
          _ = 2 ^ 256 := by decide
      have hplace : s.scale.val + 1 < 2 ^ 64 := by
        have hbelow := h.numbered
        rw [hl, numbered_append] at hbelow
        have hscale := hbelow.2.1.2.2
        rw [hlast] at hscale
        omega
      have hsucc : s.scale.checkedSucc = some ⟨s.scale.val + 1, hplace⟩ := Unsigned.checkedSucc_eq_some.2 rfl
      have hless' : (⟨s.p.val * factor.val / Q.val, hfits⟩ : U128) < SCALE := hless
      rw [if_pos hless', result_bind, result_failIf, ensure_bind (not_le.2 hroom), result_bind,
        Wide.result_mul, Wide.val_ofU128, Wide.exact, if_pos hproduct, ok_bind, result_bind, Wide.result_mul,
        Wide.val_ofNat hproduct, Wide.exact, if_pos hscaled, ok_bind, result_bind, Wide.result_quotient,
        Wide.val_ofU128, Wide.val_ofNat hscaled, dif_pos ⟨hq, hp'⟩, ok_bind, result_bind, hsucc,
        result_okOr_some, ok_bind, result_bind, hr, result_okOr_some, ok_bind]
      refine ⟨_, rfl, ?_, h.rescale rfl hr hroom, rfl, rfl, rfl, rfl, rfl, rfl, ?_⟩
      · rw [nextP, if_neg hval, if_pos hless]
      · rw [lastCell_append _ _ _ rfl]
        exact Nat.zero_le _
    · have hless' : ¬ (⟨s.p.val * factor.val / Q.val, hfits⟩ : U128) < SCALE := hless
      rw [if_neg hless', result_bind, result_muldiv, dif_pos ⟨hq, hfits⟩, ok_bind]
      refine ⟨_, rfl, ?_, h.congr rfl rfl rfl rfl, rfl, rfl, rfl, rfl, rfl, rfl, le_rfl⟩
      rw [nextP, if_neg hval, if_neg hless]

/-! ## Offsets -/

/-- the sum of collateral of the current cell after a gain, as a number -/
def nextSum (s : State) (collateral : U128) : ℕ :=
  (lastCell s).s.val + (collateral.val * Q.val + s.errorS.val) / s.total.val * s.p.val

/-- the factor of an offset, as a number -/
def factorOf (s : State) (debt : U128) : ℕ := Q.val - unitLoss s debt

/-- when an offset goes through, in terms of the pool before it -/
def Proceeds (s : State) (b : Bounds) (debt collateral : U128) : Prop :=
  Fed s debt ∧ nextSum s collateral < 2 ^ 256 ∧
    (Full s b (factorOf s debt) ∨
      (0 < nextP s (factorOf s debt) ∧ s.collateral.val + collateral.val < 2 ^ 128))

/-- what an offset that succeeds leaves -/
structure Settled (pre s : State) (b : Bounds) (debt : U128) : Prop where
  valid : Valid s b
  sound : Sound s
  total_eq : s.total.val = pre.total.val - debt.val
  errorLoss_eq : s.errorLoss.val = nextLoss pre debt

/-- the four ways an offset ends -/
inductive Ended (pre : State) (b : Bounds) (debt collateral : U128) (delta : Option U128) :
    Except Failure State → Prop where
  | unavailable {e : Failure} (h : ¬ Available pre delta) (he : e = .unboundProfile ∨ e = .conservation) :
      Ended pre b debt collateral delta (.error e)
  | stuck (ha : Available pre delta) (h : ¬ Proceeds pre b debt collateral) :
      Ended pre b debt collateral delta (.error .arithmetic)
  | full (ha : Available pre delta) (h : Proceeds pre b debt collateral) (hfull : Full pre b (factorOf pre debt)) :
      Ended pre b debt collateral delta (.error (.reject 1061))
  | settled {s : State} (ha : Available pre delta) (h : Proceeds pre b debt collateral) (hs : Settled pre s b debt) :
      Ended pre b debt collateral delta (.ok s)

/-- **The outcome of an offset.** -/
theorem offset_outcome {pre : State} {b : Bounds} {debt collateral : U128} {delta : Option U128} (hv : Valid pre b)
    (hs : Sound pre) (hd : 0 < debt.val) (hle : debt ≤ pre.total) :
    Ended pre b debt collateral delta (offsetInner pre debt collateral delta b).result := by
  have hle' := Unsigned.le_def.1 hle
  have ht : 0 < pre.total.val := hd.trans_le hle'
  have hne : ¬ (pre.total = .zero ∨ debt = .zero) := by
    intro h
    rcases h with h | h
    · rw [h, Unsigned.val_zero] at ht
      exact lt_irrefl 0 ht
    · rw [h, Unsigned.val_zero] at hd
      exact lt_irrefl 0 hd
  generalize hres : (offsetInner pre debt collateral delta b).result = res
  unfold offsetInner at hres
  rw [result_bind, validate_eq.2 hv, ok_bind, result_bind, result_charge, ok_bind, if_neg hne,
    result_bind, result_failIf, ensure_bind (not_lt.2 hle), result_bind] at hres
  by_cases ha : Available pre delta
  swap
  · rcases issue_unavailable ha with h | h
    · rw [h, error_bind] at hres
      exact hres ▸ Ended.unavailable ha (Or.inl rfl)
    · rw [h, error_bind] at hres
      exact hres ▸ Ended.unavailable ha (Or.inr rfl)
  obtain ⟨s, hissue⟩ := issue_ok hv hs ht ha
  have hi := issue_issued hissue
  have hsound := hi.sound hv.p_le hs
  have hshape : Shape s b := hv.shape.congr hi.keys_eq hi.epochs_eq hi.epoch_eq hi.scale_eq
  have htotal : 0 < s.total.val := by
    rw [hi.total_eq]
    exact ht
  obtain ⟨gain, err, hacc, hgain, herr, hsmall⟩ := accumulator_ok collateral htotal hsound.errorS_lt
  rw [hi.total_eq, hi.errorS_eq] at hgain
  rw [hissue, ok_bind, result_bind, hacc, ok_bind, result_bind] at hres
  have hunit : unitLoss s debt = unitLoss pre debt := by
    unfold unitLoss
    rw [hi.total_eq, hi.errorLoss_eq]
  have hnext : nextLoss s debt = nextLoss pre debt := by
    unfold nextLoss
    rw [hunit, hi.total_eq, hi.errorLoss_eq]
  have hfeed : Fed s debt ↔ Fed pre debt := by
    unfold Fed
    rw [hi.total_eq, hi.errorLoss_eq]
  by_cases hfed : Fed pre debt
  swap
  · rw [loss_starved (mt hfeed.1 hfed), error_bind] at hres
    exact hres ▸ Ended.stuck ha fun h => hfed h.1
  obtain ⟨loss, hloss, hlossval, hfedback⟩ := loss_fed (hi.total_eq ▸ hle) hd (hfeed.2 hfed)
  have hunitle := unitLoss_le hle
  have hlossle : loss.1 ≤ Q := Unsigned.le_def.2 (by rw [hlossval, hunit]; exact hunitle)
  have hfactor : (Q.sub loss.1).val = factorOf pre debt := by
    rw [Unsigned.val_sub, hlossval, hunit]
    rfl
  rw [hloss, ok_bind, result_bind, result_sub, if_pos hlossle, ok_bind, result_bind, hshape.last_cell,
    result_okOr_some, ok_bind, result_bind, result_raise] at hres
  have hsum : (lastCell s).s.val + gain.val * s.p.val = nextSum pre collateral := by
    rw [hi.lastCell_s, hgain, hi.p_eq]
    rfl
  rw [hsum] at hres
  by_cases hroom : nextSum pre collateral < 2 ^ 256
  swap
  · rw [accumulatorOf_large (not_lt.1 hroom), error_bind] at hres
    exact hres ▸ Ended.stuck ha fun h => hroom h.2.1
  obtain ⟨sums, hsums, -⟩ := accumulatorOf_ok hroom
  rw [hsums, ok_bind, result_bind] at hres
  set raised : State := { s with
    errorS := err, errorLoss := loss.2, history := s.history.dropLast ++ [{ lastCell s with s := sums }] } with hraised
  have hkeys : raised.history.map Cell.key = s.history.map Cell.key := map_replaceLast hshape.last_cell rfl
  have hlength : raised.history.length = pre.history.length := by
    have h := congrArg List.length hkeys
    rw [List.length_map, List.length_map] at h
    exact h.trans hi.length_eq
  have hraisedShape : Shape raised b := hshape.congr hkeys rfl rfl rfl
  have hp : raised.p.val ≤ Q.val := by
    change s.p.val ≤ Q.val
    rw [hi.p_eq]
    exact hv.p_le
  have hraisedFull : Full raised b (Q.sub loss.1).val ↔ Full pre b (factorOf pre debt) := by
    unfold Full
    rw [hfactor, hlength]
    change (if _ then b.epochs.val ≤ s.epochs.length ∨ _ else s.p.val * _ / _ < _ ∧ _) ↔ _
    rw [hi.epochs_eq, hi.p_eq]
  by_cases hfull : Full pre b (factorOf pre debt)
  · rw [shrink_full (hraisedFull.2 hfull), error_bind] at hres
    exact hres ▸ Ended.full ha ⟨hfed, hroom, Or.inl hfull⟩ hfull
  obtain ⟨s', hshrink, hs'⟩ := shrink_ok hraisedShape hp (Nat.sub_le _ _) (mt hraisedFull.1 hfull)
  have hnextP : s'.p.val = nextP pre (factorOf pre debt) := by
    rw [hs'.p_eq, hfactor]
    unfold nextP
    change (if _ then _ else if s.p.val * _ / _ < _ then s.p.val * _ * _ / _ else s.p.val * _ / _) = _
    rw [hi.p_eq]
  rw [hshrink, ok_bind, result_bind, result_failIf] at hres
  by_cases hpos : 0 < nextP pre (factorOf pre debt)
  swap
  · have hzero : s'.p = .zero := Unsigned.ext (by rw [hnextP, Unsigned.val_zero]; omega)
    rw [ensure, if_neg (not_not.2 hzero), error_bind] at hres
    refine hres ▸ Ended.stuck ha fun h => ?_
    rcases h.2.2 with h | h
    · exact hfull h
    · exact hpos h.1
  have hnonzero : ¬ s'.p = .zero := fun h => by
    rw [h, Unsigned.val_zero] at hnextP
    omega
  have htotal' : s'.total = pre.total := hs'.total_eq.trans hi.total_eq
  have hcollateral' : s'.collateral = pre.collateral := hs'.collateral_eq.trans hi.collateral_eq
  rw [ensure_bind hnonzero, result_bind, htotal', result_sub, if_pos hle, ok_bind, result_bind,
    hcollateral', result_add] at hres
  by_cases hfits : pre.collateral.val + collateral.val < 2 ^ 128
  swap
  · rw [dif_neg hfits, error_bind] at hres
    refine hres ▸ Ended.stuck ha fun h => ?_
    rcases h.2.2 with h | h
    · exact hfull h
    · exact hfits h.2
  rw [dif_pos hfits, ok_bind, result_bind] at hres
  set post : State := { s' with
    total := pre.total.sub debt, collateral := ⟨pre.collateral.val + collateral.val, hfits⟩ } with hpost
  have hvalid : Valid post b := by
    refine ⟨hs'.shape.congr rfl rfl rfl rfl, ?_, ?_, ?_⟩
    · change 0 < s'.p.val
      rw [hnextP]
      exact hpos
    · change s'.p.val ≤ Q.val
      rw [hnextP]
      exact nextP_le hv.p_le (Nat.sub_le _ _)
    · change Funded s'.stock
      rw [hs'.stock_eq]
      exact hi.funded hv.funded
  rw [validate_eq.2 hvalid, ok_bind, result_pure] at hres
  refine hres ▸ Ended.settled ha ⟨hfed, hroom, Or.inr ⟨hpos, hfits⟩⟩ ⟨hvalid, ?_, rfl, ?_⟩
  · have hlast : (lastCell raised).g = (lastCell s).g := by rw [lastCell_append _ _ _ rfl]
    refine ⟨?_, ?_, ?_⟩
    · change s'.errorS.val < _
      rw [hs'.errorS_eq]
      exact hsmall
    · change s'.errorG.val < _
      rw [hs'.errorG_eq]
      exact hsound.errorG_lt
    · have hrewards := hsound.rewards
      have hbelow := hs'.rewards_le
      change (lastCell s').g.val + Q.val * s'.errorG.val ≤ Q.val * Q.val * s'.stock.allocated.val
      rw [hs'.errorG_eq, hs'.stock_eq]
      rw [hlast] at hbelow
      change (lastCell s').g.val + Q.val * s.errorG.val ≤ Q.val * Q.val * s.stock.allocated.val
      exact (Nat.add_le_add_right hbelow _).trans hrewards
  · change s'.errorLoss.val = _
    rw [hs'.errorLoss_eq, ← hnext, ← hfedback]

end ZenoFcis.Zusd.Stability
