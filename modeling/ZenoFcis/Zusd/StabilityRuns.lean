/-
Pools over whole runs from the reference state, by deposits, withdrawals, claims, registrations and offsets.
`Healthy`, `reachable_healthy`: every pool of a run is valid and its errors are remainders.
-/
import ZenoFcis.Zusd.StabilityOffset

namespace ZenoFcis.Zusd.Stability

open Lib Lib.Except
open Lib.Metered (result_bind result_pure)

/-- the books of the runs from the reference state under one set of bounds -/
inductive Reachable (b : Bounds) : Book → Prop where
  | genesis {s : State} (h : State.referenceGenesis FUNDED_CAP = .ok s) : Reachable b ⟨s, [], []⟩
  | change {i : ChangeInputs} {out : Outcome} (h : Reachable b i.pre) (hb : i.bounds = b)
      (hrun : (change i).result = .ok out) : Reachable b out.book
  | offset {book : Book} {debt collateral : U128} {delta : Option U128} {s : State} (h : Reachable b book)
      (hrun : (offsetInner book.pool debt collateral delta b).result = .ok s) : Reachable b { book with pool := s }

/-- what holds of every pool of a run; the reference state needs no bounds -/
structure Healthy (s : State) (b : Bounds) : Prop where
  sound : Sound s
  valid : Valid s b ∨ s.total.val = 0

theorem genesis_sound {s : State} (h : State.referenceGenesis FUNDED_CAP = .ok s) : Sound s := by
  simp only [State.referenceGenesis, Stock.fundedReference, bind_eq_ok, pure_eq, Except.ok.injEq] at h
  obtain ⟨stock, ⟨_, _, rfl⟩, rfl⟩ := h
  refine ⟨by decide, by decide, ?_⟩
  exact Nat.zero_le _

theorem genesis_empty {s : State} (h : State.referenceGenesis FUNDED_CAP = .ok s) : s.total.val = 0 := by
  simp only [State.referenceGenesis, bind_eq_ok, pure_eq, Except.ok.injEq] at h
  obtain ⟨stock, _, rfl⟩ := h
  rfl

theorem validateBook_valid {book : Book} {b : Bounds} {l : Liabilities} (h : (validateBook book b).result = .ok l) :
    Valid book.pool b := by
  unfold validateBook at h
  rw [result_bind, bind_eq_ok] at h
  obtain ⟨_, hvalid, _⟩ := h
  exact validate_eq.1 hvalid

theorem settle_pool {i : ChangeInputs} {old : Option Deposit} {input : U128} {out : Outcome}
    (h : (settle i old input).result = .ok out) : Valid out.book.pool i.bounds ∧
      ∃ pool total held paid, (issue i.pre.pool i.issuance).result = .ok pool ∧
        out.book.pool = { pool with total, collateral := held, stock := { pool.stock with paid } } := by
  unfold settle at h
  simp only [result_bind, bind_eq_ok, result_pure, result_failIf, Except.ok.injEq] at h
  obtain ⟨pool, hissue, gain, _, k, _, depGain, _, front, _, sum, _, total, _, held, _, gains, _, paid, _, more, _,
    amount, _, _, _, l, hbook, rfl⟩ := h
  exact ⟨validateBook_valid hbook, pool, total, held, paid, hissue, rfl⟩

theorem settle_healthy {i : ChangeInputs} {old : Option Deposit} {input : U128} {out : Outcome}
    (hv : Valid i.pre.pool i.bounds) (hs : Sound i.pre.pool) (h : (settle i old input).result = .ok out) :
    Healthy out.book.pool i.bounds := by
  obtain ⟨hvalid, pool, total, held, paid, hissue, hpool⟩ := settle_pool h
  have hsound := (issue_issued hissue).sound hv.p_le hs
  refine ⟨?_, Or.inl hvalid⟩
  rw [hpool]
  exact ⟨hsound.errorS_lt, hsound.errorG_lt, hsound.rewards⟩

theorem change_healthy {i : ChangeInputs} {out : Outcome} (hs : Sound i.pre.pool) (h : (change i).result = .ok out) :
    Healthy out.book.pool i.bounds := by
  unfold change at h
  rw [result_bind, bind_eq_ok] at h
  obtain ⟨l, hbook, h⟩ := h
  have hvalid := validateBook_valid hbook
  rw [result_bind, bind_eq_ok] at h
  obtain ⟨_, _, h⟩ := h
  rw [result_bind, bind_eq_ok] at h
  obtain ⟨_, _, h⟩ := h
  cases hcommand : i.command with
  | registerFrontEnd k =>
    simp only [hcommand, register, result_bind, bind_eq_ok, result_pure, Except.ok.injEq] at h
    obtain ⟨_, _, _, _, _, _, _, _, rfl⟩ := h
    exact ⟨hs, Or.inl hvalid⟩
  | deposit amount tag | withdraw amount | claim | moveGainToVault =>
    simp only [hcommand, result_bind, bind_eq_ok] at h
    obtain ⟨_, _, _, _, _, _, h⟩ := h
    exact settle_healthy hvalid hs h

theorem offset_healthy {pre s : State} {b : Bounds} {debt collateral : U128} {delta : Option U128} (hs : Sound pre)
    (h : (offsetInner pre debt collateral delta b).result = .ok s) : Healthy s b := by
  have hrun := h
  unfold offsetInner at h
  rw [result_bind, bind_eq_ok] at h
  obtain ⟨_, hvalid, h⟩ := h
  have hv := validate_eq.1 hvalid
  rw [result_bind, result_charge, ok_bind] at h
  by_cases hzero : pre.total = .zero ∨ debt = .zero
  · rw [if_pos hzero, result_pure, Except.ok.injEq] at h
    exact h ▸ ⟨hs, Or.inl hv⟩
  · rw [if_neg hzero, result_bind, result_failIf, bind_eq_ok] at h
    obtain ⟨_, hle, _⟩ := h
    have hle' := not_lt.1 (ensure_eq_ok.1 hle)
    have hpos : 0 < debt.val := Nat.pos_of_ne_zero fun h0 => hzero (Or.inr (Unsigned.ext h0))
    have hended := @offset_outcome pre b debt collateral delta hv hs hpos hle'
    rw [hrun] at hended
    cases hended with
    | settled ha hp hsettled => exact ⟨hsettled.sound, Or.inl hsettled.valid⟩

/-- **Every pool of a run is healthy.** -/
theorem reachable_healthy {b : Bounds} {book : Book} (h : Reachable b book) : Healthy book.pool b := by
  induction h with
  | genesis h => exact ⟨genesis_sound h, Or.inr (genesis_empty h)⟩
  | change _ hb hrun ih => exact hb ▸ change_healthy ih.sound hrun
  | offset _ hrun ih => exact offset_healthy ih.sound hrun

end ZenoFcis.Zusd.Stability
