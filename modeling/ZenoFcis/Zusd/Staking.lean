/-
Staking of zUSD (`staking.rs`): fees that are shared out by two accumulators, and stakes that join, leave and claim.
Results:
- `Sound`, `receive_sound`, `settle_sound`: what the two events keep, with the cover of every claim before any floor;
- `after_audited`: this and the books of what was received and paid, over every run;
- `staking_solvent`: no run ends in a failure of conservation, every claim can be paid, and fees cover all payments.
-/
import ZenoFcis.Lib.Accrual
import ZenoFcis.Lib.Ends
import ZenoFcis.Lib.SortedList
import ZenoFcis.Zusd.Quote
import ZenoFcis.Zusd.StateEncoding

namespace ZenoFcis.Zusd.Staking

open Lib Lib.Except
open Lib.Metered (result_bind run_ok)
open Application (Position)

/-- `staking::State` -/
abbrev State := Application.Staking

inductive Command where
  | stake (amount : U128)
  | unstake (amount : U128)
  | claim
deriving DecidableEq

structure Outcome where
  state : State
  stakeIn : U128
  stakeOut : U128
  zusdGain : U128
  agrsGain : U128
deriving DecidableEq

/-! ## Validation -/

def gains (s : State) (p : Position) : Work (U128 × U128) := do
  let z ← Vaults.pending s.fZ p.snapshotZ p.stake
  let a ← Vaults.pending s.fA p.snapshotA p.stake
  return (z, a)

/-- the sums of `validate` -/
structure Sums where
  total : Wide
  z : Wide
  a : Wide

def validatePosition (s : State) (sums : Sums) (p : Position) : Work Sums := do
  failIf (p.stake = .zero) .domain
  let total ← sums.total.add (.ofU128 p.stake)
  let (gz, ga) ← gains s p
  return ⟨total, ← sums.z.add (.ofU128 gz), ← sums.a.add (.ofU128 ga)⟩

def validate (s : State) (capacity : U32) : Work Unit := do
  let n := s.positions.length
  failIf (capacity.val < n) .capacity
  charge n n (n * 128)
  failIf (¬ (s.positions.map Position.owner).IsChain (· < ·)) .canonical
  let sums ← s.positions.foldlM (validatePosition s) ⟨.ofU128 .zero, .ofU128 s.zeroZ, .ofU128 s.zeroA⟩
  failIf (sums.total ≠ .ofU128 s.total ∨ Wide.cmp sums.z (.ofU128 s.custodyZ) = .gt ∨
    Wide.cmp sums.a (.ofU128 s.custodyA) = .gt) .conservation

/-! ## Fees -/

/-- an accumulator with a fee shared out over a total -/
def accrue (f : Accumulator256) (amount total : U128) : Work Accumulator256 := do
  let n ← (Wide.ofU128 amount).mul Q
  let out ← n.quotientWide (.ofU128 total)
  f.add (← .lift out.1.accumulator)

/-- what `fee_event` does between its validations -/
def receive (pre : State) (zusd agrs : U128) : Work State := do
  charge 1 0 (pre.positions.length * 128 + 160)
  let custodyZ ← add pre.custodyZ zusd
  let custodyA ← add pre.custodyA agrs
  if pre.total = .zero then
    let zeroZ ← add pre.zeroZ zusd
    let zeroA ← add pre.zeroA agrs
    return { pre with custodyZ, custodyA, zeroZ, zeroA }
  else
    let fZ ← accrue pre.fZ zusd pre.total
    let fA ← accrue pre.fA agrs pre.total
    return { pre with custodyZ, custodyA, fZ, fA }

def feeEvent (pre : State) (zusd agrs : U128) (capacity : U32) : Work State := do
  validate pre capacity
  let s ← receive pre zusd agrs
  validate s capacity
  return s

/-! ## Commands -/

/-- `matches!(command, Command::Stake(_))` -/
def Command.stakes : Command → Bool
  | .stake _ => true
  | _ => false

def Command.input : Command → U128
  | .stake x => x
  | _ => .zero

/-- what is taken out of a stake -/
def Command.output (stake : U128) : Command → U128
  | .unstake x => min x stake
  | _ => .zero

/-- the gains of the actor's position; none without a position -/
def oldGains (pre : State) : Option Position → Work (U128 × U128)
  | some p => gains pre p
  | none => pure (.zero, .zero)

/-- the positions without the actor's, and with the new stake when there is one -/
def replace (pre : State) (actor : Id) (rest : List Position) (next : U128) (capacity : U32) : Work (List Position) :=
  if .zero < next then do
    failIf (capacity.val ≤ rest.length) (.reject 1061)
    return rest.insertIdx (rest.takeWhile (·.owner < actor)).length ⟨actor, next, pre.fZ, pre.fA⟩
  else return rest

/-- what `change` does between its validations -/
def settle (pre : State) (actor : Id) (command : Command) (wallet : U128) (capacity : U32) : Work Outcome := do
  failIf (command = .stake .zero) (.reject 1010)
  let found := (binarySearch Position.owner actor pre.positions).toOption
  let old := found.map fun i => pre.positions[i]
  failIf (old.isNone ∧ ¬ command.stakes) (.reject 1011)
  let input := command.input
  failIf (wallet < input) (.reject 1033)
  let (z, a) ← oldGains pre old
  let stake := (old.map Position.stake).getD .zero
  let output := command.output stake
  let next ← sub (← add stake input) output
  charge 1 0 (pre.positions.length * 128 + 160)
  let rest := match found with
    | some i => pre.positions.eraseIdx i
    | none => pre.positions
  let positions ← replace pre actor rest next capacity
  let total ← sub (← add pre.total input) output
  let custodyZ ← sub pre.custodyZ z
  let custodyA ← sub pre.custodyA a
  return ⟨{ pre with positions, total, custodyZ, custodyA }, input, output, z, a⟩

def change (pre : State) (actor : Id) (command : Command) (wallet : U128) (capacity : U32) : Work Outcome := do
  validate pre capacity
  let out ← settle pre actor command wallet capacity
  validate out.state capacity
  return out

/-! ## What a state owes -/

/-- the positions as claims on one side -/
def claims (snapshot : Position → Accumulator256) (l : List Position) : List Claim :=
  l.map fun p => (p.stake.val, (snapshot p).val)

/-- a position for each owner, the total of the stakes, and a custody that covers all claims before any floor -/
structure Sound (s : State) : Prop where
  ordered : Increasing Position.owner s.positions
  staked : ∀ p ∈ s.positions, 0 < p.stake.val
  total : (s.positions.map fun p => p.stake.val).sum = s.total.val
  z : Backed Q.val s.fZ.val s.zeroZ.val s.custodyZ.val (claims Position.snapshotZ s.positions)
  a : Backed Q.val s.fA.val s.zeroA.val s.custodyA.val (claims Position.snapshotA s.positions)

/-- what a position is paid on one side -/
def share (f snapshot : Accumulator256) (p : Position) : ℕ := owed f.val (p.stake.val, snapshot.val) / Q.val

variable {p : Position} {capacity : U32}

theorem pending_share {f snapshot : Accumulator256} (h : snapshot.val ≤ f.val) :
    (Vaults.pending f snapshot p.stake).result = fit (share f snapshot p) := by
  obtain ⟨delta, hdelta, hval⟩ := Accumulator256.result_sub_ok h
  rw [pending_eq, result_bind, hdelta, ok_bind, result_gain, hval, Nat.mul_comm]
  rfl

theorem pending_paid {reward snapshot : Accumulator256} {n : ℕ} {held : U128} {l : List Claim}
    (h : Backed Q.val reward.val n held.val l) (hp : (p.stake.val, snapshot.val) ∈ l) :
    ∃ g : U128, (Vaults.pending reward snapshot p.stake).result = .ok g ∧
      g.val = share reward snapshot p ∧ g.val ≤ held.val := by
  have hpaid : share reward snapshot p ≤ held.val := (h.perm (List.perm_cons_erase hp)).payable
  refine ⟨⟨share reward snapshot p, hpaid.trans_lt held.fits⟩, ?_, rfl, hpaid⟩
  rw [pending_share (h.seen _ hp), fit_ok]

theorem mem_claims {snapshot : Position → Accumulator256} {l : List Position} (hp : p ∈ l) :
    (p.stake.val, (snapshot p).val) ∈ claims snapshot l := List.mem_map_of_mem hp

/-- what the two gains of a position are -/
structure Gains (s : State) (p : Position) (gz ga : U128) : Prop where
  z : gz.val = share s.fZ p.snapshotZ p
  a : ga.val = share s.fA p.snapshotA p
  z_le : gz.val ≤ s.custodyZ.val
  a_le : ga.val ≤ s.custodyA.val

theorem Sound.gains {s : State} (h : Sound s) (hp : p ∈ s.positions) :
    ∃ z a, (gains s p).result = .ok (z, a) ∧ Gains s p z a := by
  obtain ⟨z, hz, hzval, hzle⟩ := pending_paid h.z (mem_claims hp)
  obtain ⟨a, ha, haval, hale⟩ := pending_paid h.a (mem_claims hp)
  refine ⟨z, a, ?_, hzval, haval, hzle, hale⟩
  rw [Staking.gains, result_bind, hz, ok_bind, result_bind, ha]
  rfl

/-! ## The closing validation -/

theorem sum_share (f : Accumulator256) (snapshot : Position → Accumulator256) (l : List Position) :
    ((claims snapshot l).map fun c => owed f.val c / Q.val).sum = (l.map fun p => share f (snapshot p) p).sum := by
  rw [claims, List.map_map]
  rfl

theorem Sound.floors {s : State} (h : Sound s) :
    s.zeroZ.val + (s.positions.map fun p => share s.fZ p.snapshotZ p).sum ≤ s.custodyZ.val ∧
      s.zeroA.val + (s.positions.map fun p => share s.fA p.snapshotA p).sum ≤ s.custodyA.val := by
  refine ⟨?_, ?_⟩
  · rw [← sum_share]
    exact h.z.floors (by decide)
  · rw [← sum_share]
    exact h.a.floors (by decide)

/-- the sums of `validate` after some positions -/
structure Summed (s : State) (done : List Position) (sums : Sums) : Prop where
  total : sums.total.val = (done.map fun p => p.stake.val).sum
  z : sums.z.val = s.zeroZ.val + (done.map fun p => share s.fZ p.snapshotZ p).sum
  a : sums.a.val = s.zeroA.val + (done.map fun p => share s.fA p.snapshotA p).sum

theorem wide_add {x y : Wide} {custody : U128} (h : x.val + y.val ≤ custody.val) :
    ∃ sum, (x.add y).result = .ok sum ∧ sum.val = x.val + y.val := by
  have hbound : x.val + y.val < Wide.bound := h.trans_lt (custody.fits.trans (by decide))
  refine ⟨.ofNat (x.val + y.val), ?_, Wide.val_ofNat hbound⟩
  rw [Wide.result_add, Wide.exact, if_pos hbound]

theorem sum_done {f : Position → ℕ} {l done rest : List Position} (hl : l = done ++ p :: rest) :
    (done.map f).sum + f p ≤ (l.map f).sum := by
  rw [hl, List.map_append, List.sum_append, List.map_cons, List.sum_cons]
  omega

theorem summed_snoc {f : Position → ℕ} (done : List Position) (p : Position) :
    ((done ++ [p]).map f).sum = (done.map f).sum + f p := by
  rw [List.map_append, List.sum_append, List.map_singleton, List.sum_singleton]

theorem validatePosition_summed {s : State} (h : Sound s) {done rest : List Position} {sums : Sums}
    (hl : s.positions = done ++ p :: rest) (hsums : Summed s done sums) :
    ∃ next, (validatePosition s sums p).result = .ok next ∧ Summed s (done ++ [p]) next := by
  have hp : p ∈ s.positions := by
    rw [hl]
    exact List.mem_append_right _ List.mem_cons_self
  have hstake : p.stake ≠ .zero := mt Unsigned.eq_zero_iff.1 (h.staked p hp).ne'
  have hfloors := h.floors
  obtain ⟨gz, ga, hgains, hg⟩ := h.gains hp
  have htotal := sum_done (f := fun p => p.stake.val) hl
  have hz := sum_done (f := fun p => share s.fZ p.snapshotZ p) hl
  have ha := sum_done (f := fun p => share s.fA p.snapshotA p) hl
  obtain ⟨total, htotal', htotalval⟩ := @wide_add sums.total (.ofU128 p.stake) s.total (by
    rw [hsums.total, Wide.val_ofU128, ← h.total]
    exact htotal)
  obtain ⟨z, hz', hzval⟩ := @wide_add sums.z (.ofU128 gz) s.custodyZ (by
    rw [hsums.z, Wide.val_ofU128, hg.z]
    omega)
  obtain ⟨a, ha', haval⟩ := @wide_add sums.a (.ofU128 ga) s.custodyA (by
    rw [hsums.a, Wide.val_ofU128, hg.a]
    omega)
  refine ⟨⟨total, z, a⟩, ?_, ?_, ?_, ?_⟩
  · rw [validatePosition, result_bind, result_failIf, ensure_bind hstake, result_bind, htotal', ok_bind,
      result_bind, hgains, ok_bind]
    dsimp only
    rw [result_bind, hz', ok_bind, result_bind, ha']
    rfl
  · rw [summed_snoc, htotalval, hsums.total, Wide.val_ofU128]
  · rw [summed_snoc, hzval, hsums.z, Wide.val_ofU128, hg.z, Nat.add_assoc]
  · rw [summed_snoc, haval, hsums.a, Wide.val_ofU128, hg.a, Nat.add_assoc]

theorem validatePositions_summed {s : State} (h : Sound s) :
    ∃ sums, (s.positions.foldlM (validatePosition s) ⟨.ofU128 .zero, .ofU128 s.zeroZ, .ofU128 s.zeroA⟩).result =
      .ok sums ∧ Summed s s.positions sums := by
  have hends := Ends.foldlM (Q := fun _ : Failure => False) (Summed s) (l := s.positions)
    (f := fun sums p => (validatePosition s sums p).result) (fun done p rest sums hl hsums => by
      obtain ⟨next, hnext, hsummed⟩ := validatePosition_summed h hl hsums
      rw [hnext]
      exact hsummed) (b := ⟨.ofU128 .zero, .ofU128 s.zeroZ, .ofU128 s.zeroA⟩)
    ⟨Wide.val_ofU128 _, Wide.val_ofU128 _, Wide.val_ofU128 _⟩
  rw [Metered.result_foldlM]
  cases hx : s.positions.foldlM (fun sums p => (validatePosition s sums p).result)
    (⟨.ofU128 .zero, .ofU128 s.zeroZ, .ofU128 s.zeroA⟩ : Sums) with
  | error e =>
    rw [hx] at hends
    exact hends.elim
  | ok sums =>
    rw [hx] at hends
    exact ⟨sums, rfl, hends⟩

/-- **The closing validation.** A sound state passes, if its positions fit the capacity. -/
theorem validate_sound {s : State} (h : Sound s) (hcapacity : s.positions.length ≤ capacity.val) :
    (validate s capacity).result = .ok () := by
  obtain ⟨sums, hsums, hsummed⟩ := validatePositions_summed h
  have hfloors := h.floors
  have hordered : (s.positions.map Position.owner).IsChain (· < ·) := by
    rw [List.isChain_iff_pairwise, List.pairwise_map]
    exact h.ordered
  have htotal : sums.total = .ofU128 s.total := by
    apply Wide.val_inj
    rw [hsummed.total, Wide.val_ofU128, h.total]
  have hz : ¬ Wide.cmp sums.z (.ofU128 s.custodyZ) = .gt := by
    rw [Wide.cmp_eq, compare_gt_iff_gt, Wide.val_ofU128, hsummed.z]
    omega
  have ha : ¬ Wide.cmp sums.a (.ofU128 s.custodyA) = .gt := by
    rw [Wide.cmp_eq, compare_gt_iff_gt, Wide.val_ofU128, hsummed.a]
    omega
  rw [validate, result_bind, result_failIf, ensure_bind (not_lt.2 hcapacity), result_bind, result_charge,
    ok_bind, result_bind, result_failIf, ensure_bind (not_not.2 hordered), result_bind, hsums, ok_bind,
    result_failIf, ensure, if_pos]
  rintro (hne | hgt | hgt)
  · exact hne htotal
  · exact hz hgt
  · exact ha hgt

/-! ## Fees -/

/-- a failure that does not report a breach of the books -/
def Lawful (e : Failure) : Prop := e ≠ .conservation

theorem arithmetic_lawful (e : Failure) (h : e = .arithmetic) : Lawful e := by
  rw [h]
  intro hbreach
  cases hbreach

theorem ends_bind {α β : Type} {P : α → Prop} {R : β → Prop} {E : Failure → Prop} {x : Work α} {f : α → Work β}
    (h : Ends P E x.result) (hf : ∀ a, P a → Ends R E (f a).result) : Ends R E (x >>= f).result := by
  rw [result_bind]
  exact h.bind hf

theorem add_ends (x y : U128) : Ends (fun sum : U128 => sum.val = x.val + y.val) Lawful (add x y).result := by
  rw [result_add]
  split_ifs with h
  · exact rfl
  · exact arithmetic_lawful _ rfl

theorem sub_ends (x y : U128) :
    Ends (fun rest : U128 => rest.val = x.val - y.val ∧ y.val ≤ x.val) Lawful (sub x y).result := by
  rw [result_sub]
  split_ifs with h
  · exact ⟨rfl, Unsigned.le_def.1 h⟩
  · exact arithmetic_lawful _ rfl

theorem failIf_ends {p : Prop} [Decidable p] {e : Failure} (he : Lawful e) :
    Ends (fun _ : Unit => ¬ p) Lawful (failIf p e).result := by
  rw [result_failIf]
  unfold ensure
  split_ifs with h
  · exact he
  · exact h

theorem accumulatorOf_ends (n : ℕ) :
    Ends (fun x : Accumulator256 => x.val = n) Lawful (Wide.accumulatorOf n) := by
  unfold Wide.accumulatorOf
  split_ifs with h
  · exact Nat.mod_add_div _ _
  · exact arithmetic_lawful _ rfl

theorem accrue_ends (f : Accumulator256) (amount : U128) {total : U128} (ht : total.val ≠ 0) :
    Ends (fun f' : Accumulator256 => f'.val = f.val + amount.val * Q.val / total.val) Lawful
      (accrue f amount total).result := by
  have hproduct : amount.val * Q.val < Wide.bound := product_lt (amount.fits.trans (by decide)) Q.fits
  have hquotient : amount.val * Q.val / total.val < Wide.bound := (Nat.div_le_self _ _).trans_lt hproduct
  unfold accrue
  apply ends_bind (P := fun n : Wide => n.val = amount.val * Q.val)
  · rw [mul_exact (by rw [Wide.val_ofU128]; exact hproduct), Wide.val_ofU128]
    exact Wide.val_ofNat hproduct
  intro n hn
  apply ends_bind (P := fun out : Wide × Wide => out.1.val = amount.val * Q.val / total.val)
  · rw [Wide.result_quotientWide, Wide.val_ofU128, if_neg ht, hn]
    change (Wide.ofNat _).val = _
    rw [Wide.val_ofNat hquotient]
  intro out hout
  rw [result_bind, Metered.result_lift, Wide.accumulator_eq, hout]
  apply (accumulatorOf_ends _).bind
  intro x hx
  rw [Accumulator256.result_add, ← hx]
  exact accumulatorOf_ends _

/-- what a fee event does to the books -/
structure Received (pre : State) (zusd agrs : U128) (post : State) : Prop where
  sound : Sound post
  positions : post.positions = pre.positions
  z_le : pre.fZ.val ≤ post.fZ.val
  a_le : pre.fA.val ≤ post.fA.val
  custodyZ : post.custodyZ.val = pre.custodyZ.val + zusd.val
  custodyA : post.custodyA.val = pre.custodyA.val + agrs.val
  zeroZ : post.zeroZ.val = pre.zeroZ.val + if pre.total = .zero then zusd.val else 0
  zeroA : post.zeroA.val = pre.zeroA.val + if pre.total = .zero then agrs.val else 0

theorem sum_stakes (snapshot : Position → Accumulator256) (l : List Position) :
    ((claims snapshot l).map Prod.fst).sum = (l.map fun p => p.stake.val).sum := by
  rw [claims, List.map_map]
  rfl

theorem shared_le {s : State} (h : Sound s) (snapshot : Position → Accumulator256) (amount : U128) :
    ((claims snapshot s.positions).map Prod.fst).sum * (amount.val * Q.val / s.total.val) ≤ amount.val * Q.val := by
  rw [sum_stakes, h.total]
  exact Nat.mul_div_le _ _

/-- **Fees.** A sound state stays sound, and the fee is in custody. -/
theorem receive_sound {s : State} (h : Sound s) (zusd agrs : U128) :
    Ends (Received s zusd agrs) Lawful (receive s zusd agrs).result := by
  unfold receive
  rw [result_bind, result_charge, ok_bind]
  apply ends_bind (add_ends _ _)
  intro custodyZ hcustodyZ
  apply ends_bind (add_ends _ _)
  intro custodyA hcustodyA
  by_cases ht : s.total = .zero
  · rw [if_pos ht]
    apply ends_bind (add_ends _ _)
    intro zeroZ hzeroZ
    apply ends_bind (add_ends _ _)
    intro zeroA hzeroA
    have hz := @Backed.idle _ _ _ _ _ zusd.val h.z
    have ha := @Backed.idle _ _ _ _ _ agrs.val h.a
    rw [← hcustodyZ, ← hzeroZ] at hz
    rw [← hcustodyA, ← hzeroA] at ha
    exact ⟨⟨h.ordered, h.staked, h.total, hz, ha⟩, rfl, le_rfl, le_rfl, hcustodyZ, hcustodyA, by rw [if_pos ht, hzeroZ],
      by rw [if_pos ht, hzeroA]⟩
  · have hne : s.total.val ≠ 0 := mt Unsigned.eq_zero_iff.2 ht
    rw [if_neg ht]
    apply ends_bind (accrue_ends _ _ hne)
    intro fZ hfZ
    apply ends_bind (accrue_ends _ _ hne)
    intro fA hfA
    have hz := h.z.fee (shared_le h Position.snapshotZ zusd)
    have ha := h.a.fee (shared_le h Position.snapshotA agrs)
    rw [← hcustodyZ, ← hfZ] at hz
    rw [← hcustodyA, ← hfA] at ha
    exact ⟨⟨h.ordered, h.staked, h.total, hz, ha⟩, rfl, by rw [hfZ]; exact Nat.le_add_right _ _,
      by rw [hfA]; exact Nat.le_add_right _ _, hcustodyZ, hcustodyA,
      by rw [if_neg ht, Nat.add_zero], by rw [if_neg ht, Nat.add_zero]⟩

/-! ## Commands -/

section Settlement

variable {s : State} {actor : Id}

/-- what the search for an actor's position splits off -/
structure Split (s : State) (actor : Id) (old : Option Position) (rest : List Position) : Prop where
  perm : s.positions.Perm (old.toList ++ rest)
  rest : rest = put Position.owner actor none s.positions
  old : old = slot Position.owner actor s.positions

theorem search_split (h : Sound s) :
    Split s actor ((binarySearch Position.owner actor s.positions).toOption.map fun i => s.positions[i])
      (match (binarySearch Position.owner actor s.positions).toOption with
        | some i => s.positions.eraseIdx i
        | none => s.positions) := by
  cases hi : binarySearch Position.owner actor s.positions with
  | ok i =>
    have hfound := binarySearch_ok hi
    refine ⟨?_, hfound.erase, hfound.slot.symm⟩
    change s.positions.Perm (s.positions[i] :: s.positions.eraseIdx i)
    rw [hfound.erase]
    exact put_none_perm h.ordered hfound.slot
  | error i =>
    have hnone := (binarySearch_error h.ordered hi).1
    refine ⟨.rfl, ?_, hnone.symm⟩
    apply h.ordered.ext (h.ordered.put (by simp))
    intro k
    by_cases hk : k = actor
    · subst hk
      rw [hnone, slot_put_self h.ordered (by simp)]
    · rw [slot_put_ne (by simp) hk]

namespace Split

variable {old : Option Position} {rest : List Position}

theorem ordered (h : Sound s) (hsplit : Split s actor old rest) : Increasing Position.owner rest := by
  rw [hsplit.rest]
  exact h.ordered.put (by simp)

theorem slot_rest (h : Sound s) (hsplit : Split s actor old rest) : slot Position.owner actor rest = none := by
  rw [hsplit.rest]
  exact slot_put_self h.ordered (by simp)

theorem other_rest (hsplit : Split s actor old rest) {owner : Id} (hne : owner ≠ actor) :
    slot Position.owner owner rest = slot Position.owner owner s.positions := by
  rw [hsplit.rest]
  exact slot_put_ne (by simp) hne

theorem mem_old (hsplit : Split s actor old rest) {p : Position} (hp : old = some p) : p ∈ s.positions := by
  subst hp
  exact slot_mem hsplit.old.symm

end Split

/-- the position of a new stake; none when the stake is zero -/
def renewed (s : State) (actor : Id) (next : U128) : Option Position :=
  if .zero < next then some ⟨actor, next, s.fZ, s.fA⟩ else none

theorem renewed_owner {next : U128} {p : Position} (hp : p ∈ renewed s actor next) : p.owner = actor := by
  unfold renewed at hp
  split_ifs at hp
  · cases hp
    rfl
  · cases hp

theorem renewed_pos {next : U128} {p : Position} (hp : p ∈ renewed s actor next) : 0 < p.stake.val := by
  unfold renewed at hp
  split_ifs at hp with hnext
  · cases hp
    exact Unsigned.lt_def.1 hnext
  · cases hp

/-- what `replace` does to the positions -/
structure Replaced (s : State) (actor : Id) (rest : List Position) (next : U128) (capacity : U32) (l : List Position) :
    Prop where
  put : l = put Position.owner actor (renewed s actor next) rest
  perm : l.Perm ((renewed s actor next).toList ++ rest)
  capacity : l.length ≤ max rest.length capacity.val

theorem put_none_self {l : List Position} (hl : Increasing Position.owner l) (hnone : slot Position.owner actor l = none) :
    put Position.owner actor none l = l := by
  apply (hl.put (by simp)).ext hl
  intro k
  by_cases hk : k = actor
  · subst hk
    rw [hnone, slot_put_self hl (by simp)]
  · rw [slot_put_ne (by simp) hk]

theorem replace_ends {rest : List Position} {next : U128} {capacity : U32} (hrest : Increasing Position.owner rest)
    (hnone : slot Position.owner actor rest = none) :
    Ends (Replaced s actor rest next capacity) Lawful (replace s actor rest next capacity).result := by
  unfold replace
  by_cases hnext : .zero < next
  · have hnew : renewed s actor next = some ⟨actor, next, s.fZ, s.fA⟩ := if_pos hnext
    rw [if_pos hnext]
    apply ends_bind (failIf_ends (by intro hbreach; cases hbreach))
    intro _ hroom
    change Replaced s actor rest next capacity _
    rw [insertIdx_put hrest hnone]
    refine ⟨by rw [hnew], ?_, ?_⟩
    · rw [hnew]
      exact put_perm hnone
    · rw [(put_perm hnone).length_eq, List.length_cons]
      exact (not_le.1 hroom).trans_le (le_max_right _ _)
  · have hnew : renewed s actor next = none := if_neg hnext
    rw [if_neg hnext]
    change Replaced s actor rest next capacity rest
    refine ⟨by rw [hnew, put_none_self hrest hnone], by rw [hnew]; exact .rfl, le_max_left _ _⟩

/-- what one side pays to an actor -/
def paid (f : Accumulator256) (snapshot : Position → Accumulator256) (old : Option Position) : ℕ :=
  (old.map fun p => share f (snapshot p) p).getD 0

variable {snapshot : Position → Accumulator256}

theorem claims_perm {l l' : List Position} (h : l.Perm l') :
    (claims snapshot l).Perm (claims snapshot l') := h.map _

theorem side_settled {f : Accumulator256} {n held : ℕ} {l rest l' : List Position}
    {old new : Option Position} (h : Backed Q.val f.val n held (claims snapshot l)) (hold : l.Perm (old.toList ++ rest))
    (hnew : l'.Perm (new.toList ++ rest)) (hsnapshot : ∀ p ∈ new, snapshot p = f) :
    Backed Q.val f.val n (held - paid f snapshot old) (claims snapshot l') := by
  have hrest : Backed Q.val f.val n (held - paid f snapshot old) (claims snapshot rest) := by
    have hsplit := h.perm (claims_perm hold)
    cases old with
    | none => exact hsplit
    | some p => exact hsplit.leave
  apply Backed.perm (claims_perm hnew).symm
  cases new with
  | none => exact hrest
  | some p =>
    have hjoin := @Backed.join _ _ _ _ _ p.stake.val hrest
    rw [← hsnapshot p rfl] at hjoin ⊢
    exact hjoin

theorem sum_toList {l rest : List Position} {old : Option Position} (h : l.Perm (old.toList ++ rest)) :
    (l.map fun p => p.stake.val).sum = ((old.map Position.stake).getD .zero).val +
      (rest.map fun p => p.stake.val).sum := by
  rw [(h.map _).sum_eq, List.map_append, List.sum_append]
  cases old with
  | none => rfl
  | some p => simp

theorem renewed_stake (next : U128) : ((renewed s actor next).map Position.stake).getD .zero = next := by
  unfold renewed
  split_ifs with h
  · rfl
  · exact (Unsigned.eq_zero_iff.2 (Nat.eq_zero_of_not_pos fun hpos => h (Unsigned.lt_def.2 hpos))).symm

/-- what a settlement does to the books -/
structure Settled (pre : State) (actor : Id) (capacity : U32) (out : Outcome) : Prop where
  sound : Sound out.state
  fZ : out.state.fZ = pre.fZ
  fA : out.state.fA = pre.fA
  zeroZ : out.state.zeroZ = pre.zeroZ
  zeroA : out.state.zeroA = pre.zeroA
  custodyZ : out.state.custodyZ.val + out.zusdGain.val = pre.custodyZ.val
  custodyA : out.state.custodyA.val + out.agrsGain.val = pre.custodyA.val
  other : ∀ owner, owner ≠ actor →
    slot Position.owner owner out.state.positions = slot Position.owner owner pre.positions
  capacity : out.state.positions.length ≤ max pre.positions.length capacity.val

theorem gains_ends (h : Sound s) {old : Option Position} {rest : List Position} (hsplit : Split s actor old rest) :
    Ends (fun g : U128 × U128 => g.1.val = paid s.fZ Position.snapshotZ old ∧ g.2.val = paid s.fA Position.snapshotA old)
      Lawful (oldGains s old).result := by
  cases old with
  | none => exact ⟨rfl, rfl⟩
  | some p =>
    obtain ⟨z, a, hgains, hg⟩ := h.gains (hsplit.mem_old rfl)
    rw [oldGains, hgains]
    exact ⟨hg.z, hg.a⟩

/-- **Commands.** A sound state stays sound, and what is paid leaves the custody. -/
theorem settle_sound (h : Sound s) (actor : Id) (command : Command) (wallet : U128) (capacity : U32) :
    Ends (Settled s actor capacity) Lawful (settle s actor command wallet capacity).result := by
  have hreject : ∀ code, Lawful (.reject code) := by
    intro code hbreach
    cases hbreach
  have hsplit := @search_split s actor h
  unfold settle
  apply ends_bind (failIf_ends (hreject 1010))
  intro _ _
  dsimp only
  generalize ((binarySearch Position.owner actor s.positions).toOption.map fun i => s.positions[i]) = old at hsplit ⊢
  generalize (match (binarySearch Position.owner actor s.positions).toOption with
    | some i => s.positions.eraseIdx i
    | none => s.positions) = rest at hsplit ⊢
  apply ends_bind (failIf_ends (hreject 1011))
  intro _ _
  apply ends_bind (failIf_ends (hreject 1033))
  intro _ _
  apply ends_bind (gains_ends h hsplit)
  rintro ⟨z, a⟩ ⟨hz, ha⟩
  apply ends_bind (add_ends _ _)
  intro staked hstaked
  apply ends_bind (sub_ends _ _)
  intro next hnext
  rw [result_bind, result_charge, ok_bind]
  apply ends_bind (replace_ends (s := s) (hsplit.ordered h) (hsplit.slot_rest h))
  intro positions hpositions
  apply ends_bind (add_ends _ _)
  intro more hmore
  apply ends_bind (sub_ends _ _)
  intro total htotal
  apply ends_bind (sub_ends _ _)
  intro custodyZ hcustodyZ
  apply ends_bind (sub_ends _ _)
  intro custodyA hcustodyA
  have hold := sum_toList hsplit.perm
  have hnew := sum_toList hpositions.perm
  rw [renewed_stake] at hnew
  have hrenewed : ∀ p ∈ renewed s actor next, p.snapshotZ = s.fZ ∧ p.snapshotA = s.fA := by
    intro p hp
    unfold renewed at hp
    split_ifs at hp
    · cases hp
      exact ⟨rfl, rfl⟩
    · cases hp
  have hsideZ := side_settled h.z hsplit.perm hpositions.perm fun p hp => (hrenewed p hp).1
  have hsideA := side_settled h.a hsplit.perm hpositions.perm fun p hp => (hrenewed p hp).2
  rw [← hz, ← hcustodyZ.1] at hsideZ
  rw [← ha, ← hcustodyA.1] at hsideA
  refine ⟨⟨?_, ?_, ?_, hsideZ, hsideA⟩, rfl, rfl, rfl, rfl, ?_, ?_, ?_, ?_⟩
  · change Increasing Position.owner positions
    rw [hpositions.put]
    exact (hsplit.ordered h).put fun p hp => renewed_owner hp
  · intro p hp
    rcases List.mem_append.1 (hpositions.perm.mem_iff.1 hp) with hp | hp
    · exact renewed_pos (Option.mem_toList.1 hp)
    · exact h.staked p (hsplit.perm.mem_iff.2 (List.mem_append_right _ hp))
  · have htotal' := h.total
    change (positions.map fun p => p.stake.val).sum = total.val
    omega
  · change custodyZ.val + z.val = s.custodyZ.val
    rw [hcustodyZ.1]
    exact Nat.sub_add_cancel hcustodyZ.2
  · change custodyA.val + a.val = s.custodyA.val
    rw [hcustodyA.1]
    exact Nat.sub_add_cancel hcustodyA.2
  · intro owner hne
    change slot Position.owner owner positions = _
    rw [hpositions.put, slot_put_ne (fun p hp => renewed_owner hp) hne, hsplit.other_rest hne]
  · have hlength := hsplit.perm.length_eq
    rw [List.length_append] at hlength
    exact hpositions.capacity.trans (max_le_max (by omega) le_rfl)

end Settlement

/-! ## Whole events -/

theorem validate_ends {s : State} (h : Sound s) (capacity : U32) :
    Ends (fun _ : Unit => s.positions.length ≤ capacity.val) Lawful (validate s capacity).result := by
  by_cases hcapacity : s.positions.length ≤ capacity.val
  · rw [validate_sound h hcapacity]
    exact hcapacity
  · rw [validate, result_bind, result_failIf, ensure, if_neg (by simpa using hcapacity)]
    intro hbreach
    cases hbreach

theorem feeEvent_sound {s : State} (h : Sound s) (zusd agrs : U128) (capacity : U32) :
    Ends (Received s zusd agrs) Lawful (feeEvent s zusd agrs capacity).result := by
  unfold feeEvent
  apply ends_bind (validate_ends h capacity)
  intro _ _
  apply ends_bind (receive_sound h zusd agrs)
  intro post hpost
  apply ends_bind (validate_ends hpost.sound capacity)
  intro _ _
  exact hpost

theorem change_sound {s : State} (h : Sound s) (actor : Id) (command : Command) (wallet : U128) (capacity : U32) :
    Ends (Settled s actor capacity) Lawful (change s actor command wallet capacity).result := by
  unfold change
  apply ends_bind (validate_ends h capacity)
  intro _ _
  apply ends_bind (settle_sound h actor command wallet capacity)
  intro out hout
  apply ends_bind (validate_ends hout.sound capacity)
  intro _ _
  exact hout

theorem add_zero_fit (x : U128) : (add x .zero).result = .ok x := by
  rw [add_fit, Unsigned.val_zero, Nat.add_zero, fit_ok x.fits]

theorem sub_zero_fit (x : U128) : (sub x .zero).result = .ok x := by
  rw [sub_fit (Nat.zero_le _)]
  exact congrArg Except.ok (Unsigned.ext (Nat.sub_zero _))

theorem settle_claim {s : State} (h : Sound s) {actor : Id} (wallet : U128)
    (hp : slot Position.owner actor s.positions = some p) (hcapacity : s.positions.length ≤ capacity.val) :
    ∃ out, (settle s actor .claim wallet capacity).result = .ok out ∧ Gains s p out.zusdGain out.agrsGain := by
  have hsplit := @search_split s actor h
  unfold settle
  rw [result_bind, result_failIf, ensure_bind (by simp)]
  dsimp only
  generalize ((binarySearch Position.owner actor s.positions).toOption.map fun i => s.positions[i]) = old at hsplit ⊢
  generalize (match (binarySearch Position.owner actor s.positions).toOption with
    | some i => s.positions.eraseIdx i
    | none => s.positions) = rest at hsplit ⊢
  obtain rfl : old = some p := hsplit.old.trans hp
  have hroom : rest.length < capacity.val := by
    have hlength := hsplit.perm.length_eq
    rw [Option.toList_some, List.singleton_append, List.length_cons] at hlength
    omega
  have hmem := hsplit.mem_old rfl
  have hstake : Unsigned.zero < p.stake := Unsigned.lt_def.2 (h.staked p hmem)
  obtain ⟨z, a, hgains, hg⟩ := h.gains hmem
  refine ⟨⟨{ s with
    positions := rest.insertIdx (rest.takeWhile (·.owner < actor)).length ⟨actor, p.stake, s.fZ, s.fA⟩
    custodyZ := s.custodyZ.sub z
    custodyA := s.custodyA.sub a }, .zero, .zero, z, a⟩, ?_, hg⟩
  rw [result_bind, result_failIf, ensure_bind (by simp), result_bind, result_failIf,
    ensure_bind (fun hlt => absurd (Unsigned.lt_def.1 hlt) (Nat.not_lt_zero _)), result_bind, oldGains, hgains,
    ok_bind]
  change (add p.stake .zero >>= _).result = _
  rw [result_bind, add_zero_fit, ok_bind]
  change (sub p.stake .zero >>= _).result = _
  rw [result_bind, sub_zero_fit, ok_bind, result_bind, result_charge, ok_bind, result_bind, replace,
    if_pos hstake, result_bind, result_failIf, ensure_bind (not_le.2 hroom)]
  change (add s.total .zero >>= _).result = _
  rw [result_bind, add_zero_fit, ok_bind]
  change (sub s.total .zero >>= _).result = _
  rw [result_bind, sub_zero_fit, ok_bind, result_bind, sub_fit hg.z_le, ok_bind, result_bind,
    sub_fit hg.a_le]
  rfl

/-- **Claims.** The owner of a position can claim in every sound state, and is paid both gains. -/
theorem change_claim {s : State} (h : Sound s) {actor : Id} (wallet : U128)
    (hp : slot Position.owner actor s.positions = some p) (hcapacity : s.positions.length ≤ capacity.val) :
    ∃ out, (change s actor .claim wallet capacity).result = .ok out ∧ Gains s p out.zusdGain out.agrsGain := by
  obtain ⟨out, hout, hgains⟩ := settle_claim h wallet hp hcapacity
  have hsettled := settle_sound h actor .claim wallet capacity
  rw [hout] at hsettled
  refine ⟨out, ?_, hgains⟩
  rw [change, result_bind, validate_sound h hcapacity, ok_bind, result_bind, hout, ok_bind,
    result_bind, validate_sound hsettled.sound (hsettled.capacity.trans (max_le hcapacity le_rfl))]
  rfl

/-! ## Runs -/

/-- the staking state of genesis -/
def State.empty : State := ⟨.zero, .zero, .zero, .zero, .zero, .zero, .zero, []⟩

/-- a call of either relation, with all that its caller chooses -/
inductive Event where
  | fees (zusd agrs : U128) (capacity : U32) (limits : Lane → ℕ)
  | command (actor : Id) (command : Command) (wallet : U128) (capacity : U32) (limits : Lane → ℕ)

/-- a state with the books of its run: what was paid to stakers, and the fees that came while stakes were positive -/
structure Books where
  state : State
  paidZ : ℕ
  paidA : ℕ
  feesZ : ℕ
  feesA : ℕ
deriving DecidableEq

/-- the books after a fee event that was accepted -/
def Books.collect (b : Books) (zusd agrs : U128) (s : State) : Books :=
  if b.state.total = .zero then { b with state := s }
  else { b with state := s, feesZ := b.feesZ + zusd.val, feesA := b.feesA + agrs.val }

/-- the books after a command that was accepted -/
def Books.pay (b : Books) (out : Outcome) : Books :=
  { b with state := out.state, paidZ := b.paidZ + out.zusdGain.val, paidA := b.paidA + out.agrsGain.val }

/-- an event that is refused changes nothing -/
def Books.step (b : Books) : Event → Books
  | .fees zusd agrs capacity limits => match (run limits (feeEvent b.state zusd agrs capacity)).1 with
    | .ok s => b.collect zusd agrs s
    | .error _ => b
  | .command actor command wallet capacity limits =>
    match (run limits (change b.state actor command wallet capacity)).1 with
    | .ok out => b.pay out
    | .error _ => b

def Books.after (b : Books) (events : List Event) : Books := events.foldl Books.step b

def Books.empty : Books := ⟨.empty, 0, 0, 0, 0⟩

/-- an event that is not a command of an owner -/
def Event.Spares (owner : Id) : Event → Prop
  | .fees .. => True
  | .command actor .. => actor ≠ owner

/-- the state is sound, and what came in is in custody or was paid -/
structure Audited (b : Books) : Prop where
  sound : Sound b.state
  z : b.state.custodyZ.val + b.paidZ = b.state.zeroZ.val + b.feesZ
  a : b.state.custodyA.val + b.paidA = b.state.zeroA.val + b.feesA

/-- the position of an owner is kept, and its gains do not shrink -/
structure Kept (owner : Id) (s s' : State) : Prop where
  slot : slot Position.owner owner s'.positions = slot Position.owner owner s.positions
  z_le : s.fZ.val ≤ s'.fZ.val
  a_le : s.fA.val ≤ s'.fA.val

theorem Kept.trans {owner : Id} {s s' s'' : State} (h : Kept owner s s') (h' : Kept owner s' s'') : Kept owner s s'' :=
  ⟨h'.slot.trans h.slot, h.z_le.trans h'.z_le, h.a_le.trans h'.a_le⟩

theorem empty_audited : Audited .empty := by
  refine ⟨⟨Increasing.nil, by simp [Books.empty, State.empty], rfl, ⟨?_, ?_⟩, ⟨?_, ?_⟩⟩, rfl, rfl⟩
  · exact List.forall_mem_nil _
  · exact Nat.zero_le _
  · exact List.forall_mem_nil _
  · exact Nat.zero_le _

variable {b : Books}

theorem collect_audited (h : Audited b) {zusd agrs : U128} {s : State}
    (hs : Received b.state zusd agrs s) : Audited (b.collect zusd agrs s) := by
  have hz := h.z
  have ha := h.a
  have hzeroZ := hs.zeroZ
  have hzeroA := hs.zeroA
  have hcustodyZ := hs.custodyZ
  have hcustodyA := hs.custodyA
  unfold Books.collect
  by_cases ht : b.state.total = .zero
  · rw [if_pos ht] at hzeroZ hzeroA ⊢
    refine ⟨hs.sound, ?_, ?_⟩
    · dsimp only
      omega
    · dsimp only
      omega
  · rw [if_neg ht] at hzeroZ hzeroA ⊢
    refine ⟨hs.sound, ?_, ?_⟩
    · dsimp only
      omega
    · dsimp only
      omega

theorem pay_audited (h : Audited b) {actor : Id} {out : Outcome}
    (hout : Settled b.state actor capacity out) : Audited (b.pay out) := by
  have hz := h.z
  have ha := h.a
  have hcustodyZ := hout.custodyZ
  have hcustodyA := hout.custodyA
  refine ⟨hout.sound, ?_, ?_⟩
  · simp only [Books.pay, hout.zeroZ]
    omega
  · simp only [Books.pay, hout.zeroA]
    omega

/-- **One event.** The books stay audited, and a position that is spared is kept. -/
theorem step_audited (h : Audited b) (event : Event) :
    Audited (b.step event) ∧ ∀ owner, event.Spares owner → Kept owner b.state (b.step event).state := by
  cases event with
  | fees zusd agrs capacity limits =>
    have hends := feeEvent_sound h.sound zusd agrs capacity
    unfold Books.step
    dsimp only
    cases hrun : (run limits (feeEvent b.state zusd agrs capacity)).1 with
    | error e => exact ⟨h, fun owner _ => ⟨rfl, le_rfl, le_rfl⟩⟩
    | ok s =>
      rw [run_ok _ _ hrun] at hends
      refine ⟨collect_audited h hends, fun owner _ => ?_⟩
      have hstate : (b.collect zusd agrs s).state = s := by
        unfold Books.collect
        split_ifs <;> rfl
      dsimp only
      rw [hstate]
      exact ⟨by rw [hends.positions], hends.z_le, hends.a_le⟩
  | command actor command wallet capacity limits =>
    have hends := change_sound h.sound actor command wallet capacity
    unfold Books.step
    dsimp only
    cases hrun : (run limits (change b.state actor command wallet capacity)).1 with
    | error e => exact ⟨h, fun owner _ => ⟨rfl, le_rfl, le_rfl⟩⟩
    | ok out =>
      rw [run_ok _ _ hrun] at hends
      refine ⟨pay_audited h hends, fun owner hspares => ?_⟩
      exact ⟨hends.other owner (Ne.symm hspares), by rw [← hends.fZ]; rfl, by rw [← hends.fA]; rfl⟩

/-- **Runs.** Every run keeps the books audited and the positions that it spares. -/
theorem after_audited (h : Audited b) (events : List Event) :
    Audited (b.after events) ∧
      ∀ owner, (∀ event ∈ events, event.Spares owner) → Kept owner b.state (b.after events).state := by
  induction events generalizing b with
  | nil => exact ⟨h, fun owner _ => ⟨rfl, le_rfl, le_rfl⟩⟩
  | cons event events ih =>
    have hstep := step_audited h event
    have hrest := ih hstep.1
    refine ⟨hrest.1, fun owner hspares => ?_⟩
    rw [List.forall_mem_cons] at hspares
    exact (hstep.2 owner hspares.1).trans (hrest.2 owner hspares.2)

/-! ## Solvency -/

/-- one side of the staking books as exact fractions: what is set aside and what all positions are owed -/
def entitled (f aside : ℕ) (snapshot : Position → Accumulator256) (l : List Position) : ℚ :=
  aside + (l.map fun p => (p.stake.val : ℚ) * ((f : ℚ) - (snapshot p).val) / Q.val).sum

/-- the owner of a position can claim whatever others do first, for no less than the position is owed now -/
def Payable (b : Books) (p : Position) : Prop :=
  ∀ later, (∀ event ∈ later, event.Spares p.owner) → p ∈ (b.after later).state.positions ∧
    ∀ wallet (capacity : U32), (b.after later).state.positions.length ≤ capacity.val →
      ∃ out, (change (b.after later).state p.owner .claim wallet capacity).result = .ok out ∧
        share b.state.fZ p.snapshotZ p ≤ out.zusdGain.val ∧ share b.state.fA p.snapshotA p ≤ out.agrsGain.val

structure Solvent (b : Books) : Prop where
  coveredZ : entitled b.state.fZ.val b.state.zeroZ.val Position.snapshotZ b.state.positions ≤ b.state.custodyZ.val
  coveredA : entitled b.state.fA.val b.state.zeroA.val Position.snapshotA b.state.positions ≤ b.state.custodyA.val
  total : (b.state.positions.map fun p => p.stake.val).sum = b.state.total.val
  feeClosing : ∀ zusd agrs (capacity : U32) post, b.state.positions.length ≤ capacity.val →
    (receive b.state zusd agrs).result = .ok post → (validate post capacity).result = .ok ()
  commandClosing : ∀ actor command wallet (capacity : U32) out, b.state.positions.length ≤ capacity.val →
    (settle b.state actor command wallet capacity).result = .ok out → (validate out.state capacity).result = .ok ()
  feeLawful : ∀ zusd agrs capacity limits,
    (run limits (feeEvent b.state zusd agrs capacity)).1 ≠ .error .conservation
  commandLawful : ∀ actor command wallet capacity limits,
    (run limits (change b.state actor command wallet capacity)).1 ≠ .error .conservation
  gains : ∀ p ∈ b.state.positions, ∃ z a, (gains b.state p).result = .ok (z, a) ∧
    (sub b.state.custodyZ z).result = .ok (b.state.custodyZ.sub z) ∧
    (sub b.state.custodyA a).result = .ok (b.state.custodyA.sub a)
  payable : ∀ p ∈ b.state.positions, Payable b p
  paidZ : b.paidZ ≤ b.feesZ
  paidA : b.paidA ≤ b.feesA

theorem covered_rational {s : State} {f aside custody : ℕ} {snapshot : Position → Accumulator256}
    (h : Backed Q.val f aside custody (claims snapshot s.positions)) :
    entitled f aside snapshot s.positions ≤ custody := by
  have hrational := h.rational (by decide)
  rw [claims, List.map_map] at hrational
  exact hrational

theorem lawful_run {α : Type} {P : α → Prop} {x : Work α} (h : Ends P Lawful x.result) (limits : Lane → ℕ) :
    (run limits x).1 ≠ .error .conservation := by
  intro hbreach
  rcases run_error hbreach with hx | ⟨lane, limit, attempted, hbudget⟩
  · exact h.error_of hx rfl
  · cases hbudget

theorem share_mono {f f' snapshot : Accumulator256} (h : f.val ≤ f'.val) (p : Position) :
    share f snapshot p ≤ share f' snapshot p :=
  Nat.div_le_div_right (Nat.mul_le_mul_left _ (Nat.sub_le_sub_right h _))

theorem Audited.payable (h : Audited b) (hp : p ∈ b.state.positions) : Payable b p := by
  intro later hspares
  obtain ⟨hlater, hkept⟩ := after_audited h later
  have hkeep := hkept p.owner hspares
  have hslot := hkeep.slot.trans ((slot_eq_some h.sound.ordered).2 ⟨hp, rfl⟩)
  refine ⟨slot_mem hslot, fun wallet capacity hcapacity => ?_⟩
  obtain ⟨out, hout, hgains⟩ := change_claim hlater.sound wallet hslot hcapacity
  refine ⟨out, hout, ?_, ?_⟩
  · rw [hgains.z]
    exact share_mono hkeep.z_le p
  · rw [hgains.a]
    exact share_mono hkeep.a_le p

theorem aside_le_custody {f aside custody : ℕ} {l : List Claim} (h : Backed Q.val f aside custody l) :
    aside ≤ custody := by
  have hfloors := h.floors (by decide)
  omega

theorem Audited.solvent (h : Audited b) : Solvent b where
  coveredZ := covered_rational h.sound.z
  coveredA := covered_rational h.sound.a
  total := h.sound.total
  feeClosing := by
    intro zusd agrs capacity post hcapacity hpost
    have hends := receive_sound h.sound zusd agrs
    rw [hpost] at hends
    apply validate_sound hends.sound
    rw [hends.positions]
    exact hcapacity
  commandClosing := by
    intro actor command wallet capacity out hcapacity hout
    have hends := settle_sound h.sound actor command wallet capacity
    rw [hout] at hends
    exact validate_sound hends.sound (hends.capacity.trans (max_le hcapacity le_rfl))
  feeLawful := fun zusd agrs capacity limits => lawful_run (feeEvent_sound h.sound zusd agrs capacity) limits
  commandLawful := fun actor command wallet capacity limits =>
    lawful_run (change_sound h.sound actor command wallet capacity) limits
  gains := by
    intro p hp
    obtain ⟨z, a, hgains, hg⟩ := h.sound.gains hp
    exact ⟨z, a, hgains, sub_fit hg.z_le, sub_fit hg.a_le⟩
  payable := fun p hp => h.payable hp
  paidZ := by
    have hz := h.z
    have haside := aside_le_custody h.sound.z
    omega
  paidA := by
    have ha := h.a
    have haside := aside_le_custody h.sound.a
    omega

/-- **Staking stays solvent.** So are the books of every run from the state of genesis, whoever calls what in which
order. -/
theorem staking_solvent (events : List Event) : Solvent (Books.empty.after events) :=
  (after_audited empty_audited events).1.solvent

/-! ### An owner that stakes 100, sees fees of 50 and 30 and claims them -/

def sampleOwner : Id := ⟨7, by decide⟩
def sampleCapacity : U32 := ⟨5, by decide⟩

def stakedBooks : Books :=
  { Books.empty with
    state := { State.empty with
      total := ⟨100, by decide⟩
      positions := [⟨sampleOwner, ⟨100, by decide⟩, .zero, .zero⟩] } }

def sharedBooks : Books :=
  { stakedBooks with
    state := { stakedBooks.state with
      custodyZ := ⟨50, by decide⟩
      custodyA := ⟨30, by decide⟩
      fZ := ⟨.zero, ⟨500000000000000000, by decide⟩⟩
      fA := ⟨.zero, ⟨300000000000000000, by decide⟩⟩ }
    feesZ := 50
    feesA := 30 }

def claimedBooks : Books :=
  { sharedBooks with
    state := { sharedBooks.state with
      custodyZ := .zero
      custodyA := .zero
      positions := [⟨sampleOwner, ⟨100, by decide⟩, sharedBooks.state.fZ, sharedBooks.state.fA⟩] }
    paidZ := 50
    paidA := 30 }

example : Books.empty.step (.command sampleOwner (.stake ⟨100, by decide⟩) ⟨100, by decide⟩ sampleCapacity
    fun _ => u64Max) = stakedBooks := by decide +kernel

example : stakedBooks.step (.fees ⟨50, by decide⟩ ⟨30, by decide⟩ sampleCapacity fun _ => u64Max) = sharedBooks := by
  decide +kernel

example : sharedBooks.step (.command sampleOwner .claim .zero sampleCapacity fun _ => u64Max) = claimedBooks := by
  decide +kernel

end ZenoFcis.Zusd.Staking
