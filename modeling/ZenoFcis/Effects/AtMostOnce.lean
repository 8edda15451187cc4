/-
Concurrent durable relays on one cell (`effects/durable.rs`): at most one invocation per delivery.

Model:
- a cell of bytes that obeys the contract of `StateStore`: it is loaded, and a commit replaces exactly the expected
  bytes or fails; a failed commit, or one whose process is lost, may or may not have applied;
- any number of relays, each between two waits of its `handle` call; an event moves one of them, so every interleaving
  is a list of events;
- process loss at any point, failed writes, unwinding terminals, reopening.

Events are legal if a report of non-invocation is truthful.

Result: `at_most_once`. The stored bytes repeat, so no relay can know that the cell is the one it read; the argument is
about content. A relay that may reach the terminal for a delivery, or is about to release it, holds that delivery's only
claim, and the cell restores to monitors that hold its key (`Claims`).
-/
import ZenoFcis.Effects.Relay

namespace ZenoFcis.Effects

open Durability

/-- whether this requests a send of `id` -/
def Operation.sends (id : Hash32) : Operation → Bool
  | .send _ delivery => delivery.id == id
  | _ => false

/-- a terminal call that ended, with its evidence; `invoked` is what happened -/
structure Call where
  operation : Operation
  invocation : Invocation
  invoked : Bool
deriving DecidableEq

/-- a call for `id` that may have invoked the effect -/
def Call.spends (id : Hash32) (call : Call) : Bool := call.operation.sends id && call.invocation == .mayHaveInvoked

/-- one open relay, between two waits -/
inductive Slot where
  | idle (relay : Relay)
  | reserving (relay : Relay) (call : Admitted) (bytes : Bytes)
  | ready (relay : Relay) (call : Admitted)
  | calling (relay : Relay) (call : Admitted)
  | releasing (relay : Relay) (call : Admitted) (bytes : Bytes)
deriving DecidableEq

/-- how a commit ends -/
inductive Write where
  | committed
  | failed (applied : Bool)
deriving DecidableEq

/-- whether the commit succeeds, and the cell after it -/
def Write.run (cell expected next : Bytes) : Write → Bool × Bytes
  | committed => if cell = expected then (true, next) else (false, cell)
  | failed applied => (false, if applied = true ∧ cell = expected then next else cell)

/-- what happens to one relay -/
inductive Move where
  | handle (binding : Binding) (operation : Operation)
  | write (write : Write)
  | enter
  | report (report : Handling) (invoked : Bool)
  | unwind (invoked : Bool)
  | done (outcome : Bytes)
  /-- the process is lost, or the handle dropped; its write may have applied, its call may have invoked the effect -/
  | lose (applied invoked : Bool)
deriving DecidableEq

/-- a report of non-invocation is truthful -/
def Move.Truthful : Move → Prop
  | .report handling invoked => handling.invocation = .notInvoked → invoked = false
  | _ => True

instance : DecidablePred Move.Truthful
  | .report handling invoked => inferInstanceAs (Decidable (handling.invocation = .notInvoked → invoked = false))
  | .handle .. | .write _ | .enter | .unwind _ | .done _ | .lose .. => isTrue trivial

/-- the cell, the slot and the ended calls after a move; a move that does not fit the slot does nothing -/
def Slot.step (build : Build) (cell : Bytes) : Slot → Move → Bytes × Option Slot × List Call
  | .idle relay, .handle binding operation =>
    match relay.begin build binding operation with
    | (relay, .returned _) => (cell, some (.idle relay), [])
    | (relay, .reserve call bytes) => (cell, some (.reserving relay call bytes), [])
    | (relay, .forward call) => (cell, some (.ready relay call), [])
  | .idle relay, .done outcome => (cell, some (.idle (relay.done build outcome)), [])
  | .idle _, .lose .. => (cell, none, [])
  | .reserving relay call bytes, .write write =>
    match write.run cell relay.stored bytes with
    | (true, cell) => (cell, some (.ready (relay.reserved call bytes) call), [])
    | (false, cell) => (cell, some (.idle relay), [])
  | .reserving relay _ bytes, .lose applied _ => (((Write.failed applied).run cell relay.stored bytes).2, none, [])
  | .ready relay call, .enter => (cell, some (.calling relay call), [])
  | .ready .., .lose .. => (cell, none, [])
  | .calling relay call, .report report invoked =>
    let ended := [⟨call.operation, report.invocation, invoked⟩]
    match relay.reported build call report with
    | (relay, .returned _) => (cell, some (.idle relay), ended)
    | (relay, .release bytes) => (cell, some (.releasing relay call bytes), ended)
  | .calling relay call, .unwind invoked => (cell, some (.idle relay), [⟨call.operation, .mayHaveInvoked, invoked⟩])
  | .calling _ call, .lose _ invoked => (cell, none, [⟨call.operation, .mayHaveInvoked, invoked⟩])
  | .releasing relay call bytes, .write write =>
    match write.run cell relay.stored bytes with
    | (true, cell) => (cell, some (.idle (relay.released build call bytes)), [])
    | (false, cell) => (cell, some (.idle relay), [])
  | .releasing relay _ bytes, .lose applied _ => (((Write.failed applied).run cell relay.stored bytes).2, none, [])
  | slot, _ => (cell, some slot, [])

/-- the cell, the open relays, and the terminal calls that ended -/
structure System where
  cell : Bytes
  slots : List Slot
  calls : List Call
deriving DecidableEq

inductive Event where
  | «open» (manifest : Manifest)
  | move (index : ℕ) (move : Move)
deriving DecidableEq

def Event.Legal : Event → Prop
  | .open _ => True
  | .move _ moved => moved.Truthful

instance : DecidablePred Event.Legal
  | .open _ => isTrue trivial
  | .move _ moved => inferInstanceAs (Decidable moved.Truthful)

namespace System

variable (build : Build) (scope : Hash32) (policies : List Policy)

def step (s : System) : Event → System
  | .open manifest =>
    match Relay.open build (.ok s.cell) scope policies manifest with
    | .ok relay => { s with slots := s.slots ++ [.idle relay] }
    | .error _ => s
  | .move index move =>
    match s.slots[index]? with
    | none => s
    | some slot =>
      let (cell, slot, calls) := slot.step build s.cell move
      ⟨cell, s.slots.take index ++ slot.toList ++ s.slots.drop (index + 1), s.calls ++ calls⟩

/-- no relay is open yet -/
def initial (cell : Bytes) : System := ⟨cell, [], []⟩

def run (s : System) (events : List Event) : System := events.foldl (step build scope policies) s

end System

/-! ## Claims -/

/-- whether the slot may reach the terminal for `id`, or is about to release it -/
def Slot.claims (id : Hash32) : Slot → Bool
  | .ready _ call | .calling _ call | .releasing _ call _ => call.operation.sends id
  | _ => false

/-- whether the slot's terminal call for `id` is in progress -/
def Slot.invokes (id : Hash32) : Slot → Bool
  | .calling _ call => call.operation.sends id
  | _ => false

/-- the claims on `id`: the calls that may have invoked it, and the slots that still may -/
def System.claims (s : System) (id : Hash32) : ℕ := s.calls.countP (·.spends id) + s.slots.countP (·.claims id)

/-- whether the bytes restore to monitors that hold `id` -/
def Held (build : Build) (scope : Hash32) (policies : List Policy) (cell : Bytes) (id : Hash32) : Prop :=
  ∃ monitors, restore build scope policies cell = .ok monitors ∧ Holds scope monitors id

/-- at most one claim, and only on a held key -/
def Claims (build : Build) (scope : Hash32) (policies : List Policy) (cell : Bytes) (id : Hash32) (count : ℕ) : Prop :=
  count ≤ 1 ∧ (0 < count → Held build scope policies cell id)

section Invariant

variable (build : Build) (scope : Hash32) (policies : List Policy)

/-- an admitted send of the scope: what it found, and what it reserved -/
structure Reservation (call : Admitted) (store : Store) (delivery : Delivery) : Prop where
  operation : call.operation = .send store delivery
  identity : store.identity = scope
  lifetime : Lifetime scope policies call.previous
  allowed : ∀ m ∈ call.previous, m.verdict (.send store delivery) = .allow
  next : call.next = call.previous.map (·.after (.send store delivery))

/-- an admitted request that may be forwarded: a reserved send, or a request that reserves nothing -/
def Forwarded (call : Admitted) : Prop :=
  (∃ store delivery, Reservation scope policies call store delivery) ∨
    call.operation.sendKey = none ∧ call.next = call.previous

/-- what a slot knows; the cell is not mentioned -/
def Slot.Inv : Slot → Prop
  | .idle relay => relay.scope = scope ∧
      (relay.stopped = false → restore build scope policies relay.stored = .ok relay.monitors)
  | .reserving relay call bytes => relay.scope = scope ∧ relay.stopped = true ∧
      restore build scope policies relay.stored = .ok call.previous ∧
      restore build scope policies bytes = .ok call.next ∧
      ∃ store delivery, Reservation scope policies call store delivery
  | .ready relay call | .calling relay call => relay.scope = scope ∧ relay.stopped = true ∧
      relay.monitors = call.next ∧ restore build scope policies relay.stored = .ok call.next ∧
      Forwarded scope policies call
  | .releasing relay call bytes => relay.scope = scope ∧ relay.stopped = true ∧
      restore build scope policies relay.stored = .ok call.next ∧
      restore build scope policies bytes = .ok call.previous ∧
      ∃ store delivery, Reservation scope policies call store delivery

/-- the invariant of every run -/
structure System.Inv (s : System) : Prop where
  slots : ∀ slot ∈ s.slots, slot.Inv build scope policies
  claims : ∀ id, Claims build scope policies s.cell id (s.claims id)
  truthful : ∀ call ∈ s.calls, call.invocation = .notInvoked → call.invoked = false

end Invariant

section Claims

variable {build : Build} {scope : Hash32} {policies : List Policy} {cell bytes : Bytes} {id : Hash32}
  {monitors : List Monitor} {call : Admitted} {store : Store} {delivery : Delivery} {n m : ℕ}

theorem held_iff (h : restore build scope policies bytes = .ok monitors) :
    Held build scope policies bytes id ↔ Holds scope monitors id := by
  constructor
  · intro hheld
    obtain ⟨restored, hrestored, hholds⟩ := hheld
    rw [h] at hrestored
    cases hrestored
    exact hholds
  · intro hholds
    exact ⟨monitors, h, hholds⟩

theorem Claims.mono (hle : n ≤ m) (h : Claims build scope policies cell id m) : Claims build scope policies cell id n :=
  ⟨hle.trans h.1, fun hpos => h.2 (hpos.trans_le hle)⟩

theorem Claims.reserve (hreservation : Reservation scope policies call store delivery)
    (hcell : restore build scope policies cell = .ok call.previous)
    (hbytes : restore build scope policies bytes = .ok call.next) (h : Claims build scope policies cell id n) :
    Claims build scope policies bytes id (n + (call.operation.sends id).toNat) := by
  have hfresh := hreservation.lifetime.fresh hreservation.identity hreservation.allowed
  have hheld : Held build scope policies bytes id ↔ id = delivery.id ∨ Held build scope policies cell id := by
    rw [held_iff hbytes, held_iff hcell, hreservation.next]
    exact hreservation.lifetime.holds_reserve hreservation.identity hreservation.allowed
  rw [hreservation.operation, Operation.sends]
  by_cases hid : delivery.id = id
  · subst hid
    have hzero : n = 0 := by
      by_contra hne
      exact hfresh ((held_iff hcell).1 (h.2 (Nat.pos_of_ne_zero hne)))
    subst hzero
    rw [beq_self_eq_true]
    exact ⟨le_refl 1, fun _ => hheld.2 (Or.inl rfl)⟩
  · rw [beq_eq_false_iff_ne.2 hid]
    exact ⟨h.1, fun hpos => hheld.2 (Or.inr (h.2 hpos))⟩

theorem Claims.release (hreservation : Reservation scope policies call store delivery)
    (hcell : restore build scope policies cell = .ok call.next)
    (hbytes : restore build scope policies bytes = .ok call.previous)
    (h : Claims build scope policies cell id (n + (call.operation.sends id).toNat)) :
    Claims build scope policies bytes id n := by
  rw [hreservation.operation, Operation.sends] at h
  by_cases hid : delivery.id = id
  · rw [hid, beq_self_eq_true] at h
    have hzero : n = 0 := by
      have := h.1
      rw [Bool.toNat_true] at this
      omega
    rw [hzero]
    exact ⟨Nat.zero_le 1, fun hpos => absurd hpos (lt_irrefl 0)⟩
  · rw [beq_eq_false_iff_ne.2 hid] at h
    refine ⟨h.1, fun hpos => ?_⟩
    have hheld := h.2 hpos
    rw [held_iff hcell, hreservation.next,
      hreservation.lifetime.holds_reserve hreservation.identity hreservation.allowed] at hheld
    rcases hheld with rfl | hheld
    · exact absurd rfl hid
    · exact (held_iff hbytes).2 hheld

theorem Write.run_cases (cell expected next : Bytes) (write : Write) :
    write.run cell expected next = (false, cell) ∨
      cell = expected ∧ ∃ done, write.run cell expected next = (done, next) := by
  cases write with
  | committed =>
    by_cases h : cell = expected
    · exact Or.inr ⟨h, true, if_pos h⟩
    · exact Or.inl (if_neg h)
  | failed applied =>
    by_cases h : applied = true ∧ cell = expected
    · exact Or.inr ⟨h.2, false, by rw [run, if_pos h]⟩
    · exact Or.inl (by rw [run, if_neg h])

end Claims

/-! ## One move -/

section Step

variable {build : Build} {scope : Hash32} {policies : List Policy} {cell cell' : Bytes} {slot : Slot}
  {slot' : Option Slot} {calls : List Call} {move : Move}

variable {relay : Relay}

theorem reservation_of_admits {binding : Binding} {store : Store} {delivery : Delivery}
    (hscope : relay.scope = scope) (hrestores : restore build scope policies relay.stored = .ok relay.monitors)
    (h : relay.Admits build binding (.send store delivery)) :
    Reservation scope policies (relay.admitted build binding (.send store delivery)) store delivery where
  operation := rfl
  identity := by
    have := h.inScope
    rw [hscope] at this
    simpa [Operation.store] using this
  lifetime := restore_lifetime hrestores
  allowed := h.allowed
  next := (admit_allow h.allowed).1

/-- what one move keeps: what the slot knows, every claim count, and truthful calls -/
structure Keeps (build : Build) (scope : Hash32) (policies : List Policy) (cell : Bytes) (slot : Slot)
    (after : Bytes × Option Slot × List Call) : Prop where
  inv : ∀ next ∈ after.2.1, next.Inv build scope policies
  claims : ∀ id n, Claims build scope policies cell id (n + (slot.claims id).toNat) →
    Claims build scope policies after.1 id
      (n + after.2.2.countP (·.spends id) + (after.2.1.any (·.claims id)).toNat)
  truthful : ∀ call ∈ after.2.2, call.invocation = .notInvoked → call.invoked = false

theorem Keeps.local {after : Option Slot × List Call} (hinv : ∀ next ∈ after.1, next.Inv build scope policies)
    (hclaims : ∀ id, after.2.countP (·.spends id) + (after.1.any (·.claims id)).toNat ≤ (slot.claims id).toNat)
    (htruthful : ∀ call ∈ after.2, call.invocation = .notInvoked → call.invoked = false) :
    Keeps build scope policies cell slot (cell, after) where
  inv := hinv
  claims := fun id n h => h.mono (by rw [Nat.add_assoc]; exact Nat.add_le_add_left (hclaims id) n)
  truthful := htruthful

theorem no_calls : ∀ call ∈ ([] : List Call), call.invocation = .notInvoked → call.invoked = false :=
  fun _ hcall => absurd hcall List.not_mem_nil

theorem Keeps.same (hinv : slot.Inv build scope policies) :
    Keeps build scope policies cell slot (cell, some slot, []) := by
  refine Keeps.local ?_ (fun id => ?_) no_calls
  · intro next hnext
    cases hnext
    exact hinv
  · rw [List.countP_nil, Nat.zero_add]
    exact le_refl _

theorem Keeps.closed : Keeps build scope policies cell slot (cell, none, []) :=
  Keeps.local (fun next hnext => by cases hnext) (fun id => Nat.zero_le _) no_calls

theorem call_spends_le {call : Call} {id : Hash32} :
    (if call.spends id = true then 1 else 0) ≤ (call.operation.sends id).toNat := by
  rw [Call.spends]
  cases call.operation.sends id with
  | false => exact le_refl 0
  | true =>
    split
    · exact le_refl 1
    · exact Nat.zero_le 1

theorem Keeps.ended {call : Call} (hinv : (Slot.idle relay).Inv build scope policies)
    (hclaims : ∀ id, slot.claims id = call.operation.sends id)
    (htruthful : call.invocation = .notInvoked → call.invoked = false) :
    Keeps build scope policies cell slot (cell, some (.idle relay), [call]) := by
  refine Keeps.local ?_ (fun id => ?_) ?_
  · intro next hnext
    cases hnext
    exact hinv
  · rw [hclaims, List.countP_singleton]
    exact call_spends_le
  · intro x hx
    rw [List.mem_singleton.1 hx]
    exact htruthful

theorem idle_step (hinv : (Slot.idle relay).Inv build scope policies) :
    Keeps build scope policies cell (.idle relay) (Slot.step build cell (.idle relay) move) := by
  obtain ⟨hscope, hrestores⟩ := hinv
  cases move with
  | handle binding operation =>
    unfold Slot.step
    dsimp only
    rcases hbegin : relay.begin build binding operation with ⟨relay', begun⟩
    cases begun with
    | returned result =>
      obtain ⟨hscope', hstored, hmonitors, hlive⟩ := Relay.begin_returned hbegin
      refine Keeps.local ?_ (fun id => le_refl _) no_calls
      intro next hnext
      cases hnext
      refine ⟨hscope'.trans hscope, fun hstopped => ?_⟩
      rw [hstored, hmonitors]
      exact hrestores (hlive hstopped)
    | reserve call bytes =>
      obtain ⟨hadmits, rfl, rfl, ⟨store, delivery, rfl⟩, hcheckpoint⟩ := Relay.begin_reserve hbegin
      have hrestores := hrestores hadmits.live
      have hreservation := reservation_of_admits hscope hrestores hadmits
      have hnext := hreservation.lifetime.reserve hreservation.identity hreservation.allowed
      rw [← hreservation.next] at hnext
      refine Keeps.local ?_ (fun id => le_refl _) no_calls
      intro next hmem
      cases hmem
      rw [hscope] at hcheckpoint
      exact ⟨hscope, rfl, hrestores, restore_checkpoint hnext hcheckpoint, store, delivery, hreservation⟩
    | forward call =>
      obtain ⟨hadmits, rfl, rfl, hkey⟩ := Relay.begin_forward hbegin
      have hrestores := hrestores hadmits.live
      have hsame : (relay.admitted build binding operation).next = relay.monitors := (admit_other hkey).1
      refine Keeps.local ?_ (fun id => ?_) no_calls
      · intro next hmem
        cases hmem
        exact ⟨hscope, rfl, rfl, by rw [hsame]; exact hrestores, Or.inr ⟨hkey, hsame⟩⟩
      · cases operation with
        | send => cases hkey
        | _ => exact le_refl _
  | done outcome =>
    refine Keeps.local ?_ (fun id => le_refl _) no_calls
    intro next hnext
    cases hnext
    exact ⟨hscope, hrestores⟩
  | lose applied invoked => exact Keeps.closed
  | _ => exact Keeps.same ⟨hscope, hrestores⟩

theorem reserving_step {call : Admitted} {bytes : Bytes}
    (hinv : (Slot.reserving relay call bytes).Inv build scope policies) :
    Keeps build scope policies cell (.reserving relay call bytes)
      (Slot.step build cell (.reserving relay call bytes) move) := by
  obtain ⟨hscope, hstopped, hstored, hbytes, store, delivery, hreservation⟩ := hinv
  have hidle : (Slot.idle relay).Inv build scope policies :=
    ⟨hscope, fun hlive => by rw [hstopped] at hlive; cases hlive⟩
  have hready : (Slot.ready (relay.reserved call bytes) call).Inv build scope policies :=
    ⟨hscope, hstopped, rfl, hbytes, Or.inl ⟨store, delivery, hreservation⟩⟩
  have hclaims : ∀ id n, Claims build scope policies relay.stored id n →
      Claims build scope policies bytes id (n + (call.operation.sends id).toNat) :=
    fun id n h => h.reserve hreservation hstored hbytes
  cases move with
  | write write =>
    unfold Slot.step
    dsimp only
    rcases write.run_cases cell relay.stored bytes with hrun | ⟨rfl, done, hrun⟩
    · rw [hrun]
      refine Keeps.local ?_ (fun id => le_refl _) no_calls
      intro next hnext
      cases hnext
      exact hidle
    · rw [hrun]
      cases done with
      | true => exact ⟨fun next hnext => by cases hnext; exact hready, fun id n h => hclaims id n h, no_calls⟩
      | false =>
        exact ⟨fun next hnext => by cases hnext; exact hidle,
          fun id n h => (hclaims id n h).mono (Nat.le_add_right _ _), no_calls⟩
  | lose applied invoked =>
    unfold Slot.step
    dsimp only
    rcases (Write.failed applied).run_cases cell relay.stored bytes with hrun | ⟨rfl, done, hrun⟩
    · rw [hrun]
      exact Keeps.closed
    · rw [hrun]
      exact ⟨fun next hnext => (by cases hnext), fun id n h => (hclaims id n h).mono (Nat.le_add_right _ _), no_calls⟩
  | _ => exact Keeps.same ⟨hscope, hstopped, hstored, hbytes, store, delivery, hreservation⟩

theorem ready_step {call : Admitted} (hinv : (Slot.ready relay call).Inv build scope policies) :
    Keeps build scope policies cell (.ready relay call) (Slot.step build cell (.ready relay call) move) := by
  cases move with
  | enter =>
    refine Keeps.local ?_ (fun id => ?_) no_calls
    · intro next hnext
      cases hnext
      exact hinv
    · rw [List.countP_nil, Nat.zero_add]
      exact le_refl _
  | lose applied invoked => exact Keeps.closed
  | _ => exact Keeps.same hinv

theorem calling_step {call : Admitted} (hinv : (Slot.calling relay call).Inv build scope policies)
    (htruthful : move.Truthful) :
    Keeps build scope policies cell (.calling relay call) (Slot.step build cell (.calling relay call) move) := by
  have hall := hinv
  obtain ⟨hscope, hstopped, hmonitors, hstored, hforwarded⟩ := hinv
  cases move with
  | report report invoked =>
    unfold Slot.step
    dsimp only
    rcases hreported : relay.reported build call report with ⟨relay', reported⟩
    cases reported with
    | returned result =>
      obtain ⟨hscope', hstored', hlive⟩ := Relay.reported_returned hreported
      refine Keeps.ended ⟨hscope'.trans hscope, fun hstopped' => ?_⟩ (fun id => rfl) htruthful
      rw [hstored', hstored]
      rcases hlive hstopped' hstopped with h | ⟨hkey, h⟩
      · rw [h, hmonitors]
      · rw [h]
        rcases hforwarded with ⟨store, delivery, hreservation⟩ | ⟨-, hsame⟩
        · rw [hreservation.operation] at hkey
          cases hkey
        · rw [hsame]
    | release bytes =>
      obtain ⟨rfl, hreleased, store, delivery, hsend, hcheckpoint⟩ := Relay.reported_release hreported
      rcases hforwarded with ⟨store', delivery', hreservation⟩ | ⟨hkey, -⟩
      · have hoperation := hreservation.operation
        rw [hsend] at hoperation
        cases hoperation
        rw [hmonitors, hscope, hreservation.next] at hcheckpoint
        have hbytes := restore_release hreservation.lifetime hreservation.identity hreservation.allowed hcheckpoint
        have hnot : report.invocation = .notInvoked := (of_decide_eq_true hreleased).2
        refine Keeps.local ?_ (fun id => ?_) ?_
        · intro next hnext
          cases hnext
          exact ⟨hscope, hstopped, hstored, hbytes, store, delivery, hreservation⟩
        · rw [List.countP_singleton, Call.spends, hnot]
          rw [show (Invocation.notInvoked == Invocation.mayHaveInvoked) = false from rfl, Bool.and_false, if_neg nofun,
            Nat.zero_add]
          exact le_refl _
        · intro x hx
          rw [List.mem_singleton.1 hx]
          exact htruthful
      · rw [hsend] at hkey
        cases hkey
  | unwind invoked =>
    exact Keeps.ended ⟨hscope, fun hlive => by rw [hstopped] at hlive; cases hlive⟩ (fun id => rfl) nofun
  | lose applied invoked =>
    refine Keeps.local (fun next hnext => by cases hnext) (fun id => ?_) ?_
    · rw [List.countP_singleton]
      exact @call_spends_le ⟨call.operation, .mayHaveInvoked, invoked⟩ _
    · intro x hx
      rw [List.mem_singleton.1 hx]
      exact nofun
  | _ => exact Keeps.same hall

theorem releasing_step {call : Admitted} {bytes : Bytes}
    (hinv : (Slot.releasing relay call bytes).Inv build scope policies) :
    Keeps build scope policies cell (.releasing relay call bytes)
      (Slot.step build cell (.releasing relay call bytes) move) := by
  have hall := hinv
  obtain ⟨hscope, hstopped, hstored, hbytes, store, delivery, hreservation⟩ := hinv
  have hidle : (Slot.idle relay).Inv build scope policies :=
    ⟨hscope, fun hlive => by rw [hstopped] at hlive; cases hlive⟩
  have hreleased : (Slot.idle (relay.released build call bytes)).Inv build scope policies := by
    refine ⟨by simpa [Relay.released, Relay.finish] using hscope, fun _ => ?_⟩
    simpa [Relay.released, Relay.finish] using hbytes
  have hclaims : ∀ id n, Claims build scope policies relay.stored id (n + (call.operation.sends id).toNat) →
      Claims build scope policies bytes id n := fun id n h => h.release hreservation hstored hbytes
  cases move with
  | write write =>
    unfold Slot.step
    dsimp only
    rcases write.run_cases cell relay.stored bytes with hrun | ⟨rfl, done, hrun⟩
    · rw [hrun]
      refine Keeps.local ?_ (fun id => Nat.zero_le _) no_calls
      intro next hnext
      cases hnext
      exact hidle
    · rw [hrun]
      cases done with
      | true => exact ⟨fun next hnext => by cases hnext; exact hreleased, fun id n h => hclaims id n h, no_calls⟩
      | false => exact ⟨fun next hnext => by cases hnext; exact hidle, fun id n h => hclaims id n h, no_calls⟩
  | lose applied invoked =>
    unfold Slot.step
    dsimp only
    rcases (Write.failed applied).run_cases cell relay.stored bytes with hrun | ⟨rfl, done, hrun⟩
    · rw [hrun]
      exact Keeps.closed
    · rw [hrun]
      exact ⟨fun next hnext => (by cases hnext), fun id n h => hclaims id n h, no_calls⟩
  | _ => exact Keeps.same hall

theorem slot_step (hinv : slot.Inv build scope policies) (htruthful : move.Truthful) :
    Keeps build scope policies cell slot (slot.step build cell move) := by
  cases slot with
  | idle => exact idle_step hinv
  | reserving => exact reserving_step hinv
  | ready => exact ready_step hinv
  | calling => exact calling_step hinv htruthful
  | releasing => exact releasing_step hinv

end Step

/-! ## Every run -/

section Run

variable (build : Build) (scope : Hash32) (policies : List Policy)

theorem opened_inv {loaded : Except Error Bytes} {manifest : Manifest} {relay : Relay}
    (h : Relay.open build loaded scope policies manifest = .ok relay) : (Slot.idle relay).Inv build scope policies := by
  rw [Relay.open] at h
  obtain ⟨stored, -, h⟩ := Lib.Except.bind_eq_ok.1 h
  obtain ⟨monitors, hmonitors, h⟩ := Lib.Except.bind_eq_ok.1 h
  obtain ⟨_, _, h⟩ := Lib.Except.bind_eq_ok.1 h
  cases h
  exact ⟨rfl, fun _ => hmonitors⟩

theorem initial_inv (cell : Bytes) : (System.initial cell).Inv build scope policies where
  slots := fun _ hslot => absurd hslot List.not_mem_nil
  claims := fun _ => ⟨Nat.zero_le 1, fun hpos => absurd hpos (lt_irrefl 0)⟩
  truthful := no_calls

theorem step_inv {s : System} (hinv : s.Inv build scope policies) {event : Event} (hlegal : event.Legal) :
    (s.step build scope policies event).Inv build scope policies := by
  cases event with
  | «open» manifest =>
    rw [System.step]
    split
    next relay hopen =>
      refine ⟨?_, fun id => ?_, hinv.truthful⟩
      · intro slot hslot
        rcases List.mem_append.1 hslot with hslot | hslot
        · exact hinv.slots slot hslot
        · rw [List.mem_singleton.1 hslot]
          exact opened_inv build scope policies hopen
      · have hclaims := hinv.claims id
        rw [System.claims] at hclaims ⊢
        rw [List.countP_append, List.countP_singleton]
        exact hclaims
    · exact hinv
  | move index move =>
    rw [System.step]
    split
    · exact hinv
    next slot hslot =>
      have hsplit : s.slots = s.slots.take index ++ slot :: s.slots.drop (index + 1) := by
        obtain ⟨hindex, rfl⟩ := List.getElem?_eq_some_iff.1 hslot
        rw [List.cons_getElem_drop_succ, List.take_append_drop]
      have hkeeps := @slot_step _ _ _ s.cell _ _ (hinv.slots slot (List.mem_of_getElem? hslot)) hlegal
      rcases hstep : slot.step build s.cell move with ⟨cell, slot', calls⟩
      rw [hstep] at hkeeps
      refine ⟨?_, fun id => ?_, ?_⟩
      · intro x hx
        rcases List.mem_append.1 hx with hx | hx
        · rcases List.mem_append.1 hx with hx | hx
          · exact hinv.slots x (List.mem_of_mem_take hx)
          · exact hkeeps.inv x (Option.mem_toList.1 hx)
        · exact hinv.slots x (List.mem_of_mem_drop hx)
      · have hclaims := hinv.claims id
        have hslots : s.slots.countP (·.claims id) = (s.slots.take index).countP (·.claims id) +
            ((slot.claims id).toNat + (s.slots.drop (index + 1)).countP (·.claims id)) := by
          conv => lhs; rw [hsplit]
          rw [List.countP_append, List.countP_cons]
          cases slot.claims id <;> simp [Nat.add_comm]
        have hslot' : slot'.toList.countP (·.claims id) = (slot'.any (·.claims id)).toNat := by
          cases slot' with
          | none => rfl
          | some slot' => cases hc : slot'.claims id <;> simp [hc]
        have hnext := hkeeps.claims id (s.calls.countP (·.spends id) + ((s.slots.take index).countP (·.claims id) +
          (s.slots.drop (index + 1)).countP (·.claims id)))
        dsimp only at hnext
        rw [System.claims] at hclaims ⊢
        rw [List.countP_append, List.countP_append, List.countP_append, hslot']
        refine (hnext (hclaims.mono ?_)).mono ?_
        · rw [hslots]
          omega
        · omega
      · intro x hx
        rcases List.mem_append.1 hx with hx | hx
        · exact hinv.truthful x hx
        · exact hkeeps.truthful x hx

theorem run_inv {s : System} (hinv : s.Inv build scope policies) {events : List Event}
    (hlegal : ∀ event ∈ events, event.Legal) : (s.run build scope policies events).Inv build scope policies := by
  induction events generalizing s with
  | nil => exact hinv
  | cons event events ih =>
    exact ih (step_inv build scope policies hinv (hlegal event List.mem_cons_self))
      fun e he => hlegal e (List.mem_cons_of_mem _ he)

/-- whether the bytes restore to monitors that refuse every send of `id` in the scope -/
def Refuses (cell : Bytes) (id : Hash32) : Prop :=
  ∃ monitors, restore build scope policies cell = .ok monitors ∧
    ∀ store delivery, store.identity = scope → delivery.id = id →
      ∃ code, (admitOperation build monitors (.send store delivery)).2.rejection = some code

theorem refuses_of_held {cell : Bytes} {id : Hash32} (h : Held build scope policies cell id) :
    Refuses build scope policies cell id := by
  obtain ⟨monitors, hrestore, hheld⟩ := h
  refine ⟨monitors, hrestore, ?_⟩
  intro store delivery hscope hid
  subst hid
  exact (restore_lifetime hrestore).refuses hscope hheld

/-- **At most one invocation.** From any cell and through every legal run of any number of relays: at most one terminal
call for a delivery may have invoked its effect, calls in progress included; at most one did; and while a terminal is
entered for it, the cell restores to monitors that refuse it. -/
theorem at_most_once (cell : Bytes) {events : List Event} (hlegal : ∀ event ∈ events, event.Legal) (id : Hash32) :
    let s := (System.initial cell).run build scope policies events
    s.calls.countP (·.spends id) + s.slots.countP (·.invokes id) ≤ 1 ∧
      s.calls.countP (fun call => call.operation.sends id && call.invoked) ≤ 1 ∧
      ∀ slot ∈ s.slots, slot.invokes id = true → Refuses build scope policies s.cell id := by
  intro s
  have hinv : s.Inv build scope policies := run_inv build scope policies (initial_inv build scope policies cell) hlegal
  have hclaims := hinv.claims id
  have hinvokes : ∀ slot : Slot, slot.invokes id = true → slot.claims id = true := by
    intro slot h
    cases slot with
    | calling => exact h
    | _ => cases h
  have hle : s.slots.countP (·.invokes id) ≤ s.slots.countP (·.claims id) :=
    List.countP_mono_left fun slot _ h => hinvokes slot h
  refine ⟨?_, ?_, ?_⟩
  · exact (Nat.add_le_add_left hle _).trans hclaims.1
  · have hspends : s.calls.countP (fun call => call.operation.sends id && call.invoked) ≤
        s.calls.countP (·.spends id) := by
      refine List.countP_mono_left fun call hcall h => ?_
      rw [Bool.and_eq_true] at h
      rw [Call.spends, h.1, Bool.true_and, beq_iff_eq]
      by_contra hne
      have hnot : call.invocation = .notInvoked := by
        cases hc : call.invocation with
        | notInvoked => rfl
        | mayHaveInvoked => exact absurd hc hne
      rw [hinv.truthful call hcall hnot] at h
      cases h.2
    exact hspends.trans ((Nat.le_add_right _ _).trans hclaims.1)
  · intro slot hslot hin
    refine refuses_of_held build scope policies (hclaims.2 ?_)
    have hpos : 0 < s.slots.countP (·.claims id) := List.countP_pos_iff.2 ⟨slot, hslot, hinvokes slot hin⟩
    exact hpos.trans_le (Nat.le_add_left _ _)

end Run

section Example

/-- constant digests -/
def plainBuild : Build := ⟨fun _ => Hash32.zero, Hash32.zero, Hash32.zero, Hash32.zero, Hash32.zero⟩

/-- a manifest that names nothing -/
def plainManifest : Manifest :=
  { registry := Hash32.zero, program := Hash32.zero, stack := [], schedule := [], initial := Hash32.zero, start := [],
    implementations := [], configuration := [], seed := 0, policies := [] }

def plainDelivery : Delivery := ⟨Hash32.zero, 1, 0, 0, [], [], Hash32.zero⟩

def plainSend : Operation := .send ⟨Hash32.zero, 1⟩ plainDelivery

/-- two relays on a fresh lifetime: one reserves and reaches the terminal, then the other asks for the same delivery -/
def plainEvents : List Event :=
  [.open plainManifest, .move 0 (.handle (Binding.of ⟨0, 0⟩ plainSend) plainSend), .open plainManifest,
    .move 0 (.write .committed), .move 1 (.handle (Binding.of ⟨0, 0⟩ plainSend) plainSend), .move 0 .enter,
    .move 1 (.write .committed), .move 0 (.report ⟨.answer (.send (.unknown .io)), .mayHaveInvoked⟩ true)]

def plainCell : Bytes := (Durability.initial plainBuild Hash32.zero [.atMostOne 2]).toOption.getD []

theorem at_most_once_race :
    let s := (System.initial plainCell).run plainBuild Hash32.zero [.atMostOne 2] plainEvents
    s.calls.length = 1 ∧ s.slots.length = 2 ∧
      s.calls.countP (·.spends Hash32.zero) + s.slots.countP (·.invokes Hash32.zero) ≤ 1 := by
  refine ⟨by decide +kernel, by decide +kernel, ?_⟩
  exact (@at_most_once plainBuild Hash32.zero [.atMostOne 2] plainCell plainEvents (by decide) Hash32.zero).1

end Example

end ZenoFcis.Effects
