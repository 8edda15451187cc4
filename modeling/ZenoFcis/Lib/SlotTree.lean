/-
Trees with addressed slots, and partial edits at paths. Edits whose paths do not extend one another commute, so a set of
such edits is one simultaneous update: any order of them gives the same tree.
-/
import Mathlib.Tactic

namespace ZenoFcis.Lib

/-- nodes `ν` with slots `σ`; `κ` is what setting an absent slot may need besides its content -/
structure SlotTree (ν σ κ : Type) where
  child : σ → ν → Option ν
  set : κ → σ → ν → Option ν → Option ν
  Ok : ν → Prop
  child_ok : ∀ {a v w}, Ok v → child a v = some w → Ok w
  set_ok : ∀ {k a v c w}, Ok v → (∀ x ∈ c, Ok x) → set k a v c = some w → Ok w
  child_set : ∀ {k a v c w}, Ok v → set k a v c = some w → child a w = c
  set_present : ∀ {k a v x} c, child a v = some x → ∃ w, set k a v (some c) = some w
  set_set : ∀ {k k' k'' a v x c w} d, Ok v → child a v = some x → set k a v (some c) = some w →
    set k' a w (some d) = set k'' a v (some d)
  child_set_ne : ∀ {k a b v c w}, Ok v → a ≠ b → set k a v c = some w → child b w = child b v
  set_comm : ∀ {k k' a b v c d}, Ok v → a ≠ b →
    (set k a v c).bind (fun w => set k' b w d) = (set k' b v d).bind fun w => set k a w c

/-- a partial edit of a slot: `none` refuses, `some none` leaves it absent -/
abbrev Change (ν : Type) := Option ν → Option (Option ν)

/-- neither path extends the other -/
def Independent {σ : Type} (p q : List σ) : Prop := ¬ p <+: q ∧ ¬ q <+: p

/-- independence is symmetric -/
theorem Independent.symm {σ : Type} {p q : List σ} (h : Independent p q) : Independent q p := ⟨h.2, h.1⟩

theorem Independent.tail {σ : Type} {a : σ} {p q : List σ} (h : Independent (a :: p) (a :: q)) : Independent p q :=
  ⟨fun hp => h.1 (List.cons_prefix_cons.2 ⟨rfl, hp⟩), fun hp => h.2 (List.cons_prefix_cons.2 ⟨rfl, hp⟩)⟩

/-- independent paths have a first step each -/
theorem Independent.cons {σ : Type} {p q : List σ} (h : Independent p q) :
    ∃ a p' b q', p = a :: p' ∧ q = b :: q' := by
  cases p with
  | nil => exact absurd List.nil_prefix h.1
  | cons a p =>
    cases q with
    | nil => exact absurd List.nil_prefix h.2
    | cons b q => exact ⟨a, p, b, q, rfl, rfl⟩

namespace SlotTree

variable {ν σ κ : Type} (t : SlotTree ν σ κ)

/-- the slot at a path -/
def find : List σ → Option ν → Option ν
  | [], s => s
  | a :: p, s => find p (s.bind (t.child a))

/-- the edit of the slot at a path -/
def act (k : κ) : List σ → Change ν → Option ν → Option (Option ν)
  | [], f, s => f s
  | a :: p, f, s => s.bind fun v => (act k p f (t.child a v)).bind fun c => (t.set k a v c).map some

/-- the edit of a whole tree -/
def effect (k : κ) (p : List σ) (f : Change ν) (v : ν) : Option ν := (t.act k p f (some v)).join

variable {t} {k k' : κ} {p q : List σ} {f g : Change ν} {s : Option ν}

theorem act_path {a : σ} : t.act k (a :: p) f = fun s =>
    s.bind fun v => (t.act k p f (t.child a v)).bind fun c => (t.set k a v c).map some := rfl

theorem act_some {a : σ} {v : ν} :
    t.act k (a :: p) f (some v) = (t.act k p f (t.child a v)).bind fun c => (t.set k a v c).map some := rfl

/-- an action sees its slot only -/
theorem act_congr (h : f (t.find p s) = g (t.find p s)) : t.act k p f s = t.act k p g s := by
  induction p generalizing s with
  | nil => exact h
  | cons a p ih =>
    cases s with
    | none => rfl
    | some v =>
      have hchild := @ih (t.child a v) h
      rw [act_some, act_some, hchild]

theorem act_refused (h : f (t.find p s) = none) : t.act k p f s = none := by
  have hconst : t.act k p (fun _ => none) s = none := by
    induction p generalizing s with
    | nil => rfl
    | cons a p ih =>
      cases s with
      | none => rfl
      | some v =>
        have hchild := @ih (t.child a v) h
        rw [act_some, hchild, Option.bind_none]
  rw [act_congr (g := fun _ => none) h, hconst]

theorem act_cons {a : σ} : t.act k (a :: p) f s = (s.bind (t.effect k (a :: p) f)).map some := by
  cases s with
  | none => rfl
  | some v =>
    simp only [effect, act_some, Option.bind_some]
    cases t.act k p f (t.child a v) with
    | none => rfl
    | some c =>
      simp only [Option.bind_some]
      cases t.set k a v c <;> rfl

theorem act_ok (hf : ∀ s s', (∀ x ∈ s, t.Ok x) → f s = some s' → ∀ x ∈ s', t.Ok x) {s' : Option ν}
    (hs : ∀ x ∈ s, t.Ok x) (h : t.act k p f s = some s') : ∀ x ∈ s', t.Ok x := by
  induction p generalizing s s' with
  | nil => exact hf s s' hs h
  | cons a p ih =>
    cases s with
    | none => cases h
    | some v =>
      simp only [act_some, Option.bind_eq_some_iff, Option.map_eq_some_iff] at h
      obtain ⟨c, hc, w, hw, rfl⟩ := h
      have hv : t.Ok v := hs v rfl
      intro x hx
      cases hx
      exact t.set_ok hv (ih (fun y hy => t.child_ok hv hy) hc) hw

theorem act_act_child {a a₁ a₂ : σ} {v x : ν} (j : κ) (hv : t.Ok v) (hx : t.child a v = some x) :
    (t.act k (a :: a₁ :: p) f (some v)).bind (t.act k' (a :: a₂ :: q) g) =
      ((t.act k (a₁ :: p) f (some x)).bind (t.act k' (a₂ :: q) g)).bind fun c => (t.set j a v c).map some := by
  rw [act_cons, Option.bind_some, act_cons (a := a₁), Option.bind_some]
  have hfirst : t.effect k (a :: a₁ :: p) f v = (t.effect k (a₁ :: p) f x).bind fun y => t.set k a v (some y) := by
    unfold effect
    rw [act_some, hx, act_cons, Option.bind_some]
    unfold effect
    cases t.act k (a₁ :: p) f (some x) with
    | none => rfl
    | some y =>
      cases y with
      | none => rfl
      | some y => simp only [Option.join_some, Option.map_some, Option.bind_some]; cases t.set k a v (some y) <;> rfl
  rw [hfirst]
  cases hc : t.effect k (a₁ :: p) f x with
  | none => rfl
  | some y =>
    obtain ⟨w, hw⟩ := @t.set_present k _ _ _ y hx
    simp only [Option.bind_some, hw, Option.map_some]
    rw [act_some, t.child_set hv hw, act_cons, Option.bind_some]
    cases t.effect k' (a₂ :: q) g y with
    | none => rfl
    | some z => simp only [Option.map_some, Option.bind_some, @t.set_set _ _ j _ _ _ _ _ z hv hx hw]

theorem act_comm (hpq : Independent p q) (hs : ∀ x ∈ s, t.Ok x) :
    (t.act k p f s).bind (t.act k' q g) = (t.act k' q g s).bind (t.act k p f) := by
  induction p generalizing q s with
  | nil => exact absurd List.nil_prefix hpq.1
  | cons a p ih =>
    obtain ⟨_, _, b, q, ⟨⟩, rfl⟩ := hpq.cons
    cases s with
    | none => rfl
    | some v =>
      have hv : t.Ok v := hs v rfl
      by_cases hab : a = b
      · subst hab
        have hrest := hpq.tail
        obtain ⟨a₁, p, a₂, q, rfl, rfl⟩ := hrest.cons
        cases hx : t.child a v with
        | none => simp [act_path, hx]
        | some x =>
          have hcomm := ih (s := some x) hrest fun y hy => Option.some.inj hy ▸ t.child_ok hv hx
          rw [act_act_child k hv hx, act_act_child k hv hx, hcomm]
      · simp only [act_path, Option.bind_some]
        cases hc : t.act k p f (t.child a v) with
        | none =>
          simp only [Option.bind_none]
          cases hd : t.act k' q g (t.child b v) with
          | none => rfl
          | some d =>
            simp only [Option.bind_some]
            cases hw : t.set k' b v d with
            | none => rfl
            | some w => simp [t.child_set_ne hv (Ne.symm hab) hw, hc]
        | some c =>
          simp only [Option.bind_some]
          cases hd : t.act k' q g (t.child b v) with
          | none =>
            simp only [Option.bind_none]
            cases hw : t.set k a v c with
            | none => rfl
            | some w => simp [t.child_set_ne hv hab hw, hd]
          | some d =>
            simp only [Option.bind_some]
            have hset := @t.set_comm k k' _ _ _ c d hv hab
            cases hw : t.set k a v c with
            | none =>
              rw [hw, Option.bind_none] at hset
              cases hw' : t.set k' b v d with
              | none => rfl
              | some w' =>
                rw [hw', Option.bind_some] at hset
                simp [t.child_set_ne hv (Ne.symm hab) hw', hc, ← hset]
            | some w =>
              rw [hw, Option.bind_some] at hset
              cases hw' : t.set k' b v d with
              | none =>
                rw [hw', Option.bind_none] at hset
                simp [t.child_set_ne hv hab hw, hd, hset]
              | some w' =>
                rw [hw', Option.bind_some] at hset
                simp [t.child_set_ne hv hab hw, t.child_set_ne hv (Ne.symm hab) hw', hc, hd, hset]

/-! ## Simultaneous edits -/

/-- an edit of a tree at a path -/
structure Edit (ν σ κ : Type) where
  key : κ
  path : List σ
  change : Change ν

/-- edits in order -/
def run (t : SlotTree ν σ κ) : List (Edit ν σ κ) → ν → Option ν
  | [], v => some v
  | e :: edits, v => (t.effect e.key e.path e.change v).bind (run t edits)

/-- a change that puts well-formed trees into its slot -/
def Sound (t : SlotTree ν σ κ) (f : Change ν) : Prop := ∀ s s', (∀ x ∈ s, t.Ok x) → f s = some s' → ∀ x ∈ s', t.Ok x

theorem effect_ok (hf : t.Sound f) {v w : ν} (hv : t.Ok v) (h : t.effect k p f v = some w) : t.Ok w := by
  rw [effect, Option.join_eq_some_iff] at h
  exact act_ok hf (fun x hx => Option.some.inj hx ▸ hv) h w rfl

theorem effect_comm (hpq : Independent p q) {v : ν} (hv : t.Ok v) :
    (t.effect k p f v).bind (t.effect k' q g) = (t.effect k' q g v).bind (t.effect k p f) := by
  obtain ⟨a, p, b, q, rfl, rfl⟩ := hpq.cons
  have hcomm := @act_comm _ _ _ t k k' _ _ f g (some v) hpq fun x hx => Option.some.inj hx ▸ hv
  rw [act_cons, act_cons, Option.bind_some, Option.bind_some] at hcomm
  have hjoin : ∀ (j : κ) (c : σ) (r : List σ) (e : Change ν) (o : Option ν),
      ((o.map some).bind (t.act j (c :: r) e)).join = o.bind (t.effect j (c :: r) e) := by
    intro j c r e o
    cases o <;> rfl
  rw [← hjoin, ← hjoin, hcomm]

/-- **Simultaneous update.** Pairwise independent edits of a well-formed tree have one result, whatever their order. -/
theorem run_perm {l l' : List (Edit ν σ κ)} (hperm : l.Perm l') (hsound : ∀ e ∈ l, t.Sound e.change)
    (hind : l.Pairwise fun e e' => Independent e.path e'.path) {v : ν} (hv : t.Ok v) : t.run l v = t.run l' v := by
  induction hperm generalizing v with
  | nil => rfl
  | cons e hp ih =>
    unfold run
    cases hw : t.effect e.key e.path e.change v with
    | none => rfl
    | some w =>
      exact ih (fun e he => hsound e (List.mem_cons_of_mem _ he)) (List.pairwise_cons.1 hind).2
        (effect_ok (hsound e List.mem_cons_self) hv hw)
  | swap e e' l =>
    have hee : Independent e'.path e.path := (List.pairwise_cons.1 hind).1 e List.mem_cons_self
    unfold run
    calc (t.effect e'.key e'.path e'.change v).bind (fun w => (t.effect e.key e.path e.change w).bind (t.run l))
        = ((t.effect e'.key e'.path e'.change v).bind (t.effect e.key e.path e.change)).bind (t.run l) :=
          Option.bind_assoc _ _ _ |>.symm
      _ = ((t.effect e.key e.path e.change v).bind (t.effect e'.key e'.path e'.change)).bind (t.run l) := by
          rw [effect_comm hee hv]
      _ = _ := Option.bind_assoc _ _ _
  | trans hp hp' ih ih' =>
    rw [ih hsound hind hv]
    refine ih' (fun e he => hsound e (hp.mem_iff.2 he)) ?_ hv
    exact hind.perm hp fun h => h.symm

end SlotTree

end ZenoFcis.Lib
