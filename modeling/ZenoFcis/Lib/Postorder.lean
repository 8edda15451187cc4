/-
Postorder with an explicit stack. An entry of the stack is a node that is met for the first time or a node whose children
are done; a node whose children are done is visited. The walk does not mark what it met, so it ends because no node has
two parents and the root has none.

Results:
- `Forest.run_ends`: the walk ends after at most two steps a node;
- `Finished`: what it lists is what is reachable from the root, once each, children first and the root last;
- `fold_induction`: what holds of every visit over done children holds of the whole order.
-/
import Mathlib.Logic.Relation
import Mathlib.Tactic

namespace ZenoFcis.Lib.Postorder

open Relation

variable {α σ : Type}

structure State (α σ : Type) where
  stack : List (α × Bool)
  order : List α
  acc : σ

section Walk

variable (kids : α → List α) (visit : σ → α → σ)

/-- the last child is on top -/
def next (s : State α σ) : State α σ :=
  match s.stack with
  | [] => s
  | (a, true) :: rest => ⟨rest, s.order ++ [a], visit s.acc a⟩
  | (a, false) :: rest => ⟨(kids a).reverse.map (·, false) ++ (a, true) :: rest, s.order, s.acc⟩

/-- at most so many steps; `none` while the stack is not empty -/
def run : ℕ → State α σ → Option (State α σ)
  | 0, s => if s.stack.isEmpty then some s else none
  | n + 1, s => if s.stack.isEmpty then some s else run n (next kids visit s)

def Child (a b : α) : Prop := b ∈ kids a

/-- every node under a done entry has its children done or above it -/
def Ready (done : List α) : List (α × Bool) → Prop
  | [] => True
  | (a, expanded) :: rest => (expanded = true → ∀ k ∈ kids a, k ∈ done) ∧ Ready (a :: done) rest

/-- one parent each, and none for the root -/
structure Forest (nodes : List α) (root : α) : Prop where
  root_mem : root ∈ nodes
  kids_mem : ∀ a ∈ nodes, ∀ k ∈ kids a, k ∈ nodes
  kids_nodup : ∀ a ∈ nodes, (kids a).Nodup
  unique : ∀ a ∈ nodes, ∀ b ∈ nodes, ∀ k, k ∈ kids a → k ∈ kids b → a = b
  orphan : ∀ a ∈ nodes, root ∉ kids a

/-- the nodes of the order and of the stack -/
def State.met (s : State α σ) : List α := s.order ++ s.stack.map Prod.fst

/-- the invariant of the walk -/
structure Walking (nodes : List α) (root : α) (init : σ) (s : State α σ) : Prop where
  nodup : s.met.Nodup
  mem : ∀ a ∈ s.met, a ∈ nodes
  reached : ∀ a ∈ s.met, ReflTransGen (Child kids) root a
  origin : ∀ a ∈ s.met, a = root ∨ ∃ p, (p ∈ s.order ∨ (p, true) ∈ s.stack) ∧ a ∈ kids p
  ready : Ready kids s.order s.stack
  closed : ∀ pre a post, s.order = pre ++ a :: post → ∀ k ∈ kids a, k ∈ pre
  bottom : (s.stack.map Prod.fst).getLast? = some root ∨ s.stack = [] ∧ s.order.getLast? = some root
  acc : s.acc = s.order.foldl visit init

/-- what a finished walk has listed -/
structure Finished (root : α) (init : σ) (s : State α σ) : Prop where
  nodup : s.order.Nodup
  mem : ∀ a, a ∈ s.order ↔ ReflTransGen (Child kids) root a
  closed : ∀ pre a post, s.order = pre ++ a :: post → ∀ k ∈ kids a, k ∈ pre
  last : s.order.getLast? = some root
  acc : s.acc = s.order.foldl visit init

end Walk

variable {kids : α → List α} {visit : σ → α → σ} {nodes : List α} {root : α} {init : σ} {s : State α σ}

/-! ## Ready stacks -/

theorem Ready.mono {done done' : List α} {stack : List (α × Bool)} (hsub : ∀ a ∈ done, a ∈ done')
    (h : Ready kids done stack) : Ready kids done' stack := by
  induction stack generalizing done done' with
  | nil => trivial
  | cons entry rest ih =>
    obtain ⟨a, expanded⟩ := entry
    refine ⟨fun hexpanded k hk => hsub k (h.1 hexpanded k hk), ih ?_ h.2⟩
    intro b hb
    rcases List.mem_cons.1 hb with rfl | hb
    · exact List.mem_cons_self
    · exact List.mem_cons_of_mem _ (hsub b hb)

variable {rest : List (α × Bool)} {order : List α}

theorem ready_fresh (done ks : List α) (h : Ready kids (ks.reverse ++ done) rest) :
    Ready kids done (ks.map (·, false) ++ rest) := by
  induction ks generalizing done with
  | nil => exact h
  | cons k ks ih =>
    refine ⟨nofun, ih (k :: done) ?_⟩
    rwa [List.reverse_cons, List.append_assoc, List.singleton_append] at h

/-! ## One step -/

theorem met_expand (kids : α → List α) (a : α) (rest : List (α × Bool)) (order : List α) (acc : σ) :
    (State.met ⟨(kids a).reverse.map (·, false) ++ (a, true) :: rest, order, acc⟩).Perm
      (kids a ++ State.met ⟨(a, false) :: rest, order, acc⟩) := by
  simp only [State.met, List.map_append, List.map_map, List.map_cons]
  have hkids : (kids a).reverse.map (Prod.fst ∘ fun k => (k, false)) = (kids a).reverse := List.map_id' _
  rw [hkids, ← List.append_assoc, ← List.append_assoc]
  exact (List.perm_append_comm.trans ((List.reverse_perm _).append_right _)).append_right _

theorem met_done (a : α) (rest : List (α × Bool)) (order : List α) (acc acc' : σ) :
    State.met ⟨rest, order ++ [a], acc'⟩ = State.met ⟨(a, true) :: rest, order, acc⟩ := by
  simp only [State.met, List.map_cons, List.append_assoc, List.singleton_append]

theorem Walking.fresh (hforest : Forest kids nodes root) {a : α} {acc : σ}
    (h : Walking kids visit nodes root init ⟨(a, false) :: rest, order, acc⟩) {k : α} (hk : k ∈ kids a) :
    k ∉ State.met ⟨(a, false) :: rest, order, acc⟩ := by
  intro hmet
  have hmem : ∀ {b}, b ∈ order ∨ (b, true) ∈ (a, false) :: rest → b ∈ State.met ⟨(a, false) :: rest, order, acc⟩ := by
    intro b hb
    rcases hb with hb | hb
    · exact List.mem_append_left _ hb
    · exact List.mem_append_right _ (List.mem_map.2 ⟨_, hb, rfl⟩)
  have ha : a ∈ nodes := h.mem a (List.mem_append_right _ List.mem_cons_self)
  rcases h.origin k hmet with rfl | ⟨p, hp, hkp⟩
  · exact hforest.orphan a ha hk
  · obtain rfl := hforest.unique p (h.mem p (hmem hp)) a ha k hkp hk
    -- the parent is on top of the stack and nowhere else
    have hnodup := h.nodup
    simp only [State.met, List.map_cons, List.nodup_middle, List.nodup_cons, List.mem_append, not_or] at hnodup
    rcases hp with hp | hp
    · exact hnodup.1.1 hp
    · rcases List.mem_cons.1 hp with heq | hp
      · cases heq
      · exact hnodup.1.2 (List.mem_map.2 ⟨_, hp, rfl⟩)

theorem Walking.expand (hforest : Forest kids nodes root) {a : α} {acc : σ}
    (h : Walking kids visit nodes root init ⟨(a, false) :: rest, order, acc⟩) :
    Walking kids visit nodes root init ⟨(kids a).reverse.map (·, false) ++ (a, true) :: rest, order, acc⟩ := by
  have ha : a ∈ State.met ⟨(a, false) :: rest, order, acc⟩ := List.mem_append_right _ List.mem_cons_self
  have hperm := met_expand kids a rest order acc
  have hcases : ∀ b ∈ State.met ⟨(kids a).reverse.map (·, false) ++ (a, true) :: rest, order, acc⟩,
      b ∈ kids a ∨ b ∈ State.met ⟨(a, false) :: rest, order, acc⟩ :=
    fun b hb => List.mem_append.1 (hperm.mem_iff.1 hb)
  refine ⟨?_, ?_, ?_, ?_, ?_, h.closed, ?_, h.acc⟩
  · rw [hperm.nodup_iff, List.nodup_append]
    refine ⟨hforest.kids_nodup a (h.mem a ha), h.nodup, ?_⟩
    intro k hk b hb heq
    exact h.fresh hforest hk (heq ▸ hb)
  · intro b hb
    rcases hcases b hb with hb | hb
    · exact hforest.kids_mem a (h.mem a ha) b hb
    · exact h.mem b hb
  · intro b hb
    rcases hcases b hb with hb | hb
    · exact (h.reached a ha).tail hb
    · exact h.reached b hb
  · intro b hb
    rcases hcases b hb with hb | hb
    · exact Or.inr ⟨a, Or.inr (List.mem_append_right _ List.mem_cons_self), hb⟩
    · rcases h.origin b hb with hroot | ⟨p, hp, hbp⟩
      · exact Or.inl hroot
      · refine Or.inr ⟨p, hp.imp id fun hp => ?_, hbp⟩
        rcases List.mem_cons.1 hp with heq | hp
        · cases heq
        · exact List.mem_append_right _ (List.mem_cons_of_mem _ hp)
  · apply ready_fresh
    refine ⟨fun _ k hk => ?_, h.ready.2.mono ?_⟩
    · rw [List.reverse_reverse]
      exact List.mem_append_left _ hk
    · intro b hb
      rcases List.mem_cons.1 hb with rfl | hb
      · exact List.mem_cons_self
      · exact List.mem_cons_of_mem _ (List.mem_append_right _ hb)
  · refine Or.inl ?_
    rcases h.bottom with hlast | hlast
    · rw [List.map_append, List.map_cons, List.getLast?_append_of_ne_nil _ (List.cons_ne_nil _ _)]
      exact hlast
    · exact absurd hlast.1 (List.cons_ne_nil _ _)

theorem closed_snoc {a : α} (hkids : ∀ k ∈ kids a, k ∈ order)
    (h : ∀ pre a post, order = pre ++ a :: post → ∀ k ∈ kids a, k ∈ pre) :
    ∀ pre b post, order ++ [a] = pre ++ b :: post → ∀ k ∈ kids b, k ∈ pre := by
  intro pre b post heq
  rcases List.eq_nil_or_concat post with rfl | ⟨post, c, rfl⟩
  · obtain ⟨rfl, hlast⟩ := List.append_inj' heq rfl
    obtain rfl := List.singleton_inj.1 hlast
    exact hkids
  · rw [List.concat_eq_append, ← List.cons_append, ← List.append_assoc] at heq
    exact h pre b post (List.append_inj' heq rfl).1

theorem Walking.done {a : α} {rest : List (α × Bool)} {order : List α} {acc : σ}
    (h : Walking kids visit nodes root init ⟨(a, true) :: rest, order, acc⟩) :
    Walking kids visit nodes root init ⟨rest, order ++ [a], visit acc a⟩ := by
  have hmet := met_done a rest order acc (visit acc a)
  have hacc : acc = order.foldl visit init := h.acc
  refine ⟨hmet ▸ h.nodup, hmet ▸ h.mem, hmet ▸ h.reached, ?_, ?_, closed_snoc (h.ready.1 rfl) h.closed, ?_, ?_⟩
  · intro b hb
    rw [hmet] at hb
    rcases h.origin b hb with hroot | ⟨p, hp, hbp⟩
    · exact Or.inl hroot
    · refine Or.inr ⟨p, ?_, hbp⟩
      rcases hp with hp | hp
      · exact Or.inl (List.mem_append_left _ hp)
      · rcases List.mem_cons.1 hp with heq | hp
        · cases heq
          exact Or.inl (List.mem_append_right _ (List.mem_singleton_self _))
        · exact Or.inr hp
  · apply h.ready.2.mono
    intro b hb
    rcases List.mem_cons.1 hb with rfl | hb
    · exact List.mem_append_right _ (List.mem_singleton_self _)
    · exact List.mem_append_left _ hb
  · rcases h.bottom with hlast | hlast
    · cases rest with
      | nil =>
        refine Or.inr ⟨rfl, ?_⟩
        rw [List.getLast?_append_of_ne_nil _ (List.cons_ne_nil _ _)]
        exact hlast
      | cons entry rest =>
        rw [List.map_cons, List.map_cons, List.getLast?_cons_cons] at hlast
        exact Or.inl hlast
    · exact absurd hlast.1 (List.cons_ne_nil _ _)
  · rw [List.foldl_append, ← hacc, List.foldl_cons, List.foldl_nil]

theorem Walking.next (hforest : Forest kids nodes root) (h : Walking kids visit nodes root init s) :
    Walking kids visit nodes root init (next kids visit s) := by
  obtain ⟨stack, order, acc⟩ := s
  cases stack with
  | nil => exact h
  | cons entry rest =>
    obtain ⟨a, expanded⟩ := entry
    cases expanded with
    | false => exact h.expand hforest
    | true => exact h.done

/-! ## The whole walk -/

/-- the walk starts at the root -/
def start (root : α) (init : σ) : State α σ := ⟨[(root, false)], [], init⟩

theorem Forest.walking (hforest : Forest kids nodes root) : Walking kids visit nodes root init (start root init) := by
  refine ⟨List.nodup_singleton root, ?_, ?_, ?_, ⟨nofun, trivial⟩, by simp [start], Or.inl rfl, rfl⟩
  · intro a ha
    rw [List.mem_singleton.1 ha]
    exact hforest.root_mem
  · intro a ha
    rw [List.mem_singleton.1 ha]
  · intro a ha
    exact Or.inl (List.mem_singleton.1 ha)

/-- two for a visited node, one for a node whose children are on the stack -/
def progress (s : State α σ) : ℕ := 2 * s.order.length + (s.stack.filter Prod.snd).length

theorem progress_next (h : s.stack ≠ []) : progress (next kids visit s) = progress s + 1 := by
  obtain ⟨stack, order, acc⟩ := s
  cases stack with
  | nil => exact absurd rfl h
  | cons entry rest =>
    obtain ⟨a, expanded⟩ := entry
    cases expanded with
    | false =>
      have hkids : ((kids a).reverse.map fun k => (k, false)).filter Prod.snd = [] := by
        simp
      simp only [progress, next, List.filter_append, hkids, List.nil_append, List.filter_cons_of_pos,
        List.length_cons, List.filter_cons, Bool.false_eq_true, if_false]
      omega
    | true =>
      simp only [progress, next, List.length_append, List.filter_cons_of_pos, List.length_cons, List.length_nil]
      omega

theorem Walking.room (h : Walking kids visit nodes root init s) : progress s + s.stack.length ≤ 2 * nodes.length := by
  have hmet : s.met.length ≤ nodes.length := by
    apply List.Subperm.length_le
    exact h.nodup.subperm h.mem
  have hlength : s.met.length = s.order.length + s.stack.length := by
    rw [State.met, List.length_append, List.length_map]
  have hexpanded : (s.stack.filter Prod.snd).length ≤ s.stack.length := List.length_filter_le _ _
  rw [progress]
  omega

theorem Walking.finished (h : Walking kids visit nodes root init s) (hstack : s.stack = []) :
    Finished kids visit root init s := by
  have hmet : s.met = s.order := by rw [State.met, hstack, List.map_nil, List.append_nil]
  have hlast : s.order.getLast? = some root := by
    rcases h.bottom with hlast | hlast
    · rw [hstack] at hlast
      cases hlast
    · exact hlast.2
  refine ⟨hmet ▸ h.nodup, fun a => Iff.intro (fun ha => h.reached a (hmet.symm ▸ ha)) ?_, h.closed, hlast, h.acc⟩
  intro ha
  induction ha with
  | refl => exact List.mem_of_getLast? hlast
  | tail _ hchild ih =>
    obtain ⟨pre, post, horder⟩ := List.append_of_mem ih
    rw [horder]
    exact List.mem_append_left _ (h.closed pre _ post horder _ hchild)

theorem Walking.run_ends (hforest : Forest kids nodes root) (h : Walking kids visit nodes root init s) {n : ℕ}
    (hn : 2 * nodes.length ≤ n + progress s) :
    ∃ s', run kids visit n s = some s' ∧ Finished kids visit root init s' := by
  induction n generalizing s with
  | zero =>
    have hroom := h.room
    have hstack : s.stack = [] := List.eq_nil_of_length_eq_zero (by omega)
    exact ⟨s, by rw [run, hstack]; rfl, h.finished hstack⟩
  | succ n ih =>
    rcases eq_or_ne s.stack [] with hstack | hstack
    · exact ⟨s, by rw [run, hstack]; rfl, h.finished hstack⟩
    · obtain ⟨s', hrun, hfinished⟩ := ih (h.next hforest) (by rw [progress_next hstack]; omega)
      refine ⟨s', ?_, hfinished⟩
      rw [run, if_neg (by simpa using hstack)]
      exact hrun

/-- **The walk ends.** Two steps a node are enough. -/
theorem Forest.run_ends (hforest : Forest kids nodes root) (visit : σ → α → σ) (init : σ) {n : ℕ}
    (hn : 2 * nodes.length ≤ n) :
    ∃ s, run kids visit n (start root init) = some s ∧ Finished kids visit root init s :=
  hforest.walking.run_ends hforest (Nat.le_add_right_of_le hn)

/-- **Traversal.** In an order that lists children first, the fold keeps what each visit keeps -/
theorem fold_induction {P : List α → σ → Prop} (hnil : P [] init)
    (hstep : ∀ pre a acc, (∀ k ∈ kids a, k ∈ pre) → a ∉ pre → P pre acc → P (pre ++ [a]) (visit acc a))
    (hnodup : order.Nodup) (hclosed : ∀ pre a post, order = pre ++ a :: post → ∀ k ∈ kids a, k ∈ pre) :
    P order (order.foldl visit init) := by
  induction order using List.reverseRecOn with
  | nil => exact hnil
  | append_singleton order a ih =>
    rw [List.nodup_append] at hnodup
    rw [List.foldl_append]
    refine hstep order a _ (hclosed order a [] rfl) ?_ (ih hnodup.1 ?_)
    · intro ha
      exact hnodup.2.2 a ha a (List.mem_singleton_self a) rfl
    · intro pre b post heq
      exact hclosed pre b (post ++ [a]) (by rw [heq, List.append_assoc, List.cons_append])

end ZenoFcis.Lib.Postorder
