/-
Reading a string from its front. A `Cursor` takes what it needs off the rest of the string, knowing a cap on lengths;
a word is `parts.flatten`, its fields one after another.

- `Returns bound read word a`: in front of any rest, the cursor reads `a` off the word and leaves the rest;
- `Shows bound enc view`: two sources whose words stand at the front of one string agree in `view`.

Both are for strings within a bound, which is also a bound of every length that such a string can hold. Cursors
compose along their binds, encodings along their parts, and a cursor that reads an encoding back makes it one that
shows its source.
-/
import ZenoFcis.Lib.BigEndian

namespace ZenoFcis.Lib

variable {α β γ δ ε σ : Type}

/-- a computation on the rest of a string, under a cap -/
def Cursor (ε σ α : Type) := ℕ → List σ → Except ε (α × List σ)

namespace Cursor

def fail (e : ε) : Cursor ε σ α := fun _ _ => .error e

def cap : Cursor ε σ ℕ := fun cap rest => .ok (cap, rest)

def remaining : Cursor ε σ ℕ := fun _ rest => .ok (rest.length, rest)

protected def bind (x : Cursor ε σ α) (f : α → Cursor ε σ β) : Cursor ε σ β := fun cap rest =>
  match x cap rest with
  | .error e => .error e
  | .ok (a, rest) => f a cap rest

instance : Monad (Cursor ε σ) where
  pure a := fun _ rest => .ok (a, rest)
  bind := Cursor.bind

theorem bind_ok {x : Cursor ε σ α} {f : α → Cursor ε σ β} {cap : ℕ} {rest rest' : List σ} {a : α}
    (h : x cap rest = .ok (a, rest')) : (x >>= f) cap rest = f a cap rest' := by
  change x.bind f cap rest = _
  rw [Cursor.bind, h]

/-- so many values one after another -/
def times (x : Cursor ε σ α) : ℕ → Cursor ε σ (List α)
  | 0 => pure []
  | n + 1 => do
    let a ← x
    let as ← times x n
    return a :: as

end Cursor

/-- on strings within the bound the cursor reads `a` off the word -/
def Returns (bound : ℕ) (x : Cursor ε σ α) (word : List σ) (a : α) : Prop :=
  ∀ cap rest, cap ≤ bound → (word ++ rest).length ≤ cap → x cap (word ++ rest) = .ok (a, rest)

/-- a word at the front of a string within the bound determines the view of its source -/
def Shows (bound : ℕ) (enc : α → List σ) (view : α → γ) : Prop :=
  ∀ ⦃a b r s⦄, (enc a ++ r).length ≤ bound → enc a ++ r = enc b ++ s → view a = view b ∧ r = s

variable {bound : ℕ}

namespace Returns

/-- returning without reading -/
theorem nil (a : α) : Returns bound (pure a : Cursor ε σ α) ([] : List (List σ)).flatten a := fun _ _ _ _ => rfl

/-- **One part after another.** -/
theorem cons {x : Cursor ε σ α} {f : α → Cursor ε σ β} {word : List σ} {parts : List (List σ)} {a : α} {b : β}
    (hx : Returns bound x word a) (hf : Returns bound (f a) parts.flatten b) :
    Returns bound (x >>= f) (word :: parts).flatten b := by
  intro cap rest hcap hlen
  rw [List.flatten_cons, List.append_assoc] at hlen ⊢
  have hrest : (parts.flatten ++ rest).length ≤ cap := by
    rw [List.length_append] at hlen
    omega
  rw [Cursor.bind_ok (hx cap _ hcap hlen)]
  exact hf cap rest hcap hrest

/-- the last part of a reading -/
theorem last {x : Cursor ε σ α} {f : α → Cursor ε σ β} {word : List σ} {a : α} {b : β} (hx : Returns bound x word a)
    (hf : Returns bound (f a) [] b) : Returns bound (x >>= f) word b := by
  intro cap rest hcap hlen
  rw [Cursor.bind_ok (hx cap rest hcap hlen)]
  refine hf cap rest hcap (le_trans ?_ hlen)
  rw [List.nil_append, List.length_append]
  exact Nat.le_add_left _ _

/-- a reading with its result mapped -/
theorem map {x : Cursor ε σ α} {word : List σ} {a : α} (f : α → β) (hx : Returns bound x word a) :
    Returns bound (x >>= fun a => pure (f a)) word (f a) := hx.last (nil (f a))

/-- as many readings as there are words -/
theorem times {x : Cursor ε σ α} {enc : α → List σ} (h : ∀ a, Returns bound x (enc a) a) (as : List α) :
    Returns bound (x.times as.length) (as.map enc).flatten as := by
  induction as with
  | nil => exact nil []
  | cons a as ih => exact (h a).cons (ih.map (a :: ·))

/-- **Reading back.** An encoding shows what a cursor reads off it. -/
theorem shows {x : Cursor ε σ γ} {enc : α → List σ} {view : α → γ} (h : ∀ a, Returns bound x (enc a) (view a)) :
    Shows bound enc view := by
  intro a b r s hlen heq
  have ha := h a _ r hlen le_rfl
  have hb := h b _ s (heq ▸ hlen) le_rfl
  rw [← heq] at hb
  have hboth := ha.symm.trans hb
  injection hboth with hpair
  exact Prod.mk.inj hpair

end Returns

namespace Shows

variable {enc enc' : α → List σ} {view : α → γ} {view' : α → δ}

/-- equal words show equal views -/
theorem same (h : Shows bound enc view) {a b : α} (hlen : (enc a).length ≤ bound) (heq : enc a = enc b) :
    view a = view b :=
  (h (r := []) (s := []) (by simpa using hlen) (by simpa using heq)).1

/-- a view can be replaced by a coarser one -/
theorem imp (h : Shows bound enc view) (himp : ∀ a b, view a = view b → view' a = view' b) : Shows bound enc view' := by
  intro a b r s hlen heq
  obtain ⟨hview, hrest⟩ := h hlen heq
  exact ⟨himp a b hview, hrest⟩

/-- a view of a part -/
theorem of (h : Shows bound enc view) (f : β → α) : Shows bound (fun b => enc (f b)) fun b => view (f b) :=
  fun _ _ _ _ hlen heq => h hlen heq

/-- nothing shows nothing -/
theorem nil : Shows bound (fun _ : α => ([] : List (List σ)).flatten) fun _ => () := fun _ _ _ _ _ heq => ⟨rfl, heq⟩

/-- a label in front changes no view -/
theorem behind (h : Shows bound enc view) (label : List σ) : Shows bound (fun a => label ++ enc a) view := by
  intro a b r s hlen heq
  dsimp only at hlen heq
  rw [List.append_assoc, List.append_assoc] at heq
  refine h (le_trans ?_ hlen) (List.append_cancel_left heq)
  simp only [List.length_append]
  omega

/-- **One part after another.** -/
theorem cons {parts : α → List (List σ)} (h : Shows bound enc view)
    (hparts : Shows bound (fun a => (parts a).flatten) view') :
    Shows bound (fun a => (enc a :: parts a).flatten) fun a => (view a, view' a) := by
  intro a b r s hlen heq
  dsimp only at hlen heq ⊢
  rw [List.flatten_cons, List.append_assoc] at hlen
  rw [List.flatten_cons, List.flatten_cons, List.append_assoc, List.append_assoc] at heq
  obtain ⟨hview, hrest⟩ := h hlen heq
  have hlen' : ((parts a).flatten ++ r).length ≤ bound := by
    rw [List.length_append] at hlen
    omega
  obtain ⟨hview', hrest'⟩ := hparts hlen' hrest
  exact ⟨Prod.ext hview hview', hrest'⟩

theorem map_eq (h : Shows bound enc fun a => a) {as bs : List α} {r s : List σ} (hcount : as.length = bs.length)
    (hlen : ((as.map enc).flatten ++ r).length ≤ bound) (heq : (as.map enc).flatten ++ r = (bs.map enc).flatten ++ s) :
    as = bs ∧ r = s := by
  induction as generalizing bs with
  | nil =>
    obtain rfl := List.length_eq_zero_iff.1 hcount.symm
    exact ⟨rfl, heq⟩
  | cons a as ih =>
    obtain ⟨b, bs, rfl⟩ := List.exists_cons_of_length_eq_add_one hcount.symm
    rw [List.map_cons, List.flatten_cons, List.append_assoc] at hlen
    rw [List.map_cons, List.flatten_cons, List.append_assoc, List.map_cons, List.flatten_cons, List.append_assoc] at heq
    obtain ⟨rfl, hrest⟩ := h hlen heq
    have hlen' : ((as.map enc).flatten ++ r).length ≤ bound := by
      rw [List.length_append] at hlen
      omega
    obtain ⟨rfl, hr⟩ := ih (Nat.succ.inj hcount) hlen' hrest
    exact ⟨rfl, hr⟩

/-- a flag and what it announces -/
theorem option {flag : Bool → List σ} (hflag : Shows bound flag fun b => b) {enc : β → List σ}
    (h : Shows bound enc fun b => b) :
    Shows bound (fun x : Option β => [flag x.isSome, (x.elim [] enc)].flatten) fun x => x := by
  intro a b r s hlen heq
  dsimp only at hlen heq ⊢
  have hword (x : Option β) : [flag x.isSome, x.elim [] enc].flatten = flag x.isSome ++ x.elim [] enc := by simp
  rw [hword, List.append_assoc] at hlen
  rw [hword, hword, List.append_assoc, List.append_assoc] at heq
  obtain ⟨hsome, hrest⟩ := hflag hlen heq
  cases a with
  | none =>
    cases b with
    | none => exact ⟨rfl, hrest⟩
    | some b => cases hsome
  | some a =>
    cases b with
    | none => cases hsome
    | some b =>
      have hlen' : (enc a ++ r).length ≤ bound := by
        rw [List.length_append] at hlen
        exact le_trans (Nat.le_add_left _ _) hlen
      obtain ⟨rfl, hr⟩ := h hlen' hrest
      exact ⟨rfl, hr⟩

end Shows

/-! ## Lengths -/

section Lengths

variable {w : ℕ}

/-- a list behind its length in `w` bytes -/
def counted (w : ℕ) (enc : α → List UInt8) (as : List α) : List UInt8 :=
  [beBytes w as.length, (as.map enc).flatten].flatten

theorem length_le_flatten {enc : α → List UInt8} (hpos : ∀ a, 0 < (enc a).length) (as : List α) :
    as.length ≤ (as.map enc).flatten.length := by
  induction as with
  | nil => exact le_rfl
  | cons a as ih =>
    have ha := hpos a
    rw [List.map_cons, List.flatten_cons, List.length_append, List.length_cons]
    omega

/-- **A list behind its length.** The words of its items are not empty, so the length is within the bound. -/
theorem Shows.counted {enc : α → List UInt8} (h : Shows bound enc fun a => a) (hpos : ∀ a, 0 < (enc a).length)
    (hbound : bound < 256 ^ w) : Shows bound (Lib.counted w enc) fun as => as := by
  intro as bs r s hlen heq
  have hword (as : List α) : Lib.counted w enc as = beBytes w as.length ++ (as.map enc).flatten := by simp [Lib.counted]
  have hright := heq ▸ hlen
  rw [hword, List.append_assoc] at hlen hright
  rw [hword, hword, List.append_assoc, List.append_assoc] at heq
  have hcount {as : List α} {r : List UInt8} (h : (beBytes w as.length ++ ((as.map enc).flatten ++ r)).length ≤ bound) :
      as.length < 256 ^ w := by
    have hle := length_le_flatten hpos as
    rw [List.length_append, List.length_append] at h
    omega
  obtain ⟨hlength, hrest⟩ := beBytes_append_inj (hcount hlen) (hcount hright) heq
  have hlen' : ((as.map enc).flatten ++ r).length ≤ bound := by
    rw [List.length_append] at hlen
    exact le_trans (Nat.le_add_left _ _) hlen
  exact h.map_eq hlength hlen' hrest

end Lengths

end ZenoFcis.Lib
