/-
Structural equality of closed values (the derived `PartialEq` of `zeno-fcis-value`), decided.
-/
import ZenoFcis.Value.Basic

namespace ZenoFcis

mutual

/-- the derived comparison -/
def Value.same : Value → Value → Bool
  | .unit, .unit => true
  | .bool a, .bool b => a == b
  | .u128 a, .u128 b => a == b
  | .i128 a, .i128 b => a == b
  | .bytes a, .bytes b => a == b
  | .text a, .text b => a == b
  | .enum t w, .enum t' w' => t == t' && w == w'
  | .tuple items, .tuple items' => sameItems items items'
  | .record fields, .record fields' => sameFields fields fields'
  | .sum t w none, .sum t' w' none => t == t' && w == w'
  | .sum t w (some a), .sum t' w' (some b) => t == t' && w == w' && a.same b
  | .vector items, .vector items' => sameItems items items'
  | .map entries, .map entries' => sameEntries entries entries'
  | _, _ => false

def sameItems : List Value → List Value → Bool
  | [], [] => true
  | a :: items, b :: items' => a.same b && sameItems items items'
  | _, _ => false

def sameFields : List Field → List Field → Bool
  | [], [] => true
  | .mk i a :: fields, .mk j b :: fields' => i == j && a.same b && sameFields fields fields'
  | _, _ => false

def sameEntries : List MapEntry → List MapEntry → Bool
  | [], [] => true
  | .mk c k a :: entries, .mk c' k' b :: entries' => c == c' && k.same k' && a.same b && sameEntries entries entries'
  | _, _ => false

end

theorem sameItems_iff {items items' : List Value} (h : ∀ a ∈ items, ∀ b, a.same b = true ↔ a = b) :
    sameItems items items' = true ↔ items = items' := by
  induction items generalizing items' with
  | nil => cases items' <;> simp [sameItems]
  | cons a items ih =>
    cases items' with
    | nil => simp [sameItems]
    | cons b items' =>
      rw [List.forall_mem_cons] at h
      simp [sameItems, h.1, ih h.2]

theorem sameFields_iff {fields fields' : List Field} (h : ∀ f ∈ fields, ∀ b, f.value.same b = true ↔ f.value = b) :
    sameFields fields fields' = true ↔ fields = fields' := by
  induction fields generalizing fields' with
  | nil => cases fields' <;> simp [sameFields]
  | cons f fields ih =>
    obtain ⟨i, a⟩ := f
    cases fields' with
    | nil => simp [sameFields]
    | cons g fields' =>
      obtain ⟨j, b⟩ := g
      rw [List.forall_mem_cons] at h
      have ha : a.same b = true ↔ a = b := h.1 b
      simp [sameFields, ha, ih h.2]

theorem sameEntries_iff {entries entries' : List MapEntry} (h : ∀ e ∈ entries,
      (∀ b, e.key.same b = true ↔ e.key = b) ∧ ∀ b, e.value.same b = true ↔ e.value = b) :
    sameEntries entries entries' = true ↔ entries = entries' := by
  induction entries generalizing entries' with
  | nil => cases entries' <;> simp [sameEntries]
  | cons e entries ih =>
    obtain ⟨c, k, a⟩ := e
    cases entries' with
    | nil => simp [sameEntries]
    | cons e' entries' =>
      obtain ⟨c', k', b⟩ := e'
      rw [List.forall_mem_cons] at h
      have hk : k.same k' = true ↔ k = k' := h.1.1 k'
      have ha : a.same b = true ↔ a = b := h.1.2 b
      simp [sameEntries, hk, ha, ih h.2, and_assoc]

theorem same_iff {a b : Value} : a.same b = true ↔ a = b := by
  induction a generalizing b with
  | tuple items ih | vector items ih => cases b <;> simp [Value.same, sameItems_iff fun a ha _ => ih a ha]
  | record fields ih => cases b <;> simp [Value.same, sameFields_iff fun f hf _ => ih f hf]
  | map entries ih =>
    cases b <;> simp [Value.same, sameEntries_iff fun e he => ⟨fun _ => (ih e he).1, fun _ => (ih e he).2⟩]
  | sum t w payload ih =>
    cases payload with
    | none =>
      cases b <;> try simp [Value.same]
      rename_i payload'
      cases payload' <;> simp [Value.same]
    | some a =>
      cases b <;> try simp [Value.same]
      rename_i payload'
      cases payload' with
      | none => simp [Value.same]
      | some b =>
        have ha : a.same b = true ↔ a = b := ih a rfl
        simp [Value.same, ha, and_assoc]
  | _ => cases b <;> simp [Value.same]

instance : DecidableEq Value := fun _ _ => decidable_of_iff _ same_iff

end ZenoFcis
