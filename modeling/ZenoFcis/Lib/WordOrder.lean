/-
The machine words as linear orders, and so byte strings and word lists in lexicographic order.
-/
import Mathlib.Tactic

namespace ZenoFcis.Lib

instance linearOrderUInt8 : LinearOrder UInt8 where
  le_refl := UInt8.le_refl
  le_trans _ _ _ := UInt8.le_trans
  le_antisymm _ _ := UInt8.le_antisymm
  le_total := UInt8.le_total
  lt_iff_le_not_ge a b := by rw [UInt8.not_le]; exact ⟨fun h => ⟨UInt8.le_of_lt h, h⟩, And.right⟩
  toDecidableLE := inferInstance

instance linearOrderUInt16 : LinearOrder UInt16 where
  le_refl := UInt16.le_refl
  le_trans _ _ _ := UInt16.le_trans
  le_antisymm _ _ := UInt16.le_antisymm
  le_total := UInt16.le_total
  lt_iff_le_not_ge a b := by rw [UInt16.not_le]; exact ⟨fun h => ⟨UInt16.le_of_lt h, h⟩, And.right⟩
  toDecidableLE := inferInstance

instance linearOrderUInt32 : LinearOrder UInt32 where
  le_refl := UInt32.le_refl
  le_trans _ _ _ := UInt32.le_trans
  le_antisymm _ _ := UInt32.le_antisymm
  le_total := UInt32.le_total
  lt_iff_le_not_ge a b := by rw [UInt32.not_le]; exact ⟨fun h => ⟨UInt32.le_of_lt h, h⟩, And.right⟩
  toDecidableLE := inferInstance

/-! ## Prefixes in lexicographic order -/

variable {α : Type} [LinearOrder α]

theorem prefix_le {p q : List α} (h : p <+: q) : p ≤ q := by
  induction p generalizing q with
  | nil =>
    cases q with
    | nil => exact le_rfl
    | cons b q => exact (List.nil_lt_cons b q).le
  | cons a p ih =>
    obtain ⟨q, rfl, hpq⟩ := List.cons_prefix_iff.1 h
    exact List.cons_le_cons a (ih hpq)

/-- a word between a prefix and a word that it begins begins with it -/
theorem prefix_of_between {p q r : List α} (h : p <+: q) (hpr : p ≤ r) (hrq : r ≤ q) : p <+: r := by
  induction p generalizing q r with
  | nil => exact List.nil_prefix
  | cons a p ih =>
    obtain ⟨q, rfl, hpq⟩ := List.cons_prefix_iff.1 h
    cases r with
    | nil => exact absurd (List.nil_lt_cons a p) (not_lt.2 hpr)
    | cons b r =>
      have hab : a = b := by
        apply le_antisymm
        · exact not_lt.1 fun hlt => not_lt.2 hpr (List.Lex.rel hlt)
        · exact not_lt.1 fun hlt => not_lt.2 hrq (List.Lex.rel hlt)
      subst hab
      refine List.cons_prefix_cons.2 ⟨rfl, ih hpq ?_ ?_⟩
      · exact not_lt.1 fun hlt => not_lt.2 hpr (List.Lex.cons hlt)
      · exact not_lt.1 fun hlt => not_lt.2 hrq (List.Lex.cons hlt)

end ZenoFcis.Lib
