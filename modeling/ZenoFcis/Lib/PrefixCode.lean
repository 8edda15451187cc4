/-
Prefix codes: an encoding whose words are read off the front of a string unambiguously, whatever follows them.

`Reads enc P a` says it at one source symbol `a`, against every symbol of the domain `P`; this is the form that an
induction over a recursive source type needs. Sequences of equal length inherit it (`Reads.flatMap`).
-/
import ZenoFcis.Lib.BigEndian

namespace ZenoFcis.Lib

variable {α β : Type} {enc : α → List β} {P : α → Prop}

/-- in front of any string, the word of `a` is read as `a` and nothing else of the domain -/
def Reads (enc : α → List β) (P : α → Prop) (a : α) : Prop :=
  ∀ b r s, P b → enc a ++ r = enc b ++ s → a = b ∧ r = s

/-- a word that reads back is told apart -/
theorem Reads.inj {a b : α} (h : Reads enc P a) (hb : P b) (e : enc a = enc b) : a = b :=
  (h b [] [] hb (by simpa using e)).1

/-- lists of one length are told apart from what follows -/
theorem Reads.flatMap {as bs : List α} {r s : List β} (hlen : as.length = bs.length)
    (ha : ∀ a ∈ as, Reads enc P a) (hb : ∀ b ∈ bs, P b) (h : as.flatMap enc ++ r = bs.flatMap enc ++ s) :
    as = bs ∧ r = s := by
  induction as generalizing bs with
  | nil =>
    obtain rfl : bs = [] := List.length_eq_zero_iff.1 hlen.symm
    exact ⟨rfl, by simpa using h⟩
  | cons a as ih =>
    cases bs with
    | nil => simp at hlen
    | cons b bs =>
      simp only [List.flatMap_cons, List.append_assoc] at h
      obtain ⟨rfl, hrest⟩ := ha a List.mem_cons_self b _ _ (hb b List.mem_cons_self) h
      obtain ⟨rfl, hr⟩ := ih (by simpa using hlen) (fun x hx => ha x (List.mem_cons_of_mem _ hx))
        (fun x hx => hb x (List.mem_cons_of_mem _ hx)) hrest
      exact ⟨rfl, hr⟩

/-- a length-prefixed byte string, with a `w`-byte length -/
def blob (w : ℕ) (bytes : List UInt8) : List UInt8 := beBytes w bytes.length ++ bytes

@[simp] theorem blob_length (w : ℕ) (bytes : List UInt8) : (blob w bytes).length = w + bytes.length := by
  simp [blob]

/-- a length-prefixed string reads back -/
theorem reads_blob (w : ℕ) (a : List UInt8) (ha : a.length < 256 ^ w) :
    Reads (blob w) (fun b => b.length < 256 ^ w) a := by
  intro b r s hb h
  simp only [blob, List.append_assoc] at h
  obtain ⟨hlen, hrest⟩ := beBytes_append_inj ha hb h
  exact List.append_inj hrest hlen

end ZenoFcis.Lib
