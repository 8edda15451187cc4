/-
What the decoder's primitives do, one rule each: a cursor step consumes a byte string (`Cursor.Consumes`), a budget step
is the validator's step on the same counters (`Charges`).
-/
import ZenoFcis.Value.Limits
import ZenoFcis.Codec.Decode

namespace ZenoFcis

open Lib Lib.Except

/-! ## Words -/

/-- a word has the number of its bytes -/
theorem readWord_toNat {bs : Bytes} (h : bs.length ≤ 16) : (readWord bs).toNat = ofBeBytes bs := by
  induction bs using List.reverseRecOn with
  | nil => rfl
  | append_singleton bs b ih =>
    rw [List.length_append, List.length_singleton] at h
    have hlt : ofBeBytes bs < 2 ^ 120 := by
      calc ofBeBytes bs < 256 ^ bs.length := ofBeBytes_lt bs
        _ ≤ 256 ^ 15 := Nat.pow_le_pow_right (by decide) (by omega)
        _ = 2 ^ 120 := by decide
    have hb : b.toNat < 2 ^ 8 := b.toNat_lt
    have hstep : readWord (bs ++ [b]) = readWord bs <<< 8 ||| BitVec.ofNat 128 b.toNat := by
      simp [readWord, List.foldl_append]
    rw [hstep, BitVec.toNat_or, BitVec.toNat_shiftLeft, ih (by omega), BitVec.toNat_ofNat,
      Nat.mod_eq_of_lt (lt_trans hb (by decide)), Nat.shiftLeft_eq, Nat.mod_eq_of_lt (by omega), ofBeBytes_snoc,
      ← Nat.shiftLeft_eq, ← Nat.shiftLeft_add_eq_or_of_lt hb, Nat.shiftLeft_eq]

/-- sixteen bytes are written back -/
theorem beBytes_readWord {bs : Bytes} (h : bs.length ≤ 16) : beBytes bs.length (readWord bs).toNat = bs := by
  rw [readWord_toNat h, beBytes_ofBeBytes]

/-- a number of at most sixteen bytes is read back -/
theorem readWord_beBytes {w n : ℕ} (hw : w ≤ 16) (hn : n < 256 ^ w) : (readWord (beBytes w n)).toNat = n := by
  rw [readWord_toNat (by simpa using hw), ofBeBytes_beBytes_of_lt hn]

/-- the two's complement of a word is the word -/
theorem signedToBits_bitsToSigned (bits : BitVec 128) : signedToBits (bitsToSigned bits) = bits := by
  have hlt := bits.isLt
  apply BitVec.toNat_inj.1
  unfold bitsToSigned
  split_ifs with h
  · have hnn : ¬ ((bits.toNat : ℤ) < 0) := by omega
    simp only [signedToBits, hnn, if_false, BitVec.toNat_ofNat]
    omega
  · have hneg : -((2 ^ 128 - 1 - bits.toNat : ℕ) : ℤ) - 1 < 0 := by omega
    simp only [signedToBits, hneg, if_true, BitVec.toNat_ofNat]
    omega

/-- a signed number is read back from its word -/
theorem bitsToSigned_signedToBits (n : I128) : bitsToSigned (signedToBits n) = n :=
  signedToBits_inj (signedToBits_bitsToSigned _)

/-! ## Cursor steps -/

namespace Cursor

def unread (c : Cursor) : Bytes := c.bytes.drop c.offset

/-- reading `b` takes cursor `c` to `c'` -/
structure Consumes (c : Cursor) (b : Bytes) (c' : Cursor) : Prop where
  bytes : c'.bytes = c.bytes
  offset : c'.offset = c.offset + b.length
  unread : c.unread = b ++ c'.unread

variable {c c' c'' : Cursor} {a b : Bytes}

/-- a new cursor has everything to read -/
@[simp] theorem unread_new (b : Bytes) : (new b).unread = b := rfl

/-- nothing remains when nothing is unread -/
theorem remaining_eq_zero : c.remaining = 0 ↔ c.unread = [] := by
  simp [remaining, unread, List.drop_eq_nil_iff, Nat.sub_eq_zero_iff_le]

/-- consuming nothing leaves the cursor -/
theorem Consumes.nil_iff : c.Consumes [] c' ↔ c' = c := by
  constructor
  · rintro ⟨hb, ho, _⟩
    cases c; cases c'
    simp_all
  · rintro rfl
    exact ⟨rfl, by simp, by simp⟩

/-- two readings in a row consume both inputs -/
theorem Consumes.trans (h : c.Consumes a c') (h' : c'.Consumes b c'') : c.Consumes (a ++ b) c'' :=
  ⟨h'.bytes.trans h.bytes, by rw [h'.offset, h.offset, List.length_append, Nat.add_assoc],
    by rw [h.unread, h'.unread, List.append_assoc]⟩

/-- what remains to be read starts with `a`: the cursor can move past it -/
theorem exists_consumes {r : Bytes} (h : c.unread = a ++ r) : ∃ c', c.Consumes a c' ∧ c'.unread = r := by
  have hlen := congrArg List.length h
  simp only [Cursor.unread, List.length_drop, List.length_append] at hlen
  have hle := c.le
  have hr : c.bytes.drop (c.offset + a.length) = r := by
    rw [← List.drop_drop, show c.bytes.drop c.offset = a ++ r from h, List.drop_left]
  by_cases ha : a = []
  · subst ha
    exact ⟨c, Consumes.nil_iff.2 rfl, by simpa using h⟩
  · have hpos : 0 < a.length := List.length_pos_iff.2 ha
    refine ⟨⟨c.bytes, c.offset + a.length, by omega⟩, ⟨rfl, rfl, ?_⟩, hr⟩
    rw [h]
    exact congrArg (a ++ ·) hr.symm

/-- a concatenation is consumed in two steps -/
theorem consumes_append : c.Consumes (a ++ b) c'' ↔ ∃ c', c.Consumes a c' ∧ c'.Consumes b c'' := by
  constructor
  · intro h
    obtain ⟨c', hc', hr⟩ := exists_consumes (h.unread.trans (List.append_assoc _ _ _))
    refine ⟨c', hc', h.bytes.trans hc'.bytes.symm, ?_, hr⟩
    rw [h.offset, hc'.offset, List.length_append, Nat.add_assoc]
  · rintro ⟨c', h, h'⟩
    exact h.trans h'

/-- the first byte can be consumed alone -/
theorem consumes_cons {x : UInt8} : c.Consumes (x :: b) c'' ↔ ∃ c', c.Consumes [x] c' ∧ c'.Consumes b c'' :=
  consumes_append (a := [x])

/-- the cursor's input is addressable -/
def Fits (c : Cursor) : Prop := c.bytes.length ≤ usizeMax

/-- consuming keeps a cursor within `usize` -/
theorem Consumes.fits (h : c.Consumes b c') (hc : c.Fits) : c'.Fits := by
  rw [Fits, h.bytes]
  exact hc

/-- `take` consumes as many bytes as it is asked for -/
theorem take_eq_ok (hc : c.Fits) {n : ℕ} : c.take n = .ok (b, c') ↔ b.length = n ∧ c.Consumes b c' := by
  simp only [take, bind_eq_ok, checkedAdd_eq_ok]
  constructor
  · rintro ⟨_, ⟨_, rfl⟩, h⟩
    split_ifs at h with hle
    simp only [pure_eq, Except.ok.injEq, Prod.mk.injEq] at h
    obtain ⟨rfl, rfl⟩ := h
    have hlen : ((c.bytes.drop c.offset).take n).length = n := by
      rw [List.length_take, List.length_drop]
      omega
    refine ⟨hlen, rfl, by rw [hlen], ?_⟩
    simp only [unread]
    rw [← List.drop_drop, List.take_append_drop]
  · rintro ⟨rfl, h⟩
    have hlen := congrArg List.length h.unread
    have hle := c'.le
    rw [h.bytes, h.offset] at hle
    refine ⟨_, ⟨le_trans hle hc, rfl⟩, ?_⟩
    rw [dif_pos hle]
    simp only [pure_eq, Except.ok.injEq, Prod.mk.injEq]
    constructor
    · rw [show c.bytes.drop c.offset = b ++ c'.unread from h.unread, List.take_left]
    · have hb := h.bytes
      have ho := h.offset
      cases c'
      simp_all

/-- `take_u8` consumes one byte -/
theorem takeU8_eq_ok (hc : c.Fits) {x : UInt8} : c.takeU8 = .ok (x, c') ↔ c.Consumes [x] c' := by
  simp only [takeU8, bind_eq_ok, Prod.exists, take_eq_ok hc, pure_eq, Except.ok.injEq, Prod.mk.injEq]
  constructor
  · rintro ⟨b, _, ⟨hlen, h⟩, rfl, rfl⟩
    obtain ⟨y, rfl⟩ := List.length_eq_one_iff.1 hlen
    exact h
  · intro h
    exact ⟨[x], c', ⟨rfl, h⟩, rfl, rfl⟩

/-- `take_u16` consumes two bytes, the high one first -/
theorem takeU16_eq_ok (hc : c.Fits) {x : UInt16} : c.takeU16 = .ok (x, c') ↔ c.Consumes (beBytes 2 x.toNat) c' := by
  simp only [takeU16, bind_eq_ok, Prod.exists, take_eq_ok hc, pure_eq, Except.ok.injEq, Prod.mk.injEq]
  constructor
  · rintro ⟨b, _, ⟨hlen, h⟩, rfl, rfl⟩
    have hw := ofBeBytes_lt b
    rw [hlen] at hw
    rw [readWord_toNat (by omega), UInt16.toNat_ofNat_of_lt' hw, ← hlen, beBytes_ofBeBytes]
    exact h
  · intro h
    refine ⟨_, c', ⟨by simp, h⟩, ?_, rfl⟩
    rw [readWord_beBytes (by omega) x.toNat_lt, UInt16.ofNat_toNat]

/-- `take_u32` consumes four bytes, the high one first -/
theorem takeU32_eq_ok (hc : c.Fits) {x : UInt32} : c.takeU32 = .ok (x, c') ↔ c.Consumes (beBytes 4 x.toNat) c' := by
  simp only [takeU32, bind_eq_ok, Prod.exists, take_eq_ok hc, pure_eq, Except.ok.injEq, Prod.mk.injEq]
  constructor
  · rintro ⟨b, _, ⟨hlen, h⟩, rfl, rfl⟩
    have hw := ofBeBytes_lt b
    rw [hlen] at hw
    rw [readWord_toNat (by omega), UInt32.toNat_ofNat_of_lt' hw, ← hlen, beBytes_ofBeBytes]
    exact h
  · intro h
    refine ⟨_, c', ⟨by simp, h⟩, ?_, rfl⟩
    rw [readWord_beBytes (by omega) x.toNat_lt, UInt32.ofNat_toNat]

/-- a word of 128 bits is sixteen bytes -/
theorem consumes_word (hc : c.Fits) {n : BitVec 128} :
    c.Consumes (beBytes 16 n.toNat) c' ↔ ∃ b, c.take 16 = .ok (b, c') ∧ readWord b = n := by
  constructor
  · intro h
    exact ⟨_, (take_eq_ok hc).2 ⟨by simp, h⟩, BitVec.toNat_inj.1 (readWord_beBytes le_rfl n.isLt)⟩
  · rintro ⟨b, h, rfl⟩
    obtain ⟨hlen, hc'⟩ := (take_eq_ok hc).1 h
    rwa [← hlen, beBytes_readWord hlen.le]

/-- `take_blob` consumes a length and as many bytes, within the maximum -/
theorem takeBlob_eq_ok (hc : c.Fits) {maximum : ℕ} : c.takeBlob maximum = .ok (b, c') ↔
    b.length ≤ maximum ∧ b.length ≤ u32Max ∧ c.Consumes (blob 4 b) c' := by
  simp only [takeBlob, bind_eq_ok, Prod.exists, takeU32_eq_ok hc, blob, consumes_append]
  constructor
  · rintro ⟨n, c1, h1, h⟩
    split_ifs at h with hmax
    obtain ⟨hlen, h2⟩ := (take_eq_ok (h1.fits hc)).1 h
    have hn : n.toNat ≤ u32Max := Nat.le_pred_of_lt n.toNat_lt
    rw [← hlen] at h1 hmax hn
    exact ⟨not_lt.1 hmax, hn, c1, h1, h2⟩
  · rintro ⟨hmax, hlen, c1, h1, h2⟩
    have hn : (UInt32.ofNat b.length).toNat = b.length := UInt32.toNat_ofNat_of_lt' (Nat.lt_succ_of_le hlen)
    refine ⟨UInt32.ofNat b.length, c1, by rwa [hn], ?_⟩
    rw [hn, if_neg (not_lt.2 hmax)]
    exact (take_eq_ok (h1.fits hc)).2 ⟨rfl, h2⟩

end Cursor

/-! ## Budget steps -/

namespace DecodeState

def metrics (s : DecodeState) : ValueMetrics := ⟨s.nodes, s.payloadBytes, s.depth⟩

/-- the budget moves from `s` to `s'` as the validator `f` moves its metrics -/
structure Charges (f : ValueLimits → ValueMetrics → Except ValueError ValueMetrics) (s s' : DecodeState) : Prop where
  limits : s'.limits = s.limits
  metrics : f s.limits s.metrics = .ok s'.metrics

variable {s s' s'' : DecodeState}

/-- a state is its limits and its metrics -/
theorem ext_metrics (hl : s'.limits = s.limits) (hm : s'.metrics = s.metrics) : s' = s := by
  cases s; cases s'
  simp_all [DecodeState.metrics]

/-- charging nothing leaves the state -/
theorem charges_ok : Charges (fun _ m => .ok m) s s' ↔ s' = s := by
  constructor
  · exact fun h => ext_metrics h.limits (Except.ok.inj h.metrics).symm
  · rintro rfl
    exact ⟨rfl, rfl⟩

/-- every state of the counters occurs -/
theorem exists_metrics (s : DecodeState) (m : ValueMetrics) : ∃ s' : DecodeState, s'.limits = s.limits ∧ s'.metrics = m :=
  ⟨⟨s.limits, m.nodes, m.payloadBytes, m.depth⟩, rfl, rfl⟩

/-- charges compose -/
theorem charges_bind {f g : ValueLimits → ValueMetrics → Except ValueError ValueMetrics} :
    Charges (fun l m => f l m >>= g l) s s'' ↔ ∃ s', Charges f s s' ∧ Charges g s' s'' := by
  constructor
  · rintro ⟨hl, hm⟩
    obtain ⟨m', hf, hg⟩ := bind_eq_ok.1 hm
    obtain ⟨s', hl', rfl⟩ := exists_metrics s m'
    exact ⟨s', ⟨hl', hf⟩, hl.trans hl'.symm, by rw [hl']; exact hg⟩
  · rintro ⟨s', hf, hg⟩
    exact ⟨hg.limits.trans hf.limits, bind_eq_ok.2 ⟨_, hf.metrics, by rw [← hf.limits]; exact hg.metrics⟩⟩

/-- `enter` charges a node at its depth -/
theorem enter_eq_ok {d : ℕ} : s.enter d = .ok s' ↔ Charges (enterValue d) s s' := by
  have hmax : s.limits.maxNodes.toNat ≤ u64Max := Nat.le_pred_of_lt s.limits.maxNodes.toNat_lt
  constructor
  · intro h
    unfold enter at h
    split_ifs at h with hd
    simp only [bind_eq_ok, checkedAdd_eq_ok] at h
    obtain ⟨_, ⟨_, rfl⟩, h⟩ := h
    split_ifs at h with hn
    cases h
    exact ⟨rfl, enterValue_eq_ok.2 ⟨not_lt.1 hd, not_lt.1 hn, rfl⟩⟩
  · rintro ⟨hl, hm⟩
    obtain ⟨hd, hn, he⟩ := enterValue_eq_ok.1 hm
    simp only [DecodeState.metrics] at hn
    unfold enter
    rw [if_neg (not_lt.2 hd), bind_eq_ok]
    refine ⟨s.nodes + 1, checkedAdd_eq_ok.2 ⟨le_trans hn hmax, rfl⟩, ?_⟩
    rw [if_neg (not_lt.2 hn), Except.ok.injEq]
    refine (ext_metrics ?_ ?_).symm
    · exact hl
    · exact he

/-- `payload` charges the bytes of a payload -/
theorem payload_eq_ok {n : ℕ} : s.payload n = .ok s' ↔ Charges (addPayload n) s s' := by
  have hmax : s.limits.maxPayloadBytes.toNat ≤ u64Max := Nat.le_pred_of_lt s.limits.maxPayloadBytes.toNat_lt
  simp only [payload, bind_eq_ok, checkedAdd_eq_ok]
  constructor
  · rintro ⟨_, ⟨_, rfl⟩, h⟩
    split_ifs at h with hn
    cases h
    exact ⟨rfl, addPayload_eq_ok.2 ⟨not_lt.1 hn, rfl⟩⟩
  · rintro ⟨hl, hm⟩
    obtain ⟨hn, he⟩ := addPayload_eq_ok.1 hm
    simp only [DecodeState.metrics] at hn
    refine ⟨_, ⟨le_trans hn hmax, rfl⟩, ?_⟩
    rw [if_neg (not_lt.2 hn), Except.ok.injEq]
    refine (ext_metrics ?_ ?_).symm
    · exact hl
    · exact he

/-- a collection passes when its length is within the limit -/
theorem collection_eq_ok {n : ℕ} {u : Unit} : s.collection n = .ok u ↔ n ≤ s.limits.maxCollectionLen.toNat := by
  unfold collection
  split_ifs with h
  · simp [not_le.2 h]
  · simp [not_lt.1 h]

/-- a reservation never fails for elements of some size -/
theorem reservation_ok (s : DecodeState) (count remaining : ℕ) {minimum : ℕ} (h : minimum ≠ 0) :
    ∃ n, s.reservation count remaining minimum = .ok n := by
  simp [reservation, initialCollectionCapacity, h, ok_bind, pure_eq]

end DecodeState

/-- a length passes when it is within the limit -/
theorem validateCollectionLen_eq_ok {n : ℕ} {limits : ValueLimits} {u : Unit} :
    validateCollectionLen n limits = .ok u ↔ n ≤ limits.maxCollectionLen.toNat := by
  have hmax : limits.maxCollectionLen.toNat ≤ u32Max := Nat.le_pred_of_lt limits.maxCollectionLen.toNat_lt
  unfold validateCollectionLen
  split_ifs with h1 h2
  · simp [not_le.2 (lt_of_le_of_lt hmax h1)]
  · simp [not_le.2 h2]
  · simp [not_lt.1 h2]

end ZenoFcis
