/-
Keys as strings of 256 bits: what `bit`, `prefix`, `sibling_prefix` and the key order say about them.
-/
import ZenoFcis.Lib.BigEndian
import ZenoFcis.Lib.BitTrie
import ZenoFcis.Collection.Merkle

namespace ZenoFcis.CollectionMerkle

open Lib

/-- bit `depth` of a key as the loops test it -/
def bitSet (key : Key) (depth : ℕ) : Bool := bit key depth != 0

/-- the key as a big-endian number -/
def Key.value (key : Key) : ℕ := ofBeBytes key.bytes

/-! ## Bits of bytes -/

/-- a shifted byte shows its bit -/
theorem byte_bit (b : UInt8) {r : ℕ} (hr : r < 8) : (b >>> UInt8.ofNat r &&& 1 != 0) = b.toNat.testBit r := by
  rw [Nat.testBit, Nat.and_comm, bne, bne]
  congr 1
  rw [Bool.eq_iff_iff, beq_iff_eq, beq_iff_eq, ← UInt8.toNat_inj]
  simp [UInt8.toNat_shiftRight, Nat.mod_eq_of_lt hr]

/-- a mask keeps the first bits of a byte -/
theorem mask_bit : ∀ r < 8, ∀ j < 8, r ≠ 0 →
    ((0xff : UInt8) <<< UInt8.ofNat (8 - r)).toNat.testBit (7 - j) = decide (j < r) := by decide

/-- a flip has one bit -/
theorem flip_bit : ∀ r < 8, ∀ j < 8, ((1 : UInt8) <<< UInt8.ofNat (7 - r)).toNat.testBit (7 - j) = decide (j = r) := by
  decide

/-- a tabulated key has the tabulated bytes -/
theorem byteAt_tabulate {f : ℕ → UInt8} {i : ℕ} (hi : i < 32) : byteAt (tabulate f) i = f i := by
  simp [byteAt, tabulate, hi]

/-- bits are numbered from the highest bit of the first byte -/
theorem bitSet_eq (key : Key) (d : ℕ) : bitSet key d = (byteAt key (d / 8)).toNat.testBit (7 - d % 8) :=
  byte_bit _ (by omega)

/-- a zero bit goes left -/
theorem bit_eq_zero (key : Key) (d : ℕ) : bit key d = 0 ↔ bitSet key d = false := by
  simp [bitSet]

/-- bits agree when they go to the same side -/
theorem bit_beq (a b : Key) (d : ℕ) : (bit a d == bit b d) = (bitSet a d == bitSet b d) := by
  have hle : ∀ k, bit k d = 0 ∨ bit k d = 1 := by
    intro k
    have h : (bit k d).toNat ≤ 1 := by
      rw [bit, UInt8.toNat_and]
      exact Nat.and_le_right
    rcases Nat.le_one_iff_eq_zero_or_eq_one.1 h with h | h
    · exact .inl (UInt8.toNat_inj.1 h)
    · exact .inr (UInt8.toNat_inj.1 h)
  rcases hle a with ha | ha <;> rcases hle b with hb | hb <;> simp [bitSet, ha, hb]

/-- bits of a key are bits of its number, from the highest down -/
theorem bitSet_testBit {key : Key} {d : ℕ} (hd : d < keyBits) : bitSet key d = key.value.testBit (255 - d) := by
  have hlen := key.length_eq
  have hbyte : d / 8 < key.bytes.length := by
    rw [hlen]
    have : d < 256 := hd
    omega
  have h := ofBeBytes_testBit (j := 7 - d % 8) hbyte (by omega)
  rw [bitSet_eq, byteAt, ← h, Key.value, hlen]
  congr 1
  have : d < 256 := hd
  omega

/-! ## The order -/

/-- a key is below 2 ^ 256 -/
theorem Key.value_lt (key : Key) : key.value < 2 ^ 256 := by
  have h := ofBeBytes_lt key.bytes
  rw [key.length_eq] at h
  exact lt_of_lt_of_eq h (by decide)

/-- keys with one value are equal -/
theorem Key.value_inj {a b : Key} (h : a.value = b.value) : a = b := by
  have hbytes := ofBeBytes_inj (a.length_eq.trans b.length_eq.symm) h
  cases a
  cases b
  simp_all

/-- bytes of one length are ordered as the numbers they spell -/
theorem bytesBefore_iff {a b : Bytes} (hlen : a.length = b.length) :
    bytesBefore a b = true ↔ ofBeBytes a < ofBeBytes b := by
  induction a generalizing b with
  | nil =>
    obtain rfl : b = [] := List.length_eq_zero_iff.1 hlen.symm
    simp [bytesBefore]
  | cons x a ih =>
    obtain ⟨y, b, rfl⟩ := List.exists_cons_of_length_eq_add_one hlen.symm
    have hlen' : a.length = b.length := by simpa using hlen
    have ha := ofBeBytes_lt a
    have hb := ofBeBytes_lt b
    rw [ofBeBytes_cons, ofBeBytes_cons, hlen']
    rw [hlen'] at ha
    unfold bytesBefore
    split_ifs with hxy hyx
    · have hnat : x.toNat + 1 ≤ y.toNat := UInt8.lt_iff_toNat_lt.1 hxy
      have hmul := Nat.mul_le_mul_right (256 ^ b.length) hnat
      simp only [true_iff]
      rw [Nat.add_mul] at hmul
      omega
    · have hnat : y.toNat + 1 ≤ x.toNat := UInt8.lt_iff_toNat_lt.1 hyx
      have hmul := Nat.mul_le_mul_right (256 ^ b.length) hnat
      rw [Nat.add_mul] at hmul
      simp only [false_iff]
      omega
    · have heq : x.toNat = y.toNat :=
        Nat.le_antisymm (not_lt.1 fun h => hyx (UInt8.lt_iff_toNat_lt.2 h))
          (not_lt.1 fun h => hxy (UInt8.lt_iff_toNat_lt.2 h))
      rw [ih hlen', heq]
      omega

/-- keys are ordered as numbers -/
theorem before_iff {a b : Key} : before a b = true ↔ a.value < b.value :=
  bytesBefore_iff (a.length_eq.trans b.length_eq.symm)

/-- keys with the same bits are equal -/
theorem bitSet_ext {a b : Key} (h : ∀ i < keyBits, bitSet a i = bitSet b i) : a = b := by
  apply Key.value_inj
  apply Nat.eq_of_testBit_eq
  intro i
  by_cases hi : i < 256
  · have hd : 255 - i < keyBits := by
      have : keyBits = 256 := rfl
      omega
    have h' := h (255 - i) hd
    rw [bitSet_testBit hd, bitSet_testBit hd, show 255 - (255 - i) = i by omega] at h'
    exact h'
  · have hpow : 2 ^ 256 ≤ 2 ^ i := Nat.pow_le_pow_right (by decide) (not_lt.1 hi)
    rw [Nat.testBit_lt_two_pow (lt_of_lt_of_le a.value_lt hpow),
      Nat.testBit_lt_two_pow (lt_of_lt_of_le b.value_lt hpow)]

/-- the smaller of two keys has the zero bit where they first differ -/
theorem before_bits {a b : Key} (h : before a b = true) :
    ∃ e < keyBits, (∀ i < e, bitSet a i = bitSet b i) ∧ bitSet a e = false ∧ bitSet b e = true := by
  obtain ⟨e, he, hsame, ha, hb⟩ := exists_first_bit b.value_lt (before_iff.1 h)
  refine ⟨e, he, fun i hi => ?_, ?_, ?_⟩
  · rw [bitSet_testBit (lt_trans hi he), bitSet_testBit (lt_trans hi he)]
    exact hsame i hi
  · rw [bitSet_testBit he]
    exact ha
  · rw [bitSet_testBit he]
    exact hb

/-! ## Prefixes -/

/-- a prefix keeps the first bits and clears the rest -/
theorem bitSet_keyPrefix {key : Key} {p d : ℕ} (hd : d < keyBits) :
    bitSet (keyPrefix key p) d = (decide (d < p) && bitSet key d) := by
  have hd' : d < 256 := hd
  rw [bitSet_eq, bitSet_eq, keyPrefix, byteAt_tabulate (by omega)]
  have hmin : min p keyBits = min p 256 := rfl
  split_ifs with hwhole hpart
  · rw [decide_eq_true (show d < p by omega), Bool.true_and]
  · obtain ⟨hq, hr⟩ := hpart
    rw [UInt8.toNat_and, Nat.testBit_and, mask_bit _ (by omega) _ (by omega) hr, Bool.and_comm]
    congr 1
    apply decide_eq_decide.2
    omega
  · have hle : ¬ d < p := by omega
    simp [hle]

/-- a sibling prefix flips the last bit that it keeps -/
theorem bitSet_siblingPrefix {key sibling : Key} {p d : ℕ} (h : siblingPrefix key p = some sibling) (hd : d < keyBits) :
    bitSet sibling d = (decide (d < p + 1) && (bitSet key d ^^ decide (d = p))) := by
  have hd' : d < 256 := hd
  unfold siblingPrefix at h
  split_ifs at h with hp
  have hp' : p < 256 := not_le.1 hp
  cases h
  have hpre := @bitSet_keyPrefix key (p + 1) d hd
  rw [bitSet_eq] at hpre
  rw [bitSet_eq, byteAt_tabulate (by omega)]
  split_ifs with hbyte
  · rw [UInt8.toNat_xor, Nat.testBit_xor, hpre, flip_bit _ (by omega) _ (by omega)]
    have hiff : decide (d % 8 = p % 8) = decide (d = p) := decide_eq_decide.2 (by omega)
    rw [hiff]
    by_cases hdp : d = p
    · simp [hdp]
    · simp [hdp]
  · have hdp : d ≠ p := fun e => hbyte (by rw [e])
    rw [hpre]
    simp [hdp]

end ZenoFcis.CollectionMerkle
