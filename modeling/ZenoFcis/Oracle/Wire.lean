/-
Typed-state projections of the oracle relations (`oracle/wire.rs`): records, blobs and integer tuples as closed values,
their metered length, and the digest of their canonical bytes.

SHA-256 is a parameter. `Sized` bounds the encoded length of a projection, which is why projecting and charging a row
never fails.
-/
import ZenoFcis.Oracle.Types

namespace ZenoFcis.Oracle

open Lib Lib.Except

namespace Wire

def unsigned (n : U128) : Value := .u128 (BitVec.ofNat 128 n.val)

/-- `u128::from` of a `u64` -/
def widen (n : U64) : U128 := ⟨n.val, n.fits.trans (by decide)⟩

/-- the fields of a record, numbered from `i` -/
def numbered : ℕ → List Value → Except Failure (List Field)
  | _, [] => .ok []
  | i, v :: values => do
    ensure (i < 2 ^ 16) .canonical
    return .mk (UInt16.ofNat i) v :: (← numbered (i + 1) values)

def record (values : List Value) : Except Failure Value := do
  let fields ← numbered 1 values
  (Value.recordCanonical fields).mapError fun _ => .canonical

def blob (bytes : Bytes) : Except Failure Value := (Value.ownedBytes bytes).mapError fun _ => .canonical

/-- `Value::tuple` with its error renamed -/
def tuple (items : List Value) : Except Failure Value := (Value.tupleOf items).mapError fun _ => .canonical

def integers (xs : List U128) : Except Failure Value := tuple (xs.map unsigned)

def bytes (value : Value) : Except Failure Bytes := value.canonicalBytes.mapError fun _ => .canonical

def hash (sha : Bytes → Hash32) (domain : Bytes) (value : Value) : Except Failure Hash := do
  return sha (domain ++ (← bytes value))

def charge (value : Value) : Work ℕ := do
  step
  let length ← .lift ((encodedLength value).mapError fun _ => .canonical)
  failIf (u64Max < length) .arithmetic
  .charge .byte length
  pure length

/-! ## Sizes -/

/-- a well-formed value of at most `n` encoded bytes -/
def Sized (n : ℕ) (v : Value) : Prop := Valid v ∧ (wire v).length ≤ n

def AllSized (sizes : List ℕ) (values : List Value) : Prop := List.Forall₂ Sized sizes values

theorem Sized.mono {m n : ℕ} {v : Value} (h : Sized m v) (hmn : m ≤ n) : Sized n v := ⟨h.1, h.2.trans hmn⟩

theorem sized_unsigned (n : U128) : Sized 17 (unsigned n) := by
  refine ⟨.u128 _, ?_⟩
  simp [unsigned, wire]

theorem blob_ok {b : Bytes} (h : b.length ≤ 64) : blob b = .ok (.bytes b) := by
  have hfit : ¬ b.length > ValueLimits.defaultMaxPayloadBytes := by
    unfold ValueLimits.defaultMaxPayloadBytes
    omega
  simp [blob, Value.ownedBytes, Value.bytesWithMax, hfit, Except.mapError]

theorem sized_blob {b : Bytes} (h : b.length ≤ 64) : Sized 69 (.bytes b) := by
  refine ⟨.bytes (h.trans (by decide)), ?_⟩
  simp only [wire, List.length_cons, blob_length]
  omega

theorem blob_hash (h : Hash) : blob h.bytes = .ok (.bytes h.bytes) := blob_ok (by rw [h.length_eq]; decide)

theorem blob_id (i : Id) : blob i.bytes = .ok (.bytes i.bytes) := blob_ok i.bounded.2

theorem sized_hash (h : Hash) : Sized 69 (.bytes h.bytes) := sized_blob (by rw [h.length_eq]; decide)

theorem sized_id (i : Id) : Sized 69 (.bytes i.bytes) := sized_blob i.bounded.2

/-- the fields that a record of these values has, numbered from `i` -/
structure Numbered (i : ℕ) (values : List Value) (fields : List Field) : Prop where
  values : fields.map Field.value = values
  ordered : FieldsOrdered fields
  above : ∀ f ∈ fields.head?, f.id.toNat = i

theorem numbered_ok {i : ℕ} {values : List Value} (h : i + values.length ≤ 2 ^ 16) :
    ∃ fields, numbered i values = .ok fields ∧ Numbered i values fields := by
  induction values generalizing i with
  | nil => exact ⟨[], rfl, rfl, List.isChain_nil, by simp⟩
  | cons v values ih =>
    rw [List.length_cons] at h
    obtain ⟨fields, hok, hfields⟩ := @ih (i + 1) (by omega)
    have hi : i < 2 ^ 16 := by omega
    have hid : (UInt16.ofNat i).toNat = i := by
      rw [UInt16.toNat_ofNat']
      exact Nat.mod_eq_of_lt hi
    refine ⟨.mk (UInt16.ofNat i) v :: fields, ?_, ?_, ?_, ?_⟩
    · simp only [numbered, ensure_bind hi, hok, ok_bind, pure_eq]
    · simp [hfields.values]
    · cases fields with
      | nil => exact List.isChain_singleton _
      | cons f fields =>
        refine List.isChain_cons_cons.2 ⟨?_, hfields.ordered⟩
        rw [Field.id_mk, UInt16.lt_iff_toNat_lt, hid, hfields.above f rfl]
        omega
    · simp [hid]

theorem length_wireFields {sizes : List ℕ} {fields : List Field} (h : AllSized sizes (fields.map Field.value)) :
    (wireFields fields).length ≤ (sizes.map (2 + ·)).sum := by
  induction fields generalizing sizes with
  | nil => simp [wireFields]
  | cons f fields ih =>
    cases sizes with
    | nil => cases h
    | cons n sizes =>
      rw [List.map_cons] at h
      obtain ⟨hf, hs⟩ := List.forall₂_cons.1 h
      have hi := ih hs
      have hw := hf.2
      cases f
      simp only [wireFields, List.length_append, beBytes_length, List.map_cons, List.sum_cons, Field.value_mk] at hw ⊢
      omega

theorem AllSized.valid {sizes : List ℕ} {values : List Value} (h : AllSized sizes values) :
    ∀ v ∈ values, Valid v := by
  induction h with
  | nil => simp
  | cons hv _ ih =>
    intro w hw
    rcases List.mem_cons.1 hw with rfl | hw
    · exact hv.1
    · exact ih w hw

/-- a record of values of some sizes has their sum as its size -/
theorem record_sized {sizes : List ℕ} {values : List Value} (h : AllSized sizes values)
    (hlen : values.length < 2 ^ 16) :
    ∃ v, record values = .ok v ∧ Sized (5 + (sizes.map (2 + ·)).sum) v := by
  obtain ⟨fields, hok, hfields⟩ := @numbered_ok 1 values (by omega)
  have hcount : fields.length = values.length := by rw [← hfields.values, List.length_map]
  have hvalid : ∀ f ∈ fields, Valid f.value := by
    intro f hf
    refine h.valid f.value ?_
    rw [← hfields.values]
    exact List.mem_map_of_mem hf
  have hwire : fields.length ≤ u32Max := by
    unfold u32Max
    omega
  refine ⟨.record fields, ?_, .record hwire hfields.ordered hvalid, ?_⟩
  · simp [record, hok, ok_bind, Value.recordCanonical, (checkWireLength_eq_ok (u := ())).2 hwire,
      (ensureStrictFields_eq_ok (u := ())).2 hfields.ordered, Except.mapError]
  · have hfieldsLength := length_wireFields (hfields.values.symm ▸ h)
    simp only [wire, List.length_cons, List.length_append, beBytes_length]
    omega

/-- a value within its size is charged its length -/
theorem result_charge {n : ℕ} {v : Value} (h : Sized n v) (hn : n ≤ u64Max) :
    (charge v).result = .ok (wire v).length := by
  have hlen : encodedLength v = .ok (wire v).length := encodedLength_of_le h.1 (h.2.trans hn)
  have hle : ¬ u64Max < (wire v).length := not_lt.2 (h.2.trans hn)
  simp [charge, hlen, failIf, hle, ok_bind, Except.mapError]

/-! ## Failures -/

theorem lawless_numbered (i : ℕ) (values : List Value) : Lawless (numbered i values) := by
  induction values generalizing i with
  | nil => exact Lawless.ok _
  | cons v values ih => exact Lawless.ensure_bind (by trivial) fun _ => (ih _).bind fun _ => Lawless.ok _

theorem lawless_record (values : List Value) : Lawless (record values) :=
  (lawless_numbered 1 values).bind fun _ => lawless_mapError (by trivial)

theorem lawless_blob (b : Bytes) : Lawless (blob b) := lawless_mapError (by trivial)

theorem lawless_tuple (items : List Value) : Lawless (tuple items) := lawless_mapError (by trivial)

theorem lawless_bytes (v : Value) : Lawless (bytes v) := lawless_mapError (by trivial)

theorem lawless_hash (sha : Bytes → Hash32) (domain : Bytes) (v : Value) : Lawless (hash sha domain v) :=
  (lawless_bytes v).bind fun _ => Lawless.ok _

theorem lawless_charge (v : Value) : Lawless (charge v).result := by
  simp only [charge, Metered.result_bind, result_step, Metered.result_lift, failIf_eq, Metered.result_charge,
    Metered.result_pure, ok_bind]
  refine (lawless_mapError (by trivial)).bind fun _ => (lawless_ensure (by trivial)).bind fun _ => ?_
  exact Lawless.ok _

end Wire

end ZenoFcis.Oracle
