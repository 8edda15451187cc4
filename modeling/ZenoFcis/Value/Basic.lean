/-
Closed values of the ZCVE/1 profile (`zeno-fcis-value`): the value tree, its limits and metrics, and the errors of
construction and validation.

A `str` is the list of its UTF-8 bytes and a `usize` is 64 bits wide. Machine counters are natural numbers with the
source's checked additions; limits and wire identifiers keep their fixed-width types.
-/
import Mathlib.Tactic

namespace ZenoFcis

abbrev Bytes := List UInt8

def u32Max : ℕ := 2 ^ 32 - 1

def u64Max : ℕ := 2 ^ 64 - 1

def usizeMax : ℕ := 2 ^ 64 - 1

/-- `left.checked_add(right).ok_or(error)` on an unsigned type with the given maximum -/
def checkedAdd {ε : Type} (max left right : ℕ) (error : ε) : Except ε ℕ :=
  if left + right ≤ max then .ok (left + right) else .error error

/-- `i128` -/
structure I128 where
  val : ℤ
  lo : -2 ^ 127 ≤ val
  hi : val < 2 ^ 127
deriving DecidableEq

/-! ## Values -/

mutual

/-- the representation behind `Value`; only the public constructors of `Construct` build one -/
inductive Value where
  | unit
  | bool (value : Bool)
  | u128 (value : BitVec 128)
  | i128 (value : I128)
  | bytes (bytes : Bytes)
  | text (text : Bytes)
  | enum (typeId : UInt32) (variant : UInt16)
  | tuple (items : List Value)
  | record (fields : List Field)
  | sum (typeId : UInt32) (variant : UInt16) (payload : Option Value)
  | vector (items : List Value)
  | map (entries : List MapEntry)

/-- a record field -/
inductive Field where
  | mk (id : UInt16) (value : Value)

/-- a map entry with the encoded key that orders it -/
inductive MapEntry where
  | mk (encodedKey : Bytes) (key value : Value)

end

namespace Field

def id : Field → UInt16
  | mk id _ => id

def value : Field → Value
  | mk _ value => value

@[simp] theorem id_mk (i : UInt16) (v : Value) : (mk i v).id = i := rfl

@[simp] theorem value_mk (i : UInt16) (v : Value) : (mk i v).value = v := rfl

@[simp] theorem mk_eta (f : Field) : mk f.id f.value = f := by cases f; rfl

end Field

namespace MapEntry

def encodedKey : MapEntry → Bytes
  | mk encodedKey _ _ => encodedKey

def key : MapEntry → Value
  | mk _ key _ => key

def value : MapEntry → Value
  | mk _ _ value => value

@[simp] theorem encodedKey_mk (b : Bytes) (k v : Value) : (mk b k v).encodedKey = b := rfl

@[simp] theorem key_mk (b : Bytes) (k v : Value) : (mk b k v).key = k := rfl

@[simp] theorem value_mk (b : Bytes) (k v : Value) : (mk b k v).value = v := rfl

@[simp] theorem mk_eta (e : MapEntry) : mk e.encodedKey e.key e.value = e := by cases e; rfl

end MapEntry

inductive ValueKind where
  | unit | bool | u128 | i128 | bytes | text | enum | tuple | record | sum | vector | map
deriving DecidableEq

/-- the structural kind of a value -/
def Value.kind : Value → ValueKind
  | .unit => .unit
  | .bool _ => .bool
  | .u128 _ => .u128
  | .i128 _ => .i128
  | .bytes _ => .bytes
  | .text _ => .text
  | .enum _ _ => .enum
  | .tuple _ => .tuple
  | .record _ => .record
  | .sum _ _ _ => .sum
  | .vector _ => .vector
  | .map _ => .map

/-- induction over values -/
@[elab_as_elim, induction_eliminator]
theorem Value.ind {P : Value → Prop} (unit : P .unit) (bool : ∀ b, P (.bool b)) (u128 : ∀ n, P (.u128 n))
    (i128 : ∀ n, P (.i128 n)) (bytes : ∀ b, P (.bytes b)) (text : ∀ t, P (.text t)) (enum : ∀ t w, P (.enum t w))
    (tuple : ∀ items, (∀ v ∈ items, P v) → P (.tuple items))
    (record : ∀ fields, (∀ f ∈ fields, P f.value) → P (.record fields))
    (sum : ∀ t w payload, (∀ v ∈ payload, P v) → P (.sum t w payload))
    (vector : ∀ items, (∀ v ∈ items, P v) → P (.vector items))
    (map : ∀ entries, (∀ e ∈ entries, P e.key ∧ P e.value) → P (.map entries)) (v : Value) : P v := by
  refine @Value.rec P (fun f => P f.value) (fun e => P e.key ∧ P e.value) (fun items => ∀ v ∈ items, P v)
    (fun fields => ∀ f ∈ fields, P f.value) (fun payload => ∀ v ∈ payload, P v)
    (fun entries => ∀ e ∈ entries, P e.key ∧ P e.value) unit bool u128 i128 bytes text enum tuple record sum vector
    map (fun _ _ h => h) (fun _ _ _ hk hv => ⟨hk, hv⟩) ?_ ?_ ?_ ?_ ?_ ?_ ?_ ?_ v
  all_goals simp +contextual

/-! ## Limits, metrics and errors -/

/-- deterministic closed-value resource limits -/
structure ValueLimits where
  maxDepth : UInt32
  maxNodes : UInt64
  maxPayloadBytes : UInt64
  maxCollectionLen : UInt32
deriving DecidableEq

namespace ValueLimits

def defaultMaxPayloadBytes : ℕ := 64 * 1024 * 1024

def maxSupportedDepth : UInt32 := 1024

/-- the depth limit enforced: `maxDepth` capped at `maxSupportedDepth` -/
def effectiveMaxDepth (limits : ValueLimits) : UInt32 :=
  if limits.maxDepth < maxSupportedDepth then limits.maxDepth else maxSupportedDepth

def default : ValueLimits := ⟨64, 1000000, 67108864, 1000000⟩

/-- the depth limit is at most 1,024 -/
theorem effectiveMaxDepth_le (limits : ValueLimits) : limits.effectiveMaxDepth.toNat ≤ 1024 := by
  unfold effectiveMaxDepth
  split_ifs with h
  · exact (UInt32.lt_iff_toNat_lt.1 h).le
  · exact le_rfl

end ValueLimits

/-- structural metrics observed during limit validation -/
structure ValueMetrics where
  nodes : ℕ
  payloadBytes : ℕ
  depth : ℕ
deriving DecidableEq

inductive ValueError where
  | recordFieldOrder (previous current : UInt16)
  | mapKeyOrder
  | nonAsciiText
  | depthLimit (limit attempted : ℕ)
  | nodeLimit (limit attempted : ℕ)
  | payloadLimit (limit attempted : ℕ)
  | collectionLimit (limit attempted : ℕ)
  | arithmeticOverflow
deriving DecidableEq

/-- a length outside its inclusive range -/
structure LengthError where
  minimum : ℕ
  maximum : ℕ
  actual : ℕ
deriving DecidableEq

inductive TextError where
  | nonAscii
  | tooLong (error : LengthError)
deriving DecidableEq

end ZenoFcis
