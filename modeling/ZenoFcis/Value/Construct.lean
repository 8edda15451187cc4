/-
The public constructors of closed values, and `Built`, the values they can build. `Value`'s representation is private in
the source, so a value of a running program is always a `Built` one.
-/
import ZenoFcis.Value.Encode

namespace ZenoFcis

namespace MapEntry

/-- derives the ordering bytes from the semantic key under the supplied limits -/
def tryNewWithLimits (key value : Value) (limits : ValueLimits) : Except ValueError MapEntry := do
  let encodedKey ← key.zcveBytesWithLimits limits
  checkWireLength encodedKey.length
  return .mk encodedKey key value

def tryNew (key value : Value) : Except ValueError MapEntry := tryNewWithLimits key value .default

end MapEntry

namespace Value

def bytesWithLimits (bytes : Bytes) (limits : ValueLimits) : Except ValueError Value := do
  checkWireLength bytes.length
  let _ ← (Value.bytes bytes).validateLimits limits
  return .bytes bytes

/-- non-ASCII refusal precedes size and resource refusal -/
def textAsciiWithLimits (text : Bytes) (limits : ValueLimits) : Except ValueError Value := do
  if !isAscii text then .error .nonAsciiText
  else
    checkWireLength text.length
    let _ ← (Value.text text).validateLimits limits
    return .text text

def bytesWithMax (bytes : Bytes) (maximum : ℕ) : Except LengthError Value :=
  if bytes.length > maximum then .error ⟨0, maximum, bytes.length⟩ else .ok (.bytes bytes)

def textAsciiWithMax (text : Bytes) (maximum : ℕ) : Except TextError Value :=
  if !isAscii text then .error .nonAscii
  else if text.length > maximum then .error (.tooLong ⟨0, maximum, text.length⟩)
  else .ok (.text text)

/-- `Value::bytes` -/
def ownedBytes (bytes : Bytes) : Except LengthError Value := bytesWithMax bytes ValueLimits.defaultMaxPayloadBytes

def textAscii (text : Bytes) : Except TextError Value := textAsciiWithMax text ValueLimits.defaultMaxPayloadBytes

/-- `Value::tuple` -/
def tupleOf (items : List Value) : Except ValueError Value := do
  checkWireLength items.length
  return .tuple items

/-- `Value::vector` -/
def vectorOf (items : List Value) : Except ValueError Value := do
  checkWireLength items.length
  return .vector items

def recordCanonical (fields : List Field) : Except ValueError Value := do
  checkWireLength fields.length
  ensureStrictFields fields
  return .record fields

/-- sorts fields by identifier (a stable sort) and rejects duplicates -/
def normalizeRecord (fields : List Field) : Except ValueError Value :=
  recordCanonical (fields.mergeSort fun left right => left.id ≤ right.id)

/-- the loop of `map_canonical` over the entries' value lengths -/
def checkEntryValues : List MapEntry → Except ValueError Unit
  | [] => .ok ()
  | entry :: entries => do
    checkWireLength (← encodedLength entry.value)
    checkEntryValues entries

def mapCanonical (entries : List MapEntry) : Except ValueError Value := do
  checkWireLength entries.length
  ensureStrictMapKeys entries
  checkEntryValues entries
  return .map entries

/-- sorts entries by encoded key (a stable sort) and rejects duplicates -/
def normalizeMap (entries : List MapEntry) : Except ValueError Value :=
  mapCanonical (entries.mergeSort fun left right => !bytesBefore right.encodedKey left.encodedKey)

end Value

mutual

/-- the values that the public constructors build -/
inductive Built : Value → Prop where
  | unit : Built .unit
  | boolean (b : Bool) : Built (.bool b)
  | unsigned (n : BitVec 128) : Built (.u128 n)
  | signed (n : I128) : Built (.i128 n)
  | enumeration (t : UInt32) (w : UInt16) : Built (.enum t w)
  | sum (t : UInt32) (w : UInt16) {payload : Option Value} (h : ∀ v ∈ payload, Built v) : Built (.sum t w payload)
  | bytesWithLimits {b : Bytes} {limits : ValueLimits} {v : Value} (h : Value.bytesWithLimits b limits = .ok v) :
      Built v
  | ownedBytes {b : Bytes} {v : Value} (h : Value.ownedBytes b = .ok v) : Built v
  | textAsciiWithLimits {t : Bytes} {limits : ValueLimits} {v : Value}
      (h : Value.textAsciiWithLimits t limits = .ok v) : Built v
  | textAscii {t : Bytes} {v : Value} (h : Value.textAscii t = .ok v) : Built v
  | tuple {items : List Value} {v : Value} (hs : ∀ w ∈ items, Built w) (h : Value.tupleOf items = .ok v) : Built v
  | vector {items : List Value} {v : Value} (hs : ∀ w ∈ items, Built w) (h : Value.vectorOf items = .ok v) : Built v
  | recordCanonical {fields : List Field} {v : Value} (hs : ∀ f ∈ fields, Built f.value)
      (h : Value.recordCanonical fields = .ok v) : Built v
  | normalizeRecord {fields : List Field} {v : Value} (hs : ∀ f ∈ fields, Built f.value)
      (h : Value.normalizeRecord fields = .ok v) : Built v
  | mapCanonical {entries : List MapEntry} {v : Value} (hs : ∀ e ∈ entries, BuiltEntry e)
      (h : Value.mapCanonical entries = .ok v) : Built v
  | normalizeMap {entries : List MapEntry} {v : Value} (hs : ∀ e ∈ entries, BuiltEntry e)
      (h : Value.normalizeMap entries = .ok v) : Built v

/-- the entries that `MapEntry::try_new_with_limits` (hence `try_new`) builds -/
inductive BuiltEntry : MapEntry → Prop where
  | tryNewWithLimits {key value : Value} {limits : ValueLimits} {e : MapEntry} (hk : Built key) (hv : Built value)
      (h : MapEntry.tryNewWithLimits key value limits = .ok e) : BuiltEntry e

end

end ZenoFcis
