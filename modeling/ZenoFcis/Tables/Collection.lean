/-
The bounded maps of an execution and their byte accounting (`tables/collection.rs`), with the snapshot format they
account for (`zeno-fcis-collections/src/bounded.rs`). Results:
- `run_accounted`: over every history the entries are sorted, the limits hold and the counter is the snapshot length;
- `insert_eq_ok`, `remove_eq`: what an insertion accepts and gives, and that a removal is never refused;
- `size_eq`: the derived size is the length of the encoding, unless the value holds an enumeration;
- `judges_frame`: the frame decides the agreement of two maps outside the written keys.
-/
import ZenoFcis.Patch.Order
import ZenoFcis.Tables.Redemption
import ZenoFcis.Value.Equality
import ZenoFcis.Value.Limits

namespace ZenoFcis.Tables.Collection

open Lib Lib.Except Lib.Metered
open Oracle (Resource)

/-- resource policy of a bounded collection; the limits count encoded bytes -/
structure CollectionLimits where
  maxEntries : UInt32
  maxItemBytes : UInt64
  maxSnapshotBytes : UInt64
deriving DecidableEq

inductive BoundedError where
  | wire
  | arithmeticOverflow
  | itemTooLarge
  | full
  | snapshotTooLarge
deriving DecidableEq

/-- canonical entries owned by one invocation, with the counter of their snapshot bytes -/
structure Map where
  entries : List MapEntry
  limits : CollectionLimits
  bytes : ℕ

def add (a b : ℕ) : Except BoundedError ℕ := checkedAdd u64Max a b .arithmeticOverflow

namespace Map

def empty (limits : CollectionLimits) : Except BoundedError Map := do
  ensure (29 ≤ limits.maxSnapshotBytes.toNat) .wire
  return ⟨[], limits, 29⟩

/-- a length of at most `usize` is a `u64` -/
def itemSize (entry : MapEntry) : Except BoundedError ℕ := do
  let _ ← (entry.value.validateLimits .default).mapError fun _ => BoundedError.wire
  let value ← (encodedLength entry.value).mapError fun _ => BoundedError.wire
  add (← add entry.encodedKey.length 16) value

def insert (m : Map) (entry : MapEntry) : Except BoundedError Map := do
  let size ← itemSize entry
  let found := binarySearch MapEntry.encodedKey entry.encodedKey m.entries
  let oldSize ← match found with
    | .ok i => itemSize m.entries[i]
    | .error _ => pure 0
  let count ← checkedAdd usizeMax m.entries.length (match found with | .ok _ => 0 | .error _ => 1)
    .arithmeticOverflow
  ensure (oldSize ≤ m.bytes) .arithmeticOverflow
  let bytes ← add (m.bytes - oldSize) size
  ensure (size ≤ m.limits.maxItemBytes.toNat) .itemTooLarge
  ensure (count ≤ m.limits.maxEntries.toNat) .full
  ensure (bytes ≤ m.limits.maxSnapshotBytes.toNat) .snapshotTooLarge
  return {
    m with
    entries := match found with
      | .ok i => m.entries.set i entry
      | .error i => m.entries.insertIdx i entry
    bytes }

def remove (m : Map) (key : Bytes) : Except BoundedError Map :=
  match binarySearch MapEntry.encodedKey key m.entries with
  | .ok i => do
    let size ← itemSize m.entries[i]
    ensure (size ≤ m.bytes) .arithmeticOverflow
    return { m with entries := m.entries.eraseIdx i, bytes := m.bytes - size }
  | .error _ => .ok m

end Map

/-! ## Sizes -/

def addSize (a b : ℕ) : Work ℕ := .lift (checkedAdd u64Max a b .arithmetic)

mutual

/-- a charged traversal that derives the encoded length -/
def size : Value → Work ℕ
  | .unit | .bool _ => do step; pure 1
  | .i128 _ | .u128 _ => do step; pure 17
  | .bytes b => do step; addSize 5 b.length
  | .text b => do step; addSize 5 b.length
  | .tuple items | .vector items => do step; sizeItems items 5
  | .record fields => do step; sizeFields fields 5
  | .map entries => do step; sizeEntries entries 5
  | .sum _ _ (some v) => do step; addSize 8 (← size v)
  | .sum _ _ none => do step; pure 8
  | .enum _ _ => do step; .fail .kind

def sizeItems : List Value → ℕ → Work ℕ
  | [], n => pure n
  | v :: items, n => do
    let n ← addSize n (← size v)
    sizeItems items n

def sizeFields : List Field → ℕ → Work ℕ
  | [], n => pure n
  | .mk _ v :: fields, n => do
    step
    let n ← addSize n 2
    let n ← addSize n (← size v)
    sizeFields fields n

def sizeEntries : List MapEntry → ℕ → Work ℕ
  | [], n => pure n
  | .mk _ k v :: entries, n => do
    visit
    let n ← addSize n 8
    let n ← addSize n (← size k)
    let n ← addSize n (← size v)
    sizeEntries entries n

end

def reserve (v : Value) : Work Unit := do
  .charge .byte (← size v)

/-- `canonical_bytes` -/
def encode (v : Value) : Work Bytes := do
  reserve v
  .lift ((v.zcveBytes).mapError fun _ => .wire)

/-! ## The frame of two maps -/

def entries : Value → Work (List MapEntry)
  | .map es => pure es
  | _ => .fail .kind

def compare (a b : Bytes) : Work Unit := do
  step
  .charge .byte (← addSize a.length b.length)

/-- the comparisons of a key with the written ones -/
def written (writes : List Bytes) (key : Bytes) : Work Bool :=
  writes.foldlM (fun found w => do
    compare w key
    return found || w == key) false

def reserveSome : Option Value → Work Unit
  | some v => reserve v
  | none => pure ()

/-- the visit of one key: what is not written must be the same on both sides -/
def visitKey (writes : List Bytes) (key : Bytes) (left right : Option Value) : Work Bool := do
  if ← written writes key then pure true
  else do
    reserveSome left
    reserveSome right
    return decide (left = right)

/-- the merge of two sorted lists of entries -/
def merge (writes : List Bytes) : List MapEntry → List MapEntry → Work Bool
  | [], [] => pure true
  | x :: xs, [] => do
    visit
    if ← visitKey writes x.encodedKey (some x.value) none then merge writes xs [] else pure false
  | [], y :: ys => do
    visit
    if ← visitKey writes y.encodedKey none (some y.value) then merge writes [] ys else pure false
  | x :: xs, y :: ys => do
    visit
    compare x.encodedKey y.encodedKey
    if x.encodedKey < y.encodedKey then
      if ← visitKey writes x.encodedKey (some x.value) none then merge writes xs (y :: ys) else pure false
    else if y.encodedKey < x.encodedKey then
      if ← visitKey writes y.encodedKey none (some y.value) then merge writes (x :: xs) ys else pure false
    else
      if ← visitKey writes x.encodedKey (some x.value) (some y.value) then merge writes xs ys else pure false
termination_by xs ys => xs.length + ys.length

def frame (pre post : Value) (keys : List Value) : Work Bool := do
  let a ← entries pre
  let b ← entries post
  let writes ← keys.mapM encode
  merge writes a b

/-! ## The accounting of a map -/

/-- the snapshot bytes of an entry: two lengths of eight bytes with the key and the value -/
def itemBytes (e : MapEntry) : ℕ := 16 + e.encodedKey.length + (wire e.value).length

def snapshotLength (entries : List MapEntry) : ℕ := 29 + (entries.map itemBytes).sum

/-- the snapshot format of the collections: version, kind, policy and count, then every key and value with its length -/
def snapshot (kind : UInt8) (m : Map) : Bytes :=
  [0x5a, 0x42, 0x43, 0x31] ++ [kind] ++ beBytes 4 m.limits.maxEntries.toNat ++ beBytes 8 m.limits.maxItemBytes.toNat ++
    beBytes 8 m.limits.maxSnapshotBytes.toNat ++ beBytes 4 m.entries.length ++
    m.entries.flatMap fun e => blob 8 e.encodedKey ++ blob 8 (wire e.value)

theorem snapshot_length (kind : UInt8) (m : Map) : (snapshot kind m).length = snapshotLength m.entries := by
  have hitems : (m.entries.flatMap fun e => blob 8 e.encodedKey ++ blob 8 (wire e.value)).length =
      (m.entries.map itemBytes).sum := by
    rw [List.length_flatMap]
    refine congrArg List.sum (List.map_congr_left fun e _ => ?_)
    rw [List.length_append, blob_length, blob_length, itemBytes]
    omega
  unfold snapshot snapshotLength
  simp only [List.length_append, List.length_cons, List.length_nil, beBytes_length, hitems]

/-- the values that an item may hold -/
def Storable (e : MapEntry) : Prop := ∃ metrics, e.value.validateLimits .default = .ok metrics

variable {e entry : MapEntry} {n : ℕ}

theorem itemSize_ok (h : Map.itemSize e = .ok n) :
    n = itemBytes e ∧ Storable e ∧ itemBytes e ≤ u64Max := by
  unfold Map.itemSize add at h
  simp only [bind_eq_ok, mapError_eq_ok, checkedAdd_eq_ok] at h
  obtain ⟨metrics, hmetrics, value, hvalue, framed, ⟨-, rfl⟩, hle, rfl⟩ := h
  have hlength := encodedLength_ok hvalue
  have hbytes : itemBytes e = e.encodedKey.length + 16 + value := by
    rw [itemBytes, hlength]
    omega
  exact ⟨hbytes.symm, ⟨metrics, hmetrics⟩, hbytes.trans_le hle⟩

theorem itemSize_of (hvalid : ZenoFcis.Valid e.value) (hstorable : Storable e) (hle : itemBytes e ≤ u64Max) :
    Map.itemSize e = .ok (itemBytes e) := by
  obtain ⟨metrics, hmetrics⟩ := hstorable
  have hbytes : e.encodedKey.length + 16 + (wire e.value).length = itemBytes e := by
    rw [itemBytes]
    omega
  have hvalue : encodedLength e.value = .ok (wire e.value).length := by
    refine encodedLength_of_le hvalid (le_trans ?_ hle)
    rw [itemBytes]
    omega
  unfold Map.itemSize add
  simp only [bind_eq_ok, mapError_eq_ok, checkedAdd_eq_ok]
  exact ⟨metrics, hmetrics, _, hvalue, _, ⟨by omega, rfl⟩, by omega, hbytes.symm⟩

section Put

variable {α κ : Type} [LinearOrder κ] {key : α → κ} {k : κ} {l : List α}

/-- the share of an optional entry -/
def share (f : α → ℕ) : Option α → ℕ
  | none => 0
  | some x => f x

theorem sum_toList (f : α → ℕ) (x : Option α) : (x.toList.map f).sum = share f x := by
  cases x
  · rfl
  · simp [share]

theorem sum_put (f : α → ℕ) (x : Option α) (hl : Increasing key l) :
    ((put key k x l).map f).sum + share f (slot key k l) = (l.map f).sum + share f x := by
  induction l with
  | nil =>
    rw [put, sum_toList]
    exact Nat.add_comm _ _
  | cons y l ih =>
    rcases lt_trichotomy (key y) k with hlt | heq | hgt
    · have hslot : slot key k (y :: l) = slot key k l := by
        unfold slot
        rw [List.find?_cons_of_neg (by simpa using hlt.ne)]
      rw [put, if_pos hlt, hslot, List.map_cons, List.sum_cons, List.map_cons, List.sum_cons]
      have hrest := ih hl.tail
      omega
    · have hslot : slot key k (y :: l) = some y := by
        unfold slot
        rw [List.find?_cons_of_pos (by simpa using heq)]
      rw [put, if_neg heq.not_lt, if_pos heq, hslot, List.map_append, List.sum_append, sum_toList, List.map_cons,
        List.sum_cons, share]
      omega
    · have hslot : slot key k (y :: l) = none := by
        refine slot_eq_none.2 fun z hz => ?_
        rcases List.mem_cons.1 hz with rfl | hz
        · exact hgt.ne'
        · exact (hgt.trans (hl.head_lt hz)).ne'
      rw [put, if_neg hgt.not_gt, if_neg hgt.ne', hslot, List.map_append, List.sum_append, sum_toList, share]
      omega

theorem length_put (x : Option α) (hl : Increasing key l) :
    (put key k x l).length + share (fun _ => 1) (slot key k l) = l.length + share (fun _ => 1) x := by
  have hsum := sum_put (k := k) (fun _ => 1) x hl
  rw [List.map_const', List.map_const', List.sum_replicate, List.sum_replicate, smul_eq_mul, smul_eq_mul, mul_one,
    mul_one] at hsum
  exact hsum

end Put

/-- a map whose counter is the length of its snapshot, within its limits -/
structure Accounted (m : Map) : Prop where
  sorted : Increasing MapEntry.encodedKey m.entries
  bytes_eq : m.bytes = snapshotLength m.entries
  sized : ∀ e ∈ m.entries, Map.itemSize e = .ok (itemBytes e)
  items_le : ∀ e ∈ m.entries, itemBytes e ≤ m.limits.maxItemBytes.toNat
  count_le : m.entries.length ≤ m.limits.maxEntries.toNat
  bytes_le : m.bytes ≤ m.limits.maxSnapshotBytes.toNat

theorem accounted_empty {limits : CollectionLimits} {m : Map} (h : Map.empty limits = .ok m) :
    m = ⟨[], limits, 29⟩ ∧ Accounted m := by
  unfold Map.empty at h
  simp only [bind_eq_ok, ensure_eq_ok, exists_const] at h
  obtain ⟨hle, heq⟩ := h
  cases heq
  exact ⟨rfl, .nil, rfl, fun e he => absurd he (by simp), fun e he => absurd he (by simp), Nat.zero_le _, hle⟩

/-- what the map holds after an insertion -/
def Map.inserted (m : Map) (entry : MapEntry) : Map :=
  let entries := put MapEntry.encodedKey entry.encodedKey (some entry) m.entries
  { m with entries, bytes := snapshotLength entries }

/-- what the map holds after a removal -/
def Map.removed (m : Map) (key : Bytes) : Map :=
  let entries := put MapEntry.encodedKey key none m.entries
  { m with entries, bytes := snapshotLength entries }

/-- the conditions of an insertion -/
structure Admits (m : Map) (entry : MapEntry) : Prop where
  storable : Storable entry
  item_le : itemBytes entry ≤ m.limits.maxItemBytes.toNat
  count_le : (m.inserted entry).entries.length ≤ m.limits.maxEntries.toNat
  bytes_le : (m.inserted entry).bytes ≤ m.limits.maxSnapshotBytes.toNat

theorem old_share {m : Map} (hm : Accounted m) {key : Bytes}
    (h : slot MapEntry.encodedKey key m.entries = some e) : itemBytes e ≤ m.bytes := by
  have hle := le_sum_map (f := itemBytes) (slot_mem h)
  rw [hm.bytes_eq, snapshotLength]
  omega

theorem insert_eq {m : Map} (hm : Accounted m) (entry : MapEntry) :
    m.insert entry = do
      let size ← Map.itemSize entry
      let count ← checkedAdd usizeMax m.entries.length
        ((m.inserted entry).entries.length - m.entries.length) .arithmeticOverflow
      let bytes ← add (m.bytes - share itemBytes (slot MapEntry.encodedKey entry.encodedKey m.entries)) size
      ensure (size ≤ m.limits.maxItemBytes.toNat) .itemTooLarge
      ensure (count ≤ m.limits.maxEntries.toNat) .full
      ensure (bytes ≤ m.limits.maxSnapshotBytes.toNat) .snapshotTooLarge
      return { m with entries := (m.inserted entry).entries, bytes } := by
  have hlength := length_put (k := entry.encodedKey) (some entry) hm.sorted
  rw [share] at hlength
  unfold Map.insert Map.inserted
  refine bind_congr fun size => ?_
  cases hfound : binarySearch MapEntry.encodedKey entry.encodedKey m.entries with
  | ok i =>
    have hi := binarySearch_ok hfound
    have hslot := hi.slot
    have hsize := hm.sized m.entries[i] (List.getElem_mem i.isLt)
    have hold := old_share hm hslot
    rw [hslot, share] at hlength
    have hcount : (put MapEntry.encodedKey entry.encodedKey (some entry) m.entries).length - m.entries.length = 0 := by
      omega
    simp only [hsize, ok_bind, hslot, share, hcount, hi.set, ensure_bind hold]
  | error i =>
    obtain ⟨hslot, hinsert⟩ := binarySearch_error hm.sorted hfound
    rw [hslot, share] at hlength
    have hcount : (put MapEntry.encodedKey entry.encodedKey (some entry) m.entries).length - m.entries.length = 1 := by
      omega
    simp only [pure_eq, ok_bind, hslot, share, hcount, hinsert, ensure_bind (Nat.zero_le m.bytes)]

/-- **Insertion.** It gives the map with the slot of the key replaced, exactly under its conditions. -/
theorem insert_eq_ok {m m' : Map} (hm : Accounted m) (hvalid : ZenoFcis.Valid entry.value) :
    m.insert entry = .ok m' ↔ Admits m entry ∧ m' = m.inserted entry := by
  have hsum := sum_put (k := entry.encodedKey) itemBytes (some entry) hm.sorted
  have hlength := length_put (k := entry.encodedKey) (some entry) hm.sorted
  rw [share] at hsum hlength
  have hold : share itemBytes (slot MapEntry.encodedKey entry.encodedKey m.entries) ≤ m.bytes := by
    cases hslot : slot MapEntry.encodedKey entry.encodedKey m.entries with
    | none => exact Nat.zero_le _
    | some e => exact old_share hm hslot
  have hbytes : m.bytes - share itemBytes (slot MapEntry.encodedKey entry.encodedKey m.entries) + itemBytes entry =
      (m.inserted entry).bytes := by
    change _ = snapshotLength (put MapEntry.encodedKey entry.encodedKey (some entry) m.entries)
    rw [hm.bytes_eq] at hold ⊢
    unfold snapshotLength at hold ⊢
    omega
  have hgrows : m.entries.length ≤ (m.inserted entry).entries.length := by
    change _ ≤ (put MapEntry.encodedKey entry.encodedKey (some entry) m.entries).length
    cases hslot : slot MapEntry.encodedKey entry.encodedKey m.entries with
    | none | some e =>
      rw [hslot, share] at hlength
      omega
  rw [insert_eq hm]
  simp only [bind_eq_ok, add, checkedAdd_eq_ok, ensure_eq_ok, exists_const]
  constructor
  · rintro ⟨size, hsize, count, ⟨-, hcount⟩, bytes, ⟨-, hnew⟩, hitem, hfull, hsnapshot, hout⟩
    obtain ⟨rfl, hstorable, -⟩ := itemSize_ok hsize
    rw [hbytes] at hnew
    subst hnew
    rw [Nat.add_sub_of_le hgrows] at hcount
    subst hcount
    exact ⟨⟨hstorable, hitem, hfull, hsnapshot⟩, (Except.ok.inj hout).symm⟩
  · rintro ⟨h, hout⟩
    have hitem := h.item_le
    have hsnapshot := h.bytes_le
    have hmax := m.limits.maxItemBytes.toNat_lt
    have hmax' := m.limits.maxSnapshotBytes.toNat_lt
    have hmax'' := m.limits.maxEntries.toNat_lt
    have hfull := h.count_le
    have hword : itemBytes entry ≤ u64Max := by
      unfold u64Max
      omega
    refine ⟨_, itemSize_of hvalid h.storable hword, _, ⟨?_, rfl⟩, _, ⟨?_, rfl⟩, hitem, ?_, ?_, ?_⟩
    · rw [Nat.add_sub_of_le hgrows]
      exact hfull.trans (by unfold usizeMax; omega)
    · rw [hbytes]
      exact hsnapshot.trans (by unfold u64Max; omega)
    · rw [Nat.add_sub_of_le hgrows]
      exact hfull
    · rw [hbytes]
      exact hsnapshot
    · rw [hbytes, hout]
      rfl

/-- **Removal.** It is never refused. -/
theorem remove_eq {m : Map} (hm : Accounted m) (key : Bytes) : m.remove key = .ok (m.removed key) := by
  have hsum := sum_put (k := key) itemBytes none hm.sorted
  rw [share] at hsum
  unfold Map.remove Map.removed
  cases hfound : binarySearch MapEntry.encodedKey key m.entries with
  | ok i =>
    have hi := binarySearch_ok hfound
    have hslot := hi.slot
    have hsize := hm.sized m.entries[i] (List.getElem_mem i.isLt)
    have hold := old_share hm hslot
    rw [hslot, share] at hsum
    have hbytes : m.bytes - itemBytes m.entries[i] = snapshotLength (put MapEntry.encodedKey key none m.entries) := by
      rw [hm.bytes_eq] at hold ⊢
      unfold snapshotLength at hold ⊢
      omega
    simp only [hsize, ok_bind, ensure_bind hold, hi.erase, hbytes, pure_eq]
  | error i =>
    obtain ⟨hslot, -⟩ := binarySearch_error hm.sorted hfound
    have hsame : put MapEntry.encodedKey key none m.entries = m.entries := by
      refine (hm.sorted.put (fun y hy => (Option.not_mem_none y hy).elim)).ext hm.sorted fun k => ?_
      by_cases hk : k = key
      · subst hk
        rw [slot_put_self hm.sorted (fun y hy => (Option.not_mem_none y hy).elim), hslot]
      · exact slot_put_ne (fun y hy => (Option.not_mem_none y hy).elim) hk
    simp only [hsame, ← hm.bytes_eq]

theorem Accounted.inserted {m : Map} (hm : Accounted m) (hvalid : ZenoFcis.Valid entry.value)
    (h : Admits m entry) : Accounted (m.inserted entry) := by
  have hmem {e : MapEntry} (he : e ∈ (m.inserted entry).entries) : e = entry ∨ e ∈ m.entries := by
    rcases mem_put he with hnew | hold
    · exact .inl (Option.mem_some_iff.1 hnew).symm
    · exact .inr hold
  refine ⟨hm.sorted.put (fun y hy => congrArg MapEntry.encodedKey (Option.mem_some_iff.1 hy).symm), rfl, fun e he => ?_,
    fun e he => ?_, h.count_le, h.bytes_le⟩
  · rcases hmem he with rfl | hold
    · have hitem := h.item_le
      have hmax := m.limits.maxItemBytes.toNat_lt
      refine itemSize_of hvalid h.storable ?_
      unfold u64Max
      omega
    · exact hm.sized e hold
  · rcases hmem he with rfl | hold
    · exact h.item_le
    · exact hm.items_le e hold

theorem Accounted.removed {m : Map} (hm : Accounted m) (key : Bytes) : Accounted (m.removed key) := by
  have hmem {e : MapEntry} (he : e ∈ (m.removed key).entries) : e ∈ m.entries := by
    rcases mem_put he with hnew | hold
    · cases hnew
    · exact hold
  have hsum := sum_put (k := key) itemBytes none hm.sorted
  have hlength := length_put (k := key) none hm.sorted
  rw [share] at hsum hlength
  have hcount := hm.count_le
  have hbytes := hm.bytes_le
  refine ⟨hm.sorted.put (fun y hy => (Option.not_mem_none y hy).elim), rfl, fun e he => hm.sized e (hmem he), fun e he =>
    hm.items_le e (hmem he), ?_, ?_⟩
  · refine le_trans ?_ hcount
    change (put MapEntry.encodedKey key none m.entries).length ≤ _
    omega
  · refine le_trans ?_ hbytes
    rw [hm.bytes_eq]
    change snapshotLength (put MapEntry.encodedKey key none m.entries) ≤ _
    unfold snapshotLength
    omega

/-! ## Histories -/

inductive Op where
  | insert (entry : MapEntry)
  | remove (key : Bytes)

/-- the entries of a program are built by their constructor -/
def Op.Built : Op → Prop
  | .insert entry => BuiltEntry entry
  | .remove _ => True

def Map.apply (m : Map) : Op → Except BoundedError Map
  | .insert entry => m.insert entry
  | .remove key => m.remove key

/-- a refused operation leaves the map as it was -/
def advance (m : Map) (op : Op) : Map :=
  match m.apply op with
  | .ok m' => m'
  | .error _ => m

def run (m : Map) (ops : List Op) : Map := ops.foldl advance m

theorem apply_accounted {m m' : Map} (hm : Accounted m) {op : Op} (hop : op.Built) (h : m.apply op = .ok m') :
    Accounted m' := by
  cases op with
  | insert entry =>
    have hvalid := (builtEntry_valid hop).2.1
    obtain ⟨hadmits, rfl⟩ := (insert_eq_ok hm hvalid).1 h
    exact hm.inserted hvalid hadmits
  | remove key =>
    have hout := (remove_eq hm key).symm.trans h
    cases hout
    exact hm.removed key

theorem advance_accounted {m : Map} (hm : Accounted m) {op : Op} (hop : op.Built) : Accounted (advance m op) := by
  unfold advance
  split
  · exact apply_accounted hm hop ‹_›
  · exact hm

theorem run_accounted {m : Map} (hm : Accounted m) {ops : List Op} (hops : ∀ op ∈ ops, op.Built) :
    Accounted (run m ops) := by
  induction ops generalizing m with
  | nil => exact hm
  | cons op ops ih =>
    exact ih (advance_accounted hm (hops op List.mem_cons_self)) fun op' h => hops op' (List.mem_cons_of_mem _ h)

/-! ## The size of a value -/

mutual

/-- no enumeration occurs in the value -/
def enumFree : Value → Bool
  | .unit | .bool _ | .i128 _ | .u128 _ | .bytes _ | .text _ | .sum _ _ none => true
  | .enum _ _ => false
  | .tuple items | .vector items => enumFreeItems items
  | .record fields => enumFreeFields fields
  | .map entries => enumFreeEntries entries
  | .sum _ _ (some v) => enumFree v

def enumFreeItems : List Value → Bool
  | [] => true
  | v :: items => enumFree v && enumFreeItems items

def enumFreeFields : List Field → Bool
  | [] => true
  | .mk _ v :: fields => enumFree v && enumFreeFields fields

def enumFreeEntries : List MapEntry → Bool
  | [] => true
  | .mk _ k v :: entries => enumFree k && enumFree v && enumFreeEntries entries

end

/-- a length, unless an enumeration stands in the way -/
def unlessEnum (free : Bool) (n : ℕ) : Except Failure ℕ := if free then .ok n else .error .kind

theorem result_addSize {a b : ℕ} (h : a + b ≤ u64Max) : (addSize a b).result = .ok (a + b) := if_pos h

theorem result_part {x : Work ℕ} {f : ℕ → Work ℕ} {free free' : Bool} {m : ℕ} (hx : x.result = unlessEnum free n)
    (hf : free = true → (f n).result = unlessEnum free' m) : (x >>= f).result = unlessEnum (free && free') m := by
  rw [result_bind, hx]
  cases free with
  | false => rfl
  | true => exact hf rfl

theorem result_sizeItems {items : List Value}
    (h : ∀ v ∈ items, (wire v).length ≤ u64Max → (size v).result = unlessEnum (enumFree v) (wire v).length)
    (hle : n + (wireItems items).length ≤ u64Max) :
    (sizeItems items n).result = unlessEnum (enumFreeItems items) (n + (wireItems items).length) := by
  induction items generalizing n with
  | nil => rfl
  | cons v items ih =>
    simp only [wireItems, List.length_append] at hle ⊢
    have hv := h v List.mem_cons_self (by omega)
    rw [sizeItems, enumFreeItems]
    refine result_part hv fun _ => ?_
    rw [result_bind, result_addSize (by omega), ok_bind, ih (fun w hw => h w (List.mem_cons_of_mem _ hw)) (by omega),
      Nat.add_assoc]

theorem result_sizeFields {fields : List Field}
    (h : ∀ f ∈ fields, (wire f.value).length ≤ u64Max →
      (size f.value).result = unlessEnum (enumFree f.value) (wire f.value).length)
    (hle : n + (wireFields fields).length ≤ u64Max) :
    (sizeFields fields n).result = unlessEnum (enumFreeFields fields) (n + (wireFields fields).length) := by
  induction fields generalizing n with
  | nil => rfl
  | cons f fields ih =>
    obtain ⟨i, v⟩ := f
    simp only [wireFields, List.length_append, beBytes_length] at hle ⊢
    have hv : (size v).result = unlessEnum (enumFree v) (wire v).length :=
      h _ List.mem_cons_self (by rw [Field.value_mk]; omega)
    rw [sizeFields, enumFreeFields, result_bind, show step.result = .ok () from rfl, ok_bind, result_bind,
      result_addSize (by omega), ok_bind]
    refine result_part hv fun _ => ?_
    rw [result_bind, result_addSize (by omega), ok_bind, ih (fun g hg => h g (List.mem_cons_of_mem _ hg)) (by omega)]
    congr 1
    omega

theorem result_sizeEntries {entries : List MapEntry} (henc : ∀ e ∈ entries, e.encodedKey = wire e.key)
    (h : ∀ e ∈ entries,
      ((wire e.key).length ≤ u64Max → (size e.key).result = unlessEnum (enumFree e.key) (wire e.key).length) ∧
      ((wire e.value).length ≤ u64Max → (size e.value).result = unlessEnum (enumFree e.value) (wire e.value).length))
    (hle : n + (wireEntries entries).length ≤ u64Max) :
    (sizeEntries entries n).result = unlessEnum (enumFreeEntries entries) (n + (wireEntries entries).length) := by
  induction entries generalizing n with
  | nil => rfl
  | cons e entries ih =>
    obtain ⟨b, k, v⟩ := e
    have hb : b = wire k := henc _ List.mem_cons_self
    subst hb
    simp only [wireEntries, List.length_append, blob_length] at hle ⊢
    obtain ⟨hk, hv⟩ := h _ List.mem_cons_self
    rw [MapEntry.key_mk] at hk
    rw [MapEntry.value_mk] at hv
    rw [sizeEntries, enumFreeEntries, result_bind, show visit.result = .ok () from rfl, ok_bind, result_bind,
      result_addSize (by omega), ok_bind, Bool.and_assoc]
    refine result_part (hk (by omega)) fun _ => ?_
    rw [result_bind, result_addSize (by omega), ok_bind]
    refine result_part (hv (by omega)) fun _ => ?_
    rw [result_bind, result_addSize (by omega), ok_bind,
      ih (fun g hg => henc g (List.mem_cons_of_mem _ hg)) (fun g hg => h g (List.mem_cons_of_mem _ hg)) (by omega)]
    congr 1
    omega

/-- **Sizes.** The traversal derives the length of the encoding; an enumeration stops it. -/
theorem size_eq {v : Value} (hv : ZenoFcis.Valid v) (hle : (wire v).length ≤ u64Max) :
    (size v).result = unlessEnum (enumFree v) (wire v).length := by
  have hstep : step.result = .ok () := rfl
  induction v with
  | unit => rfl
  | bool b => cases b <;> rfl
  | i128 n
  | u128 n => simp only [size, result_bind, hstep, ok_bind, result_pure, enumFree, wire,
      List.length_cons, beBytes_length]; rfl
  | bytes b | text b =>
    simp only [wire, List.length_cons, blob_length] at hle ⊢
    rw [size, result_bind, hstep, ok_bind, result_addSize (by omega), enumFree]
    exact congrArg Except.ok (by omega)
  | enum t w => rfl
  | tuple items ih =>
    cases hv with
    | tuple _ hs =>
      simp only [wire, List.length_cons, List.length_append, beBytes_length] at hle ⊢
      rw [size, result_bind, hstep, ok_bind, result_sizeItems (fun v hv hle => ih v hv (hs v hv) hle) (by omega), enumFree]
      exact congrArg _ (by omega)
  | vector items ih =>
    cases hv with
    | vector _ hs =>
      simp only [wire, List.length_cons, List.length_append, beBytes_length] at hle ⊢
      rw [size, result_bind, hstep, ok_bind, result_sizeItems (fun v hv hle => ih v hv (hs v hv) hle) (by omega), enumFree]
      exact congrArg _ (by omega)
  | record fields ih =>
    cases hv with
    | record _ _ hs =>
      simp only [wire, List.length_cons, List.length_append, beBytes_length] at hle ⊢
      rw [size, result_bind, hstep, ok_bind, result_sizeFields (fun f hf hle => ih f hf (hs f hf) hle)
        (by omega), enumFree]
      exact congrArg _ (by omega)
  | map entries ih =>
    cases hv with
    | map _ _ hkey hvalue henc _ =>
      simp only [wire, List.length_cons, List.length_append, beBytes_length] at hle ⊢
      rw [size, result_bind, hstep, ok_bind, result_sizeEntries (fun e he => (henc e he).1)
        (fun e he => ⟨fun hle => (ih e he).1 (hkey e he) hle, fun hle => (ih e he).2 (hvalue e he) hle⟩)
          (by omega), enumFree]
      exact congrArg _ (by omega)
  | sum t w payload ih =>
    cases hv with
    | sum _ _ hp =>
      cases payload with
      | none => simp [size, wire, enumFree, unlessEnum, hstep, result_bind, ok_bind]
      | some v =>
        simp only [wire, List.length_cons, List.length_append, beBytes_length] at hle ⊢
        rw [size, result_bind, hstep, ok_bind, enumFree, ← Bool.and_true (enumFree v)]
        refine result_part (ih v rfl (hp v rfl) (by omega)) fun _ => ?_
        rw [result_addSize (by omega)]
        exact congrArg Except.ok (by omega)

/-! ## The size of what the limits admit -/

def Within (limits : ValueLimits) (m : ValueMetrics) : Prop :=
  m.nodes ≤ limits.maxNodes.toNat ∧ m.payloadBytes ≤ limits.maxPayloadBytes.toNat

/-- a node stands for at most 27 bytes besides its payload, of which its parent may use ten -/
def weight (m : ValueMetrics) : ℕ := 27 * m.nodes + m.payloadBytes

/-- an admission stays within the limits and accounts for so many bytes -/
def Accounts (validate : ℕ → ValueLimits → ValueMetrics → Except ValueError ValueMetrics) (n : ℕ) : Prop :=
  ∀ ⦃d limits m m'⦄, validate d limits m = .ok m' → Within limits m → Within limits m' ∧ weight m + n ≤ weight m'

section Accounts

variable {d : ℕ} {limits : ValueLimits} {m m' : ValueMetrics}

theorem enterValue_accounts : Accounts enterValue 27 := by
  intro d limits m m' h hm
  obtain ⟨-, hnodes, rfl⟩ := enterValue_eq_ok.1 h
  refine ⟨⟨hnodes, hm.2⟩, ?_⟩
  unfold weight
  dsimp only
  omega

theorem addPayload_accounts (n : ℕ) : Accounts (fun _ limits m => addPayload n limits m) n := by
  intro d limits m m' h hm
  obtain ⟨hle, rfl⟩ := addPayload_eq_ok.1 h
  refine ⟨⟨hm.1, hle⟩, ?_⟩
  unfold weight
  dsimp only
  omega

section Compose

variable {f : ℕ → ValueLimits → ValueMetrics → Except ValueError ValueMetrics} {k n n' : ℕ}

theorem Accounts.bind {g : ℕ → ValueLimits → ValueMetrics → Except ValueError ValueMetrics} (hf : Accounts f k)
    (hg : Accounts g n) (hle : n' ≤ k + n) : Accounts (fun d limits m => f d limits m >>= g d limits) n' := by
  intro d limits m m' h hin
  obtain ⟨m₁, h₁, h⟩ := bind_eq_ok.1 h
  obtain ⟨hin₁, hle₁⟩ := hf h₁ hin
  obtain ⟨hin', hle'⟩ := hg h hin₁
  exact ⟨hin', by omega⟩

theorem Accounts.check {α : Type} {c : ℕ → ValueLimits → Except ValueError α}
    {g : α → ℕ → ValueLimits → ValueMetrics → Except ValueError ValueMetrics}
    (hg : ∀ a d limits, c d limits = .ok a → Accounts (g a) n) :
    Accounts (fun d limits m => c d limits >>= fun a => g a d limits m) n := by
  intro d limits m m' h hin
  obtain ⟨a, ha, h⟩ := bind_eq_ok.1 h
  exact hg a d limits ha h hin

theorem Accounts.deeper (hf : Accounts f n) :
    Accounts (fun d limits m => checkedAdd u32Max d 1 .arithmeticOverflow >>= fun d => f d limits m) n :=
  .check (g := fun d _ limits m => f d limits m) fun _ _ _ _ _ _ _ _ h => hf h

end Compose

theorem validateItems_accounts {items : List Value} (h : ∀ v ∈ items, Accounts (validateValue v) ((wire v).length + 10)) :
    Accounts (validateItems items) (wireItems items).length := by
  induction items with
  | nil => exact fun _ _ _ _ hm hin => Except.ok.inj hm ▸ ⟨hin, le_rfl⟩
  | cons v items ih =>
    unfold Accounts
    simp only [validateItems]
    refine (h v List.mem_cons_self).bind (ih fun w hw => h w (List.mem_cons_of_mem _ hw)) ?_
    rw [wireItems, List.length_append]
    omega

theorem validateFields_accounts {fields : List Field}
    (h : ∀ f ∈ fields, Accounts (validateValue f.value) ((wire f.value).length + 10)) :
    Accounts (validateFields fields) (wireFields fields).length := by
  induction fields with
  | nil => exact fun _ _ _ _ hm hin => Except.ok.inj hm ▸ ⟨hin, le_rfl⟩
  | cons f fields ih =>
    obtain ⟨i, v⟩ := f
    unfold Accounts
    simp only [validateFields]
    refine (h (.mk i v) List.mem_cons_self).bind (ih fun g hg => h g (List.mem_cons_of_mem _ hg)) ?_
    simp only [wireFields, List.length_append, beBytes_length, Field.value_mk]
    omega

theorem validateEntries_accounts {entries : List MapEntry}
    (h : ∀ e ∈ entries, Accounts (validateValue e.key) ((wire e.key).length + 10) ∧
      Accounts (validateValue e.value) ((wire e.value).length + 10)) :
    Accounts (validateEntries entries) (wireEntries entries).length := by
  induction entries with
  | nil => exact fun _ _ _ _ hm hin => Except.ok.inj hm ▸ ⟨hin, le_rfl⟩
  | cons e entries ih =>
    obtain ⟨b, k, v⟩ := e
    obtain ⟨hk, hv⟩ := h (.mk b k v) List.mem_cons_self
    unfold Accounts
    simp only [validateEntries]
    have hrest := ih fun g hg => h g (List.mem_cons_of_mem _ hg)
    refine (addPayload_accounts _).bind (n := (wire v).length + (wire k).length + (wire v).length +
      (wireEntries entries).length + 20) (.check fun n _ _ hn => ?_) ?_
    · have hlength := encodedLength_ok hn
      refine (addPayload_accounts n).bind (hk.bind (hv.bind hrest le_rfl) le_rfl) ?_
      simp only [MapEntry.key_mk, MapEntry.value_mk]
      omega
    · simp only [wireEntries, List.length_append, blob_length]
      omega

theorem validateValue_accounts (v : Value) : Accounts (validateValue v) ((wire v).length + 10) := by
  induction v with
  | bytes b =>
    unfold Accounts
    simp only [validateValue]
    refine enterValue_accounts.bind (addPayload_accounts b.length) ?_
    simp only [wire, List.length_cons, blob_length]
    omega
  | text b =>
    unfold Accounts
    simp only [validateValue]
    refine enterValue_accounts.bind (n := b.length) ?_ ?_
    · split_ifs
      · exact fun _ _ _ _ h => (by cases h)
      · exact addPayload_accounts b.length
    · simp only [wire, List.length_cons, blob_length]
      omega
  | tuple items ih | vector items ih =>
    unfold Accounts
    simp only [validateValue]
    refine enterValue_accounts.bind (.check fun _ _ _ _ => (validateItems_accounts ih).deeper) ?_
    simp only [wire, List.length_cons, List.length_append, beBytes_length]
    omega
  | record fields ih =>
    unfold Accounts
    simp only [validateValue]
    refine enterValue_accounts.bind (.check fun _ _ _ _ => .check fun _ _ _ _ => (validateFields_accounts ih).deeper) ?_
    simp only [wire, List.length_cons, List.length_append, beBytes_length]
    omega
  | map entries ih =>
    unfold Accounts
    simp only [validateValue]
    refine enterValue_accounts.bind (.check fun _ _ _ _ => .check fun _ _ _ _ => (validateEntries_accounts ih).deeper) ?_
    simp only [wire, List.length_cons, List.length_append, beBytes_length]
    omega
  | sum t w payload ih =>
    cases payload with
    | none =>
      intro d limits m m' h hin
      obtain ⟨hin', hle⟩ := enterValue_accounts h hin
      refine ⟨hin', ?_⟩
      simp only [wire, List.length_cons, List.length_append, beBytes_length, List.length_nil]
      omega
    | some v =>
      unfold Accounts
      simp only [validateValue]
      refine enterValue_accounts.bind (ih v rfl).deeper ?_
      simp only [wire, List.length_cons, List.length_append, beBytes_length]
      omega
  | bool b =>
    intro d limits m m' h hin
    obtain ⟨hin', hle⟩ := enterValue_accounts h hin
    refine ⟨hin', ?_⟩
    cases b <;> simp only [wire, List.length_cons, List.length_nil] <;> omega
  | unit | u128 n | i128 n | enum t w =>
    intro d limits m m' h hin
    obtain ⟨hin', hle⟩ := enterValue_accounts h hin
    refine ⟨hin', ?_⟩
    simp only [wire, List.length_cons, List.length_append, beBytes_length, List.length_nil]
    omega

end Accounts

theorem wire_length_le {v : Value} {metrics : ValueMetrics} (h : v.validateLimits .default = .ok metrics) :
    (wire v).length ≤ u32Max := by
  obtain ⟨⟨hnodes, hpayload⟩, hle⟩ := validateValue_accounts v h ⟨Nat.zero_le _, Nat.zero_le _⟩
  have hmaxNodes : ValueLimits.default.maxNodes.toNat = 1000000 := rfl
  have hmaxPayload : ValueLimits.default.maxPayloadBytes.toNat = 67108864 := rfl
  unfold weight at hle
  unfold u32Max
  omega

/-! ## The frame -/

/-- a judgement of a property that only an enumeration can stop -/
def Judges (free property : Prop) (x : Work Bool) : Prop :=
  match x.result with
  | .ok b => b = true ↔ property
  | .error e => e = .kind ∧ ¬free

section Frame

variable {writes : List Bytes} {free free' property property' : Prop} {xs ys : List MapEntry}

theorem Judges.imp {x : Work Bool} (h : Judges free property x) (hfree : free' → free)
    (hproperty : property ↔ property') : Judges free' property' x := by
  unfold Judges at h ⊢
  cases hresult : x.result with
  | ok b =>
    rw [hresult] at h
    exact Iff.trans h hproperty
  | error e =>
    rw [hresult] at h
    exact ⟨h.1, fun hf => h.2 (hfree hf)⟩

theorem Judges.and {x y : Work Bool} (hx : Judges free property x) (hy : Judges free' property' y) :
    Judges (free ∧ free') (property ∧ property') (do if ← x then y else pure false) := by
  unfold Judges at hx hy ⊢
  rw [result_bind]
  cases hresult : x.result with
  | error e =>
    rw [hresult] at hx
    exact ⟨hx.1, fun h => hx.2 h.1⟩
  | ok b =>
    rw [hresult] at hx
    rw [ok_bind]
    cases b with
    | false =>
      exact ⟨(fun h => nomatch h), fun h => hx.2 h.1⟩
    | true =>
      rw [if_pos rfl]
      have hproperty := hx.1 rfl
      cases hrest : y.result with
      | error e =>
        rw [hrest] at hy
        exact ⟨hy.1, fun h => hy.2 h.2⟩
      | ok b =>
        rw [hrest] at hy
        exact hy.trans ⟨fun h => ⟨hproperty, h⟩, fun h => h.2⟩

theorem Judges.after {x : Work Unit} {y : Work Bool} (hx : x.result = .ok ()) (hy : Judges free property y) :
    Judges free property (x >>= fun _ => y) := by
  unfold Judges at hy ⊢
  rw [result_bind, hx]
  exact hy

theorem result_compare {a b : Bytes} (h : a.length + b.length ≤ u64Max) : (compare a b).result = .ok () := by
  unfold compare
  rw [result_bind, show step.result = .ok () from rfl, ok_bind, result_bind, result_addSize h]
  rfl

theorem result_written {key : Bytes} (h : ∀ w ∈ writes, w.length + key.length ≤ u64Max) :
    (written writes key).result = .ok (decide (key ∈ writes)) := by
  suffices hfound : ∀ found, (writes.foldlM (fun found w => do
      compare w key
      return found || w == key) found).result = Except.ok (found || decide (key ∈ writes)) from hfound false
  induction writes with
  | nil =>
    intro found
    simp
  | cons w writes ih =>
    intro found
    rw [List.foldlM_cons, result_bind, result_bind, result_compare (h w List.mem_cons_self), ok_bind, result_pure, ok_bind,
      ih (fun v hv => h v (List.mem_cons_of_mem _ hv)), Bool.or_assoc]
    refine congrArg (fun b => Except.ok (found || b)) ?_
    by_cases hw : w = key
    · simp [hw]
    · have hne : key ≠ w := fun heq => hw heq.symm
      simp [hw, hne]

/-- the value is short and well formed -/
structure Short (v : Value) : Prop where
  valid : ZenoFcis.Valid v
  length_le : (wire v).length ≤ u32Max

theorem result_reserve {v : Value} (h : Short v) :
    (reserve v).result = if enumFree v then .ok () else .error .kind := by
  have hlength := h.length_le
  unfold reserve
  rw [result_bind, size_eq h.valid (by unfold u32Max at hlength; unfold u64Max; omega)]
  unfold unlessEnum
  split_ifs
  · rfl
  · rfl

theorem result_reserveSome {v : Option Value} (h : ∀ x ∈ v, Short x) :
    (reserveSome v).result = if v.all enumFree then .ok () else .error .kind := by
  cases v with
  | none => rfl
  | some v => exact result_reserve (h v rfl)

theorem judges_visitKey {key : Bytes} {left right : Option Value} (hwrites : ∀ w ∈ writes, w.length + key.length ≤ u64Max)
    (hleft : ∀ v ∈ left, Short v) (hright : ∀ v ∈ right, Short v) :
    Judges (left.all enumFree = true ∧ right.all enumFree = true) (key ∉ writes → left = right)
      (visitKey writes key left right) := by
  unfold Judges visitKey
  rw [result_bind, result_written hwrites, ok_bind]
  by_cases hkey : key ∈ writes
  · rw [if_pos (decide_eq_true hkey)]
    exact ⟨fun _ h => absurd hkey h, fun _ => rfl⟩
  · rw [if_neg (by simpa using hkey), result_bind, result_reserveSome hleft]
    by_cases hfree : left.all enumFree = true
    · rw [if_pos hfree, ok_bind, result_bind, result_reserveSome hright]
      by_cases hfree' : right.all enumFree = true
      · rw [if_pos hfree']
        exact ⟨fun h _ => of_decide_eq_true h, fun h => decide_eq_true (h hkey)⟩
      · rw [if_neg hfree']
        exact ⟨rfl, fun h => hfree' h.2⟩
    · rw [if_neg hfree]
      exact ⟨rfl, fun h => hfree h.1⟩

/-- what a list of entries holds at a key -/
def content (key : Bytes) (entries : List MapEntry) : Option Value :=
  (slot MapEntry.encodedKey key entries).map MapEntry.value

/-- two lists of entries agree on every key outside the written ones -/
def Agree (writes : List Bytes) (xs ys : List MapEntry) : Prop := ∀ key ∉ writes, content key xs = content key ys

theorem content_cons (key : Bytes) (x : MapEntry) (xs : List MapEntry) :
    content key (x :: xs) = if key = x.encodedKey then some x.value else content key xs := by
  unfold content slot
  by_cases hkey : key = x.encodedKey
  · rw [if_pos hkey, List.find?_cons_of_pos (by simp [hkey])]
    rfl
  · rw [if_neg hkey, List.find?_cons_of_neg (by simpa using fun h => hkey h.symm)]

theorem content_below {key : Bytes} (h : ∀ x ∈ xs, key < x.encodedKey) : content key xs = none := by
  unfold content
  rw [slot_eq_none.2 fun x hx => (h x hx).ne', Option.map_none]

theorem agree_split {key : Bytes} {left right : Option Value} {xs' ys' : List MapEntry} (hx : content key xs = none)
    (hy : content key ys = none) (hx' : ∀ k, content k xs' = if k = key then left else content k xs)
    (hy' : ∀ k, content k ys' = if k = key then right else content k ys) :
    (key ∉ writes → left = right) ∧ Agree writes xs ys ↔ Agree writes xs' ys' := by
  constructor
  · intro ⟨hkey, hrest⟩ k hk
    rw [hx', hy']
    split_ifs with heq
    · subst heq
      exact hkey hk
    · exact hrest k hk
  · intro h
    refine ⟨fun hk => ?_, fun k hk => ?_⟩
    · have hat := h key hk
      rwa [hx', hy', if_pos rfl, if_pos rfl] at hat
    · have hat := h k hk
      rw [hx', hy'] at hat
      split_ifs at hat with heq
      · rw [heq, hx, hy]
      · exact hat

theorem content_absent {key : Bytes} (h : content key xs = none) (k : Bytes) :
    content k xs = if k = key then none else content k xs := by
  split_ifs with heq
  · rw [heq, h]
  · rfl

def ShortEntries (xs : List MapEntry) : Prop := ∀ x ∈ xs, x.encodedKey.length ≤ u32Max ∧ Short x.value

/-- the values of a list hold no enumeration -/
def FreeEntries (xs : List MapEntry) : Prop := ∀ x ∈ xs, enumFree x.value = true

theorem judges_merge (hwrites : ∀ w ∈ writes, w.length ≤ u32Max) (hx : Increasing MapEntry.encodedKey xs)
    (hy : Increasing MapEntry.encodedKey ys) (hxs : ShortEntries xs) (hys : ShortEntries ys) :
    Judges (FreeEntries xs ∧ FreeEntries ys) (Agree writes xs ys) (merge writes xs ys) := by
  have hsizes {key : Bytes} (hkey : key.length ≤ u32Max) : ∀ w ∈ writes, w.length + key.length ≤ u64Max := by
    intro w hw
    have hle := hwrites w hw
    unfold u32Max at hkey hle
    unfold u64Max
    omega
  have hone {v : Value} (h : Short v) : ∀ w ∈ some v, Short w := by
    intro w hw
    rwa [← Option.mem_some_iff.1 hw]
  have hnone : ∀ w ∈ (none : Option Value), Short w := fun w hw => (Option.not_mem_none w hw).elim
  have hvisit : visit.result = .ok () := rfl
  induction xs, ys using merge.induct with
  | case1 =>
    rw [merge]
    exact ⟨fun _ _ _ => rfl, fun _ => rfl⟩
  | case2 x xs ih =>
    obtain ⟨hkey, hvalue⟩ := hxs x List.mem_cons_self
    have hvisited := judges_visitKey (hsizes hkey) (hone hvalue) hnone
    have hrest := ih hx.tail hy (fun z hz => hxs z (List.mem_cons_of_mem _ hz)) hys
    have habove : content x.encodedKey xs = none := content_below fun z hz => hx.head_lt hz
    rw [merge]
    refine ((hvisited.and hrest).after hvisit).imp (fun h => ⟨⟨h.1 x List.mem_cons_self, rfl⟩,
      fun z hz => h.1 z (List.mem_cons_of_mem _ hz), h.2⟩) ?_
    exact agree_split habove rfl (fun k => content_cons k x xs) (content_absent rfl)
  | case3 y ys ih =>
    obtain ⟨hkey, hvalue⟩ := hys y List.mem_cons_self
    have hvisited := judges_visitKey (hsizes hkey) hnone (hone hvalue)
    have hrest := ih hx hy.tail hxs (fun z hz => hys z (List.mem_cons_of_mem _ hz))
    have habove : content y.encodedKey ys = none := content_below fun z hz => hy.head_lt hz
    rw [merge]
    refine ((hvisited.and hrest).after hvisit).imp (fun h => ⟨⟨rfl, h.2 y List.mem_cons_self⟩,
      h.1, fun z hz => h.2 z (List.mem_cons_of_mem _ hz)⟩) ?_
    exact agree_split rfl habove (content_absent rfl) (fun k => content_cons k y ys)
  | case4 x xs y ys ih₁ ih₂ ih₃ =>
    obtain ⟨hkx, hvx⟩ := hxs x List.mem_cons_self
    obtain ⟨hky, hvy⟩ := hys y List.mem_cons_self
    have hxs' : ShortEntries xs := fun z hz => hxs z (List.mem_cons_of_mem _ hz)
    have hys' : ShortEntries ys := fun z hz => hys z (List.mem_cons_of_mem _ hz)
    have habove : content x.encodedKey xs = none := content_below fun z hz => hx.head_lt hz
    have habove' : content y.encodedKey ys = none := content_below fun z hz => hy.head_lt hz
    have hcompare : (compare x.encodedKey y.encodedKey).result = .ok () := result_compare (by
      unfold u32Max at hkx hky
      unfold u64Max
      omega)
    rw [merge]
    refine .after hvisit (.after hcompare ?_)
    rcases lt_trichotomy x.encodedKey y.encodedKey with hlt | heq | hgt
    · have hbelow : content x.encodedKey (y :: ys) = none := by
        refine content_below fun z hz => ?_
        rcases List.mem_cons.1 hz with rfl | hz
        · exact hlt
        · exact hlt.trans (hy.head_lt hz)
      rw [if_pos hlt]
      refine ((judges_visitKey (hsizes hkx) (hone hvx) hnone).and (ih₁ hx.tail hy hxs' hys)).imp (fun h =>
        ⟨⟨h.1 x List.mem_cons_self, rfl⟩, fun z hz => h.1 z (List.mem_cons_of_mem _ hz), h.2⟩) ?_
      exact agree_split habove hbelow (fun k => content_cons k x xs) (content_absent hbelow)
    · rw [if_neg heq.not_lt, if_neg heq.not_gt]
      refine ((judges_visitKey (hsizes hkx) (hone hvx) (hone hvy)).and (ih₃ hx.tail hy.tail hxs' hys')).imp (fun h =>
        ⟨⟨h.1 x List.mem_cons_self, h.2 y List.mem_cons_self⟩, fun z hz => h.1 z (List.mem_cons_of_mem _ hz),
          fun z hz => h.2 z (List.mem_cons_of_mem _ hz)⟩) ?_
      refine agree_split habove (heq ▸ habove') (fun k => content_cons k x xs) fun k => ?_
      rw [heq]
      exact content_cons k y ys
    · have hbelow : content y.encodedKey (x :: xs) = none := by
        refine content_below fun z hz => ?_
        rcases List.mem_cons.1 hz with rfl | hz
        · exact hgt
        · exact hgt.trans (hx.head_lt hz)
      rw [if_neg hgt.not_gt, if_pos hgt]
      refine ((judges_visitKey (hsizes hky) hnone (hone hvy)).and (ih₂ hx hy.tail hxs hys')).imp (fun h =>
        ⟨⟨rfl, h.2 y List.mem_cons_self⟩, h.1, fun z hz => h.2 z (List.mem_cons_of_mem _ hz)⟩) ?_
      exact agree_split hbelow habove' (content_absent hbelow) (fun k => content_cons k y ys)

end Frame

theorem result_encode {k : Value} {b : Bytes} (hv : ZenoFcis.Valid k) (hb : k.zcveBytes = .ok b) :
    (encode k).result = if enumFree k then .ok (wire k) else .error .kind := by
  obtain ⟨⟨metrics, hmetrics⟩, heq, -⟩ := hv.zcveBytesWithLimits.1 hb
  unfold encode
  rw [result_bind, result_reserve ⟨hv, wire_length_le hmetrics⟩, result_lift, hb, heq]
  split_ifs
  · rfl
  · rfl

theorem result_writes {keys : List Value} (hkeys : ∀ k ∈ keys, ZenoFcis.Valid k ∧ ∃ b, k.zcveBytes = .ok b) :
    (keys.mapM encode).result = if ∀ k ∈ keys, enumFree k = true then .ok (keys.map wire) else .error .kind := by
  rw [result_mapM]
  induction keys with
  | nil => rfl
  | cons k keys ih =>
    obtain ⟨hv, b, hb⟩ := hkeys k List.mem_cons_self
    rw [List.mapM_cons, result_encode hv hb, ih fun k' hk' => hkeys k' (List.mem_cons_of_mem _ hk')]
    simp only [List.forall_mem_cons]
    by_cases hfree : enumFree k = true
    · by_cases hrest : ∀ k ∈ keys, enumFree k = true
      · rw [if_pos hfree, if_pos hrest, if_pos ⟨hfree, hrest⟩]
        rfl
      · have hnot : ¬(enumFree k = true ∧ ∀ k ∈ keys, enumFree k = true) := fun h => hrest h.2
        rw [if_pos hfree, if_neg hrest, if_neg hnot]
        rfl
    · have hnot : ¬(enumFree k = true ∧ ∀ k ∈ keys, enumFree k = true) := fun h => hfree h.1
      rw [if_neg hfree, if_neg hnot]
      rfl

theorem increasing_entries {xs : List MapEntry} (h : ZenoFcis.Valid (.map xs)) : Increasing MapEntry.encodedKey xs := by
  cases h with
  | map _ hord _ _ _ _ => exact keysOrdered_iff.1 hord

theorem short_entries {xs : List MapEntry} (h : ZenoFcis.Valid (.map xs)) : ShortEntries xs := by
  intro x hx
  cases h with
  | map _ _ _ hvalue henc hfit => exact ⟨(henc x hx).2, hvalue x hx, hfit x hx⟩

theorem judges_frame {pre post : List MapEntry} {keys : List Value}
    (hpre : ZenoFcis.Valid (.map pre)) (hpost : ZenoFcis.Valid (.map post))
    (hkeys : ∀ k ∈ keys, ZenoFcis.Valid k ∧ ∃ b, k.zcveBytes = .ok b) :
    Judges ((∀ k ∈ keys, enumFree k = true) ∧ FreeEntries pre ∧ FreeEntries post) (Agree (keys.map wire) pre post)
      (frame (.map pre) (.map post) keys) := by
  have hwrites : ∀ w ∈ keys.map wire, w.length ≤ u32Max := by
    intro w hw
    obtain ⟨k, hk, rfl⟩ := List.mem_map.1 hw
    obtain ⟨hv, b, hb⟩ := hkeys k hk
    obtain ⟨⟨metrics, hmetrics⟩, -⟩ := hv.zcveBytesWithLimits.1 hb
    exact wire_length_le hmetrics
  have hmerge := judges_merge hwrites (increasing_entries hpre) (increasing_entries hpost) (short_entries hpre)
    (short_entries hpost)
  unfold Judges frame at *
  rw [entries, entries, result_bind, result_pure, ok_bind, result_bind, result_pure, ok_bind, result_bind,
    result_writes hkeys]
  by_cases hfree : ∀ k ∈ keys, enumFree k = true
  · rw [if_pos hfree, ok_bind]
    exact Judges.imp hmerge (fun h => h.2) Iff.rfl
  · rw [if_neg hfree]
    exact ⟨rfl, fun h => hfree h.1⟩

/-! ## The accounting -/

/-- what the counter of a map, its insertions and its removals do -/
structure Exact (m : Map) : Prop where
  sorted : Increasing MapEntry.encodedKey m.entries
  counter : m.bytes = 29 + (m.entries.map fun e => 16 + e.encodedKey.length + (wire e.value).length).sum
  snapshot_eq : ∀ kind, m.bytes = (snapshot kind m).length
  insert_iff : ∀ entry, BuiltEntry entry → ∀ m', m.insert entry = .ok m' ↔ Admits m entry ∧ m' = m.inserted entry
  refused : ∀ entry, BuiltEntry entry → ¬Admits m entry → advance m (.insert entry) = m
  remove_eq : ∀ key, m.remove key = .ok (m.removed key)

theorem Accounted.exact {m : Map} (hm : Accounted m) : Exact m := by
  refine ⟨hm.sorted, hm.bytes_eq, fun kind => hm.bytes_eq.trans (snapshot_length kind m).symm, fun entry hentry m' =>
    insert_eq_ok hm (builtEntry_valid hentry).2.1, fun entry hentry hrefused => ?_, Collection.remove_eq hm⟩
  unfold advance
  rw [Map.apply]
  cases hinsert : m.insert entry with
  | ok m' => exact absurd ((insert_eq_ok hm (builtEntry_valid hentry).2.1).1 hinsert).1 hrefused
  | error e => rfl

/-- **The byte accounting.** After every history from the empty map the counter is the length of the snapshot, an
insertion gives the replaced slot exactly under its conditions and a removal is never refused. The derived size of an
encodable value is the length of its encoding and the frame decides the agreement outside the written keys, each unless
an enumeration stops the traversal. -/
theorem accounting_exact :
    (∀ limits start ops, Map.empty limits = .ok start → (∀ op ∈ ops, Op.Built op) → Exact (run start ops)) ∧
      (∀ v b, ZenoFcis.Valid v → v.zcveBytes = .ok b →
        (size v).result = if enumFree v then .ok b.length else .error .kind) ∧
      (∀ pre post keys, ZenoFcis.Valid (.map pre) → ZenoFcis.Valid (.map post) →
        (∀ k ∈ keys, ZenoFcis.Valid k ∧ ∃ b, k.zcveBytes = .ok b) →
        Judges ((∀ k ∈ keys, enumFree k = true) ∧ FreeEntries pre ∧ FreeEntries post) (Agree (keys.map wire) pre post)
          (frame (.map pre) (.map post) keys)) := by
  refine ⟨fun limits start ops hstart hops => ?_, fun v b hv hb => ?_, fun pre post keys hpre hpost hkeys =>
    judges_frame hpre hpost hkeys⟩
  · obtain ⟨-, haccounted⟩ := accounted_empty hstart
    exact (run_accounted haccounted hops).exact
  · obtain ⟨-, rfl, hle⟩ := hv.zcveBytesWithLimits.1 hb
    exact size_eq hv hle

/-- room for two entries -/
def twoEntries : CollectionLimits := ⟨2, 40, 100⟩

def flagEntry (flag : Bool) : MapEntry := .mk [1] (.bool false) (.bool flag)

def bytesEntry : MapEntry := .mk [2] (.bool true) (.bytes [7])

/-- two entries, the first one replaced, a third one that is refused, and the second one removed -/
def history : List Op :=
  [.insert (flagEntry false), .insert bytesEntry, .insert (flagEntry true), .insert (.mk [0] .unit .unit), .remove [2]]

theorem history_built : ∀ op ∈ history, Op.Built op := by
  have hflag (flag : Bool) : BuiltEntry (flagEntry flag) :=
    .tryNewWithLimits (.boolean false) (.boolean flag)
      (by cases flag <;> rfl : MapEntry.tryNew (.bool false) (.bool flag) = _)
  have hbytes : BuiltEntry bytesEntry :=
    .tryNewWithLimits (.boolean true) (.ownedBytes (b := [7]) rfl)
      (show MapEntry.tryNew (.bool true) (.bytes [7]) = _ from rfl)
  have hunit : BuiltEntry (.mk [0] .unit .unit) :=
    .tryNewWithLimits .unit .unit (show MapEntry.tryNew .unit .unit = _ from rfl)
  simp [history, Op.Built, hflag, hbytes, hunit]

theorem history_valid : ZenoFcis.Valid (.map [flagEntry false, bytesEntry]) ∧ ZenoFcis.Valid (.map [flagEntry true]) := by
  have hbuilt := history_built
  simp only [history, List.forall_mem_cons, Op.Built] at hbuilt
  obtain ⟨hfirst, hbytes, hnext, _⟩ := hbuilt
  have hpre : ∀ e ∈ [flagEntry false, bytesEntry], BuiltEntry e := by simpa using ⟨hfirst, hbytes⟩
  have hpost : ∀ e ∈ [flagEntry true], BuiltEntry e := by simpa using hnext
  exact ⟨built_valid (.mapCanonical hpre rfl), built_valid (.mapCanonical hpost rfl)⟩

/-- outside the two written keys neither map has an entry -/
theorem history_agree : Agree [[1], [2]] [flagEntry false, bytesEntry] [flagEntry true] := by
  intro key hkey
  simp only [List.mem_cons, List.not_mem_nil, or_false, not_or] at hkey
  rw [content_cons, content_cons, content_cons]
  simp [flagEntry, bytesEntry, hkey]

/-- a history with a replacement, a refusal and a removal, and the frame of its first and its last map -/
theorem accounting_exact_history :
    Map.empty twoEntries = .ok ⟨[], twoEntries, 29⟩ ∧ Exact (run ⟨[], twoEntries, 29⟩ history) ∧
      (run ⟨[], twoEntries, 29⟩ (history.take 4)).bytes = 70 ∧ (run ⟨[], twoEntries, 29⟩ history).bytes = 47 ∧
      (size (.bytes [7])).result = .ok 6 ∧
      (frame (.map [flagEntry false, bytesEntry]) (.map [flagEntry true])
        [.bool false, .bool true]).result = .ok true := by
  obtain ⟨hruns, hsizes, hframes⟩ := accounting_exact
  have hkeys : ∀ k ∈ [Value.bool false, .bool true], ZenoFcis.Valid k ∧ ∃ b, k.zcveBytes = .ok b := by
    simp only [List.forall_mem_cons]
    exact ⟨⟨.bool false, _, rfl⟩, ⟨.bool true, _, rfl⟩, by simp⟩
  have hframe := hframes _ _ _ history_valid.1 history_valid.2 hkeys
  refine ⟨rfl, hruns twoEntries _ history rfl history_built, rfl, rfl, hsizes (.bytes [7]) _ (.bytes (by decide)) rfl, ?_⟩
  unfold Judges at hframe
  cases hresult : (frame (.map [flagEntry false, bytesEntry]) (.map [flagEntry true])
      [.bool false, .bool true]).result with
  | ok b =>
    rw [hresult] at hframe
    rw [hframe.2 history_agree]
  | error e =>
    rw [hresult] at hframe
    exact absurd ⟨by simp [enumFree], by simp [FreeEntries, flagEntry, bytesEntry, enumFree],
      by simp [FreeEntries, flagEntry, enumFree]⟩ hframe.2

/-- an enumeration has an encoding of seven bytes and no derived size -/
theorem size_enum :
    (Value.enum 0 0).zcveBytes = .ok [7, 0, 0, 0, 0, 0, 0] ∧ (size (.enum 0 0)).result = .error .kind := by
  refine ⟨?_, rfl⟩
  rfl

end ZenoFcis.Tables.Collection
