/-
The patch wire format. Every frame of an accepted input is the encoding of what was read from it, and every encoding is
read back as long as the bounds allow it. The budget is a running sum (`PatchDecodeState.charge`), so a bound on the
total bounds every prefix.

Result: `patch_wire`. A canonical patch is decoded from its own bytes, an accepted input is the bytes of its patch, and
the rebuild keeps the operations where the wire has them.
-/
import ZenoFcis.Patch.Decode
import ZenoFcis.Patch.Order

namespace ZenoFcis

open Lib Lib.Except Patch

/-! ## Cursor steps -/

namespace PatchCursor

variable {c c' : Cursor} {b : Bytes}

theorem take_eq_ok (hc : c.Fits) {n : ℕ} : take c n = .ok (b, c') ↔ b.length = n ∧ c.Consumes b c' :=
  mapError_eq_ok.trans (Cursor.take_eq_ok hc)

theorem takeU8_eq_ok (hc : c.Fits) {x : UInt8} : takeU8 c = .ok (x, c') ↔ c.Consumes [x] c' :=
  mapError_eq_ok.trans (Cursor.takeU8_eq_ok hc)

theorem takeU16_eq_ok (hc : c.Fits) {x : UInt16} : takeU16 c = .ok (x, c') ↔ c.Consumes (beBytes 2 x.toNat) c' :=
  mapError_eq_ok.trans (Cursor.takeU16_eq_ok hc)

theorem takeU32_eq_ok (hc : c.Fits) {x : UInt32} : takeU32 c = .ok (x, c') ↔ c.Consumes (beBytes 4 x.toNat) c' :=
  mapError_eq_ok.trans (Cursor.takeU32_eq_ok hc)

/-- `take_hash32` consumes 32 bytes -/
theorem takeHash32_eq_ok (hc : c.Fits) {x : Hash32} : takeHash32 c = .ok (x, c') ↔ c.Consumes x.bytes c' := by
  simp only [takeHash32, bind_eq_ok, Prod.exists, take_eq_ok hc, pure_eq, Except.ok.injEq, Prod.mk.injEq]
  constructor
  · rintro ⟨b, _, ⟨hlen, h⟩, rfl, rfl⟩
    rwa [Hash32.ofSlice_bytes hlen]
  · intro h
    exact ⟨x.bytes, c', ⟨x.length_eq, h⟩, x.ofSlice_self, rfl⟩

theorem takeLength_ok (hc : c.Fits) {n : ℕ} (hn : n ≤ u32Max) (h : c.Consumes (beBytes 4 n) c') :
    takeU32 c = .ok (UInt32.ofNat n, c') := by
  refine (takeU32_eq_ok hc).2 ?_
  rwa [UInt32.toNat_ofNat_of_lt' (Nat.lt_succ_of_le hn)]

/-- `take_blob` consumes a length and as many bytes -/
theorem takeBlob_eq_ok (hc : c.Fits) : takeBlob c = .ok (b, c') ↔ b.length ≤ u32Max ∧ c.Consumes (blob 4 b) c' := by
  constructor
  · intro h
    obtain ⟨⟨n, c₁⟩, h₁, h⟩ := bind_eq_ok.1 h
    have h₁ := (takeU32_eq_ok hc).1 h₁
    obtain ⟨hlen, h₂⟩ := (take_eq_ok (h₁.fits hc)).1 h
    have hn : b.length ≤ u32Max := hlen.trans_le (Nat.le_pred_of_lt n.toNat_lt)
    refine ⟨hn, Cursor.consumes_append.2 ⟨c₁, ?_, h₂⟩⟩
    rwa [hlen]
  · rintro ⟨hlen, h⟩
    obtain ⟨c₁, h₁, h₂⟩ := Cursor.consumes_append.1 h
    refine bind_eq_ok.2 ⟨_, takeLength_ok hc hlen h₁, (take_eq_ok (h₁.fits hc)).2 ⟨?_, h₂⟩⟩
    exact (UInt32.toNat_ofNat_of_lt' (Nat.lt_succ_of_le hlen)).symm

theorem capacity_ok (count : UInt32) (c : Cursor) {minimum : ℕ} (h : minimum ≠ 0) :
    capacity count c minimum = .ok (min count.toNat (c.remaining / minimum)) :=
  mapError_eq_ok.2 (if_neg h)

/-- an input is finished when nothing is unread -/
theorem finished_eq_ok {u : Unit} : finished c = .ok u ↔ c.unread = [] := by
  rw [finished, ensure_eq_ok, Cursor.remaining_eq_zero]

/-- a cursor that read everything read the whole input -/
theorem consumes_new {a : Bytes} (h : (Cursor.new b).Consumes a c') (hend : c'.unread = []) : b = a := by
  simpa [hend] using h.unread

end PatchCursor

open PatchCursor

/-! ## What is read is what was written -/

section Accepted

variable {limits : PatchDecodeLimits} {c c' : Cursor} {s s' : PatchDecodeState} {b : Bytes}

theorem decodePathSegment_wire (hc : c.Fits) {segment : PathSegment}
    (h : decodePathSegment limits c s = .ok (segment, c', s')) :
    ∃ b, segment.encode = .ok b ∧ c.Consumes b c' := by
  obtain ⟨⟨tag, c₁⟩, htag, h⟩ := bind_eq_ok.1 h
  have htag := (takeU8_eq_ok hc).1 htag
  have hc₁ := htag.fits hc
  dsimp only at h
  split_ifs at h with hfield htuple hvector hsum hkey
  · subst hfield
    obtain ⟨⟨id, c₂⟩, hid, h⟩ := bind_eq_ok.1 h
    cases h
    exact ⟨_, rfl, Cursor.consumes_cons.2 ⟨c₁, htag, (takeU16_eq_ok hc₁).1 hid⟩⟩
  · subst htuple
    obtain ⟨⟨index, c₂⟩, hindex, h⟩ := bind_eq_ok.1 h
    cases h
    exact ⟨_, rfl, Cursor.consumes_cons.2 ⟨c₁, htag, (takeU32_eq_ok hc₁).1 hindex⟩⟩
  · subst hvector
    obtain ⟨⟨index, c₂⟩, hindex, h⟩ := bind_eq_ok.1 h
    cases h
    exact ⟨_, rfl, Cursor.consumes_cons.2 ⟨c₁, htag, (takeU32_eq_ok hc₁).1 hindex⟩⟩
  · subst hsum
    cases h
    exact ⟨_, rfl, htag⟩
  · subst hkey
    obtain ⟨⟨key, c₂⟩, hkey, h⟩ := bind_eq_ok.1 h
    obtain ⟨hlen, hkey⟩ := (takeBlob_eq_ok hc₁).1 hkey
    obtain ⟨_, _, h⟩ := bind_eq_ok.1 h
    obtain ⟨_, _, h⟩ := bind_eq_ok.1 h
    obtain ⟨⟨_, s₁⟩, _, h⟩ := bind_eq_ok.1 h
    cases h
    have hencode : (PathSegment.mapKey key).encode = .ok (pathTagMapKey :: blob 4 key) :=
      bind_eq_ok.2 ⟨_, putBlob_eq_ok.2 ⟨hlen, rfl⟩, rfl⟩
    exact ⟨_, hencode, Cursor.consumes_cons.2 ⟨c₁, htag, hkey⟩⟩

theorem decodePathSegments_wire (hc : c.Fits) {count : ℕ} {segments : List PathSegment}
    (h : decodePathSegments limits count c s = .ok (segments, c', s')) :
    segments.length = count ∧ ∃ b, ValuePath.encodeSegments segments = .ok b ∧ c.Consumes b c' := by
  induction count generalizing c s segments with
  | zero =>
    cases h
    exact ⟨rfl, [], rfl, Cursor.Consumes.nil_iff.2 rfl⟩
  | succ count ih =>
    obtain ⟨⟨segment, c₁, s₁⟩, hfirst, h⟩ := bind_eq_ok.1 h
    obtain ⟨⟨rest, c₂, s₂⟩, hrest, h⟩ := bind_eq_ok.1 h
    cases h
    obtain ⟨b₁, hb₁, h₁⟩ := decodePathSegment_wire hc hfirst
    obtain ⟨hlen, b₂, hb₂, h₂⟩ := ih (h₁.fits hc) hrest
    refine ⟨congrArg (· + 1) hlen, b₁ ++ b₂, ?_, h₁.trans h₂⟩
    exact bind_eq_ok.2 ⟨b₁, hb₁, bind_eq_ok.2 ⟨b₂, hb₂, rfl⟩⟩

theorem decodeValuePath_wire (hb : b.length ≤ usizeMax) {path : ValuePath}
    (h : decodeValuePath b limits s = .ok (path, s')) : path.canonicalBytes = .ok b := by
  have hc : (Cursor.new b).Fits := hb
  obtain ⟨⟨count, c₁⟩, hcount, h⟩ := bind_eq_ok.1 h
  have hcount := (takeU32_eq_ok hc).1 hcount
  obtain ⟨_, _, h⟩ := bind_eq_ok.1 h
  obtain ⟨_, _, h⟩ := bind_eq_ok.1 h
  obtain ⟨⟨segments, c₂, s₂⟩, hsegments, h⟩ := bind_eq_ok.1 h
  obtain ⟨_, hend, h⟩ := bind_eq_ok.1 h
  cases h
  obtain ⟨hlen, bytes, hbytes, hread⟩ := decodePathSegments_wire (hcount.fits hc) hsegments
  rw [consumes_new (hcount.trans hread) (finished_eq_ok.1 hend), ← hlen]
  have hfits : segments.length ≤ u32Max := hlen.trans_le (Nat.le_pred_of_lt count.toNat_lt)
  exact bind_eq_ok.2 ⟨_, putLength_eq_ok.2 ⟨hfits, rfl⟩, bind_eq_ok.2 ⟨bytes, hbytes, rfl⟩⟩

/-- the encoding of an operation starts with a tag and its framed path -/
structure PatchOp.Headed (b : Bytes) (op : PatchOp) (tag : UInt8) (path rest : Bytes) : Prop where
  bytes : op.path.canonicalBytes = .ok path
  length : path.length ≤ u32Max
  eq : b = tag :: (blob 4 path ++ rest)

theorem PatchOp.Headed.key {op op' : PatchOp} {tag tag' : UInt8} {path path' rest rest' : Bytes}
    (h : op.Headed b tag path rest) (h' : op'.Headed b tag' path' rest') : op.sortKey = op'.sortKey := by
  have heq : blob 4 path ++ rest = blob 4 path' ++ rest' := (List.cons.inj (h.eq.symm.trans h'.eq)).2
  have hlen : path.length < 256 ^ 4 := Nat.lt_of_le_pred (by decide) h.length
  have hlen' : path'.length < 256 ^ 4 := Nat.lt_of_le_pred (by decide) h'.length
  obtain ⟨rfl, _⟩ := reads_blob 4 path hlen path' rest rest' hlen' heq
  rw [PatchOp.sortKey, PatchOp.sortKey, h.bytes, h'.bytes]

theorem decodeOperationBody_path {tag : UInt8} {path : ValuePath} {op : PatchOp}
    (h : decodeOperationBody limits tag path c s = .ok (op, c', s')) : op.path = path := by
  unfold decodeOperationBody at h
  split_ifs at h
  · obtain ⟨⟨mapKey, c₁, s₁⟩, _, h⟩ := bind_eq_ok.1 h
    obtain ⟨⟨value, c₂, s₂⟩, _, h⟩ := bind_eq_ok.1 h
    cases h
    rfl
  · obtain ⟨⟨expected, c₁⟩, _, h⟩ := bind_eq_ok.1 h
    obtain ⟨⟨value, c₂, s₂⟩, _, h⟩ := bind_eq_ok.1 h
    cases h
    rfl
  · obtain ⟨⟨expected, c₁⟩, _, h⟩ := bind_eq_ok.1 h
    cases h
    rfl

theorem decodePatchOperation_headed (hb : b.length ≤ usizeMax) {op : PatchOp}
    (h : decodePatchOperation b limits s = .ok (op, s')) : ∃ tag path rest, op.Headed b tag path rest := by
  have hc : (Cursor.new b).Fits := hb
  obtain ⟨⟨tag, c₁⟩, htag, h⟩ := bind_eq_ok.1 h
  have htag := (takeU8_eq_ok hc).1 htag
  have hc₁ := htag.fits hc
  obtain ⟨_, _, h⟩ := bind_eq_ok.1 h
  obtain ⟨⟨encoded, c₂⟩, hencoded, h⟩ := bind_eq_ok.1 h
  obtain ⟨hlen, hencoded⟩ := (takeBlob_eq_ok hc₁).1 hencoded
  obtain ⟨⟨path, s₁⟩, hpath, h⟩ := bind_eq_ok.1 h
  obtain ⟨⟨op', c₃, s₂⟩, hbody, h⟩ := bind_eq_ok.1 h
  obtain ⟨_, _, h⟩ := bind_eq_ok.1 h
  cases h
  refine ⟨tag, encoded, c₂.unread, ?_, hlen, ?_⟩
  · rw [decodeOperationBody_path hbody]
    exact decodeValuePath_wire (hlen.trans (by decide)) hpath
  · have hread := (htag.trans hencoded).unread
    rwa [Cursor.unread_new, List.append_assoc] at hread

theorem PatchOp.canonicalBytes_headed {op : PatchOp} (h : op.canonicalBytes = .ok b) :
    ∃ tag path rest, op.Headed b tag path rest := by
  cases op with
  | insert path mapKey value =>
    obtain ⟨bytes, hbytes, h⟩ := bind_eq_ok.1 h
    obtain ⟨_, hpath, h⟩ := bind_eq_ok.1 h
    obtain ⟨hlen, rfl⟩ := putBlob_eq_ok.1 hpath
    cases mapKey with
    | none =>
      obtain ⟨_, _, h⟩ := bind_eq_ok.1 h
      obtain ⟨_, _, h⟩ := bind_eq_ok.1 h
      obtain ⟨_, _, h⟩ := bind_eq_ok.1 h
      cases h
      exact ⟨_, bytes, _, hbytes, hlen, congrArg (_ :: ·) (List.append_assoc _ _ _)⟩
    | some key =>
      obtain ⟨_, _, h⟩ := bind_eq_ok.1 h
      obtain ⟨_, _, h⟩ := bind_eq_ok.1 h
      obtain ⟨_, _, h⟩ := bind_eq_ok.1 h
      obtain ⟨_, _, h⟩ := bind_eq_ok.1 h
      obtain ⟨_, _, h⟩ := bind_eq_ok.1 h
      cases h
      exact ⟨_, bytes, _, hbytes, hlen, congrArg (_ :: ·) (List.append_assoc _ _ _)⟩
  | update path expected value =>
    simp only [PatchOp.canonicalBytes, bind_eq_ok, putBlob_eq_ok] at h
    obtain ⟨bytes, hbytes, _, ⟨hlen, rfl⟩, _, _, _, _, hb⟩ := h
    cases hb
    exact ⟨_, bytes, _, hbytes, hlen, congrArg (_ :: ·) (List.append_assoc _ _ _)⟩
  | delete path expected =>
    simp only [PatchOp.canonicalBytes, bind_eq_ok, putBlob_eq_ok] at h
    obtain ⟨bytes, hbytes, _, ⟨hlen, rfl⟩, hb⟩ := h
    cases hb
    exact ⟨_, bytes, _, hbytes, hlen, rfl⟩

/-- the operations framed one after the other -/
structure FramedAs (frames : List Bytes) (ops : List PatchOp) : Prop where
  short : ∀ frame ∈ frames, frame.length < 256 ^ 4
  headed : List.Forall₂ (fun frame (op : PatchOp) => ∃ tag path rest, op.Headed frame tag path rest) frames ops

theorem FramedAs.cons {frame : Bytes} {frames : List Bytes} {op : PatchOp} {ops : List PatchOp}
    (hlen : frame.length ≤ u32Max) (hop : ∃ tag path rest, op.Headed frame tag path rest) (h : FramedAs frames ops) :
    FramedAs (frame :: frames) (op :: ops) :=
  ⟨List.forall_mem_cons.2 ⟨Nat.lt_of_le_pred (by decide) hlen, h.short⟩, .cons hop h.headed⟩

theorem FramedAs.keys {frames : List Bytes} {ops ops' : List PatchOp} (h : FramedAs frames ops)
    (h' : FramedAs frames ops') : ops.map PatchOp.sortKey = ops'.map PatchOp.sortKey := by
  have hops := h.headed
  have hops' := h'.headed
  clear h h'
  induction hops generalizing ops' with
  | nil =>
    cases hops'
    rfl
  | cons hop _ ih =>
    cases hops' with
    | cons hop' hrest =>
      obtain ⟨_, _, _, hop⟩ := hop
      obtain ⟨_, _, _, hop'⟩ := hop'
      rw [List.map_cons, List.map_cons, hop.key hop', ih hrest]

theorem decodePatchOperations_framed (hc : c.Fits) {count : ℕ} {ops : List PatchOp}
    (h : decodePatchOperations limits count c s = .ok (ops, c', s')) :
    ∃ frames, FramedAs frames ops ∧ c.Consumes (frames.flatMap (blob 4)) c' := by
  induction count generalizing c s ops with
  | zero =>
    cases h
    exact ⟨[], ⟨nofun, .nil⟩, Cursor.Consumes.nil_iff.2 rfl⟩
  | succ count ih =>
    obtain ⟨⟨frame, c₁⟩, hframe, h⟩ := bind_eq_ok.1 h
    obtain ⟨hlen, hframe⟩ := (takeBlob_eq_ok hc).1 hframe
    obtain ⟨⟨op, s₁⟩, hop, h⟩ := bind_eq_ok.1 h
    obtain ⟨⟨rest, c₂, s₂⟩, hrest, h⟩ := bind_eq_ok.1 h
    cases h
    obtain ⟨frames, hframes, hread⟩ := ih (hframe.fits hc) hrest
    refine ⟨frame :: frames, ?_, hframe.trans hread⟩
    exact hframes.cons hlen (decodePatchOperation_headed (hlen.trans (by decide)) hop)

theorem encodeOperations_framed {ops : List PatchOp} (h : encodeOperations ops = .ok b) :
    ∃ frames, FramedAs frames ops ∧ b = frames.flatMap (blob 4) := by
  induction ops generalizing b with
  | nil =>
    cases h
    exact ⟨[], ⟨nofun, .nil⟩, rfl⟩
  | cons op ops ih =>
    simp only [encodeOperations, bind_eq_ok, putBlob_eq_ok] at h
    obtain ⟨frame, hframe, _, ⟨hlen, rfl⟩, bytes, hbytes, hb⟩ := h
    cases hb
    obtain ⟨frames, hframes, rfl⟩ := ih hbytes
    exact ⟨frame :: frames, hframes.cons hlen (PatchOp.canonicalBytes_headed hframe), rfl⟩

theorem decodeParts_framed {stateType : UInt32} {root : Hash32} {ops : List PatchOp}
    (h : decodeParts b limits = .ok (stateType, root, ops)) :
    ∃ head frames, head.length = 40 ∧ FramedAs frames ops ∧ b = head ++ frames.flatMap (blob 4) := by
  obtain ⟨_, _, h⟩ := bind_eq_ok.1 h
  obtain ⟨_, hinput, h⟩ := bind_eq_ok.1 h
  have hc : (Cursor.new b).Fits := (ensure_eq_ok.1 hinput).trans (Nat.le_pred_of_lt limits.maxInputBytes.toNat_lt)
  obtain ⟨⟨t, c₁⟩, ht, h⟩ := bind_eq_ok.1 h
  have ht := (takeU32_eq_ok hc).1 ht
  have hc₁ := ht.fits hc
  obtain ⟨⟨r, c₂⟩, hr, h⟩ := bind_eq_ok.1 h
  have hr := (takeHash32_eq_ok hc₁).1 hr
  have hc₂ := hr.fits hc₁
  obtain ⟨⟨count, c₃⟩, hcount, h⟩ := bind_eq_ok.1 h
  have hcount := (takeU32_eq_ok hc₂).1 hcount
  obtain ⟨_, _, h⟩ := bind_eq_ok.1 h
  obtain ⟨_, _, h⟩ := bind_eq_ok.1 h
  obtain ⟨⟨_, c₄, _⟩, hops, h⟩ := bind_eq_ok.1 h
  obtain ⟨_, hend, h⟩ := bind_eq_ok.1 h
  cases h
  obtain ⟨frames, hframes, hbody⟩ := decodePatchOperations_framed (hcount.fits hc₂) hops
  have hwire := consumes_new (((ht.trans hr).trans hcount).trans hbody) (finished_eq_ok.1 hend)
  exact ⟨_, frames, by simp only [List.length_append, beBytes_length, Hash32.length_eq], hframes, hwire⟩

theorem canonicalBytes_framed {patch : CanonicalPatch} (h : patch.canonicalBytes = .ok b) :
    ∃ head frames, head.length = 40 ∧ FramedAs frames patch.operations ∧ b = head ++ frames.flatMap (blob 4) := by
  simp only [CanonicalPatch.canonicalBytes, bind_eq_ok, putLength_eq_ok] at h
  obtain ⟨_, ⟨_, rfl⟩, bytes, hencode, h⟩ := h
  cases h
  obtain ⟨frames, hframes, rfl⟩ := encodeOperations_framed hencode
  exact ⟨_, frames, by simp only [List.length_append, beBytes_length, Hash32.length_eq], hframes, rfl⟩

end Accepted

/-! ## The rebuild -/

section Rebuild

variable {stateType : UInt32} {root : Hash32} {ops : List PatchOp} {patch : CanonicalPatch}

theorem keyOperations_key {keyed : List (Bytes × PatchOp)} (h : keyOperations ops = .ok keyed) :
    ∀ entry ∈ keyed, entry.2.sortKey = .ok entry.1 := by
  induction ops generalizing keyed with
  | nil =>
    cases h
    nofun
  | cons op ops ih =>
    simp only [keyOperations, bind_eq_ok] at h
    obtain ⟨key, hkey, rest, hrest, h⟩ := h
    cases h
    exact List.forall_mem_cons.2 ⟨hkey, ih hrest⟩

theorem keyOperations_entries {entries : List (Bytes × PatchOp)}
    (h : ∀ entry ∈ entries, entry.2.sortKey = .ok entry.1) : keyOperations (entries.map Prod.snd) = .ok entries := by
  induction entries with
  | nil => rfl
  | cons entry entries ih =>
    obtain ⟨hentry, hrest⟩ := List.forall_mem_cons.1 h
    exact bind_eq_ok.2 ⟨entry.1, hentry, bind_eq_ok.2 ⟨entries, ih hrest, rfl⟩⟩

/-- operations by their sort keys -/
def sortEntries (keyed : List (Bytes × PatchOp)) : List (Bytes × PatchOp) :=
  keyed.mergeSort fun left right => left.1 ≤ right.1

theorem sortEntries_pairwise (keyed : List (Bytes × PatchOp)) :
    (sortEntries keyed).Pairwise fun left right => left.1 ≤ right.1 :=
  Lib.sorted_mergeSort (fun entry : Bytes × PatchOp => entry.1) keyed

theorem sortEntries_of_pairwise {keyed : List (Bytes × PatchOp)}
    (h : keyed.Pairwise fun left right => left.1 ≤ right.1) : sortEntries keyed = keyed :=
  List.mergeSort_of_pairwise (h.imp fun hle => decide_eq_true hle)

/-- a patch keeps its operations in the order of their keys -/
theorem tryNew_entries (h : CanonicalPatch.tryNew stateType root ops = .ok patch) :
    ∃ keyed, keyOperations ops = .ok keyed ∧ patch = ⟨stateType, root, (sortEntries keyed).map Prod.snd⟩ := by
  simp only [CanonicalPatch.tryNew, bind_eq_ok] at h
  obtain ⟨_, _, keyed, hkeyed, h⟩ := h
  split_ifs at h
  exact ⟨keyed, hkeyed, (Except.ok.inj h).symm⟩

theorem tryNew_operations (h : CanonicalPatch.tryNew stateType root ops = .ok patch) :
    CanonicalPatch.tryNew patch.stateType patch.expectedPreRoot patch.operations = .ok patch := by
  obtain ⟨hperm, hshape, hapart⟩ := tryNew_ok h
  obtain ⟨keyed, hkeyed, rfl⟩ := tryNew_entries h
  set sorted := sortEntries keyed with hsorted
  have hentries : keyOperations (sorted.map Prod.snd) = .ok sorted :=
    keyOperations_entries fun entry hentry =>
      keyOperations_key hkeyed entry ((List.mergeSort_perm _ _).mem_iff.1 hentry)
  have hshapes : validateInsertShapes (sorted.map Prod.snd) = .ok () :=
    validateInsertShapes_eq_ok.2 fun op hop => hshape op (hperm.mem_iff.1 hop)
  have hpaths : ((sorted.map Prod.snd).map PatchOp.path).Pairwise Apart :=
    ((hperm.map PatchOp.path).pairwise_iff fun h => h.symm).2 hapart
  obtain ⟨operations, _, hnew⟩ := (@tryNew_keyed stateType root _ _ hshapes hentries).1 hpaths
  obtain ⟨again, hagain, heq⟩ := tryNew_entries hnew
  obtain rfl := Except.ok.inj (hentries.symm.trans hagain)
  rw [sortEntries_of_pairwise (sortEntries_pairwise keyed)] at heq
  exact hnew.trans (congrArg Except.ok heq)

theorem tryNew_sameKeys (h : CanonicalPatch.tryNew stateType root ops = .ok patch)
    (hkeys : ops.map PatchOp.sortKey = patch.operations.map PatchOp.sortKey) : patch.operations = ops := by
  obtain ⟨keyed, hkeyed, rfl⟩ := tryNew_entries h
  have hsnd := keyOperations_snd hkeyed
  have hkey := keyOperations_key hkeyed
  have hmap : ∀ entries : List (Bytes × PatchOp), (∀ entry ∈ entries, entry.2.sortKey = .ok entry.1) →
      (entries.map Prod.snd).map PatchOp.sortKey = (entries.map Prod.fst).map Except.ok := by
    intro entries hentries
    rw [List.map_map, List.map_map]
    exact List.map_congr_left hentries
  have hfst : keyed.map Prod.fst = (sortEntries keyed).map Prod.fst := by
    have hsorted : ∀ entry ∈ sortEntries keyed, entry.2.sortKey = .ok entry.1 :=
      fun entry hentry => hkey entry ((List.mergeSort_perm _ _).mem_iff.1 hentry)
    have hok := (hmap keyed hkey).symm.trans ((congrArg _ hsnd).trans (hkeys.trans (hmap _ hsorted)))
    exact List.map_injective_iff.2 (fun a b => Except.ok.inj) hok
  have hordered : keyed.Pairwise fun left right => left.1 ≤ right.1 := by
    have hsorted := (List.pairwise_map (f := Prod.fst) (R := (· ≤ ·))).2 (sortEntries_pairwise keyed)
    rw [← hfst] at hsorted
    exact List.pairwise_map.1 hsorted
  rw [sortEntries_of_pairwise hordered]
  exact hsnd

end Rebuild

theorem decodeCanonicalPatch_wire {b : Bytes} {limits : PatchDecodeLimits} {patch : CanonicalPatch}
    (h : decodeCanonicalPatch b limits = .ok patch) :
    patch.canonicalBytes = .ok b ∧
      decodeParts b limits = .ok (patch.stateType, patch.expectedPreRoot, patch.operations) := by
  obtain ⟨⟨stateType, root, ops⟩, hparts, h⟩ := bind_eq_ok.1 h
  obtain ⟨built, hbuilt, h⟩ := bind_eq_ok.1 h
  obtain ⟨encoded, hencoded, h⟩ := bind_eq_ok.1 h
  obtain ⟨_, hsame, h⟩ := bind_eq_ok.1 h
  cases h
  have hnew := mapError_eq_ok.1 hbuilt
  have hbytes := mapError_eq_ok.1 hencoded
  rw [ensure_eq_ok.1 hsame] at hbytes
  refine ⟨hbytes, ?_⟩
  have hoperations : patch.operations = ops := by
    -- the wire and the encoder frame as many operations, byte for byte the same
    obtain ⟨head, frames, hhead, hframes, hwire⟩ := decodeParts_framed hparts
    obtain ⟨head', frames', hhead', hframes', hwire'⟩ := canonicalBytes_framed hbytes
    have hbodies := (List.append_inj (hwire.symm.trans hwire') (hhead.trans hhead'.symm)).2
    have hcounts : frames.length = frames'.length := by
      calc frames.length = ops.length := hframes.headed.length_eq
        _ = patch.operations.length := (tryNew_ok hnew).1.length_eq.symm
        _ = frames'.length := hframes'.headed.length_eq.symm
    obtain ⟨rfl, _⟩ := Reads.flatMap (r := []) (s := []) hcounts (fun frame hframe => reads_blob 4 frame
      (hframes.short frame hframe)) hframes'.short (by rw [hbodies])
    exact tryNew_sameKeys hnew (hframes.keys hframes')
  obtain ⟨keyed, _, rfl⟩ := tryNew_entries hnew
  exact hparts.trans (by rw [← hoperations])

/-! ## What the bounds allow -/

/-- the counters of the validator; none where it refuses -/
def Value.spent (limits : ValueLimits) (v : Value) : ValueMetrics :=
  match v.validateLimits limits with
  | .ok metrics => metrics
  | .error _ => ⟨0, 0, 0⟩

namespace PatchDecodeState

variable {limits : PatchDecodeLimits} {s : PatchDecodeState} {vs ws : List Value}

/-- the state after the values `vs` are charged -/
def charge (limits : PatchDecodeLimits) (s : PatchDecodeState) (vs : List Value) : PatchDecodeState :=
  ⟨s.valueNodes + (vs.map fun v => (v.spent limits.value.value).nodes).sum,
    s.valuePayloadBytes + (vs.map fun v => (v.spent limits.value.value).payloadBytes).sum⟩

@[simp] theorem charge_nil : s.charge limits [] = s := rfl

/-- charges compose -/
theorem charge_append : s.charge limits (vs ++ ws) = (s.charge limits vs).charge limits ws := by
  simp only [charge, List.map_append, List.sum_append, Nat.add_assoc]

structure Within (limits : PatchDecodeLimits) (s : PatchDecodeState) : Prop where
  nodes : s.valueNodes ≤ limits.maxValueNodes.toNat
  payloadBytes : s.valuePayloadBytes ≤ limits.maxValuePayloadBytes.toNat

/-- what is within the limits was so before -/
theorem Within.front (h : Within limits (s.charge limits (vs ++ ws))) : Within limits (s.charge limits vs) := by
  rw [charge_append] at h
  exact ⟨le_trans (Nat.le_add_right _ _) h.nodes, le_trans (Nat.le_add_right _ _) h.payloadBytes⟩

/-- what is charged last is within the limits -/
theorem Within.back (h : Within limits (s.charge limits (vs ++ ws))) :
    Within limits ((s.charge limits vs).charge limits ws) := by
  rwa [charge_append] at h

end PatchDecodeState

open PatchDecodeState

/-- the limits of one value allow `v` -/
def PatchDecodeLimits.AllowsValue (limits : PatchDecodeLimits) (v : Value) : Prop :=
  (∃ metrics, v.validateLimits limits.value.value = .ok metrics) ∧
    ∀ bytes, v.canonicalBytes = .ok bytes → bytes.length ≤ limits.value.maxInputBytes.toNat

/-- the bytes of a map key are the encoding of the value that `key` names for them -/
def PathSegment.Encodes (key : Bytes → Value) (segment : PathSegment) : Prop :=
  ∀ bytes, segment = .mapKey bytes → Built (key bytes) ∧ (key bytes).canonicalBytes = .ok bytes

/-- the values decoded on the way through a path -/
def PathSegment.carried (key : Bytes → Value) : PathSegment → List Value
  | .mapKey encodedKey => [key encodedKey]
  | _ => []

def ValuePath.carried (key : Bytes → Value) (path : ValuePath) : List Value :=
  path.segments.flatMap (PathSegment.carried key)

/-- the map key and the value of an operation -/
def PatchOp.values : PatchOp → List Value
  | .insert _ mapKey value => mapKey.toList ++ [value]
  | .update _ _ value => [value]
  | .delete _ _ => []

/-- the values decoded with an operation: those of its path and its own -/
def PatchOp.carried (key : Bytes → Value) (op : PatchOp) : List Value := op.path.carried key ++ op.values

/-- the bounds on one operation -/
structure PatchDecodeLimits.AllowsOperation (limits : PatchDecodeLimits) (key : Bytes → Value) (op : PatchOp) :
    Prop where
  segments : op.path.segments.length ≤ limits.maxPathSegments.toNat
  keys : ∀ bytes, .mapKey bytes ∈ op.path.segments → bytes.length ≤ limits.maxMapKeyBytes.toNat
  values : ∀ v ∈ op.carried key, limits.AllowsValue v

/-- the bounds on a patch of `size` bytes; every occurrence of a value counts -/
structure PatchDecodeLimits.Allows (limits : PatchDecodeLimits) (key : Bytes → Value) (patch : CanonicalPatch)
    (size : ℕ) : Prop where
  input : size ≤ limits.maxInputBytes.toNat
  operations : patch.operations.length ≤ limits.maxOperations.toNat
  operation : ∀ op ∈ patch.operations, limits.AllowsOperation key op
  total : Within limits (charge limits ⟨0, 0⟩ (patch.operations.flatMap (PatchOp.carried key)))

/-! ## What is written is read back -/

section Written

variable {limits : PatchDecodeLimits} {key : Bytes → Value} {c c' : Cursor} {s : PatchDecodeState} {b : Bytes}

theorem decodePatchValue_ok {v : Value} (hv : Built v) (hb : v.canonicalBytes = .ok b) (hallows : limits.AllowsValue v)
    (hw : Within limits (s.charge limits [v])) : decodePatchValue b limits s = .ok (v, s.charge limits [v]) := by
  obtain ⟨⟨metrics, hmetrics⟩, hlen⟩ := hallows
  have hspent : v.spent limits.value.value = metrics := by rw [Value.spent, hmetrics]
  have hcharge : s.charge limits [v] =
      ⟨s.valueNodes + metrics.nodes, s.valuePayloadBytes + metrics.payloadBytes⟩ := by
    simp only [charge, List.map_cons, List.map_nil, List.sum_cons, List.sum_nil, Nat.add_zero, hspent]
  rw [hcharge] at hw ⊢
  obtain ⟨_, rfl, _⟩ := (built_valid hv).zcveBytesWithLimits.1 (mapError_eq_ok.1 hb)
  have hdecode : decodeValue (wire v) limits.value = .ok v :=
    decodeValue_eq_ok.2 ⟨metrics, decodeValueWithMetrics_eq_ok.2 ⟨hlen _ hb, built_valid hv, rfl, hmetrics⟩⟩
  have hnodes : s.valueNodes + metrics.nodes ≤ u64Max :=
    hw.nodes.trans (Nat.le_pred_of_lt limits.maxValueNodes.toNat_lt)
  have hpayload : s.valuePayloadBytes + metrics.payloadBytes ≤ u64Max :=
    hw.payloadBytes.trans (Nat.le_pred_of_lt limits.maxValuePayloadBytes.toNat_lt)
  refine bind_eq_ok.2 ⟨v, mapError_eq_ok.2 hdecode, bind_eq_ok.2 ⟨metrics, mapError_eq_ok.2 hmetrics, ?_⟩⟩
  refine bind_eq_ok.2 ⟨_, checkedAdd_eq_ok.2 ⟨hnodes, rfl⟩, (ensure_bind hw.nodes _).trans ?_⟩
  exact bind_eq_ok.2 ⟨_, checkedAdd_eq_ok.2 ⟨hpayload, rfl⟩, ensure_bind hw.payloadBytes _⟩

theorem decodePathSegment_ok (hc : c.Fits) {segment : PathSegment} (hencodes : segment.Encodes key)
    (hkey : ∀ bytes, segment = .mapKey bytes → bytes.length ≤ limits.maxMapKeyBytes.toNat)
    (hallows : ∀ v ∈ segment.carried key, limits.AllowsValue v)
    (hw : Within limits (s.charge limits (segment.carried key))) (hb : segment.encode = .ok b)
    (hread : c.Consumes b c') :
    decodePathSegment limits c s = .ok (segment, c', s.charge limits (segment.carried key)) := by
  cases segment with
  | field id =>
    cases hb
    obtain ⟨c₁, htag, hid⟩ := Cursor.consumes_cons.1 hread
    refine bind_eq_ok.2 ⟨_, (takeU8_eq_ok hc).2 htag, (if_pos rfl).trans ?_⟩
    exact bind_eq_ok.2 ⟨_, (takeU16_eq_ok (htag.fits hc)).2 hid, rfl⟩
  | tupleIndex index =>
    cases hb
    obtain ⟨c₁, htag, hindex⟩ := Cursor.consumes_cons.1 hread
    refine bind_eq_ok.2 ⟨_, (takeU8_eq_ok hc).2 htag, (if_neg (by decide)).trans ((if_pos rfl).trans ?_)⟩
    exact bind_eq_ok.2 ⟨_, (takeU32_eq_ok (htag.fits hc)).2 hindex, rfl⟩
  | vectorIndex index =>
    cases hb
    obtain ⟨c₁, htag, hindex⟩ := Cursor.consumes_cons.1 hread
    refine bind_eq_ok.2 ⟨_, (takeU8_eq_ok hc).2 htag, (if_neg (by decide)).trans ((if_neg (by decide)).trans
      ((if_pos rfl).trans ?_))⟩
    exact bind_eq_ok.2 ⟨_, (takeU32_eq_ok (htag.fits hc)).2 hindex, rfl⟩
  | sumPayload =>
    cases hb
    exact bind_eq_ok.2 ⟨_, (takeU8_eq_ok hc).2 hread, rfl⟩
  | mapKey bytes =>
    obtain ⟨_, hblob, hb⟩ := bind_eq_ok.1 hb
    obtain ⟨hlen, rfl⟩ := putBlob_eq_ok.1 hblob
    cases hb
    obtain ⟨c₁, htag, hbytes⟩ := Cursor.consumes_cons.1 hread
    obtain ⟨hbuilt, hcanonical⟩ := hencodes bytes rfl
    have hvalue := decodePatchValue_ok hbuilt hcanonical (hallows _ List.mem_cons_self) hw
    refine bind_eq_ok.2 ⟨_, (takeU8_eq_ok hc).2 htag, (if_neg (by decide)).trans ((if_neg (by decide)).trans
      ((if_neg (by decide)).trans ((if_neg (by decide)).trans ((if_pos rfl).trans ?_))))⟩
    refine bind_eq_ok.2 ⟨_, (takeBlob_eq_ok (htag.fits hc)).2 ⟨hlen, hbytes⟩, ?_⟩
    refine (ensure_bind (hlen.trans (by decide)) _).trans ((ensure_bind (hkey bytes rfl) _).trans ?_)
    exact bind_eq_ok.2 ⟨_, hvalue, rfl⟩

theorem decodePathSegments_ok (hc : c.Fits) {segments : List PathSegment}
    (hencodes : ∀ segment ∈ segments, segment.Encodes key)
    (hkeys : ∀ bytes, .mapKey bytes ∈ segments → bytes.length ≤ limits.maxMapKeyBytes.toNat)
    (hallows : ∀ v ∈ segments.flatMap (PathSegment.carried key), limits.AllowsValue v)
    (hw : Within limits (s.charge limits (segments.flatMap (PathSegment.carried key))))
    (hb : ValuePath.encodeSegments segments = .ok b) (hread : c.Consumes b c') :
    decodePathSegments limits segments.length c s =
      .ok (segments, c', s.charge limits (segments.flatMap (PathSegment.carried key))) := by
  induction segments generalizing c s b with
  | nil =>
    cases hb
    rw [Cursor.Consumes.nil_iff.1 hread]
    rfl
  | cons segment segments ih =>
    rw [List.flatMap_cons] at hallows hw ⊢
    obtain ⟨b₁, hb₁, hb⟩ := bind_eq_ok.1 hb
    obtain ⟨b₂, hb₂, hb⟩ := bind_eq_ok.1 hb
    cases hb
    obtain ⟨c₁, h₁, h₂⟩ := Cursor.consumes_append.1 hread
    obtain ⟨hencode, hencodes⟩ := List.forall_mem_cons.1 hencodes
    have hfirst := decodePathSegment_ok hc hencode (fun bytes hbytes => hkeys bytes (hbytes ▸ List.mem_cons_self))
      (fun v hv => hallows v (List.mem_append_left _ hv)) hw.front hb₁ h₁
    have hrest := ih (h₁.fits hc) hencodes (fun bytes hbytes => hkeys bytes (List.mem_cons_of_mem _ hbytes))
      (fun v hv => hallows v (List.mem_append_right _ hv)) hw.back hb₂ h₂
    rw [charge_append]
    exact bind_eq_ok.2 ⟨_, hfirst, bind_eq_ok.2 ⟨_, hrest, rfl⟩⟩

/-- the whole input can be read -/
theorem exists_whole (b : Bytes) : ∃ c', (Cursor.new b).Consumes b c' ∧ c'.unread = [] :=
  Cursor.exists_consumes (by simp)

theorem decodeValuePath_ok {path : ValuePath} (hb : path.canonicalBytes = .ok b) (hfits : b.length ≤ usizeMax)
    (hsegments : path.segments.length ≤ limits.maxPathSegments.toNat)
    (hencodes : ∀ segment ∈ path.segments, segment.Encodes key)
    (hkeys : ∀ bytes, .mapKey bytes ∈ path.segments → bytes.length ≤ limits.maxMapKeyBytes.toNat)
    (hallows : ∀ v ∈ path.carried key, limits.AllowsValue v)
    (hw : Within limits (s.charge limits (path.carried key))) :
    decodeValuePath b limits s = .ok (path, s.charge limits (path.carried key)) := by
  obtain ⟨_, hlength, h⟩ := bind_eq_ok.1 hb
  obtain ⟨bytes, hbytes, h⟩ := bind_eq_ok.1 h
  cases h
  obtain ⟨hn, rfl⟩ := putLength_eq_ok.1 hlength
  obtain ⟨c', hread, hend⟩ := exists_whole (beBytes 4 path.segments.length ++ bytes)
  obtain ⟨c₁, h₁, h₂⟩ := Cursor.consumes_append.1 hread
  have hc : (Cursor.new (beBytes 4 path.segments.length ++ bytes)).Fits := hfits
  have hcount : (UInt32.ofNat path.segments.length).toNat = path.segments.length :=
    UInt32.toNat_ofNat_of_lt' (Nat.lt_succ_of_le hn)
  have hloop : decodePathSegments limits (UInt32.ofNat path.segments.length).toNat c₁ s =
      .ok (path.segments, c', s.charge limits (path.carried key)) := by
    rw [hcount]
    exact decodePathSegments_ok (h₁.fits hc) hencodes hkeys hallows hw hbytes h₂
  refine bind_eq_ok.2 ⟨_, takeLength_ok hc hn h₁, (ensure_bind ?_ _).trans ?_⟩
  · rw [UInt32.le_iff_toNat_le, hcount]
    exact hsegments
  · refine bind_eq_ok.2 ⟨_, capacity_ok _ _ (by decide), bind_eq_ok.2 ⟨_, hloop, ?_⟩⟩
    exact bind_eq_ok.2 ⟨(), finished_eq_ok.2 hend, rfl⟩

theorem decodeCarried_ok (hc : c.Fits) {v : Value} (hv : Built v) (hb : v.canonicalBytes = .ok b)
    (hlen : b.length ≤ u32Max) (hallows : limits.AllowsValue v) (hw : Within limits (s.charge limits [v]))
    (hread : c.Consumes (blob 4 b) c') : decodeCarried limits c s = .ok (v, c', s.charge limits [v]) :=
  bind_eq_ok.2 ⟨_, (takeBlob_eq_ok hc).2 ⟨hlen, hread⟩, bind_eq_ok.2 ⟨_, decodePatchValue_ok hv hb hallows hw, rfl⟩⟩

theorem decodePatchOperation_head {tag : UInt8} {path rest : Bytes} {op : PatchOp} {s' : PatchDecodeState}
    (htag : tag = patchTagInsert ∨ tag = patchTagUpdate ∨ tag = patchTagDelete)
    (hfits : (tag :: (blob 4 path ++ rest)).length ≤ usizeMax) (hlen : path.length ≤ u32Max)
    (hpath : decodeValuePath path limits s = .ok (op.path, s'))
    (hbody : ∀ c c', c.Fits → c.Consumes rest c' →
      decodeOperationBody limits tag op.path c s' = .ok (op, c', s'.charge limits op.values)) :
    decodePatchOperation (tag :: (blob 4 path ++ rest)) limits s = .ok (op, s'.charge limits op.values) := by
  obtain ⟨c', hread, hend⟩ := exists_whole (tag :: (blob 4 path ++ rest))
  have hc : (Cursor.new (tag :: (blob 4 path ++ rest))).Fits := hfits
  obtain ⟨c₁, h₁, h₂⟩ := Cursor.consumes_cons.1 hread
  obtain ⟨c₂, h₂, h₃⟩ := Cursor.consumes_append.1 h₂
  have hc₁ := h₁.fits hc
  refine bind_eq_ok.2 ⟨_, (takeU8_eq_ok hc).2 h₁, (ensure_bind htag _).trans ?_⟩
  refine bind_eq_ok.2 ⟨_, (takeBlob_eq_ok hc₁).2 ⟨hlen, h₂⟩, bind_eq_ok.2 ⟨_, hpath, ?_⟩⟩
  exact bind_eq_ok.2 ⟨_, hbody c₂ c' (h₂.fits hc₁) h₃, bind_eq_ok.2 ⟨(), finished_eq_ok.2 hend, rfl⟩⟩

theorem decodePatchOperation_ok {op : PatchOp} (hb : op.canonicalBytes = .ok b) (hfits : b.length ≤ usizeMax)
    (hbuilt : op.Built) (hencodes : ∀ segment ∈ op.path.segments, segment.Encodes key)
    (hallows : limits.AllowsOperation key op) (hw : Within limits (s.charge limits (op.carried key))) :
    decodePatchOperation b limits s = .ok (op, s.charge limits (op.carried key)) := by
  have hvalues : ∀ v ∈ op.values, limits.AllowsValue v := fun v hv => hallows.values v (List.mem_append_right _ hv)
  have hpath : ∀ {path}, op.path.canonicalBytes = .ok path → path.length ≤ u32Max →
      decodeValuePath path limits s = .ok (op.path, s.charge limits (op.path.carried key)) := fun hpath hlen =>
    decodeValuePath_ok hpath (hlen.trans (by decide)) hallows.segments hencodes hallows.keys
      (fun v hv => hallows.values v (List.mem_append_left _ hv)) hw.front
  have hback := hw.back
  rw [PatchOp.carried, charge_append]
  cases op with
  | insert path mapKey value =>
    obtain ⟨bytes, hbytes, h⟩ := bind_eq_ok.1 hb
    obtain ⟨_, hframe, h⟩ := bind_eq_ok.1 h
    obtain ⟨hlen, rfl⟩ := putBlob_eq_ok.1 hframe
    cases mapKey with
    | none =>
      obtain ⟨_, hflag, h⟩ := bind_eq_ok.1 h
      cases hflag
      obtain ⟨vbytes, hvbytes, h⟩ := bind_eq_ok.1 h
      obtain ⟨_, hframe, h⟩ := bind_eq_ok.1 h
      obtain ⟨hvlen, rfl⟩ := putBlob_eq_ok.1 hframe
      cases h
      rw [show patchTagInsert :: blob 4 bytes ++ [0] ++ blob 4 vbytes =
        patchTagInsert :: (blob 4 bytes ++ (0 :: blob 4 vbytes)) by simp] at hfits ⊢
      refine decodePatchOperation_head (.inl rfl) hfits hlen (hpath hbytes hlen) fun c c' hc hread => ?_
      obtain ⟨c₁, h₁, h₂⟩ := Cursor.consumes_cons.1 hread
      have hvalue := decodeCarried_ok (h₁.fits hc) hbuilt.2 hvbytes hvlen (hvalues _ List.mem_cons_self) hback h₂
      refine (if_pos rfl).trans (bind_eq_ok.2 ⟨(none, c₁, _), ?_, bind_eq_ok.2 ⟨_, hvalue, rfl⟩⟩)
      exact bind_eq_ok.2 ⟨_, (takeU8_eq_ok hc).2 h₁, rfl⟩
    | some k =>
      obtain ⟨kbytes, hkbytes, h⟩ := bind_eq_ok.1 h
      obtain ⟨_, hkframe, h⟩ := bind_eq_ok.1 h
      obtain ⟨hklen, rfl⟩ := putBlob_eq_ok.1 hkframe
      obtain ⟨_, hflag, h⟩ := bind_eq_ok.1 h
      cases hflag
      obtain ⟨vbytes, hvbytes, h⟩ := bind_eq_ok.1 h
      obtain ⟨_, hframe, h⟩ := bind_eq_ok.1 h
      obtain ⟨hvlen, rfl⟩ := putBlob_eq_ok.1 hframe
      cases h
      rw [show patchTagInsert :: blob 4 bytes ++ 1 :: blob 4 kbytes ++ blob 4 vbytes =
        patchTagInsert :: (blob 4 bytes ++ (1 :: (blob 4 kbytes ++ blob 4 vbytes))) by simp] at hfits ⊢
      refine decodePatchOperation_head (.inl rfl) hfits hlen (hpath hbytes hlen) fun c c' hc hread => ?_
      obtain ⟨c₁, h₁, h₂⟩ := Cursor.consumes_cons.1 hread
      obtain ⟨c₂, h₂, h₃⟩ := Cursor.consumes_append.1 h₂
      have hc₁ := h₁.fits hc
      have hw₂ : Within limits ((s.charge limits (path.carried key)).charge limits ([k] ++ [value])) := hback
      have hkey := decodeCarried_ok hc₁ (hbuilt.1 k rfl) hkbytes hklen (hvalues _ List.mem_cons_self) hw₂.front h₂
      have hvalue := decodeCarried_ok (h₂.fits hc₁) hbuilt.2 hvbytes hvlen
        (hvalues _ (List.mem_cons_of_mem _ List.mem_cons_self)) hw₂.back h₃
      have hcharge : ∀ t : PatchDecodeState, t.charge limits (PatchOp.insert path (some k) value).values =
          (t.charge limits [k]).charge limits [value] := fun t => @charge_append _ t [k] [value]
      rw [hcharge]
      refine (if_pos rfl).trans (bind_eq_ok.2 ⟨(some k, c₂, _), ?_, bind_eq_ok.2 ⟨_, hvalue, rfl⟩⟩)
      exact bind_eq_ok.2 ⟨_, (takeU8_eq_ok hc).2 h₁, bind_eq_ok.2 ⟨_, hkey, rfl⟩⟩
  | update path expected value =>
    obtain ⟨bytes, hbytes, h⟩ := bind_eq_ok.1 hb
    obtain ⟨_, hframe, h⟩ := bind_eq_ok.1 h
    obtain ⟨hlen, rfl⟩ := putBlob_eq_ok.1 hframe
    obtain ⟨vbytes, hvbytes, h⟩ := bind_eq_ok.1 h
    obtain ⟨_, hframe, h⟩ := bind_eq_ok.1 h
    obtain ⟨hvlen, rfl⟩ := putBlob_eq_ok.1 hframe
    cases h
    rw [show patchTagUpdate :: blob 4 bytes ++ expected.bytes ++ blob 4 vbytes =
      patchTagUpdate :: (blob 4 bytes ++ (expected.bytes ++ blob 4 vbytes)) by simp] at hfits ⊢
    refine decodePatchOperation_head (.inr (.inl rfl)) hfits hlen (hpath hbytes hlen) fun c c' hc hread => ?_
    obtain ⟨c₁, h₁, h₂⟩ := Cursor.consumes_append.1 hread
    have hvalue := decodeCarried_ok (h₁.fits hc) hbuilt hvbytes hvlen (hvalues _ List.mem_cons_self) hback h₂
    refine (if_neg (by decide)).trans ((if_pos rfl).trans ?_)
    exact bind_eq_ok.2 ⟨_, (takeHash32_eq_ok hc).2 h₁, bind_eq_ok.2 ⟨_, hvalue, rfl⟩⟩
  | delete path expected =>
    obtain ⟨bytes, hbytes, h⟩ := bind_eq_ok.1 hb
    obtain ⟨_, hframe, h⟩ := bind_eq_ok.1 h
    obtain ⟨hlen, rfl⟩ := putBlob_eq_ok.1 hframe
    cases h
    refine decodePatchOperation_head (.inr (.inr rfl)) hfits hlen (hpath hbytes hlen) fun c c' hc hread => ?_
    refine (if_neg (by decide)).trans ((if_neg (by decide)).trans ((if_pos rfl).trans ?_))
    exact bind_eq_ok.2 ⟨_, (takeHash32_eq_ok hc).2 hread, rfl⟩

theorem decodePatchOperations_ok (hc : c.Fits) {ops : List PatchOp} (hbuilt : ∀ op ∈ ops, op.Built)
    (hencodes : ∀ op ∈ ops, ∀ segment ∈ op.path.segments, segment.Encodes key)
    (hallows : ∀ op ∈ ops, limits.AllowsOperation key op)
    (hw : Within limits (s.charge limits (ops.flatMap (PatchOp.carried key))))
    (hb : encodeOperations ops = .ok b) (hread : c.Consumes b c') :
    decodePatchOperations limits ops.length c s =
      .ok (ops, c', s.charge limits (ops.flatMap (PatchOp.carried key))) := by
  induction ops generalizing c s b with
  | nil =>
    cases hb
    rw [Cursor.Consumes.nil_iff.1 hread]
    rfl
  | cons op ops ih =>
    rw [List.flatMap_cons] at hw ⊢
    obtain ⟨frame, hframe, hb⟩ := bind_eq_ok.1 hb
    obtain ⟨_, hblob, hb⟩ := bind_eq_ok.1 hb
    obtain ⟨hlen, rfl⟩ := putBlob_eq_ok.1 hblob
    obtain ⟨bytes, hbytes, hb⟩ := bind_eq_ok.1 hb
    cases hb
    obtain ⟨c₁, h₁, h₂⟩ := Cursor.consumes_append.1 hread
    obtain ⟨hbuiltOp, hbuilt⟩ := List.forall_mem_cons.1 hbuilt
    obtain ⟨hencodesOp, hencodes⟩ := List.forall_mem_cons.1 hencodes
    obtain ⟨hallowsOp, hallows⟩ := List.forall_mem_cons.1 hallows
    have hop := decodePatchOperation_ok hframe (hlen.trans (by decide)) hbuiltOp hencodesOp hallowsOp hw.front
    have hrest := ih (h₁.fits hc) hbuilt hencodes hallows hw.back hbytes h₂
    rw [charge_append]
    exact bind_eq_ok.2 ⟨_, (takeBlob_eq_ok hc).2 ⟨hlen, h₁⟩, bind_eq_ok.2 ⟨_, hop, bind_eq_ok.2 ⟨_, hrest, rfl⟩⟩⟩

theorem decodeParts_ok {patch : CanonicalPatch} (hb : patch.canonicalBytes = .ok b)
    (hbuilt : ∀ op ∈ patch.operations, op.Built)
    (hencodes : ∀ op ∈ patch.operations, ∀ segment ∈ op.path.segments, segment.Encodes key)
    (hallows : limits.Allows key patch b.length) :
    decodeParts b limits = .ok (patch.stateType, patch.expectedPreRoot, patch.operations) := by
  have hmax : b.length ≤ u64Max := hallows.input.trans (Nat.le_pred_of_lt limits.maxInputBytes.toNat_lt)
  have hc : (Cursor.new b).Fits := hmax
  obtain ⟨_, hlength, h⟩ := bind_eq_ok.1 hb
  obtain ⟨bytes, hbytes, h⟩ := bind_eq_ok.1 h
  obtain ⟨hn, rfl⟩ := putLength_eq_ok.1 hlength
  obtain ⟨c', hread, hend⟩ := exists_whole b
  rw [← Except.ok.inj h] at hread
  obtain ⟨c₃, hread, h₄⟩ := Cursor.consumes_append.1 hread
  obtain ⟨c₂, hread, h₃⟩ := Cursor.consumes_append.1 hread
  obtain ⟨c₁, h₁, h₂⟩ := Cursor.consumes_append.1 hread
  rw [Except.ok.inj h] at h₁
  have hc₁ := h₁.fits hc
  have hc₂ := h₂.fits hc₁
  have hcount : (UInt32.ofNat patch.operations.length).toNat = patch.operations.length :=
    UInt32.toNat_ofNat_of_lt' (Nat.lt_succ_of_le hn)
  have hloop : decodePatchOperations limits (UInt32.ofNat patch.operations.length).toNat c₃ ⟨0, 0⟩ =
      .ok (patch.operations, c', charge limits ⟨0, 0⟩ (patch.operations.flatMap (PatchOp.carried key))) := by
    rw [hcount]
    exact decodePatchOperations_ok (h₃.fits hc₂) hbuilt hencodes hallows.operation hallows.total hbytes h₄
  refine (ensure_bind hmax _).trans ((ensure_bind hallows.input _).trans ?_)
  refine bind_eq_ok.2 ⟨_, (takeU32_eq_ok hc).2 h₁, bind_eq_ok.2 ⟨_, (takeHash32_eq_ok hc₁).2 h₂, ?_⟩⟩
  refine bind_eq_ok.2 ⟨_, takeLength_ok hc₂ hn h₃, (ensure_bind ?_ _).trans ?_⟩
  · rw [UInt32.le_iff_toNat_le, hcount]
    exact hallows.operations
  · refine bind_eq_ok.2 ⟨_, capacity_ok _ _ (by decide), bind_eq_ok.2 ⟨_, hloop, ?_⟩⟩
    exact bind_eq_ok.2 ⟨(), finished_eq_ok.2 hend, rfl⟩

end Written

/-- **The patch wire format round-trips.** A patch that `try_new` built, with map-key segments that encode values, is
decoded from its own bytes under all bounds that its sizes respect. Conversely an accepted input is the bytes of its
patch, and the rebuild leaves the operations in the order in which the wire has them. -/
theorem patch_wire (limits : PatchDecodeLimits) :
    (∀ stateType root ops patch key b, CanonicalPatch.tryNew stateType root ops = .ok patch → (∀ op ∈ ops, op.Built) →
      (∀ op ∈ patch.operations, ∀ segment ∈ op.path.segments, segment.Encodes key) →
      patch.canonicalBytes = .ok b → limits.Allows key patch b.length → decodeCanonicalPatch b limits = .ok patch) ∧
    ∀ b patch, decodeCanonicalPatch b limits = .ok patch →
      patch.canonicalBytes = .ok b ∧
        decodeParts b limits = .ok (patch.stateType, patch.expectedPreRoot, patch.operations) := by
  refine ⟨fun stateType root ops patch key b hnew hbuilt hencodes hb hallows => ?_, fun b patch h => ?_⟩
  · have hperm := (tryNew_ok hnew).1
    have hparts := decodeParts_ok hb (fun op hop => hbuilt op (hperm.mem_iff.1 hop)) hencodes hallows
    have hagain := tryNew_operations hnew
    refine bind_eq_ok.2 ⟨_, hparts, bind_eq_ok.2 ⟨patch, mapError_eq_ok.2 hagain, ?_⟩⟩
    exact bind_eq_ok.2 ⟨b, mapError_eq_ok.2 hb, ensure_bind rfl _⟩
  · exact decodeCanonicalPatch_wire h

/-- an insert under the map key `true` -/
def keyedInsert : PatchOp := .insert ⟨[.field 1, .mapKey [2]]⟩ (some (.bool true)) .unit

theorem keyedInsert_new : CanonicalPatch.tryNew 7 .zero [keyedInsert] = .ok ⟨7, .zero, [keyedInsert]⟩ := by
  obtain ⟨operations, hperm, hnew⟩ :=
    (@tryNew_keyed 7 .zero [keyedInsert] _ rfl rfl).1 (List.pairwise_singleton _ _)
  rwa [List.perm_singleton.1 hperm] at hnew

theorem patch_wire_keyed : ∃ b, (⟨7, .zero, [keyedInsert]⟩ : CanonicalPatch).canonicalBytes = .ok b ∧
    decodeCanonicalPatch b .default = .ok ⟨7, .zero, [keyedInsert]⟩ := by
  refine ⟨_, rfl, (patch_wire .default).1 7 .zero [keyedInsert] _ (fun _ => .bool true) _ keyedInsert_new ?_ ?_ rfl ?_⟩
  · exact List.forall_mem_singleton.2 ⟨fun k hk => by cases hk; exact .boolean true, .unit⟩
  · intro op hop segment hsegment bytes hbytes
    cases List.mem_singleton.1 hop
    subst hbytes
    simp only [keyedInsert, PatchOp.path, List.mem_cons, List.not_mem_nil, PathSegment.mapKey.injEq, or_false,
      reduceCtorEq,
      false_or] at hsegment
    subst hsegment
    exact ⟨.boolean true, rfl⟩
  · refine ⟨by decide, by decide, List.forall_mem_singleton.2 ⟨by decide, ?_, ?_⟩, by decide, by decide⟩
    · intro bytes hbytes
      simp only [keyedInsert, PatchOp.path, List.mem_cons, List.not_mem_nil, PathSegment.mapKey.injEq, or_false,
        reduceCtorEq, false_or] at hbytes
      subst hbytes
      decide
    · simp only [keyedInsert, PatchOp.carried, ValuePath.carried, PatchOp.path, PatchOp.values, PathSegment.carried,
        List.flatMap_cons, List.flatMap_nil, Option.toList_some, List.append_nil, List.nil_append,
        List.singleton_append, List.forall_mem_cons]
      refine ⟨⟨⟨_, rfl⟩, ?_⟩, ⟨⟨_, rfl⟩, ?_⟩, ⟨⟨_, rfl⟩, ?_⟩, by simp⟩
      all_goals
        intro bytes hbytes
        cases hbytes
        decide

end ZenoFcis
