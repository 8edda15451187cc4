/-
Domain-separated commitments (`zeno-fcis-codec`).

A provider is one function on bytes: the sealed trait requires `hash_parts` to equal `hash` of the concatenation, so the
buffered and the incremental branch of `commitment` hash the same preimage.
-/
import ZenoFcis.Lib.WordOrder
import ZenoFcis.Codec.Decode
import ZenoFcis.Value.Refusal

namespace ZenoFcis

open Lib Lib.Except

theorem Hash32.bytes_inj : Function.Injective Hash32.bytes := by
  intro a b h
  cases a
  cases b
  cases h
  rfl

/-- the derived order: the bytes, lexicographically -/
instance : LinearOrder Hash32 := LinearOrder.lift' Hash32.bytes Hash32.bytes_inj

/-- the bytes of an ASCII literal -/
def literal (text : String) : Bytes := text.toList.map fun c => UInt8.ofNat c.toNat

/-- a versioned domain-separation tag -/
structure Domain where
  name : Bytes
  version : UInt16
deriving DecidableEq

namespace Domain

def reservedNamespace : Bytes := literal "zeno-fcis"

/-- `is_reserved_domain_name` -/
def isReservedName (name : Bytes) : Bool :=
  name = reservedNamespace || (reservedNamespace ++ literal "/").isPrefixOf name

/-- a project domain outside the reserved namespace -/
def new (name : Bytes) (version : UInt16) : Except EncodeError Domain :=
  if name.isEmpty || !isAscii name || 65535 < name.length || isReservedName name then .error .invalidDomain
  else .ok ⟨name, version⟩

/-- a fixed library domain of version 1 -/
def fixed (name : String) : Domain := ⟨literal name, 1⟩

def value : Domain := fixed "zeno-fcis/value"

end Domain

def hashMagic : Bytes := literal "ZENOFCIS-HASH" ++ [0]

/-- the exact preimage of a commitment -/
def domainPreimage (domain : Domain) (payload : Bytes) : Bytes :=
  hashMagic ++ beBytes 2 domain.version.toNat ++ beBytes 2 domain.name.length ++ domain.name ++
    beBytes 8 payload.length ++ payload

def commitment (hash : Bytes → Hash32) (domain : Domain) (payload : Bytes) : Except EncodeError Hash32 :=
  if 65535 < domain.name.length then .error .lengthOverflow
  else if u64Max < payload.length then .error .lengthOverflow
  else .ok (hash (domainPreimage domain payload))

/-- `CanonicalEncode::canonical_bytes` of a value: the default limits -/
def Value.canonicalBytes (value : Value) : Except EncodeError Bytes := canonicalValueBytesWithLimits value .default

/-- an error that reports a length or a resource limit -/
def EncodeError.IsLimit : EncodeError → Prop
  | .lengthOverflow => True
  | .invalidValue error => error.IsLimit
  | _ => False

/-- preimages tell domains and payloads apart -/
theorem domainPreimage_inj {domain domain' : Domain} {payload payload' : Bytes} (hname : domain.name.length ≤ 65535)
    (hname' : domain'.name.length ≤ 65535) (h : domainPreimage domain payload = domainPreimage domain' payload') :
    domain = domain' ∧ payload = payload' := by
  have hversion : ∀ v : UInt16, v.toNat < 256 ^ 2 := fun v => v.toNat_lt
  simp only [domainPreimage, List.append_assoc, List.append_cancel_left_eq] at h
  obtain ⟨hv, h⟩ := beBytes_append_inj (hversion _) (hversion _) h
  obtain ⟨hlen, h⟩ := beBytes_append_inj (by omega) (by omega) h
  obtain ⟨hnames, h⟩ := List.append_inj h hlen
  have hpayload := (List.append_inj h (by simp)).2
  cases domain
  cases domain'
  exact ⟨congrArg₂ Domain.mk hnames (UInt16.toNat_inj.1 hv), hpayload⟩

/-- a commitment fails by a limit only -/
theorem commitment_limits {hash : Bytes → Hash32} {domain : Domain} {payload : Bytes} {e : EncodeError}
    (h : commitment hash domain payload = .error e) : e.IsLimit := by
  unfold commitment at h
  split_ifs at h <;> cases h <;> exact trivial

/-- the bytes of a valid value fail by a limit only -/
theorem Valid.canonicalBytes_limits {v : Value} (hv : Valid v) {e : EncodeError} (h : v.canonicalBytes = .error e) :
    e.IsLimit := by
  obtain ⟨e', he', rfl⟩ := mapError_eq_error.1 h
  have hlimit := hv.zcveBytes_limits _ e' he'
  cases e' <;> exact hlimit

end ZenoFcis
