/-
The manifest of a composed domain (`zeno-fcis-contract/src/checked_composition/domain.rs`), its closed form and its
canonical bytes. Results:
- `canonicalBytes_iff`: the canonical bytes of two manifests whose texts and lists fit their counts are equal exactly
  when the manifests are, up to the order of what a component owns;
- `read_alike`: texts that differ in presentation only give the same canonical bytes;
- `canonicalBytes_saturated`: a count saturates, so longer names can hide what follows them.

The JSON parser and the parser of expressions are parameters; a deserialized map of strings has distinct keys.
-/
import ZenoFcis.Compose.Bytes
import ZenoFcis.Contract.Joint
import ZenoFcis.Contract.Manifest
import Mathlib.Data.String.Basic

namespace ZenoFcis.Contract.Composed

open Lib Lib.Except Lib.StableSort
open ZenoFcis.Contract.Composition (Stage Obligation)
open Joint (FieldDomain)

def DOMAIN_CHECKER : String := "zeno-fcis/composed-domain-checker/1"

def DOMAIN_SCHEMA : String := "zeno-fcis/checked-composition/3"

def MAX_OBLIGATION : ℕ := 2 ^ 22

def MAX_TOTAL : ℕ := 2 ^ 25

def MAX_COMPONENTS : ℕ := 64

def MAX_REQUEST : ℕ := 64

def MAX_COUPLINGS : ℕ := 256

def MAX_FORMULA_BYTES : ℕ := 4096

def MAX_FORMULA_NODES : ℕ := 1024

def MAX_FORMULA_DEPTH : ℕ := 128

/-- `as_bytes` -/
def bytes (s : String) : Bytes := s.toByteArray.data.toList

/-! ## Formulas -/

/-- why the text of a formula is not admitted -/
inductive Intake where
  | syntactic (reason : String)
  | tooLarge (reason : String)
deriving DecidableEq

/-- the parser of expressions, the nodes and the depth of a tree and the names that it reads, in byte order -/
structure Parser (α : Type) where
  parse : String → Except String α
  shape : α → ℕ × ℕ
  names : α → List String

/-- a formula as written -/
structure Formula (α : Type) where
  text : String
  ast : α
  names : List String

section Reading

variable {α : Type} (parser : Parser α)

def Formula.parse (text : String) : Except Intake (Formula α) := do
  let size := (bytes text).length
  ensure (size ≤ MAX_FORMULA_BYTES)
    (.tooLarge s!"is {size} bytes long; a formula has at most {MAX_FORMULA_BYTES}")
  let ast ← (parser.parse text).mapError .syntactic
  let (nodes, depth) := parser.shape ast
  ensure (nodes ≤ MAX_FORMULA_NODES ∧ depth ≤ MAX_FORMULA_DEPTH)
    (.tooLarge (s!"has {nodes} nodes nested {depth} deep; " ++
      s!"a formula has at most {MAX_FORMULA_NODES} nodes nested {MAX_FORMULA_DEPTH} deep"))
  return ⟨text, ast, parser.names ast⟩

def invalid (place reason : String) : Composition.Refusal := ⟨.manifest, .closedManifestForm, place, reason⟩

/-- the white space of Unicode -/
def isWhite (c : Char) : Bool :=
  let n := c.toNat
  (9 ≤ n && n ≤ 13) || n == 32 || n == 133 || n == 160 || n == 5760 || (8192 ≤ n && n ≤ 8202) || n == 8232 ||
    n == 8233 || n == 8239 || n == 8287 || n == 12288

/-- `text.trim() == text` -/
def trimmed (text : String) : Bool := !text.toList.head?.any isWhite && !text.toList.getLast?.any isWhite

def formula (place text : String) : Except Composition.Refusal (Formula α) := do
  ensure (text ≠ "" ∧ trimmed text)
    (invalid place "must be a formula without leading or trailing space; write `true` for none")
  (Formula.parse parser text).mapError fun intake =>
    match intake with
    | .syntactic reason => ⟨.manifest, .definedPredicate, place, reason⟩
    | .tooLarge reason => invalid place reason

/-! ## Files -/

/-- a JSON object of strings whose keys may not repeat -/
structure StrictMap where
  entries : List (String × String)
  nodup : (entries.map Prod.fst).Nodup

structure DomainFile where
  kind : String
  min : Option I128
  max : Option I128

structure RequestFile where
  name : String
  domain : DomainFile

structure ComponentFile where
  name : String
  path : String
  projectSha256 : String
  policySha256 : String
  programSha256 : String
  owns : List String
  participates : String
  bind : StrictMap
  assume' : String
  invariant : String

structure CouplingFile where
  name : String
  members : List String
  invariant : String

structure LimitsFile where
  maxObligation : UInt64
  maxTotal : UInt64

structure ManifestFile where
  schema : String
  checker : String
  name : String
  request : List RequestFile
  components : List ComponentFile
  couplings : List CouplingFile
  limits : Option LimitsFile

/-! ## Manifests -/

structure RequestField where
  name : String
  domain : FieldDomain

structure Entry (α : Type) where
  name : String
  path : String
  projectSha256 : Hash32
  policySha256 : Hash32
  programSha256 : Hash32
  /-- as written -/
  owns : List String
  participates : Formula α
  /-- each bound field with its expression, in the order of the names -/
  bind : List (String × Formula α)
  assume' : Formula α
  invariant : Formula α

structure CouplingEntry (α : Type) where
  name : String
  members : List String
  invariant : Formula α

structure Limits where
  maxObligation : UInt64
  maxTotal : UInt64
  lowered : Bool
deriving DecidableEq

/-- a composed-domain manifest in its closed form -/
structure DomainManifest (α : Type) where
  name : String
  request : List RequestField
  components : List (Entry α)
  couplings : List (CouplingEntry α)
  limits : Limits

def isLower (b : UInt8) : Bool := 97 ≤ b && b ≤ 122

def isDigit (b : UInt8) : Bool := 48 ≤ b && b ≤ 57

def identifier (name : String) : Bool :=
  match bytes name with
  | [] => false
  | first :: rest => isLower first && rest.all fun b => isLower b || isDigit b || b == 95

def safePath (path : String) : Bool :=
  path ≠ "" && ((bytes path).splitOn 47).all fun part =>
    part ≠ [] && part ≠ [46] && part ≠ [46, 46] && part.all fun b =>
      isLower b || isDigit b || (65 ≤ b && b ≤ 90) || b == 45 || b == 95 || b == 46

def hexDigit (b : UInt8) : Option UInt8 :=
  if isDigit b then some (b - 48) else if 97 ≤ b && b ≤ 102 then some (b - 97 + 10) else none

/-- the bytes of pairs of digits -/
def hexPairs : List UInt8 → Option (List UInt8)
  | high :: low :: rest => do
    let high ← hexDigit high
    let low ← hexDigit low
    return (high <<< 4 ||| low) :: (← hexPairs rest)
  | _ => some []

theorem hexPairs_length {n : ℕ} {digits out : List UInt8} (hlen : digits.length = 2 * n)
    (h : hexPairs digits = some out) : out.length = n := by
  induction n generalizing digits out with
  | zero =>
    obtain rfl := List.length_eq_zero_iff.1 hlen
    cases h
    rfl
  | succ n ih =>
    rcases digits with _ | ⟨high, _ | ⟨low, rest⟩⟩
    · simp at hlen
    · simp at hlen
      omega
    · rw [hexPairs] at h
      simp only [bind, Option.bind_eq_some_iff, pure, Option.some.injEq] at h
      obtain ⟨a, -, b, -, tail, htail, rfl⟩ := h
      rw [List.length_cons, ih (by simpa [Nat.mul_succ] using hlen) htail]

def pin (place text : String) : Except Composition.Refusal Hash32 :=
  if hlen : (bytes text).length = 64 then
    match hpairs : hexPairs (bytes text) with
    | some out => .ok ⟨out, hexPairs_length hlen hpairs⟩
    | none => .error (invalid place "must be 64 lowercase hexadecimal digits")
  else .error (invalid place "must be 64 lowercase hexadecimal digits")

def readDomain (place : String) (d : DomainFile) : Except Composition.Refusal FieldDomain :=
  let refused := invalid s!"{place}.domain"
    "is \x7b\"kind\": \"bool\"\x7d or \x7b\"kind\": \"int\", \"min\": a, \"max\": b\x7d with a <= b"
  if d.kind = "bool" then
    match d.min, d.max with
    | none, none => .ok .bool
    | _, _ => .error refused
  else if d.kind = "int" then
    match d.min, d.max with
    | some min, some max => if min.val ≤ max.val then .ok (.int min max) else .error refused
    | _, _ => .error refused
  else .error refused

def readRequest (request : List RequestField) (field : RequestFile × ℕ) :
    Except Composition.Refusal (List RequestField) := do
  let (field, index) := field
  let place := s!"request[{index}]"
  ensure (identifier field.name) (invalid place "a name is a lowercase identifier")
  ensure (∀ seen ∈ request, seen.name ≠ field.name) (invalid place s!"repeats the request field `{field.name}`")
  let domain ← readDomain place field.domain
  return request ++ [⟨field.name, domain⟩]

def readBind (place : String) (entry : String × String) : Except Composition.Refusal (String × Formula α) := do
  return (entry.1, ← formula parser s!"{place}bind.{entry.1}" entry.2)

def readComponent (components : List (Entry α)) (component : ComponentFile × ℕ) :
    Except Composition.Refusal (List (Entry α)) := do
  let (component, index) := component
  let place := s!"components[{index}]."
  ensure (identifier component.name) (invalid (place ++ "name") "a name is a lowercase identifier")
  ensure (∀ seen ∈ components, seen.name ≠ component.name)
    (invalid (place ++ "name") s!"two components are named `{component.name}`")
  ensure (safePath component.path)
    (invalid (place ++ "path") "must be a relative path of plain names, without `.` or `..`")
  ensure (∀ seen ∈ components, seen.path ≠ component.path)
    (invalid (place ++ "path") "two components name the same path")
  let bind ← component.bind.entries.mapM (readBind parser place)
  let projectSha256 ← pin (place ++ "project_sha256") component.projectSha256
  let policySha256 ← pin (place ++ "policy_sha256") component.policySha256
  let programSha256 ← pin (place ++ "program_sha256") component.programSha256
  let participates ← formula parser (place ++ "participates") component.participates
  let assume' ← formula parser (place ++ "assume") component.assume'
  let invariant ← formula parser (place ++ "invariant") component.invariant
  return components ++ [{
    name := component.name, path := component.path, projectSha256, policySha256, programSha256
    owns := component.owns, participates, bind := sortBy Prod.fst bind, assume', invariant }]

def readCoupling (couplings : List (CouplingEntry α)) (coupling : CouplingFile × ℕ) :
    Except Composition.Refusal (List (CouplingEntry α)) := do
  let (coupling, index) := coupling
  let place := s!"couplings[{index}]."
  ensure (identifier coupling.name) (invalid (place ++ "name") "a name is a lowercase identifier")
  ensure (∀ previous ∈ couplings.getLast?, previous.name < coupling.name)
    (invalid "couplings" "names must be distinct and in increasing order")
  let invariant ← formula parser (place ++ "invariant") coupling.invariant
  return couplings ++ [⟨coupling.name, coupling.members, invariant⟩]

def readLimits : Option LimitsFile → Except Composition.Refusal Limits
  | none => .ok ⟨UInt64.ofNat MAX_OBLIGATION, UInt64.ofNat MAX_TOTAL, false⟩
  | some limits => do
    ensure (0 < limits.maxObligation.toNat ∧ limits.maxObligation.toNat ≤ MAX_OBLIGATION ∧
        0 < limits.maxTotal.toNat ∧ limits.maxTotal.toNat ≤ MAX_TOTAL)
      (invalid "limits" (s!"may only lower the ceilings: 1 <= max_obligation <= {MAX_OBLIGATION} " ++
        s!"and 1 <= max_total <= {MAX_TOTAL}"))
    return ⟨limits.maxObligation, limits.maxTotal, true⟩

/-- the checks of `read` behind the deserialization -/
def readFile (file : ManifestFile) : Except Composition.Refusal (DomainManifest α) := do
  ensure (file.schema = DOMAIN_SCHEMA) (invalid "schema" s!"expected `{DOMAIN_SCHEMA}`, found `{file.schema}`")
  ensure (file.checker = DOMAIN_CHECKER) (invalid "checker" s!"expected `{DOMAIN_CHECKER}`, found `{file.checker}`")
  ensure (file.name ≠ "") (invalid "name" "must name the composition")
  ensure (file.request.length ≤ MAX_REQUEST) (invalid "request" s!"may list at most {MAX_REQUEST} fields")
  let request ← file.request.zipIdx.foldlM readRequest []
  ensure (file.components ≠ [] ∧ file.components.length ≤ MAX_COMPONENTS)
    (invalid "components" s!"must list 1 to {MAX_COMPONENTS} components")
  let components ← file.components.zipIdx.foldlM (readComponent parser) []
  ensure (file.couplings.length ≤ MAX_COUPLINGS) (invalid "couplings" s!"may list at most {MAX_COUPLINGS}")
  let couplings ← file.couplings.zipIdx.foldlM (readCoupling parser) []
  let limits ← readLimits file.limits
  return ⟨file.name, request, components, couplings, limits⟩

def read (fromStr : String → Except String ManifestFile) (text : String) :
    Except Composition.Refusal (DomainManifest α) := do
  let file ← (fromStr text).mapError (invalid "composition manifest")
  readFile parser file

end Reading

/-! ## Canonical bytes -/

/-- a count of more than `u32` saturates -/
def count (n : ℕ) : Bytes := beBytes 4 (if n ≤ u32Max then n else u32Max)

def text (value : String) : Bytes := [count (bytes value).length, bytes value].flatten

def integer (n : I128) : Bytes := beBytes 16 (signedToBits n).toNat

def canonicalDomain : FieldDomain → Bytes
  | .bool => [0]
  | .int min max => [[1], integer min, integer max].flatten
  | .variants ids => [[2], count ids.length, ids.flatMap integer].flatten

def canonicalRequest (field : RequestField) : Bytes := [text field.name, canonicalDomain field.domain].flatten

def canonicalBind {α : Type} (b : String × Formula α) : Bytes := [text b.1, text b.2.text].flatten

def canonicalEntry {α : Type} (e : Entry α) : Bytes :=
  let owns := sortBy id e.owns
  [text e.name, text e.path, e.projectSha256.bytes, e.policySha256.bytes, e.programSha256.bytes, count owns.length,
    owns.flatMap text, text e.participates.text, count e.bind.length, e.bind.flatMap canonicalBind, text e.assume'.text,
    text e.invariant.text].flatten

def canonicalCoupling {α : Type} (c : CouplingEntry α) : Bytes :=
  [text c.name, count c.members.length, c.members.flatMap text, text c.invariant.text].flatten

/-- `b"ZFCIS-COMPOSED-DOMAIN\0"` -/
def MAGIC : Bytes :=
  [90, 70, 67, 73, 83, 45, 67, 79, 77, 80, 79, 83, 69, 68, 45, 68, 79, 77, 65, 73, 78, 0]

def canonicalBytes {α : Type} (m : DomainManifest α) : Bytes :=
  [MAGIC, beBytes 2 3, text DOMAIN_CHECKER, text m.name, count m.request.length, m.request.flatMap canonicalRequest,
    count m.components.length, m.components.flatMap canonicalEntry, count m.couplings.length,
    m.couplings.flatMap canonicalCoupling, [if m.limits.lowered then 1 else 0], beBytes 8 m.limits.maxObligation.toNat,
    beBytes 8 m.limits.maxTotal.toNat].flatten

/-! ## What is read -/

section Folds

variable {α β ε : Type} {step : List β → α → Except ε (List β)}

variable {l l' : List α} {acc out : List β} {f : α → Except ε β}

theorem fold_appends {P : α → β → Prop} (h : ∀ acc a out, step acc a = .ok out → ∃ b, out = acc ++ [b] ∧ P a b)
    (hfold : l.foldlM step acc = .ok out) :
    ∃ bs, out = acc ++ bs ∧ List.Forall₂ P l bs := by
  induction l generalizing acc with
  | nil =>
    cases hfold
    exact ⟨[], (List.append_nil _).symm, .nil⟩
  | cons a l ih =>
    rw [List.foldlM_cons] at hfold
    obtain ⟨next, hstep, hrest⟩ := bind_eq_ok.1 hfold
    obtain ⟨b, rfl, hb⟩ := h acc a next hstep
    obtain ⟨bs, rfl, hbs⟩ := ih hrest
    exact ⟨b :: bs, by simp, .cons hb hbs⟩

theorem fold_related {S : α → α → Prop} {R : List β → List β → Prop}
    (h : ∀ acc acc' a a' out, R acc acc' → S a a' → step acc a = .ok out → ∃ out', step acc' a' = .ok out' ∧ R out out')
    (hl : List.Forall₂ S l l') {acc' : List β} (hacc : R acc acc')
    (hfold : l.foldlM step acc = .ok out) : ∃ out', l'.foldlM step acc' = .ok out' ∧ R out out' := by
  induction hl generalizing acc acc' with
  | nil =>
    cases hfold
    exact ⟨acc', rfl, hacc⟩
  | cons ha _ ih =>
    rw [List.foldlM_cons] at hfold
    obtain ⟨next, hstep, hrest⟩ := bind_eq_ok.1 hfold
    obtain ⟨next', hstep', hnext⟩ := h _ _ _ _ _ hacc ha hstep
    obtain ⟨out', hout', hrelated⟩ := ih hnext hrest
    refine ⟨out', ?_, hrelated⟩
    rw [List.foldlM_cons, hstep']
    exact hout'

theorem mem_mapM (h : l.mapM f = .ok out) {b : β} (hb : b ∈ out) : ∃ a, f a = .ok b := by
  obtain ⟨a, -, hab⟩ := forall₂_left (mapM_eq_ok.1 h) hb
  exact ⟨a, hab⟩

theorem mapM_perm (hperm : l.Perm l') (h : l.mapM f = .ok out) :
    ∃ out', l'.mapM f = .ok out' ∧ out.Perm out' := by
  obtain ⟨out', hout', hsame⟩ := List.perm_comp_forall₂ hperm.symm (mapM_eq_ok.1 h)
  exact ⟨out', mapM_eq_ok.2 hout', hsame.symm⟩

end Folds

section Read

variable {α : Type} {parser : Parser α}

/-- a formula as its text is read -/
def Formula.Read (parser : Parser α) (f : Formula α) : Prop := Formula.parse parser f.text = .ok f

theorem formula_ok {place text : String} {f : Formula α} (h : formula parser place text = .ok f) :
    f.text = text ∧ f.Read parser := by
  unfold formula at h
  simp only [bind_eq_ok, ensure_eq_ok, exists_const, mapError_eq_ok] at h
  obtain ⟨-, hparse⟩ := h
  have hout := hparse
  unfold Formula.parse at hout
  simp only [bind_eq_ok, ensure_eq_ok, exists_const, mapError_eq_ok] at hout
  obtain ⟨-, ast, -, -, hf⟩ := hout
  cases hf
  exact ⟨rfl, hparse⟩

/-- a formula is determined by its text -/
theorem Formula.Read.eq {f g : Formula α} (hf : f.Read parser) (hg : g.Read parser) (h : f.text = g.text) : f = g := by
  unfold Formula.Read at hf hg
  rw [h, hg] at hf
  exact (Except.ok.inj hf).symm

theorem Formula.Read.size_le {f : Formula α} (hf : f.Read parser) : (bytes f.text).length ≤ u32Max := by
  unfold Formula.Read Formula.parse at hf
  simp only [bind_eq_ok, ensure_eq_ok, exists_const] at hf
  refine hf.1.trans ?_
  unfold MAX_FORMULA_BYTES u32Max
  omega

structure Entry.Read (parser : Parser α) (e : Entry α) : Prop where
  participates : e.participates.Read parser
  bind : ∀ b ∈ e.bind, b.2.Read parser
  assume' : e.assume'.Read parser
  invariant : e.invariant.Read parser

theorem readComponent_ok {components out : List (Entry α)} {component : ComponentFile × ℕ}
    (h : readComponent parser components component = .ok out) : ∃ e, out = components ++ [e] ∧ e.Read parser := by
  unfold readComponent at h
  simp only [bind_eq_ok, ensure_eq_ok, exists_const] at h
  obtain ⟨-, -, -, -, bind, hbind, _, -, _, -, _, -, participates, hparticipates, assume', hassume, invariant,
    hinvariant, hout⟩ := h
  cases hout
  refine ⟨_, rfl, (formula_ok hparticipates).2, fun b hb => ?_, (formula_ok hassume).2, (formula_ok hinvariant).2⟩
  obtain ⟨entry, hread⟩ := mem_mapM hbind (mem_sortBy.1 hb)
  unfold readBind at hread
  simp only [bind_eq_ok] at hread
  obtain ⟨f, hf, hout⟩ := hread
  cases hout
  exact (formula_ok hf).2

theorem readCoupling_ok {couplings out : List (CouplingEntry α)} {coupling : CouplingFile × ℕ}
    (h : readCoupling parser couplings coupling = .ok out) :
    ∃ c, out = couplings ++ [c] ∧ c.invariant.Read parser := by
  unfold readCoupling at h
  simp only [bind_eq_ok, ensure_eq_ok, exists_const] at h
  obtain ⟨-, -, invariant, hinvariant, hout⟩ := h
  cases hout
  exact ⟨_, rfl, (formula_ok hinvariant).2⟩

/-- a request field has no variants -/
def Plain (d : FieldDomain) : Prop := ∀ ids, d ≠ .variants ids

theorem readDomain_ok {place : String} {file : DomainFile} {d : FieldDomain} (h : readDomain place file = .ok d) :
    Plain d := by
  intro ids hd
  subst hd
  unfold readDomain at h
  dsimp only at h
  split_ifs at h
  · split at h <;> cases h
  · split at h
    · split_ifs at h
      cases h
    · cases h

theorem readRequest_ok {request out : List RequestField} {field : RequestFile × ℕ}
    (h : readRequest request field = .ok out) :
    ∃ f, out = request ++ [f] ∧ Plain f.domain := by
  unfold readRequest at h
  simp only [bind_eq_ok, ensure_eq_ok, exists_const] at h
  obtain ⟨-, -, domain, hdomain, hout⟩ := h
  cases hout
  exact ⟨_, rfl, readDomain_ok hdomain⟩

/-- what a manifest that was read satisfies -/
structure DomainManifest.Read (parser : Parser α) (m : DomainManifest α) : Prop where
  request_le : m.request.length ≤ MAX_REQUEST
  components_le : m.components.length ≤ MAX_COMPONENTS
  couplings_le : m.couplings.length ≤ MAX_COUPLINGS
  request : ∀ f ∈ m.request, Plain f.domain
  components : ∀ e ∈ m.components, e.Read parser
  couplings : ∀ c ∈ m.couplings, c.invariant.Read parser

theorem mem_right {β γ : Type} {P : γ → Prop} {l : List β} {l' : List γ} (h : List.Forall₂ (fun _ c => P c) l l') :
    ∀ c ∈ l', P c := by
  induction h with
  | nil => simp
  | cons hc _ ih => exact List.forall_mem_cons.2 ⟨hc, ih⟩

theorem readFile_ok {file : ManifestFile} {m : DomainManifest α} (h : readFile parser file = .ok m) : m.Read parser := by
  unfold readFile at h
  simp only [bind_eq_ok, ensure_eq_ok, exists_const] at h
  obtain ⟨-, -, -, hrequest, request, hfields, ⟨-, hcomponents⟩, components, hentries, hcouplings, couplings, hcoupled,
    limits, -, hout⟩ := h
  cases hout
  have hentry : ∀ acc a out, readComponent parser acc a = .ok out → ∃ e, out = acc ++ [e] ∧ e.Read parser :=
    fun _ _ _ h => readComponent_ok h
  have hcoupling : ∀ acc a out, readCoupling parser acc a = .ok out → ∃ c, out = acc ++ [c] ∧ c.invariant.Read parser :=
    fun _ _ _ h => readCoupling_ok h
  obtain ⟨fields, rfl, hread⟩ := fold_appends (fun _ _ _ => readRequest_ok) hfields
  obtain ⟨entries, rfl, hread'⟩ := fold_appends hentry hentries
  obtain ⟨coupled, rfl, hread''⟩ := fold_appends hcoupling hcoupled
  have hlength {β : Type} (l : List β) : l.zipIdx.length = l.length := List.length_zipIdx
  refine ⟨?_, ?_, ?_, mem_right hread, mem_right hread', mem_right hread''⟩
  · exact (hread.length_eq.symm.trans (hlength _)).trans_le hrequest
  · exact (hread'.length_eq.symm.trans (hlength _)).trans_le hcomponents
  · exact (hread''.length_eq.symm.trans (hlength _)).trans_le hcouplings

end Read

/-! ## An encoder that refuses -/

section Strict

open Compose (putBlob putU32Length reveals_putBlob reveals_putU32Length reveals_hash reveals_word)

abbrev Encoded := Except EncodeError Bytes

def putText (s : String) : Encoded := putBlob (bytes s)

def listed {β : Type} (enc : β → Encoded) (l : List β) : Encoded := concat (putU32Length l.length :: l.map enc)

def putInteger (n : I128) : Encoded := .ok (integer n)

def putDomain : FieldDomain → Encoded
  | .bool => concat [.ok [0]]
  | .int min max => concat [.ok [1], putInteger min, putInteger max]
  | .variants ids => concat [.ok [2], listed putInteger ids]

def putRequest (field : RequestField) : Encoded := concat [putText field.name, putDomain field.domain]

def putPair (b : String × String) : Encoded := concat [putText b.1, putText b.2]

/-- what the bytes hold of a component -/
structure Shown where
  name : String
  path : String
  projectSha256 : Hash32
  policySha256 : Hash32
  programSha256 : Hash32
  owns : List String
  participates : String
  bind : List (String × String)
  assume' : String
  invariant : String

def Entry.shown {α : Type} (e : Entry α) : Shown :=
  ⟨e.name, e.path, e.projectSha256, e.policySha256, e.programSha256, sortBy id e.owns, e.participates.text,
    e.bind.map fun b => (b.1, b.2.text), e.assume'.text, e.invariant.text⟩

def putShown (e : Shown) : Encoded :=
  concat [putText e.name, putText e.path, .ok e.projectSha256.bytes, .ok e.policySha256.bytes, .ok e.programSha256.bytes,
    listed putText e.owns, putText e.participates, listed putPair e.bind, putText e.assume', putText e.invariant]

/-- what the bytes hold of a coupling -/
structure Coupled where
  name : String
  members : List String
  invariant : String

def CouplingEntry.shown {α : Type} (c : CouplingEntry α) : Coupled := ⟨c.name, c.members, c.invariant.text⟩

def putCoupled (c : Coupled) : Encoded := concat [putText c.name, listed putText c.members, putText c.invariant]

def putLimits (l : Limits) : Encoded :=
  .ok [[if l.lowered then 1 else 0], beBytes 8 l.maxObligation.toNat, beBytes 8 l.maxTotal.toNat].flatten

def putManifest {α : Type} (m : DomainManifest α) : Encoded :=
  concat [.ok MAGIC, .ok (beBytes 2 3), putText DOMAIN_CHECKER, putText m.name, listed putRequest m.request,
    listed putShown (m.components.map Entry.shown), listed putCoupled (m.couplings.map CouplingEntry.shown),
    putLimits m.limits]

theorem bytes_inj {s t : String} (h : bytes s = bytes t) : s = t := by
  unfold bytes at h
  refine String.toByteArray_inj.1 (ByteArray.ext ?_)
  exact Array.toList_inj.1 h

/-- a text reveals itself -/
theorem reveals_text : Reveals putText fun s => s := (reveals_putBlob.of bytes).imp fun _ _ => bytes_inj

/-- a list of parts reveals its members -/
theorem reveals_listed {β : Type} {enc : β → Encoded} (h : Reveals enc fun b => b) : Reveals (listed enc) fun l => l :=
  Reveals.counted reveals_putU32Length h Function.injective_id

theorem reveals_integer : Reveals putInteger fun n => n :=
  (reveals_word 16 fun n : I128 => (signedToBits n).isLt).imp fun _ _ h => signedToBits_inj (BitVec.eq_of_toNat_eq h)

theorem same_tag {tag tag' : UInt8} {parts parts' : List Encoded} {u v r s : Bytes}
    (hu : concat (.ok [tag] :: parts) = .ok u) (hv : concat (.ok [tag'] :: parts') = .ok v) (heq : u ++ r = v ++ s) :
    tag = tag' := by
  obtain ⟨_, htag, hu⟩ := bind_eq_ok.1 hu
  obtain ⟨_, -, hu⟩ := bind_eq_ok.1 hu
  obtain ⟨_, htag', hv⟩ := bind_eq_ok.1 hv
  obtain ⟨_, -, hv⟩ := bind_eq_ok.1 hv
  cases htag
  cases htag'
  cases hu
  cases hv
  exact (List.cons.inj heq).1

theorem reveals_domain : Reveals putDomain fun d => d := by
  have hint : Reveals (fun p : I128 × I128 => concat [.ok [1], putInteger p.1, putInteger p.2]) fun p => p :=
    ((Reveals.const [1]).cons ((reveals_integer.of Prod.fst).cons ((reveals_integer.of Prod.snd).cons .nil))).imp
      fun a b h => by
        cases a
        cases b
        simpa using h
  have hvariants : Reveals (fun ids : List I128 => concat [.ok [2], listed putInteger ids]) fun ids => ids :=
    ((Reveals.const [2]).cons ((reveals_listed reveals_integer).cons .nil)).imp fun a b h => by simpa using h
  intro a b u v r s ha hb heq
  cases a with
  | bool =>
    cases b with
    | bool =>
      have hsame : u = v := Except.ok.inj (ha.symm.trans hb)
      rw [hsame] at heq
      exact ⟨rfl, List.append_cancel_left heq⟩
    | int min max | variants ids => exact absurd (same_tag ha hb heq) (by decide)
  | int min max =>
    cases b with
    | bool | variants ids => exact absurd (same_tag ha hb heq) (by decide)
    | int min' max' =>
      obtain ⟨hsame, hrest⟩ := hint (a := (min, max)) (b := (min', max')) ha hb heq
      cases hsame
      exact ⟨rfl, hrest⟩
  | variants ids =>
    cases b with
    | bool | int min max => exact absurd (same_tag ha hb heq) (by decide)
    | variants ids' =>
      obtain ⟨rfl, hrest⟩ := hvariants ha hb heq
      exact ⟨rfl, hrest⟩

theorem reveals_request : Reveals putRequest fun f => f :=
  ((reveals_text.of RequestField.name).cons ((reveals_domain.of RequestField.domain).cons .nil)).imp fun a b h => by
    cases a
    cases b
    simpa using h

theorem reveals_pair : Reveals putPair fun b => b :=
  ((reveals_text.of Prod.fst).cons ((reveals_text.of Prod.snd).cons .nil)).imp fun a b h => by
    cases a
    cases b
    simpa using h

theorem reveals_shown : Reveals putShown fun e => e :=
  ((reveals_text.of Shown.name).cons <| (reveals_text.of Shown.path).cons <|
    (reveals_hash.of Shown.projectSha256).cons <| (reveals_hash.of Shown.policySha256).cons <|
    (reveals_hash.of Shown.programSha256).cons <| ((reveals_listed reveals_text).of Shown.owns).cons <|
    (reveals_text.of Shown.participates).cons <| ((reveals_listed reveals_pair).of Shown.bind).cons <|
    (reveals_text.of Shown.assume').cons <| (reveals_text.of Shown.invariant).cons .nil).imp fun a b h => by
    cases a
    cases b
    simpa using h

theorem reveals_coupled : Reveals putCoupled fun c => c :=
  ((reveals_text.of Coupled.name).cons <| ((reveals_listed reveals_text).of Coupled.members).cons <|
    (reveals_text.of Coupled.invariant).cons .nil).imp fun a b h => by
    cases a
    cases b
    simpa using h

theorem reveals_limits : Reveals putLimits fun l => l := by
  intro a b u v r s ha hb heq
  cases ha
  cases hb
  rcases a with ⟨obligation, total, lowered⟩
  rcases b with ⟨obligation', total', lowered'⟩
  simp only [List.flatten_cons, List.flatten_nil, List.append_nil, List.append_assoc, List.cons_append, List.nil_append,
    List.cons.injEq] at heq
  obtain ⟨hlowered, hrest⟩ := heq
  obtain ⟨hobligation, hrest⟩ := beBytes_append_inj obligation.toNat_lt obligation'.toNat_lt hrest
  obtain ⟨htotal, hrest⟩ := beBytes_append_inj total.toNat_lt total'.toNat_lt hrest
  have hflag : lowered = lowered' := by
    cases lowered <;> cases lowered' <;> simp_all
  rw [UInt64.toNat_inj.1 hobligation, UInt64.toNat_inj.1 htotal, hflag]
  exact ⟨rfl, hrest⟩

theorem reveals_manifest {α : Type} : Reveals (putManifest (α := α)) fun m =>
    (m.name, m.request, m.components.map Entry.shown, m.couplings.map CouplingEntry.shown, m.limits) :=
  ((Reveals.const MAGIC).cons <| (Reveals.const (beBytes 2 3)).cons <| (reveals_text.of fun _ => DOMAIN_CHECKER).cons <|
    (reveals_text.of DomainManifest.name).cons <| ((reveals_listed reveals_request).of DomainManifest.request).cons <|
    ((reveals_listed reveals_shown).of fun m : DomainManifest α => m.components.map Entry.shown).cons <|
    ((reveals_listed reveals_coupled).of fun m : DomainManifest α => m.couplings.map CouplingEntry.shown).cons <|
    (reveals_limits.of DomainManifest.limits).cons .nil).imp fun a b h => by
    simpa using h

/-! ## Texts and lists that fit their counts -/

def TextFits (s : String) : Prop := (bytes s).length ≤ u32Max

structure Entry.Fits {α : Type} (e : Entry α) : Prop where
  name : TextFits e.name
  path : TextFits e.path
  owns : ∀ s ∈ e.owns, TextFits s
  owns_le : e.owns.length ≤ u32Max
  bind : ∀ b ∈ e.bind, TextFits b.1
  bind_le : e.bind.length ≤ u32Max

structure CouplingEntry.Fits {α : Type} (c : CouplingEntry α) : Prop where
  name : TextFits c.name
  members : ∀ s ∈ c.members, TextFits s
  members_le : c.members.length ≤ u32Max

/-- every text and every list is at most as long as its count can say -/
structure DomainManifest.Fits {α : Type} (m : DomainManifest α) : Prop where
  name : TextFits m.name
  request : ∀ f ∈ m.request, TextFits f.name
  components : ∀ e ∈ m.components, e.Fits
  couplings : ∀ c ∈ m.couplings, c.Fits

theorem concat_ok (parts : List Bytes) : concat (parts.map fun part => (.ok part : Encoded)) = .ok parts.flatten := by
  induction parts with
  | nil => rfl
  | cons part parts ih =>
    rw [List.map_cons, concat, ih]
    rfl

theorem count_eq {n : ℕ} (h : n ≤ u32Max) : count n = beBytes 4 n := by
  unfold count
  rw [if_pos h]

/-- a text that fits is written with its length -/
theorem putText_ok {s : String} (h : TextFits s) : putText s = .ok (text s) := by
  have hcount : putU32Length (bytes s).length = .ok (beBytes 4 (bytes s).length) := if_pos h
  unfold putText putBlob text
  rw [hcount, count_eq h]
  exact concat_ok [_, _]

/-- a list of parts that are written is written -/
theorem listed_ok {β : Type} {enc : β → Encoded} {enc' : β → Bytes} {l : List β} (hle : l.length ≤ u32Max)
    (h : ∀ b ∈ l, enc b = .ok (enc' b)) : listed enc l = .ok (count l.length ++ l.flatMap enc') := by
  have hcount : putU32Length l.length = .ok (beBytes 4 l.length) := if_pos hle
  have hitems : l.map enc = (l.map enc').map fun part => (.ok part : Encoded) := by
    rw [List.map_map]
    exact List.map_congr_left h
  unfold listed
  rw [hcount, hitems, count_eq hle, List.flatMap_def]
  exact concat_ok (_ :: _)

section Agrees

variable {α : Type} {parser : Parser α}

theorem putDomain_ok {d : FieldDomain} (h : Plain d) : putDomain d = .ok (canonicalDomain d) := by
  cases d with
  | bool => rfl
  | int min max => exact concat_ok [_, _, _]
  | variants ids => exact absurd rfl (h ids)

theorem putRequest_ok {f : RequestField} (hname : TextFits f.name) (hdomain : Plain f.domain) :
    putRequest f = .ok (canonicalRequest f) := by
  unfold putRequest
  rw [putText_ok hname, putDomain_ok hdomain]
  exact concat_ok [_, _]

theorem listed_map {β γ : Type} {f : β → γ} {enc : γ → Encoded} {enc' : β → Bytes} {l : List β} (hle : l.length ≤ u32Max)
    (h : ∀ b ∈ l, enc (f b) = .ok (enc' b)) : listed enc (l.map f) = .ok (count l.length ++ l.flatMap enc') := by
  have hsame : listed enc (l.map f) = listed (fun b => enc (f b)) l := by
    unfold listed
    rw [List.length_map, List.map_map]
    rfl
  rw [hsame]
  exact listed_ok hle h

theorem putShown_ok {e : Entry α} (hread : e.Read parser) (hfits : e.Fits) :
    putShown e.shown = .ok (canonicalEntry e) := by
  have howns : listed putText (sortBy id e.owns) =
      .ok (count (sortBy id e.owns).length ++ (sortBy id e.owns).flatMap text) :=
    listed_ok ((sortBy_perm id e.owns).length_eq.trans_le hfits.owns_le) fun s hs =>
      putText_ok (hfits.owns s (mem_sortBy.1 hs))
  have hbind : listed putPair (e.bind.map fun b => (b.1, b.2.text)) =
      .ok (count e.bind.length ++ e.bind.flatMap canonicalBind) := by
    refine listed_map hfits.bind_le fun b hb => ?_
    have hpair : putPair (b.1, b.2.text) = concat [putText b.1, putText b.2.text] := rfl
    rw [hpair, putText_ok (hfits.bind b hb), putText_ok (hread.bind b hb).size_le]
    exact concat_ok [_, _]
  unfold putShown Entry.shown
  dsimp only
  rw [putText_ok hfits.name, putText_ok hfits.path, howns, putText_ok hread.participates.size_le, hbind,
    putText_ok hread.assume'.size_le, putText_ok hread.invariant.size_le]
  refine (concat_ok [_, _, _, _, _, _, _, _, _, _]).trans ?_
  unfold canonicalEntry
  simp only [List.flatten_cons, List.append_assoc]

theorem putCoupled_ok {c : CouplingEntry α} (hread : c.invariant.Read parser) (hfits : c.Fits) :
    putCoupled c.shown = .ok (canonicalCoupling c) := by
  have hmembers := listed_ok hfits.members_le fun s hs => putText_ok (hfits.members s hs)
  unfold putCoupled CouplingEntry.shown
  dsimp only
  rw [putText_ok hfits.name, hmembers, putText_ok hread.size_le]
  refine (concat_ok [_, _, _]).trans ?_
  unfold canonicalCoupling
  simp only [List.flatten_cons, List.append_assoc]

/-- **The two encoders.** Where every text and list fits its count, nothing saturates. -/
theorem putManifest_ok {m : DomainManifest α} (hread : m.Read parser) (hfits : m.Fits) :
    putManifest m = .ok (canonicalBytes m) := by
  have hchecker : TextFits DOMAIN_CHECKER := by
    unfold TextFits
    decide
  have hrequest : listed putRequest m.request = .ok (count m.request.length ++ m.request.flatMap canonicalRequest) :=
    listed_ok (hread.request_le.trans (by decide)) fun f hf => putRequest_ok (hfits.request f hf) (hread.request f hf)
  have hcomponents : listed putShown (m.components.map Entry.shown) =
      .ok (count m.components.length ++ m.components.flatMap canonicalEntry) :=
    listed_map (hread.components_le.trans (by decide)) fun e he =>
      putShown_ok (hread.components e he) (hfits.components e he)
  have hcouplings : listed putCoupled (m.couplings.map CouplingEntry.shown) =
      .ok (count m.couplings.length ++ m.couplings.flatMap canonicalCoupling) :=
    listed_map (hread.couplings_le.trans (by decide)) fun c hc =>
      putCoupled_ok (hread.couplings c hc) (hfits.couplings c hc)
  unfold putManifest putLimits
  rw [putText_ok hchecker, putText_ok hfits.name, hrequest, hcomponents, hcouplings]
  refine (concat_ok [_, _, _, _, _, _, _, _]).trans ?_
  unfold canonicalBytes
  simp only [List.flatten_cons, List.append_assoc, List.flatten_nil, List.append_nil]

/-- a component up to the order of what it owns -/
def Entry.sorted (e : Entry α) : Entry α := { e with owns := sortBy id e.owns }

/-- a manifest up to the order of what its components own -/
def DomainManifest.sorted (m : DomainManifest α) : DomainManifest α :=
  { m with components := m.components.map Entry.sorted }

theorem bind_eq {l l' : List (String × Formula α)} (hl : ∀ b ∈ l, b.2.Read parser) (hl' : ∀ b ∈ l', b.2.Read parser)
    (h : l.map (fun b => (b.1, b.2.text)) = l'.map fun b => (b.1, b.2.text)) : l = l' := by
  induction l generalizing l' with
  | nil => exact (List.map_eq_nil_iff.1 h.symm).symm
  | cons b l ih =>
    rcases l' with _ | ⟨b', l'⟩
    · cases h
    · rw [List.map_cons, List.map_cons, List.cons.injEq, Prod.mk.injEq] at h
      obtain ⟨⟨hname, htext⟩, hrest⟩ := h
      have hformula := (hl b List.mem_cons_self).eq (hl' b' List.mem_cons_self) htext
      rw [ih (fun x hx => hl x (List.mem_cons_of_mem _ hx)) (fun x hx => hl' x (List.mem_cons_of_mem _ hx)) hrest,
        Prod.ext hname hformula]

theorem shown_iff {e e' : Entry α} (he : e.Read parser) (he' : e'.Read parser) :
    e.shown = e'.shown ↔ e.sorted = e'.sorted := by
  unfold Entry.shown Entry.sorted
  simp only [Shown.mk.injEq, Entry.mk.injEq]
  constructor
  · rintro ⟨h₁, h₂, h₃, h₄, h₅, h₆, h₇, h₈, h₉, h₁₀⟩
    exact ⟨h₁, h₂, h₃, h₄, h₅, h₆, he.participates.eq he'.participates h₇, bind_eq he.bind he'.bind h₈,
      he.assume'.eq he'.assume' h₉, he.invariant.eq he'.invariant h₁₀⟩
  · rintro ⟨h₁, h₂, h₃, h₄, h₅, h₆, h₇, h₈, h₉, h₁₀⟩
    exact ⟨h₁, h₂, h₃, h₄, h₅, h₆, congrArg _ h₇, congrArg _ h₈, congrArg _ h₉, congrArg _ h₁₀⟩

theorem coupled_iff {c c' : CouplingEntry α} (hc : c.invariant.Read parser) (hc' : c'.invariant.Read parser) :
    c.shown = c'.shown ↔ c = c' := by
  rcases c with ⟨name, members, invariant⟩
  rcases c' with ⟨name', members', invariant'⟩
  unfold CouplingEntry.shown
  simp only [Coupled.mk.injEq, CouplingEntry.mk.injEq]
  constructor
  · rintro ⟨hname, hmembers, htext⟩
    exact ⟨hname, hmembers, hc.eq hc' htext⟩
  · rintro ⟨hname, hmembers, hformula⟩
    exact ⟨hname, hmembers, congrArg _ hformula⟩

theorem map_iff {β γ δ : Type} {f : β → γ} {g : β → δ} {P : β → Prop} (h : ∀ b b', P b → P b' → (f b = f b' ↔ g b = g b'))
    {l l' : List β} (hl : ∀ b ∈ l, P b) (hl' : ∀ b ∈ l', P b) : l.map f = l'.map f ↔ l.map g = l'.map g := by
  induction l generalizing l' with
  | nil => simp [eq_comm]
  | cons b l ih =>
    rcases l' with _ | ⟨b', l'⟩
    · simp
    · rw [List.map_cons, List.map_cons, List.map_cons, List.map_cons, List.cons.injEq, List.cons.injEq,
        h b b' (hl b List.mem_cons_self) (hl' b' List.mem_cons_self),
        ih (fun x hx => hl x (List.mem_cons_of_mem _ hx)) (fun x hx => hl' x (List.mem_cons_of_mem _ hx))]

/-- **Injectivity.** The bytes of manifests that were read and that fit their counts are equal exactly when the
manifests are, up to the order of what a component owns. -/
theorem canonicalBytes_iff {m m' : DomainManifest α} (hread : m.Read parser) (hread' : m'.Read parser) (hfits : m.Fits)
    (hfits' : m'.Fits) : canonicalBytes m = canonicalBytes m' ↔ m.sorted = m'.sorted := by
  have hput := putManifest_ok hread hfits
  have hput' := putManifest_ok hread' hfits'
  have hentries : m.components.map Entry.shown = m'.components.map Entry.shown ↔
      m.components.map Entry.sorted = m'.components.map Entry.sorted :=
    map_iff (fun e e' he he' => shown_iff he he') hread.components hread'.components
  have hcoupled : m.couplings.map CouplingEntry.shown = m'.couplings.map CouplingEntry.shown ↔
      m.couplings.map id = m'.couplings.map id :=
    map_iff (fun c c' hc hc' => coupled_iff hc hc') hread.couplings hread'.couplings
  rw [List.map_id, List.map_id] at hcoupled
  constructor
  · intro h
    rw [← h] at hput'
    have hview := reveals_manifest.same hput hput'
    simp only [Prod.mk.injEq] at hview
    obtain ⟨hname, hrequest, hcomponents, hcouplings, hlimits⟩ := hview
    unfold DomainManifest.sorted
    rw [hname, hrequest, hentries.1 hcomponents, hcoupled.1 hcouplings, hlimits]
  · intro h
    unfold DomainManifest.sorted at h
    simp only [DomainManifest.mk.injEq] at h
    obtain ⟨hname, hrequest, hcomponents, hcouplings, hlimits⟩ := h
    have hsame : putManifest m = putManifest m' := by
      unfold putManifest
      rw [hname, hrequest, hentries.2 hcomponents, hcouplings, hlimits]
    exact Except.ok.inj (hput.symm.trans (hsame.trans hput'))

end Agrees

end Strict

/-! ## Presentation -/

section Presentation

variable {α : Type} {parser : Parser α}

/-- the order of what is owned and of the keys of an object is presentation -/
structure ComponentFile.Alike (c c' : ComponentFile) : Prop where
  same : c' = { c with owns := c'.owns, bind := c'.bind }
  owns : c.owns.Perm c'.owns
  bind : c.bind.entries.Perm c'.bind.entries

structure ManifestFile.Alike (f f' : ManifestFile) : Prop where
  same : f' = { f with components := f'.components }
  components : List.Forall₂ ComponentFile.Alike f.components f'.components

theorem canonicalEntry_sorted (e : Entry α) : canonicalEntry e.sorted = canonicalEntry e := by
  unfold canonicalEntry Entry.sorted
  dsimp only
  rw [sortBy_of_sorted (sorted_sortBy id e.owns)]

theorem canonicalBytes_sorted (m : DomainManifest α) : canonicalBytes m.sorted = canonicalBytes m := by
  unfold canonicalBytes DomainManifest.sorted
  dsimp only
  rw [List.length_map, List.flatMap_map]
  simp only [canonicalEntry_sorted]

variable {out : List (String × Formula α)}

theorem readBind_keys {place : String} {l : List (String × String)}
    (h : l.mapM (readBind parser place) = .ok out) : out.map Prod.fst = l.map Prod.fst := by
  induction l generalizing out with
  | nil =>
    cases h
    rfl
  | cons b l ih =>
    rw [List.mapM_cons] at h
    obtain ⟨c, hc, h⟩ := bind_eq_ok.1 h
    obtain ⟨cs, hcs, h⟩ := bind_eq_ok.1 h
    cases h
    obtain ⟨f, -, hf⟩ := bind_eq_ok.1 hc
    cases hf
    rw [List.map_cons, List.map_cons, ih hcs]

theorem sortBy_bind {place : String} {b b' : StrictMap} (hperm : b.entries.Perm b'.entries)
    (h : b.entries.mapM (readBind parser place) = .ok out) :
    ∃ out', b'.entries.mapM (readBind parser place) = .ok out' ∧ sortBy Prod.fst out' = sortBy Prod.fst out := by
  obtain ⟨out', hout', hsame⟩ := mapM_perm hperm h
  have hnodup : (out.map Prod.fst).Nodup := by
    rw [readBind_keys h]
    exact b.nodup
  exact ⟨out', hout', sortBy_eq_of_perm Prod.fst (List.inj_on_of_nodup_map hnodup) hsame.symm⟩

theorem readComponent_alike {acc acc' out : List (Entry α)} {c c' : ComponentFile × ℕ}
    (hacc : acc.map Entry.sorted = acc'.map Entry.sorted) (hc : c.1.Alike c'.1 ∧ c.2 = c'.2)
    (h : readComponent parser acc c = .ok out) :
    ∃ out', readComponent parser acc' c' = .ok out' ∧ out.map Entry.sorted = out'.map Entry.sorted := by
  have hnames : acc.map Entry.name = acc'.map Entry.name := by
    have h := congrArg (List.map Entry.name) hacc
    rwa [List.map_map, List.map_map] at h
  have hpaths : acc.map Entry.path = acc'.map Entry.path := by
    have h := congrArg (List.map Entry.path) hacc
    rwa [List.map_map, List.map_map] at h
  have hname (n : String) : (∀ seen ∈ acc', seen.name ≠ n) ↔ ∀ seen ∈ acc, seen.name ≠ n := by
    have h (l : List (Entry α)) : (∀ seen ∈ l, seen.name ≠ n) ↔ ∀ x ∈ l.map Entry.name, x ≠ n := by simp
    rw [h, h, hnames]
  have hpath (p : String) : (∀ seen ∈ acc', seen.path ≠ p) ↔ ∀ seen ∈ acc, seen.path ≠ p := by
    have h (l : List (Entry α)) : (∀ seen ∈ l, seen.path ≠ p) ↔ ∀ x ∈ l.map Entry.path, x ≠ p := by simp
    rw [h, h, hpaths]
  rcases c with ⟨⟨name, path, project, policy, program, owns, participates, bind, assume', invariant⟩, i⟩
  rcases c' with ⟨⟨name', path', project', policy', program', owns', participates', bind', assume'', invariant'⟩, i'⟩
  obtain ⟨⟨hsame, howns, hbind⟩, hindex⟩ := hc
  dsimp only at hsame howns hbind hindex
  simp only [ComponentFile.mk.injEq, true_and] at hsame
  obtain ⟨rfl, rfl, rfl, rfl, rfl, rfl, rfl, rfl⟩ := hsame
  subst hindex
  unfold readComponent at h ⊢
  simp only [bind_eq_ok, ensure_eq_ok, exists_const] at h ⊢
  obtain ⟨hident, hfresh, hsafe, hfresh', b, hb, p₁, hp₁, p₂, hp₂, p₃, hp₃, f₁, hf₁, f₂, hf₂, f₃, hf₃, hout⟩ := h
  obtain ⟨b', hb', hsort⟩ := sortBy_bind hbind hb
  refine ⟨_, ⟨hident, (hname _).2 hfresh, hsafe, (hpath _).2 hfresh', b', hb', p₁, hp₁, p₂, hp₂, p₃, hp₃, f₁, hf₁, f₂, hf₂,
    f₃, hf₃, rfl⟩, ?_⟩
  cases hout
  have hown : sortBy id owns = sortBy id owns' := sortBy_eq_of_perm id (fun _ _ _ _ h => h) howns
  rw [List.map_append, List.map_append, hacc, hsort]
  simp only [List.map_cons, List.map_nil, Entry.sorted, hown]

theorem zipIdx_alike {l l' : List ComponentFile} (h : List.Forall₂ ComponentFile.Alike l l') (n : ℕ) :
    List.Forall₂ (fun c c' => ComponentFile.Alike c.1 c'.1 ∧ c.2 = c'.2) (l.zipIdx n) (l'.zipIdx n) := by
  induction h generalizing n with
  | nil => exact .nil
  | cons hc _ ih =>
    rw [List.zipIdx_cons, List.zipIdx_cons]
    exact .cons ⟨hc, rfl⟩ (ih (n + 1))

/-- **Presentation.** A file that differs in presentation is read too, into the same manifest up to the order of what a
component owns. -/
theorem readFile_alike {f f' : ManifestFile} (halike : f.Alike f') {m : DomainManifest α} (h : readFile parser f = .ok m) :
    ∃ m', readFile parser f' = .ok m' ∧ m.sorted = m'.sorted := by
  obtain ⟨hsame, hcomponents⟩ := halike
  rw [hsame]
  unfold readFile at h ⊢
  simp only [bind_eq_ok, ensure_eq_ok, exists_const] at h ⊢
  obtain ⟨hschema, hchecker, hname, hrequest, request, hfields, ⟨hsome, hcount⟩,
    components, hentries, hcouplings, couplings,
    hcoupled, limits, hlimits, hout⟩ := h
  have hstep (acc acc' : List (Entry α)) (c c' : ComponentFile × ℕ) (out : List (Entry α))
      (hacc : acc.map Entry.sorted = acc'.map Entry.sorted) (hc : c.1.Alike c'.1 ∧ c.2 = c'.2)
      (h : readComponent parser acc c = .ok out) :
      ∃ out', readComponent parser acc' c' = .ok out' ∧ out.map Entry.sorted = out'.map Entry.sorted :=
    readComponent_alike hacc hc h
  obtain ⟨components', hentries', hsorted⟩ := fold_related hstep (zipIdx_alike hcomponents 0) rfl hentries
  have hlength := hcomponents.length_eq
  have hsome' : f'.components ≠ [] := fun hnil => hsome (List.length_eq_zero_iff.1 (hlength.trans (by rw [hnil]; rfl)))
  refine ⟨_, ⟨hschema, hchecker, hname, hrequest, request, hfields, ⟨hsome', hlength ▸ hcount⟩, components', hentries',
    hcouplings, couplings, hcoupled, limits, hlimits, rfl⟩, ?_⟩
  cases hout
  unfold DomainManifest.sorted
  rw [hsorted]

end Presentation

/-! ## The canonical form -/

/-- **The canonical form.** Manifests that were read and whose texts and lists fit their counts have equal bytes exactly
when they are equal up to the order of what a component owns; texts that differ in presentation only are read into
equal bytes. -/
theorem canonical_exact {α : Type} (parser : Parser α) (fromStr : String → Except String ManifestFile) :
    (∀ t t' m m', read parser fromStr t = .ok m → read parser fromStr t' = .ok m' → m.Fits → m'.Fits →
      (canonicalBytes m = canonicalBytes m' ↔ m.sorted = m'.sorted)) ∧
    ∀ t t' f f' m, fromStr t = .ok f → fromStr t' = .ok f' → f.Alike f' → read parser fromStr t = .ok m →
      ∃ m', read parser fromStr t' = .ok m' ∧ m.sorted = m'.sorted ∧ canonicalBytes m = canonicalBytes m' := by
  have hread {t : String} {m : DomainManifest α} (h : read parser fromStr t = .ok m) : m.Read parser := by
    unfold read at h
    obtain ⟨f, -, hfile⟩ := bind_eq_ok.1 h
    exact readFile_ok hfile
  refine ⟨fun t t' m m' h h' hfits hfits' => canonicalBytes_iff (hread h) (hread h') hfits hfits', ?_⟩
  intro t t' f f' m hf hf' halike h
  unfold read at h ⊢
  rw [hf] at h
  obtain ⟨m', hm', hsorted⟩ := readFile_alike halike h
  refine ⟨m', ?_, hsorted, ?_⟩
  · rw [hf']
    exact hm'
  · rw [← canonicalBytes_sorted m, hsorted, canonicalBytes_sorted]

/-! ## A count that saturates -/

section Saturated

def long : ℕ → String
  | 0 => ""
  | n + 1 => long n ++ "a"

/-- what a name hides: the head of a component, from the count of the request to the third pin -/
def head : String :=
  String.ofList (([0, 0, 0, 0, 0, 0, 0, 1, 0, 0, 0, 1, 97, 0, 0, 0, 1, 97].map Char.ofNat) ++
    List.replicate 96 (Char.ofNat 0))

/-- the head with an empty list of what is owned -/
def hidden : String := head ++ String.ofList ([0, 0, 0, 0].map Char.ofNat)

/-- the head with a list of one text of 118 bytes -/
def gap : String := head ++ String.ofList ([0, 0, 0, 1, 0, 0, 0, 118].map Char.ofNat)

/-- so many escaped zeros -/
def zeros : ℕ → String
  | 0 => ""
  | n + 1 => zeros n ++ "\\u0000"

def headJson : String := zeros 7 ++ "\\u0001" ++ zeros 3 ++ "\\u0001a" ++ zeros 3 ++ "\\u0001a" ++ zeros 96

def sampleJson (name owns : String) : String :=
  "\x7b\"schema\":\"zeno-fcis/checked-composition/3\",\"checker\":\"zeno-fcis/composed-domain-checker/1\",\"name\":\"" ++
    name ++ "\",\"request\":[],\"components\":[\x7b\"name\":\"a\",\"path\":\"a\",\"project_sha256\":\"" ++
    String.ofList (List.replicate 64 '0') ++ "\",\"policy_sha256\":\"" ++ String.ofList (List.replicate 64 '0') ++
    "\",\"program_sha256\":\"" ++ String.ofList (List.replicate 64 '0') ++ "\",\"owns\":[" ++ owns ++
    "],\"participates\":\"true\",\"bind\":\x7b\x7d,\"assume\":\"true\",\"invariant\":\"true\"\x7d],\"couplings\":[]\x7d"

def sampleComponent (owns : List String) : ComponentFile where
  name := "a"
  path := "a"
  projectSha256 := String.ofList (List.replicate 64 '0')
  policySha256 := String.ofList (List.replicate 64 '0')
  programSha256 := String.ofList (List.replicate 64 '0')
  owns
  participates := "true"
  bind := ⟨[], by decide⟩
  assume' := "true"
  invariant := "true"

def sampleFile (name : String) (owns : List String) : ManifestFile where
  schema := DOMAIN_SCHEMA
  checker := DOMAIN_CHECKER
  name
  request := []
  components := [sampleComponent owns]
  couplings := []
  limits := none

/-- the gap is part of the name -/
def longJson (name : String) : String := sampleJson (name ++ (headJson ++ zeros 3 ++ "\\u0001" ++ zeros 3 ++ "v")) ""

/-- the component owns what is hidden -/
def shortJson (name : String) : String := sampleJson name ("\"" ++ (headJson ++ zeros 4) ++ "\"")

/-- a deserializer of the two texts -/
def sampleFromStr (name text : String) : Except String ManifestFile :=
  if text = longJson name then .ok (sampleFile (name ++ gap) [])
  else if text = shortJson name then .ok (sampleFile name [hidden])
  else .error "unknown"

def sampleParser : Parser Unit where
  parse text := if text = "true" then .ok () else .error "unknown"
  shape _ := (1, 1)
  names _ := []

def sampleEntry (owns : List String) : Entry Unit :=
  ⟨"a", "a", .zero, .zero, .zero, owns, ⟨"true", (), []⟩, [], ⟨"true", (), []⟩, ⟨"true", (), []⟩⟩

def sampleManifest (name : String) (owns : List String) : DomainManifest Unit :=
  ⟨name, [], [sampleEntry owns], [], ⟨4194304, 33554432, false⟩⟩

theorem formula_sample (place : String) : formula sampleParser place "true" = .ok ⟨"true", (), []⟩ := by rfl

theorem pin_sample (place : String) : pin place (String.ofList (List.replicate 64 '0')) = .ok .zero := by rfl

theorem readComponent_sample (owns : List String) :
    readComponent sampleParser [] (sampleComponent owns, 0) = .ok [sampleEntry owns] := by
  unfold readComponent
  dsimp only [sampleComponent]
  rw [ensure_bind (by decide), ensure_bind (by simp), ensure_bind (by decide), ensure_bind (by simp), List.mapM_nil]
  simp only [pin_sample, formula_sample, ok_bind, pure, Except.pure, sortBy, List.mergeSort_nil, List.nil_append]
  rfl

theorem readFile_sample {name : String} (hname : name ≠ "") (owns : List String) :
    readFile sampleParser (sampleFile name owns) = .ok (sampleManifest name owns) := by
  have hcomponents : [(sampleComponent owns, 0)].foldlM (readComponent sampleParser) [] = .ok [sampleEntry owns] := by
    rw [List.foldlM_cons, readComponent_sample]
    rfl
  have hone : 1 ≤ MAX_COMPONENTS := by decide
  unfold readFile
  simp only [bind_eq_ok, ensure_eq_ok, exists_const]
  exact ⟨rfl, rfl, hname, Nat.zero_le _, [], rfl, ⟨List.cons_ne_nil _ _, hone⟩, _, hcomponents, Nat.zero_le _, [], rfl,
    _, rfl, rfl⟩

theorem bytes_append (s t : String) : bytes (s ++ t) = bytes s ++ bytes t := by
  unfold bytes
  rw [String.toByteArray_append, ByteArray.data_append, Array.toList_append]

theorem long_length (n : ℕ) : (bytes (long n)).length = n := by
  induction n with
  | zero => rfl
  | succ n ih =>
    rw [long, bytes_append, List.length_append, ih]
    rfl

theorem zeros_length (n : ℕ) : (bytes (zeros n)).length = 6 * n := by
  induction n with
  | zero => rfl
  | succ n ih =>
    rw [zeros, bytes_append, List.length_append, ih]
    rfl

theorem nonempty {s : String} (h : 0 < (bytes s).length) : s ≠ "" := by
  intro hs
  rw [hs] at h
  exact absurd h (by decide)

theorem sampleJson_length (name owns : String) : (bytes (sampleJson name owns)).length =
    (bytes (sampleJson "" "")).length + (bytes name).length + (bytes owns).length := by
  have hempty : bytes "" = [] := by rfl
  unfold sampleJson
  simp only [bytes_append, List.length_append, hempty, List.length_nil]
  omega

theorem json_ne (name : String) : shortJson name ≠ longJson name := by
  have hone : (bytes "\\u0001").length = 6 := by rfl
  have hlast : (bytes "v").length = 1 := by rfl
  have hquote : (bytes "\"").length = 1 := by rfl
  have hempty : (bytes "").length = 0 := by rfl
  intro heq
  have hlength := congrArg (fun s => (bytes s).length) heq
  beta_reduce at hlength
  rw [shortJson, longJson, sampleJson_length name, sampleJson_length (name ++ _)] at hlength
  simp only [bytes_append, List.length_append, zeros_length, hone, hlast, hquote, hempty] at hlength
  omega

/-- the bytes behind the name -/
def rest (owns : List String) : Bytes :=
  [count 0, count 1, canonicalEntry (sampleEntry owns), count 0, [0], beBytes 8 4194304, beBytes 8 33554432].flatten

theorem count_saturated {n : ℕ} (hn : u32Max ≤ n) : count n = beBytes 4 u32Max := by
  unfold count
  split_ifs with hle
  · rw [le_antisymm hle hn]
  · rfl

theorem canonical_sample {name : String} (hname : u32Max ≤ (bytes name).length) (owns : List String) :
    canonicalBytes (sampleManifest name owns) =
      [MAGIC, beBytes 2 3, text DOMAIN_CHECKER, beBytes 4 u32Max, bytes name].flatten ++ rest owns := by
  have htext : text name = beBytes 4 u32Max ++ bytes name := by
    unfold text
    rw [count_saturated hname]
    simp
  have hobligation : (UInt64.toNat 4194304) = 4194304 := by rfl
  have htotal : (UInt64.toNat 33554432) = 33554432 := by rfl
  unfold canonicalBytes rest
  dsimp only [sampleManifest]
  rw [htext, hobligation, htotal]
  simp only [List.flatten_cons, List.flatten_nil, List.append_assoc, List.append_nil, List.nil_append, List.flatMap_cons,
    List.flatMap_nil, List.length_cons, List.length_nil, Bool.false_eq_true, if_false, Nat.zero_add]

theorem gap_hides : bytes gap ++ rest [] = rest [hidden] := by
  have hhead : bytes head = [count 0, count 1, text "a", text "a", Hash32.zero.bytes, Hash32.zero.bytes,
      Hash32.zero.bytes].flatten := by rfl
  have hgap : bytes gap = bytes head ++ (count 1 ++ count 118) := by
    rw [gap, bytes_append]
    rfl
  have hhidden : bytes hidden = bytes head ++ count 0 := by
    rw [hidden, bytes_append]
    rfl
  have htext : text hidden = count 118 ++ (bytes head ++ count 0) := by
    have hlength : (bytes hidden).length = 118 := by rfl
    rw [text, hlength, hhidden]
    simp only [List.flatten_cons, List.flatten_nil, List.append_nil]
  have howned : sortBy id [hidden] = [hidden] := List.mergeSort_singleton hidden
  have hnone : sortBy id ([] : List String) = [] := List.mergeSort_nil
  rw [hgap, hhead]
  unfold rest canonicalEntry
  dsimp only [sampleEntry]
  rw [howned, hnone, List.flatMap_singleton, htext, hhead]
  simp only [List.flatten_cons, List.flatten_nil, List.append_assoc, List.append_nil, List.nil_append, List.flatMap_nil,
    List.length_cons, List.length_nil, Nat.zero_add]

/-- a name of more than `u32` and what it hides -/
theorem saturated {name : String} (hname : u32Max ≤ (bytes name).length) : ∃ m m',
    read sampleParser (sampleFromStr name) (longJson name) = .ok m ∧
      read sampleParser (sampleFromStr name) (shortJson name) = .ok m' ∧ canonicalBytes m = canonicalBytes m' ∧
        m.sorted ≠ m'.sorted := by
  have hpos : 0 < u32Max := by decide
  have hgapped : u32Max ≤ (bytes (name ++ gap)).length := by
    rw [bytes_append, List.length_append]
    exact hname.trans (Nat.le_add_right _ _)
  have hfirst : sampleFromStr name (longJson name) = .ok (sampleFile (name ++ gap) []) := if_pos rfl
  have hsecond : sampleFromStr name (shortJson name) = .ok (sampleFile name [hidden]) := by
    unfold sampleFromStr
    rw [if_neg (json_ne _), if_pos rfl]
  refine ⟨sampleManifest (name ++ gap) [], sampleManifest name [hidden], ?_, ?_, ?_, ?_⟩
  · unfold read
    rw [hfirst]
    exact readFile_sample (nonempty (hpos.trans_le hgapped)) []
  · unfold read
    rw [hsecond]
    exact readFile_sample (nonempty (hpos.trans_le hname)) [hidden]
  · rw [canonical_sample hgapped, canonical_sample hname, bytes_append, ← gap_hides]
    simp only [List.flatten_cons, List.flatten_nil, List.append_assoc, List.append_nil]
  · intro heq
    have hsame : name ++ gap = name := congrArg DomainManifest.name heq
    have hlength := congrArg (fun s => (bytes s).length) hsame
    beta_reduce at hlength
    rw [bytes_append, List.length_append] at hlength
    have hgap : (bytes gap).length = 122 := by rfl
    omega

/-- **Saturation.** Two manifests that are read and that own different things have the same canonical bytes. -/
theorem canonicalBytes_saturated : ∃ m m',
    read sampleParser (sampleFromStr (long (2 ^ 32))) (longJson (long (2 ^ 32))) = .ok m ∧
      read sampleParser (sampleFromStr (long (2 ^ 32))) (shortJson (long (2 ^ 32))) = .ok m' ∧
        canonicalBytes m = canonicalBytes m' ∧ m.sorted ≠ m'.sorted := by
  have hlong : u32Max ≤ (bytes (long (2 ^ 32))).length := by
    rw [long_length]
    decide
  exact saturated hlong

end Saturated

end ZenoFcis.Contract.Composed
