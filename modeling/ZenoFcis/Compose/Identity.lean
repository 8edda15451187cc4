/-
The identity of a composition specification: what the construction accepts, and when a listing in another order gives
the same specification.

Components, claims and laws are sorted by keys that tell accepted members apart. Wirings are sorted by their endpoints
alone and compared whole, so two wirings that differ in the schema keep the order of the listing and may stand between
two equal ones.
-/
import ZenoFcis.Compose.Bytes

namespace ZenoFcis.Compose

open Lib Lib.Except Lib.StableSort

/-- the arguments of the construction of a specification, as listed -/
structure Listing where
  version : UInt16
  components : List ComponentContract
  wirings : List Wiring
  couplingClaims : List Hash32
  mergeOrder : List ComponentId
  parallelLaws : List ParallelConflictLaw

namespace Listing

variable {x y : Listing} {spec : CompositionSpec}

def build (x : Listing) : Except ContractError CompositionSpec :=
  CompositionSpec.tryNewWithParallelLaws x.version x.components x.wirings x.couplingClaims x.mergeOrder
    x.parallelLaws

def ids (x : Listing) : List ComponentId := x.components.map ComponentContract.id

/-- the checks that read no order -/
structure Lawful (x : Listing) : Prop where
  version : x.version ≠ 0
  nonempty : x.components ≠ []
  bounded : x.components.length ≤ maxComponents
  ids : x.ids.Nodup
  merge : x.mergeOrder.Perm x.ids
  wirings : ∀ wiring ∈ x.wirings, wiring.schemaHash ≠ .zero ∧ wiring.sourceComponent ∈ x.ids ∧
    wiring.destinationComponent ∈ x.ids
  claimed : .zero ∉ x.couplingClaims
  claims : x.couplingClaims.Nodup
  lawsBounded : x.parallelLaws.length ≤ maxParallelLaws
  coverages : (x.parallelLaws.map ParallelConflictLaw.coverage).Nodup
  laws : ∀ law ∈ x.parallelLaws, law.left ∈ x.ids ∧ law.right ∈ x.ids

/-- among the listed wirings with its endpoints, a wiring stands twice in a row -/
def Repeats (x : Listing) : Prop :=
  ∃ wiring, [wiring, wiring] <:+: x.wirings.filter fun other => decide (other.endpoints = wiring.endpoints)

/-- the endpoints of a listed wiring fix its schema -/
def Schematic (x : Listing) : Prop := ∀ a ∈ x.wirings, ∀ b ∈ x.wirings, a.endpoints = b.endpoints → a = b

/-- a member of some list is listed twice -/
def Duplicates (x : Listing) : Prop :=
  ¬x.ids.Nodup ∨ ¬x.wirings.Nodup ∨ ¬x.couplingClaims.Nodup ∨ ¬(x.parallelLaws.map ParallelConflictLaw.coverage).Nodup

/-- the same lists in another order -/
structure Relists (x y : Listing) : Prop where
  version : y.version = x.version
  components : y.components.Perm x.components
  wirings : y.wirings.Perm x.wirings
  claims : y.couplingClaims.Perm x.couplingClaims
  merge : y.mergeOrder = x.mergeOrder
  laws : y.parallelLaws.Perm x.parallelLaws

def sorted (x : Listing) : CompositionSpec where
  version := x.version
  components := sortBy ComponentContract.id x.components
  wirings := sortBy Wiring.endpoints x.wirings
  couplingClaims := sortBy (fun claim => claim) x.couplingClaims
  mergeOrder := x.mergeOrder
  parallelLaws := sortBy (fun law => law) x.parallelLaws

/-! ## Acceptance -/

theorem known_iff {components : List ComponentContract} {id : ComponentId}
    (h : Increasing ComponentContract.id components) :
    known components id = true ↔ id ∈ components.map ComponentContract.id := by
  unfold known
  cases hsearch : binarySearch ComponentContract.id id components with
  | ok i =>
    refine iff_of_true rfl ?_
    have hslot := (binarySearch_ok hsearch).slot
    exact List.mem_map.2 ⟨_, slot_mem hslot, slot_key hslot⟩
  | error i =>
    refine iff_of_false Bool.false_ne_true fun hmem => ?_
    obtain ⟨contract, hcontract, hid⟩ := List.mem_map.1 hmem
    exact slot_eq_none.1 (binarySearch_error h hsearch).1 contract hcontract hid

theorem merge_iff {merge : List ComponentId} {components : List ComponentContract} :
    sortBy (fun id => id) merge = (sortBy ComponentContract.id components).map ComponentContract.id ↔
      merge.Perm (components.map ComponentContract.id) := by
  have hids := (sortBy_perm ComponentContract.id components).map ComponentContract.id
  refine ⟨fun h => ?_, fun h => ?_⟩
  · have hmerge := sortBy_perm (fun id => id) merge
    rw [h] at hmerge
    exact hmerge.symm.trans hids
  · refine List.Perm.eq_of_pairwise (fun a b _ _ hab hba => le_antisymm hab hba) (sorted_sortBy _ merge) ?_
      ((sortBy_perm _ merge).trans (h.trans hids.symm))
    exact List.pairwise_map.2 (sorted_sortBy ComponentContract.id components)

theorem coverage_mono (a b : ParallelConflictLaw) (h : a ≤ b) : a.coverage ≤ b.coverage :=
  Prod.Lex.monotone_fst _ _ h

theorem repeats_found :
    adjacent (fun a b => decide (a = b)) (sortBy Wiring.endpoints x.wirings) = true ↔ x.Repeats := by
  rw [adjacent_sortBy_eq, Repeats]
  refine exists_congr fun wiring => ?_
  congr!

/-- **What the construction accepts.** -/
theorem build_eq_ok : x.build = .ok spec ↔ x.Lawful ∧ ¬x.Repeats ∧ spec = x.sorted := by
  have hrepeats : adjacent (fun a b => decide (a = b)) (sortBy Wiring.endpoints x.wirings) = false ↔ ¬x.Repeats := by
    rw [← Bool.not_eq_true, repeats_found]
  have hknown (hids : x.ids.Nodup) (id : ComponentId) :
      known (sortBy ComponentContract.id x.components) id = true ↔ id ∈ x.ids := by
    rw [known_iff (increasing_sortBy ((adjacent_sortBy fun _ _ hle => hle).2 hids))]
    exact ((sortBy_perm _ x.components).map ComponentContract.id).mem_iff
  simp only [build, CompositionSpec.tryNewWithParallelLaws, bind_eq_ok, ensure_eq_ok, pure_eq, Except.ok.injEq]
  simp only [exists_and_left, exists_const, hrepeats, merge_iff,
    adjacent_sortBy (f := ComponentContract.id) fun a b h => h,
    adjacent_sortBy (f := fun claim : Hash32 => claim) fun a b h => h, adjacent_sortBy coverage_mono, mem_sortBy]
  constructor
  · rintro ⟨hversion, ⟨hne, hbound⟩, hids, hmerge, hrep, hwirings, hzero, hclaims, hlaws, hcover, hpairs, rfl⟩
    simp only [hknown hids] at hwirings hpairs
    rw [List.map_id'] at hclaims
    exact ⟨⟨hversion, hne, hbound, hids, hmerge, hwirings, hzero, hclaims, hlaws, hcover, hpairs⟩, hrep, rfl⟩
  · rintro ⟨h, hrep, rfl⟩
    simp only [hknown h.ids]
    refine ⟨h.version, ⟨h.nonempty, h.bounded⟩, h.ids, h.merge, hrep, h.wirings, h.claimed, ?_, h.lawsBounded,
      h.coverages, h.laws, rfl⟩
    rw [List.map_id']
    exact h.claims

/-! ## Listings in another order -/

theorem Relists.ids (h : x.Relists y) : y.ids.Perm x.ids := h.components.map _

theorem Lawful.relisted (hx : x.Lawful) (h : x.Relists y) : y.Lawful where
  version := h.version.symm ▸ hx.version
  nonempty := fun hnil => hx.nonempty (hnil ▸ h.components).nil_eq.symm
  bounded := h.components.length_eq.le.trans hx.bounded
  ids := h.ids.nodup_iff.2 hx.ids
  merge := by
    rw [h.merge]
    exact hx.merge.trans h.ids.symm
  wirings := fun wiring hwiring => by
    obtain ⟨hschema, hsource, hdestination⟩ := hx.wirings wiring (h.wirings.mem_iff.1 hwiring)
    exact ⟨hschema, h.ids.mem_iff.2 hsource, h.ids.mem_iff.2 hdestination⟩
  claimed := fun hzero => hx.claimed (h.claims.mem_iff.1 hzero)
  claims := h.claims.nodup_iff.2 hx.claims
  lawsBounded := h.laws.length_eq.le.trans hx.lawsBounded
  coverages := (h.laws.map _).nodup_iff.2 hx.coverages
  laws := fun law hlaw => by
    obtain ⟨hleft, hright⟩ := hx.laws law (h.laws.mem_iff.1 hlaw)
    exact ⟨h.ids.mem_iff.2 hleft, h.ids.mem_iff.2 hright⟩

theorem Repeats.not_nodup (h : x.Repeats) : ¬x.wirings.Nodup := by
  obtain ⟨wiring, hinfix⟩ := h
  intro hnodup
  exact List.not_nodup_pair wiring ((hnodup.filter _).sublist hinfix.sublist)

theorem Schematic.repeats_iff (h : x.Schematic) : x.Repeats ↔ ¬x.wirings.Nodup :=
  ⟨Repeats.not_nodup, fun hdup => repeats_found.1 (adjacent_sortBy_eq.2 (exists_repeated h hdup))⟩

theorem Schematic.sorted_eq (h : x.Schematic) (hx : x.Lawful) (hxy : x.Relists y) : y.sorted = x.sorted := by
  have hcomponents := sortBy_eq_of_perm ComponentContract.id
    (fun a ha b hb => List.inj_on_of_nodup_map hx.ids ha hb) hxy.components
  have hwirings := sortBy_eq_of_perm Wiring.endpoints h hxy.wirings
  have hclaims := sortBy_eq_of_perm (fun claim : Hash32 => claim) (fun _ _ _ _ heq => heq) hxy.claims
  have hlaws := sortBy_eq_of_perm (fun law : ParallelConflictLaw => law) (fun _ _ _ _ heq => heq) hxy.laws
  rw [sorted, sorted, hxy.version, hxy.merge, hcomponents, hwirings, hclaims, hlaws]

/-! ## The identity -/

/-- what a listing promises: an accepted listing is accepted in any order as the same specification with the same
bytes and commitment, no duplicate passes, and the bytes of what is accepted determine it -/
structure Canonical (hash : Bytes → Hash32) (x : Listing) : Prop where
  relisted : ∀ spec, x.build = .ok spec → ∀ y : Listing, x.Relists y → ∃ spec', y.build = .ok spec' ∧ spec' = spec ∧
    spec'.encodeTo = spec.encodeTo ∧ spec'.commitment hash = spec.commitment hash
  distinct : x.Duplicates → ∃ error, x.build = .error error
  determined : ∀ spec, x.build = .ok spec → ∀ (y : Listing) spec', y.build = .ok spec' →
    ∀ bytes, spec.encodeTo = .ok bytes → spec'.encodeTo = .ok bytes → spec = spec'

theorem canonical_of_schematic {hash : Bytes → Hash32} (h : x.Lawful → ¬x.Repeats → x.Schematic) :
    x.Canonical hash where
  relisted := by
    intro spec hbuild y hxy
    obtain ⟨hlawful, hrepeats, rfl⟩ := build_eq_ok.1 hbuild
    have hschematic := h hlawful hrepeats
    have hnodup : ¬y.Repeats := by
      intro hy
      refine hy.not_nodup (hxy.wirings.nodup_iff.2 ?_)
      exact not_not.1 fun hdup => hrepeats (hschematic.repeats_iff.2 hdup)
    have hsorted := hschematic.sorted_eq hlawful hxy
    exact ⟨_, build_eq_ok.2 ⟨hlawful.relisted hxy, hnodup, rfl⟩, hsorted, by rw [hsorted], by rw [hsorted]⟩
  distinct := by
    intro hdup
    rcases ok_or_error x.build with ⟨spec, hbuild⟩ | herror
    · exfalso
      obtain ⟨hlawful, hrepeats, rfl⟩ := build_eq_ok.1 hbuild
      rcases hdup with hids | hwirings | hclaims | hlaws
      · exact hids hlawful.ids
      · exact hrepeats ((h hlawful hrepeats).repeats_iff.2 hwirings)
      · exact hclaims hlawful.claims
      · exact hlaws hlawful.coverages
    · exact herror
  determined := fun spec _ y spec' _ bytes hbytes hbytes' => reveals_spec.same hbytes hbytes'

/-- two wirings with the same endpoints that an accepted listing keeps apart can be listed the other way round -/
theorem schematic_of_canonical {hash : Bytes → Hash32} (h : x.Canonical hash) (hlawful : x.Lawful)
    (hrepeats : ¬x.Repeats) : x.Schematic := by
  intro a ha b hb hendpoints
  by_contra hne
  obtain ⟨front, u, v, back, hsplit, huv, hdiffer⟩ := exists_neighbours (sorted_sortBy Wiring.endpoints x.wirings)
    (mem_sortBy.2 ha) (mem_sortBy.2 hb) hendpoints hne
  have hswap : (front ++ v :: u :: back).Perm (front ++ u :: v :: back) := (List.Perm.swap u v back).append_left front
  have hrelists : x.Relists { x with wirings := front ++ v :: u :: back } :=
    ⟨rfl, .refl _, hswap.trans (hsplit ▸ sortBy_perm _ _), .refl _, rfl, .refl _⟩
  obtain ⟨spec', hbuild', rfl, -⟩ := h.relisted _ (build_eq_ok.2 ⟨hlawful, hrepeats, rfl⟩) _ hrelists
  have hsame := congrArg CompositionSpec.wirings (build_eq_ok.1 hbuild').2.2
  have hordered : (front ++ v :: u :: back).Pairwise fun a b => a.endpoints ≤ b.endpoints := by
    have hsorted := sorted_sortBy Wiring.endpoints x.wirings
    rw [hsplit] at hsorted
    rw [← List.pairwise_map (f := Wiring.endpoints) (R := (· ≤ ·))] at hsorted ⊢
    simpa [huv] using hsorted
  simp only [sorted, sortBy_of_sorted hordered, hsplit, List.append_cancel_left_eq, List.cons.injEq] at hsame
  exact hdiffer hsame.1

/-- **The identity of a specification is exact where endpoints fix schemas.** A listing keeps its promise exactly when
it fails a check, repeats a wiring in sight of the test, or lists no two wirings that differ in the schema alone. -/
theorem canonical_iff (hash : Bytes → Hash32) (x : Listing) :
    x.Canonical hash ↔ (x.Lawful → ¬x.Repeats → x.Schematic) :=
  ⟨schematic_of_canonical, canonical_of_schematic⟩

section Sample

def sampleHash (digit : UInt8) : Hash32 := ⟨List.replicate 32 digit, List.length_replicate⟩

def samplePath : AccessPath := ⟨1, [], by decide, by decide, by decide⟩

def noPaths : PathSet := ⟨[], .nil, by decide⟩

def sampleContract : ComponentContract where
  id := ⟨1⟩
  profileHash := sampleHash 1
  footprint := ⟨noPaths, noPaths, noPaths, noPaths⟩
  outbox := noPaths
  assumptions := []
  guarantees := []
  frames := []
  named := by decide
  profiled := by decide
  assumptionsIncreasing := .nil
  guaranteesIncreasing := .nil
  framesIncreasing := .nil

def sampleWiring (schema : UInt8) : Wiring := ⟨⟨1⟩, samplePath, ⟨1⟩, samplePath, sampleHash schema⟩

/-- a wiring of one schema between two equal wirings of another -/
def sampleListing : Listing where
  version := 1
  components := [sampleContract]
  wirings := [sampleWiring 1, sampleWiring 2, sampleWiring 1]
  couplingClaims := []
  mergeOrder := [⟨1⟩]
  parallelLaws := []

theorem sampleListing_lawful : sampleListing.Lawful where
  version := by decide
  nonempty := List.cons_ne_nil _ _
  bounded := by decide
  ids := List.nodup_singleton _
  merge := .refl _
  wirings := by decide
  claimed := List.not_mem_nil
  claims := List.nodup_nil
  lawsBounded := by decide
  coverages := List.nodup_nil
  laws := fun _ hlaw => absurd hlaw List.not_mem_nil

theorem sampleListing_unrepeated : ¬sampleListing.Repeats := by
  rintro ⟨wiring, hinfix⟩
  have hne : sampleWiring 1 ≠ sampleWiring 2 := by decide
  by_cases hends : (sampleWiring 1).endpoints = wiring.endpoints
  · rw [List.filter_eq_self.2 fun other hother => ?_] at hinfix
    · rcases List.infix_cons_iff.1 hinfix with hfront | hrest
      · obtain ⟨rfl, hnext⟩ := List.cons_prefix_cons.1 hfront
        exact hne (List.cons_prefix_cons.1 hnext).1
      · rcases List.infix_cons_iff.1 hrest with hfront | hlast
        · obtain ⟨rfl, hnext⟩ := List.cons_prefix_cons.1 hfront
          exact hne (List.cons_prefix_cons.1 hnext).1.symm
        · exact absurd hlast.length_le (by simp)
    · have hsame : other.endpoints = (sampleWiring 1).endpoints := by
        revert other
        decide
      exact decide_eq_true (hsame.trans hends)
  · rw [List.filter_eq_nil_iff.2 fun other hother => ?_] at hinfix
    · exact absurd hinfix.length_le (by simp)
    · have hsame : other.endpoints = (sampleWiring 1).endpoints := by
        revert other
        decide
      rw [decide_eq_true_eq, hsame]
      exact hends

/-- the construction accepts a wiring that is listed twice -/
theorem sampleListing_breaks : sampleListing.Duplicates ∧ (∃ spec, sampleListing.build = .ok spec) ∧
    ¬sampleListing.Canonical fun _ => .zero := by
  have hbuild := build_eq_ok.2 ⟨sampleListing_lawful, sampleListing_unrepeated, rfl⟩
  have hdup : sampleListing.Duplicates := Or.inr (Or.inl (by decide))
  refine ⟨hdup, ⟨_, hbuild⟩, fun h => ?_⟩
  obtain ⟨error, herror⟩ := h.distinct hdup
  rw [hbuild] at herror
  cases herror

end Sample

end Listing

end ZenoFcis.Compose
