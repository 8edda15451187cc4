/-
What the canonical bytes of a specification determine: every encoding of the composition types is read off the front of
a string, part by part, so equal bytes come from equal specifications.
-/
import ZenoFcis.Compose.Spec

namespace ZenoFcis.Compose

open Lib Lib.Except

variable {α β γ : Type}

/-- a word in full width reveals its number -/
theorem reveals_word (w : ℕ) {f : β → ℕ} (hf : ∀ b, f b < 256 ^ w) :
    Reveals (fun b => (.ok (beBytes w (f b)) : Except EncodeError Bytes)) f := by
  intro a b u v r s ha hb heq
  cases ha
  cases hb
  exact beBytes_append_inj (hf a) (hf b) heq

/-- a hash reveals itself -/
theorem reveals_hash : Reveals (fun hash : Hash32 => (.ok hash.bytes : Except EncodeError Bytes)) fun hash => hash := by
  intro a b u v r s ha hb heq
  cases ha
  cases hb
  obtain ⟨hbytes, hrest⟩ := List.append_inj heq (a.length_eq.trans b.length_eq.symm)
  exact ⟨Hash32.bytes_inj hbytes, hrest⟩

theorem reveals_putU16Length : Reveals putU16Length fun n => n := by
  intro m n u v r s hm hn heq
  unfold putU16Length at hm hn
  split_ifs at hm hn with hm' hn'
  cases hm
  cases hn
  have hfits : ∀ k, k ≤ 65535 → k < 256 ^ 2 := fun k hk => by omega
  exact beBytes_append_inj (hfits m hm') (hfits n hn') heq

/-- a length prefix reveals the length -/
theorem reveals_putU32Length : Reveals putU32Length fun n => n := by
  intro m n u v r s hm hn heq
  unfold putU32Length at hm hn
  split_ifs at hm hn with hm' hn'
  cases hm
  cases hn
  have hfits : ∀ k, k ≤ u32Max → k < 256 ^ 4 := fun k hk => by
    rw [u32Max] at hk
    omega
  exact beBytes_append_inj (hfits m hm') (hfits n hn') heq

/-- a length-prefixed string reveals its bytes -/
theorem reveals_putBlob : Reveals putBlob fun bytes => bytes := by
  intro a b u v r s ha hb heq
  obtain ⟨u₁, hu₁, ha⟩ := bind_eq_ok.1 ha
  obtain ⟨v₁, hv₁, hb⟩ := bind_eq_ok.1 hb
  simp only [concat, ok_bind, pure_eq, Except.ok.injEq, List.append_nil] at ha hb
  subst ha hb
  rw [List.append_assoc, List.append_assoc] at heq
  obtain ⟨hlen, hrest⟩ := reveals_putU32Length hu₁ hv₁ heq
  exact List.append_inj hrest hlen

/-- a nested part reveals what it encodes -/
theorem reveals_nested {enc : α → Except EncodeError Bytes} {view : α → γ} (h : Reveals enc view) :
    Reveals (fun a => nested (enc a)) view := reveals_putBlob.nested h

theorem reveals_id : Reveals ComponentId.encodeTo fun id => id :=
  (reveals_word 4 fun id : ComponentId => id.value.toNat_lt).imp fun _ _ h =>
    ComponentId.value_inj (UInt32.toNat_inj.1 h)

theorem reveals_atom : Reveals PathAtom.encodeTo fun atom => atom := by
  intro a b u v r s ha hb heq
  cases a <;> cases b <;> simp only [PathAtom.encodeTo, Except.ok.injEq] at ha hb <;> subst ha hb
  case field.field m n =>
    obtain ⟨h, hrest⟩ := beBytes_append_inj m.toNat_lt n.toNat_lt (List.cons.inj heq).2
    exact ⟨congrArg PathAtom.field (UInt16.toNat_inj.1 h), hrest⟩
  case tupleIndex.tupleIndex m n =>
    obtain ⟨h, hrest⟩ := beBytes_append_inj m.toNat_lt n.toNat_lt (List.cons.inj heq).2
    exact ⟨congrArg PathAtom.tupleIndex (UInt32.toNat_inj.1 h), hrest⟩
  case vectorIndex.vectorIndex m n =>
    obtain ⟨h, hrest⟩ := beBytes_append_inj m.toNat_lt n.toNat_lt (List.cons.inj heq).2
    exact ⟨congrArg PathAtom.vectorIndex (UInt32.toNat_inj.1 h), hrest⟩
  case mapKey.mapKey m n =>
    obtain ⟨h, hrest⟩ := reveals_hash rfl rfl (List.cons.inj heq).2
    exact ⟨congrArg PathAtom.mapKey h, hrest⟩
  case sumPayload.sumPayload => exact ⟨rfl, (List.cons.inj heq).2⟩
  case anyDescendant.anyDescendant => exact ⟨rfl, (List.cons.inj heq).2⟩
  all_goals exact absurd (List.cons.inj heq).1 (by decide)

/-- a list of parts reveals its members -/
theorem reveals_listed {enc : α → Except EncodeError Bytes} (h : Reveals enc fun a => a) :
    Reveals (fun l : List α => concat (putU32Length l.length :: l.map fun a => nested (enc a))) fun l => l :=
  Reveals.counted reveals_putU32Length (reveals_nested h) Function.injective_id

/-- a path reveals itself -/
theorem reveals_path : Reveals AccessPath.encodeTo fun path => path := by
  have hnamespace := reveals_word 4 fun path : AccessPath => path.namespaceId.toNat_lt
  have hatoms := (Reveals.counted reveals_putU16Length reveals_atom Function.injective_id).of AccessPath.atoms
  refine (hnamespace.cons (hatoms.cons .nil)).imp fun a b h => ?_
  rcases a with ⟨namespaceId, atoms, _, _, _⟩
  rcases b with ⟨namespaceId', atoms', _, _, _⟩
  simp only [Prod.mk.injEq, UInt32.toNat_inj, and_true] at h
  obtain ⟨rfl, rfl⟩ := h
  rfl

/-- a set of paths reveals itself -/
theorem reveals_set : Reveals PathSet.encodeTo fun set => set := by
  refine ((reveals_listed reveals_path).of PathSet.paths).imp fun a b h => ?_
  rcases a with ⟨paths, _, _⟩
  rcases b with ⟨paths', _, _⟩
  obtain rfl : paths = paths' := h
  rfl

theorem reveals_footprint : Reveals Footprint.encodeTo fun footprint => footprint := by
  have hset (f : Footprint → PathSet) := (reveals_nested reveals_set).of f
  refine ((hset Footprint.reads).cons ((hset Footprint.writes).cons ((hset Footprint.contexts).cons
    ((hset Footprint.effects).cons .nil)))).imp fun a b h => ?_
  rcases a with ⟨reads, writes, contexts, effects⟩
  rcases b with ⟨reads', writes', contexts', effects'⟩
  simp only [Prod.mk.injEq, and_true] at h
  obtain ⟨rfl, rfl, rfl, rfl⟩ := h
  rfl

theorem reveals_assumption : Reveals Assumption.encodeTo fun assumption => assumption := by
  refine ((reveals_hash.of Assumption.claim).cons (((reveals_nested reveals_set).of Assumption.dependsOn).cons
    .nil)).imp fun a b h => ?_
  rcases a with ⟨claim, dependsOn⟩
  rcases b with ⟨claim', dependsOn'⟩
  simp only [Prod.mk.injEq, and_true] at h
  obtain ⟨rfl, rfl⟩ := h
  rfl

theorem reveals_guarantee : Reveals Guarantee.encodeTo fun guarantee => guarantee := by
  refine ((reveals_hash.of Guarantee.claim).cons (((reveals_nested reveals_set).of Guarantee.dependsOn).cons
    .nil)).imp fun a b h => ?_
  rcases a with ⟨claim, dependsOn⟩
  rcases b with ⟨claim', dependsOn'⟩
  simp only [Prod.mk.injEq, and_true] at h
  obtain ⟨rfl, rfl⟩ := h
  rfl

theorem reveals_frame : Reveals FrameRule.encodeTo fun frame => frame := by
  have hpath := (reveals_nested reveals_path).of FrameRule.protectedPath
  have hwriters := (Reveals.counted reveals_putU16Length reveals_id Function.injective_id).of FrameRule.allowedWriters
  refine (hpath.cons (hwriters.cons ((reveals_hash.of FrameRule.proofClaim).cons .nil))).imp fun a b h => ?_
  rcases a with ⟨path, writers, claim, _, _, _⟩
  rcases b with ⟨path', writers', claim', _, _, _⟩
  simp only [Prod.mk.injEq, and_true] at h
  obtain ⟨rfl, rfl, rfl⟩ := h
  rfl

theorem reveals_contract : Reveals ComponentContract.encodeTo fun contract => contract := by
  have hfootprint := (reveals_nested reveals_footprint).of ComponentContract.footprint
  have houtbox := (reveals_nested reveals_set).of ComponentContract.outbox
  have hassumptions := (reveals_listed reveals_assumption).of ComponentContract.assumptions
  have hguarantees := (reveals_listed reveals_guarantee).of ComponentContract.guarantees
  have hframes := (reveals_listed reveals_frame).of ComponentContract.frames
  refine ((reveals_id.of ComponentContract.id).cons ((reveals_hash.of ComponentContract.profileHash).cons
    (hfootprint.cons (houtbox.cons (hassumptions.cons (hguarantees.cons (hframes.cons .nil))))))).imp fun a b h => ?_
  rcases a with ⟨id, profile, footprint, outbox, assumptions, guarantees, frames, _, _, _, _, _⟩
  rcases b with ⟨id', profile', footprint', outbox', assumptions', guarantees', frames', _, _, _, _, _⟩
  simp only [Prod.mk.injEq, and_true] at h
  obtain ⟨rfl, rfl, rfl, rfl, rfl, rfl, rfl⟩ := h
  rfl

theorem reveals_wiring : Reveals Wiring.encodeTo fun wiring => wiring := by
  have hpath (f : Wiring → AccessPath) := (reveals_nested reveals_path).of f
  refine ((reveals_id.of Wiring.sourceComponent).cons ((hpath Wiring.sourceEffect).cons
    ((reveals_id.of Wiring.destinationComponent).cons ((hpath Wiring.destinationPath).cons
      ((reveals_hash.of Wiring.schemaHash).cons .nil))))).imp fun a b h => ?_
  rcases a with ⟨source, effect, destination, path, schema⟩
  rcases b with ⟨source', effect', destination', path', schema'⟩
  simp only [Prod.mk.injEq, and_true] at h
  obtain ⟨rfl, rfl, rfl, rfl, rfl⟩ := h
  rfl

theorem reveals_kind : Reveals ConflictKind.encodeTo fun kind => kind := by
  intro a b u v r s ha hb heq
  cases ha
  cases hb
  obtain ⟨hcode, hrest⟩ := List.cons.inj heq
  exact ⟨ConflictKind.code_inj hcode, hrest⟩

theorem reveals_law : Reveals ParallelConflictLaw.encodeTo fun law => law := by
  refine ((reveals_id.of ParallelConflictLaw.left).cons ((reveals_id.of ParallelConflictLaw.right).cons
    ((reveals_kind.of ParallelConflictLaw.kind).cons
      ((reveals_hash.of ParallelConflictLaw.claim).cons .nil)))).imp fun a b h => ?_
  rcases a with ⟨left, right, kind, claim, _, _, _⟩
  rcases b with ⟨left', right', kind', claim', _, _, _⟩
  simp only [Prod.mk.injEq, and_true] at h
  obtain ⟨rfl, rfl, rfl, rfl⟩ := h
  rfl

/-- **The bytes of a specification determine it.** -/
theorem reveals_spec : Reveals CompositionSpec.encodeTo fun spec => spec := by
  have hversion := reveals_word 2 fun spec : CompositionSpec => spec.version.toNat_lt
  have hcomponents := (reveals_listed reveals_contract).of CompositionSpec.components
  have hwirings := (reveals_listed reveals_wiring).of CompositionSpec.wirings
  have hclaims := (Reveals.counted reveals_putU32Length reveals_hash Function.injective_id).of
    CompositionSpec.couplingClaims
  have hmerge := (Reveals.counted reveals_putU32Length reveals_id Function.injective_id).of CompositionSpec.mergeOrder
  have hlaws := (reveals_listed reveals_law).of CompositionSpec.parallelLaws
  refine ((Reveals.const _).cons ((Reveals.const _).cons (hversion.cons (hcomponents.cons (hwirings.cons
    (hclaims.cons (hmerge.cons (hlaws.cons .nil)))))))).imp fun a b h => ?_
  rcases a with ⟨version, components, wirings, claims, merge, laws⟩
  rcases b with ⟨version', components', wirings', claims', merge', laws'⟩
  simp only [Prod.mk.injEq, UInt16.toNat_inj, and_true, true_and] at h
  obtain ⟨rfl, rfl, rfl, rfl, rfl, rfl⟩ := h
  rfl

end ZenoFcis.Compose
