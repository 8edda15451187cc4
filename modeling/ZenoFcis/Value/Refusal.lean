/-
What a valid value can be refused for: on well-formed values the computations of `zeno-fcis-value` fail for a length or
a resource limit only, never for order or text.
-/
import ZenoFcis.Value.Limits

namespace ZenoFcis

open Lib Lib.Except

/-- an error that reports a length or a resource limit, not the shape of a value -/
def ValueError.IsLimit : ValueError → Prop
  | .recordFieldOrder _ _ | .mapKeyOrder | .nonAsciiText => False
  | .depthLimit _ _ | .nodeLimit _ _ | .payloadLimit _ _ | .collectionLimit _ _ | .arithmeticOverflow => True

/-- a computation that is refused for size only -/
def OnlyLimits {α : Type} (x : Except ValueError α) : Prop := ∀ e, x = .error e → e.IsLimit

namespace OnlyLimits

variable {α β : Type} {x : Except ValueError α} {f : α → Except ValueError β}

theorem ok {a : α} : OnlyLimits (.ok a) := nofun

/-- computations that fail by limits compose -/
theorem bind (hx : OnlyLimits x) (hf : ∀ a, x = .ok a → OnlyLimits (f a)) : OnlyLimits (x >>= f) := by
  intro e he
  cases x with
  | error e' =>
    obtain rfl : e' = e := Except.error.inj he
    exact hx e' rfl
  | ok a => exact hf a rfl e he

end OnlyLimits

theorem checkedAdd_limits (max left right : ℕ) : OnlyLimits (checkedAdd max left right .arithmeticOverflow) := by
  intro e he
  unfold checkedAdd at he
  split_ifs at he
  cases he
  exact trivial

theorem checkWireLength_limits (n : ℕ) : OnlyLimits (checkWireLength n) := by
  intro e he
  unfold checkWireLength at he
  split_ifs at he
  cases he
  exact trivial

/-! ## The exact length -/

theorem encodedLengthItems_limits {items : List Value} (h : ∀ v ∈ items, OnlyLimits (encodedLength v)) (n : ℕ) :
    OnlyLimits (encodedLengthItems items n) := by
  induction items generalizing n with
  | nil => exact .ok
  | cons v items ih =>
    unfold encodedLengthItems
    refine (h v List.mem_cons_self).bind fun a _ => (checkedAdd_limits _ _ _).bind fun b _ => ?_
    exact ih (fun w hw => h w (List.mem_cons_of_mem _ hw)) b

theorem encodedLengthFields_limits {fields : List Field} (h : ∀ f ∈ fields, OnlyLimits (encodedLength f.value))
    (n : ℕ) : OnlyLimits (encodedLengthFields fields n) := by
  induction fields generalizing n with
  | nil => exact .ok
  | cons f fields ih =>
    obtain ⟨i, v⟩ := f
    unfold encodedLengthFields
    refine (checkedAdd_limits _ _ _).bind fun a _ => OnlyLimits.bind (h _ List.mem_cons_self) fun b _ => ?_
    exact (checkedAdd_limits _ _ _).bind fun c _ => ih (fun g hg => h g (List.mem_cons_of_mem _ hg)) c

theorem encodedLengthEntries_limits {entries : List MapEntry} (h : ∀ e ∈ entries, OnlyLimits (encodedLength e.value))
    (n : ℕ) : OnlyLimits (encodedLengthEntries entries n) := by
  induction entries generalizing n with
  | nil => exact .ok
  | cons e entries ih =>
    obtain ⟨b, k, v⟩ := e
    unfold encodedLengthEntries
    refine OnlyLimits.bind (h _ List.mem_cons_self) fun a _ => (checkWireLength_limits _).bind fun _ _ => ?_
    refine (checkWireLength_limits _).bind fun _ _ => (checkedAdd_limits _ _ _).bind fun c _ => ?_
    refine (checkedAdd_limits _ _ _).bind fun d _ => (checkedAdd_limits _ _ _).bind fun m _ => ?_
    exact ih (fun e he => h e (List.mem_cons_of_mem _ he)) m

theorem encodedLength_limits (v : Value) : OnlyLimits (encodedLength v) := by
  induction v with
  | bytes b | text t =>
    unfold encodedLength
    exact (checkWireLength_limits _).bind fun _ _ => checkedAdd_limits _ _ _
  | tuple items ih | vector items ih =>
    unfold encodedLength
    exact (checkWireLength_limits _).bind fun _ _ => encodedLengthItems_limits ih _
  | record fields ih =>
    unfold encodedLength
    exact (checkWireLength_limits _).bind fun _ _ => encodedLengthFields_limits ih _
  | map entries ih =>
    unfold encodedLength
    exact (checkWireLength_limits _).bind fun _ _ => encodedLengthEntries_limits (fun e he => (ih e he).2) _
  | sum t w payload ih =>
    cases payload with
    | none => unfold encodedLength; exact .ok
    | some v =>
      unfold encodedLength
      exact (ih v rfl).bind fun _ _ => checkedAdd_limits _ _ _
  | _ => unfold encodedLength; exact .ok

/-! ## Limit validation -/

variable (limits : ValueLimits)

theorem enterValue_limits (depth : ℕ) (metrics : ValueMetrics) : OnlyLimits (enterValue depth limits metrics) := by
  unfold enterValue
  split_ifs
  · intro e he
    cases he
    exact trivial
  · refine (checkedAdd_limits _ _ _).bind fun nodes _ e he => ?_
    split_ifs at he
    cases he
    exact trivial

theorem addPayload_limits (length : ℕ) (metrics : ValueMetrics) : OnlyLimits (addPayload length limits metrics) := by
  unfold addPayload
  refine (checkedAdd_limits _ _ _).bind fun bytes _ e he => ?_
  split_ifs at he
  cases he
  exact trivial

theorem validateCollectionLen_limits (length : ℕ) : OnlyLimits (validateCollectionLen length limits) := by
  intro e he
  unfold validateCollectionLen at he
  split_ifs at he <;> cases he <;> exact trivial

/-- `validateValue` is refused for size only, from any depth and metrics -/
def Bounded (v : Value) : Prop := ∀ depth metrics, OnlyLimits (validateValue v depth limits metrics)

theorem validateItems_limits {items : List Value} (h : ∀ v ∈ items, Bounded limits v) (depth : ℕ)
    (metrics : ValueMetrics) : OnlyLimits (validateItems items depth limits metrics) := by
  induction items generalizing metrics with
  | nil => exact .ok
  | cons v items ih =>
    unfold validateItems
    exact (h v List.mem_cons_self depth metrics).bind fun m _ => ih (fun w hw => h w (List.mem_cons_of_mem _ hw)) m

theorem validateFields_limits {fields : List Field} (h : ∀ f ∈ fields, Bounded limits f.value) (depth : ℕ)
    (metrics : ValueMetrics) : OnlyLimits (validateFields fields depth limits metrics) := by
  induction fields generalizing metrics with
  | nil => exact .ok
  | cons f fields ih =>
    obtain ⟨i, v⟩ := f
    unfold validateFields
    refine OnlyLimits.bind (h _ List.mem_cons_self depth metrics) fun m _ => ?_
    exact ih (fun g hg => h g (List.mem_cons_of_mem _ hg)) m

theorem validateEntries_limits {entries : List MapEntry}
    (h : ∀ e ∈ entries, Bounded limits e.key ∧ Bounded limits e.value) (depth : ℕ) (metrics : ValueMetrics) :
    OnlyLimits (validateEntries entries depth limits metrics) := by
  induction entries generalizing metrics with
  | nil => exact .ok
  | cons e entries ih =>
    obtain ⟨hk, hv⟩ := h e List.mem_cons_self
    obtain ⟨b, k, v⟩ := e
    unfold validateEntries
    refine (addPayload_limits _ _ _).bind fun m₁ _ => (encodedLength_limits v).bind fun n _ => ?_
    refine (addPayload_limits _ _ _).bind fun m₂ _ => (hk depth m₂).bind fun m₃ _ => (hv depth m₃).bind fun m₄ _ => ?_
    exact ih (fun e he => h e (List.mem_cons_of_mem _ he)) m₄

theorem Valid.bounded {v : Value} (hv : Valid v) : Bounded limits v := by
  induction v with
  | bytes b =>
    intro depth metrics
    unfold validateValue
    exact (enterValue_limits _ _ _).bind fun m _ => addPayload_limits _ _ _
  | text t =>
    cases hv with
    | text hascii _ =>
      intro depth metrics
      unfold validateValue
      refine (enterValue_limits _ _ _).bind fun m _ => ?_
      simp only [hascii]
      exact addPayload_limits _ _ _
  | tuple items ih =>
    cases hv with
    | tuple _ hs =>
      intro depth metrics
      unfold validateValue
      refine (enterValue_limits _ _ _).bind fun m _ => (validateCollectionLen_limits _ _).bind fun _ _ => ?_
      exact (checkedAdd_limits _ _ _).bind fun d _ => validateItems_limits _ (fun v hv => ih v hv (hs v hv)) d m
  | vector items ih =>
    cases hv with
    | vector _ hs =>
      intro depth metrics
      unfold validateValue
      refine (enterValue_limits _ _ _).bind fun m _ => (validateCollectionLen_limits _ _).bind fun _ _ => ?_
      exact (checkedAdd_limits _ _ _).bind fun d _ => validateItems_limits _ (fun v hv => ih v hv (hs v hv)) d m
  | record fields ih =>
    cases hv with
    | record _ hord hs =>
      intro depth metrics
      unfold validateValue
      refine (enterValue_limits _ _ _).bind fun m _ => (validateCollectionLen_limits _ _).bind fun _ _ => ?_
      rw [(ensureStrictFields_eq_ok (u := ())).2 hord, ok_bind]
      exact (checkedAdd_limits _ _ _).bind fun d _ => validateFields_limits _ (fun f hf => ih f hf (hs f hf)) d m
  | map entries ih =>
    cases hv with
    | map _ hord hkey hvalue _ _ =>
      intro depth metrics
      unfold validateValue
      refine (enterValue_limits _ _ _).bind fun m _ => (validateCollectionLen_limits _ _).bind fun _ _ => ?_
      rw [(ensureStrictMapKeys_eq_ok (u := ())).2 hord, ok_bind]
      refine (checkedAdd_limits _ _ _).bind fun d _ => validateEntries_limits _ (fun e he => ?_) d m
      exact ⟨(ih e he).1 (hkey e he), (ih e he).2 (hvalue e he)⟩
  | sum t w payload ih =>
    cases hv with
    | sum _ _ h =>
      intro depth metrics
      cases payload with
      | none => unfold validateValue; exact enterValue_limits _ _ _
      | some v =>
        unfold validateValue
        refine (enterValue_limits _ _ _).bind fun m _ => (checkedAdd_limits _ _ _).bind fun d _ => ?_
        exact ih v rfl (h v rfl) d m
  | _ =>
    intro depth metrics
    unfold validateValue
    exact enterValue_limits _ _ _

/-- a valid value is refused by a limit only -/
theorem Valid.zcveBytes_limits {v : Value} (hv : Valid v) : OnlyLimits (v.zcveBytesWithLimits limits) := by
  intro e he
  unfold Value.zcveBytesWithLimits Value.encodeZcveToWithLimits at he
  split at he
  · cases he
  · rename_i e' _ houter
    obtain rfl := Except.error.inj he
    split at houter
    · cases houter
    · rename_i e₀ hinner
      obtain rfl : e₀ = e' := Except.error.inj (congrArg Prod.fst houter)
      refine OnlyLimits.bind (hv.bounded limits _ _) (fun _ _ => ?_) e₀ hinner
      rw [encodeZcveValue_eq hv, ok_bind]
      exact (checkedAdd_limits _ _ _).bind fun _ _ => .ok

end ZenoFcis
