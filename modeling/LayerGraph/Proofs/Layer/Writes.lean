import LayerGraph.Network.Run
import LayerGraph.Proofs.Lowering.Basic
import LayerGraph.Proofs.Store.Access

/-!
# Hooks change a store by writing to it

Whatever is kept by every write is kept by the hooks of the layers and by the updates of weights,
whether they end well or fail.
-/

namespace LayerGraph

variable {α β γ : Type}

/-- A property of stores that writing a tensor keeps. -/
def Store.Writable (Q : Store α → Prop) : Prop :=
  ∀ s id v s', Q s → s.set id v = .ok s' → Q s'

namespace Hook

/-- A property of stores that a hook keeps. -/
def Keeps (Q : Store α → Prop) (hook : Hook α β) : Prop :=
  ∀ view, Action.Keeps (fun s : HookState α => Q s.store) (hook view)

variable {Q : Store α → Prop}

theorem keeps_pure (b : β) : Keeps Q (pure b : Hook α β) := fun _ => Action.keeps_pure b

theorem Keeps.bind {hook : Hook α β} {f : β → Hook α γ} (h : Keeps Q hook)
    (hf : ∀ b, Keeps Q (f b)) : Keeps Q (hook >>= f) :=
  fun view => (h view).bind fun b => hf b view

theorem keeps_read : Keeps Q (read : Hook α NodeView) := fun view => Action.keeps_pure view

theorem keeps_fail (fault : LayerFault) : Keeps Q (fail fault : Hook α β) :=
  keeps_read.bind fun _ _ => Action.keeps_throw _

theorem keeps_readStore (f : Store α → Except Error β) : Keeps Q (readStore f) := by
  intro view
  exact (Action.keeps_read f).focus (fun _ h => h) fun _ _ _ h => h

theorem keeps_write (hQ : Store.Writable Q) (id : TensorRef) (v : Tensor α) :
    Keeps Q (ofStore (Store.write id v)) := by
  intro view
  exact (Action.keeps_update fun s s' hs h => hQ s id v s' hs h).focus (fun _ h => h)
    fun _ _ _ h => h

theorem keeps_handle (list : Handles → List γ) (what : Operand) (i : Nat) :
    Keeps Q (handle (α := α) list what i) := by
  refine keeps_read.bind fun view => ?_
  cases (list view.handles)[i]? with
  | some h => exact keeps_pure h
  | none => exact keeps_fail _

theorem keeps_inputCount : Keeps Q (inputCount : Hook α Nat) :=
  keeps_read.bind fun _ => keeps_pure _

theorem keeps_outputCount : Keeps Q (outputCount : Hook α Nat) :=
  keeps_read.bind fun _ => keeps_pure _

theorem keeps_wantsDerivative (i : Nat) : Keeps Q (wantsDerivative i : Hook α Bool) :=
  keeps_read.bind fun _ => keeps_pure _

theorem keeps_trainsWeight (i : Nat) : Keeps Q (trainsWeight i : Hook α Bool) := by
  refine keeps_read.bind fun view => ?_
  cases view.handles.weights[i]? with
  | some w => exact keeps_readStore _
  | none => exact keeps_pure _

theorem keeps_recordLoss (loss : α) : Keeps Q (recordLoss loss) :=
  fun _ => Action.keeps_modify fun _ h => h

theorem keeps_ofKernel [Scalar α] (result : Except Error β) :
    Keeps Q (Layer.ofKernel result : Hook α β) := fun _ => Action.keeps_read _

section Forms

variable [Scalar α]

theorem keeps_input (i : Nat) : Keeps Q (input i : Hook α (Tensor α)) :=
  (keeps_handle _ _ i).bind fun _ => keeps_readStore _

theorem keeps_output (i : Nat) : Keeps Q (output i : Hook α (Tensor α)) :=
  (keeps_handle _ _ i).bind fun _ => keeps_readStore _

theorem keeps_weight (i : Nat) : Keeps Q (weight i : Hook α (Tensor α)) :=
  (keeps_handle _ _ i).bind fun _ => keeps_readStore _

theorem keeps_label : Keeps Q (label : Hook α (Tensor α)) := by
  refine keeps_read.bind fun view => ?_
  cases view.handles.label with
  | some id => exact keeps_readStore _
  | none => exact keeps_fail _

theorem keeps_outputDerivative (i : Nat) : Keeps Q (outputDerivative i : Hook α (Tensor α)) := by
  refine (keeps_handle _ _ i).bind fun wire => ?_
  cases wire.derivative with
  | some d => exact keeps_readStore _
  | none => exact (keeps_readStore _).bind fun _ => keeps_pure _

variable (hQ : Store.Writable Q)
include hQ

omit [Scalar α] in
theorem keeps_writeOutput (i : Nat) (v : Tensor α) : Keeps Q (writeOutput i v) :=
  (keeps_handle _ _ i).bind fun _ => keeps_write hQ _ _

omit [Scalar α] in
theorem keeps_writeInputDerivative (i : Nat) (v : Tensor α) :
    Keeps Q (writeInputDerivative i v) := by
  refine (keeps_handle _ _ i).bind fun wire => ?_
  cases wire.derivative with
  | some d => exact keeps_write hQ _ _
  | none => exact keeps_pure _

theorem keeps_addGradient (i : Nat) (v : Tensor α) : Keeps Q (addGradient i v) := by
  refine (keeps_handle _ _ i).bind fun w => keeps_read.bind fun view => ?_
  cases view.schedule.gradientStep with
  | none => exact keeps_pure _
  | some step =>
    intro view
    refine Action.Keeps.focus (Q := Q) ?_ (fun _ h => h) fun _ _ _ h => h
    refine (Action.keeps_read _).bind fun r => ?_
    have hwrite : ∀ id v, Action.Keeps Q (Store.write id v) := fun id v =>
      Action.keeps_update fun s s' hs h => hQ s id v s' hs h
    cases r.gradient with
    | none => exact Action.keeps_pure _
    | some g =>
      dsimp only
      split
      · exact hwrite _ _
      · exact (Action.keeps_read _).bind fun _ => hwrite _ _

end Forms

theorem keeps_foldlM {f : γ → β → Hook α γ} {xs : List β} (hf : ∀ c x, Keeps Q (f c x)) :
    ∀ c, Keeps Q (xs.foldlM f c) := by
  induction xs with
  | nil => exact fun c => keeps_pure c
  | cons x xs ih =>
    intro c
    rw [List.foldlM_cons]
    exact (hf c x).bind fun d => ih d

theorem keeps_forM {f : β → Hook α PUnit} {xs : List β} (hf : ∀ x, Keeps Q (f x)) :
    Keeps Q (xs.forM f) := by
  induction xs with
  | nil => exact keeps_pure _
  | cons x xs ih =>
    simp only [List.forM_eq_forM, List.forM_cons] at ih ⊢
    exact (hf x).bind fun _ => ih

end Hook

namespace Layer

open Hook

variable [Scalar α] {Q : Store α → Prop} (hQ : Store.Writable Q) {layer : Layer α}
  (hship : layer.isShipped = true)

omit hQ hship in
theorem keeps_sumFrom {operand : Nat → Hook α (Tensor α)} (ho : ∀ i, Hook.Keeps Q (operand i))
    (count : Nat) : Hook.Keeps Q (sumFrom operand count) :=
  (ho 0).bind fun first => keeps_foldlM (fun _ i => (ho i).bind fun _ => keeps_ofKernel _) first

include hQ hship

theorem keeps_forward (training : Bool) : Hook.Keeps Q (layer.forward training) := by
  cases layer with
  | input width => exact keeps_pure _
  | fullyConnected units weight bias =>
    exact (keeps_input 0).bind fun _ => (keeps_weight 0).bind fun _ =>
      (keeps_ofKernel _).bind fun _ =>
      (keeps_weight 1).bind fun _ => (keeps_ofKernel _).bind fun _ => keeps_writeOutput hQ 0 _
  | activation f => exact (keeps_input 0).bind fun _ => keeps_writeOutput hQ 0 _
  | addition =>
    exact keeps_inputCount.bind fun n => (keeps_sumFrom keeps_input n).bind fun _ =>
      keeps_writeOutput hQ 0 _
  | multiout =>
    exact (keeps_input 0).bind fun x => keeps_outputCount.bind fun n =>
      keeps_forM fun i => keeps_writeOutput hQ i x
  | identity => exact (keeps_input 0).bind fun _ => keeps_writeOutput hQ 0 _
  | loss kind =>
    exact (keeps_input 0).bind fun _ => (keeps_writeOutput hQ 0 _).bind fun _ =>
      keeps_label.bind fun _ =>
      (keeps_ofKernel _).bind fun _ => keeps_recordLoss _
  | custom layer => cases hship

theorem keeps_collectGradients : Hook.Keeps Q layer.collectGradients := by
  cases layer with
  | fullyConnected units weight bias =>
    refine (keeps_outputDerivative 0).bind fun dy => (keeps_trainsWeight 0).bind fun t₀ => ?_
    have hrest : Hook.Keeps Q (do if ← trainsWeight 1 then addGradient 1 dy.columnSums) := by
      refine (keeps_trainsWeight 1).bind fun t₁ => ?_
      cases t₁ with
      | true => exact keeps_addGradient hQ 1 _
      | false => exact keeps_pure _
    cases t₀ with
    | true =>
      exact (keeps_input 0).bind fun _ => (keeps_ofKernel _).bind fun _ =>
        (keeps_addGradient hQ 0 _).bind fun _ => hrest
    | false => exact hrest
  | custom layer => cases hship
  | input | activation | addition | multiout | identity | loss => exact keeps_pure _

theorem keeps_passBack : Hook.Keeps Q layer.passBack := by
  cases layer with
  | input width => exact keeps_pure _
  | fullyConnected units weight bias =>
    refine (keeps_wantsDerivative 0).bind fun wants => ?_
    cases wants with
    | true =>
      exact (keeps_outputDerivative 0).bind fun _ => (keeps_weight 0).bind fun _ =>
        (keeps_ofKernel _).bind fun _ => keeps_writeInputDerivative hQ 0 _
    | false => exact keeps_pure _
  | activation f =>
    exact (keeps_output 0).bind fun _ => (keeps_outputDerivative 0).bind fun _ =>
      (keeps_ofKernel _).bind fun _ => keeps_writeInputDerivative hQ 0 _
  | addition =>
    exact (keeps_outputDerivative 0).bind fun dy => keeps_inputCount.bind fun n =>
      keeps_forM fun i => keeps_writeInputDerivative hQ i dy
  | multiout =>
    exact keeps_outputCount.bind fun n => (keeps_sumFrom keeps_outputDerivative n).bind fun _ =>
      keeps_writeInputDerivative hQ 0 _
  | identity => exact (keeps_outputDerivative 0).bind fun _ => keeps_writeInputDerivative hQ 0 _
  | loss kind =>
    exact (keeps_output 0).bind fun _ => keeps_label.bind fun _ => (keeps_ofKernel _).bind fun _ =>
      keeps_writeInputDerivative hQ 0 _
  | custom layer => cases hship

omit hQ hship

/-- The hooks of a layer change a store by writing tensors alone, as those of a custom layer are
meant to. -/
structure Confined (layer : Layer α) : Prop where
  forward : ∀ Q, Store.Writable Q → ∀ training, Hook.Keeps Q (layer.forward training)
  collectGradients : ∀ Q, Store.Writable Q → Hook.Keeps Q layer.collectGradients
  passBack : ∀ Q, Store.Writable Q → Hook.Keeps Q layer.passBack

theorem confined_of_isShipped (h : layer.isShipped = true) : layer.Confined :=
  ⟨fun _ hQ training => keeps_forward hQ h training, fun _ hQ => keeps_collectGradients hQ h,
    fun _ hQ => keeps_passBack hQ h⟩

end Layer

namespace Store

theorem keeps_write {Q : Store α → Prop} (hQ : Writable Q) (id : TensorRef) (v : Tensor α) :
    Action.Keeps Q (write id v) := Action.keeps_update fun s s' hs h => hQ s id v s' hs h

/-- A property of stores that writing the value of a weight keeps, and writing its optimizer
state. -/
def Revisable (Q : Store α → Prop) : Prop :=
  ∀ s (w : WeightRef) r id v s', Q s → s.weights[w]? = some r →
    (id = r.value ∨ id ∈ r.optimizerState) →
    s.set id v = .ok s' → Q s'

theorem Writable.revisable {Q : Store α → Prop} (h : Writable Q) : Revisable Q :=
  fun s _ _ id v s' hs _ _ hset => h s id v s' hs hset

variable [Scalar α] {Q : Store α → Prop} {τ : Type}

theorem update?_eq_some {s : Store α} {w : WeightRef} {update : WeightState α} {value : TensorRef}
    {state : List TensorRef} (h : s.update? w = .ok (some (update, value, state))) :
    ∃ r, s.weights[w]? = some r ∧ value = r.value ∧ state = r.optimizerState := by
  obtain ⟨r, hr, h⟩ := except_bind_eq_ok_iff.mp h
  refine ⟨r, weight_eq_ok_iff.mp hr, ?_⟩
  split at h
  · cases h
  · obtain ⟨_, -, h⟩ := except_bind_eq_ok_iff.mp h
    obtain ⟨_, -, h⟩ := except_bind_eq_ok_iff.mp h
    obtain ⟨_, -, h⟩ := except_bind_eq_ok_iff.mp h
    cases h
    exact ⟨rfl, rfl⟩

omit [Scalar α] in
theorem keeps_writeBack (hQ : Revisable Q) (w : WeightRef) (r : WeightRecord)
    (update : WeightState α) :
    Action.Keeps (fun s : Store α => Q s ∧ s.weights[w]? = some r)
      (writeBack update r.value r.optimizerState) := by
  have hwrite : ∀ id v, (id = r.value ∨ id ∈ r.optimizerState) →
      Action.Keeps (fun s : Store α => Q s ∧ s.weights[w]? = some r) (write id v) := fun id v hid =>
    Action.keeps_update fun s s' hs h =>
      ⟨hQ s w r id v s' hs.1 hs.2 hid h, by rw [(sameLayout_of_set h).weights]; exact hs.2⟩
  refine (hwrite _ _ (.inl rfl)).bind fun _ => Action.keeps_forM fun p hp => hwrite _ _ (.inr ?_)
  exact (List.of_mem_zip hp).1

theorem keeps_revise_of_revisable (hQ : Revisable Q) (w : WeightRef)
    (rule : WeightState α → Action τ (WeightState α)) :
    Action.Keeps (fun s : τ × Store α => Q s.2) (revise w rule) := by
  intro s hs
  refine Action.after_read_bind (P := fun s : τ × Store α => Q s.2) hs fun found hfound => ?_
  cases found with
  | none => exact hs
  | some found =>
    obtain ⟨update, value, state⟩ := found
    obtain ⟨r, hr, rfl, rfl⟩ := update?_eq_some hfound
    have hrule : Action.Keeps (fun _ : τ => True) (rule update) := fun _ _ => trivial
    have hrest : Action.Keeps (fun s : τ × Store α => Q s.2 ∧ s.2.weights[w]? = some r) (do
        let updated ← Action.focus (·.1) (fun own s => (own, s.2)) (rule update)
        Action.focus (·.2) (fun store s => (s.1, store))
          (writeBack updated r.value r.optimizerState)) := by
      refine Action.Keeps.bind ?_ fun updated => ?_
      · exact hrule.focus (fun _ _ => trivial) fun _ _ h _ => h
      · exact (keeps_writeBack hQ w r updated).focus (fun _ h => h) fun _ _ _ h => h
    exact (hrest s ⟨hs, hr⟩).1

theorem keeps_revise (hQ : Writable Q) (w : WeightRef)
    (rule : WeightState α → Action τ (WeightState α)) :
    Action.Keeps (fun s : τ × Store α => Q s.2) (revise w rule) :=
  keeps_revise_of_revisable hQ.revisable w rule

end Store

namespace Network

variable [Scalar α] {Q : Store α → Prop} {τ : Type}

theorem keeps_applyComplete_of_revisable (hQ : Store.Revisable Q) (node : Node α)
    (rule : WeightState α → Action τ (WeightState α)) :
    Action.Keeps (fun s : τ × Store α => Q s.2) (applyComplete node rule) := by
  unfold applyComplete
  cases node.schedule.gradientStep with
  | none => exact Action.keeps_pure _
  | some step =>
    refine Action.keeps_foldlM (fun applied w _ => ?_) 0
    refine (Action.keeps_read _).bind fun last => ?_
    cases last with
    | true => exact (Store.keeps_revise_of_revisable hQ w rule).bind fun _ => Action.keeps_pure _
    | false => exact Action.keeps_pure _

variable (hQ : Store.Writable Q) (node : Node α) (rule : WeightState α → Action τ (WeightState α))
include hQ

theorem keeps_applyComplete :
    Action.Keeps (fun s : τ × Store α => Q s.2) (applyComplete node rule) :=
  keeps_applyComplete_of_revisable hQ.revisable node rule

theorem keeps_applyComplete_visit :
    Action.Keeps (fun s : τ × Store α => Q s.2) (do let _ ← applyComplete node rule) :=
  (keeps_applyComplete hQ node rule).bind fun _ => Action.keeps_pure _

end Network

end LayerGraph
