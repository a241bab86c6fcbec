import LayerGraph.Layer.Run
import LayerGraph.Proofs.Store.Buffered

/-!
# Layers that run

The hooks of a layer end well for a node whose handles fit the layer and have buffers: every operand
that they read is there, the kernels are given operands of shapes that fit, and what is written has
the shape of its tensor.
-/

namespace LayerGraph

variable {α β γ : Type}

/-- The tensors of a node that its forward pass uses have buffers for the batch. -/
structure Equipped (s : Store α) (batch : Nat) (handles : Handles) : Prop where
  input : ∀ x ∈ handles.inputs, ∀ width, s.HasWidth x.value width →
    s.Buffered x.value ⟨batch, width⟩
  output : ∀ y ∈ handles.outputs, ∀ width, s.HasWidth y.value width →
    s.Buffered y.value ⟨batch, width⟩
  label : ∀ l, handles.label = some l → ∀ width, s.HasWidth l width → s.Buffered l ⟨batch, width⟩
  weight : ∀ w shape, s.HasWeight w shape → ∃ r, s.weights[w]? = some r ∧ s.Buffered r.value shape

/-- So do the ones that its backward pass uses. -/
structure EquippedBack (s : Store α) (batch : Nat) (handles : Handles) : Prop extends
    Equipped s batch handles where
  inputDerivative : ∀ x ∈ handles.inputs, ∀ d, x.derivative = some d → ∀ width, s.HasWidth d width →
    s.Buffered d ⟨batch, width⟩
  outputDerivative : ∀ y ∈ handles.outputs, ∀ d, y.derivative = some d → ∀ width,
    s.HasWidth d width → s.Buffered d ⟨batch, width⟩
  gradient : ∀ (w : Nat) shape r g, s.HasWeight w shape → s.weights[w]? = some r →
    r.gradient = some g → s.Buffered g shape

namespace Hook

/-- On a store that holds values of the right shapes the hook ends well, and leaves such a store. -/
def Returns (s₀ : Store α) (view : NodeView) (hook : Hook α β) (Q : β → Prop) : Prop :=
  Action.Returns (fun t : HookState α => s₀.Held t.store) (hook view) Q

variable {s₀ : Store α} {view : NodeView} {Q : β → Prop}

theorem returns_pure {b : β} (hb : Q b) : Returns s₀ view (pure b : Hook α β) Q :=
  Action.returns_pure hb

theorem Returns.bind {hook : Hook α β} {f : β → Hook α γ} {R : γ → Prop}
    (h : Returns s₀ view hook Q) (hf : ∀ b, Q b → Returns s₀ view (f b) R) :
    Returns s₀ view (hook >>= f) R :=
  Action.Returns.bind h hf

theorem returns_view : Returns s₀ view (read : Hook α NodeView) (view = ·) :=
  Action.returns_pure rfl

theorem returns_readStore {f : Store α → Except Error β}
    (hf : ∀ s, s₀.Held s → ∃ b, f s = .ok b ∧ Q b) : Returns s₀ view (readStore f) Q :=
  (Action.returns_read hf).focus (fun _ h => h) fun _ _ _ h => h

theorem returns_handle {list : Handles → List γ} {what : Operand} {i : Nat} {h : γ}
    (hi : (list view.handles)[i]? = some h) : Returns s₀ view (handle (α := α) list what i)
      (h = ·) := by
  refine returns_view.bind ?_
  rintro _ rfl
  rw [hi]
  exact returns_pure rfl

theorem returns_inputCount :
    Returns s₀ view (inputCount : Hook α Nat) (view.handles.inputs.length = ·) := by
  refine returns_view.bind ?_
  rintro _ rfl
  exact returns_pure rfl

theorem returns_outputCount :
    Returns s₀ view (outputCount : Hook α Nat) (view.handles.outputs.length = ·) := by
  refine returns_view.bind ?_
  rintro _ rfl
  exact returns_pure rfl

theorem returns_wantsDerivative (i : Nat) :
    Returns s₀ view (wantsDerivative i : Hook α Bool) fun _ => True :=
  returns_view.bind fun _ _ => returns_pure trivial

theorem returns_trainsWeight {i : Nat} {w : WeightRef} {r : WeightRecord}
    (hi : view.handles.weights[i]? = some w) (hw : s₀.weights[w]? = some r) :
    Returns s₀ view (trainsWeight i : Hook α Bool) fun _ => True := by
  refine returns_view.bind ?_
  rintro _ rfl
  rw [hi]
  refine returns_readStore fun s hs => ⟨r.trainable && r.gradient.isSome, ?_, trivial⟩
  unfold Store.trains
  rw [hs.weight hw]
  rfl

theorem returns_recordLoss (loss : α) : Returns s₀ view (recordLoss loss) fun _ => True :=
  Action.returns_modify fun _ h => h

variable {shape : Shape}

theorem returns_write {id : TensorRef} {v : Tensor α} (hb : s₀.Buffered id v.shape) :
    Returns s₀ view (ofStore (Store.write id v)) fun _ => True :=
  (Store.returns_write hb).focus (fun _ h => h) fun _ _ _ h => h

theorem returns_writeOutput {i : Nat} {y : Wire} {v : Tensor α}
    (hi : view.handles.outputs[i]? = some y) (hb : s₀.Buffered y.value v.shape) :
    Returns s₀ view (writeOutput i v) fun _ => True := by
  refine (returns_handle hi).bind ?_
  rintro _ rfl
  exact returns_write hb

theorem returns_writeInputDerivative {i : Nat} {x : Wire} {v : Tensor α}
    (hi : view.handles.inputs[i]? = some x)
    (hb : ∀ d, x.derivative = some d → s₀.Buffered d v.shape) :
    Returns s₀ view (writeInputDerivative i v) fun _ => True := by
  refine (returns_handle hi).bind ?_
  rintro _ rfl
  cases hd : x.derivative with
  | none => exact returns_pure trivial
  | some d => exact returns_write (hb d hd)

theorem returns_ofKernel [Scalar α] {result : Except Error β} (h : ∃ b, result = .ok b ∧ Q b) :
    Returns s₀ view (Layer.ofKernel result : Hook α β) Q := Action.returns_read fun _ _ => h

variable [Scalar α]

theorem returns_get {id : TensorRef} (hb : s₀.Buffered id shape) :
    Returns s₀ view (readStore (·.get id) : Hook α (Tensor α)) (·.shape = shape) :=
  returns_readStore fun _ hs => hs.get hb

theorem returns_input {i : Nat} {x : Wire} (hi : view.handles.inputs[i]? = some x)
    (hb : s₀.Buffered x.value shape) :
    Returns s₀ view (input i : Hook α (Tensor α)) (·.shape = shape) := by
  refine (returns_handle hi).bind ?_
  rintro _ rfl
  exact returns_get hb

theorem returns_output {i : Nat} {y : Wire} (hi : view.handles.outputs[i]? = some y)
    (hb : s₀.Buffered y.value shape) :
    Returns s₀ view (output i : Hook α (Tensor α)) (·.shape = shape) := by
  refine (returns_handle hi).bind ?_
  rintro _ rfl
  exact returns_get hb

/-- The derivative of an output, which is zero where nobody passes one back. -/
theorem returns_outputDerivative {i : Nat} {y : Wire} (hi : view.handles.outputs[i]? = some y)
    (hb : s₀.Buffered y.value shape) (hd : ∀ d, y.derivative = some d → s₀.Buffered d shape) :
    Returns s₀ view (outputDerivative i : Hook α (Tensor α)) (·.shape = shape) := by
  refine (returns_handle hi).bind ?_
  rintro _ rfl
  cases hyd : y.derivative with
  | some d => exact returns_get (hd d hyd)
  | none =>
    refine (returns_readStore (Q := (shape = ·)) fun s hs => ⟨shape, ?_, rfl⟩).bind ?_
    · obtain ⟨e, he, hshape, -⟩ := hs.1.buffered hb
      exact Store.shape_eq_ok_iff.mpr ⟨e, he, hshape⟩
    · rintro _ rfl
      exact returns_pure rfl

theorem returns_weight {i : Nat} {w : WeightRef} {r : WeightRecord}
    (hi : view.handles.weights[i]? = some w) (hw : s₀.weights[w]? = some r)
    (hb : s₀.Buffered r.value shape) :
    Returns s₀ view (weight i : Hook α (Tensor α)) (·.shape = shape) := by
  refine (returns_handle hi).bind ?_
  rintro _ rfl
  refine returns_readStore fun s hs => ?_
  rw [hs.weight hw, except_ok_bind]
  exact hs.get hb

theorem returns_addGradient {i : Nat} {w : WeightRef} {r : WeightRecord} {v : Tensor α}
    (hi : view.handles.weights[i]? = some w) (hw : s₀.weights[w]? = some r)
    (hb : ∀ g, r.gradient = some g → s₀.Buffered g v.shape) :
    Returns s₀ view (addGradient i v) fun _ => True := by
  refine (returns_handle hi).bind ?_
  rintro _ rfl
  refine returns_view.bind ?_
  rintro _ rfl
  cases view.schedule.gradientStep with
  | none => exact returns_pure trivial
  | some step =>
    exact (Store.returns_accumulate hw hb step rfl).focus (fun _ h => h) fun _ _ _ h => h

theorem returns_label {l : TensorRef} (hl : view.handles.label = some l)
    (hb : s₀.Buffered l shape) : Returns s₀ view (label : Hook α (Tensor α)) (·.shape = shape) := by
  refine returns_view.bind ?_
  rintro _ rfl
  rw [hl]
  exact returns_get hb

omit [Scalar α] in
theorem returns_forM {f : β → Hook α PUnit} {xs : List β}
    (hf : ∀ x ∈ xs, Returns s₀ view (f x) fun _ => True) :
    Returns s₀ view (xs.forM f) fun _ => True := by
  induction xs with
  | nil => exact returns_pure trivial
  | cons x xs ih =>
    simp only [List.forM_eq_forM, List.forM_cons] at ih ⊢
    exact (hf x (by simp)).bind fun _ _ => ih fun y hy => hf y (by simp [hy])

omit [Scalar α] in
theorem returns_foldlM {f : γ → β → Hook α γ} {R : γ → Prop} {xs : List β}
    (hf : ∀ c, ∀ x ∈ xs, R c → Returns s₀ view (f c x) R) {c : γ} (hc : R c) :
    Returns s₀ view (xs.foldlM f c) R := by
  induction xs generalizing c with
  | nil => exact returns_pure hc
  | cons x xs ih =>
    rw [List.foldlM_cons]
    exact (hf c x (by simp) hc).bind fun d hd => ih (fun c y hy => hf c y (by simp [hy])) hd

/-- Operands of one shape have a sum of that shape. -/
theorem returns_sumFrom (shape : Shape) {operand : Nat → Hook α (Tensor α)} {count : Nat}
    (hpos : 0 < count) (ho : ∀ i < count, Returns s₀ view (operand i) (·.shape = shape)) :
    Returns s₀ view (Layer.sumFrom operand count) (·.shape = shape) := by
  refine (ho 0 hpos).bind fun first hfirst => returns_foldlM (fun sum i hi hsum => ?_) hfirst
  obtain ⟨k, hk, rfl⟩ := List.mem_range'.mp hi
  refine (ho (1 + 1 * k) (by omega)).bind fun t ht => returns_ofKernel ?_
  exact Tensor.exists_add (by rw [hsum, ht, Shape.join_self])

end Hook

namespace Layer

open Hook

variable [Scalar α] {s₀ : Store α} {batch : Nat} {layer : Layer α} {view : NodeView}

theorem returns_forward (hf : Fits s₀ layer view.handles) (he : Equipped s₀ batch view.handles)
    (training : Bool) : Hook.Returns s₀ view (layer.forward training) fun _ => True := by
  generalize hh : view.handles = handles at hf he
  cases hf with
  | input out => exact returns_pure trivial
  | @fullyConnected units width weight bias x y w b ins out hw hb ne =>
    obtain ⟨r, hr, hrb⟩ := he.weight w _ hw
    obtain ⟨r', hr', hrb'⟩ := he.weight b _ hb
    refine (returns_input (x := x) (by rw [hh]; rfl) (he.input x (by simp) _ ins.value)).bind
      fun t ht => ?_
    refine (returns_weight (w := w) (by rw [hh]; rfl) hr hrb).bind fun W hW => ?_
    refine (returns_ofKernel (Tensor.exists_matmul ht hW)).bind fun product hp => ?_
    refine (returns_weight (w := b) (by rw [hh]; rfl) hr' hrb').bind fun B hB => ?_
    refine (returns_ofKernel (Q := (·.shape = ⟨batch, units⟩)) (Tensor.exists_add ?_)).bind
      fun v hv => ?_
    · rw [hp, hB, Shape.join_row]
    · exact returns_writeOutput (y := y) (by rw [hh]; rfl) (hv ▸ he.output y (by simp) _ out.value)
  | @activation f width x y ins out =>
    refine (returns_input (x := x) (by rw [hh]; rfl) (he.input x (by simp) _ ins.value)).bind
      fun t ht => ?_
    refine returns_writeOutput (y := y) (by rw [hh]; rfl) ?_
    rw [Activation.shape_apply, ht]
    exact he.output y (by simp) _ out.value
  | @addition width x y xs ins out =>
    refine returns_inputCount.bind ?_
    rintro _ rfl
    refine (returns_sumFrom ⟨batch, width⟩ (by rw [hh]; simp) fun i hi => ?_).bind fun v hv => ?_
    · obtain ⟨x', hget⟩ : ∃ x', view.handles.inputs[i]? = some x' :=
        ⟨_, List.getElem?_eq_getElem hi⟩
      have hmem : x' ∈ x :: xs := List.mem_of_getElem? (hh ▸ hget)
      exact returns_input hget (he.input _ hmem _ (ins _ hmem).value)
    · exact returns_writeOutput (y := y) (by rw [hh]; rfl) (hv ▸ he.output y (by simp) _ out.value)
  | @multiout width x y ys ins out =>
    refine (returns_input (x := x) (by rw [hh]; rfl) (he.input x (by simp) _ ins.value)).bind
      fun t ht => ?_
    refine returns_outputCount.bind ?_
    rintro _ rfl
    refine returns_forM fun i hi => ?_
    obtain ⟨y', hget⟩ : ∃ y', view.handles.outputs[i]? = some y' :=
      ⟨_, List.getElem?_eq_getElem (List.mem_range.mp hi)⟩
    have hmem : y' ∈ y :: ys := List.mem_of_getElem? (hh ▸ hget)
    exact returns_writeOutput hget (ht ▸ he.output _ hmem _ (out _ hmem).value)
  | @identity width x y ins out =>
    refine (returns_input (x := x) (by rw [hh]; rfl) (he.input x (by simp) _ ins.value)).bind
      fun t ht => ?_
    exact returns_writeOutput (y := y) (by rw [hh]; rfl) (ht ▸ he.output y (by simp) _ out.value)
  | @loss kind width x y l fused ins out label =>
    refine (returns_input (x := x) (by rw [hh]; rfl) (he.input x (by simp) _ ins.value)).bind
      fun t ht => ?_
    have hshape : (kind.activation.apply t).shape = ⟨batch, width⟩ := by
      rw [Activation.shape_apply, ht]
    refine (returns_writeOutput (y := y) (by rw [hh]; rfl)
      (hshape ▸ he.output y (by simp) _ out.value)).bind fun _ _ => ?_
    refine (returns_label (l := l) (by rw [hh]) (he.label l rfl _ label)).bind
      fun target htarget => ?_
    obtain ⟨v, hv⟩ := Loss.exists_compute kind (htarget.trans hshape.symm)
    exact (returns_ofKernel (Q := fun _ => True) ⟨v, hv, trivial⟩).bind fun v _ =>
      returns_recordLoss v

theorem returns_collectGradients (view : NodeView) (hf : Fits s₀ layer view.handles)
    (he : EquippedBack s₀ batch view.handles) :
    Hook.Returns s₀ view layer.collectGradients fun _ => True := by
  generalize hh : view.handles = handles at hf he
  cases hf with
  | @fullyConnected units width weight bias x y w b ins out hw hb ne =>
    obtain ⟨r, hr, hrb⟩ := he.weight w _ hw
    obtain ⟨r', hr', hrb'⟩ := he.weight b _ hb
    have hx := he.input x (by simp) _ ins.value
    have hy := he.output y (by simp) _ out.value
    have hdy := fun d hd => he.outputDerivative y (by simp) d hd _ (out.derivative d hd)
    refine (returns_outputDerivative (y := y) (by rw [hh]; rfl) hy hdy).bind fun dy hdys => ?_
    have hbias : Hook.Returns s₀ view (do if ← trainsWeight 1 then addGradient 1 dy.columnSums)
        fun _ => True := by
      refine (returns_trainsWeight (w := b) (by rw [hh]; rfl) hr').bind fun trains _ => ?_
      cases trains with
      | false => exact returns_pure trivial
      | true =>
        refine returns_addGradient (w := b) (by rw [hh]; rfl) hr' fun g hg => ?_
        rw [Tensor.shape_columnSums, hdys]
        exact he.gradient b _ r' g hb hr' hg
    refine (returns_trainsWeight (w := w) (by rw [hh]; rfl) hr).bind fun trains _ => ?_
    cases trains with
    | false => exact hbias
    | true =>
      refine (returns_input (x := x) (by rw [hh]; rfl) hx).bind fun t ht => ?_
      refine (returns_ofKernel (Tensor.exists_matmul (m := width) (k := batch) (n := units)
        (by rw [Tensor.shape_transpose, ht]) hdys)).bind fun v hv => ?_
      refine (returns_addGradient (w := w) (by rw [hh]; rfl) hr fun g hg => ?_).bind fun _ _ =>
        hbias
      rw [hv]
      exact he.gradient w _ r g hw hr hg
  | input | activation | addition | multiout | identity | loss => exact returns_pure trivial

theorem returns_passBack (view : NodeView) (hf : Fits s₀ layer view.handles)
    (he : EquippedBack s₀ batch view.handles) :
    Hook.Returns s₀ view layer.passBack fun _ => True := by
  generalize hh : view.handles = handles at hf he
  -- What is written back has the shape of the input, and what comes in that of the output.
  have hback : ∀ {i : Nat} {x : Wire} {v : Tensor α} {width : Nat}, handles.inputs[i]? = some x →
      s₀.WireFits x width → v.shape = ⟨batch, width⟩ →
      Hook.Returns s₀ view (writeInputDerivative i v) fun _ => True := by
    intro i x v width hi hx hv
    refine returns_writeInputDerivative (by rw [hh]; exact hi) fun d hd => ?_
    rw [hv]
    exact he.inputDerivative x (List.mem_of_getElem? hi) d hd _ (hx.derivative d hd)
  have hgiven : ∀ {i : Nat} {y : Wire} {width : Nat}, handles.outputs[i]? = some y →
      s₀.WireFits y width →
      Hook.Returns s₀ view (outputDerivative i : Hook α (Tensor α)) (·.shape = ⟨batch, width⟩) := by
    intro i y width hi hy
    have hmem := List.mem_of_getElem? hi
    exact returns_outputDerivative (by rw [hh]; exact hi) (he.output y hmem _ hy.value)
      fun d hd => he.outputDerivative y hmem d hd _ (hy.derivative d hd)
  cases hf with
  | input out => exact returns_pure trivial
  | @fullyConnected units width weight bias x y w b ins out hw hb ne =>
    obtain ⟨r, hr, hrb⟩ := he.weight w _ hw
    refine (returns_wantsDerivative 0).bind fun wants _ => ?_
    cases wants with
    | false => exact returns_pure trivial
    | true =>
      refine (hgiven (y := y) rfl out).bind fun dy hdy => ?_
      refine (returns_weight (w := w) (by rw [hh]; rfl) hr hrb).bind fun W hW => ?_
      refine (returns_ofKernel (Tensor.exists_matmul (m := batch) (k := units) (n := width) hdy
        (by rw [Tensor.shape_transpose, hW]))).bind fun v hv => ?_
      exact hback (x := x) rfl ins hv
  | @activation f width x y ins out =>
    refine (returns_output (y := y) (by rw [hh]; rfl) (he.output y (by simp) _ out.value)).bind
      fun t ht => (hgiven (y := y) rfl out).bind fun dy hdy => ?_
    refine (returns_ofKernel (Activation.exists_derivative f (hdy.trans ht.symm))).bind
      fun v hv => ?_
    exact hback (x := x) rfl ins (hv.trans ht)
  | @addition width x y xs ins out =>
    refine (hgiven (y := y) rfl out).bind fun dy hdy => returns_inputCount.bind ?_
    rintro _ rfl
    refine returns_forM fun i hi => ?_
    obtain ⟨x', hget⟩ : ∃ x', view.handles.inputs[i]? = some x' :=
      ⟨_, List.getElem?_eq_getElem (List.mem_range.mp hi)⟩
    rw [hh] at hget
    exact hback hget (ins x' (List.mem_of_getElem? hget)) hdy
  | @multiout width x y ys ins out =>
    refine returns_outputCount.bind ?_
    rintro _ rfl
    refine (returns_sumFrom ⟨batch, width⟩ (by rw [hh]; simp) fun i hi => ?_).bind fun v hv =>
      hback (x := x) rfl ins hv
    obtain ⟨y', hget⟩ : ∃ y', view.handles.outputs[i]? = some y' := ⟨_, List.getElem?_eq_getElem hi⟩
    rw [hh] at hget
    exact hgiven hget (out y' (List.mem_of_getElem? hget))
  | @identity width x y ins out =>
    exact (hgiven (y := y) rfl out).bind fun dy hdy => hback (x := x) rfl ins hdy
  | @loss kind width x y l fused ins out label =>
    refine (returns_output (y := y) (by rw [hh]; rfl) (he.output y (by simp) _ out.value)).bind
      fun t ht => (returns_label (l := l) (by rw [hh]) (he.label l rfl _ label)).bind
        fun target htarget => ?_
    refine (returns_ofKernel (Loss.exists_derivative kind (htarget.trans ht.symm))).bind
      fun v hv => ?_
    exact hback (x := x) rfl ins (hv.trans ht)

end Layer

end LayerGraph
