import LayerGraph.Proofs.Layer.Writes
import LayerGraph.Proofs.Lockstep
import LayerGraph.Proofs.Store.Frame

/-!
# What layers read and write

The hooks of a layer read and write the buffers that the handles of their node name, and no others:
they run the same on a store from which all others are gone. So do the updates of weights.
-/

namespace LayerGraph

variable {α β γ τ : Type}

namespace Hook

section Blind

variable [Scalar α] {s₀ : Store α} {live : TensorRef → Bool} {view : NodeView}

/-- On stores of this layout, the hook of the node runs the same without the buffers of other roots
than these. -/
def Blind (s₀ : Store α) (live : TensorRef → Bool) (view : NodeView) (hook : Hook α β) : Prop :=
  Action.Blind (fun s : HookState α => s₀.SameLayout s.store)
    (fun s => { s with store := s.store.only live }) (hook view)

omit [Scalar α] in
theorem blind_pure (b : β) : Blind s₀ live view (pure b : Hook α β) := Action.blind_pure b

omit [Scalar α] in
theorem Blind.bind {hook : Hook α β} {f : β → Hook α γ} (h : Blind s₀ live view hook)
    (hf : ∀ b, Blind s₀ live view (f b)) : Blind s₀ live view (hook >>= f) :=
  Action.Blind.bind h fun _ b _ _ _ => hf b

omit [Scalar α] in
theorem blind_fail (fault : LayerFault) : Blind s₀ live view (fail fault : Hook α β) :=
  Action.blind_throw _

omit [Scalar α] in
theorem blind_readStore {f : Store α → Except Error β}
    (hf : ∀ s, s₀.SameLayout s → f (s.only live) = f s) : Blind s₀ live view (readStore f) :=
  (Action.blind_read hf).focus (fun _ h => h) (fun _ _ _ h => h) (fun _ _ => rfl) fun _ _ _ _ => rfl

theorem blind_get {id : TensorRef} (h : live (s₀.rootOf id) = true) :
    Blind s₀ live view (readStore (α := α) (·.get id)) :=
  blind_readStore fun _ hs => Store.get_only (by rwa [hs.rootOf])

omit [Scalar α] in
theorem blind_write {id : TensorRef} (h : live (s₀.rootOf id) = true) (v : Tensor α) :
    Action.Blind s₀.SameLayout (Store.only live) (Store.write id v) :=
  Action.blind_update (Action.keeps_update fun _ _ hs hset => hs.trans
    (Store.sameLayout_of_set hset)) fun _ hs =>
    Store.set_only (by rwa [hs.rootOf])

omit [Scalar α] in
theorem Blind.ofStore {p : Action (Store α) β}
    (h : Action.Blind s₀.SameLayout (Store.only live) p) : Blind s₀ live view (ofStore p) :=
  Action.Blind.focus h (fun _ h => h) (fun _ _ _ h => h) (fun _ _ => rfl) fun _ _ _ _ => rfl

omit [Scalar α] in
theorem view_bind (f : NodeView → Hook α β) : ((read : Hook α NodeView) >>= f) view = f view view :=
  rfl

omit [Scalar α] in
/-- What is done with a handle has to be blind for the handle of the node. -/
theorem Blind.handle {list : Handles → List γ} {what : Operand} {i : Nat} {f : γ → Hook α β}
    (hf : ∀ h, (list view.handles)[i]? = some h → Blind s₀ live view (f h)) :
    Blind s₀ live view (handle list what i >>= f) := by
  show Action.Blind _ _ ((Hook.handle list what i : Hook α γ) view >>= fun h => f h view)
  unfold Hook.handle
  rw [view_bind]
  cases hi : (list view.handles)[i]? with
  | some h => exact hf h hi
  | none => exact Action.Blind.bind (blind_fail _) fun s b s' _ hfail => by cases hfail

omit [Scalar α] in
theorem Blind.ofView {f : NodeView → Hook α β} (h : Blind s₀ live view (f view)) :
    Blind s₀ live view ((read : Hook α NodeView) >>= f) := h

end Blind

section Accessors

variable [Scalar α] {s₀ : Store α} {live : TensorRef → Bool} {view : NodeView}

omit [Scalar α] in
theorem blind_inputCount : Blind s₀ live view (inputCount : Hook α Nat) := Action.blind_pure _

omit [Scalar α] in
theorem blind_outputCount : Blind s₀ live view (outputCount : Hook α Nat) := Action.blind_pure _

omit [Scalar α] in
theorem blind_wantsDerivative (i : Nat) : Blind s₀ live view (wantsDerivative i : Hook α Bool) :=
  Action.blind_pure _

omit [Scalar α] in
theorem blind_trainsWeight (i : Nat) : Blind s₀ live view (trainsWeight i : Hook α Bool) := by
  refine .ofView ?_
  cases view.handles.weights[i]? with
  | some w => exact blind_readStore fun _ _ => rfl
  | none => exact blind_pure false

omit [Scalar α] in
theorem blind_recordLoss (loss : α) : Blind s₀ live view (recordLoss loss) :=
  Action.blind_modify (fun _ h => h) fun _ _ => rfl

omit [Scalar α] in
theorem blind_ofKernel (result : Except Error β) :
    Blind s₀ live view (Layer.ofKernel result : Hook α β) :=
  Action.blind_read fun _ _ => rfl

theorem blind_input (h : ∀ x ∈ view.handles.inputs, live (s₀.rootOf x.value) = true) (i : Nat) :
    Blind s₀ live view (input i : Hook α (Tensor α)) :=
  .handle fun x hx => blind_get (h x (List.mem_of_getElem? hx))

theorem blind_output (h : ∀ y ∈ view.handles.outputs, live (s₀.rootOf y.value) = true) (i : Nat) :
    Blind s₀ live view (output i : Hook α (Tensor α)) :=
  .handle fun y hy => blind_get (h y (List.mem_of_getElem? hy))

omit [Scalar α] in
theorem blind_writeOutput (h : ∀ y ∈ view.handles.outputs, live (s₀.rootOf y.value) = true)
    (i : Nat) (v : Tensor α) : Blind s₀ live view (writeOutput i v) :=
  .handle fun y hy => .ofStore (blind_write (h y (List.mem_of_getElem? hy)) v)

theorem blind_outputDerivative
    (h : ∀ y ∈ view.handles.outputs, ∀ d, y.derivative = some d → live (s₀.rootOf d) = true)
    (i : Nat) : Blind s₀ live view (outputDerivative i : Hook α (Tensor α)) := by
  refine .handle fun y hy => ?_
  cases hd : y.derivative with
  | some d => exact blind_get (h y (List.mem_of_getElem? hy) d hd)
  | none => exact (blind_readStore fun _ _ => rfl).bind fun _ => blind_pure _

omit [Scalar α] in
theorem blind_writeInputDerivative
    (h : ∀ x ∈ view.handles.inputs, ∀ d, x.derivative = some d → live (s₀.rootOf d) = true)
    (i : Nat) (v : Tensor α) : Blind s₀ live view (writeInputDerivative i v) := by
  refine .handle fun x hx => ?_
  cases hd : x.derivative with
  | some d => exact .ofStore (blind_write (h x (List.mem_of_getElem? hx) d hd) v)
  | none => exact blind_pure _

theorem blind_weight
    (h : ∀ w ∈ view.handles.weights, ∀ r, s₀.weights[w]? = some r → live (s₀.rootOf r.value) = true)
    (i : Nat) : Blind s₀ live view (weight i : Hook α (Tensor α)) := by
  refine .handle fun w hw => blind_readStore fun s hs => ?_
  rw [show (s.only live).weight w = s.weight w from rfl, hs.weight]
  cases hr : s₀.weight w with
  | error e => rfl
  | ok r =>
    rw [except_ok_bind, except_ok_bind]
    refine Store.get_only ?_
    rw [hs.rootOf]
    exact h w (List.mem_of_getElem? hw) r (Store.weight_eq_ok_iff.mp hr)

theorem blind_label (h : ∀ id, view.handles.label = some id → live (s₀.rootOf id) = true) :
    Blind s₀ live view (label : Hook α (Tensor α)) := by
  refine .ofView ?_
  cases hl : view.handles.label with
  | some id => exact blind_get (h id hl)
  | none => exact blind_fail _

theorem blind_addGradient
    (h : ∀ w ∈ view.handles.weights, ∀ r d, s₀.weights[w]? = some r → r.gradient = some d →
      live (s₀.rootOf d) = true) (i : Nat) (v : Tensor α) :
    Blind s₀ live view (addGradient i v) := by
  refine .handle fun w hw => .ofView ?_
  cases view.schedule.gradientStep with
  | none => exact blind_pure _
  | some step =>
    refine Blind.ofStore (Action.Blind.bind (Action.blind_read fun _ _ => rfl)
      fun s r _ hs hr => ?_)
    have hr := Store.weight_eq_ok_iff.mp ((hs.weight w).symm.trans (Action.read_eq_ok_iff.mp hr).1)
    cases hd : r.gradient with
    | none => exact Action.blind_pure _
    | some d =>
      have hlive := h w (List.mem_of_getElem? hw) r d hr hd
      dsimp only
      split
      · exact blind_write hlive v
      · refine Action.Blind.bind (Action.blind_read fun s hs => ?_) fun _ sum _ _ _ =>
          blind_write hlive sum
        rw [Store.get_only (by rwa [hs.rootOf])]

end Accessors

section Loops

variable {s₀ : Store α} {live : TensorRef → Bool} {view : NodeView}

theorem blind_foldlM {f : γ → β → Hook α γ} {xs : List β} (hf : ∀ c x, Blind s₀ live view (f c x)) :
    ∀ c, Blind s₀ live view (xs.foldlM f c) := by
  induction xs with
  | nil => exact fun c => blind_pure c
  | cons x xs ih =>
    intro c
    rw [List.foldlM_cons]
    exact (hf c x).bind fun d => ih d

theorem blind_forM {f : β → Hook α PUnit} {xs : List β} (hf : ∀ x, Blind s₀ live view (f x)) :
    Blind s₀ live view (xs.forM f) := by
  induction xs with
  | nil => exact blind_pure _
  | cons x xs ih =>
    simp only [List.forM_eq_forM, List.forM_cons] at ih ⊢
    exact (hf x).bind fun _ => ih

end Loops

end Hook

namespace Layer

open Hook

/-- What a layer that runs forward reads and writes is among these roots. -/
structure LiveForward (s : Store α) (live : TensorRef → Bool) (h : Handles) : Prop where
  inputs : ∀ x ∈ h.inputs, live (s.rootOf x.value) = true
  outputs : ∀ y ∈ h.outputs, live (s.rootOf y.value) = true
  weights : ∀ w ∈ h.weights, ∀ r, s.weights[w]? = some r → live (s.rootOf r.value) = true
  label : ∀ id, h.label = some id → live (s.rootOf id) = true

/-- What a layer that adds to the gradients of its weights reads and writes is among these roots. -/
structure LiveCollect (s : Store α) (live : TensorRef → Bool) (h : Handles) : Prop where
  inputs : ∀ x ∈ h.inputs, live (s.rootOf x.value) = true
  taken : ∀ y ∈ h.outputs, ∀ d, y.derivative = some d → live (s.rootOf d) = true
  gradients : ∀ w ∈ h.weights, ∀ r d, s.weights[w]? = some r → r.gradient = some d →
    live (s.rootOf d) = true

/-- What a layer that passes derivatives back reads and writes is among these roots. -/
structure LivePassBack (layer : Layer α) (s : Store α) (live : TensorRef → Bool) (h : Handles) :
    Prop where
  outputs : layer.needsOutput = true → ∀ y ∈ h.outputs, live (s.rootOf y.value) = true
  taken : ∀ y ∈ h.outputs, ∀ d, y.derivative = some d → live (s.rootOf d) = true
  given : ∀ x ∈ h.inputs, ∀ d, x.derivative = some d → live (s.rootOf d) = true
  weights : ∀ w ∈ h.weights, ∀ r, s.weights[w]? = some r → live (s.rootOf r.value) = true
  label : ∀ id, h.label = some id → live (s.rootOf id) = true

variable [Scalar α] {s : Store α} {live : TensorRef → Bool} {view : NodeView} {layer : Layer α}

theorem blind_sumFrom {operand : Nat → Hook α (Tensor α)}
    (ho : ∀ i, Hook.Blind s live view (operand i)) (count : Nat) :
    Hook.Blind s live view (sumFrom operand count) :=
  (ho 0).bind fun first => blind_foldlM (fun _ i => (ho i).bind fun _ => blind_ofKernel _) first

theorem blind_forward (hship : layer.isShipped = true) (h : LiveForward s live view.handles)
    (training : Bool) : Hook.Blind s live view (layer.forward training) := by
  have hin := blind_input (α := α) h.inputs
  have hout := blind_writeOutput (α := α) h.outputs
  have hweight := blind_weight h.weights
  cases layer with
  | input width => exact blind_pure _
  | fullyConnected units weight bias =>
    exact (hin 0).bind fun _ => (hweight 0).bind fun _ => (blind_ofKernel _).bind fun _ =>
      (hweight 1).bind fun _ => (blind_ofKernel _).bind fun _ => hout 0 _
  | activation f => exact (hin 0).bind fun _ => hout 0 _
  | addition => exact blind_inputCount.bind fun n => (blind_sumFrom hin n).bind fun _ => hout 0 _
  | multiout =>
    exact (hin 0).bind fun x => blind_outputCount.bind fun n => blind_forM fun i => hout i x
  | identity => exact (hin 0).bind fun _ => hout 0 _
  | loss kind =>
    exact (hin 0).bind fun _ => (hout 0 _).bind fun _ => (blind_label h.label).bind fun _ =>
      (blind_ofKernel _).bind fun _ => blind_recordLoss _
  | custom layer => cases hship

theorem blind_collectGradients (hship : layer.isShipped = true)
    (h : LiveCollect s live view.handles) : Hook.Blind s live view layer.collectGradients := by
  cases layer with
  | fullyConnected units weight bias =>
    refine (blind_outputDerivative h.taken 0).bind fun dy => (blind_trainsWeight 0).bind fun t₀ =>
      ?_
    have hrest : Hook.Blind s live view (do if ← trainsWeight 1
        then addGradient 1 dy.columnSums) := by
      refine (blind_trainsWeight 1).bind fun t₁ => ?_
      cases t₁ with
      | true => exact blind_addGradient h.gradients 1 _
      | false => exact blind_pure _
    cases t₀ with
    | true =>
      exact (blind_input h.inputs 0).bind fun _ => (blind_ofKernel _).bind fun _ =>
        (blind_addGradient h.gradients 0 _).bind fun _ => hrest
    | false => exact hrest
  | custom layer => cases hship
  | input | activation | addition | multiout | identity | loss => exact blind_pure _

theorem blind_passBack (hship : layer.isShipped = true)
    (h : LivePassBack layer s live view.handles) : Hook.Blind s live view layer.passBack := by
  have htaken := blind_outputDerivative h.taken
  have hgiven := blind_writeInputDerivative (α := α) h.given
  cases layer with
  | input width => exact blind_pure _
  | fullyConnected units weight bias =>
    refine (blind_wantsDerivative 0).bind fun wants => ?_
    cases wants with
    | true =>
      exact (htaken 0).bind fun _ => (blind_weight h.weights 0).bind fun _ =>
        (blind_ofKernel _).bind fun _ => hgiven 0 _
    | false => exact blind_pure _
  | activation f =>
    exact (blind_output (h.outputs rfl) 0).bind fun _ => (htaken 0).bind fun _ =>
      (blind_ofKernel _).bind fun _ => hgiven 0 _
  | addition =>
    exact (htaken 0).bind fun dy => blind_inputCount.bind fun n => blind_forM fun i => hgiven i dy
  | multiout =>
    exact blind_outputCount.bind fun n => (blind_sumFrom htaken n).bind fun _ => hgiven 0 _
  | identity => exact (htaken 0).bind fun _ => hgiven 0 _
  | loss kind =>
    exact (blind_output (h.outputs rfl) 0).bind fun _ => (blind_label h.label).bind fun _ =>
      (blind_ofKernel _).bind fun _ => hgiven 0 _
  | custom layer => cases hship

end Layer

namespace Store

/-- What an update of a weight reads and writes is among these roots. -/
structure LiveUpdate (s : Store α) (live : TensorRef → Bool) (r : WeightRecord) : Prop where
  value : live (s.rootOf r.value) = true
  gradient : ∀ d, r.gradient = some d → live (s.rootOf d) = true
  state : ∀ id ∈ r.optimizerState, live (s.rootOf id) = true

variable [Scalar α] {s s₀ : Store α} {live : TensorRef → Bool} {w : WeightRef}

theorem mapM_get_only {ids : List TensorRef} (h : ∀ id ∈ ids, live (s.rootOf id) = true) :
    ids.mapM (s.only live).get = ids.mapM s.get := by
  induction ids with
  | nil => rfl
  | cons id ids ih =>
    rw [List.mapM_cons, List.mapM_cons, get_only (h id List.mem_cons_self),
      ih fun id hid => h id (List.mem_cons_of_mem _ hid)]

theorem update?_only (h : ∀ r, s.weights[w]? = some r → s.LiveUpdate live r) :
    (s.only live).update? w = s.update? w := by
  unfold update?
  rw [show (s.only live).weight w = s.weight w from rfl]
  cases hr : s.weight w with
  | error e => rfl
  | ok r =>
    have hlive := h r (weight_eq_ok_iff.mp hr)
    rw [except_ok_bind, except_ok_bind]
    cases hd : r.gradient with
    | none => rfl
    | some d =>
      simp only [get_only hlive.value, get_only (hlive.gradient d hd), mapM_get_only hlive.state]

omit [Scalar α] in
theorem blind_writeBack {value : TensorRef} {state : List TensorRef}
    (hvalue : live (s₀.rootOf value) = true) (hstate : ∀ id ∈ state, live (s₀.rootOf id) = true)
    (update : WeightState α) :
    Action.Blind s₀.SameLayout (Store.only live) (writeBack update value state) :=
  (Hook.blind_write hvalue _).bind fun _ _ _ _ _ => Action.blind_forM fun p hp =>
    Hook.blind_write (hstate p.1 (List.of_mem_zip hp).1) p.2

theorem blind_revise (h : ∀ r, s₀.weights[w]? = some r → s₀.LiveUpdate live r)
    (rule : WeightState α → Action τ (WeightState α)) :
    Action.Blind (fun s : τ × Store α => s₀.SameLayout s.2) (fun s => (s.1, s.2.only live))
      (revise w rule) := by
  refine Action.Blind.bind (Action.blind_read fun s hs => update?_only fun r hr => ?_)
    fun s found _ hs hfound => ?_
  · rw [hs.weights] at hr
    have hlive := h r hr
    exact ⟨by rw [hs.rootOf]; exact hlive.value, fun d hd => by
      rw [hs.rootOf]; exact hlive.gradient d hd,
      fun id hid => by rw [hs.rootOf]; exact hlive.state id hid⟩
  cases found with
  | none => exact Action.blind_pure _
  | some found =>
    obtain ⟨update, value, state⟩ := found
    obtain ⟨r, hr, rfl, rfl⟩ := update?_eq_some (Action.read_eq_ok_iff.mp hfound).1
    rw [hs.weights] at hr
    refine Action.Blind.bind ((Action.blind_id (rule update)).focus (fun _ _ => trivial)
      (fun _ _ hs _ => hs) (fun _ _ => rfl) fun _ _ _ _ => rfl) fun _ updated _ _ _ => ?_
    exact (blind_writeBack (h r hr).value (h r hr).state updated).focus (fun _ hs => hs)
      (fun _ _ _ hr => hr) (fun _ _ => rfl) fun _ _ _ _ => rfl

end Store

/-- An update is made of a weight at the last step that adds to its gradient. -/
theorem Network.blind_applyComplete [Scalar α] {s₀ : Store α} {live : TensorRef → Bool}
    {node : Node α}
    (h : ∀ step, node.schedule.gradientStep = some step →
      ∀ w ∈ node.tensors.weights, ∀ r, s₀.weights[w]? = some r → step ∈ r.gradientSteps →
      s₀.LiveUpdate live r) (rule : WeightState α → Action τ (WeightState α)) :
    Action.Blind (fun s : τ × Store α => s₀.SameLayout s.2) (fun s => (s.1, s.2.only live))
      (applyComplete node rule) := by
  unfold applyComplete
  cases hstep : node.schedule.gradientStep with
  | none => exact Action.blind_pure _
  | some step =>
    refine Action.blind_foldlM (fun applied w hw => ?_) 0
    refine Action.Blind.bind (Action.blind_read fun _ _ => rfl) fun s last _ hs hlast => ?_
    cases last with
    | false => exact Action.blind_pure _
    | true =>
      refine (Store.blind_revise (fun r hr => h step hstep w hw r hr ?_) rule).bind fun _ _ _ _ _ =>
        Action.blind_pure _
      obtain ⟨t, -, hlast⟩ := except_bind_eq_ok_iff.mp (Action.read_eq_ok_iff.mp hlast).1
      obtain ⟨l, hl, hlast⟩ := except_bind_eq_ok_iff.mp hlast
      obtain ⟨r', hr', hl⟩ := except_bind_eq_ok_iff.mp hl
      obtain rfl :=
        Option.some.inj (hr.symm.trans (Store.weight_eq_ok_iff.mp ((hs.weight w).symm.trans hr')))
      cases hl
      have hmax := (Bool.and_eq_true_iff.mp (Except.ok.inj hlast)).2
      exact List.max?_mem (of_decide_eq_true hmax)

end LayerGraph
