import LayerGraph.Network.Prepare
import LayerGraph.Proofs.Lowering.Basic
import LayerGraph.Proofs.Store.Request

/-!
# What a prepared node holds

A node that is finalized holds handles that fit its layer, and each of its tensors is registered for
the steps at which the node uses it. Both stay true while the tables of the store grow.
-/

namespace LayerGraph

variable {α : Type} {s s' : Store α}

namespace Store

/-- The tensor is data whose rows have this width. -/
def HasWidth (s : Store α) (id : TensorRef) (width : Nat) : Prop :=
  ∃ e, s.backing id = some e ∧ e.role.isData = true ∧ e.shape.width = width

/-- The weight has a value of this shape. -/
def HasWeight (s : Store α) (w : WeightRef) (shape : Shape) : Prop :=
  ∃ r e, s.weights[w]? = some r ∧ s.entries[r.value]? = some e ∧ e.batched = false ∧ e.shape = shape

/-- The value of the weight is in use at the step. -/
def UsesWeight (s : Store α) (w : WeightRef) (t : Nat) : Prop :=
  ∃ r, s.weights[w]? = some r ∧ t ∈ s.stepsOf r.value

/-- A variable and its derivative are data of one width. -/
structure WireFits (s : Store α) (wire : Wire) (width : Nat) : Prop where
  value : s.HasWidth wire.value width
  derivative : ∀ d, wire.derivative = some d → s.HasWidth d width

/-- The tensor is fed from outside. -/
def IsExternal (s : Store α) (id : TensorRef) : Prop :=
  ∃ e, s.entries[id]? = some e ∧ e.source = none ∧ e.role = .external

namespace Extends

variable (h : s.Extends s')
include h

theorem hasWidth {id : TensorRef} {width : Nat} (hw : s.HasWidth id width) :
    s'.HasWidth id width := by
  obtain ⟨e, he, hd, hwidth⟩ := hw
  obtain ⟨e', he', hb⟩ := h.backing he
  exact ⟨e', he', by rw [hb.role]; exact hd, hb.width.trans hwidth⟩

theorem hasWeight {w : WeightRef} {shape : Shape} (hw : s.HasWeight w shape) :
    s'.HasWeight w shape := by
  obtain ⟨r, e, hr, he, hf, hs⟩ := hw
  obtain ⟨r', hr', -, hv, -⟩ := h.weight w r hr
  obtain ⟨e', he', hb⟩ := h.entry _ e he
  exact ⟨r', e', hr', by rw [hv]; exact he', hb.batched.trans hf, (hb.fixed hf).trans hs⟩

theorem usesWeight {w : WeightRef} {t : Nat} (hw : s.UsesWeight w t) : s'.UsesWeight w t := by
  obtain ⟨r, hr, ht⟩ := hw
  obtain ⟨r', hr', -, hvalue, -⟩ := h.weight w r hr
  exact ⟨r', hr', hvalue ▸ h.stepsOf ht⟩

theorem wireFits {wire : Wire} {width : Nat} (hw : s.WireFits wire width) :
    s'.WireFits wire width :=
  ⟨h.hasWidth hw.value, fun d hd => h.hasWidth (hw.derivative d hd)⟩

theorem isExternal {id : TensorRef} (he : s.IsExternal id) : s'.IsExternal id := by
  obtain ⟨e, he, hs, hr⟩ := he
  obtain ⟨e', he', hb⟩ := h.entry id e he
  exact ⟨e', he', hb.source.trans hs, hb.role.trans hr⟩

end Extends

theorem HasWidth.exists_entry {id : TensorRef} {width : Nat} (h : s.HasWidth id width) :
    ∃ e, s.entries[id]? = some e := by
  obtain ⟨e, he, -⟩ := h
  exact (backing_eq_some_iff.mp he).1

theorem HasWidth.shape {batch : Nat} (hr : Registry batch s) {id : TensorRef} {width : Nat}
    (h : s.HasWidth id width) : s.shape id = .ok ⟨batch, width⟩ := by
  obtain ⟨e, he, hd, hw⟩ := h
  have hb := hr.batch _ e (backing_eq_some_iff.mp he).2 hd
  exact shape_eq_ok_iff.mpr ⟨e, he, Shape.eq_of_axes hb hw⟩

/-- A tensor has one width. -/
theorem HasWidth.unique {id : TensorRef} {width width' : Nat} (h : s.HasWidth id width)
    (h' : s.HasWidth id width') : width = width' := by
  obtain ⟨e, he, -, rfl⟩ := h
  obtain ⟨e', he', -, rfl⟩ := h'
  rw [he] at he'
  cases he'
  rfl

/-- A weight has one shape. -/
theorem HasWeight.unique {w : WeightRef} {shape shape' : Shape} (h : s.HasWeight w shape)
    (h' : s.HasWeight w shape') : shape = shape' := by
  obtain ⟨r, e, hr, he, -, rfl⟩ := h
  obtain ⟨r', e', hr', he', -, rfl⟩ := h'
  obtain rfl := Option.some.inj (hr.symm.trans hr')
  rw [Option.some.inj (he.symm.trans he')]

end Store

/-- The handles of a node fit its layer. -/
inductive Fits (s : Store α) : Layer α → Handles → Prop where
  | input {width : Nat} {y : Wire} (out : s.WireFits y width) :
      Fits s (.input width) ⟨[], [y], [], [], none⟩
  | fullyConnected {units width : Nat} {weight bias : Initializer α} {x y : Wire} {w b : WeightRef}
      (ins : s.WireFits x width) (out : s.WireFits y units) (hw : s.HasWeight w ⟨width, units⟩)
      (hb : s.HasWeight b ⟨1, units⟩) (ne : w ≠ b) :
      Fits s (.fullyConnected units weight bias) ⟨[x], [y], [w, b], [], none⟩
  | activation {f : Activation} {width : Nat} {x y : Wire} (ins : s.WireFits x width)
      (out : s.WireFits y width) : Fits s (.activation f) ⟨[x], [y], [], [], none⟩
  | addition {width : Nat} {x y : Wire} {xs : List Wire} (ins : ∀ x' ∈ x :: xs, s.WireFits x' width)
      (out : s.WireFits y width) : Fits s .addition ⟨x :: xs, [y], [], [], none⟩
  | multiout {width : Nat} {x y : Wire} {ys : List Wire} (ins : s.WireFits x width)
      (out : ∀ y' ∈ y :: ys, s.WireFits y' width) : Fits s .multiout ⟨[x], y :: ys, [], [], none⟩
  | identity {width : Nat} {x y : Wire} (ins : s.WireFits x width) (out : s.WireFits y width) :
      Fits s .identity ⟨[x], [y], [], [], none⟩
  | loss {kind : Loss} {width : Nat} {x y : Wire} {l : TensorRef} (fused : kind ≠ .cross)
      (ins : s.WireFits x width) (out : s.WireFits y width) (label : s.HasWidth l width) :
      Fits s (.loss kind) ⟨[x], [y], [], [], some l⟩

theorem Fits.later {layer : Layer α} {handles : Handles} (h : s.Extends s')
    (hf : Fits s layer handles) : Fits s' layer handles := by
  cases hf with
  | input out => exact .input (h.wireFits out)
  | fullyConnected ins out hw hb ne =>
    exact .fullyConnected (h.wireFits ins) (h.wireFits out) (h.hasWeight hw) (h.hasWeight hb) ne
  | activation ins out => exact .activation (h.wireFits ins) (h.wireFits out)
  | addition ins out => exact .addition (fun x hx => h.wireFits (ins x hx)) (h.wireFits out)
  | multiout ins out => exact .multiout (h.wireFits ins) fun y hy => h.wireFits (out y hy)
  | identity ins out => exact .identity (h.wireFits ins) (h.wireFits out)
  | loss fused ins out label =>
    exact .loss fused (h.wireFits ins) (h.wireFits out) (h.hasWidth label)

/-- The width of a node's outputs. -/
theorem Fits.output {layer : Layer α} {handles : Handles} (hf : Fits s layer handles) {y : Wire}
    (hy : y ∈ handles.outputs) : ∃ width, s.WireFits y width := by
  cases hf with
  | input out | fullyConnected _ out | activation _ out | addition _ out | identity _ out
  | loss _ _ out =>
    obtain rfl := List.mem_singleton.mp hy
    exact ⟨_, out⟩
  | multiout ins out => exact ⟨_, out y hy⟩

theorem Fits.input_fits {layer : Layer α} {handles : Handles} (hf : Fits s layer handles) {x : Wire}
    (hx : x ∈ handles.inputs) : ∃ width, s.WireFits x width := by
  cases hf with
  | input out => cases hx
  | fullyConnected ins | activation ins | multiout ins | identity ins | loss _ ins =>
    obtain rfl := List.mem_singleton.mp hx
    exact ⟨_, ins⟩
  | addition ins out => exact ⟨_, ins x hx⟩

theorem Fits.label {layer : Layer α} {handles : Handles} (hf : Fits s layer handles) {l : TensorRef}
    (hl : handles.label = some l) : ∃ width, s.HasWidth l width := by
  cases hf with
  | loss _ _ _ label =>
    cases hl
    exact ⟨_, label⟩
  | input | fullyConnected | activation | addition | multiout | identity => cases hl

theorem Fits.weight {layer : Layer α} {handles : Handles} (hf : Fits s layer handles)
    {w : WeightRef} (hw : w ∈ handles.weights) : ∃ shape, s.HasWeight w shape := by
  cases hf with
  | fullyConnected _ _ hweight hbias =>
    rcases List.mem_cons.mp hw with rfl | hw
    · exact ⟨_, hweight⟩
    · obtain rfl := List.mem_singleton.mp hw
      exact ⟨_, hbias⟩
  | input | activation | addition | multiout | identity | loss => cases hw

/-- The derivative of a node's output overwrites `dx`, that of its first input. -/
def SharesDerivative (use : BufferUse) (inputs : List Wire) (dx : TensorRef) : Prop :=
  use = .overwrite ∧ inputs.head?.bind (·.derivative) = some dx

/-- One output of a node as the store has it. -/
structure Node.HoldsOutput (s : Store α) (size : Nat) (a : Node α) (use : BufferUse)
    (inputs : List Wire) (y : Wire) : Prop where
  source : a.isSource = true → s.IsExternal y.value
  writes : a.isSource = false → ∀ t ∈ Network.outputSteps a size s.maxStep, t ∈ s.stepsOf y.value
  own : use = .own ∨ inputs = [] → s.rootOf y.value = y.value
  shares : use ≠ .own → ∀ x, inputs.head? = some x → s.rootOf y.value = s.rootOf x.value
  takes : y.derivative.isSome = (a.participates && !a.isTerminal && !a.isSource)
  taken : ∀ d, y.derivative = some d → ∀ t ∈ a.schedule.returnSteps, t ∈ s.stepsOf d
  sharesDerivative : ∀ d dx, y.derivative = some d → SharesDerivative use inputs dx →
    s.rootOf d = s.rootOf dx
  ownDerivative : ∀ d, y.derivative = some d → (∀ dx, ¬ SharesDerivative use inputs dx) →
    s.rootOf d = d

/-- The node whose name stands before those of the weights: the one that they are shared from, or
else the node itself. -/
def Node.owner (a : Node α) : String := a.sharedFrom.getD a.name

/-- The names of a layer's weights within the node that owns them. -/
def Layer.weightNames : Layer α → List String
  | fullyConnected _ _ _ => ["weight", "bias"]
  | _ => []

/-- The weight is registered under this name. -/
def Store.HasWeightName (s : Store α) (w : WeightRef) (name : String) : Prop :=
  ∃ r, s.weights[w]? = some r ∧ r.name = name

/-- A node as the store has it. -/
structure Node.Holds (s : Store α) (size : Nat) (a : Node α) : Prop where
  fits : Fits s a.layer a.tensors
  reads : ∀ x ∈ a.tensors.inputs, ∀ t ∈ Network.readSteps a, t ∈ s.stepsOf x.value
  returns : ∀ x ∈ a.tensors.inputs, ∀ d t, x.derivative = some d →
    a.schedule.derivativeStep = some t → t ∈ s.stepsOf d
  outputs : ∀ y ∈ a.tensors.outputs, a.HoldsOutput s size a.bufferUse a.tensors.inputs y
  slots : a.isTerminal = false → a.tensors.outputs.length ≤ a.outputs.length
  label : ∀ l, a.tensors.label = some l → s.IsExternal l
  weights : List.Forall₂ (fun name w => s.HasWeightName w (a.owner ++ ":" ++ name))
    a.layer.weightNames a.tensors.weights
  uses : ∀ w ∈ a.tensors.weights, s.UsesWeight w a.schedule.forward

theorem Store.Extends.hasWeightName (h : s.Extends s') {w : WeightRef} {name : String}
    (hw : s.HasWeightName w name) : s'.HasWeightName w name := by
  obtain ⟨r, hr, rfl⟩ := hw
  obtain ⟨r', hr', hname, -⟩ := h.weight w r hr
  exact ⟨r', hr', hname⟩

theorem Node.HoldsOutput.later {size : Nat} {a : Node α} {use : BufferUse} {inputs : List Wire}
    {y : Wire} (h : s.Extends s') (hy : ∃ width, s.WireFits y width)
    (hx : ∀ x ∈ inputs, ∃ width, s.WireFits x width) (ho : a.HoldsOutput s size use inputs y) :
    a.HoldsOutput s' size use inputs y := by
  have hroot : ∀ {id width}, s.HasWidth id width → s'.rootOf id = s.rootOf id := fun hw => by
    obtain ⟨e, he⟩ := hw.exists_entry
    exact h.rootOf he
  obtain ⟨width, hy⟩ := hy
  constructor
  · exact fun hs => h.isExternal (ho.source hs)
  · intro hs t ht
    rw [h.maxStep] at ht
    exact h.stepsOf (ho.writes hs t ht)
  · intro hu
    rw [hroot hy.value]
    exact ho.own hu
  · intro hu x hhead
    obtain ⟨width', hx⟩ := hx x (List.mem_of_head? hhead)
    rw [hroot hy.value, hroot hx.value]
    exact ho.shares hu x hhead
  · exact ho.takes
  · exact fun d hd t ht => h.stepsOf (ho.taken d hd t ht)
  · intro d dx hd hshare
    obtain ⟨x, hhead, hxd⟩ := Option.bind_eq_some_iff.mp hshare.2
    obtain ⟨width', hx⟩ := hx x (List.mem_of_head? hhead)
    rw [hroot (hy.derivative d hd), hroot (hx.derivative dx hxd)]
    exact ho.sharesDerivative d dx hd hshare
  · intro d hd hshare
    rw [hroot (hy.derivative d hd)]
    exact ho.ownDerivative d hd hshare

theorem Node.Holds.later {size : Nat} {a : Node α} (h : s.Extends s') (ha : a.Holds s size) :
    a.Holds s' size where
  fits := ha.fits.later h
  reads x hx t ht := h.stepsOf (ha.reads x hx t ht)
  returns x hx d t hd ht := h.stepsOf (ha.returns x hx d t hd ht)
  outputs y hy := (ha.outputs y hy).later h (ha.fits.output hy) fun _ hx => ha.fits.input_fits hx
  slots := ha.slots
  label l hl := h.isExternal (ha.label l hl)
  weights := ha.weights.imp fun _ _ hw => h.hasWeightName hw
  uses w hw := h.usesWeight (ha.uses w hw)

end LayerGraph
