import LayerGraph.Layer.Declaration
import LayerGraph.Layer.Hook
import LayerGraph.Loss

/-!
# Layers

The layers a graph is made of, and what a graph asks of them before it runs: what they declare,
whether they train, and how their output may share the buffer of their input. A custom layer brings
its own answers and hooks.
-/

namespace LayerGraph

/-- How an output may share the buffer of the only input. -/
inductive ReuseSupport where
  | none
  /-- Entry `i` of the input is read for the last time before entry `i` of the output is written. -/
  | entryWise
  /-- The output is the input, which is never written through. -/
  | view
deriving DecidableEq

structure CustomLayer (α : Type) where
  typeName : String
  isTrained : Bool
  isSource : Bool
  reuse : ReuseSupport
  needsOutput : Bool
  activation : Option Activation
  loss : Option Loss
  declare : Site → Except Error (Declaration α)
  forward : Bool → Hook α Unit
  collectGradients : Hook α Unit
  passBack : Hook α Unit

inductive Layer (α : Type) where
  /-- Its output is fed from outside. -/
  | input (width : Nat)
  /-- `Y = X W + b`. -/
  | fullyConnected (units : Nat) (weight bias : Initializer α)
  | activation (f : Activation)
  /-- The sum of any number of inputs of one shape. -/
  | addition
  /-- Copies its input to every output and sums the derivatives that come back. -/
  | multiout
  | identity
  | loss (kind : Loss)
  | custom (layer : CustomLayer α)

namespace Layer

variable {α : Type}

def typeName : Layer α → String
  | input _ => "input"
  | fullyConnected _ _ _ => "fully_connected"
  | activation _ => "activation"
  | addition => "addition"
  | multiout => "multiout"
  | identity => "identity"
  | loss kind => kind.name
  | custom layer => layer.typeName

/-- Whether the layer has weights that can be trained. -/
def isTrained : Layer α → Bool
  | fullyConnected _ _ _ => true
  | custom layer => layer.isTrained
  | _ => false

def isSource : Layer α → Bool
  | input _ => true
  | custom layer => layer.isSource
  | _ => false

def reuse : Layer α → ReuseSupport
  | activation _ => .entryWise
  | multiout | identity => .view
  | loss .mse => .view
  | loss _ => .entryWise
  | custom layer => layer.reuse
  | _ => .none

/-- Whether the layer's own output is read when its derivative is taken. -/
def needsOutput : Layer α → Bool
  | activation _ | loss _ => true
  | custom layer => layer.needsOutput
  | _ => false

def activation? : Layer α → Option Activation
  | activation f => some f
  | custom layer => layer.activation
  | _ => none

def loss? : Layer α → Option Loss
  | loss kind => some kind
  | custom layer => layer.loss
  | _ => none

/-- The declaration of a node before it is restricted to what the node trains. -/
def declaration (layer : Layer α) (site : Site) : Except Error (Declaration α) :=
  match layer with
  | input width => do
    site.requireInputs 0
    if width = 0 then throw (.misconfigured (.emptyInput site.name))
    return .outputs [⟨site.batch, width⟩]
  | fullyConnected units weight bias => do
    let shape ← site.onlyInput
    if units = 0 then throw (.misconfigured (.emptyUnit site.name))
    return {
      outputShapes := [⟨shape.batch, units⟩]
      weights := [
        ⟨"weight", ⟨shape.width, units⟩, weight, true⟩,
        ⟨"bias", ⟨1, units⟩, bias, true⟩]
      tensors := []
      label := none }
  | activation _ | identity => do return .outputs [← site.onlyInput]
  | addition =>
    match site.inputShapes with
    | [] => .error (.misconfigured (.noOperand site.name))
    | first :: rest =>
      match rest.find? (· ≠ first) with
      | some other => .error (.shapeMismatch site.name first other)
      | none => .ok (.outputs [first])
  | multiout => do
    return .outputs (List.replicate (max site.outputCount 1) (← site.onlyInput))
  | loss kind => do
    let shape ← site.onlyInput
    if kind = .cross then throw (.misconfigured (.unfusedKind site.name))
    return { Declaration.outputs [shape] with label := some shape }
  | custom layer => layer.declare site

def declare (layer : Layer α) (site : Site) : Except Error (Declaration α) := do
  return (← layer.declaration site).restrict site.trainable

end Layer

end LayerGraph
