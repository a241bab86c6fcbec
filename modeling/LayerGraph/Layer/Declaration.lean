import LayerGraph.Initializer
import LayerGraph.Timeline

/-!
# Declarations

When a node is finalized its layer is told the shapes of its inputs, and declares the shapes of its
outputs and the buffers it needs.
-/

namespace LayerGraph

/-- What a layer is told about its node. -/
structure Site where
  name : String
  inputShapes : List Shape
  /-- The number of output slots that are wired. -/
  outputCount : Nat
  batch : Nat
  trainable : Bool

structure WeightDecl (α : Type) where
  /-- The name within the node that owns the weight. -/
  name : String
  shape : Shape
  initializer : Initializer α
  trainable : Bool

structure ScratchDecl (α : Type) where
  name : String
  shape : Shape
  initializer : Initializer α
  lifetime : Lifetime

structure Declaration (α : Type) where
  outputShapes : List Shape
  weights : List (WeightDecl α)
  tensors : List (ScratchDecl α)
  /-- The shape of the label, if the layer reads one. -/
  label : Option Shape

namespace Declaration

variable {α : Type}

/-- Outputs and nothing else. -/
def outputs (shapes : List Shape) : Declaration α := ⟨shapes, [], [], none⟩

/-- A node that is not trainable trains none of its weights. -/
def restrict (d : Declaration α) (trainable : Bool) : Declaration α :=
  { d with weights := d.weights.map fun w => { w with trainable := w.trainable && trainable } }

end Declaration

namespace Site

def requireInputs (site : Site) (count : Nat) : Except Error Unit :=
  if site.inputShapes.length = count then .ok ()
  else .error (.misconfigured (.operandCount site.name count site.inputShapes.length))

/-- The shape of the only input. -/
def onlyInput (site : Site) : Except Error Shape :=
  match site.inputShapes with
  | [shape] => .ok shape
  | shapes => .error (.misconfigured (.operandCount site.name 1 shapes.length))

end Site

end LayerGraph
