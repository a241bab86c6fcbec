import LayerGraph.Layer.Basic
import LayerGraph.NodeGraph.Basic

/-!
# Nodes

A node is a layer with a name and its wiring, and with what compiling and preparing the network find
out about it.
-/

namespace LayerGraph

/-- How a node uses the buffer of its input. -/
inductive BufferUse where
  /-- The output has a buffer of its own. -/
  | own
  /-- The output is a view of the input. -/
  | view
  /-- The output overwrites the input, which nobody reads any more. -/
  | overwrite
deriving DecidableEq

structure Node (α : Type) where
  name : String
  layer : Layer α
  inputs : List Connection
  /-- The readers of each output slot. -/
  outputs : List (List Connection)
  /-- An activation that is still to become a node of its own. -/
  activation : Activation
  trainable : Bool
  /-- The node whose weights are used instead of own ones. -/
  sharedFrom : Option String
  schedule : Schedule
  /-- A producer of the node takes part in the backward pass. -/
  passesDerivatives : Bool
  collectsGradients : Bool
  bufferUse : BufferUse
  inputShapes : List Shape
  outputShapes : List Shape
  tensors : Handles
  /-- The loss found by the last forward run. -/
  loss : α

namespace Node

variable {α : Type}

def ofLayer [Zero α] (layer : Layer α) (name : String) (inputs : List Connection) :
    Node α where
  name := name
  layer := layer
  inputs := inputs
  outputs := []
  activation := .none
  trainable := true
  sharedFrom := none
  schedule := .oneWay 0
  passesDerivatives := false
  collectsGradients := false
  bufferUse := .own
  inputShapes := []
  outputShapes := []
  tensors := .empty
  loss := 0

def isSource (node : Node α) : Bool := node.layer.isSource

def isLoss (node : Node α) : Bool := node.layer.loss?.isSome

/-- Whether the node has weights to train. -/
def trains (node : Node α) : Bool := node.trainable && node.layer.isTrained

/-- Whether the node takes part in the backward pass. -/
def participates (node : Node α) : Bool :=
  node.passesDerivatives || node.collectsGradients

def outputCount (node : Node α) : Nat := max node.outputs.length 1

/-- Nobody reads the node; its outputs are outputs of the graph. -/
def isTerminal (node : Node α) : Bool := node.outputs.isEmpty

def view (node : Node α) : NodeView := ⟨node.name, node.tensors, node.schedule⟩

def rebatch (batch : Nat) (node : Node α) : Node α :=
  { node with
    inputShapes := node.inputShapes.map (·.rebatch batch)
    outputShapes := node.outputShapes.map (·.rebatch batch) }

instance : Vertex (Node α) where
  name := name
  rename name node := { node with name := name }
  inputs := inputs
  isInput := isSource

end Node

end LayerGraph
