import LayerGraph.Network.Growth

/-!
# Descriptions

A graph can be described: a list of nodes, each with its layer and its wiring, and the kind of loss
to compile it with.
-/

namespace LayerGraph

inductive LayerDescription (α : Type) where
  | input (inputShape : Nat)
  | fullyConnected (unit : Nat) (weight bias : Initializer α)
  /-- Applies the activation of the node it belongs to. -/
  | activation
  | addition
  | multiout
  | identity
  | loss (kind : Loss)
deriving DecidableEq

namespace LayerDescription

variable {α : Type}

def typeName : LayerDescription α → String
  | input _ => "input"
  | fullyConnected _ _ _ => "fully_connected"
  | activation => "activation"
  | addition => "addition"
  | multiout => "multiout"
  | identity => "identity"
  | loss kind => kind.name

/-- The layer; the activation matters to activation layers only. -/
def build (description : LayerDescription α) (f : Activation) : Layer α :=
  match description with
  | input inputShape => .input inputShape
  | fullyConnected unit weight bias => .fullyConnected unit weight bias
  | activation => .activation f
  | addition => .addition
  | multiout => .multiout
  | identity => .identity
  | loss kind => .loss kind

end LayerDescription

structure NodeDescription (α : Type) where
  name : Option String
  /-- What the node reads, each as `name` or `name(index)`. -/
  inputs : List String
  activation : Activation
  trainable : Bool
  sharedFrom : Option String
  layer : LayerDescription α
deriving DecidableEq

/-- The activation of an activation layer is part of the layer, that of any other a property of the
node. -/
def NodeDescription.toNode {α : Type} [Zero α] (description : NodeDescription α) :
    Except Error (Node α) := do
  let inputs ← description.inputs.mapM Connection.parse
  let isActivation := match description.layer with | .activation => true | _ => false
  return {
    Node.ofLayer (description.layer.build description.activation)
      (description.name.getD "") inputs with
    activation := if isActivation then .none else description.activation
    trainable := description.trainable
    sharedFrom := description.sharedFrom }

structure NetworkDescription (α : Type) where
  layers : List (NodeDescription α)
  loss : Option String
deriving DecidableEq

/-- A network with the described nodes, not compiled yet. -/
def Network.ofDescription {α : Type} [Zero α] (description : NetworkDescription α)
    (settings : NetworkSettings) : Except Error (Network α) :=
  let action : Action (Network α) Unit := description.layers.forM fun node => do
    add (← Action.read fun _ => node.toNode)
  match action (.ofSettings settings) with
  | .ok _ network => .ok network
  | .error e _ => .error e

end LayerGraph
