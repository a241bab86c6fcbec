import LayerGraph.Node

/-!
# Default wiring and activations

A node without inputs that is no graph input reads the node added before it. An activation that is a
property of a node becomes a node of its own behind it, to which the readers of slot 0 are sent.
-/

namespace LayerGraph.Lowering

variable {α : Type}

def wireAfter (previous : String) : List (Node α) → List (Node α)
  | [] => []
  | node :: rest =>
    (if node.inputs.isEmpty && !node.isSource then { node with inputs := [⟨previous, 0⟩] }
      else node) :: wireAfter node.name rest

def wireDefaults : List (Node α) → List (Node α)
  | [] => []
  | first :: rest => first :: wireAfter first.name rest

def activationName (name : String) : String := name ++ "/activation_realized"

/-- Whether the node's activation is to become a node. -/
def splits (node : Node α) : Bool :=
  node.activation != .none && node.layer.activation?.isNone

/-- Send what reads slot 0 of a node to slot 0 of its activation. -/
def redirect (name : String) (conn : Connection) : Connection :=
  if conn.index = 0 ∧ conn.name = name then { conn with name := activationName name } else conn

def redirectNode (name : String) (node : Node α) : Node α :=
  { node with inputs := node.inputs.map (redirect name) }

def activationNode [Zero α] (node : Node α) : Node α :=
  .ofLayer (.activation node.activation) (activationName node.name) [⟨node.name, 0⟩]

/-- Split the activations of the nodes in `rest`, behind the nodes `before` that are done. -/
def splitFrom [Zero α] (before : List (Node α)) :
    List (Node α) → List (Node α)
  | [] => before
  | node :: rest =>
    if splits node then
      splitFrom
        (before.map (redirectNode node.name) ++
          [{ redirectNode node.name node with activation := .none }, activationNode node])
        (rest.map (redirectNode node.name))
    else splitFrom (before ++ [node]) rest
termination_by rest => rest.length

def splitActivations [Zero α] (nodes : List (Node α)) : List (Node α) :=
  splitFrom [] nodes

end LayerGraph.Lowering
