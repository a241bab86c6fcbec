import LayerGraph.Node

/-!
# Reusing the input's buffer

A node that writes entry by entry may overwrite its input if nobody else reads that buffer once the
node has run, in the forward pass or in the backward pass. The buffer is followed through producers
that share it with their own input.
-/

namespace LayerGraph.Reuse

variable {α : Type}

/-- Whether one reader is the only one to touch the node's output once it is written. -/
def isReadOnce (node : Node α) : Bool :=
  !node.isSource && !(node.layer.needsOutput && node.participates) &&
    match node.outputs with
    | [readers] => readers.length == 1
    | _ => false

/-- Follow first producers up from a node until one has a buffer of its own. On a graph without
cycles the walk is shorter than the number of nodes, which bounds it. -/
def followBuffer (g : NodeGraph (Node α)) : Nat → Node α → Except Error BufferUse
  | 0, _ => .ok .own
  | bound + 1, node => do
    match (← g.producersOf node).head? with
    | none => return .own
    | some id =>
      match g.nodes[id]? with
      | none => throw (.staleHandle id)
      | some producer =>
        if !isReadOnce producer then return .own
        else if producer.bufferUse = .own then return .overwrite
        else followBuffer g bound producer

/-- How a node may share the buffer of its input, given what was decided for its producers. -/
def decide (g : NodeGraph (Node α)) (node : Node α) : Except Error BufferUse :=
  if node.inputs.length ≠ 1 then .ok .own
  else
    match node.layer.reuse with
    | .none => .ok .own
    | .view => .ok .view
    | .entryWise =>
      if node.outputCount ≠ 1 then .ok .own else followBuffer g g.size node

end LayerGraph.Reuse
