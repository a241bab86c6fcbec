import LayerGraph.Network.Basic
import LayerGraph.Reuse

/-!
# Compiling

What the nodes leave implicit is made explicit, and they are put in order and checked; then every
node learns whether it takes part in the backward pass, when it runs, and whether it may run in
place.
-/

namespace LayerGraph.Network

variable {α : Type}

def checkCompilable (n : Network α) : Except Error Unit :=
  if n.graph.isEmpty then .error .noLayers
  else if !n.graph.nodes.any (·.isSource) then .error (.misconfigured .noInputLayer)
  else if !n.graph.nodes.any (·.isTerminal) then .error (.misconfigured .noOutputLayer)
  else .ok ()

/-- Every producer of a node stands before it. -/
def checkPlace (g : NodeGraph (Node α)) (place : Nat) (id : NodeRef) : Except Error Unit := do
  (← g.producers id).forM fun producer =>
    if g.order.idxOf producer < place then pure ()
    else throw (.invalidOrder (.beforeInput (g.nameOf id) (g.nameOf producer)))

/-- The order covers all nodes, no node runs before a producer, and a graph input runs first. -/
def checkOrder (n : Network α) : Except Error Unit := do
  let g := n.graph
  if g.order.length ≠ g.size then throw (.invalidOrder .incomplete)
  g.order.zipIdx.forM fun (id, place) => checkPlace g place id
  match g.sortedNode? 0 with
  | some first =>
    if first.isSource then return else throw (.invalidOrder .firstNotInput)
  | none => throw (.invalidOrder .firstNotInput)

/-- A graph in which some nodes have learned whether they take part in the backward pass, and those
of them that do. -/
structure Marking (α : Type) where
  graph : NodeGraph (Node α)
  participating : List NodeRef

/-- A node takes part if it is trainable or if a producer of it does. -/
def markNode (m : Marking α) (id : NodeRef) : Except Error (Marking α) := do
  let fromProducers := (← m.graph.producers id).any (· ∈ m.participating)
  let trainable := (m.graph.nodes[id]?.map (·.trains)).getD false
  return {
    graph := m.graph.modifyNode id fun node =>
      { node with collectsGradients := trainable, passesDerivatives := fromProducers }
    participating :=
      if trainable || fromProducers then id :: m.participating else m.participating }

def markBackward (g : NodeGraph (Node α)) : Except Error (NodeGraph (Node α)) := do
  return (← g.order.foldlM markNode ⟨g, []⟩).graph

/-- The nodes of the backward pass in the order in which they run. -/
def backwardIds (g : NodeGraph (Node α)) : List NodeRef :=
  g.order.reverse.filter fun id => (g.nodes[id]?.map (·.participates)).getD false

def scheduleOf (g : NodeGraph (Node α)) (id : NodeRef) : Schedule :=
  match (backwardIds g).idxOf? id with
  | some rank => .bothWays (g.order.idxOf id) rank g.size
  | none => .oneWay (g.order.idxOf id)

def scheduleAll (g : NodeGraph (Node α)) : NodeGraph (Node α) :=
  { g with
    nodes := g.nodes.zipIdx.map fun (node, id) => { node with schedule := scheduleOf g id } }

/-- The last step of an iteration. -/
def lastStep (g : NodeGraph (Node α)) : Nat :=
  if (backwardIds g).isEmpty then g.size - 1 else g.size + 2 * (backwardIds g).length - 1

def decideNode (g : NodeGraph (Node α)) (id : NodeRef) :
    Except Error (NodeGraph (Node α)) :=
  match g.nodes[id]? with
  | none => .error (.staleHandle id)
  | some node => do
    let use ← Reuse.decide g node
    return g.modifyNode id fun node => { node with bufferUse := use }

def decideAll (g : NodeGraph (Node α)) : Except Error (NodeGraph (Node α)) :=
  g.order.foldlM decideNode g

/-- Lower the nodes. If that fails, the graph keeps them as they are then; a name that occurs twice
is reported in any case. -/
def lowerNodes [Zero α] (loss : Option String) : Action (Network α) Unit := do
  let nodes ← onGraph NodeGraph.take
  match Lowering.lower loss (← get).fusionRules nodes with
  | .ok _ nodes => onGraph (NodeGraph.replace nodes)
  | .error e nodes => do
    onGraph (NodeGraph.replace nodes)
    throw e

/-- Compile the graph, with a loss of the given kind behind its only terminal. -/
def compile [Zero α] (loss : Option String) : Action (Network α) Unit := do
  if (← get).isCompiled then throw .alreadyCompiled
  if (← get).graph.isEmpty then throw .noLayers
  lowerNodes loss
  Action.read checkCompilable
  onGraph NodeGraph.sort
  Action.read checkOrder
  onGraph (Action.update markBackward)
  onGraph (modify scheduleAll)
  modify fun n => { n with store := n.store.setBounds n.graph.size (lastStep n.graph) }
  if (← get).optimizeMemory then
    onGraph (Action.update decideAll)
  modify fun n => { n with isCompiled := true }

/-- How the named node may share the buffer of its input. -/
def reuseOf (n : Network α) (name : String) : Except Error BufferUse := do
  if !n.isCompiled then throw .notCompiled
  Reuse.decide n.graph (← n.nodeNamed name)

end LayerGraph.Network
