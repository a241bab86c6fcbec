import LayerGraph.Connection
import LayerGraph.NodeGraph.Traversal
import LayerGraph.Action

/-!
# Graphs of named nodes

Nodes are kept in the order in which they were added, and a node is identified by its position. The
edges are what the nodes list as their inputs, so they are read off the nodes and not stored. A
sorted order is a list of positions; it is dropped when a node is added and kept when one is edited.
-/

namespace LayerGraph

/-- A position in a graph. -/
abbrev NodeRef := Nat

class Vertex (ν : Type) where
  name : ν → String
  rename : String → ν → ν
  /-- The output slots the node reads, in the order of its inputs. -/
  inputs : ν → List Connection
  /-- Every node has to be reachable from a graph input. -/
  isInput : ν → Bool

structure NodeGraph (ν : Type) where
  nodes : List ν
  order : List NodeRef

namespace NodeGraph

variable {ν : Type}

def empty : NodeGraph ν := ⟨[], []⟩

def size (g : NodeGraph ν) : Nat := g.nodes.length

def isEmpty (g : NodeGraph ν) : Bool := g.nodes.isEmpty

def isSorted (g : NodeGraph ν) : Bool := !g.isEmpty && g.order.length == g.size

/-- The nodes in sorted order. -/
def sortedNodes (g : NodeGraph ν) : List ν := g.order.filterMap (g.nodes[·]?)

def sortedNode? (g : NodeGraph ν) (i : Nat) : Option ν := (g.order[i]?).bind (g.nodes[·]?)

def modifyNode (g : NodeGraph ν) (id : NodeRef) (f : ν → ν) : NodeGraph ν :=
  { g with nodes := g.nodes.modify id f }

variable [Vertex ν]

def indexOf? (g : NodeGraph ν) (name : String) : Option NodeRef :=
  g.nodes.findIdx? (Vertex.name · == name)

def contains (g : NodeGraph ν) (name : String) : Bool := g.nodes.any (Vertex.name · == name)

def find? (g : NodeGraph ν) (name : String) : Option ν := g.nodes.find? (Vertex.name · == name)

/-- The name of a node, and the empty text if there is no such node. -/
def nameOf (g : NodeGraph ν) (id : NodeRef) : String := (g.nodes[id]?.map Vertex.name).getD ""

def add (node : ν) : Action (NodeGraph ν) NodeRef := fun g =>
  if Vertex.name node = "" then .error (.misconfigured .emptyName) g
  else if g.contains (Vertex.name node) then .error (.duplicateName (Vertex.name node)) g
  else .ok g.size ⟨g.nodes ++ [node], []⟩

/-- Take all nodes out, in the order in which they were added. -/
def take : Action (NodeGraph ν) (List ν) := fun g => .ok g.nodes empty

/-- Put in these nodes instead; if one is refused, those before it stay. -/
def replace (nodes : List ν) : Action (NodeGraph ν) Unit := do
  set (empty : NodeGraph ν)
  nodes.forM fun node => do
    let _ ← add node

/-- Give a node a new name. Connections to its old name are left as they are. -/
def rename (id : NodeRef) (name : String) : Action (NodeGraph ν) Unit := fun g =>
  if g.contains name then .error (.duplicateName name) g
  else .ok () (g.modifyNode id (Vertex.rename name))

/-- The producers a node reads from, one for each of its inputs. -/
def producersOf (g : NodeGraph ν) (node : ν) : Except Error (List NodeRef) :=
  (Vertex.inputs node).mapM fun conn =>
    match g.indexOf? conn.name with
    | some id => .ok id
    | none => .error (.unknownInput (Vertex.name node) conn.name)

def producers (g : NodeGraph ν) (id : NodeRef) : Except Error (List NodeRef) :=
  match g.nodes[id]? with
  | some node => g.producersOf node
  | none => .error (.staleHandle id)

/-- The nodes that list `producer`, each as often as it does, from a table of producers. -/
def readersIn (table : List (List NodeRef)) (producer : NodeRef) : List NodeRef :=
  table.zipIdx.flatMap fun (producers, id) =>
    (producers.filter (· = producer)).map fun _ => id

/-- For each node the nodes that read from it. -/
def readers (g : NodeGraph ν) : Except Error (List (List NodeRef)) := do
  let table ← g.nodes.mapM g.producersOf
  return (List.range g.size).map (readersIn table)

def inputIds (g : NodeGraph ν) : List NodeRef :=
  (g.nodes.zipIdx.filter fun (node, _) => Vertex.isInput node).map (·.2)

/-- An order of all nodes in which every producer comes before its readers. -/
def sortedOrder (g : NodeGraph ν) : Except Error (List NodeRef) := do
  let readers ← g.readers
  let next := fun id => readers.getD id []
  match Traversal.order next g.size with
  | .error id => throw (.cycle (g.nameOf id))
  | .ok order =>
    match Traversal.unreached next (List.range g.size) g.inputIds with
    | id :: _ => throw (.disconnected (g.nameOf id))
    | [] => return order

/-- Sort the graph; one that cannot be sorted stays as it is. -/
def sort : Action (NodeGraph ν) Unit :=
  Action.update fun g => do return { g with order := ← g.sortedOrder }

end NodeGraph

end LayerGraph
