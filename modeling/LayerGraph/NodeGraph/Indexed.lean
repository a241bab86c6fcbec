import LayerGraph.NodeGraph.Basic

/-!
# Graphs with a table of names

The same graphs with a table beside the nodes that says at which position the node of a name stands,
so that a look-up does not go through the nodes. What changes the nodes has to change the table,
too, and drop the sorted order where it no longer is one of these nodes.
-/

namespace LayerGraph

/-- Positions by name. -/
abbrev NameTable := List (String × NodeRef)

namespace NameTable

def remove (name : String) (table : NameTable) : NameTable :=
  table.filter fun entry => entry.1 ≠ name

/-- Enter a name, in place of what has been entered under it. -/
def insert (name : String) (id : NodeRef) (table : NameTable) : NameTable :=
  (name, id) :: table.remove name

end NameTable

structure IndexedGraph (ν : Type) where
  nodes : List ν
  index : NameTable
  order : List NodeRef

namespace IndexedGraph

variable {ν : Type}

def empty : IndexedGraph ν := ⟨[], [], []⟩

/-- The graph without its table. -/
def plain (g : IndexedGraph ν) : NodeGraph ν := ⟨g.nodes, g.order⟩

def size (g : IndexedGraph ν) : Nat := g.nodes.length

def indexOf? (g : IndexedGraph ν) (name : String) : Option NodeRef := g.index.lookup name

def contains (g : IndexedGraph ν) (name : String) : Bool := (g.indexOf? name).isSome

def find? (g : IndexedGraph ν) (name : String) : Option ν := (g.indexOf? name).bind (g.nodes[·]?)

/-- Edit the node of a name in place; whether there is one. -/
def editNamed (name : String) (edit : ν → ν) : Action (IndexedGraph ν) Bool := fun g =>
  match g.indexOf? name with
  | some id => .ok true { g with nodes := g.nodes.modify id edit }
  | none => .ok false g

variable [Vertex ν]

/-- Put a node behind the others. -/
def push (g : IndexedGraph ν) (node : ν) : IndexedGraph ν :=
  ⟨g.nodes ++ [node], g.index.insert (Vertex.name node) g.size, []⟩

def add (node : ν) : Action (IndexedGraph ν) NodeRef := fun g =>
  if Vertex.name node = "" then .error (.misconfigured .emptyName) g
  else if g.contains (Vertex.name node) then .error (.duplicateName (Vertex.name node)) g
  else .ok g.size (g.push node)

/-- Take all nodes out, in the order in which they were added. -/
def take : Action (IndexedGraph ν) (List ν) := fun g => .ok g.nodes empty

/-- Put in these nodes instead; if one is refused, those before it stay. -/
def replace (nodes : List ν) : Action (IndexedGraph ν) Unit := do
  set (empty : IndexedGraph ν)
  nodes.forM fun node => do
    let _ ← add node

/-- Give `node`, which stands at `id`, a new name. -/
def renameAt (g : IndexedGraph ν) (id : NodeRef) (node : ν) (name : String) : IndexedGraph ν :=
  { g with
    nodes := g.nodes.modify id (Vertex.rename name)
    index := (g.index.remove (Vertex.name node)).insert name id }

/-- Give a node a new name. Connections to its old name are left as they are, and so is the
order. -/
def rename (id : NodeRef) (name : String) : Action (IndexedGraph ν) Unit := fun g =>
  if g.contains name then .error (.duplicateName name) g
  else
    match g.nodes[id]? with
    | some node => .ok () (g.renameAt id node name)
    | none => .error (.staleHandle id) g

/-- The producers a node reads from, one for each of its inputs. -/
def producersOf (g : IndexedGraph ν) (node : ν) : Except Error (List NodeRef) :=
  (Vertex.inputs node).mapM fun conn =>
    match g.indexOf? conn.name with
    | some id => .ok id
    | none => .error (.unknownInput (Vertex.name node) conn.name)

def producers (g : IndexedGraph ν) (id : NodeRef) : Except Error (List NodeRef) :=
  match g.nodes[id]? with
  | some node => g.producersOf node
  | none => .error (.staleHandle id)

/-- An order of all nodes in which every producer comes before its readers. -/
def sortedOrder (g : IndexedGraph ν) : Except Error (List NodeRef) := do
  let table ← g.nodes.mapM g.producersOf
  let readers := (List.range g.size).map (NodeGraph.readersIn table)
  let next := fun id => readers.getD id []
  match Traversal.order next g.size with
  | .error id => throw (.cycle (g.plain.nameOf id))
  | .ok order =>
    match Traversal.unreached next (List.range g.size) g.plain.inputIds with
    | id :: _ => throw (.disconnected (g.plain.nameOf id))
    | [] => return order

/-- Sort the graph; one that cannot be sorted stays as it is. -/
def sort : Action (IndexedGraph ν) Unit :=
  Action.update fun g => do return { g with order := ← g.sortedOrder }

end IndexedGraph

end LayerGraph
