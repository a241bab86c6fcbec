import LayerGraph.Network.Basic

/-!
# Growth

Nodes are added one by one, or as a fragment that is attached behind the last node: what read the
fragment's inputs reads that node instead.
-/

namespace LayerGraph.Network

variable {α : Type}

/-- What a name stands for. -/
def meaning (aliases : List (String × String)) (name : String) : String :=
  (aliases.lookup name).getD name

/-- A node without a name is named after its type. -/
def nameNode (n : Network α) (node : Node α) : Node α :=
  if node.name = "" then
    { node with name := freshName node.layer.typeName (n.graph.nodes.map (·.name)) }
  else node

def resolveAliases (n : Network α) (node : Node α) : Node α :=
  { node with
    inputs := node.inputs.map fun conn => { conn with name := meaning n.aliases conn.name } }

def add (node : Node α) : Action (Network α) Unit := do
  let n ← get
  if n.isCompiled then throw .alreadyCompiled
  let _ ← onGraph (NodeGraph.add (n.resolveAliases (n.nameNode node)))

/-- A member of a fragment as it is grafted: its name, the names of the members it reads and the
member it shares weights with are put behind the fragment's name, and the fragment's inputs become
the node `attach`. -/
def graft (fragment attach : String) (dropped members : List String) (node : Node α) :
    Node α :=
  { node with
    name := if node.name = "" then "" else fragment ++ node.name
    inputs := node.inputs.map fun conn =>
      { conn with
        name := if conn.name ∈ dropped then attach else fragment ++ conn.name }
    sharedFrom := node.sharedFrom.map fun owner =>
      if owner ∈ members then fragment ++ owner else owner }

/-- Attach a fragment. Later nodes may name the fragment to read its last node. -/
def extend (nodes : List (Node α)) (fragment : String) : Action (Network α) Unit := do
  let n ← get
  if n.isCompiled then throw .alreadyCompiled
  if (n.aliases.lookup fragment).isSome then
    throw (.misconfigured (.fragmentNameUsed fragment))
  match n.graph.nodes.getLast? with
  | none => throw (.misconfigured .nothingToExtend)
  | some last =>
    let dropped := (nodes.filter (·.isSource)).map (·.name)
    let members := nodes.map (·.name)
    let kept := nodes.filter (!·.isSource)
    kept.forM fun node => add (graft fragment last.name dropped members node)
    modify fun n => { n with
      aliases := (dropped.map fun name => (fragment ++ name, last.name)) ++ n.aliases }
    if !kept.isEmpty then
      modify fun n => { n with
        aliases := (n.graph.nodes.getLast?.map fun node => (fragment, node.name)).toList
          ++ n.aliases }

/-- A name's position; the empty name stands for the given one. -/
def positionOr (n : Network α) (name : String) (default : NodeRef) : Except Error NodeRef :=
  if name = "" then .ok default
  else
    match n.graph.indexOf? name with
    | some id => .ok id
    | none => .error (.misconfigured (.unknownNode name))

/-- The nodes from `first` to `last` in the order in which they were added. -/
def between (n : Network α) (first last : String) : Except Error (List (Node α)) := do
  if n.graph.isEmpty then return []
  let i ← n.positionOr first 0
  let j ← n.positionOr last (n.graph.size - 1)
  if j < i then throw (.misconfigured (.addedAfter first last))
  return (n.graph.nodes.take (j + 1)).drop i

end LayerGraph.Network
