import LayerGraph.Node

/-!
# Names

A fresh name is a base and the least number that makes it new. Nodes whose name is reserved for the
boundary of a model are renamed, and whatever names them follows.
-/

namespace LayerGraph

/-- The first of `base ++ i`, `base ++ (i + 1)`, ... that is not taken. A candidate that is taken is
struck off, so the search ends. -/
def freshFrom (base : String) (taken : List String) (i : Nat) : String :=
  if base ++ toString i ∈ taken then
    freshFrom base (taken.erase (base ++ toString i)) (i + 1)
  else base ++ toString i
termination_by taken.length
decreasing_by
  rw [List.length_erase_of_mem ‹_›]
  have := List.length_pos_of_mem ‹base ++ toString i ∈ taken›
  omega

def freshName (base : String) (taken : List String) : String := freshFrom base taken 0

namespace Lowering

variable {α : Type}

def reservedNames : List String := ["input", "output", "label"]

/-- A new name for each reserved one, new also with respect to those given before. -/
def renamings (names : List String) : List (String × String) :=
  (names.filter (· ∈ reservedNames)).foldl
    (fun pairs name => pairs ++ [(name, freshName name (names ++ pairs.map (·.2)))]) []

def renamed (pairs : List (String × String)) (name : String) : String :=
  (pairs.lookup name).getD name

def renameConnection (pairs : List (String × String)) (conn : Connection) : Connection :=
  { conn with name := renamed pairs conn.name }

/-- Apply a renaming to a node's name and to everything in it that names a node. -/
def applyRenaming (pairs : List (String × String)) (node : Node α) : Node α :=
  { node with
    name := renamed pairs node.name
    inputs := node.inputs.map (renameConnection pairs)
    sharedFrom := node.sharedFrom.map (renamed pairs) }

def renameReserved (nodes : List (Node α)) : List (Node α) :=
  nodes.map (applyRenaming (renamings (nodes.map (·.name))))

end Lowering

end LayerGraph
