import LayerGraph.Lowering.Basic
import LayerGraph.Store.Allocation
import LayerGraph.Store.Request

/-!
# Networks

A network holds a graph of layers and the store of their tensors. It grows node by node, is compiled
once, prepared once, and can then be allocated, run and released any number of times.
-/

namespace LayerGraph

structure NetworkSettings where
  batchSize : Nat
  /-- Whether nodes may run in place and tensors may share slots. -/
  optimizeMemory : Bool
  /-- The most elements that may be allocated. -/
  memoryLimit : Option Nat
  fusionRules : List FusionRule
deriving DecidableEq

def NetworkSettings.default : NetworkSettings := ⟨1, true, none, FusionRule.defaults⟩

structure Network (α : Type) where
  graph : NodeGraph (Node α)
  store : Store α
  /-- Names that stand for the end of a fragment, or for what replaced its inputs. -/
  aliases : List (String × String)
  isCompiled : Bool
  isPrepared : Bool
  batchSize : Nat
  optimizeMemory : Bool
  /-- The mode of the latest allocation. -/
  mode : RunMode
  fusionRules : List FusionRule
  inputs : List TensorRef
  labels : List TensorRef
  outputs : List TensorRef
  /-- What the hooks of custom layers have left. -/
  notes : List (Note α)

namespace Network

variable {α β : Type}

def ofSettings (settings : NetworkSettings) : Network α where
  graph := .empty
  store := .empty settings.optimizeMemory settings.memoryLimit
  aliases := []
  isCompiled := false
  isPrepared := false
  batchSize := max settings.batchSize 1
  optimizeMemory := settings.optimizeMemory
  mode := .train
  fusionRules := settings.fusionRules
  inputs := []
  labels := []
  outputs := []
  notes := []

def onGraph (p : Action (NodeGraph (Node α)) β) : Action (Network α) β :=
  Action.focus (·.graph) (fun graph n => { n with graph := graph }) p

def onStore (p : Action (Store α) β) : Action (Network α) β :=
  Action.focus (·.store) (fun store n => { n with store := store }) p

def modifyNode (id : NodeRef) (f : Node α → Node α) : Action (Network α) Unit :=
  modify fun n => { n with graph := n.graph.modifyNode id f }

def node (n : Network α) (id : NodeRef) : Except Error (Node α) :=
  match n.graph.nodes[id]? with
  | some node => .ok node
  | none => .error (.staleHandle id)

/-- The node of this name; an unknown name is a misconfiguration. -/
def nodeNamed (n : Network α) (name : String) : Except Error (Node α) :=
  match n.graph.find? name with
  | some node => .ok node
  | none => .error (.misconfigured (.unknownNode name))

/-- All nodes, in sorted order once there is one. -/
def layerNodes (n : Network α) : List (Node α) :=
  if n.isCompiled then n.graph.sortedNodes else n.graph.nodes

/-- Take the notes that hooks have left since they were last taken. -/
def takeNotes : Action (Network α) (List (Note α)) :=
  modifyGet fun n => (n.notes, { n with notes := [] })

end Network

end LayerGraph
