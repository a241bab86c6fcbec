import LayerGraph.Node

/-!
# Output slots

Who reads a slot follows from the inputs of all nodes. The slots of a node that are read have to be
the first ones. A slot with several readers gets a fan-out node behind it, from which each of them
reads a slot of its own.
-/

namespace LayerGraph.Lowering

variable {α : Type}

/-- The least number from `k` on that is not in the list. -/
def leastUnreadFrom (slots : List Nat) (k : Nat) : Nat :=
  if k ∈ slots then leastUnreadFrom (slots.erase k) (k + 1) else k
termination_by slots.length
decreasing_by
  rw [List.length_erase_of_mem ‹_›]
  have := List.length_pos_of_mem ‹k ∈ slots›
  omega

/-- One input of a node: the slot it reads, and the node and position that read it. -/
structure SlotRead where
  producer : NodeRef
  slot : Nat
  reader : Connection

/-- Of several nodes of one name, the name means the last. -/
def resolve? (nodes : List (Node α)) (name : String) : Option NodeRef :=
  (nodes.zipIdx.reverse.find? (·.1.name == name)).map (·.2)

def readsOf (nodes : List (Node α)) (node : Node α) : Except Error (List SlotRead) :=
  node.inputs.zipIdx.mapM fun (conn, position) =>
    match resolve? nodes conn.name with
    | some producer => .ok ⟨producer, conn.index, ⟨node.name, position⟩⟩
    | none => .error (.unknownInput node.name conn.name)

/-- All inputs of all nodes in order. -/
def allReads (nodes : List (Node α)) : Except Error (List SlotRead) := do
  return (← nodes.mapM (readsOf nodes)).flatten

def slotsRead (reads : List SlotRead) (producer : NodeRef) : List Nat :=
  (reads.filter (·.producer = producer)).map (·.slot)

def slotReaders (reads : List SlotRead) (producer : NodeRef) (slot : Nat) : List Connection :=
  (reads.filter fun r => r.producer = producer ∧ r.slot = slot).map (·.reader)

/-- The readers of a node's slots. A slot that is not read must not stand before one that is. -/
def outputsOf (reads : List SlotRead) (node : Node α) (id : NodeRef) :
    Except Error (List (List Connection)) :=
  let slots := slotsRead reads id
  let count := leastUnreadFrom slots 0
  if slots.any (count < ·) then .error (.unreadSlot node.name count)
  else .ok ((List.range count).map (slotReaders reads id))

def setOutputs (nodes : List (Node α)) : Except Error (List (Node α)) := do
  let reads ← allReads nodes
  nodes.zipIdx.mapM fun (node, id) => do
    return { node with outputs := ← outputsOf reads node id }

def fanOutName (name : String) (slot : Nat) : String := s!"{name}/generated_out_{slot}"

/-- Let the input that `reader` stands for read `target`. -/
def setInput (reader target : Connection) (nodes : List (Node α)) : List (Node α) :=
  match nodes.findIdx? (·.name == reader.name) with
  | some i =>
    nodes.modify i fun node => { node with inputs := node.inputs.set reader.index target }
  | none => nodes

/-- Nodes while fan-out nodes are inserted behind one of them, and how many have been. -/
structure Insertion (α : Type) where
  nodes : List (Node α)
  inserted : Nat

/-- Insert a fan-out node for one slot of the node at position `i`, if it has several readers. -/
def fanOutSlot [Zero α] (i : Nat) (name : String) (state : Insertion α)
    (slot : List Connection × Nat) : Insertion α :=
  if slot.1.length ≤ 1 then state
  else
    let fanOut := fanOutName name slot.2
    let nodes := slot.1.zipIdx.foldl
      (fun nodes (reader, k) => setInput reader ⟨fanOut, k⟩ nodes) state.nodes
    ⟨nodes.insertIdx (i + 1 + state.inserted) (.ofLayer .multiout fanOut [⟨name, slot.2⟩]),
      state.inserted + 1⟩

/-- Insert fan-out nodes behind `count` nodes from position `i` on. -/
def fanOutFrom [Zero α] : (count i : Nat) → List (Node α) → List (Node α)
  | 0, _, nodes => nodes
  | count + 1, i, nodes =>
    match nodes[i]? with
    | none => nodes
    | some node =>
      let state := node.outputs.zipIdx.foldl (fanOutSlot i node.name) ⟨nodes, 0⟩
      fanOutFrom count (i + 1 + state.inserted) state.nodes

def insertFanOut [Zero α] (nodes : List (Node α)) : List (Node α) :=
  fanOutFrom nodes.length 0 nodes

/-- Insert all fan-out nodes, and find the readers anew if there are any. -/
def separateReaders [Zero α] : Action (List (Node α)) Unit := do
  let count := (← get).length
  modify insertFanOut
  if (← get).length ≠ count then
    Action.update setOutputs

end LayerGraph.Lowering
