import LayerGraph.Network.Basic
import LayerGraph.Store.Access

/-!
# Memory

Allocating and releasing the buffers of a prepared network, and feeding its inputs and labels.
-/

namespace LayerGraph.Network

variable {α : Type}

def allocate (mode : RunMode) : Action (Network α) Unit := do
  if !(← get).isPrepared then throw .notPrepared
  onStore (Store.allocate mode)
  modify fun n => { n with mode := mode }

def fillWeights [Scalar α] : Action (Network α) Unit := do
  if !(← get).isPrepared then throw .notPrepared
  onStore (Store.fillWeights (← get).store.maxStep)

/-- Release the tensors, and the weights too if asked to. -/
def releaseTensors (weightsToo : Bool) (n : Network α) : Network α :=
  { n with
    store := if weightsToo then n.store.releaseTensors.releaseWeights
      else n.store.releaseTensors }

def releaseWeights (n : Network α) : Network α := { n with store := n.store.releaseWeights }

/-- Whether slots are shared from the next allocation on, and whether nodes run in place if the
network is not compiled yet. -/
def setOptimize (enable : Bool) (n : Network α) : Network α :=
  { n with store := { n.store with optimize := enable }, optimizeMemory := enable }

def requestStates (shapes : Shape → List Shape) : Action (Network α) Unit := do
  if !(← get).isPrepared then throw .notPrepared
  if (← get).store.hasWeights then throw (.resource .stateAfterWeights)
  onStore (Store.requestStates shapes)

def rebatch (batch : Nat) : Action (Network α) Unit := do
  if batch = 0 then throw (.misconfigured .emptyBatch)
  if (← get).store.hasTensors then throw (.resource .batchWhileAllocated)
  modify fun n => { n with batchSize := batch }
  if (← get).isPrepared then
    onStore (Store.rebatch batch)
    modify fun n => { n with
      graph := { n.graph with nodes := n.graph.nodes.map (Node.rebatch batch) } }

/-- Feed the inputs, and the labels unless none are given. -/
def feed [Scalar α] (inputs labels : List (Tensor α)) : Action (Network α) Unit := do
  let n ← get
  if !n.store.hasTensors then throw .notAllocated
  if inputs.length ≠ n.inputs.length then
    throw (.misconfigured (.inputCount n.inputs.length inputs.length))
  if labels ≠ [] ∧ labels.length ≠ n.labels.length then
    throw (.misconfigured (.labelCount n.labels.length labels.length))
  onStore do
    (n.inputs.zip inputs).forM fun (id, value) => Store.write id value
    (n.labels.zip labels).forM fun (id, value) => Store.write id value

def inputShapes (n : Network α) : Except Error (List Shape) := n.inputs.mapM n.store.shape

def outputShapes (n : Network α) : Except Error (List Shape) := n.outputs.mapM n.store.shape

end LayerGraph.Network
