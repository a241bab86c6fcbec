import LayerGraph.Layer.Run
import LayerGraph.Network.Basic

/-!
# Running

Forward, every node runs in sorted order. Backward, the nodes that take part run in reverse order;
each adds to the gradients of its weights, passes derivatives on, and is then visited by the caller,
who may apply the gradients that are complete.
-/

namespace LayerGraph.Network

variable {α τ : Type}

def checkReady (n : Network α) : Except Error Unit :=
  if !n.isCompiled then .error .notCompiled
  else if !n.isPrepared then .error .notPrepared
  else if !n.store.hasTensors || !n.store.hasWeights then .error .notAllocated
  else .ok ()

/-- Keep what a hook of a node has left. -/
def keep (n : Network α) (id : NodeRef) (s : HookState α) : Network α :=
  { n with
    store := s.store
    notes := s.notes
    graph := n.graph.modifyNode id fun node => { node with loss := s.loss } }

def runHook (id : NodeRef) (hook : Layer α → Hook α Unit) : Action (Network α) Unit := do
  let node ← Action.read (·.node id)
  Action.focus (fun n => ⟨n.store, node.loss, n.notes⟩) (fun s n => n.keep id s)
    (hook node.layer node.view)

variable [Scalar α]

/-- The current values of the graph's outputs. -/
def outputTensors (n : Network α) : Except Error (List (Tensor α)) := n.outputs.mapM n.store.get

/-- The sum of the losses that the last forward run has found. -/
def loss (n : Network α) : α := Scalar.sum ((n.graph.nodes.filter (·.isLoss)).map (·.loss))

def forward (training : Bool) : Action (Network α) (List (Tensor α)) := do
  Action.read checkReady
  if training ∧ (← get).mode = .inference then throw (.misconfigured .forwardMode)
  (← get).graph.order.forM fun id => runHook id (Layer.forward · training)
  Action.read outputTensors

/-- Apply the gradients of those weights of a node that no later step of the pass adds to. The count
is of the weights that were handed to the rule. -/
def applyComplete (node : Node α) (rule : WeightState α → Action τ (WeightState α)) :
    Action (τ × Store α) Nat :=
  match node.schedule.gradientStep with
  | none => return 0
  | some step =>
    node.tensors.weights.foldlM (fun applied w => do
      if ← Action.read fun s => do
          return (← s.2.trains w) && (← s.2.isLastGradientStep w step) then
        Store.revise w rule
        return applied + 1
      else return applied) 0

/-- Run an action of the caller on the caller's own state and the store. -/
def onOwnStore {β : Type} (p : Action (τ × Store α) β) : Action (τ × Network α) β :=
  Action.focus (fun s => (s.1, s.2.store)) (fun r s => (r.1, { s.2 with store := r.2 })) p

def onNetwork {β : Type} (p : Action (Network α) β) : Action (τ × Network α) β :=
  Action.focus (·.2) (fun n s => (s.1, n)) p

/-- The backward step of one node and the caller's visit. -/
def backwardNode (visit : Node α → Action (τ × Store α) Unit) (id : NodeRef) :
    Action (τ × Network α) Unit := do
  let node ← Action.read (·.2.node id)
  if node.participates then
    if node.collectsGradients then onNetwork (runHook id Layer.collectGradients)
    if node.passesDerivatives then onNetwork (runHook id Layer.passBack)
    let node ← Action.read (·.2.node id)
    onOwnStore (visit node)

def backward (visit : Node α → Action (τ × Store α) Unit) :
    Action (τ × Network α) Unit := do
  Action.read fun s => checkReady s.2
  if (← get).2.mode ≠ .train then throw (.misconfigured .backwardMode)
  (← get).2.graph.order.reverse.forM (backwardNode visit)

/-- Apply the gradients of the named node, as its visit would have. -/
def applyGradients (name : String) (rule : WeightState α → Action τ (WeightState α)) :
    Action (τ × Network α) Nat := do
  let node ← Action.read (·.2.nodeNamed name)
  onOwnStore (applyComplete node rule)

end LayerGraph.Network
