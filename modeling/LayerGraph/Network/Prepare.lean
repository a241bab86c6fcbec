import LayerGraph.Network.Basic

/-!
# Preparing

In sorted order, every node is finalized against the shapes of its producers' outputs, and what it
declares is registered with the store, each tensor with the steps at which it is used.
-/

namespace LayerGraph.Network

variable {α : Type}

/-- The node that owns the weights of a node. -/
def ownerOf (n : Network α) (node : Node α) : Except Error String :=
  match node.sharedFrom with
  | none => .ok node.name
  | some owner =>
    if n.graph.contains owner then .ok owner
    else .error (.misconfigured (.unknownOwner node.name owner))

/-- The slot that a connection of a node reads. -/
def inputSlot (n : Network α) (node : Node α) (conn : Connection) : Except Error Wire :=
  match n.graph.find? conn.name with
  | none => .error (.unknownInput node.name conn.name)
  | some producer =>
    match producer.tensors.outputs[conn.index]? with
    | some slot => .ok slot
    | none => .error (.layer node.name (.noOutput conn.name conn.index))

/-- A node runs in place only if its outputs have the shape of its only input. -/
def settleUse (use : BufferUse) (inputShapes outputShapes : List Shape) : BufferUse :=
  match inputShapes with
  | [shape] => if outputShapes.all (· = shape) then use else .own
  | _ => .own

/-- The steps at which a node's inputs are read. -/
def readSteps (node : Node α) : List Nat := node.schedule.forward :: node.schedule.returnSteps

/-- The steps at which a node's outputs are used by the node itself. A graph output stays readable
once the iteration is over. -/
def outputSteps (node : Node α) (size maxStep : Nat) : List Nat :=
  [node.schedule.forward] ++ (if node.layer.needsOutput then node.schedule.returnSteps else []) ++
    (if node.isTerminal then [size - 1, maxStep] else [])

/-- Extend the windows of a node's inputs by the steps at which it reads them. -/
def registerReads (node : Node α) (inputs : List Wire) : Action (Store α) Unit :=
  inputs.forM fun slot => do
    Store.addSteps slot.value (readSteps node)
    match slot.derivative, node.schedule.derivativeStep with
    | some grad, some step => Store.addSteps grad [step]
    | _, _ => pure ()

def registerVariable (node : Node α) (use : BufferUse) (inputs : List Wire) (name : String)
    (shape : Shape) (steps : List Nat) : Action (Store α) TensorRef :=
  match use, inputs.head? with
  | .own, _ | _, none =>
    Store.request name shape .zeros .forwardToBackward
      (if node.isSource then .external else .variable) steps
  | _, some input => Store.requestShared input.value name steps

def registerDerivative (node : Node α) (use : BufferUse) (inputs : List Wire)
    (name : String) (shape : Shape) : Action (Store α) (Option TensorRef) := do
  if node.participates && !node.isTerminal && !node.isSource then
    let steps := node.schedule.returnSteps
    match use, inputs.head?.bind (·.derivative) with
    | .overwrite, some grad => return some (← Store.requestShared grad name steps)
    | _, _ => return some (← Store.request name shape .zeros .backward .derivative steps)
  else return none

/-- The variable of one output, and its derivative if the node takes part in the backward pass and
is read. -/
def registerOutput (node : Node α) (use : BufferUse) (inputs : List Wire)
    (steps : List Nat) (output : Shape × Nat) : Action (Store α) Wire := do
  let name := node.name ++ ":output" ++ toString output.2
  let value ← registerVariable node use inputs name output.1 steps
  let derivative ← registerDerivative node use inputs (name ++ ":grad") output.1
  return ⟨value, derivative⟩

def registerWeight (node : Node α) (owner : String) (decl : WeightDecl α) :
    Action (Store α) WeightRef :=
  Store.useWeight (owner ++ ":" ++ decl.name) decl.shape decl.initializer decl.trainable
    node.schedule.forward (if node.collectsGradients then node.schedule.gradientStep else none)

def registerScratch (node : Node α) (decl : ScratchDecl α) : Action (Store α) TensorRef := do
  let maxStep := (← get).maxStep
  Store.request (node.name ++ ":" ++ decl.name) decl.shape decl.initializer decl.lifetime
    .temporary (node.schedule.usedAt decl.lifetime maxStep)

def registerLabel (node : Node α) (label : Option Shape) :
    Action (Store α) (Option TensorRef) :=
  match label with
  | none => return none
  | some shape => do
    return some (← Store.request (node.name ++ ":label") shape .zeros .iteration .external [])

/-- Register all that a node reads, writes and declares. -/
def register (node : Node α) (use : BufferUse) (owner : String) (size : Nat)
    (inputs : List Wire) (declared : Declaration α) : Action (Store α) Handles := do
  registerReads node inputs
  let steps := outputSteps node size (← get).maxStep
  let outputs ← declared.outputShapes.zipIdx.mapM (registerOutput node use inputs steps)
  let weights ← declared.weights.mapM (registerWeight node owner)
  let tensors ← declared.tensors.mapM (registerScratch node)
  let label ← registerLabel node declared.label
  return ⟨inputs, outputs, weights, tensors, label⟩

/-- Finalize one node. -/
def prepareNode (id : NodeRef) : Action (Network α) Unit := do
  let n ← get
  let node ← Action.read (·.node id)
  let owner ← Action.read (·.ownerOf node)
  let inputs ← Action.read fun n => node.inputs.mapM (n.inputSlot node)
  let inputShapes ← Action.read fun n => inputs.mapM fun slot => n.store.shape slot.value
  let declared ← Action.read fun n =>
    node.layer.declare ⟨node.name, inputShapes, node.outputCount, n.batchSize, node.trains⟩
  let use := settleUse node.bufferUse inputShapes declared.outputShapes
  modifyNode id fun node => { node with bufferUse := use }
  let tensors ← onStore (register node use owner n.graph.size inputs declared)
  modifyNode id fun node => { node with
    inputShapes := inputShapes
    outputShapes := declared.outputShapes
    tensors := tensors }

/-- The nodes with the given names, each of which has to be acceptable; all acceptable nodes in
sorted order if no names are given. -/
def select (n : Network α) (names : List String) (accept : Node α → Bool)
    (what : Selection) : Except Error (List (Node α)) :=
  if names.isEmpty then .ok (n.graph.sortedNodes.filter accept)
  else
    names.mapM fun name =>
      match n.graph.find? name with
      | some node =>
        if accept node then .ok node else .error (.misconfigured (.notSelectable name what))
      | none => .error (.misconfigured (.notSelectable name what))

def prepareAll (inputNames labelNames : List String) : Action (Network α) Unit := do
  (← get).graph.order.forM prepareNode
  let inputs ← Action.read (·.select inputNames (·.isSource) .input)
  let labels ← Action.read (·.select labelNames (·.isLoss) .loss)
  modify fun n => { n with
    inputs := inputs.filterMap fun node => node.tensors.outputs.head?.map (·.value)
    labels := labels.filterMap (·.tensors.label)
    outputs := (n.graph.sortedNodes.filter (·.isTerminal)).flatMap fun node =>
      node.tensors.outputs.map (·.value) }

/-- Finalize every node and choose the inputs and labels to be fed; empty lists choose all graph
inputs and all losses. If this fails, the store is emptied. -/
def prepare (inputNames labelNames : List String) : Action (Network α) Unit := do
  if !(← get).isCompiled then throw .notCompiled
  if (← get).isPrepared then throw (.misconfigured .alreadyPrepared)
  try prepareAll inputNames labelNames
  catch e =>
    modify fun n => { n with store := n.store.reset }
    throw e
  modify fun n => { n with isPrepared := true }

end LayerGraph.Network
