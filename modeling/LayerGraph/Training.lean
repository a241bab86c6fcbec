import LayerGraph.Network.Memory
import LayerGraph.Network.Run
import LayerGraph.GradientDescent

/-!
# Training

Rows are taken in batches in the order in which they are given, and rows that do not fill a batch
are left out. A weight moves as soon as its gradient is complete.
-/

namespace LayerGraph

structure TrainingPlan (ρ : Type) where
  epochs : Nat
  learningRate : ρ
  /-- Without a positive momentum there is none. -/
  momentum : ρ
  batchSize : Nat

namespace Network

variable {ρ α : Type} [Rate ρ α] [Scalar α]

/-- Rows of one width as a tensor. -/
def batchTensor (rows : List (List α)) (width : Nat) : Except Error (Tensor α) :=
  match rows.find? (·.length ≠ width) with
  | some row => .error (.misconfigured (.rowWidth width row.length))
  | none => .ok (.ofRows width rows)

/-- The rows of a batch. -/
def batchRows {β : Type} (rows : List β) (size batch : Nat) : List β :=
  (rows.drop (batch * size)).take size

/-- Bring the network into a state in which it trains on batches of the given size. -/
def readyToTrain (descent : GradientDescent ρ) (batch : Nat) : Action (Network α) Unit := do
  if batch ≠ (← get).batchSize then
    modify (releaseTensors false)
    rebatch batch
  if !(← get).store.hasWeights then requestStates descent.stateShapes
  else if ← Action.read (·.store.lacksState descent.stateShapes) then
    throw (.resource .missingState)
  fillWeights
  allocate .train

/-- One step on one batch, and the loss before it. -/
def trainStep (descent : GradientDescent ρ) (x y : Tensor α) : Action (Network α) α := do
  feed [x] [y]
  let _ ← forward true
  let loss := (← get).loss
  let _ ← Action.carrying () <| backward fun node => do
    let _ ← applyComplete node fun update => Action.read fun _ => descent.apply update
  return loss

/-- One pass over all batches, and the mean of the losses of its steps. -/
def trainEpoch (descent : GradientDescent ρ) (inputs targets : List (List α))
    (batch inputWidth targetWidth : Nat) : Action (Network α) α := do
  let batches := inputs.length / batch
  let total ← (List.range batches).foldlM (fun total b => do
    let x ← Action.read fun _ => batchTensor (batchRows inputs batch b) inputWidth
    let y ← Action.read fun _ => batchTensor (batchRows targets batch b) targetWidth
    return total + (← trainStep descent x y)) 0
  return total / Scalar.ofNat batches

/-- Train a prepared network with one input; the result is the loss of each epoch. -/
def train (inputs targets : List (List α)) (plan : TrainingPlan ρ) :
    Action (Network α) (List α) := do
  if inputs.isEmpty || inputs.length != targets.length then
    throw (.misconfigured (.sampleCount inputs.length targets.length))
  if !(← get).isPrepared then throw .notPrepared
  let descent : GradientDescent ρ := ⟨plan.learningRate, plan.momentum⟩
  let batch := min (max plan.batchSize 1) inputs.length
  readyToTrain descent batch
  match ← Action.read inputShapes with
  | [input] =>
    let targetWidth := (targets.headD []).length
    (List.range plan.epochs).mapM fun _ =>
      trainEpoch descent inputs targets batch input.width targetWidth
  | _ => throw (.misconfigured .trainingInputs)

end Network

end LayerGraph
