import LayerGraph.Layer.Basic

/-!
# Running a layer

The forward hook fills the outputs, the gradient hook adds to the gradients of the weights, and the
derivative hook passes the derivatives of the outputs on to the inputs.
-/

namespace LayerGraph.Layer

open Hook

variable {α : Type} [Scalar α]

def ofKernel {β : Type} (result : Except Error β) : Hook α β :=
  fun _ => Action.read fun _ => result

/-- The sum of a tensor and the ones that `operand` gives for the positions from 1 on. -/
def sumFrom (operand : Nat → Hook α (Tensor α)) (count : Nat) : Hook α (Tensor α) := do
  (List.range' 1 (count - 1)).foldlM
    (fun sum i => do ofKernel (sum.add (← operand i))) (← operand 0)

def forward (layer : Layer α) (training : Bool) : Hook α Unit :=
  match layer with
  | input _ => return
  | fullyConnected _ _ _ => do
    let x ← Hook.input 0
    let product ← ofKernel (x.matmul (← weight 0))
    writeOutput 0 (← ofKernel (product.add (← weight 1)))
  | activation f => do writeOutput 0 (f.apply (← Hook.input 0))
  | addition => do writeOutput 0 (← sumFrom Hook.input (← inputCount))
  | multiout => do
    let x ← Hook.input 0
    (List.range (← outputCount)).forM fun i => writeOutput i x
  | identity => do writeOutput 0 (← Hook.input 0)
  | loss kind => do
    let prediction := kind.activation.apply (← Hook.input 0)
    writeOutput 0 prediction
    recordLoss (← ofKernel (kind.compute prediction (← label)))
  | custom layer => layer.forward training

def collectGradients (layer : Layer α) : Hook α Unit :=
  match layer with
  | fullyConnected _ _ _ => do
    let dy ← outputDerivative 0
    if ← trainsWeight 0 then
      addGradient 0 (← ofKernel ((← Hook.input 0).transpose.matmul dy))
    if ← trainsWeight 1 then
      addGradient 1 dy.columnSums
  | custom layer => layer.collectGradients
  | _ => return

def passBack (layer : Layer α) : Hook α Unit :=
  match layer with
  | input _ => return
  | fullyConnected _ _ _ => do
    if ← wantsDerivative 0 then
      let dy ← outputDerivative 0
      writeInputDerivative 0 (← ofKernel (dy.matmul (← weight 0).transpose))
  | activation f => do
    let y ← output 0
    writeInputDerivative 0 (← ofKernel (f.derivative y (← outputDerivative 0)))
  | addition => do
    let dy ← outputDerivative 0
    (List.range (← inputCount)).forM fun i => writeInputDerivative i dy
  | multiout => do writeInputDerivative 0 (← sumFrom outputDerivative (← outputCount))
  | identity => do writeInputDerivative 0 (← outputDerivative 0)
  | loss kind => do
    let y ← output 0
    writeInputDerivative 0 (← ofKernel (kind.derivative y (← label)))
  | custom layer => layer.passBack

end LayerGraph.Layer
