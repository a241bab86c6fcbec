import LayerGraph.Activation

/-!
# Losses

A cross entropy is complete only together with the activation in front of it. The fused kinds apply
that activation themselves, and their derivative with respect to its input is the difference of
prediction and target.
-/

namespace LayerGraph

inductive Loss where
  | mse
  /-- A cross entropy without its activation, which has to be fused before it can run. -/
  | cross
  | crossSoftmax
  | crossSigmoid
deriving DecidableEq

namespace Loss

def all : List Loss := [mse, cross, crossSoftmax, crossSigmoid]

def name : Loss → String
  | mse => "mse"
  | cross => "cross"
  | crossSoftmax => "cross_softmax"
  | crossSigmoid => "cross_sigmoid"

/-- Names are compared without regard to case, as those of activations are. -/
def ofName? (text : String) : Option Loss := all.find? (·.name == text.toLower)

/-- The activation a loss applies to its input. -/
def activation : Loss → Activation
  | crossSoftmax => .softmax
  | crossSigmoid => .sigmoid
  | mse | cross => .none

variable {α : Type} [Scalar α]

def logClamped (high : α) (p : Tensor α) : Tensor α :=
  p.map fun a => Scalar.log (Scalar.clamp Scalar.floor high a)

def compute (kind : Loss) (p t : Tensor α) : Except Error α := do
  match kind with
  | mse =>
    let difference ← p.sub t
    return (← difference.mul difference).mean
  | crossSoftmax | cross =>
    return -(← t.mul (logClamped 1 p)).total / Scalar.ofNat (max p.shape.batch 1)
  | crossSigmoid =>
    let clamped := p.map (Scalar.clamp Scalar.floor (1 - Scalar.floor))
    let positive ← t.mul (clamped.map Scalar.log)
    let negative ← (t.map (1 - ·)).mul (clamped.map fun a => Scalar.log (1 - a))
    return ((← positive.add negative).map (- ·)).mean

/-- The derivative with respect to the input of the loss, from its prediction. -/
def derivative (kind : Loss) (p t : Tensor α) : Except Error (Tensor α) := do
  let difference ← p.sub t
  match kind with
  | mse => return difference.scale (Scalar.ofNat 2 / Scalar.ofNat (max p.shape.size 1))
  | crossSoftmax | cross => return difference.map (· / Scalar.ofNat (max p.shape.batch 1))
  | crossSigmoid => return difference.map (· / Scalar.ofNat (max p.shape.size 1))

end Loss

/-- An activation in front of a loss, and the kind of loss that stands for both. -/
structure FusionRule where
  activation : Activation
  loss : Loss
  fused : Loss
deriving DecidableEq

/-- Softmax and sigmoid in front of a cross entropy. -/
def FusionRule.defaults : List FusionRule :=
  [⟨.softmax, .cross, .crossSoftmax⟩, ⟨.sigmoid, .cross, .crossSigmoid⟩]

end LayerGraph
