import LayerGraph.Store.Access

/-!
# Stochastic gradient descent

A weight moves against its gradient. With momentum it moves against a velocity, which is kept as
optimizer state.
-/

namespace LayerGraph

structure GradientDescent (ρ : Type) where
  learningRate : ρ
  momentum : ρ

namespace GradientDescent

variable {ρ α : Type} [Rate ρ α]

/-- One velocity of the weight's own shape with momentum, and no state without. -/
def stateShapes (descent : GradientDescent ρ) (weight : Shape) : List Shape :=
  if Rate.isPositive descent.momentum then [weight] else []

variable [Scalar α]

/-- The step to take, and the state after it. -/
def step (descent : GradientDescent ρ) (update : WeightState α) :
    Except Error (Tensor α × List (Tensor α)) :=
  match update.state with
  | velocity :: rest =>
    if Rate.isPositive descent.momentum then do
      let next ← (velocity.scale (Rate.narrow descent.momentum)).add update.gradient
      return (next, next :: rest)
    else .ok (update.gradient, update.state)
  | [] => .ok (update.gradient, [])

def apply (descent : GradientDescent ρ) (update : WeightState α) :
    Except Error (WeightState α) := do
  let (step, state) ← descent.step update
  let value ← update.value.sub (step.scale (Rate.narrow descent.learningRate))
  return { update with value := value, state := state }

end GradientDescent

end LayerGraph
