/-!
# The steps of an iteration

With `n` nodes the forward steps are `0, ..., n - 1`. The node whose rank in the backward pass is
`b` computes weight gradients at step `n + 2 * b` and derivatives at the step after it, so that
every buffer has a first and a last step of use.
-/

namespace LayerGraph

inductive RunMode where
  | train
  | inference
deriving DecidableEq

namespace RunMode

def all : List RunMode := [train, inference]

def name : RunMode → String
  | train => "train"
  | inference => "inference"

end RunMode

/-- How long a tensor is needed, seen from the node that owns it. -/
inductive Lifetime where
  /-- While its node runs forward. -/
  | forward
  /-- While its node runs backward. -/
  | backward
  /-- From its node's forward step to its backward steps. -/
  | forwardToBackward
  /-- For a whole iteration. -/
  | iteration
  /-- For the whole run; its slot is never shared. -/
  | run
deriving DecidableEq

namespace Lifetime

def all : List Lifetime := [forward, backward, forwardToBackward, iteration, run]

def name : Lifetime → String
  | forward => "forward_func"
  | backward => "backward_func"
  | forwardToBackward => "forward_derivative"
  | iteration => "iteration"
  | run => "max"

end Lifetime

/-- A node's place in the backward pass. -/
structure BackwardTurn where
  rank : Nat
  gradientStep : Nat
deriving DecidableEq

def BackwardTurn.derivativeStep (turn : BackwardTurn) : Nat := turn.gradientStep + 1

/-- A node's place in an iteration. A node that takes no part in the backward pass has no turn in
it. -/
structure Schedule where
  forward : Nat
  backward : Option BackwardTurn
deriving DecidableEq

namespace Schedule

def oneWay (forward : Nat) : Schedule := ⟨forward, none⟩

def bothWays (forward rank numNodes : Nat) : Schedule :=
  ⟨forward, some ⟨rank, numNodes + 2 * rank⟩⟩

def backwardRank (schedule : Schedule) : Option Nat := schedule.backward.map (·.rank)

def gradientStep (schedule : Schedule) : Option Nat := schedule.backward.map (·.gradientStep)

def derivativeStep (schedule : Schedule) : Option Nat :=
  schedule.backward.map (·.derivativeStep)

def returnSteps (schedule : Schedule) : List Nat :=
  match schedule.backward with
  | none => []
  | some turn => [turn.gradientStep, turn.derivativeStep]

/-- The steps at which a tensor of the node with the given lifetime is used. -/
def usedAt (schedule : Schedule) (lifetime : Lifetime) (maxStep : Nat) : List Nat :=
  match lifetime with
  | .forward => [schedule.forward]
  | .backward => schedule.returnSteps
  | .forwardToBackward => schedule.forward :: schedule.returnSteps
  | .iteration | .run => [schedule.forward, maxStep]

end Schedule

end LayerGraph
