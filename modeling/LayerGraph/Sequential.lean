import LayerGraph.Network.Compile
import LayerGraph.Network.Growth
import LayerGraph.Network.Prepare

/-!
# Sequential models

Fully connected layers in a row behind one input, with an activation each and a loss at the end. The
built network is compiled and prepared; its buffers are not allocated yet.
-/

namespace LayerGraph

structure DenseLayer (α : Type) where
  units : Nat
  weight : Initializer α
  bias : Initializer α
  activation : Activation

structure Sequential (α : Type) where
  /-- The names of the input features. -/
  features : List String
  layers : List (DenseLayer α)
  loss : Option String
  settings : NetworkSettings

namespace Sequential

variable {α : Type}

def ofFeatures (features : List String) : Sequential α := ⟨features, [], none, .default⟩

/-- Numbered features. -/
def ofSize (size : Nat) : Sequential α :=
  ofFeatures ((List.range size).map fun i => s!"feature_{i}")

def push (model : Sequential α) (layer : DenseLayer α) : Sequential α :=
  { model with layers := model.layers ++ [layer] }

/-- A layer whose weight is random and whose bias is zero. -/
def dense (model : Sequential α) (units : Nat) (activation : Activation) : Sequential α :=
  model.push ⟨units, .xavierUniform, .zeros, activation⟩

def withLoss (model : Sequential α) (loss : String) : Sequential α :=
  { model with loss := some loss }

def withBatchSize (model : Sequential α) (batch : Nat) : Sequential α :=
  { model with settings := { model.settings with batchSize := batch } }

def withSettings (model : Sequential α) (settings : NetworkSettings) : Sequential α :=
  { model with settings := settings }

variable [Scalar α]

def denseNode (layer : DenseLayer α) (i : Nat) : Node α :=
  { Node.ofLayer (.fullyConnected layer.units layer.weight layer.bias) s!"dense_{i}" [] with
    activation := layer.activation }

/-- The nodes of the model in order. -/
def nodes (model : Sequential α) : List (Node α) :=
  .ofLayer (.input model.features.length) "features" [] ::
    model.layers.zipIdx.map fun (layer, i) => denseNode layer i

def build (model : Sequential α) : Except Error (Network α) :=
  if model.features.isEmpty then .error (.misconfigured .noFeature)
  else if model.layers.isEmpty then .error .noLayers
  else
    let action : Action (Network α) Unit := do
      model.nodes.forM Network.add
      Network.compile model.loss
      Network.prepare [] []
    match action (.ofSettings model.settings) with
    | .ok _ network => .ok network
    | .error e _ => .error e

end Sequential

end LayerGraph
