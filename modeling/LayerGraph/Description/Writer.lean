import LayerGraph.Description.Basic
import LayerGraph.Json.Format
import LayerGraph.Json.Printer

/-!
# Writing descriptions

The keys are written in a fixed order, with those that could be left out. A layer's own keys follow
those of its node.
-/

namespace LayerGraph

open Json

variable {α : Type}

def Shape.toValue (shape : Shape) : Value :=
  .object [("batch", .ofNat shape.batch), ("width", .ofNat shape.width)]

def FusionRule.toValue (rule : FusionRule) : Value :=
  .object [
    ("activation", .text rule.activation.name),
    ("loss", .text rule.loss.name),
    ("fused", .text rule.fused.name)]

variable [NumberFormat α]

def Initializer.toValue : Initializer α → Value
  | zeros => .text "zeros"
  | ones => .text "ones"
  | constant value => .object [("constant", .ofScalar value)]
  | uniform low high =>
    .object [("uniform", .object [("low", .ofScalar low), ("high", .ofScalar high)])]
  | normal mean std =>
    .object [("normal", .object [("mean", .ofScalar mean), ("std", .ofScalar std)])]
  | xavierUniform => .text "xavier_uniform"

def LayerDescription.toEntries (description : LayerDescription α) : List (String × Value) :=
  ("type", .text description.typeName) ::
    match description with
    | input inputShape => [("input_shape", .ofNat inputShape)]
    | fullyConnected unit weight bias => [
        ("unit", .ofNat unit),
        ("weight_initializer", weight.toValue),
        ("bias_initializer", bias.toValue)]
    | _ => []

def LayerDescription.toValue (description : LayerDescription α) : Value :=
  .object description.toEntries

def NodeDescription.toValue (description : NodeDescription α) : Value :=
  .object ([
    ("name", .ofOption .text description.name),
    ("inputs", .ofList .text description.inputs),
    ("activation", .text description.activation.name),
    ("trainable", .bool description.trainable),
    ("shared_from", .ofOption .text description.sharedFrom)] ++ description.layer.toEntries)

def NetworkDescription.toValue (description : NetworkDescription α) : Value :=
  .object [
    ("layers", .ofList NodeDescription.toValue description.layers),
    ("loss", .ofOption .text description.loss)]

def NetworkDescription.text (description : NetworkDescription α) : String :=
  description.toValue.pretty

end LayerGraph
