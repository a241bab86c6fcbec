import LayerGraph.Description.Basic
import LayerGraph.Json.Format
import LayerGraph.Json.Reader

/-!
# Reading descriptions

Keys may come in any order. A key that is not known is passed over, one that is known must not be
repeated, and one that has no default must not be missing. What is passed over outside of a node
only has to be correctly written; a node, and a layer on its own, has to be readable as a whole.
-/

namespace LayerGraph

open Json

variable {α : Type}

/-- Where an initializer stands. -/
inductive Setting where
  /-- It is a text of its own. -/
  | document
  /-- It belongs to a layer. -/
  | member
  /-- It is part of a value that is looked at only as far as it is asked for. -/
  | element
deriving DecidableEq

def Activation.ofValue? (v : Value) : Option Activation := do
  let name ← v.toName?
  all.find? (·.name == name)

def Loss.ofValue? (v : Value) : Option Loss := do
  let name ← v.toName?
  all.find? (·.name == name)

def Lifetime.ofValue? (v : Value) : Option Lifetime := do
  let name ← v.toName?
  all.find? (·.name == name)

def RunMode.ofValue? (v : Value) : Option RunMode := do
  let name ← v.toName?
  all.find? (·.name == name)

/-- An object with both keys, or a list of the two. -/
def Shape.ofValue? : Value → Option Shape
  | .object entries => do
    return ⟨← (← Value.required? entries "batch").toNat?,
      ← (← Value.required? entries "width").toNat?⟩
  | .array [batch, width] => do return ⟨← batch.toNat?, ← width.toNat?⟩
  | _ => none

/-- An object with the three keys, or a list of the three. -/
def FusionRule.ofValue? : Value → Option FusionRule
  | .object entries => do
    return ⟨← Activation.ofValue? (← Value.required? entries "activation"),
      ← Loss.ofValue? (← Value.required? entries "loss"),
      ← Loss.ofValue? (← Value.required? entries "fused")⟩
  | .array [activation, loss, fused] => do
    return ⟨← Activation.ofValue? activation, ← Loss.ofValue? loss,
      ← Loss.ofValue? fused⟩
  | _ => none

namespace Initializer

/-- What stands for the missing parameters of an initializer that has none. -/
def isEmptyFor (setting : Setting) : Value → Bool
  | .null => true
  | .object [] => setting = .member
  | _ => false

variable [NumberFormat α]

/-- Two parameters, by name, or in order where lists are taken. -/
def parameters? (setting : Setting) (first second : String) : Value → Option (α × α)
  | .object entries => do
    return (← (← Value.required? entries first).toScalar?,
      ← (← Value.required? entries second).toScalar?)
  | .array [a, b] =>
    if setting = .element then none else do return (← a.toScalar?, ← b.toScalar?)
  | _ => none

def ofEntry? (setting : Setting) (key : String) (v : Value) : Option (Initializer α) :=
  match key with
  | "zeros" => if isEmptyFor setting v then some .zeros else none
  | "ones" => if isEmptyFor setting v then some .ones else none
  | "xavier_uniform" => if isEmptyFor setting v then some .xavierUniform else none
  | "constant" => v.toScalar?.map .constant
  | "uniform" => (parameters? setting "low" "high" v).map fun p => .uniform p.1 p.2
  | "normal" => (parameters? setting "mean" "std" v).map fun p => .normal p.1 p.2
  | _ => none

/-- The name of an initializer without parameters, or an object with a name as its only key. -/
def ofValue? (setting : Setting) : Value → Option (Initializer α)
  | .text name => ofEntry? setting name .null
  | .object [(key, v)] => ofEntry? setting key v
  | _ => none

end Initializer

namespace LayerDescription

/-- The layer types in the order in which they are numbered. -/
def typeNames : List String :=
  ["input", "fully_connected", "activation", "addition", "multiout", "identity", "mse", "cross",
    "cross_softmax", "cross_sigmoid"]

/-- A type by its name, and within a node also by its number. -/
def typeName? (inNode : Bool) (v : Value) : Option String :=
  match v with
  | .text name => some name
  | v => if inNode then do typeNames[← v.toNat?]? else none

/-- A layer without parameters. -/
def plain? (name : String) : Option (LayerDescription α) :=
  match name with
  | "activation" => some .activation
  | "addition" => some .addition
  | "multiout" => some .multiout
  | "identity" => some .identity
  | name => (Loss.all.find? (·.name == name)).map .loss

variable [NumberFormat α]

def initializer? (default : Initializer α) : Option Value → Option (Initializer α)
  | none => some default
  | some v => Initializer.ofValue? .member v

def ofEntries? (inNode : Bool) (entries : List (String × Value)) : Option (LayerDescription α) := do
  match ← typeName? inNode (← Value.required? entries "type") with
  | "input" => return .input (← (← Value.required? entries "input_shape").toNat?)
  | "fully_connected" =>
    let unit ← (← Value.required? entries "unit").toNat?
    let weight ← initializer? .xavierUniform (← Value.optional? entries "weight_initializer")
    let bias ← initializer? .zeros (← Value.optional? entries "bias_initializer")
    return .fullyConnected unit weight bias
  | name => plain? name

/-- The type and its parameters in order, of which the initializers may be left out. -/
def ofList? : List Value → Option (LayerDescription α)
  | .text "input" :: parameters =>
    match parameters with
    | [inputShape] => do return .input (← inputShape.toNat?)
    | _ => none
  | .text "fully_connected" :: unit :: initializers =>
    if 2 < initializers.length then none
    else do
      return .fullyConnected (← unit.toNat?) (← initializer? .xavierUniform initializers[0]?)
        (← initializer? .zeros initializers[1]?)
  | [.text name] => if name = "fully_connected" then none else plain? name
  | _ => none

def ofValue? : Value → Option (LayerDescription α)
  | .object entries => ofEntries? false entries
  | .array items => ofList? items
  | _ => none

end LayerDescription

/-- The value under a key, or the default if there is none. -/
def withDefault {β : Type} (read : Value → Option β) (default : β)
    (entries : List (String × Value)) (key : String) : Option β := do
  match ← Value.optional? entries key with
  | none => return default
  | some v => read v

variable [NumberFormat α]

def NodeDescription.ofValue? : Value → Option (NodeDescription α)
  | .object entries => do
    return {
      name := ← withDefault (Value.toOption? Value.toText?) none entries "name"
      inputs := ← withDefault (fun v => do (← v.toList?).mapM Value.toText?) [] entries "inputs"
      activation := ← withDefault Activation.ofValue? .none entries "activation"
      trainable := ← withDefault Value.toBool? true entries "trainable"
      sharedFrom := ← withDefault (Value.toOption? Value.toText?) none entries "shared_from"
      layer := ← LayerDescription.ofEntries? true entries }
  | _ => none

namespace NetworkDescription

def layers? (v : Value) : Option (List (NodeDescription α)) :=
  if v.isSound (Value.maxLevels - 1) then do (← v.toList?).mapM NodeDescription.ofValue? else none

/-- An object or a list of the two; the loss may be missing. -/
def ofValue? : Value → Option (NetworkDescription α)
  | .object entries => do
    return ⟨← layers? (← Value.required? entries "layers"),
      ← withDefault (Value.toOption? Value.toText?) none entries "loss"⟩
  | .array [layers] => do return ⟨← layers? layers, none⟩
  | .array [layers, loss] => do return ⟨← layers? layers, ← loss.toOption? Value.toText?⟩
  | _ => none

def parse (text : String) : Except Error (NetworkDescription α) :=
  match (Json.parse text).bind ofValue? with
  | some description => .ok description
  | none => .error .malformed

end NetworkDescription

/-- The value that a text describes, which has to be readable as a whole. -/
def soundValue? (text : String) : Option Value := do
  let v ← Json.parse text
  if v.isSound Value.maxLevels then return v else none

end LayerGraph
