import LayerGraph.Json.Value

/-!
# Numbers in texts

How the numbers of a carrier are written and read. A number that cannot be written is `null`, which
cannot be read.
-/

namespace LayerGraph.Json

class NumberFormat (α : Type) where
  read : Number → Option α
  write : α → Option Number

variable {α : Type} [NumberFormat α]

def Value.ofScalar (x : α) : Value := .ofOption .number (NumberFormat.write x)

def Value.toScalar? : Value → Option α
  | .number n => NumberFormat.read n
  | _ => none

end LayerGraph.Json
