import LayerGraph.Tensor.Kernel

/-!
# Activations

Every derivative is written in terms of the activation's output, so that an activation does not need
its input once it has run.
-/

namespace LayerGraph

inductive Activation where
  | none
  | relu
  | sigmoid
  | tanh
  | softmax
deriving DecidableEq

namespace Activation

def all : List Activation := [none, relu, sigmoid, tanh, softmax]

def name : Activation → String
  | none => "none"
  | relu => "relu"
  | sigmoid => "sigmoid"
  | tanh => "tanh"
  | softmax => "softmax"

/-- Names are compared without regard to case. They are plain letters, and no other character than
their own capitals has them as its small letters, so lowering the capitals A to Z is enough. -/
def ofName? (text : String) : Option Activation := all.find? (·.name == text.toLower)

variable {α : Type} [Scalar α]

/-- The largest entry of a row; an entry that is not comparable counts only in front. -/
def rowMax (x : Tensor α) (i : Nat) : α :=
  (List.range x.shape.width).foldl
    (fun best j => if Scalar.lt best (x.get i j) then x.get i j else best) (x.get i 0)

/-- Row by row, `exp x / sum (exp x)`, where the row is first lowered by its largest entry. -/
def softmaxRows (x : Tensor α) : Tensor α :=
  let powers := Tensor.ofFn x.shape fun i j => Scalar.exp (x.get i j - rowMax x i)
  let totals := powers.rowSums
  Tensor.ofFn x.shape fun i j => powers.get i j / totals.get i 0

/-- Every activation keeps the shape. The sigmoid `1 / (exp (-a) + 1)` is taken as the exponential
of its logarithm. -/
def apply (f : Activation) (x : Tensor α) : Tensor α :=
  match f with
  | none => x
  | relu => x.map fun a => if Scalar.lt a 0 then 0 else a
  | sigmoid => x.map fun a => Scalar.exp (-Scalar.log (Scalar.exp (-a) + 1))
  | tanh => x.map Scalar.tanh
  | softmax => softmaxRows x

@[simp] theorem shape_apply (f : Activation) (x : Tensor α) : (f.apply x).shape = x.shape := by
  cases f <;> rfl

/-- The derivative with respect to the input, from the output `y` and the derivative `dy` with
respect to it. -/
def derivative (f : Activation) (y dy : Tensor α) : Except Error (Tensor α) :=
  match f with
  | none => .ok dy
  | relu => (y.map fun a => if Scalar.lt 0 a then 1 else 0).mul dy
  | sigmoid => (y.map fun a => a * (-a + 1)).mul dy
  | tanh => (y.map fun a => -(a * a) + 1).mul dy
  | softmax => do
    let dot := (← dy.mul y).rowSums
    y.mul (← dy.sub dot)

end Activation

end LayerGraph
