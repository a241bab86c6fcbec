/-!
# Numbers a network computes with

The kernels are written over any carrier that has these operations, so that one definition runs at
single precision and is reasoned about over a field.
-/

namespace LayerGraph

class Scalar (α : Type) extends Add α, Sub α, Mul α, Div α, Neg α, Zero α, One α where
  ofNat : Nat → α
  lt : α → α → Bool
  exp : α → α
  log : α → α
  tanh : α → α
  sqrt : α → α
  /-- The least probability a cross entropy takes the logarithm of. -/
  floor : α

namespace Scalar

variable {α : Type} [Scalar α]

/-- A value that is not comparable stays as it is. -/
def clamp (low high x : α) : α :=
  if lt x low then low else if lt high x then high else x

def sum (xs : List α) : α := xs.foldl (· + ·) 0

/-- The sum of `f 0`, ..., `f (n - 1)`. -/
def sumRange (n : Nat) (f : Nat → α) : α := (List.range n).foldl (fun acc k => acc + f k) 0

end Scalar

/-- Rates are given in a number type of their own, which may be wider than that of the tensors:
whether a rate is positive is asked of the number as given, and a tensor is multiplied by it after
it is narrowed. -/
class Rate (ρ : Type) (α : outParam Type) where
  narrow : ρ → α
  isPositive : ρ → Bool

end LayerGraph
