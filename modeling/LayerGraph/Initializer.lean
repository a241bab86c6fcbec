import LayerGraph.Tensor.Kernel

/-!
# Initial values

What a tensor holds before it is written. The random initializers draw from a fixed stream of
numbers, so that filling a tensor is a function of its shape and a seed.
-/

namespace LayerGraph

inductive Initializer (α : Type) where
  | zeros
  | ones
  | constant (value : α)
  | uniform (low high : α)
  | normal (mean std : α)
  /-- Uniform with limit `sqrt (6 / (fan in + fan out))`. -/
  | xavierUniform
deriving DecidableEq

namespace Initializer

variable {α : Type}

def isRandom : Initializer α → Bool
  | uniform _ _ | normal _ _ | xavierUniform => true
  | zeros | ones | constant _ => false

/-- A pseudo-random number below `2 ^ 20` from a seed and a position. -/
def noise (seed k : Nat) : Nat :=
  let x := (seed * 40503 + k + 1) * 2654435761 % Nat.pow 2 32
  let y := (x ^^^ (x >>> 15)) * 2246822519 % Nat.pow 2 32
  (y ^^^ (y >>> 13)) % Nat.pow 2 20

variable [Scalar α]

/-- A number strictly between 0 and 1. -/
def unit (seed k : Nat) : α :=
  Scalar.ofNat (2 * noise seed k + 1) / Scalar.ofNat (Nat.pow 2 21)

def uniformValue (low high : α) (seed k : Nat) : α :=
  Scalar.clamp low high (low + (high - low) * unit seed k)

/-- The sum of twelve uniform numbers has variance 1. -/
def normalValue (mean std : α) (seed k : Nat) : α :=
  mean + std * (Scalar.sumRange 12 (fun i => unit seed (12 * k + i)) - Scalar.ofNat 6)

def xavierLimit (shape : Shape) : α :=
  Scalar.sqrt (Scalar.ofNat 6 / Scalar.ofNat (max (shape.batch + shape.width) 1))

def fill (init : Initializer α) (seed : Nat) (shape : Shape) : Tensor α :=
  match init with
  | zeros => .zeros shape
  | ones => .const shape 1
  | constant value => .const shape value
  | uniform low high =>
    .ofFn shape fun i j => uniformValue low high seed (i * shape.width + j)
  | normal mean std =>
    .ofFn shape fun i j => normalValue mean std seed (i * shape.width + j)
  | xavierUniform =>
    .ofFn shape fun i j =>
      uniformValue (-xavierLimit shape) (xavierLimit shape) seed (i * shape.width + j)

@[simp] theorem shape_fill (init : Initializer α) (seed : Nat) (shape : Shape) :
    (init.fill seed shape).shape = shape := by
  cases init <;> rfl

end Initializer

end LayerGraph
