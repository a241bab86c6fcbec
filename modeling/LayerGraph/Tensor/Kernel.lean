import LayerGraph.Error
import LayerGraph.Tensor.Basic

/-!
# Kernels

The operations on whole matrices that layers are made of. A kernel with two operands repeats an axis
of length 1 to the length of the other operand's axis, and fails on operands that do not fit.
-/

namespace LayerGraph.Tensor

variable {α : Type} [Scalar α]

def map (f : α → α) (t : Tensor α) : Tensor α := ofFn t.shape fun i j => f (t.get i j)

@[simp] theorem shape_map (f : α → α) (t : Tensor α) : (t.map f).shape = t.shape := rfl

theorem get_map (f : α → α) (t : Tensor α) {i j : Nat} (hi : i < t.shape.batch)
    (hj : j < t.shape.width) : (t.map f).get i j = f (t.get i j) := get_ofFn _ _ hi hj

/-- The entry at a position of the joined shape, where an axis of length 1 is repeated. -/
def spread (t : Tensor α) (i j : Nat) : α :=
  t.get (if t.shape.batch = 1 then 0 else i) (if t.shape.width = 1 then 0 else j)

theorem spread_of_lt (t : Tensor α) {i j : Nat} (hi : i < t.shape.batch) (hj : j < t.shape.width) :
    t.spread i j = t.get i j := by
  have hi' : (if t.shape.batch = 1 then 0 else i) = i := by split <;> omega
  have hj' : (if t.shape.width = 1 then 0 else j) = j := by split <;> omega
  simp [spread, hi', hj']

def zipWith (f : α → α → α) (s t : Tensor α) : Except Error (Tensor α) :=
  match s.shape.join t.shape with
  | some shape => .ok (ofFn shape fun i j => f (s.spread i j) (t.spread i j))
  | none => .error (.incompatible s.shape t.shape)

def add (s t : Tensor α) : Except Error (Tensor α) := zipWith (· + ·) s t

def sub (s t : Tensor α) : Except Error (Tensor α) := zipWith (· - ·) s t

def mul (s t : Tensor α) : Except Error (Tensor α) := zipWith (· * ·) s t

def scale (c : α) (t : Tensor α) : Tensor α := t.map (· * c)

def matmul (s t : Tensor α) : Except Error (Tensor α) :=
  if s.shape.width = t.shape.batch then
    .ok (ofFn ⟨s.shape.batch, t.shape.width⟩ fun i j =>
      Scalar.sumRange s.shape.width fun k => s.get i k * t.get k j)
  else .error (.incompatible s.shape t.shape)

def transpose (t : Tensor α) : Tensor α :=
  ofFn ⟨t.shape.width, t.shape.batch⟩ fun i j => t.get j i

/-- The sum of each column, as one row. -/
def columnSums (t : Tensor α) : Tensor α :=
  ofFn ⟨1, t.shape.width⟩ fun _ j => Scalar.sumRange t.shape.batch fun i => t.get i j

/-- The sum of each row, as one column. -/
def rowSums (t : Tensor α) : Tensor α :=
  ofFn ⟨t.shape.batch, 1⟩ fun i _ => Scalar.sumRange t.shape.width fun j => t.get i j

/-- The sum of all entries, added row by row. -/
def total (t : Tensor α) : α := Scalar.sumRange t.shape.size fun k => t.values.getD k 0

def mean (t : Tensor α) : α := t.total / Scalar.ofNat t.shape.size

end LayerGraph.Tensor
