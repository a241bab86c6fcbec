/-!
# Shapes

Every tensor is a matrix. A shape is the number of rows, which is the batch for data and the fan-in
for a weight, and the width of a row.
-/

namespace LayerGraph

structure Shape where
  batch : Nat
  width : Nat
deriving DecidableEq

namespace Shape

/-- The number of elements. -/
def size (shape : Shape) : Nat := shape.batch * shape.width

def isEmpty (shape : Shape) : Bool := shape.size == 0

def rebatch (shape : Shape) (batch : Nat) : Shape := { shape with batch := batch }

@[simp] theorem batch_rebatch (shape : Shape) (b : Nat) : (shape.rebatch b).batch = b := rfl

@[simp] theorem width_rebatch (shape : Shape) (b : Nat) : (shape.rebatch b).width = shape.width :=
  rfl

def text (shape : Shape) : String := s!"[{shape.batch}, {shape.width}]"

/-- Two lengths of an axis fit if they are equal or if one of them is 1, which is then repeated. -/
def joinAxis (m n : Nat) : Option Nat :=
  if m = n then some m else if m = 1 then some n else if n = 1 then some m else none

/-- The shape on which operands of shapes `a` and `b` are combined entry by entry. -/
def join (a b : Shape) : Option Shape :=
  match joinAxis a.batch b.batch, joinAxis a.width b.width with
  | some batch, some width => some ⟨batch, width⟩
  | _, _ => none

@[simp] theorem joinAxis_self (n : Nat) : joinAxis n n = some n := by simp [joinAxis]

@[simp] theorem join_self (shape : Shape) : join shape shape = some shape := by simp [join]

end Shape

end LayerGraph
