import LayerGraph.Scalar
import Mathlib.Algebra.Field.Rat

/-!
# Rational numbers

Networks can compute with rational numbers, where nothing is rounded. What has no rational value is
taken to be zero.
-/

namespace LayerGraph

instance scalarOfRational : Scalar ℚ where
  ofNat n := n
  lt x y := decide (x < y)
  exp _ := 0
  log _ := 0
  tanh _ := 0
  sqrt _ := 0
  floor := 0

/-- Zero is found as that of the scalars first, as it is for other carriers. -/
instance (priority := high) zeroOfScalar : Zero ℚ := Scalar.toZero

instance rateOfRational : Rate ℚ ℚ where
  narrow := id
  isPositive r := decide (0 < r)

end LayerGraph
