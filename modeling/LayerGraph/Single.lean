import LayerGraph.Decimal.Binary
import LayerGraph.Decimal.Shortest
import LayerGraph.Json.Format
import LayerGraph.Scalar

/-!
# Single precision

The carrier on which networks run. Rates are double precision and narrowed where they meet a tensor.
-/

namespace LayerGraph

namespace Single

def binary? (x : Float32) : Option Decimal.Binary := Decimal.Binary.ofBits? 23 8 x.toBits.toNat

def signed (negative : Bool) (x : Float32) : Float32 := if negative then -x else x

def infinity : Float32 := .ofBits 0x7F800000

/-- The number as it is read in double precision. One that is too large has none. -/
def double? (n : Json.Number) : Option Float :=
  n.double?.map fun x =>
    let value := (Float.ofNat x.mantissa).scaleB x.exponent
    if n.negative then -value else value

/-- Integers of 64 bits are rounded at once, all other numbers by way of double precision. -/
def ofNumber? (n : Json.Number) : Option Float32 :=
  if n.isWord then some (signed n.negative (.ofScientific n.mantissa false 0))
  else (double? n).map Float.toFloat32

/-- The shortest decimal that is rounded to a finite number. The largest numbers have 39 places
before the point, the smallest 45 behind it. -/
def toNumber? (x : Float32) : Option Json.Number := do
  let b ← binary? x
  if b.mantissa = 0 then return ⟨b.negative, 0, 0, false⟩
  let (digits, exponent) ←
    Decimal.shortest? (.ofBinary b.mantissa b.exponent b.isLeast) 39 90
  return ⟨b.negative, digits, exponent, false⟩

end Single

instance : Scalar Float32 where
  zero := 0
  one := 1
  ofNat n := .ofScientific n false 0
  lt x y := decide (x < y)
  exp := Float32.exp
  log := Float32.log
  tanh := Float32.tanh
  sqrt := Float32.sqrt
  floor := 1e-7

instance : Rate Float Float32 where
  narrow := Float.toFloat32
  isPositive x := decide (0 < x)

instance : Json.NumberFormat Float32 where
  read := Single.ofNumber?
  write := Single.toNumber?

end LayerGraph
