/-!
# Binary floating point

The finite numbers of a binary format, read off their bits as `mantissa * 2 ^ exponent`.
-/

namespace LayerGraph.Decimal

structure Binary where
  negative : Bool
  mantissa : Nat
  exponent : Int
  /-- The mantissa is the least with this exponent, and there are smaller exponents. -/
  isLeast : Bool
deriving DecidableEq

namespace Binary

/-- Read a number with the given widths of its two fields; infinities and what is no number have no
value. -/
def ofBits? (fractionBits exponentBits bits : Nat) : Option Binary :=
  let fraction := bits % Nat.pow 2 fractionBits
  let field := bits / Nat.pow 2 fractionBits % Nat.pow 2 exponentBits
  let bias : Int := Nat.pow 2 (exponentBits - 1) - 1 + fractionBits
  let negative := bits / Nat.pow 2 (fractionBits + exponentBits) % 2 == 1
  if field = Nat.pow 2 exponentBits - 1 then none
  else if field = 0 then some ⟨negative, fraction, 1 - bias, false⟩
  else
    some ⟨negative, fraction + Nat.pow 2 fractionBits, field - bias, fraction == 0 && field != 1⟩

end Binary

end LayerGraph.Decimal
