/-!
# Shortest decimals

A number with finite precision stands for all the numbers that are rounded to it. Its shortest
decimal is taken from the coarsest grid of multiples of a power of ten that has a point among them;
of two such points it is the nearer one, and the even one of two that are equally near.
-/

namespace LayerGraph.Decimal

/-- The value `value / unit` between the ends of what is rounded to it, all over one denominator. -/
structure Target where
  low : Nat
  value : Nat
  high : Nat
  unit : Nat
  /-- Whether the ends are rounded to the value, too. -/
  closed : Bool

namespace Target

/-- The target `m * 2 ^ q`. Where `m` is the least with its exponent, the numbers below it are half
as far apart. -/
def ofBinary (m : Nat) (q : Int) (isLeast : Bool) : Target :=
  let up := Nat.pow 2 q.toNat
  let low := if isLeast then 4 * m - 1 else 4 * m - 2
  ⟨low * up, 4 * m * up, (4 * m + 2) * up, 4 * Nat.pow 2 (-q).toNat, m % 2 == 0⟩

/-- The target in units of `10 ^ k`. -/
def scale (t : Target) (k : Int) : Target :=
  let down := Nat.pow 10 (-k).toNat
  ⟨t.low * down, t.value * down, t.high * down, t.unit * Nat.pow 10 k.toNat, t.closed⟩

/-- Whether a whole number of units is rounded to the value. -/
def meets (t : Target) (c : Nat) : Bool :=
  if t.closed then t.low ≤ c * t.unit && c * t.unit ≤ t.high
  else t.low < c * t.unit && c * t.unit < t.high

/-- The nearest whole number of units that is rounded to the value. -/
def nearest? (t : Target) : Option Nat :=
  let c := t.value / t.unit
  match t.meets c, t.meets (c + 1) with
  | false, false => none
  | true, false => some c
  | false, true => some (c + 1)
  | true, true =>
    if 2 * t.value < (2 * c + 1) * t.unit then some c
    else if (2 * c + 1) * t.unit < 2 * t.value then some (c + 1)
    else if c % 2 = 0 then some c else some (c + 1)

end Target

/-- The digits and the exponent of the shortest decimal with an exponent from `top` down to
`top - count + 1`. -/
def shortest? (t : Target) (top : Int) (count : Nat) : Option (Nat × Int) :=
  (List.range count).findSome? fun (i : Nat) =>
    ((t.scale (top - i)).nearest?).map (·, top - i)

end LayerGraph.Decimal
