/-!
# Double precision

The numbers that are not negative, and what a decimal is read as. Of a decimal as many leading
digits are taken as fit into a word, and what they stand for is multiplied or divided by a power of
ten. Each step is rounded, so that a decimal with many digits may be read as a neighbour of the
number nearest to it.
-/

namespace LayerGraph.Decimal

/-- The whole number nearest to a fraction, and the even one of two. -/
def roundDiv (num den : Nat) : Nat :=
  let q := num / den
  let r := num % den
  if 2 * r < den then q else if den < 2 * r then q + 1 else q + q % 2

theorem roundDiv_le (num den : Nat) : 2 * (den * roundDiv num den) ≤ 2 * num + den := by
  have := Nat.div_add_mod num den
  have h : den * (num / den + num / den % 2) =
      den * (num / den) + if num / den % 2 = 0 then 0 else den := by
    rcases Nat.mod_two_eq_zero_or_one (num / den) with h | h <;> simp [h, Nat.mul_add]
  unfold roundDiv
  dsimp only
  split
  · omega
  · split
    · rw [Nat.mul_add, Nat.mul_one]
      omega
    · rw [h]
      split <;> omega

theorem le_roundDiv (num : Nat) {den : Nat} (hd : 0 < den) :
    2 * num ≤ 2 * (den * roundDiv num den) + den := by
  have := Nat.div_add_mod num den
  have := Nat.mod_lt num hd
  have h : den * (num / den) ≤ den * (num / den + num / den % 2) :=
    Nat.mul_le_mul_left _ (Nat.le_add_right _ _)
  unfold roundDiv
  dsimp only
  split
  · omega
  · split
    · rw [Nat.mul_add, Nat.mul_one]
      omega
    · omega

/-- The number `mantissa * 2 ^ exponent`. -/
structure Double where
  mantissa : Nat
  exponent : Int
deriving DecidableEq

namespace Double

/-- The exponent of the numbers that are too small for 53 bits. -/
def leastExponent : Int := -1074

/-- The exponent at which a fraction has 53 bits, unless it is too small for them. -/
def exponentOf (num den : Nat) : Int :=
  let bits : Int := num.log2 - den.log2
  let top :=
    if num * Nat.pow 2 (-bits).toNat < den * Nat.pow 2 bits.toNat then bits - 1 else bits
  if top - 52 < leastExponent then leastExponent else top - 52

/-- The number nearest to a fraction, without regard to size. -/
def nearest (num den : Nat) : Double :=
  let e := exponentOf num den
  ⟨roundDiv (num * Nat.pow 2 (-e).toNat) (den * Nat.pow 2 e.toNat), e⟩

/-- The number nearest to `num / den * 2 ^ shift`. -/
def nearestShifted (num den : Nat) (shift : Int) : Double :=
  nearest (num * Nat.pow 2 shift.toNat) (den * Nat.pow 2 (-shift).toNat)

def mul (x y : Double) : Double :=
  nearestShifted (x.mantissa * y.mantissa) 1 (x.exponent + y.exponent)

def div (x y : Double) : Double :=
  nearestShifted x.mantissa y.mantissa (x.exponent - y.exponent)

def isFinite (x : Double) : Bool := x.mantissa * Nat.pow 2 x.exponent.toNat < Nat.pow 2 1024

/-- The powers of ten up to this one are finite. -/
def maxPower : Nat := 308

def powerOfTen (n : Nat) : Double := nearest (Nat.pow 10 n) 1

/-- Multiply by a power of ten; nothing if the product is not finite. -/
def scaleUp? (x : Double) (n : Nat) : Option Double :=
  if x.mantissa = 0 then some x
  else if maxPower < n then none
  else
    let product := x.mul (powerOfTen n)
    if product.isFinite then some product else none

/-- Divide a number below `2 ^ 64` by a power of ten. Two steps are enough: what is left after two
divisions by the largest power is zero. -/
def scaleDown (x : Double) (n : Nat) : Double :=
  if n ≤ maxPower then x.div (powerOfTen n)
  else if n ≤ 2 * maxPower then (x.div (powerOfTen maxPower)).div (powerOfTen (n - maxPower))
  else ⟨0, leastExponent⟩

end Double

/-- The leading digits of a number that fit into 64 bits, and the count of the others. A word has
room for all numbers of 19 digits and for some of 20. -/
def leadingDigits (digits : Nat) : Nat × Nat :=
  let others := (Nat.toDigits 10 digits).length - 20
  if digits / Nat.pow 10 others < Nat.pow 2 64 then (digits / Nat.pow 10 others, others)
  else (digits / Nat.pow 10 (others + 1), others + 1)

/-- What the decimal `digits * 10 ^ exponent` is read as; nothing if it is too large. -/
def Double.ofDecimal? (digits : Nat) (exponent : Int) : Option Double :=
  let (word, others) := leadingDigits digits
  let shift := exponent + others
  let x := nearest word 1
  if 0 ≤ shift then x.scaleUp? shift.toNat else some (x.scaleDown (-shift).toNat)

end LayerGraph.Decimal
