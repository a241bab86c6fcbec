import Mathlib.Algebra.BigOperators.Group.Finset.Basic
import Mathlib.Algebra.Field.Defs
import LayerGraph.Scalar

/-!
# Dual numbers

A dual number is a value with the rate at which it changes. What is computed with dual numbers
carries its derivative along: a sum, a product and a quotient follow the rules of differentiation,
and a comparison looks at the values only. Numbers are taken from any ordered field, so that nothing
is rounded.
-/

namespace LayerGraph

/-- The functions of numbers that a field does not come with. -/
class Elementary (K : Type) where
  exp : K → K
  log : K → K
  tanh : K → K
  sqrt : K → K

/-- Exact arithmetic, with the least probability that single precision uses too. -/
instance scalarOfField {K : Type} [Field K] [LinearOrder K] [Elementary K] : Scalar K where
  ofNat n := n
  lt x y := decide (x < y)
  exp := Elementary.exp
  log := Elementary.log
  tanh := Elementary.tanh
  sqrt := Elementary.sqrt
  floor := 1 / 10 ^ 7

@[ext]
structure Dual (α : Type) where
  value : α
  slope : α

namespace Dual

instance scalar {α : Type} [Scalar α] : Scalar (Dual α) where
  add a b := ⟨a.value + b.value, a.slope + b.slope⟩
  sub a b := ⟨a.value - b.value, a.slope - b.slope⟩
  mul a b := ⟨a.value * b.value, a.slope * b.value + a.value * b.slope⟩
  div a b := ⟨a.value / b.value, (a.slope * b.value - a.value * b.slope) / (b.value * b.value)⟩
  neg a := ⟨-a.value, -a.slope⟩
  zero := ⟨0, 0⟩
  one := ⟨1, 0⟩
  ofNat n := ⟨Scalar.ofNat n, 0⟩
  lt a b := Scalar.lt a.value b.value
  exp a := ⟨Scalar.exp a.value, Scalar.exp a.value * a.slope⟩
  log a := ⟨Scalar.log a.value, a.slope / a.value⟩
  tanh a := ⟨Scalar.tanh a.value, (1 - Scalar.tanh a.value * Scalar.tanh a.value) * a.slope⟩
  sqrt a := ⟨Scalar.sqrt a.value, a.slope / (Scalar.sqrt a.value + Scalar.sqrt a.value)⟩
  floor := ⟨Scalar.floor, 0⟩

section Parts

variable {α : Type} [Scalar α] (a b : Dual α)

@[simp] theorem value_add : (a + b).value = a.value + b.value := rfl

@[simp] theorem slope_add : (a + b).slope = a.slope + b.slope := rfl

@[simp] theorem value_sub : (a - b).value = a.value - b.value := rfl

@[simp] theorem slope_sub : (a - b).slope = a.slope - b.slope := rfl

@[simp] theorem value_mul : (a * b).value = a.value * b.value := rfl

@[simp] theorem slope_mul : (a * b).slope = a.slope * b.value + a.value * b.slope := rfl

@[simp] theorem value_div : (a / b).value = a.value / b.value := rfl

@[simp] theorem slope_div : (a / b).slope = (a.slope * b.value - a.value * b.slope) /
      (b.value * b.value) := rfl

@[simp] theorem value_neg : (-a).value = -a.value := rfl

@[simp] theorem slope_neg : (-a).slope = -a.slope := rfl

@[simp] theorem value_zero : (0 : Dual α).value = 0 := rfl

@[simp] theorem slope_zero : (0 : Dual α).slope = 0 := rfl

@[simp] theorem value_one : (1 : Dual α).value = 1 := rfl

@[simp] theorem slope_one : (1 : Dual α).slope = 0 := rfl

@[simp] theorem value_ofNat (n : Nat) : (Scalar.ofNat n : Dual α).value = Scalar.ofNat n := rfl

@[simp] theorem slope_ofNat (n : Nat) : (Scalar.ofNat n : Dual α).slope = 0 := rfl

@[simp] theorem value_log : (Scalar.log a).value = Scalar.log a.value := rfl

@[simp] theorem slope_log : (Scalar.log a).slope = a.slope / a.value := rfl

@[simp] theorem value_floor : (Scalar.floor : Dual α).value = Scalar.floor := rfl

/-- A bound that is not reached does not matter. -/
theorem clamp_of_lt {low high a : Dual α} (hlow : Scalar.lt a.value low.value = false)
    (hhigh : Scalar.lt high.value a.value = false) : Scalar.clamp low high a = a := by
  have hl : Scalar.lt a low = false := hlow
  have hh : Scalar.lt high a = false := hhigh
  simp [Scalar.clamp, hl, hh]

theorem value_sumRange (n : Nat) (f : Nat → Dual α) :
    (Scalar.sumRange n f).value = Scalar.sumRange n fun k => (f k).value := by
  unfold Scalar.sumRange
  induction n with
  | zero => rfl
  | succ n ih =>
    simp only [List.range_succ, List.foldl_append, List.foldl_cons, List.foldl_nil, value_add, ih]

theorem slope_sumRange (n : Nat) (f : Nat → Dual α) :
    (Scalar.sumRange n f).slope = Scalar.sumRange n fun k => (f k).slope := by
  unfold Scalar.sumRange
  induction n with
  | zero => rfl
  | succ n ih =>
    simp only [List.range_succ, List.foldl_append, List.foldl_cons, List.foldl_nil, slope_add, ih]

end Parts

end Dual

section Field

variable {K : Type} [Field K] [LinearOrder K] [Elementary K]

theorem sumRange_eq_sum (n : Nat) (f : Nat → K) : Scalar.sumRange n f = ∑ k ∈ Finset.range n,
    f k := by
  unfold Scalar.sumRange
  induction n with
  | zero => rfl
  | succ n ih =>
    rw [List.range_succ, List.foldl_append, ih, Finset.sum_range_succ]
    rfl

theorem scalar_ofNat (n : Nat) : (Scalar.ofNat n : K) = n := rfl

theorem floor_eq : (Scalar.floor : K) = 1 / 10 ^ 7 := rfl

theorem scalar_lt_eq_false {x y : K} (h : y ≤ x) : Scalar.lt x y = false :=
  decide_eq_false (not_lt.mpr h)

theorem clamp_of_mem {low high x : K} (hlow : low ≤ x) (hhigh : x ≤ high) :
    Scalar.clamp low high x = x := by
  simp [Scalar.clamp, scalar_lt_eq_false hlow, scalar_lt_eq_false hhigh]

end Field

end LayerGraph
