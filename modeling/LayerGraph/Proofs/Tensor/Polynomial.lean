import LayerGraph.Proofs.Loss
import LayerGraph.Proofs.Rational
import Mathlib.Algebra.Polynomial.Roots

/-!
# Matrices of polynomials

A matrix of polynomials stands for a matrix of rational numbers that depends on a number. The
kernels of linear layers and the mean squared error take such matrices to such matrices, so a
dependence on a number stays one by polynomials.
-/

namespace LayerGraph

open Polynomial

theorem rational_sumRange (n : Nat) (f : Nat → ℚ) : Scalar.sumRange n f = ∑ k ∈ Finset.range n,
    f k := by
  unfold Scalar.sumRange
  induction n with
  | zero => rfl
  | succ n ih =>
    rw [List.range_succ, List.foldl_append, ih, Finset.sum_range_succ]
    rfl

/-- The sum of all entries of a matrix. -/
def Shape.sum {M : Type} [AddCommMonoid M] (shape : Shape) (f : Nat → Nat → M) : M :=
  ∑ i ∈ Finset.range shape.batch, ∑ j ∈ Finset.range shape.width, f i j

theorem Shape.sum_congr {M : Type} [AddCommMonoid M] {shape : Shape} {f f' : Nat → Nat → M}
    (h : ∀ i j, i < shape.batch → j < shape.width → f i j = f' i j) : shape.sum f = shape.sum f' :=
  Finset.sum_congr rfl fun i hi => Finset.sum_congr rfl fun j hj =>
    h i j (Finset.mem_range.mp hi) (Finset.mem_range.mp hj)

namespace Tensor

theorem rational_total (shape : Shape) (f : Nat → Nat → ℚ) :
    (ofFn shape f).total = shape.sum f := by
  unfold total
  rw [rational_sumRange, shape_ofFn, sum_range_size]
  exact Shape.sum_congr fun i j hi hj => get_ofFn shape f hi hj

/-- The matrix that a matrix of polynomials stands for. -/
def evalAt (shape : Shape) (P : Nat → Nat → ℚ[X]) (e : ℚ) : Tensor ℚ :=
  ofFn shape fun i j => (P i j).eval e

variable {shape : Shape} {P Q : Nat → Nat → ℚ[X]} {e : ℚ}

@[simp] theorem shape_evalAt : (evalAt shape P e).shape = shape := rfl

theorem get_evalAt {i j : Nat} (hi : i < shape.batch) (hj : j < shape.width) :
    (evalAt shape P e).get i j = (P i j).eval e := get_ofFn _ _ hi hj

/-- A matrix that does not depend on the number. -/
theorem evalAt_C (t : Tensor ℚ) (e : ℚ) : evalAt t.shape (fun i j => C (t.get i j)) e = t := by
  unfold evalAt
  simp only [eval_C]
  exact ofFn_get t

/-- Matrices of polynomials that stand for the same have the same entries. -/
theorem eq_of_evalAt (h : ∀ e, evalAt shape P e = evalAt shape Q e) {i j : Nat}
    (hi : i < shape.batch) (hj : j < shape.width) : P i j = Q i j := by
  refine Polynomial.funext fun e => ?_
  rw [← get_evalAt hi hj, h e, get_evalAt hi hj]

theorem add_evalAt : (evalAt shape P e).add (evalAt shape Q e) =
    .ok (evalAt shape (fun i j => P i j + Q i j) e) := by
  unfold evalAt
  simp only [eval_add]
  exact add_ofFn shape _ _

/-- A row is added to each row. -/
theorem add_row_evalAt {batch width : Nat} :
    (evalAt ⟨batch, width⟩ P e).add (evalAt ⟨1, width⟩ Q e) =
    .ok (evalAt ⟨batch, width⟩ (fun i j => P i j + Q 0 j) e) := by
  unfold evalAt add zipWith
  rw [shape_ofFn, shape_ofFn, Shape.join_row]
  refine congrArg Except.ok (ofFn_congr fun i j (hi : i < batch) (hj : j < width) => ?_)
  have hcolumn : (if width = 1 then 0 else j) = j := by
    split
    · omega
    · rfl
  have hrow : (ofFn ⟨1, width⟩ fun i j => (Q i j).eval e).spread i j = (Q 0 j).eval e := by
    unfold spread
    rw [shape_ofFn, if_pos rfl, hcolumn, get_ofFn ⟨1, width⟩ _ Nat.one_pos hj]
  rw [spread_of_lt _ hi hj, get_ofFn _ _ hi hj, hrow, eval_add]

theorem matmul_evalAt {m k n : Nat} : (evalAt ⟨m, k⟩ P e).matmul (evalAt ⟨k, n⟩ Q e) =
    .ok (evalAt ⟨m, n⟩ (fun i j => ∑ l ∈ Finset.range k, P i l * Q l j) e) := by
  unfold matmul evalAt
  rw [shape_ofFn, shape_ofFn, if_pos rfl]
  refine congrArg Except.ok (ofFn_congr fun i j (hi : i < m) (hj : j < n) => ?_)
  rw [rational_sumRange, eval_finsetSum]
  refine Finset.sum_congr rfl fun l hl => ?_
  rw [get_ofFn ⟨m, k⟩ _ hi (Finset.mem_range.mp hl), get_ofFn ⟨k, n⟩ _ (Finset.mem_range.mp hl) hj,
    eval_mul]

/-- The mean squared error of a matrix of polynomials. -/
noncomputable def errorOf (shape : Shape) (P : Nat → Nat → ℚ[X]) (target : Tensor ℚ) : ℚ[X] :=
  C (shape.size : ℚ)⁻¹ * shape.sum fun i j => (P i j - C (target.get i j)) *
    (P i j - C (target.get i j))

theorem compute_evalAt {target : Tensor ℚ} (htarget : target.shape = shape) :
    Loss.mse.compute (evalAt shape P e) target = .ok ((errorOf shape P target).eval e) := by
  have hfn : Loss.mse.compute (ofFn shape fun i j => (P i j).eval e) (ofFn shape target.get) =
      .ok ((ofFn shape fun i j =>
        ((P i j).eval e - target.get i j) * ((P i j).eval e - target.get i j)).mean) := by
    simp only [Loss.compute, sub_ofFn, mul_ofFn, except_ok_bind, except_pure]
  have hself : ofFn shape target.get = target := by rw [← htarget, ofFn_get]
  rw [hself] at hfn
  refine hfn.trans (congrArg Except.ok ?_)
  unfold mean errorOf Shape.sum
  rw [rational_total, eval_mul, eval_C, eval_finsetSum, mul_comm, ← div_eq_mul_inv, shape_ofFn]
  refine congrArg (· / (shape.size : ℚ)) (Finset.sum_congr rfl fun i _ => ?_)
  rw [eval_finsetSum]
  refine Finset.sum_congr rfl fun j _ => ?_
  rw [eval_mul, eval_sub, eval_C]

/-- The rate at which a matrix of polynomials changes at zero, weighted by the entries of a
tensor. -/
noncomputable def slope (d : Tensor ℚ) (P : Nat → Nat → ℚ[X]) : ℚ :=
  d.shape.sum fun i j => d.get i j * (P i j).coeff 1

theorem slope_congr {d : Tensor ℚ}
    (h : ∀ i j, i < d.shape.batch → j < d.shape.width → P i j = Q i j) :
    d.slope P = d.slope Q := Shape.sum_congr fun i j hi hj => by rw [h i j hi hj]

theorem slope_ofFn (shape : Shape) (f : Nat → Nat → ℚ) (P : Nat → Nat → ℚ[X]) :
    (ofFn shape f).slope P = shape.sum fun i j => f i j * (P i j).coeff 1 :=
  Shape.sum_congr fun i j hi hj => by rw [get_ofFn shape f hi hj]

theorem slope_zeros (shape : Shape) (P : Nat → Nat → ℚ[X]) : (zeros shape).slope P = 0 := by
  refine (slope_ofFn shape _ P).trans ?_
  simp only [Shape.sum, zero_mul, Finset.sum_const_zero]

theorem slope_const (d : Tensor ℚ) (f : Nat → Nat → ℚ) : d.slope (fun i j => C (f i j)) = 0 := by
  simp [slope, Shape.sum]

end Tensor

end LayerGraph
