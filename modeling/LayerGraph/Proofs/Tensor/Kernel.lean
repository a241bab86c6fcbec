import LayerGraph.Loss
import LayerGraph.Proofs.Action

/-!
# Shapes of kernels

A kernel runs on operands whose shapes fit, and the shape of its result follows from theirs.
-/

namespace LayerGraph

namespace Shape

/-- A column is repeated along the rows of a matrix with as many rows. -/
theorem join_column (batch width : Nat) : join ⟨batch, width⟩ ⟨batch, 1⟩ = some ⟨batch, width⟩ := by
  by_cases h : width = 1 <;> simp [join, joinAxis, h]

/-- A row is repeated for each row of a matrix of its width. -/
theorem join_row (batch width : Nat) : join ⟨batch, width⟩ ⟨1, width⟩ = some ⟨batch, width⟩ := by
  by_cases h : batch = 1 <;> simp [join, joinAxis, h]

end Shape

variable {α : Type} [Scalar α] {s t : Tensor α} {shape : Shape}

namespace Tensor

theorem exists_zipWith (f : α → α → α) (h : s.shape.join t.shape = some shape) :
    ∃ r, zipWith f s t = .ok r ∧ r.shape = shape := by
  unfold zipWith
  rw [h]
  exact ⟨_, rfl, rfl⟩

theorem exists_add (h : s.shape.join t.shape = some shape) :
    ∃ r, s.add t = .ok r ∧ r.shape = shape :=
  exists_zipWith _ h

theorem exists_sub (h : s.shape.join t.shape = some shape) :
    ∃ r, s.sub t = .ok r ∧ r.shape = shape :=
  exists_zipWith _ h

theorem exists_mul (h : s.shape.join t.shape = some shape) :
    ∃ r, s.mul t = .ok r ∧ r.shape = shape :=
  exists_zipWith _ h

theorem exists_matmul {m n k : Nat} (hs : s.shape = ⟨m, k⟩) (ht : t.shape = ⟨k, n⟩) :
    ∃ r, s.matmul t = .ok r ∧ r.shape = ⟨m, n⟩ := by
  unfold matmul
  rw [hs, ht, if_pos rfl]
  exact ⟨_, rfl, rfl⟩

@[simp] theorem shape_scale (c : α) (t : Tensor α) : (t.scale c).shape = t.shape := rfl

@[simp] theorem shape_transpose (t : Tensor α) :
    t.transpose.shape = ⟨t.shape.width, t.shape.batch⟩ := rfl

@[simp] theorem shape_columnSums (t : Tensor α) : t.columnSums.shape = ⟨1, t.shape.width⟩ := rfl

@[simp] theorem shape_rowSums (t : Tensor α) : t.rowSums.shape = ⟨t.shape.batch, 1⟩ := rfl

omit [Scalar α] in
@[simp] theorem shape_zeros [Zero α] (shape : Shape) : (zeros shape : Tensor α).shape = shape := rfl

end Tensor

/-- The derivative of an activation has the shape of its operands. -/
theorem Activation.exists_derivative (f : Activation) {y dy : Tensor α} (h : dy.shape = y.shape) :
    ∃ r, f.derivative y dy = .ok r ∧ r.shape = y.shape := by
  have hjoin : ∀ g : α → α, (y.map g).shape.join dy.shape = some y.shape := fun g => by
    rw [h, Tensor.shape_map, Shape.join_self]
  cases f with
  | none => exact ⟨dy, rfl, h⟩
  | relu | sigmoid | tanh => exact Tensor.exists_mul (hjoin _)
  | softmax =>
    obtain ⟨product, hproduct, hp⟩ := Tensor.exists_mul (s := dy) (t := y)
      (by rw [h, Shape.join_self])
    obtain ⟨difference, hdifference, hd⟩ := Tensor.exists_sub (s := dy) (t := product.rowSums)
      (by rw [Tensor.shape_rowSums, hp, h]; exact Shape.join_column _ _)
    obtain ⟨r, hr, hshape⟩ := Tensor.exists_mul (s := y) (t := difference)
      (by rw [hd, Shape.join_self])
    exact ⟨r, by simp only [Activation.derivative, hproduct, except_ok_bind, hdifference, hr],
      hshape⟩

namespace Loss

variable {p t : Tensor α}

theorem exists_compute (kind : Loss) (h : t.shape = p.shape) :
    ∃ loss, kind.compute p t = .ok loss := by
  have hmul : ∀ {a b : Tensor α}, a.shape = p.shape → b.shape = p.shape →
      ∃ r, a.mul b = .ok r ∧ r.shape = p.shape := fun ha hb =>
    Tensor.exists_mul (by rw [ha, hb, Shape.join_self])
  cases kind with
  | mse =>
    obtain ⟨d, hd, hshape⟩ := Tensor.exists_sub (s := p) (t := t) (by rw [h, Shape.join_self])
    obtain ⟨r, hr, -⟩ := hmul hshape hshape
    simp only [compute, hd, except_ok_bind, hr]
    exact ⟨_, rfl⟩
  | cross | crossSoftmax =>
    obtain ⟨r, hr, -⟩ := hmul (b := logClamped 1 p) h rfl
    simp only [compute, hr, except_ok_bind]
    exact ⟨_, rfl⟩
  | crossSigmoid =>
    obtain ⟨positive, hpos, hp⟩ := hmul (a := t)
      (b := (p.map (Scalar.clamp Scalar.floor (1 - Scalar.floor))).map Scalar.log) h rfl
    obtain ⟨negative, hneg, hn⟩ := hmul (a := t.map (1 - ·))
      (b := (p.map (Scalar.clamp Scalar.floor (1 - Scalar.floor))).map fun a => Scalar.log (1 - a))
      h rfl
    obtain ⟨r, hr, -⟩ := Tensor.exists_add (s := positive) (t := negative)
      (by rw [hp, hn, Shape.join_self])
    simp only [compute, hpos, except_ok_bind, hneg, hr]
    exact ⟨_, rfl⟩

theorem exists_derivative (kind : Loss) (h : t.shape = p.shape) :
    ∃ r, kind.derivative p t = .ok r ∧ r.shape = p.shape := by
  obtain ⟨d, hd, hshape⟩ := Tensor.exists_sub (s := p) (t := t) (by rw [h, Shape.join_self])
  unfold derivative
  rw [hd, except_ok_bind]
  cases kind <;> exact ⟨_, rfl, hshape⟩

end Loss

end LayerGraph
