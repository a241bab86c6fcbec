import LayerGraph.Shape
import LayerGraph.Scalar

/-!
# Matrices

A tensor holds the entries of a matrix row by row. It is built from a function on positions and read
by position; `get_ofFn` and `ext` say that these two are all there is to it.
-/

namespace LayerGraph

structure Tensor (α : Type) where
  shape : Shape
  values : Array α
  size_eq : values.size = shape.size

namespace Tensor

variable {α β : Type}

def ofFn (shape : Shape) (f : Nat → Nat → α) : Tensor α where
  shape := shape
  values := Array.ofFn fun k : Fin shape.size => f (k / shape.width) (k % shape.width)
  size_eq := Array.size_ofFn

/-- The entry in row `i` and column `j`, and zero outside of the matrix. -/
def get [Zero α] (t : Tensor α) (i j : Nat) : α := t.values.getD (i * t.shape.width + j) 0

@[simp] theorem shape_ofFn (shape : Shape) (f : Nat → Nat → α) : (ofFn shape f).shape = shape := rfl

theorem get_ofFn [Zero α] (shape : Shape) (f : Nat → Nat → α) {i j : Nat} (hi : i < shape.batch)
    (hj : j < shape.width) : (ofFn shape f).get i j = f i j := by
  have hk : i * shape.width + j < shape.size := by
    have : (i + 1) * shape.width ≤ shape.batch * shape.width := Nat.mul_le_mul_right _ hi
    simp only [Shape.size]
    rw [Nat.add_mul] at this
    omega
  have hw : 0 < shape.width := by omega
  have hdiv : (i * shape.width + j) / shape.width = i := by
    rw [Nat.mul_comm, Nat.mul_add_div hw, Nat.div_eq_of_lt hj, Nat.add_zero]
  have hmod : (i * shape.width + j) % shape.width = j := by
    rw [Nat.mul_comm, Nat.mul_add_mod, Nat.mod_eq_of_lt hj]
  simp [get, ofFn, hk, hdiv, hmod]

theorem ext [Zero α] {s t : Tensor α} (hd : s.shape = t.shape)
    (h : ∀ i j, i < s.shape.batch → j < s.shape.width → s.get i j = t.get i j) : s = t := by
  obtain ⟨d, v, hv⟩ := s
  obtain ⟨d', v', hv'⟩ := t
  obtain rfl : d = d' := hd
  have : v = v' := by
    apply Array.ext (by rw [hv, hv'])
    intro k hk hk'
    have hks : k < d.batch * d.width := by simpa [Shape.size, hv] using hk
    have hw : 0 < d.width := by
      rcases Nat.eq_zero_or_pos d.width with h0 | h0
      · simp [h0] at hks
      · exact h0
    have := h (k / d.width) (k % d.width) ((Nat.div_lt_iff_lt_mul hw).2 hks) (Nat.mod_lt _ hw)
    simpa [get, Nat.div_add_mod', hk, hk'] using this
  subst this
  rfl

/-- A row of the matrix. -/
def row [Zero α] (t : Tensor α) (i : Nat) : List α := (List.range t.shape.width).map (t.get i)

/-- The rows of the matrix; none if they have no entries. -/
def toRows [Zero α] (t : Tensor α) : List (List α) :=
  if t.shape.width = 0 then [] else (List.range t.shape.batch).map t.row

/-- Rows of the given width; what a row lacks is zero. -/
def ofRows [Zero α] (width : Nat) (rows : List (List α)) : Tensor α :=
  ofFn ⟨rows.length, width⟩ fun i j => (rows.getD i []).getD j 0

def const (shape : Shape) (c : α) : Tensor α := ofFn shape fun _ _ => c

def zeros [Zero α] (shape : Shape) : Tensor α := const shape 0

end Tensor

end LayerGraph
