import LayerGraph.Proofs.Layer.Dataflow
import LayerGraph.Proofs.Tensor.Entries
import Mathlib.Data.List.Perm.Basic

/-!
# Sums in any order

Where addition is commutative and associative, numbers and tensors of one shape can be added in any
order.
-/

namespace LayerGraph

variable {α : Type} [Scalar α] (hcomm : ∀ x y : α, x + y = y + x)
  (hassoc : ∀ x y z : α, x + y + z = x + (y + z))
include hcomm hassoc

theorem Scalar.sum_perm {xs ys : List α} (h : xs.Perm ys) : Scalar.sum xs = Scalar.sum ys :=
  h.foldl_eq' (fun x _ y _ z => by rw [hassoc, hassoc, hcomm x y]) 0

/-- A sum that starts with its first summand. No number has to be neutral for that. -/
theorem foldl_add_perm {x y : α} {xs ys : List α} (h : (x :: xs).Perm (y :: ys)) :
    xs.foldl (· + ·) x = ys.foldl (· + ·) y := by
  have : Std.Commutative (fun x y : α => x + y) := ⟨hcomm⟩
  have : Std.Associative (fun x y : α => x + y) := ⟨hassoc⟩
  have hmerge : ∀ (x : α) (xs : List α), (xs.map some).foldl (Option.merge (· + ·)) (some x) =
      some (xs.foldl (· + ·) x) := by
    intro x xs
    induction xs generalizing x with
    | nil => rfl
    | cons y ys ih => exact ih (x + y)
  have hsum : ((x :: xs).map some).foldl (Option.merge (· + ·)) none = ((y :: ys).map some).foldl
      (Option.merge (· + ·)) none :=
    (h.map some).foldl_op_eq
  exact Option.some.inj ((hmerge x xs).symm.trans (hsum.trans (hmerge y ys)))

namespace Tensor

variable {shape : Shape}

omit hcomm hassoc in
theorem sumOnto_of_shape {s : Tensor α} {rest : List (Tensor α)} (hs : s.shape = shape)
    (hrest : ∀ t ∈ rest, t.shape = shape) :
    s.sumOnto rest = .ok (ofFn shape fun i j => (rest.map (·.get i j)).foldl
      (· + ·) (s.get i j)) := by
  induction rest generalizing s with
  | nil =>
    subst hs
    exact congrArg Except.ok (ofFn_get s).symm
  | cons t rest ih =>
    have hadd : s.add t = .ok (ofFn shape fun i j => s.get i j + t.get i j) := by
      rw [add, zipWith_of_shape _ (hs.trans (hrest t List.mem_cons_self).symm), hs]
    have hsum := ih (s := ofFn shape fun i j => s.get i j + t.get i j) rfl fun t' ht' =>
      hrest t' (List.mem_cons_of_mem _ ht')
    unfold sumOnto at hsum ⊢
    rw [List.foldlM_cons, hadd, except_ok_bind, hsum]
    refine congrArg Except.ok (ofFn_congr fun i j hi hj => ?_)
    rw [get_ofFn _ _ hi hj]
    rfl

/-- Tensors of one shape can be added in any order. -/
theorem sumOnto_perm {s t : Tensor α} {ss ts : List (Tensor α)} (h : (s :: ss).Perm (t :: ts))
    (hshape : ∀ u ∈ s :: ss, u.shape = shape) : s.sumOnto ss = t.sumOnto ts := by
  have hshape' : ∀ u ∈ t :: ts, u.shape = shape := fun u hu => hshape u (h.mem_iff.mpr hu)
  rw [sumOnto_of_shape (hshape s List.mem_cons_self) fun u hu => hshape u
    (List.mem_cons_of_mem _ hu),
    sumOnto_of_shape (hshape' t List.mem_cons_self) fun u hu =>
      hshape' u (List.mem_cons_of_mem _ hu)]
  refine congrArg Except.ok (ofFn_congr fun i j _ _ => foldl_add_perm hcomm hassoc ?_)
  have hentries := h.map fun u => u.get i j
  rwa [List.map_cons, List.map_cons] at hentries

end Tensor

end LayerGraph
