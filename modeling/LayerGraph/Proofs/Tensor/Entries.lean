import LayerGraph.Proofs.Tensor.Kernel

/-!
# Entries of kernels

Where no axis is repeated, a kernel combines its operands entry by entry.
-/

namespace LayerGraph

theorem Shape.eq_of_join {a b : Shape} (h : a.join b = some a) (h' : b.join a = some b) :
    a = b := by
  have haxis : ∀ {m n : Nat}, joinAxis m n = some m → joinAxis n m = some n → m = n := by
    intro m n h h'
    unfold joinAxis at h h'
    by_contra hne
    rw [if_neg hne] at h
    rw [if_neg fun heq => hne heq.symm] at h'
    split at h
    · exact hne (Option.some.inj h).symm
    · split at h'
      · exact hne (Option.some.inj h')
      · next hm hn =>
        rw [if_neg hn] at h
        cases h
  obtain ⟨batch, width⟩ := a
  obtain ⟨batch', width'⟩ := b
  unfold join at h h'
  dsimp only at h h'
  cases hb : joinAxis batch batch' with
  | none => simp [hb] at h
  | some m =>
    cases hw : joinAxis width width' with
    | none => simp [hb, hw] at h
    | some k =>
      cases hb' : joinAxis batch' batch with
      | none => simp [hb'] at h'
      | some m' =>
        cases hw' : joinAxis width' width with
        | none => simp [hb', hw'] at h'
        | some k' =>
          simp only [hb, hw, hb', hw', Option.some.injEq, Shape.mk.injEq] at h h'
          rw [haxis (hb.trans (congrArg some h.1)) (hb'.trans (congrArg some h'.1)),
            haxis (hw.trans (congrArg some h.2)) (hw'.trans (congrArg some h'.2))]

theorem Scalar.sumRange_congr {α : Type} [Scalar α] {n : Nat} {f g : Nat → α}
    (h : ∀ k < n, f k = g k) : sumRange n f = sumRange n g :=
  List.foldl_ext _ _ _ fun acc k hk => congrArg (acc + ·) (h k (List.mem_range.mp hk))

namespace Tensor

variable {α : Type} [Scalar α] {s t r : Tensor α} {shape : Shape}

theorem ofFn_congr {f g : Nat → Nat → α}
    (h : ∀ i j, i < shape.batch → j < shape.width → f i j = g i j) :
    ofFn shape f = ofFn shape g := by
  refine ext rfl fun i j hi hj => ?_
  rw [shape_ofFn] at hi hj
  rw [get_ofFn shape f hi hj, get_ofFn shape g hi hj, h i j hi hj]

theorem shape_of_zipWith {f : α → α → α} (h : zipWith f s t = .ok r) :
    s.shape.join t.shape = some r.shape := by
  unfold zipWith at h
  split at h
  · next hjoin =>
    cases h
    exact hjoin
  · cases h

theorem zipWith_of_shape (f : α → α → α) (h : s.shape = t.shape) :
    zipWith f s t = .ok (ofFn s.shape fun i j => f (s.get i j) (t.get i j)) := by
  unfold zipWith
  rw [← h, Shape.join_self]
  refine congrArg Except.ok (ofFn_congr fun i j hi hj => ?_)
  rw [spread_of_lt s hi hj, spread_of_lt t (h ▸ hi) (h ▸ hj)]

theorem ofFn_get (t : Tensor α) : ofFn t.shape t.get = t :=
  ext rfl fun _ _ hi hj => get_ofFn _ _ hi hj

section OfFn

variable (shape) (f g : Nat → Nat → α)

theorem map_ofFn (h : α → α) : (ofFn shape f).map h = ofFn shape fun i j => h (f i j) :=
  ofFn_congr fun i j hi hj => by rw [get_ofFn shape f hi hj]

theorem zipWith_ofFn (h : α → α → α) :
    zipWith h (ofFn shape f) (ofFn shape g) = .ok (ofFn shape fun i j => h (f i j) (g i j)) := by
  refine (zipWith_of_shape h (s := ofFn shape f) (t := ofFn shape g) rfl).trans ?_
  refine congrArg Except.ok (ofFn_congr fun i j hi hj => ?_)
  rw [get_ofFn shape f hi hj, get_ofFn shape g hi hj]

theorem add_ofFn : (ofFn shape f).add (ofFn shape g) = .ok (ofFn shape fun i j => f i j + g i j) :=
  zipWith_ofFn shape f g _

theorem sub_ofFn : (ofFn shape f).sub (ofFn shape g) = .ok (ofFn shape fun i j => f i j - g i j) :=
  zipWith_ofFn shape f g _

theorem mul_ofFn : (ofFn shape f).mul (ofFn shape g) = .ok (ofFn shape fun i j => f i j * g i j) :=
  zipWith_ofFn shape f g _

/-- A column takes part in each of the columns of a matrix. -/
theorem sub_column (c : Nat → Nat → α) : (ofFn shape f).sub (ofFn ⟨shape.batch, 1⟩ c) =
    .ok (ofFn shape fun i j => f i j - c i 0) := by
  unfold sub zipWith
  rw [shape_ofFn, shape_ofFn, Shape.join_column]
  refine congrArg Except.ok (ofFn_congr fun i j (hi : i < shape.batch) hj => ?_)
  have hrow : (if shape.batch = 1 then 0 else i) = i := by
    split
    · omega
    · rfl
  have hcolumn : (ofFn ⟨shape.batch, 1⟩ c).spread i j = c i 0 := by
    unfold spread
    rw [shape_ofFn, hrow, if_pos rfl, get_ofFn ⟨shape.batch, 1⟩ c hi Nat.one_pos]
  rw [spread_of_lt _ hi hj, get_ofFn shape f hi hj, hcolumn]

end OfFn

theorem get_scale (c : α) (t : Tensor α) {i j : Nat} (hi : i < t.shape.batch)
    (hj : j < t.shape.width) : (t.scale c).get i j = t.get i j * c := get_map _ t hi hj

end Tensor

end LayerGraph
