import LayerGraph.Proofs.Layer.Dataflow
import LayerGraph.Proofs.Tensor.Polynomial

/-!
# What layers pass back is adjoint to what they compute

With polynomials for its operands a node computes polynomials. What it passes back and what it gives
to gradients is the adjoint of the linear part of that map: on both sides the same products of
entries and rates add up.
-/

namespace LayerGraph

open Polynomial

theorem map_zip_replicate {β γ δ : Type} (f : β × γ → δ) (xs : List β) (c : γ) :
    (xs.zip (List.replicate xs.length c)).map f = xs.map fun x => f (x, c) := by
  induction xs with
  | nil => rfl
  | cons x xs ih => exact congrArg (f (x, c) :: ·) ih

namespace Tensor

variable {shape : Shape} {P Q : Nat → Nat → ℚ[X]} {e : ℚ} {s t : Tensor ℚ}

theorem matmul_of_shapes {m k n : Nat} (hs : s.shape = ⟨m, k⟩) (ht : t.shape = ⟨k, n⟩) :
    s.matmul t = .ok (ofFn ⟨m, n⟩ fun i j => ∑ l ∈ Finset.range k, s.get i l * t.get l j) := by
  unfold matmul
  rw [hs, ht, if_pos rfl]
  simp only [rational_sumRange]

theorem exists_add_slope (P : Nat → Nat → ℚ[X]) (hs : s.shape = shape) (ht : t.shape = shape) :
    ∃ r, s.add t = .ok r ∧ r.shape = shape ∧ r.slope P = s.slope P + t.slope P := by
  refine ⟨_, zipWith_of_shape (· + ·) (hs.trans ht.symm), hs, ?_⟩
  rw [slope_ofFn, slope, slope, ht, hs]
  simp only [Shape.sum, add_mul, Finset.sum_add_distrib]

/-- The rates of a sum of tensors add up. -/
theorem exists_sumOnto_slope (P : Nat → Nat → ℚ[X]) {rest : List (Tensor ℚ)} (hs : s.shape = shape)
    (hrest : ∀ t ∈ rest, t.shape = shape) : ∃ r, s.sumOnto rest = .ok r ∧ r.shape = shape ∧
      r.slope P = ((s :: rest).map (·.slope P)).sum := by
  induction rest generalizing s with
  | nil => exact ⟨s, rfl, hs, by simp⟩
  | cons t rest ih =>
    obtain ⟨s', hadd, hs', hslope⟩ := exists_add_slope P hs (hrest t List.mem_cons_self)
    obtain ⟨r, hr, hshape, hsum⟩ := ih hs' fun t' ht' => hrest t' (List.mem_cons_of_mem _ ht')
    refine ⟨r, ?_, hshape, ?_⟩
    · unfold sumOnto at hr ⊢
      rw [List.foldlM_cons, hadd]
      exact hr
    · rw [hsum, List.map_cons, List.sum_cons, hslope, List.map_cons, List.map_cons, List.sum_cons,
        List.sum_cons, add_assoc]

theorem sumOnto_evalAt (Ps : List (Nat → Nat → ℚ[X])) :
    (evalAt shape P e).sumOnto (Ps.map (evalAt shape · e)) =
    .ok (evalAt shape (fun i j => ((P :: Ps).map (· i j)).sum) e) := by
  induction Ps generalizing P with
  | nil => simp [sumOnto]
  | cons Q Ps ih =>
    unfold sumOnto at ih ⊢
    rw [List.map_cons, List.foldlM_cons, add_evalAt, except_ok_bind, ih]
    simp only [List.map_cons, List.sum_cons, add_assoc]

theorem transpose_evalAt {m n : Nat} :
    (evalAt ⟨m, n⟩ P e).transpose = evalAt ⟨n, m⟩ (fun i j => P j i) e :=
  ofFn_congr fun _ _ hi hj => get_evalAt hj hi

/-- What is passed back through a product. -/
theorem matmul_transpose {m k n : Nat} (ht : t.shape = ⟨m, n⟩) :
    t.matmul (evalAt ⟨k, n⟩ P 0).transpose = .ok (ofFn ⟨m, k⟩ fun i l => ∑ j ∈ Finset.range n,
      t.get i j * (P l j).coeff 0) := by
  rw [transpose_evalAt, matmul_of_shapes ht rfl]
  refine congrArg Except.ok (ofFn_congr fun i l _ hl => Finset.sum_congr rfl fun j hj => ?_)
  rw [get_evalAt (show j < (⟨n, k⟩ : Shape).batch from Finset.mem_range.mp hj) hl,
    coeff_zero_eq_eval_zero]

/-- What is given to the gradient of the second factor of a product. -/
theorem transpose_matmul {m k n : Nat} (ht : t.shape = ⟨m, n⟩) :
    (evalAt ⟨m, k⟩ P 0).transpose.matmul t =
      .ok (ofFn ⟨k, n⟩ fun l j => ∑ i ∈ Finset.range m, (P i l).coeff 0 * t.get i j) := by
  rw [transpose_evalAt, matmul_of_shapes rfl ht]
  refine congrArg Except.ok (ofFn_congr fun l j (hl : l < k) _ => Finset.sum_congr rfl
    fun i hi => ?_)
  rw [get_evalAt (hl : l < (⟨k, m⟩ : Shape).batch) (Finset.mem_range.mp hi : i <
      (⟨k, m⟩ : Shape).width), coeff_zero_eq_eval_zero]

theorem slope_sum (d : Tensor ℚ) (Ps : List (Nat → Nat → ℚ[X])) :
    d.slope (fun i j => (Ps.map (· i j)).sum) = (Ps.map d.slope).sum := by
  induction Ps with
  | nil => simpa using slope_const d fun _ _ => 0
  | cons P Ps ih =>
    rw [List.map_cons, List.sum_cons, ← ih]
    simp only [slope, Shape.sum, List.map_cons, List.sum_cons, coeff_add, mul_add,
      Finset.sum_add_distrib]

/-- The three parts of the adjoint of a product with a row added to it. -/
theorem slope_product {m k n : Nat} {dy : Tensor ℚ} (hdy : dy.shape = ⟨m, n⟩)
    (P Q B : Nat → Nat → ℚ[X]) : dy.slope (fun i j => ∑ l ∈ Finset.range k, P i l * Q l j + B 0 j) =
      (ofFn ⟨m, k⟩ fun i l => ∑ j ∈ Finset.range n, dy.get i j * (Q l j).coeff 0).slope P +
        ((ofFn ⟨k, n⟩ fun l j => ∑ i ∈ Finset.range m, (P i l).coeff 0 * dy.get i j).slope Q +
          (ofFn ⟨1, n⟩ fun _ j => ∑ i ∈ Finset.range m, dy.get i j).slope B) := by
  have hentry : ∀ i j, dy.get i j * (∑ l ∈ Finset.range k, P i l * Q l j + B 0 j).coeff 1 =
      ∑ l ∈ Finset.range k, dy.get i j * (Q l j).coeff 0 * (P i l).coeff 1 +
        (∑ l ∈ Finset.range k, (P i l).coeff 0 * dy.get i j * (Q l j).coeff 1 + dy.get i j *
          (B 0 j).coeff 1) := by
    intro i j
    rw [coeff_add, finsetSum_coeff, mul_add, Finset.mul_sum, ← add_assoc, ← Finset.sum_add_distrib]
    refine congrArg (· + _) (Finset.sum_congr rfl fun l _ => ?_)
    rw [mul_coeff_one]
    ring
  rw [slope_ofFn, slope_ofFn, slope_ofFn, slope, hdy]
  unfold Shape.sum
  simp only [hentry, Finset.sum_add_distrib, Finset.sum_mul, Finset.range_one, Finset.sum_singleton]
  refine congrArg₂ (· + ·) ?_ (congrArg₂ (· + ·) ?_ ?_)
  · exact Finset.sum_congr rfl fun i _ => Finset.sum_comm
  · calc ∑ i ∈ Finset.range m, ∑ j ∈ Finset.range n, ∑ l ∈ Finset.range k, (P i l).coeff 0 *
      dy.get i j * (Q l j).coeff 1 = ∑ i ∈ Finset.range m, ∑ l ∈ Finset.range k,
      ∑ j ∈ Finset.range n, (P i l).coeff 0 * dy.get i j * (Q l j).coeff 1 :=
          Finset.sum_congr rfl fun i _ => Finset.sum_comm
      _ = ∑ l ∈ Finset.range k, ∑ i ∈ Finset.range m, ∑ j ∈ Finset.range n, (P i l).coeff 0 *
        dy.get i j * (Q l j).coeff 1 :=
          Finset.sum_comm
      _ = _ := Finset.sum_congr rfl fun l _ => Finset.sum_comm
  · exact Finset.sum_comm

/-- The derivative of the mean squared error at zero. -/
theorem derivative_evalAt {target : Tensor ℚ} (htarget : target.shape = shape) : ∃ dx,
    Loss.mse.derivative (evalAt shape P 0) target = .ok dx ∧ dx.shape = shape ∧
      dx.slope P = (errorOf shape P target).coeff 1 := by
  have hself : ofFn shape target.get = target := by rw [← htarget, ofFn_get]
  have hfn : Loss.mse.derivative (ofFn shape fun i j => (P i j).eval 0) (ofFn shape target.get) =
      .ok (ofFn shape fun i j => ((P i j).eval 0 - target.get i j) *
        (2 / (max shape.size 1 : Nat))) := by
    simp only [Loss.derivative, sub_ofFn, scale, map_ofFn, except_ok_bind, except_pure, shape_ofFn]
    rfl
  rw [hself] at hfn
  refine ⟨_, hfn, rfl, ?_⟩
  have hentry : ∀ i j, ((P i j - C (target.get i j)) * (P i j - C (target.get i j))).coeff 1 =
      2 * (((P i j).eval 0 - target.get i j) * (P i j).coeff 1) := by
    intro i j
    rw [mul_coeff_one, coeff_sub, coeff_sub, coeff_C_zero, coeff_C_of_ne_zero one_ne_zero,
      coeff_zero_eq_eval_zero]
    ring
  rw [slope_ofFn, errorOf, coeff_C_mul]
  unfold Shape.sum
  simp only [finsetSum_coeff, hentry, Finset.mul_sum]
  refine Finset.sum_congr rfl fun i hi => Finset.sum_congr rfl fun j hj => ?_
  have hsize : max shape.size 1 = shape.size := max_eq_left
    (Nat.mul_pos (Nat.pos_of_ne_zero fun h0 => by simp [h0] at hi) (Nat.pos_of_ne_zero
      fun h0 => by simp [h0] at hj))
  rw [hsize]
  ring

end Tensor

/-- Polynomials in place of the values of tensors and weights, and the targets of losses. -/
structure Polynomials where
  value : TensorRef → Nat → Nat → ℚ[X]
  weight : WeightRef → Nat → Nat → ℚ[X]
  target : TensorRef → Tensor ℚ

/-- A reader finds what the polynomials stand for wherever a node looks for its operands. -/
structure Polynomials.Read (p : Polynomials) (s : Store ℚ) (h : Handles) (e : ℚ) (r : Reader ℚ) :
    Prop where
  input : ∀ x ∈ h.inputs, ∀ shape, s.shape x.value = .ok shape → r.value x.value =
    .ok (.evalAt shape (p.value x.value) e)
  weight : ∀ w ∈ h.weights, ∀ shape, s.HasWeight w shape →
    r.weight w = .ok (.evalAt shape (p.weight w) e)
  label : ∀ l, h.label = some l → s.shape l = .ok (p.target l).shape ∧ r.value l = .ok (p.target l)

namespace Layer

/-- The layers that compute polynomials: all but the other activations and losses. -/
def isPolynomial {α : Type} : Layer α → Bool
  | input _ | fullyConnected _ _ _ | addition | multiout | identity => true
  | activation f => f = .none
  | loss kind => kind = .mse
  | custom _ => false

/-- A node computes a polynomial map `F` and, if it is a loss, an error `E`. What it passes back and
what it gives to gradients is the adjoint of the linear part of the two. -/
structure Adjoint (s : Store ℚ) (layer : Layer ℚ) (h : Handles) (shape : Shape)
    (F : Polynomials → Nat → Nat → ℚ[X]) (E : Polynomials → Option ℚ[X]) : Prop where
  outputs : ∀ y ∈ h.outputs, s.shape y.value = .ok shape
  results : ∀ p e r, p.Read s h e r →
    layer.results h r = .ok (List.replicate h.outputs.length (.evalAt shape (F p) e))
  lossOf : ∀ p e r, p.Read s h e r → layer.lossOf h r = .ok ((E p).map (·.eval e))
  adjoint : ∀ p r (dy : Wire → Tensor ℚ), p.Read s h 0 r →
    (∀ y ∈ h.outputs, r.value y.value = .ok (.evalAt shape (F p) 0)) →
    (∀ y ∈ h.outputs, r.derivative y = .ok (dy y) ∧ (dy y).shape = shape) →
    (layer.loss?.isSome = true → ∀ y ∈ h.outputs, dy y = .zeros shape) →
    ∃ dxs cs, layer.derivatives h r = .ok dxs ∧ layer.contributions h r = .ok cs ∧
      List.Forall₂ (fun (x : Wire) (dx : Tensor ℚ) => s.shape x.value = .ok dx.shape) h.inputs dxs ∧
      List.Forall₂ (fun w (c : Tensor ℚ) => s.HasWeight w c.shape) h.weights cs ∧
      (h.outputs.map fun y => (dy y).slope (F p)).sum + (E p).elim 0 (·.coeff 1) =
        ((h.inputs.zip dxs).map fun q => q.2.slope (p.value q.1.value)).sum +
          ((h.weights.zip cs).map fun q => q.2.slope (p.weight q.1)).sum

variable {s : Store ℚ} {batch width : Nat} {x y : Wire}

theorem adjoint_fullyConnected {units : Nat} {weight bias : Initializer ℚ} {w b : WeightRef}
    (hx : s.shape x.value = .ok ⟨batch, width⟩) (hy : s.shape y.value = .ok ⟨batch, units⟩)
    (hw : s.HasWeight w ⟨width, units⟩) (hb : s.HasWeight b ⟨1, units⟩) :
    Adjoint s (.fullyConnected units weight bias) ⟨[x], [y], [w, b], [], none⟩ ⟨batch, units⟩
      (fun p i j => ∑ l ∈ Finset.range width, p.value x.value i l * p.weight w l j + p.weight b 0 j)
      fun _ => none := by
  refine ⟨by simpa using hy, fun p e r hr => ?results, fun p e r _ => rfl,
    fun p r dy hr _ hdy _ => ?adjoint⟩
  case results =>
    simp only [results, hr.input x (by simp) _ hx, hr.weight w (by simp) _ hw,
      hr.weight b (by simp) _ hb, except_ok_bind, Tensor.matmul_evalAt, Tensor.add_row_evalAt]
    rfl
  case adjoint =>
    obtain ⟨hd, hshape⟩ := hdy y (by simp)
    have hX := hr.input x (by simp) _ hx
    have hW := hr.weight w (by simp) _ hw
    have hsums : (dy y).columnSums =
        .ofFn ⟨1, units⟩ fun _ j => ∑ i ∈ Finset.range batch, (dy y).get i j := by
      rw [Tensor.columnSums, hshape]
      simp only [rational_sumRange]
    refine ⟨[.ofFn ⟨batch, width⟩ fun i l =>
          ∑ j ∈ Finset.range units, (dy y).get i j * (p.weight w l j).coeff 0],
        [.ofFn ⟨width, units⟩ fun l j =>
            ∑ i ∈ Finset.range batch, (p.value x.value i l).coeff 0 * (dy y).get i j,
          .ofFn ⟨1, units⟩ fun _ j => ∑ i ∈ Finset.range batch, (dy y).get i j],
      ?_, ?_, .cons hx .nil, .cons hw (.cons hb .nil), ?_⟩
    · simp only [derivatives, hd, hW, except_ok_bind, Tensor.matmul_transpose hshape]
      rfl
    · simp only [contributions, hd, hX, except_ok_bind, Tensor.transpose_matmul hshape, hsums]
      rfl
    · simpa using Tensor.slope_product hshape (p.value x.value) (p.weight w) (p.weight b)

/-- Layers that pass their input on. -/
theorem adjoint_copy {layer : Layer ℚ} (hlayer : layer = .activation .none ∨ layer = .identity)
    (hx : s.shape x.value = .ok ⟨batch, width⟩) (hy : s.shape y.value = .ok ⟨batch, width⟩) :
    Adjoint s layer ⟨[x], [y], [], [], none⟩ ⟨batch, width⟩ (fun p => p.value x.value)
      fun _ => none := by
  refine ⟨by simpa using hy, fun p e r hr => ?results, fun p e r _ => ?lossOf,
    fun p r dy hr hread hdy _ => ?adjoint⟩
  case results =>
    have hX := hr.input x (by simp) _ hx
    rcases hlayer with rfl | rfl <;>
    · simp only [results, hX]
      rfl
  case lossOf => rcases hlayer with rfl | rfl <;> rfl
  case adjoint =>
    obtain ⟨hd, hshape⟩ := hdy y (by simp)
    have hdxs : layer.derivatives ⟨[x], [y], [], [], none⟩ r = .ok [dy y] := by
      rcases hlayer with rfl | rfl <;>
      · simp only [derivatives, hread y (by simp), hd]
        rfl
    have hcs : layer.contributions ⟨[x], [y], [], [], none⟩ r = .ok [] := by
      rcases hlayer with rfl | rfl <;> rfl
    exact ⟨[dy y], [], hdxs, hcs, .cons (by rw [hx, hshape]) .nil, .nil, by simp⟩

theorem adjoint_addition {xs : List Wire}
    (hx : ∀ x' ∈ x :: xs, s.shape x'.value = .ok ⟨batch, width⟩)
    (hy : s.shape y.value = .ok ⟨batch, width⟩) :
    Adjoint s .addition ⟨x :: xs, [y], [], [], none⟩ ⟨batch, width⟩
      (fun p i j => ((x :: xs).map fun x' => p.value x'.value i j).sum) fun _ => none := by
  refine ⟨by simpa using hy, fun p e r hr => ?results, fun p e r _ => rfl,
    fun p r dy hr _ hdy _ => ?adjoint⟩
  case results =>
    have hrest : (xs.mapM fun x' => r.value x'.value) =
        .ok ((xs.map fun x' => p.value x'.value).map (Tensor.evalAt ⟨batch, width⟩ · e)) := by
      refine except_mapM_eq_ok_iff.mpr ?_
      rw [List.map_map, List.forall₂_map_right_iff, List.forall₂_same]
      intro x' hx'
      have hmem := List.mem_cons_of_mem x hx'
      exact hr.input x' hmem _ (hx x' hmem)
    simp only [results]
    rw [hr.input x List.mem_cons_self _ (hx x List.mem_cons_self), except_ok_bind, hrest,
      except_ok_bind, Tensor.sumOnto_evalAt]
    simp only [List.map_cons, List.map_map, Function.comp_def]
    rfl
  case adjoint =>
    obtain ⟨hd, hshape⟩ := hdy y (by simp)
    refine ⟨List.replicate (x :: xs).length (dy y), [], ?_, rfl, ?_, .nil, ?_⟩
    · simp only [derivatives, hd]
      rfl
    · refine List.forall₂_iff_get.mpr ⟨List.length_replicate.symm, fun i hi hi' => ?_⟩
      rw [hx _ (List.get_mem _ _), List.get_eq_getElem, List.getElem_replicate, hshape]
    · simp only [map_zip_replicate, List.zip_nil_left, List.map_nil, List.sum_nil, add_zero,
        List.map_singleton, List.sum_singleton, Option.elim_none]
      have hsum := Tensor.slope_sum (dy y) ((x :: xs).map fun x' => p.value x'.value)
      simpa only [List.map_map, Function.comp_def] using hsum

theorem adjoint_multiout {ys : List Wire} (hx : s.shape x.value = .ok ⟨batch, width⟩)
    (hy : ∀ y' ∈ y :: ys, s.shape y'.value = .ok ⟨batch, width⟩) :
    Adjoint s .multiout ⟨[x], y :: ys, [], [], none⟩ ⟨batch, width⟩ (fun p => p.value x.value)
      fun _ => none := by
  refine ⟨hy, fun p e r hr => ?results, fun p e r _ => rfl, fun p r dy hr _ hdy _ => ?adjoint⟩
  case results =>
    simp only [results, hr.input x (by simp) _ hx]
    rfl
  case adjoint =>
    have hshapes : ∀ t ∈ ys.map dy, t.shape = ⟨batch, width⟩ := by
      simpa using fun y' hy' => (hdy y' (List.mem_cons_of_mem _ hy')).2
    obtain ⟨dx, hdx, hshape, hslope⟩ :=
      Tensor.exists_sumOnto_slope (p.value x.value) (hdy y List.mem_cons_self).2 hshapes
    have hrest : ys.mapM r.derivative = .ok (ys.map dy) := by
      refine except_mapM_eq_ok_iff.mpr ?_
      rw [List.forall₂_map_right_iff, List.forall₂_same]
      exact fun y' hy' => (hdy y' (List.mem_cons_of_mem _ hy')).1
    refine ⟨[dx], [], ?_, rfl, .cons (by rw [hx, hshape]) .nil, .nil, ?_⟩
    · simp only [derivatives, (hdy y List.mem_cons_self).1, except_ok_bind, hrest, hdx]
      rfl
    · simp [hslope, Function.comp_def]

theorem adjoint_mse {l : TensorRef} (hx : s.shape x.value = .ok ⟨batch, width⟩)
    (hy : s.shape y.value = .ok ⟨batch, width⟩) (hl : s.shape l = .ok ⟨batch, width⟩) :
    Adjoint s (.loss .mse) ⟨[x], [y], [], [], some l⟩ ⟨batch, width⟩ (fun p => p.value x.value)
      fun p => some (Tensor.errorOf ⟨batch, width⟩ (p.value x.value) (p.target l)) := by
  have htarget : ∀ {p : Polynomials} {e : ℚ} {r : Reader ℚ},
      p.Read s ⟨[x], [y], [], [], some l⟩ e r →
        (p.target l).shape = ⟨batch, width⟩ ∧ r.value l = .ok (p.target l) := fun hr => by
    obtain ⟨hshape, hvalue⟩ := hr.label l rfl
    exact ⟨Except.ok.inj (hshape.symm.trans hl), hvalue⟩
  refine ⟨by simpa using hy, fun p e r hr => ?results, fun p e r hr => ?lossOf,
    fun p r dy hr hread hdy hloss => ?adjoint⟩
  case results =>
    simp only [results, hr.input x (by simp) _ hx]
    rfl
  case lossOf =>
    obtain ⟨hshape, hvalue⟩ := htarget hr
    simp only [Layer.lossOf, hr.input x (by simp) _ hx, hvalue, except_ok_bind, Loss.activation,
      Activation.apply, Tensor.compute_evalAt hshape]
    rfl
  case adjoint =>
    obtain ⟨hshape, hvalue⟩ := htarget hr
    obtain ⟨dx, hdx, hdxs, hslope⟩ := Tensor.derivative_evalAt (P := p.value x.value) hshape
    refine ⟨[dx], [], ?_, rfl, .cons (by rw [hx, hdxs]) .nil, .nil, ?_⟩
    · simp only [derivatives, hread y (by simp), hvalue, except_ok_bind, hdx]
      rfl
    · rw [List.map_singleton, hloss rfl y (by simp), Tensor.slope_zeros]
      simp [hslope]

theorem exists_adjoint {layer : Layer ℚ} {h : Handles} (hreg : Store.Registry batch s)
    (hf : Fits s layer h) (hpoly : layer.isPolynomial = true) (hsource : layer.isSource = false) :
    ∃ shape F E, Adjoint s layer h shape F E := by
  cases hf with
  | input => cases hsource
  | fullyConnected ins out hw hb ne =>
    exact ⟨_, _, _, adjoint_fullyConnected (ins.value.shape hreg) (out.value.shape hreg) hw hb⟩
  | activation ins out =>
    obtain rfl := of_decide_eq_true hpoly
    exact ⟨_, _, _, adjoint_copy (.inl rfl) (ins.value.shape hreg) (out.value.shape hreg)⟩
  | addition ins out =>
    exact ⟨_, _, _, adjoint_addition (fun x' hx' => (ins x' hx').value.shape hreg)
      (out.value.shape hreg)⟩
  | multiout ins out =>
    exact ⟨_, _, _, adjoint_multiout (ins.value.shape hreg)
      fun y' hy' => (out y' hy').value.shape hreg⟩
  | identity ins out =>
    exact ⟨_, _, _, adjoint_copy (.inr rfl) (ins.value.shape hreg) (out.value.shape hreg)⟩
  | loss fused ins out label =>
    obtain rfl := of_decide_eq_true hpoly
    exact ⟨_, _, _, adjoint_mse (ins.value.shape hreg) (out.value.shape hreg) (label.shape hreg)⟩

end Layer

end LayerGraph
