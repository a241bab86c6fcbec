import LayerGraph.Proofs.Layer.Adjoint
import LayerGraph.Proofs.Network.Solved

/-!
# Runs in which a weight is moved

The nodes that train see a weight moved along a tensor, all others see it as it is. However far it
is moved, a run ends well, and every output depends on the distance by polynomials.
-/

namespace LayerGraph

open Network Polynomial

/-- What a node sees if the weight `w` is moved by `e` times `d` for the nodes that train, and kept
for all others. -/
def moving (w : WeightRef) (d : Tensor ℚ) (e : ℚ) (a : Node ℚ) (r : Reader ℚ) : Reader ℚ :=
  if a.trains then r.reweighted fun v => if v = w then do (← r.weight v).add (d.scale e)
    else r.weight v else r

theorem seesValues_moving (w : WeightRef) (d : Tensor ℚ) (e : ℚ) : SeesValues (moving w d e) := by
  refine ⟨fun a r => ?_, fun a r r' h => ?_⟩
  · unfold moving
    split <;> rfl
  · unfold moving
    split
    · rw [Reader.reweighted, Reader.reweighted, h]
    · exact h

/-- A memory from which forward runs can start: what is fed is there, and so are the weights `W` and
the targets `T` of losses. -/
structure Stocked (g : NodeGraph (Node ℚ)) (s : Store ℚ) (W : WeightRef → Tensor ℚ)
    (T : TensorRef → Tensor ℚ) (r₀ : Reader ℚ) : Prop where
  shape : r₀.shape = s.shape
  weight : ∀ v shape, s.HasWeight v shape → r₀.weight v = .ok (W v) ∧ (W v).shape = shape
  target : ∀ (p : Nat) (a : Node ℚ) l, g.nodes[p]? = some a → a.tensors.label = some l →
    r₀.value l = .ok (T l) ∧ s.shape l = .ok (T l).shape
  fed : ∀ (p : Nat) (a : Node ℚ), g.nodes[p]? = some a → a.isSource = true →
    ∀ y ∈ a.tensors.outputs, r₀.Fills s y.value

/-- The entries of a weight `v` for a node, as polynomials in how far the weight `w` is moved. -/
noncomputable def movedWeight (W : WeightRef → Tensor ℚ) (w : WeightRef) (d : Tensor ℚ)
    (trains : Bool) (v : WeightRef) (i j : Nat) : ℚ[X] := C ((W v).get i j) + if trains = true ∧
    v = w then X * C (d.get i j) else 0

/-- The tensor is the value of polynomials in every one of the runs `R`. -/
def Traces (s : Store ℚ) (R : ℚ → Reader ℚ) (id : TensorRef) (Q : Nat → Nat → ℚ[X]) : Prop :=
  ∀ shape, s.shape id = .ok shape → ∀ e, (R e).value id = .ok (.evalAt shape Q e)

theorem scale_eq_evalAt (d : Tensor ℚ) (e : ℚ) :
    d.scale e = .evalAt d.shape (fun i j => X * C (d.get i j)) e := by
  unfold Tensor.scale Tensor.map Tensor.evalAt
  simp only [eval_mul, eval_X, eval_C, mul_comm]

section Runs

variable {g : NodeGraph (Node ℚ)} {s : Store ℚ} {batch : Nat} {W : WeightRef → Tensor ℚ}
  {T : TensorRef → Tensor ℚ} {r₀ r : Reader ℚ} {w v : WeightRef} {d : Tensor ℚ}

theorem weight_moving (hstock : Stocked g s W T r₀) (hd : s.HasWeight w d.shape)
    (hr : r.weight = r₀.weight) {a : Node ℚ} {shape : Shape} (hv : s.HasWeight v shape) (e : ℚ) :
    (moving w d e a r).weight v = .ok (.evalAt shape (movedWeight W w d a.trains v) e) := by
  obtain ⟨hvalue, rfl⟩ := hstock.weight v shape hv
  have hkept : Tensor.evalAt (W v).shape (fun i j => C ((W v).get i j) + 0) e = W v := by
    simp only [add_zero]
    exact Tensor.evalAt_C (W v) e
  unfold moving movedWeight
  cases a.trains with
  | false =>
    simp only [Bool.false_eq_true, false_and, if_false]
    rw [hr, hvalue, hkept]
  | true =>
    simp only [if_true, true_and, Reader.reweighted]
    rw [hr]
    by_cases hvw : v = w
    · subst hvw
      simp only [if_true]
      rw [hvalue, except_ok_bind, scale_eq_evalAt, ← (hstock.weight v _ hd).2, ← Tensor.add_evalAt,
        Tensor.evalAt_C]
    · simp only [hvw, if_false]
      rw [hvalue, hkept]

/-- A node reads the polynomials that its inputs are known to trace. -/
theorem read_moving (hstock : Stocked g s W T r₀) (hd : s.HasWeight w d.shape) {p : Nat}
    {a : Node ℚ} (ha : g.nodes[p]? = some a) {e : ℚ} {P : TensorRef → Nat → Nat → ℚ[X]}
    (hweight : r.weight = r₀.weight)
    (hlabel : ∀ l, a.tensors.label = some l → r.value l = r₀.value l)
    (hx : ∀ x ∈ a.tensors.inputs, ∀ shape, s.shape x.value = .ok shape →
      r.value x.value = .ok (.evalAt shape (P x.value) e)) :
    Polynomials.Read ⟨P, movedWeight W w d a.trains, T⟩ s a.tensors e (moving w d e a r) := by
  have hvalue := (seesValues_moving w d e).value a r
  refine ⟨fun x hmem shape hs => ?_, fun v _ shape hv => weight_moving hstock hd hweight hv e,
    fun l hl => ?_⟩
  · rw [hvalue]
    exact hx x hmem shape hs
  · obtain ⟨htarget, hshape⟩ := hstock.target p a l ha hl
    rw [hvalue, hlabel l hl]
    exact ⟨hshape, htarget⟩

variable (hreg : Registered g s batch g.order) (hstock : Stocked g s W T r₀)
  (hd : s.HasWeight w d.shape)
  (hpoly : ∀ (p : Nat) (a : Node ℚ), g.nodes[p]? = some a → a.layer.isPolynomial = true)
include hreg hstock hd hpoly

/-- However far a weight is moved, a run ends well. -/
theorem exists_run_moved (e : ℚ) : ∃ r, dataflow g (moving w d e) r₀ = .ok r ∧
    Solved g (moving w d e) r₀ g.order r ∧
    ∀ q k y, IsOutput g q k y → r.Fills s y.value := by
  refine exists_solved hreg (seesValues_moving w d e) hstock.fed
    fun p a r ha hsource hweight hlabel hfills => ?_
  obtain ⟨shape, F, E, hadjoint⟩ := Layer.exists_adjoint hreg.registry (hreg.holds_of_node ha).fits
    (hpoly p a ha) hsource
  -- What is there is a constant.
  let P (id : TensorRef) (i j : Nat) : ℚ[X] := match r.value id with
    | .ok v => C (v.get i j)
    | .error _ => 0
  have hread : Polynomials.Read ⟨P, movedWeight W w d a.trains, T⟩ s a.tensors e
      (moving w d e a r) := by
    refine read_moving hstock hd ha hweight hlabel fun x hx shape hs => ?_
    obtain ⟨v, hv, hshape⟩ := hfills x hx
    obtain rfl : v.shape = shape := Except.ok.inj (hshape.symm.trans hs)
    simp only [P, hv]
    rw [Tensor.evalAt_C]
  refine ⟨_, hadjoint.results _ e _ hread, List.length_replicate, fun w hw => ?_⟩
  obtain ⟨y, hy, heq⟩ := List.mem_map.mp (List.of_mem_zip hw).1
  rw [← heq, List.eq_of_mem_replicate (List.of_mem_zip hw).2]
  exact hadjoint.outputs y hy

/-- Every output traces polynomials. -/
theorem exists_traces {R : ℚ → Reader ℚ} (hR : ∀ e, Solved g (moving w d e) r₀ g.order (R e)) :
    ∃ P : TensorRef → Nat → Nat → ℚ[X], ∀ q k y, IsOutput g q k y →
    Traces s R y.value (P y.value) := by
  have hall : ∀ q k y, IsOutput g q k y → ∃ Q, Traces s R y.value Q := by
    intro q
    induction hplace : place g q using Nat.strongRecOn generalizing q with
    | ind bound ih =>
      rintro k y ⟨a, ha, hy⟩
      have hmem := List.mem_of_getElem? hy
      cases hsource : a.isSource with
      | true =>
        obtain ⟨v, hv, hshape⟩ := hstock.fed q a ha hsource y hmem
        refine ⟨fun i j => C (v.get i j), fun shape hs e => ?_⟩
        obtain rfl : v.shape = shape := Except.ok.inj (hshape.symm.trans hs)
        rw [Tensor.evalAt_C, (hR e).source hreg ha hsource hmem, hv]
      | false =>
        obtain ⟨shape, F, E, hadjoint⟩ :=
          Layer.exists_adjoint hreg.registry (hreg.holds_of_node ha).fits (hpoly q a ha) hsource
        have hinputs : ∀ id, ∃ Q, ∀ x ∈ a.tensors.inputs, x.value = id → Traces s R id Q := by
          intro id
          by_cases hid : ∃ x ∈ a.tensors.inputs, x.value = id
          · obtain ⟨x, hx, rfl⟩ := hid
            obtain ⟨j, hj⟩ := List.getElem?_of_mem hx
            obtain ⟨q₀, k₀, hr, hx₀⟩ := hreg.exists_producer ha hj
            have hlt := hreg.compiled.ordered.before _ _ _ _ hr
            obtain ⟨Q, hQ⟩ := ih _ (hplace ▸ hlt) q₀ rfl k₀ x hx₀
            exact ⟨Q, fun _ _ _ => hQ⟩
          · exact ⟨0, fun x hx heq => absurd ⟨x, hx, heq⟩ hid⟩
        choose P hP using hinputs
        refine ⟨F ⟨P, movedWeight W w d a.trains, T⟩, fun shape' hs e => ?_⟩
        obtain rfl : shape = shape' := Except.ok.inj ((hadjoint.outputs y hmem).symm.trans hs)
        have hread := read_moving hstock hd ha (hR e).weight (fun _ hl => (hR e).label hreg ha hl)
          fun x hx shape hs =>
          hP x.value x hx rfl shape hs e
        exact (hR e).value_of_results (hreg.mem_order ha) ha (hadjoint.results _ e _ hread) hy
          (List.getElem?_replicate_of_lt (List.getElem?_eq_some_iff.mp hy).1)
  have hids : ∀ id, ∃ Q, ∀ q k y, IsOutput g q k y → y.value = id → Traces s R id Q := by
    intro id
    by_cases hid : ∃ q k y, IsOutput g q k y ∧ y.value = id
    · obtain ⟨q, k, y, hy, rfl⟩ := hid
      obtain ⟨Q, hQ⟩ := hall q k y hy
      exact ⟨Q, fun _ _ _ _ _ => hQ⟩
    · exact ⟨0, fun q k y hy heq => absurd ⟨q, k, y, hy, heq⟩ hid⟩
  choose P hP using hids
  exact ⟨P, fun q k y hy => hP y.value q k y hy rfl⟩

omit hreg hpoly in
/-- If a weight is moved by nothing, nodes see what is there. -/
theorem moving_zero (hr : r.weight = r₀.weight) (a : Node ℚ) : moving w d 0 a r = r := by
  obtain ⟨hvalue, hshape⟩ := hstock.weight w d.shape hd
  have hkept : (W w).add (d.scale 0) = .ok (W w) := by
    refine (Tensor.zipWith_of_shape (· + ·) (show (W w).shape = (d.scale 0).shape
        from hshape)).trans (congrArg Except.ok ?_)
    refine (Tensor.ofFn_congr fun i j hi hj => ?_).trans (Tensor.ofFn_get (W w))
    rw [Tensor.get_scale 0 d (hshape ▸ hi) (hshape ▸ hj), mul_zero, add_zero]
  unfold moving
  split
  · refine (congrArg (Reader.reweighted · r) (funext fun v => ?_)).trans
      (Reader.eq_reweighted rfl rfl).symm
    by_cases hvw : v = w
    · subst hvw
      rw [if_pos rfl, hr, hvalue]
      exact hkept
    · rw [if_neg hvw]
  · rfl

end Runs

end LayerGraph
