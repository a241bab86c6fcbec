import LayerGraph.GradientDescent
import LayerGraph.Proofs.Store.Buffered

/-!
# Shapes under gradient descent

A step of gradient descent has the shape of its weight, and so has the velocity that it leaves, if
the state of the weight is what some gradient descent has asked for.
-/

namespace LayerGraph.GradientDescent

variable {ρ α : Type} [Rate ρ α] {descent : GradientDescent ρ} {shape : Shape}

theorem eq_of_mem_stateShapes {s : Shape} (h : s ∈ descent.stateShapes shape) : s = shape := by
  unfold stateShapes at h
  split at h
  · exact List.mem_singleton.mp h
  · cases h

variable [Scalar α] {u : WeightState α}

theorem exists_step (descent : GradientDescent ρ) (hg : u.gradient.shape = shape)
    (hs : ∀ v ∈ u.state, v.shape = shape) : ∃ step state, descent.step u = .ok (step, state) ∧
      step.shape = shape ∧ ∀ v ∈ state, v.shape = shape := by
  unfold step
  cases hstate : u.state with
  | nil => exact ⟨_, _, rfl, hg, nofun⟩
  | cons velocity rest =>
    rw [hstate] at hs
    dsimp only
    split
    · have hv : velocity.shape = shape := hs velocity (List.mem_cons_self ..)
      obtain ⟨next, hnext, hn⟩ :=
        Tensor.exists_add (s := velocity.scale (Rate.narrow descent.momentum))
        (t := u.gradient) (by rw [Tensor.shape_scale, hv, hg, Shape.join_self])
      refine ⟨next, next :: rest, by rw [hnext]; rfl, hn, fun v hm => ?_⟩
      rcases List.mem_cons.mp hm with rfl | hm
      · exact hn
      · exact hs v (List.mem_cons_of_mem _ hm)
    · exact ⟨_, _, rfl, hg, hs⟩

theorem exists_apply (descent : GradientDescent ρ) (hg : u.gradient.shape = u.value.shape)
    (hs : ∀ v ∈ u.state, v.shape = u.value.shape) : ∃ u', descent.apply u = .ok u' ∧
      u'.value.shape = u.value.shape ∧ ∀ v ∈ u'.state, v.shape = u.value.shape := by
  obtain ⟨step, state, hstep, hshape, hstate⟩ := exists_step descent hg hs
  obtain ⟨value, hvalue, hv⟩ := Tensor.exists_sub (s := u.value)
    (t := step.scale (Rate.narrow descent.learningRate))
    (by rw [Tensor.shape_scale, hshape, Shape.join_self])
  refine ⟨{ u with value := value, state := state }, ?_, hv, hstate⟩
  unfold apply
  rw [hstep, except_ok_bind]
  dsimp only
  rw [hvalue]
  rfl

/-- Gradient descent changes no shape of a weight whose state was asked for by a gradient descent,
whichever it was. -/
theorem keepsShapes_apply {τ : Type} {asks : (Shape → List Shape) → Prop}
    (hasks : ∀ shapes, asks shapes → ∃ asking : GradientDescent ρ, shapes = asking.stateShapes)
    (descent : GradientDescent ρ) :
    Store.KeepsShapes asks fun u =>
    (Action.read fun _ => descent.apply u : Action τ (WeightState α)) := by
  intro u hg hs
  have hstate : ∀ v ∈ u.state, v.shape = u.value.shape := by
    intro v hv
    obtain ⟨shapes, hshapes, hmem⟩ := hs v hv
    obtain ⟨asking, rfl⟩ := hasks shapes hshapes
    exact eq_of_mem_stateShapes hmem
  refine Action.returns_read fun _ _ => ?_
  obtain ⟨u', hu', hv, hstate'⟩ := exists_apply descent hg hstate
  refine ⟨u', hu', hv, fun i v v' hget hget' => ?_⟩
  rw [hstate' v' (List.mem_of_getElem? hget'), hstate v (List.mem_of_getElem? hget)]

end LayerGraph.GradientDescent
