import LayerGraph.Proofs.Network.Registered
import LayerGraph.Proofs.Returns
import LayerGraph.Proofs.Store.Loaded
import LayerGraph.Proofs.Tensor.Kernel

/-!
# Tensors with buffers

While a network runs, its store only changes in what it holds. A tensor that has a buffer can be
read, and a value of its shape can be written to it, however often that has been done before.
-/

namespace LayerGraph.Store

variable {α : Type} {s₀ s : Store α} {id : TensorRef} {shape : Shape}

/-- The tensor has a buffer for values of this shape. -/
def Buffered (s : Store α) (id : TensorRef) (shape : Shape) : Prop :=
  ∃ e, s.backing id = some e ∧ e.shape = shape ∧ (e.role.isKept = true → s.hasWeights = true) ∧
    (e.role.isKept = false → ∃ k, s.slotOf.lookup (s.rootOf id) = some k)

/-- A store that differs from `s₀` in the values it holds, all of which have the shapes of their
tensors. -/
def Held (s₀ s : Store α) : Prop := SameLayout s₀ s ∧ s.Loaded

theorem Held.refl (h : s₀.Loaded) : Held s₀ s₀ := ⟨.refl s₀, h⟩

theorem SameLayout.buffered (h : SameLayout s₀ s) (hb : s₀.Buffered id shape) :
    s.Buffered id shape := by
  obtain ⟨e, he, hshape, hk, hslot⟩ := hb
  refine ⟨e, (h.backing id).trans he, hshape, fun h' => h.hasWeights.trans (hk h'), fun h' => ?_⟩
  rw [h.slotOf, h.rootOf]
  exact hslot h'

/-- What is not kept has a buffer whenever a step is run in which it is used. -/
theorem buffered_of_used {batch t : Nat} {mode : RunMode} {e : TensorRecord α}
    (hr : Registry batch s) (hp : Placed s mode) (he : s.backing id = some e)
    (hk : e.role.isKept = false) (ht : t ∈ s.stepsOf id)
    (hmode : mode = .train ∨ t < s.forwardSteps) : s.Buffered id e.shape := by
  have hat := (backing_eq_some_iff.mp he).2
  refine ⟨e, he, rfl, fun h => ?_, fun _ => hp.slot _ e t hat (hr.backing_source he) hk ?_⟩
  · rw [hk] at h
    cases h
  · obtain ⟨e', he', ht⟩ := mem_stepsOf_iff.mp ht
    rw [he] at he'
    cases he'
    cases mode with
    | train => exact ht
    | inference => exact List.mem_filter.mpr ⟨ht, by simpa using hmode⟩

/-- Data that is used in a step has a buffer for the batch whenever the step is run. -/
theorem buffered_of_hasWidth {batch width t : Nat} {mode : RunMode} (hr : Registry batch s)
    (hp : Placed s mode) (hw : s.HasWidth id width) (ht : t ∈ s.stepsOf id)
    (hmode : mode = .train ∨ t < s.forwardSteps) : s.Buffered id ⟨batch, width⟩ := by
  obtain ⟨e, he, hdata, hwidth⟩ := hw
  have hb := buffered_of_used hr hp he (Role.isKept_eq_false_of_isData hdata) ht hmode
  rwa [Shape.eq_of_axes (b := ⟨batch, width⟩) (hr.batch _ e (backing_eq_some_iff.mp he).2 hdata)
    hwidth] at hb

/-- What is kept has a buffer once the weights are filled. -/
theorem buffered_of_kept {batch : Nat} {e : TensorRecord α} (hr : Registry batch s)
    (he : s.entries[id]? = some e) (hk : e.role.isKept = true) (hw : s.hasWeights = true) :
    s.Buffered id e.shape := by
  have hs := hr.source_eq_none he (Role.isData_eq_false_of_isKept hk)
  refine ⟨e, backing_of_source_eq_none he hs, rfl, fun _ => hw, fun h => ?_⟩
  rw [hk] at h
  cases h

/-- A value of its shape can be written to a tensor that has a buffer. -/
theorem exists_set_of_buffered {v : Tensor α} (hb : s.Buffered id shape) (hv : v.shape = shape) :
    ∃ s', s.set id v = .ok s' := by
  obtain ⟨e, he, hshape, hw, hslot⟩ := hb
  cases hk : e.role.isKept with
  | true => exact ⟨_, set_of_kept he hk (hv.trans hshape.symm) (hw hk)⟩
  | false =>
    obtain ⟨k, hk'⟩ := hslot hk
    exact ⟨_, set_of_slot he hk (hv.trans hshape.symm) hk'⟩

theorem returns_write {v : Tensor α} (hb : s₀.Buffered id v.shape) :
    Action.Returns (Held s₀) (write id v) fun _ => True := by
  refine Action.returns_update fun s hs => ?_
  obtain ⟨s', hs'⟩ := exists_set_of_buffered (hs.1.buffered hb) rfl
  exact ⟨s', hs', hs.1.trans (sameLayout_of_set hs'), loaded_of_set hs.2 hs'⟩

variable [Scalar α]

theorem Held.get (hs : Held s₀ s) (hb : s₀.Buffered id shape) :
    ∃ v, s.get id = .ok v ∧ v.shape = shape := by
  obtain ⟨e, he, hshape, hw, hslot⟩ := hs.1.buffered hb
  obtain ⟨v, hv⟩ : ∃ v, s.get id = .ok v := by
    cases hk : e.role.isKept with
    | true => exact exists_get_of_kept hs.2 (hw hk) he hk
    | false =>
      obtain ⟨k, hk'⟩ := hslot hk
      exact ⟨_, get_of_slot he hk hk'⟩
  exact ⟨v, hv, (shape_of_get hs.2 he hv).trans hshape⟩

section Weights

variable {w : WeightRef} {r : WeightRecord} (hw : s₀.weights[w]? = some r)
  (hg : ∀ g, r.gradient = some g → s₀.Buffered g shape)
include hw

omit [Scalar α] in
theorem Held.weight (hs : Held s₀ s) : s.weight w = .ok r := by
  rw [hs.1.weight]
  exact weight_eq_ok_iff.mpr hw

include hg

theorem returns_accumulate (step : Nat) {v : Tensor α} (hv : v.shape = shape) :
    Action.Returns (Held s₀) (accumulate w step v) fun _ => True := by
  refine (Action.returns_read (Q := (r = ·)) fun s hs => ⟨r, hs.weight hw, rfl⟩).bind ?_
  rintro _ rfl
  cases hgrad : r.gradient with
  | none => exact Action.returns_pure trivial
  | some g =>
    have hb := hg g hgrad
    dsimp only
    split
    · exact returns_write (hv ▸ hb)
    · refine (Action.returns_read (Q := fun t => t.shape = shape) fun s hs => ?_).bind fun t ht =>
        returns_write (ht ▸ hb)
      obtain ⟨old, hold, hshape⟩ := hs.get hb
      obtain ⟨t, ht, hts⟩ := Tensor.exists_add (s := old) (t := v)
        (by rw [hshape, hv, Shape.join_self])
      exact ⟨t, by rw [hold, except_ok_bind, ht], hts⟩

section Rule

variable {τ : Type} {asks : (Shape → List Shape) → Prop}

/-- A rule that does not fail and changes no shape, where the state of a weight has shapes that have
been asked for. -/
def KeepsShapes (asks : (Shape → List Shape) → Prop)
    (rule : WeightState α → Action τ (WeightState α)) : Prop :=
  ∀ u, u.gradient.shape = u.value.shape →
    (∀ v ∈ u.state, ∃ shapes, asks shapes ∧ v.shape ∈ shapes u.value.shape) →
    Action.Returns (fun _ : τ => True) (rule u) fun u' => u'.value.shape = u.value.shape ∧
      ∀ (i : Nat) v v', u.state[i]? = some v → u'.state[i]? = some v' → v'.shape = v.shape

omit [Scalar α] hw hg in
theorem keepsShapes_pure : KeepsShapes asks (pure : WeightState α → Action τ (WeightState α)) := by
  intro u _ _
  refine Action.returns_pure ⟨rfl, fun _ v v' hv hv' => ?_⟩
  rw [hv] at hv'
  rw [Option.some.inj hv']

variable (hvalue : s₀.Buffered r.value shape)
  (hstate : ∀ id ∈ r.optimizerState, ∃ sh, s₀.Buffered id sh ∧ ∃ shapes, asks shapes ∧
    sh ∈ shapes shape)
include hvalue hstate

/-- What is handed to a rule. -/
theorem Held.update? (hs : Held s₀ s) : s.update? w = .ok none ∨
    ∃ u, s.update? w = .ok (some (u, r.value, r.optimizerState)) ∧ u.value.shape = shape ∧
      u.gradient.shape = shape ∧
      List.Forall₂ (fun id v => s.get id = .ok v) r.optimizerState u.state := by
  unfold Store.update?
  rw [hs.weight hw, except_ok_bind]
  cases hgrad : r.gradient with
  | none => exact .inl rfl
  | some g =>
    obtain ⟨value, hval, hvs⟩ := hs.get hvalue
    obtain ⟨gradient, hgr, hgs⟩ := hs.get (hg g hgrad)
    obtain ⟨state, hst⟩ : ∃ state, r.optimizerState.mapM s.get = .ok state :=
      except_mapM_exists fun id hid => by
        obtain ⟨sh, hb, -⟩ := hstate id hid
        obtain ⟨v, hv, -⟩ := hs.get hb
        exact ⟨v, hv⟩
    refine .inr ⟨⟨r.name, value, gradient, state⟩, ?_, hvs, hgs, except_mapM_eq_ok_iff.mp hst⟩
    dsimp only
    rw [hval, except_ok_bind, hgr, except_ok_bind, hst]
    rfl

theorem returns_revise {rule : WeightState α → Action τ (WeightState α)}
    (hrule : KeepsShapes asks rule) :
    Action.Returns (fun p : τ × Store α => Held s₀ p.2) (revise w rule) fun _ => True := by
  have hupdate : Action.Returns (fun p : τ × Store α => Held s₀ p.2)
      (Action.read fun p : τ × Store α => p.2.update? w) fun found => ∀ u value state,
        found = some (u, value, state) → value = r.value ∧ state = r.optimizerState ∧
          u.value.shape = shape ∧ u.gradient.shape = shape ∧
          List.Forall₂ (fun id v => s₀.Buffered id v.shape ∧
            ∃ shapes, asks shapes ∧ v.shape ∈ shapes shape) r.optimizerState u.state := by
    refine Action.returns_read fun p hp => ?_
    rcases hp.update? hw hg hvalue hstate with hnone | ⟨u, hu, hvs, hgs, hst⟩
    · exact ⟨none, hnone, nofun⟩
    · refine ⟨_, hu, fun u' value state heq => ?_⟩
      cases heq
      refine ⟨rfl, rfl, hvs, hgs, List.forall₂_iff_get.mpr ⟨hst.length_eq, fun i h h' => ?_⟩⟩
      obtain ⟨sh, hb, hasks⟩ := hstate _ (List.get_mem _ ⟨i, h⟩)
      obtain ⟨v, hv, hvsh⟩ := hp.get hb
      have heq := (List.forall₂_iff_get.mp hst).2 i h h'
      rw [hv] at heq
      rw [← Except.ok.inj heq, hvsh]
      exact ⟨hb, hasks⟩
  refine hupdate.bind fun found hfound => ?_
  cases found with
  | none => exact Action.returns_pure trivial
  | some found =>
    obtain ⟨u, value, state⟩ := found
    obtain ⟨rfl, rfl, hvs, hgs, hst⟩ := hfound u value state rfl
    have hasked : ∀ v ∈ u.state, ∃ shapes, asks shapes ∧ v.shape ∈ shapes u.value.shape := by
      intro v hv
      obtain ⟨id, -, -, hasks⟩ := exists_mem_of_forall₂ hst.flip hv
      rwa [hvs]
    refine Action.Returns.bind ((hrule u (hgs.trans hvs.symm) hasked).focus (fun _ _ => trivial)
      fun _ _ h _ => h) fun u' hu' => ?_
    obtain ⟨hval, hkeep⟩ := hu'
    refine Action.Returns.focus (R := Held s₀) ?_ (fun _ h => h) fun _ _ _ h => h
    refine (returns_write (by rw [hval, hvs]; exact hvalue)).bind fun _ _ => ?_
    refine Action.returns_forM fun p hp => returns_write ?_
    obtain ⟨i, hi⟩ := List.getElem?_of_mem hp
    obtain ⟨hid, hv'⟩ := List.getElem?_zip_eq_some.mp hi
    obtain ⟨v, hv, hb, -⟩ := getElem?_of_forall₂ hst hid
    rw [hkeep i v p.2 hv hv']
    exact hb

end Rule

end Weights

end LayerGraph.Store
