import LayerGraph.Proofs.Tensor.Sum

/-!
# Counterparts

Two nodes of one layer compute the same from the same operands, whatever their handles are. The
derivatives that a multiout node sums may come in another order, if addition allows that.
-/

namespace LayerGraph

theorem except_mapM_forall₂ {ε β γ δ : Type} {f : β → Except ε δ} {f' : γ → Except ε δ}
    {xs : List β} {ys : List γ} (h : List.Forall₂ (fun x y => f' y = f x) xs ys) :
    ys.mapM f' = xs.mapM f := by
  induction h with
  | nil => rfl
  | cons hxy _ ih => rw [List.mapM_cons, List.mapM_cons, hxy, ih]

/-- Wires in two stores that are as wide as each other. -/
def SameWidth {α : Type} (s s' : Store α) (x x' : Wire) : Prop :=
  ∃ width, s.WireFits x width ∧ s'.WireFits x' width

/-- The tensors of two nodes of one layer have the same shapes if their inputs do. -/
theorem Fits.counterpart {α : Type} {s s' : Store α} {layer : Layer α} {h h' : Handles}
    (hf : Fits s layer h) (hf' : Fits s' layer h')
    (hx : List.Forall₂ (SameWidth s s') h.inputs h'.inputs) :
    (∃ width, (∀ y ∈ h.outputs, s.WireFits y width) ∧ (∀ y ∈ h'.outputs, s'.WireFits y width) ∧
      ∀ l l', h.label = some l → h'.label = some l' → s.HasWidth l width ∧ s'.HasWidth l' width) ∧
    List.Forall₂ (fun w w' => ∃ shape, s.HasWeight w shape ∧ s'.HasWeight w' shape)
      h.weights h'.weights := by
  have hone : ∀ {y y' : Wire} {width : Nat}, s.WireFits y width → s'.WireFits y' width →
      (∀ z ∈ [y], s.WireFits z width) ∧ ∀ z ∈ [y'], s'.WireFits z width :=
        fun hy hy' => by simp [hy, hy']
  have hsame : ∀ {x x' : Wire} {xs xs' : List Wire} {width width' : Nat},
      List.Forall₂ (SameWidth s s') (x :: xs) (x' :: xs') →
      s.WireFits x width → s'.WireFits x' width' → width' = width := by
    intro x x' xs xs' width width' hall hx hx'
    obtain ⟨⟨w, hw, hw'⟩, -⟩ := List.forall₂_cons.mp hall
    exact (hx'.value.unique hw'.value).trans (hw.value.unique hx.value)
  cases hf with
  | input out =>
    cases hf' with
    | input out' => exact ⟨⟨_, (hone out out').1, (hone out out').2, nofun⟩, .nil⟩
  | fullyConnected ins out hw hb =>
    cases hf' with
    | fullyConnected ins' out' hw' hb' =>
      obtain rfl := hsame hx ins ins'
      exact ⟨⟨_, (hone out out').1, (hone out out').2, nofun⟩,
        .cons ⟨_, hw, hw'⟩ (.cons ⟨_, hb, hb'⟩ .nil)⟩
  | activation ins out =>
    cases hf' with
    | activation ins' out' =>
      obtain rfl := hsame hx ins ins'
      exact ⟨⟨_, (hone out out').1, (hone out out').2, nofun⟩, .nil⟩
  | addition ins out =>
    cases hf' with
    | addition ins' out' =>
      obtain rfl := hsame hx (ins _ List.mem_cons_self) (ins' _ List.mem_cons_self)
      exact ⟨⟨_, (hone out out').1, (hone out out').2, nofun⟩, .nil⟩
  | multiout ins out =>
    cases hf' with
    | multiout ins' out' =>
      obtain rfl := hsame hx ins ins'
      exact ⟨⟨_, out, out', nofun⟩, .nil⟩
  | identity ins out =>
    cases hf' with
    | identity ins' out' =>
      obtain rfl := hsame hx ins ins'
      exact ⟨⟨_, (hone out out').1, (hone out out').2, nofun⟩, .nil⟩
  | loss _ ins out label =>
    cases hf' with
    | loss _ ins' out' label' =>
      obtain rfl := hsame hx ins ins'
      refine ⟨⟨_, (hone out out').1, (hone out out').2, fun l l' hl hl' => ?_⟩, .nil⟩
      cases hl
      cases hl'
      exact ⟨label, label'⟩

namespace Layer

variable {α : Type} [Scalar α] {layer : Layer α} {s s' : Store α} {h h' : Handles} {r r' : Reader α}

section Counterpart

variable (hf : Fits s layer h) (hf' : Fits s' layer h')
include hf hf'

theorem results_counterpart
    (hx : List.Forall₂ (fun x x' => r'.value x'.value = r.value x.value) h.inputs h'.inputs)
    (hw : List.Forall₂ (fun w w' => r'.weight w' = r.weight w) h.weights h'.weights)
    (hy : h'.outputs.length = h.outputs.length) : layer.results h' r' = layer.results h r := by
  cases hf with
  | input =>
    cases hf'
    rfl
  | fullyConnected =>
    cases hf'
    obtain ⟨hx, -⟩ := List.forall₂_cons.mp hx
    obtain ⟨hw, hb⟩ := List.forall₂_cons.mp hw
    obtain ⟨hb, -⟩ := List.forall₂_cons.mp hb
    simp only [results, hx, hw, hb]
  | addition =>
    cases hf'
    obtain ⟨hx, hxs⟩ := List.forall₂_cons.mp hx
    simp only [results, hx, except_mapM_forall₂ hxs]
  | multiout =>
    cases hf'
    obtain ⟨hx, -⟩ := List.forall₂_cons.mp hx
    simp only [results, hx, hy]
  | activation | identity | loss =>
    cases hf'
    obtain ⟨hx, -⟩ := List.forall₂_cons.mp hx
    simp only [results, hx]

theorem lossOf_counterpart
    (hx : List.Forall₂ (fun x x' => r'.value x'.value = r.value x.value) h.inputs h'.inputs)
    (hl : ∀ l l', h.label = some l → h'.label = some l' → r'.value l' = r.value l) :
    layer.lossOf h' r' = layer.lossOf h r := by
  cases hf with
  | loss =>
    cases hf'
    obtain ⟨hx, -⟩ := List.forall₂_cons.mp hx
    simp only [lossOf, hx, hl _ _ rfl rfl]
  | input | fullyConnected | activation | addition | multiout | identity =>
    cases hf'
    rfl

variable {ds ds' : List (Tensor α)} (hd : h.outputs.mapM r.derivative = .ok ds)
  (hd' : h'.outputs.mapM r'.derivative = .ok ds') (hperm : ds'.Perm ds)
include hd hd' hperm

omit hf hf' in
/-- Where there is one output, there is one derivative. -/
theorem derivative_counterpart {y y' : Wire} (hy : h.outputs = [y]) (hy' : h'.outputs = [y']) :
    ∃ d, r.derivative y = .ok d ∧ r'.derivative y' = .ok d := by
  rw [hy] at hd
  rw [hy'] at hd'
  cases except_mapM_eq_ok_iff.mp hd with
  | cons hone hnil =>
    cases hnil
    cases except_mapM_eq_ok_iff.mp hd' with
    | cons hone' hnil' =>
      cases hnil'
      obtain rfl := List.singleton_perm_singleton.mp hperm
      exact ⟨_, hone, hone'⟩

theorem contributions_counterpart
    (hx : List.Forall₂ (fun x x' => r'.value x'.value = r.value x.value) h.inputs h'.inputs) :
    layer.contributions h' r' = layer.contributions h r := by
  cases hf with
  | fullyConnected =>
    cases hf'
    obtain ⟨hx, -⟩ := List.forall₂_cons.mp hx
    obtain ⟨d, hy, hy'⟩ := derivative_counterpart hd hd' hperm rfl rfl
    simp only [contributions, hx, hy, hy']
  | input | activation | addition | multiout | identity | loss =>
    cases hf'
    rfl

theorem derivatives_counterpart (hcomm : ∀ x y : α, x + y = y + x)
    (hassoc : ∀ x y z : α, x + y + z = x + (y + z)) {shape : Shape}
    (hshape : ∀ d ∈ ds, d.shape = shape) (hx : h'.inputs.length = h.inputs.length)
    (hw : List.Forall₂ (fun w w' => r'.weight w' = r.weight w) h.weights h'.weights)
    (hy : ∀ y ∈ h.outputs, ∀ y' ∈ h'.outputs, r'.value y'.value = r.value y.value)
    (hl : ∀ l l', h.label = some l → h'.label = some l' → r'.value l' = r.value l) :
    layer.derivatives h' r' = layer.derivatives h r := by
  cases hf with
  | input =>
    cases hf'
    rfl
  | fullyConnected =>
    cases hf'
    obtain ⟨hw, -⟩ := List.forall₂_cons.mp hw
    obtain ⟨d, hone, hone'⟩ := derivative_counterpart hd hd' hperm rfl rfl
    simp only [derivatives, hw, hone, hone']
  | activation =>
    cases hf'
    obtain ⟨d, hone, hone'⟩ := derivative_counterpart hd hd' hperm rfl rfl
    simp only [derivatives, hone, hone', hy _ List.mem_cons_self _ List.mem_cons_self]
  | addition =>
    cases hf'
    obtain ⟨d, hone, hone'⟩ := derivative_counterpart hd hd' hperm rfl rfl
    simp only [derivatives, hx, hone, hone']
  | identity =>
    cases hf'
    obtain ⟨d, hone, hone'⟩ := derivative_counterpart hd hd' hperm rfl rfl
    simp only [derivatives, hone, hone']
  | loss =>
    cases hf'
    simp only [derivatives, hy _ List.mem_cons_self _ List.mem_cons_self, hl _ _ rfl rfl]
  | multiout =>
    cases hf'
    obtain ⟨t, ts, ht, hts, rfl⟩ := List.forall₂_cons_left_iff.mp (except_mapM_eq_ok_iff.mp hd)
    obtain ⟨t', ts', ht', hts', rfl⟩ := List.forall₂_cons_left_iff.mp (except_mapM_eq_ok_iff.mp hd')
    have hsum : t'.sumOnto ts' = t.sumOnto ts :=
      Tensor.sumOnto_perm hcomm hassoc hperm fun u hu => hshape u (hperm.mem_iff.mp hu)
    simp only [derivatives, ht, ht', except_ok_bind, except_mapM_eq_ok_iff.mpr hts,
      except_mapM_eq_ok_iff.mpr hts', hsum]

end Counterpart

/-- What a node passes back has the shape of its inputs, if the operands have theirs. -/
theorem shape_of_derivatives {batch : Nat} (hreg : Store.Registry batch s) (hf : Fits s layer h)
    (hw : ∀ w ∈ h.weights, ∀ v, r.weight w = .ok v → s.HasWeight w v.shape)
    (hy : layer.needsOutput = true → ∀ y ∈ h.outputs, ∀ v, r.value y.value = .ok v →
      s.shape y.value = .ok v.shape)
    (hl : ∀ l v, h.label = some l → r.value l = .ok v → s.shape l = .ok v.shape)
    (hd : ∀ y ∈ h.outputs, ∀ d, r.derivative y = .ok d → s.shape y.value = .ok d.shape)
    {dxs : List (Tensor α)} (hdxs : layer.derivatives h r = .ok dxs) :
    ∀ w ∈ h.inputs.zip dxs, s.shape w.1.value = .ok w.2.shape := by
  have hat : ∀ {id : TensorRef} {width : Nat} {shape : Shape}, s.HasWidth id width →
      s.shape id = .ok shape → shape = ⟨batch, width⟩ :=
        fun hid hshape => Except.ok.inj (hshape.symm.trans (hid.shape hreg))
  have hone : ∀ {x : Wire} {dx : Tensor α} {width : Nat}, s.WireFits x width →
      dx.shape = ⟨batch, width⟩ →
      ∀ w ∈ [x].zip [dx], s.shape w.1.value = .ok w.2.shape := by
    intro x dx width hx hdx w hmem
    rw [List.mem_singleton.mp hmem, hx.value.shape hreg, hdx]
  cases hf with
  | input => simp
  | fullyConnected ins out hweight =>
    obtain ⟨d, hdy, hdxs⟩ := except_bind_eq_ok_iff.mp hdxs
    obtain ⟨W, hW, hdxs⟩ := except_bind_eq_ok_iff.mp hdxs
    obtain ⟨dx, hdx, hdxs⟩ := except_bind_eq_ok_iff.mp hdxs
    cases hdxs
    obtain ⟨dx', hdx', hshape⟩ :=
      Tensor.exists_matmul (hat out.value (hd _ List.mem_cons_self d hdy))
      (show W.transpose.shape =
        _ by rw [Tensor.shape_transpose, (hw _ List.mem_cons_self W hW).unique hweight])
    obtain rfl := Except.ok.inj (hdx.symm.trans hdx')
    exact hone ins hshape
  | activation ins out =>
    obtain ⟨v, hv, hdxs⟩ := except_bind_eq_ok_iff.mp hdxs
    obtain ⟨d, hdy, hdxs⟩ := except_bind_eq_ok_iff.mp hdxs
    obtain ⟨dx, hdx, hdxs⟩ := except_bind_eq_ok_iff.mp hdxs
    cases hdxs
    have hvs := hat out.value (hy rfl _ List.mem_cons_self v hv)
    obtain ⟨dx', hdx', hshape⟩ := Activation.exists_derivative _
      ((hat out.value (hd _ List.mem_cons_self d hdy)).trans hvs.symm)
    obtain rfl := Except.ok.inj (hdx.symm.trans hdx')
    exact hone ins (hshape.trans hvs)
  | addition ins out =>
    obtain ⟨d, hdy, hdxs⟩ := except_bind_eq_ok_iff.mp hdxs
    cases hdxs
    intro w hmem
    obtain ⟨hx, hdx⟩ := List.of_mem_zip hmem
    rw [(ins _ hx).value.shape hreg, List.eq_of_mem_replicate hdx,
      hat out.value (hd _ List.mem_cons_self d hdy)]
  | @multiout width x y ys ins out =>
    obtain ⟨first, hfirst, hdxs⟩ := except_bind_eq_ok_iff.mp hdxs
    obtain ⟨rest, hrest, hdxs⟩ := except_bind_eq_ok_iff.mp hdxs
    obtain ⟨dx, hdx, hdxs⟩ := except_bind_eq_ok_iff.mp hdxs
    cases hdxs
    rw [Tensor.sumOnto_of_shape (hat (out y List.mem_cons_self).value
        (hd y List.mem_cons_self first hfirst)) fun t ht => by
      obtain ⟨y', hy', hget⟩ := except_mapM_mem_result hrest ht
      exact hat (out y' (List.mem_cons_of_mem y hy')).value
        (hd y' (List.mem_cons_of_mem y hy') t hget)] at hdx
    cases hdx
    exact hone ins rfl
  | identity ins out =>
    obtain ⟨d, hdy, hdxs⟩ := except_bind_eq_ok_iff.mp hdxs
    cases hdxs
    exact hone ins (hat out.value (hd _ List.mem_cons_self d hdy))
  | loss fused ins out label =>
    obtain ⟨v, hv, hdxs⟩ := except_bind_eq_ok_iff.mp hdxs
    obtain ⟨target, ht, hdxs⟩ := except_bind_eq_ok_iff.mp hdxs
    obtain ⟨dx, hdx, hdxs⟩ := except_bind_eq_ok_iff.mp hdxs
    cases hdxs
    have hvs := hat out.value (hy rfl _ List.mem_cons_self v hv)
    obtain ⟨dx', hdx', hshape⟩ :=
      Loss.exists_derivative _ ((hat label (hl _ target rfl ht)).trans hvs.symm)
    obtain rfl := Except.ok.inj (hdx.symm.trans hdx')
    exact hone ins (hshape.trans hvs)

end Layer

end LayerGraph
