import LayerGraph.Layer.Run
import LayerGraph.Proofs.Network.Registered

/-!
# What a layer computes

The operands of a layer are read from somewhere, a store or anything else, and what is written
follows from them alone. A hook that ends well has read its operands first and has then written just
that.
-/

namespace LayerGraph

variable {α β γ : Type}

/-- Where the operands of a layer are read from. -/
structure Reader (α : Type) where
  value : TensorRef → Except Error (Tensor α)
  shape : TensorRef → Except Error Shape
  weight : WeightRef → Except Error (Tensor α)

variable [Scalar α]

/-- The derivative with respect to an output, which is zero if nobody passes one back. -/
def Reader.derivative (r : Reader α) (y : Wire) : Except Error (Tensor α) :=
  match y.derivative with
  | some d => r.value d
  | none => do return .zeros (← r.shape y.value)

def Store.reader (s : Store α) : Reader α where
  value := s.get
  shape := s.shape
  weight w := do s.get (← s.weight w).value

/-- The sum of a tensor and further ones, added one after the other. -/
def Tensor.sumOnto (first : Tensor α) (rest : List (Tensor α)) : Except Error (Tensor α) :=
  rest.foldlM Tensor.add first

namespace Layer

/-- What a layer writes to its outputs. -/
def results (layer : Layer α) (h : Handles) (r : Reader α) : Except Error (List (Tensor α)) :=
  match layer, h.inputs, h.weights with
  | fullyConnected _ _ _, [x], [w, b] => do
    let product ← (← r.value x.value).matmul (← r.weight w)
    return [← product.add (← r.weight b)]
  | activation f, [x], _ => do return [f.apply (← r.value x.value)]
  | addition, x :: xs, _ => do
    return [← (← r.value x.value).sumOnto (← xs.mapM fun x => r.value x.value)]
  | multiout, [x], _ => do return List.replicate h.outputs.length (← r.value x.value)
  | identity, [x], _ => do return [← r.value x.value]
  | loss kind, [x], _ => do return [kind.activation.apply (← r.value x.value)]
  | _, _, _ => .ok []

/-- The loss that a layer finds, if it looks for one. -/
def lossOf (layer : Layer α) (h : Handles) (r : Reader α) : Except Error (Option α) :=
  match layer, h.inputs, h.label with
  | loss kind, [x], some l => do
    let prediction := kind.activation.apply (← r.value x.value)
    return some (← kind.compute prediction (← r.value l))
  | _, _, _ => .ok none

/-- What a layer adds to the gradients of its weights: `Xᵀ dY` and the column sums of `dY`. -/
def contributions (layer : Layer α) (h : Handles) (r : Reader α) : Except Error (List (Tensor α)) :=
  match layer, h.inputs, h.outputs with
  | fullyConnected _ _ _, [x], [y] => do
    let dy ← r.derivative y
    return [← (← r.value x.value).transpose.matmul dy, dy.columnSums]
  | _, _, _ => .ok []

/-- What a layer passes back to its inputs. -/
def derivatives (layer : Layer α) (h : Handles) (r : Reader α) : Except Error (List (Tensor α)) :=
  match layer, h.outputs, h.weights, h.label with
  | fullyConnected _ _ _, [y], w :: _, _ => do
    let dy ← r.derivative y
    return [← dy.matmul (← r.weight w).transpose]
  | activation f, [y], _, _ => do
    let v ← r.value y.value
    return [← f.derivative v (← r.derivative y)]
  | addition, [y], _, _ => do return List.replicate h.inputs.length (← r.derivative y)
  | multiout, y :: ys, _, _ => do return [← (← r.derivative y).sumOnto (← ys.mapM r.derivative)]
  | identity, [y], _, _ => do return [← r.derivative y]
  | loss kind, [y], _, some l => do
    let v ← r.value y.value
    return [← kind.derivative v (← r.value l)]
  | _, _, _, _ => .ok []

end Layer

/-- The tensors that derivatives with respect to inputs are written to. -/
def passedTo (xs : List Wire) (dxs : List (Tensor α)) : List (TensorRef × Tensor α) :=
  (xs.zip dxs).filterMap fun p => p.1.derivative.map fun d => (d, p.2)

/-- Write one tensor after the other. -/
def Store.setAll (s : Store α) (writes : List (TensorRef × Tensor α)) : Except Error (Store α) :=
  writes.foldlM (fun s w => s.set w.1 w.2) s

omit [Scalar α] in
theorem Store.setAll_append (s : Store α) (xs ys : List (TensorRef × Tensor α)) :
    s.setAll (xs ++ ys) = (do (← s.setAll xs).setAll ys) := List.foldlM_append

omit [Scalar α] in
theorem flatMap_copies (ys : List Wire) (v : Tensor α) :
    (ys.flatMap fun y => [(y.value, v)]) =
      (ys.map (·.value)).zip (List.replicate ys.length v) := by
  induction ys with
  | nil => rfl
  | cons y ys ih =>
    rw [List.flatMap_cons, ih]
    rfl

omit [Scalar α] in
theorem flatMap_passedTo (xs : List Wire) (v : Tensor α) :
    xs.flatMap (fun x => passedTo [x] [v]) = passedTo xs (List.replicate xs.length v) := by
  induction xs with
  | nil => rfl
  | cons x xs ih =>
    rw [List.flatMap_cons, ih]
    simp only [passedTo, List.length_cons, List.replicate_succ, List.zip_cons_cons,
      List.filterMap_cons]
    cases x.derivative <;> rfl

namespace Hook

variable {view : NodeView} {t t' : HookState α}

omit [Scalar α] in
theorem bind_eq_ok_iff {hook : Hook α β} {f : β → Hook α γ} {c : γ} :
    (hook >>= f) view t = .ok c t' ↔ ∃ b t₁, hook view t = .ok b t₁ ∧ f b view t₁ = .ok c t' :=
  Action.bind_eq_ok_iff

omit [Scalar α] in
theorem readStore_eq_ok {f : Store α → Except Error β} {b : β} (h : readStore f view t = .ok b t') :
    f t.store = .ok b ∧ t = t' := by
  change Action.focus (fun t : HookState α => t.store) (fun store t => { t with store := store })
    (Action.read f) t = .ok b t' at h
  obtain ⟨s, hs, rfl⟩ := Action.focus_eq_ok_iff.mp h
  obtain ⟨hf, rfl⟩ := Action.read_eq_ok_iff.mp hs
  exact ⟨hf, rfl⟩

omit [Scalar α] in
theorem handle_eq_ok {list : Handles → List γ} {what : Operand} {i : Nat} {x : γ}
    (h : handle (α := α) list what i view t = .ok x t') : (list view.handles)[i]? = some x ∧
    t = t' := by
  obtain ⟨_, _, hview, h⟩ := bind_eq_ok_iff.mp h
  cases hview
  cases hx : (list view.handles)[i]? with
  | some x' =>
    simp only [hx] at h
    cases h
    exact ⟨rfl, rfl⟩
  | none =>
    simp only [hx] at h
    cases h

omit [Scalar α] in
theorem write_eq_ok {id : TensorRef} {v : Tensor α} {u : Unit}
    (h : ofStore (Store.write id v) view t = .ok u t') :
    ∃ s, t.store.set id v = .ok s ∧ t' = { t with store := s } := by
  obtain ⟨s, hs, rfl⟩ := Action.focus_eq_ok_iff.mp h
  exact ⟨s, Action.update_eq_ok_iff.mp hs, rfl⟩

omit [Scalar α] in
theorem ofKernel_eq_ok {result : Except Error β} {b : β}
    (h : (Layer.ofKernel result : Hook α β) view t = .ok b t') : result = .ok b ∧ t = t' :=
  Action.read_eq_ok_iff.mp h

theorem input_eq_ok {i : Nat} {v : Tensor α} (h : input i view t = .ok v t') :
    ∃ x, view.handles.inputs[i]? = some x ∧ t.store.get x.value = .ok v ∧ t = t' := by
  obtain ⟨x, _, hread, h⟩ := bind_eq_ok_iff.mp h
  obtain ⟨hx, rfl⟩ := handle_eq_ok hread
  exact ⟨x, hx, readStore_eq_ok h⟩

theorem output_eq_ok {i : Nat} {v : Tensor α} (h : output i view t = .ok v t') :
    ∃ y, view.handles.outputs[i]? = some y ∧ t.store.get y.value = .ok v ∧ t = t' := by
  obtain ⟨y, _, hread, h⟩ := bind_eq_ok_iff.mp h
  obtain ⟨hy, rfl⟩ := handle_eq_ok hread
  exact ⟨y, hy, readStore_eq_ok h⟩

theorem weight_eq_ok {i : Nat} {v : Tensor α} (h : weight i view t = .ok v t') :
    ∃ w, view.handles.weights[i]? = some w ∧ t.store.reader.weight w = .ok v ∧ t = t' := by
  obtain ⟨w, _, hread, h⟩ := bind_eq_ok_iff.mp h
  obtain ⟨hw, rfl⟩ := handle_eq_ok hread
  exact ⟨w, hw, readStore_eq_ok h⟩

theorem label_eq_ok {v : Tensor α} (h : label view t = .ok v t') :
    ∃ l, view.handles.label = some l ∧ t.store.get l = .ok v ∧ t = t' := by
  change (match view.handles.label with
    | some l => (readStore (·.get l) : Hook α (Tensor α))
    | none => fail .noLabel) view t = .ok v t' at h
  cases hl : view.handles.label with
  | some l =>
    rw [hl] at h
    exact ⟨l, rfl, readStore_eq_ok h⟩
  | none =>
    rw [hl] at h
    cases h

theorem outputDerivative_eq_ok {i : Nat} {v : Tensor α} (h : outputDerivative i view t = .ok v t') :
    ∃ y, view.handles.outputs[i]? = some y ∧ t.store.reader.derivative y = .ok v ∧ t = t' := by
  obtain ⟨y, _, hread, h⟩ := bind_eq_ok_iff.mp h
  obtain ⟨hy, rfl⟩ := handle_eq_ok hread
  refine ⟨y, hy, ?_⟩
  unfold Reader.derivative
  cases hd : y.derivative with
  | some d =>
    rw [hd] at h
    exact readStore_eq_ok h
  | none =>
    rw [hd] at h
    obtain ⟨shape, _, hread, h⟩ := bind_eq_ok_iff.mp h
    obtain ⟨hs, rfl⟩ := readStore_eq_ok hread
    cases h
    exact ⟨except_bind_eq_ok_iff.mpr ⟨shape, hs, rfl⟩, rfl⟩

omit [Scalar α] in
theorem writeOutput_eq_ok {i : Nat} {v : Tensor α} {u : Unit}
    (h : writeOutput i v view t = .ok u t') :
    ∃ y s, view.handles.outputs[i]? = some y ∧ t.store.set y.value v = .ok s ∧
      t' = { t with store := s } := by
  obtain ⟨y, _, hread, h⟩ := bind_eq_ok_iff.mp h
  obtain ⟨hy, rfl⟩ := handle_eq_ok hread
  obtain ⟨s, hs⟩ := write_eq_ok h
  exact ⟨y, s, hy, hs⟩

omit [Scalar α] in
/-- A derivative with respect to an input is written where the producer takes it. -/
theorem writeInputDerivative_eq_ok {i : Nat} {v : Tensor α} {u : Unit}
    (h : writeInputDerivative i v view t = .ok u t') :
    ∃ x s, view.handles.inputs[i]? = some x ∧ t.store.setAll (passedTo [x] [v]) = .ok s ∧
      t' = { t with store := s } := by
  obtain ⟨x, _, hread, h⟩ := bind_eq_ok_iff.mp h
  obtain ⟨hx, rfl⟩ := handle_eq_ok hread
  cases hd : x.derivative with
  | none =>
    rw [hd] at h
    cases h
    exact ⟨x, t.store, hx, by simp [passedTo, hd, Store.setAll], rfl⟩
  | some d =>
    rw [hd] at h
    obtain ⟨s, hs, rfl⟩ := write_eq_ok h
    exact ⟨x, s, hx, by simp [passedTo, hd, Store.setAll, hs], rfl⟩

theorem addGradient_eq_ok {i step : Nat} {v : Tensor α} {u : Unit}
    (hstep : view.schedule.gradientStep = some step) (h : addGradient i v view t = .ok u t') :
    ∃ w s, view.handles.weights[i]? = some w ∧ Store.accumulate w step v t.store = .ok () s ∧
      t' = { t with store := s } := by
  obtain ⟨w, _, hread, h⟩ := bind_eq_ok_iff.mp h
  obtain ⟨hw, rfl⟩ := handle_eq_ok hread
  obtain ⟨_, _, hview, h⟩ := bind_eq_ok_iff.mp h
  cases hview
  simp only [hstep] at h
  obtain ⟨s, hs, rfl⟩ := Action.focus_eq_ok_iff.mp h
  exact ⟨w, s, hw, hs, rfl⟩

omit [Scalar α] in
theorem trainsWeight_eq_ok {i : Nat} {w : WeightRef} {b : Bool}
    (hw : view.handles.weights[i]? = some w)
    (h : (trainsWeight i : Hook α Bool) view t = .ok b t') : t.store.trains w = .ok b ∧ t = t' := by
  obtain ⟨_, _, hview, h⟩ := bind_eq_ok_iff.mp h
  cases hview
  simp only [hw] at h
  exact readStore_eq_ok h

/-- What is read for a sum is the values of the operands, and the sum is taken from the first on. -/
theorem sumFrom_eq_ok {operand : Nat → Hook α (Tensor α)} (read : β → Except Error (Tensor α))
    (x : β) (xs : List β) {v : Tensor α}
    (hread : ∀ (i : Nat) v t', operand i view t = .ok v t' →
      ∃ x', (x :: xs)[i]? = some x' ∧ read x' = .ok v ∧ t = t')
    (h : Layer.sumFrom operand (x :: xs).length view t = .ok v t') :
    (do (← read x).sumOnto (← xs.mapM read)) = .ok v ∧ t = t' := by
  obtain ⟨first, _, h₀, h⟩ := bind_eq_ok_iff.mp h
  obtain ⟨x', hx', hfirst, rfl⟩ := hread 0 _ _ h₀
  cases hx'
  -- The loop from position `k` on reads what is left from there.
  have hloop : ∀ (ys : List β) (k : Nat) (acc : Tensor α), (x :: xs).drop k = ys →
      ((List.range' k ys.length).foldlM (fun sum i => do
        Layer.ofKernel (sum.add (← operand i))) acc : Hook α (Tensor α)) view t = .ok v t' →
      (do acc.sumOnto (← ys.mapM read)) = .ok v ∧ t = t' := by
    intro ys
    induction ys with
    | nil =>
      intro k acc _ h
      cases h
      exact ⟨rfl, rfl⟩
    | cons y ys ih =>
      intro k acc hk h
      rw [List.length_cons, List.range'_succ, List.foldlM_cons] at h
      obtain ⟨sum, _, hstep, h⟩ := bind_eq_ok_iff.mp h
      obtain ⟨w, _, hop, hadd⟩ := bind_eq_ok_iff.mp hstep
      obtain ⟨y', hy', hw, rfl⟩ := hread k _ _ hop
      obtain ⟨hnext, rfl⟩ := ofKernel_eq_ok hadd
      have hy : (x :: xs)[k]? = some y := by
        rw [← List.head?_drop, hk]
        rfl
      rw [hy] at hy'
      cases hy'
      have hrest : (x :: xs).drop (k + 1) = ys := by
        rw [← List.tail_drop, hk]
        rfl
      obtain ⟨hsum, rfl⟩ := ih (k + 1) sum hrest h
      refine ⟨?_, rfl⟩
      obtain ⟨vs, hvs, hfold⟩ := except_bind_eq_ok_iff.mp hsum
      rw [List.mapM_cons, hw, except_ok_bind, hvs, except_ok_bind]
      change (w :: vs).foldlM Tensor.add acc = .ok v
      rw [List.foldlM_cons, hnext, except_ok_bind]
      exact hfold
  obtain ⟨hsum, rfl⟩ := hloop xs 1 first rfl h
  exact ⟨by rw [hfirst, except_ok_bind]; exact hsum, rfl⟩

omit [Scalar α] in
/-- A loop over positions that writes something for each element of a list. -/
theorem forM_range_eq_ok {f : Nat → Hook α PUnit} (ys : List β)
    (writes : β → List (TensorRef × Tensor α)) {u : PUnit}
    (hf : ∀ i u (t t' : HookState α), f i view t = .ok u t' →
      ∃ y s, ys[i]? = some y ∧ t.store.setAll (writes y) = .ok s ∧ t' = { t with store := s })
    (h : (List.range ys.length).forM f view t = .ok u t') :
    ∃ s, t.store.setAll (ys.flatMap writes) = .ok s ∧ t' = { t with store := s } := by
  -- The loop from position `k` on writes for what is left from there.
  have hloop : ∀ (zs : List β) (k : Nat) (t : HookState α), ys.drop k = zs →
      (List.range' k zs.length).forM f view t = .ok u t' →
      ∃ s, t.store.setAll (zs.flatMap writes) = .ok s ∧ t' = { t with store := s } := by
    intro zs
    induction zs with
    | nil =>
      intro k t _ h
      cases h
      exact ⟨_, rfl, rfl⟩
    | cons z zs ih =>
      intro k t hk h
      rw [List.length_cons, List.range'_succ] at h
      simp only [List.forM_eq_forM, List.forM_cons] at h ih
      obtain ⟨_, t₁, hstep, h⟩ := bind_eq_ok_iff.mp h
      obtain ⟨z', s₁, hz', hs₁, rfl⟩ := hf k _ _ _ hstep
      have hz : ys[k]? = some z := by
        rw [← List.head?_drop, hk]
        rfl
      rw [hz] at hz'
      cases hz'
      have hrest : ys.drop (k + 1) = zs := by
        rw [← List.tail_drop, hk]
        rfl
      obtain ⟨s, hs, rfl⟩ := ih (k + 1) _ hrest h
      refine ⟨s, ?_, rfl⟩
      rw [List.flatMap_cons, Store.setAll_append, hs₁, except_ok_bind]
      exact hs
  rw [List.range_eq_range'] at h
  exact hloop ys 0 t rfl h

end Hook

theorem Store.accumulate_eq_ok {w : WeightRef} {step : Nat} {c : Tensor α}
    {s s' : Store α} {u : Unit} (h : Store.accumulate w step c s = .ok u s') : ∃ r,
      s.weights[w]? = some r ∧ ((r.gradient = none ∧ s' = s) ∨ ∃ g, r.gradient = some g ∧
        ((r.gradientSteps.min? = some step ∧ s.set g c = .ok s') ∨
          (r.gradientSteps.min? ≠ some step ∧ ∃ old sum, s.get g = .ok old ∧ old.add c = .ok sum ∧
            s.set g sum = .ok s'))) := by
  obtain ⟨r, _, hread, h⟩ := Action.bind_eq_ok_iff.mp h
  obtain ⟨hr, rfl⟩ := Action.read_eq_ok_iff.mp hread
  refine ⟨r, Store.weight_eq_ok_iff.mp hr, ?_⟩
  cases hg : r.gradient with
  | none =>
    rw [hg] at h
    cases h
    exact .inl ⟨rfl, rfl⟩
  | some g =>
    rw [hg] at h
    refine .inr ⟨g, rfl, ?_⟩
    dsimp only at h
    split at h
    · next hmin => exact .inl ⟨hmin, Action.update_eq_ok_iff.mp h⟩
    · next hmin =>
      obtain ⟨sum, _, hread, h⟩ := Action.bind_eq_ok_iff.mp h
      obtain ⟨hsum, rfl⟩ := Action.read_eq_ok_iff.mp hread
      obtain ⟨old, hold, hsum⟩ := except_bind_eq_ok_iff.mp hsum
      exact .inr ⟨hmin, old, sum, hold, hsum, Action.update_eq_ok_iff.mp h⟩

theorem Store.sameLayout_accumulate {w : WeightRef} {step : Nat} {c : Tensor α}
    {s s' : Store α} {u : Unit} (h : Store.accumulate w step c s = .ok u s') : s.SameLayout s' := by
  obtain ⟨r, -, ⟨-, rfl⟩ | ⟨g, -, ⟨-, hs⟩ | ⟨-, old, sum, -, -, hs⟩⟩⟩ := Store.accumulate_eq_ok h
  · exact .refl _
  · exact Store.sameLayout_of_set hs
  · exact Store.sameLayout_of_set hs

omit [Scalar α] in
theorem Store.sameLayout_setAll {writes : List (TensorRef × Tensor α)} {s s' : Store α}
    (h : s.setAll writes = .ok s') : s.SameLayout s' :=
  except_foldlM_upTo (fun _ s₁ => s.SameLayout s₁) h (.refl s) fun _ _ _ _ _ _ hs hset =>
    hs.trans (Store.sameLayout_of_set hset)

namespace Layer

open Hook

variable {s₀ : Store α} {layer : Layer α} {view : NodeView} {t t' : HookState α}

/-- What a forward hook leaves: the results of its layer stand in the outputs, and the loss that it
records follows from what was there before, if the label is still. -/
def Forwarded (layer : Layer α) (handles : Handles) (t t' : HookState α) : Prop :=
  ∃ vs, layer.results handles t.store.reader = .ok vs ∧
    t.store.setAll ((handles.outputs.map (·.value)).zip vs) = .ok t'.store ∧ t'.notes = t.notes ∧
    ((∀ l, handles.label = some l → t'.store.get l = t.store.get l) →
      ∃ found, layer.lossOf handles t.store.reader = .ok found ∧ t'.loss = found.getD t.loss)

section Forward

variable {training : Bool} {u : Unit} {x y : Wire} {w b : WeightRef} {l : TensorRef}

/-- A layer without a loss that writes one output. -/
theorem forwarded_single {handles : Handles} {v : Tensor α} {s : Store α}
    (houtputs : handles.outputs = [y]) (hresults : layer.results handles t.store.reader = .ok [v])
    (hloss : layer.lossOf handles t.store.reader = .ok none) (hs : t.store.set y.value v = .ok s) :
    Forwarded layer handles t { t with store := s } :=
  ⟨[v], hresults, by simp [houtputs, Store.setAll, hs], rfl, fun _ => ⟨none, hloss, rfl⟩⟩

theorem forward_fullyConnected {units : Nat} {weight bias : Initializer α}
    (hh : view.handles = ⟨[x], [y], [w, b], [], none⟩)
    (h : (Layer.fullyConnected units weight bias).forward training view t = .ok u t') :
    Forwarded (.fullyConnected units weight bias) ⟨[x], [y], [w, b], [], none⟩ t t' := by
  obtain ⟨X, _, hread, h⟩ := bind_eq_ok_iff.mp h
  obtain ⟨x', hx, hX, rfl⟩ := input_eq_ok hread
  obtain ⟨W, _, hread, h⟩ := bind_eq_ok_iff.mp h
  obtain ⟨w', hw, hW, rfl⟩ := weight_eq_ok hread
  obtain ⟨product, _, hread, h⟩ := bind_eq_ok_iff.mp h
  obtain ⟨hproduct, rfl⟩ := ofKernel_eq_ok hread
  obtain ⟨B, _, hread, h⟩ := bind_eq_ok_iff.mp h
  obtain ⟨b', hb, hB, rfl⟩ := weight_eq_ok hread
  obtain ⟨v, _, hread, h⟩ := bind_eq_ok_iff.mp h
  obtain ⟨hv, rfl⟩ := ofKernel_eq_ok hread
  obtain ⟨y', s, hy, hs, rfl⟩ := writeOutput_eq_ok h
  rw [hh] at hx hw hb hy
  cases hx
  cases hw
  cases hb
  cases hy
  refine forwarded_single rfl ?_ rfl hs
  refine except_bind_eq_ok_iff.mpr ⟨X, hX, except_bind_eq_ok_iff.mpr ⟨W, hW, ?_⟩⟩
  refine except_bind_eq_ok_iff.mpr ⟨product, hproduct, ?_⟩
  exact except_bind_eq_ok_iff.mpr ⟨B, hB, except_bind_eq_ok_iff.mpr ⟨v, hv, rfl⟩⟩

theorem forward_activation {f : Activation} (hh : view.handles = ⟨[x], [y], [], [], none⟩)
    (h : (Layer.activation f : Layer α).forward training view t = .ok u t') :
    Forwarded (.activation f) ⟨[x], [y], [], [], none⟩ t t' := by
  obtain ⟨X, _, hread, h⟩ := bind_eq_ok_iff.mp h
  obtain ⟨x', hx, hX, rfl⟩ := input_eq_ok hread
  obtain ⟨y', s, hy, hs, rfl⟩ := writeOutput_eq_ok h
  rw [hh] at hx hy
  cases hx
  cases hy
  exact forwarded_single rfl (except_bind_eq_ok_iff.mpr ⟨X, hX, rfl⟩) rfl hs

theorem forward_addition {xs : List Wire} (hh : view.handles = ⟨x :: xs, [y], [], [], none⟩)
    (h : (Layer.addition : Layer α).forward training view t = .ok u t') :
    Forwarded .addition ⟨x :: xs, [y], [], [], none⟩ t t' := by
  obtain ⟨count, _, hread, h⟩ := bind_eq_ok_iff.mp h
  cases hread
  obtain ⟨v, _, hread, h⟩ := bind_eq_ok_iff.mp h
  obtain ⟨hv, rfl⟩ := sumFrom_eq_ok (fun x : Wire => t.store.get x.value) x xs (fun i v t' hi => by
    obtain ⟨x', hx', hget, rfl⟩ := input_eq_ok hi
    rw [hh] at hx'
    exact ⟨x', hx', hget, rfl⟩) (by rw [hh] at hread; exact hread)
  obtain ⟨y', s, hy, hs, rfl⟩ := writeOutput_eq_ok h
  rw [hh] at hy
  cases hy
  refine forwarded_single rfl ?_ rfl hs
  obtain ⟨first, hfirst, hsum⟩ := except_bind_eq_ok_iff.mp hv
  obtain ⟨rest, hrest, hsum⟩ := except_bind_eq_ok_iff.mp hsum
  refine except_bind_eq_ok_iff.mpr ⟨first, hfirst, ?_⟩
  exact except_bind_eq_ok_iff.mpr ⟨rest, hrest, except_bind_eq_ok_iff.mpr ⟨v, hsum, rfl⟩⟩

theorem forward_multiout {ys : List Wire} (hh : view.handles = ⟨[x], y :: ys, [], [], none⟩)
    (h : (Layer.multiout : Layer α).forward training view t = .ok u t') :
    Forwarded .multiout ⟨[x], y :: ys, [], [], none⟩ t t' := by
  obtain ⟨X, _, hread, h⟩ := bind_eq_ok_iff.mp h
  obtain ⟨x', hx, hX, rfl⟩ := input_eq_ok hread
  obtain ⟨count, _, hread, h⟩ := bind_eq_ok_iff.mp h
  cases hread
  rw [hh] at hx
  cases hx
  obtain ⟨s, hs, rfl⟩ := forM_range_eq_ok view.handles.outputs (fun y => [(y.value, X)])
    (fun i u t t' hi => by
      obtain ⟨y', s, hy, hs, rfl⟩ := writeOutput_eq_ok hi
      exact ⟨y', s, hy, by simp [Store.setAll, hs], rfl⟩) h
  rw [hh, flatMap_copies] at hs
  exact ⟨_, except_bind_eq_ok_iff.mpr ⟨X, hX, rfl⟩, hs, rfl, fun _ => ⟨none, rfl, rfl⟩⟩

theorem forward_identity (hh : view.handles = ⟨[x], [y], [], [], none⟩)
    (h : (Layer.identity : Layer α).forward training view t = .ok u t') :
    Forwarded .identity ⟨[x], [y], [], [], none⟩ t t' := by
  obtain ⟨X, _, hread, h⟩ := bind_eq_ok_iff.mp h
  obtain ⟨x', hx, hX, rfl⟩ := input_eq_ok hread
  obtain ⟨y', s, hy, hs, rfl⟩ := writeOutput_eq_ok h
  rw [hh] at hx hy
  cases hx
  cases hy
  exact forwarded_single rfl (except_bind_eq_ok_iff.mpr ⟨X, hX, rfl⟩) rfl hs

theorem forward_loss {kind : Loss} (hh : view.handles = ⟨[x], [y], [], [], some l⟩)
    (h : (Layer.loss kind : Layer α).forward training view t = .ok u t') :
    Forwarded (.loss kind) ⟨[x], [y], [], [], some l⟩ t t' := by
  obtain ⟨X, _, hread, h⟩ := bind_eq_ok_iff.mp h
  obtain ⟨x', hx, hX, rfl⟩ := input_eq_ok hread
  obtain ⟨_, t₁, hwrite, h⟩ := bind_eq_ok_iff.mp h
  obtain ⟨y', s, hy, hs, rfl⟩ := writeOutput_eq_ok hwrite
  obtain ⟨T, _, hread, h⟩ := bind_eq_ok_iff.mp h
  obtain ⟨l', hl, hT, rfl⟩ := label_eq_ok hread
  obtain ⟨v, _, hread, h⟩ := bind_eq_ok_iff.mp h
  obtain ⟨hv, rfl⟩ := ofKernel_eq_ok hread
  cases h
  rw [hh] at hx hy hl
  cases hx
  cases hy
  cases hl
  refine ⟨[kind.activation.apply X], except_bind_eq_ok_iff.mpr ⟨X, hX, rfl⟩,
    by simp [Store.setAll, hs], rfl, fun hlabel => ⟨some v, ?_, rfl⟩⟩
  have hT' : t.store.get l = .ok T := (hlabel l rfl).symm.trans hT
  refine except_bind_eq_ok_iff.mpr ⟨X, hX, ?_⟩
  exact except_bind_eq_ok_iff.mpr ⟨T, hT', except_bind_eq_ok_iff.mpr ⟨v, hv, rfl⟩⟩

/-- A forward hook writes the results of its layer to the outputs. The loss that it records follows
from what was there before, if the label is still. -/
theorem of_forward (hf : Fits s₀ layer view.handles)
    (h : layer.forward training view t = .ok u t') :
    ∃ vs, layer.results view.handles t.store.reader = .ok vs ∧
      t.store.setAll ((view.handles.outputs.map (·.value)).zip vs) = .ok t'.store ∧
      t'.notes = t.notes ∧
      ((∀ l, view.handles.label = some l → t'.store.get l = t.store.get l) →
        ∃ found, layer.lossOf view.handles t.store.reader = .ok found ∧
          t'.loss = found.getD t.loss) := by
  change Forwarded layer view.handles t t'
  generalize hh : view.handles = handles at hf
  cases hf with
  | input out =>
    cases h
    exact ⟨[], rfl, rfl, rfl, fun _ => ⟨none, rfl, rfl⟩⟩
  | fullyConnected => exact forward_fullyConnected hh h
  | activation => exact forward_activation hh h
  | addition => exact forward_addition hh h
  | multiout => exact forward_multiout hh h
  | identity => exact forward_identity hh h
  | loss => exact forward_loss hh h

end Forward

/-- A node that trains adds its contributions to the gradients of its weights. -/
theorem of_collectGradients {step : Nat} {u : Unit} (hf : Fits s₀ layer view.handles)
    (hstep : view.schedule.gradientStep = some step)
    (htrains : ∀ w ∈ view.handles.weights, ∀ s, t.store.SameLayout s → s.trains w = .ok true)
    (h : layer.collectGradients view t = .ok u t') :
    ∃ cs, layer.contributions view.handles t.store.reader = .ok cs ∧
      ((view.handles.weights.zip cs).forM fun c => Store.accumulate c.1 step c.2 :
        Action (Store α) PUnit) t.store = .ok ⟨⟩ t'.store ∧
      t'.notes = t.notes ∧ t'.loss = t.loss := by
  generalize hh : view.handles = handles at hf
  cases hf with
  | @fullyConnected units width weight bias x y w b ins out hw hb ne =>
    obtain ⟨DY, _, hread, h⟩ := bind_eq_ok_iff.mp h
    obtain ⟨y', hy, hDY, rfl⟩ := outputDerivative_eq_ok hread
    obtain ⟨trains, _, hread, h⟩ := bind_eq_ok_iff.mp h
    obtain ⟨ht, rfl⟩ := trainsWeight_eq_ok (w := w) (by rw [hh]; rfl) hread
    rw [htrains w (by rw [hh]; simp) _ (.refl _)] at ht
    cases ht
    obtain ⟨X, _, hread, h⟩ := bind_eq_ok_iff.mp h
    obtain ⟨x', hx, hX, rfl⟩ := input_eq_ok hread
    obtain ⟨v, _, hread, h⟩ := bind_eq_ok_iff.mp h
    obtain ⟨hv, rfl⟩ := ofKernel_eq_ok hread
    obtain ⟨_, t₁, hadd, h⟩ := bind_eq_ok_iff.mp h
    obtain ⟨w', s₁, hw, hs₁, rfl⟩ := addGradient_eq_ok hstep hadd
    obtain ⟨trains, _, hread, h⟩ := bind_eq_ok_iff.mp h
    obtain ⟨ht, rfl⟩ := trainsWeight_eq_ok (w := b) (by rw [hh]; rfl) hread
    rw [htrains b (by rw [hh]; simp) _ (Store.sameLayout_accumulate hs₁)] at ht
    cases ht
    obtain ⟨b', s₂, hb, hs₂, rfl⟩ := addGradient_eq_ok hstep h
    rw [hh] at hx hy hw hb
    cases hx
    cases hy
    cases hw
    cases hb
    refine ⟨[v, DY.columnSums], ?_, ?_, rfl, rfl⟩
    · refine except_bind_eq_ok_iff.mpr ⟨DY, hDY, ?_⟩
      exact except_bind_eq_ok_iff.mpr ⟨X, hX, except_bind_eq_ok_iff.mpr ⟨v, hv, rfl⟩⟩
    · simp only [List.zip_cons_cons, List.zip_nil_right, List.forM_eq_forM, List.forM_cons,
        List.forM_nil]
      rw [Action.bind_of_ok hs₁, Action.bind_of_ok hs₂]
      rfl
  | input | activation | multiout | identity | addition | loss =>
    cases h
    exact ⟨[], rfl, rfl, rfl, rfl⟩

/-- What a hook that passes derivatives back leaves: it has written nothing where no input has a
derivative, or the derivatives of its layer. -/
def PassedBack (layer : Layer α) (handles : Handles) (t t' : HookState α) : Prop :=
  ∃ writes, t.store.setAll writes = .ok t'.store ∧ t'.notes = t.notes ∧ t'.loss = t.loss ∧
    (writes = [] ∧ (∀ x ∈ handles.inputs, x.derivative = none) ∨
      ∃ dxs, layer.derivatives handles t.store.reader = .ok dxs ∧
      writes = passedTo handles.inputs dxs)

section PassBack

variable {u : Unit} {x y : Wire} {w b : WeightRef} {l : TensorRef}

/-- A layer that passes derivatives back to its inputs. -/
theorem passedBack_to {handles : Handles} {dxs : List (Tensor α)} {s : Store α}
    (hdxs : layer.derivatives handles t.store.reader = .ok dxs)
    (hs : t.store.setAll (passedTo handles.inputs dxs) = .ok s) :
    PassedBack layer handles t { t with store := s } :=
  ⟨_, hs, rfl, rfl, .inr ⟨dxs, hdxs, rfl⟩⟩

theorem passBack_fullyConnected {units : Nat} {weight bias : Initializer α}
    (hh : view.handles = ⟨[x], [y], [w, b], [], none⟩)
    (h : (Layer.fullyConnected units weight bias).passBack view t = .ok u t') :
    PassedBack (.fullyConnected units weight bias) ⟨[x], [y], [w, b], [], none⟩ t t' := by
  obtain ⟨wants, _, hread, h⟩ := bind_eq_ok_iff.mp h
  cases hread
  rw [hh] at h
  cases hd : x.derivative with
  | none =>
    simp only [List.getElem?_cons_zero, Option.bind_some, hd, Option.isSome_none,
      Bool.false_eq_true, if_false] at h
    cases h
    exact ⟨[], rfl, rfl, rfl, .inl ⟨rfl, by simpa using hd⟩⟩
  | some d =>
    simp only [List.getElem?_cons_zero, Option.bind_some, hd, Option.isSome_some, if_true] at h
    obtain ⟨DY, _, hread, h⟩ := bind_eq_ok_iff.mp h
    obtain ⟨y', hy, hDY, rfl⟩ := outputDerivative_eq_ok hread
    obtain ⟨W, _, hread, h⟩ := bind_eq_ok_iff.mp h
    obtain ⟨w', hw, hW, rfl⟩ := weight_eq_ok hread
    obtain ⟨v, _, hread, h⟩ := bind_eq_ok_iff.mp h
    obtain ⟨hv, rfl⟩ := ofKernel_eq_ok hread
    obtain ⟨x', s, hx, hs, rfl⟩ := writeInputDerivative_eq_ok h
    rw [hh] at hx hy hw
    cases hx
    cases hy
    cases hw
    refine passedBack_to (except_bind_eq_ok_iff.mpr ⟨DY, hDY, ?_⟩) hs
    exact except_bind_eq_ok_iff.mpr ⟨W, hW, except_bind_eq_ok_iff.mpr ⟨v, hv, rfl⟩⟩

theorem passBack_activation {f : Activation} (hh : view.handles = ⟨[x], [y], [], [], none⟩)
    (h : (Layer.activation f : Layer α).passBack view t = .ok u t') :
    PassedBack (.activation f) ⟨[x], [y], [], [], none⟩ t t' := by
  obtain ⟨Y, _, hread, h⟩ := bind_eq_ok_iff.mp h
  obtain ⟨y', hy, hY, rfl⟩ := output_eq_ok hread
  obtain ⟨DY, _, hread, h⟩ := bind_eq_ok_iff.mp h
  obtain ⟨y'', hy', hDY, rfl⟩ := outputDerivative_eq_ok hread
  obtain ⟨v, _, hread, h⟩ := bind_eq_ok_iff.mp h
  obtain ⟨hv, rfl⟩ := ofKernel_eq_ok hread
  obtain ⟨x', s, hx, hs, rfl⟩ := writeInputDerivative_eq_ok h
  rw [hh] at hx hy hy'
  cases hx
  cases hy
  cases hy'
  refine passedBack_to (except_bind_eq_ok_iff.mpr ⟨Y, hY, ?_⟩) hs
  exact except_bind_eq_ok_iff.mpr ⟨DY, hDY, except_bind_eq_ok_iff.mpr ⟨v, hv, rfl⟩⟩

theorem passBack_addition {xs : List Wire} (hh : view.handles = ⟨x :: xs, [y], [], [], none⟩)
    (h : (Layer.addition : Layer α).passBack view t = .ok u t') :
    PassedBack .addition ⟨x :: xs, [y], [], [], none⟩ t t' := by
  obtain ⟨DY, _, hread, h⟩ := bind_eq_ok_iff.mp h
  obtain ⟨y', hy, hDY, rfl⟩ := outputDerivative_eq_ok hread
  obtain ⟨count, _, hread, h⟩ := bind_eq_ok_iff.mp h
  cases hread
  rw [hh] at hy
  cases hy
  obtain ⟨s, hs, rfl⟩ := forM_range_eq_ok view.handles.inputs (fun x => passedTo [x] [DY])
    (fun i u t t' hi => writeInputDerivative_eq_ok hi) h
  rw [flatMap_passedTo, hh] at hs
  have hcopies : (Layer.addition : Layer α).derivatives ⟨x :: xs, [y], [], [], none⟩
      t.store.reader = .ok (List.replicate (x :: xs).length DY) :=
    except_bind_eq_ok_iff.mpr ⟨DY, hDY, rfl⟩
  exact passedBack_to hcopies hs

theorem passBack_multiout {ys : List Wire} (hh : view.handles = ⟨[x], y :: ys, [], [], none⟩)
    (h : (Layer.multiout : Layer α).passBack view t = .ok u t') :
    PassedBack .multiout ⟨[x], y :: ys, [], [], none⟩ t t' := by
  obtain ⟨count, _, hread, h⟩ := bind_eq_ok_iff.mp h
  cases hread
  obtain ⟨v, _, hread, h⟩ := bind_eq_ok_iff.mp h
  obtain ⟨hv, rfl⟩ := sumFrom_eq_ok t.store.reader.derivative y ys (fun i v t' hi => by
    obtain ⟨y', hy', hget, rfl⟩ := outputDerivative_eq_ok hi
    rw [hh] at hy'
    exact ⟨y', hy', hget, rfl⟩) (by rw [hh] at hread; exact hread)
  obtain ⟨x', s, hx, hs, rfl⟩ := writeInputDerivative_eq_ok h
  rw [hh] at hx
  cases hx
  obtain ⟨first, hfirst, hsum⟩ := except_bind_eq_ok_iff.mp hv
  obtain ⟨rest, hrest, hsum⟩ := except_bind_eq_ok_iff.mp hsum
  refine passedBack_to (except_bind_eq_ok_iff.mpr ⟨first, hfirst, ?_⟩) hs
  exact except_bind_eq_ok_iff.mpr ⟨rest, hrest, except_bind_eq_ok_iff.mpr ⟨v, hsum, rfl⟩⟩

theorem passBack_identity (hh : view.handles = ⟨[x], [y], [], [], none⟩)
    (h : (Layer.identity : Layer α).passBack view t = .ok u t') :
    PassedBack .identity ⟨[x], [y], [], [], none⟩ t t' := by
  obtain ⟨DY, _, hread, h⟩ := bind_eq_ok_iff.mp h
  obtain ⟨y', hy, hDY, rfl⟩ := outputDerivative_eq_ok hread
  obtain ⟨x', s, hx, hs, rfl⟩ := writeInputDerivative_eq_ok h
  rw [hh] at hx hy
  cases hx
  cases hy
  exact passedBack_to (except_bind_eq_ok_iff.mpr ⟨DY, hDY, rfl⟩) hs

theorem passBack_loss {kind : Loss} (hh : view.handles = ⟨[x], [y], [], [], some l⟩)
    (h : (Layer.loss kind : Layer α).passBack view t = .ok u t') :
    PassedBack (.loss kind) ⟨[x], [y], [], [], some l⟩ t t' := by
  obtain ⟨Y, _, hread, h⟩ := bind_eq_ok_iff.mp h
  obtain ⟨y', hy, hY, rfl⟩ := output_eq_ok hread
  obtain ⟨T, _, hread, h⟩ := bind_eq_ok_iff.mp h
  obtain ⟨l', hl, hT, rfl⟩ := label_eq_ok hread
  obtain ⟨v, _, hread, h⟩ := bind_eq_ok_iff.mp h
  obtain ⟨hv, rfl⟩ := ofKernel_eq_ok hread
  obtain ⟨x', s, hx, hs, rfl⟩ := writeInputDerivative_eq_ok h
  rw [hh] at hx hy hl
  cases hx
  cases hy
  cases hl
  refine passedBack_to (except_bind_eq_ok_iff.mpr ⟨Y, hY, ?_⟩) hs
  exact except_bind_eq_ok_iff.mpr ⟨T, hT, except_bind_eq_ok_iff.mpr ⟨v, hv, rfl⟩⟩

/-- A hook that passes derivatives back writes those of its layer. -/
theorem of_passBack (hf : Fits s₀ layer view.handles) (h : layer.passBack view t = .ok u t') :
    ∃ writes, t.store.setAll writes = .ok t'.store ∧ t'.notes = t.notes ∧ t'.loss = t.loss ∧
      (writes = [] ∧ (∀ x ∈ view.handles.inputs, x.derivative = none) ∨
        ∃ dxs, layer.derivatives view.handles t.store.reader = .ok dxs ∧
          writes = passedTo view.handles.inputs dxs) := by
  change PassedBack layer view.handles t t'
  generalize hh : view.handles = handles at hf
  cases hf with
  | input out =>
    cases h
    exact ⟨[], rfl, rfl, rfl, .inl ⟨rfl, by simp⟩⟩
  | fullyConnected => exact passBack_fullyConnected hh h
  | activation => exact passBack_activation hh h
  | addition => exact passBack_addition hh h
  | multiout => exact passBack_multiout hh h
  | identity => exact passBack_identity hh h
  | loss => exact passBack_loss hh h

end PassBack

section Agree

variable {s : Store α} {handles : Handles} (hf : Fits s layer handles) {r r' : Reader α}
include hf

/-- A layer that does not need its outputs computes what it passes back from the derivatives
alone. -/
theorem derivatives_of_forgets (hneeds : layer.needsOutput = false)
    (hw : ∀ w ∈ handles.weights, r'.weight w = r.weight w)
    (hd : ∀ y ∈ handles.outputs, r'.derivative y = r.derivative y) :
    layer.derivatives handles r' = layer.derivatives handles r := by
  cases hf with
  | input => rfl
  | fullyConnected => simp only [derivatives, hd _ List.mem_cons_self, hw _ List.mem_cons_self]
  | identity | addition => simp only [derivatives, hd _ List.mem_cons_self]
  | multiout ins out =>
    rename_i x y ys
    have hrest : ys.mapM r'.derivative = ys.mapM r.derivative :=
      except_mapM_congr fun y' hy' => hd y' (List.mem_cons_of_mem y hy')
    simp only [derivatives, hd _ List.mem_cons_self, hrest]
  | activation | loss => cases hneeds

/-- What a node adds to gradients is computed from its inputs and the derivatives of its outputs. -/
theorem contributions_of_agree (hx : ∀ x ∈ handles.inputs, r'.value x.value = r.value x.value)
    (hd : ∀ y ∈ handles.outputs, r'.derivative y = r.derivative y) :
    layer.contributions handles r' = layer.contributions handles r := by
  cases hf with
  | fullyConnected =>
    simp only [contributions, hd _ List.mem_cons_self, hx _ List.mem_cons_self]
  | input | activation | addition | multiout | identity | loss => rfl

/-- What a node writes to its outputs is computed from its inputs and weights. -/
theorem results_of_agree (hx : ∀ x ∈ handles.inputs, r'.value x.value = r.value x.value)
    (hw : ∀ w ∈ handles.weights, r'.weight w = r.weight w) : layer.results handles r' =
      layer.results handles r := by
  cases hf with
  | addition ins out =>
    rename_i x y xs
    have hrest : xs.mapM (fun x => r'.value x.value) = xs.mapM fun x => r.value x.value :=
      except_mapM_congr fun x' hx' => hx x' (List.mem_cons_of_mem x hx')
    simp only [results, hx _ List.mem_cons_self, hrest]
  | input => rfl
  | fullyConnected =>
    simp only [results, hx _ List.mem_cons_self, hw _ List.mem_cons_self,
      hw _ (List.mem_cons_of_mem _ List.mem_cons_self)]
  | activation | multiout | identity | loss => simp only [results, hx _ List.mem_cons_self]

theorem lossOf_of_agree (hx : ∀ x ∈ handles.inputs, r'.value x.value = r.value x.value)
    (hl : ∀ l, handles.label = some l → r'.value l = r.value l) :
    layer.lossOf handles r' = layer.lossOf handles r := by
  cases hf with
  | loss => simp only [lossOf, hx _ List.mem_cons_self, hl _ rfl]
  | input | fullyConnected | activation | addition | multiout | identity => rfl

/-- What a node passes back is computed from the derivatives of its outputs, its weights and its
label, and from its outputs if it needs them. -/
theorem derivatives_of_agree (hw : ∀ w ∈ handles.weights, r'.weight w = r.weight w)
    (hd : ∀ y ∈ handles.outputs, r'.derivative y = r.derivative y)
    (hy : layer.needsOutput = true → ∀ y ∈ handles.outputs, r'.value y.value = r.value y.value)
    (hl : ∀ l, handles.label = some l → r'.value l = r.value l) :
    layer.derivatives handles r' = layer.derivatives handles r := by
  cases hneeds : layer.needsOutput with
  | false => exact derivatives_of_forgets hf hneeds hw hd
  | true =>
    cases hf with
    | activation => simp only [derivatives, hy rfl _ List.mem_cons_self, hd _ List.mem_cons_self]
    | loss => simp only [derivatives, hy rfl _ List.mem_cons_self, hl _ rfl]
    | input | fullyConnected | addition | multiout | identity => cases hneeds

end Agree

section Counts

variable {s : Store α} {handles : Handles} (hf : Fits s layer handles) {r : Reader α}
include hf

/-- A layer fills all of its outputs, unless they are fed. -/
theorem length_of_results {vs : List (Tensor α)} (h : layer.results handles r = .ok vs) :
    if layer.isSource then vs = [] else vs.length = handles.outputs.length := by
  cases hf with
  | input =>
    cases h
    rfl
  | fullyConnected =>
    obtain ⟨x, -, h⟩ := except_bind_eq_ok_iff.mp h
    obtain ⟨w, -, h⟩ := except_bind_eq_ok_iff.mp h
    obtain ⟨product, -, h⟩ := except_bind_eq_ok_iff.mp h
    obtain ⟨b, -, h⟩ := except_bind_eq_ok_iff.mp h
    obtain ⟨v, -, h⟩ := except_bind_eq_ok_iff.mp h
    cases h
    rfl
  | addition =>
    obtain ⟨x, -, h⟩ := except_bind_eq_ok_iff.mp h
    obtain ⟨xs, -, h⟩ := except_bind_eq_ok_iff.mp h
    obtain ⟨v, -, h⟩ := except_bind_eq_ok_iff.mp h
    cases h
    rfl
  | multiout =>
    obtain ⟨x, -, h⟩ := except_bind_eq_ok_iff.mp h
    cases h
    exact List.length_replicate
  | activation | identity | loss =>
    obtain ⟨x, -, h⟩ := except_bind_eq_ok_iff.mp h
    cases h
    rfl

/-- A layer passes something back to each of its inputs. -/
theorem length_of_derivatives {dxs : List (Tensor α)} (h : layer.derivatives handles r = .ok dxs) :
    dxs.length = handles.inputs.length := by
  cases hf with
  | input =>
    cases h
    rfl
  | fullyConnected =>
    obtain ⟨dy, -, h⟩ := except_bind_eq_ok_iff.mp h
    obtain ⟨w, -, h⟩ := except_bind_eq_ok_iff.mp h
    obtain ⟨dx, -, h⟩ := except_bind_eq_ok_iff.mp h
    cases h
    rfl
  | activation | loss =>
    obtain ⟨y, -, h⟩ := except_bind_eq_ok_iff.mp h
    obtain ⟨d, -, h⟩ := except_bind_eq_ok_iff.mp h
    obtain ⟨dx, -, h⟩ := except_bind_eq_ok_iff.mp h
    cases h
    rfl
  | multiout =>
    obtain ⟨d, -, h⟩ := except_bind_eq_ok_iff.mp h
    obtain ⟨ds, -, h⟩ := except_bind_eq_ok_iff.mp h
    obtain ⟨dx, -, h⟩ := except_bind_eq_ok_iff.mp h
    cases h
    rfl
  | addition =>
    obtain ⟨dy, -, h⟩ := except_bind_eq_ok_iff.mp h
    cases h
    exact List.length_replicate
  | identity =>
    obtain ⟨dy, -, h⟩ := except_bind_eq_ok_iff.mp h
    cases h
    rfl

/-- A view writes what it has read. -/
theorem results_of_view (hview : layer.reuse = .view) {vs : List (Tensor α)}
    (h : layer.results handles r = .ok vs) :
    ∃ x v, handles.inputs = [x] ∧ r.value x.value = .ok v ∧ ∀ v' ∈ vs, v' = v := by
  cases hf with
  | multiout | identity =>
    obtain ⟨v, hv, h⟩ := except_bind_eq_ok_iff.mp h
    cases h
    exact ⟨_, v, rfl, hv, by simp⟩
  | @loss kind =>
    obtain ⟨v, hv, h⟩ := except_bind_eq_ok_iff.mp h
    cases h
    refine ⟨_, v, rfl, hv, fun v' hv' => ?_⟩
    rw [List.mem_singleton.mp hv']
    cases kind with
    | mse => rfl
    | cross | crossSoftmax | crossSigmoid => cases hview
  | input | fullyConnected | activation | addition => cases hview

end Counts

end Layer

end LayerGraph
