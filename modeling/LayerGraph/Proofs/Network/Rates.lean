import LayerGraph.Proofs.Network.Moved
import LayerGraph.Proofs.Network.Timeline
import Mathlib.Data.List.ReduceOption

/-!
# Rates

A weight is moved along a tensor, and every output of the network follows. What stands in the
derivative of an output says how much the loss changes with it. At every node the rates that come in
from its readers are those that go out to its inputs and to the gradient of the weight, and between
the nodes nothing gets lost. So the gradient says at which rate the loss changes.
-/

namespace LayerGraph

open Network Polynomial

/-- The sum of the entrywise products of two matrices. -/
def Tensor.dot (c d : Tensor ℚ) : ℚ := c.shape.sum fun i j => c.get i j * d.get i j

theorem Tensor.dot_eq_slope (c d : Tensor ℚ) : c.dot d = c.slope fun i j => X * C (d.get i j) := by
  unfold dot slope
  simp only [coeff_X_mul, coeff_C_zero]

/-- There is one way to trace a tensor by polynomials. -/
theorem Traces.eq {s : Store ℚ} {R : ℚ → Reader ℚ} {id : TensorRef} {Q Q' : Nat → Nat → ℚ[X]}
    {shape : Shape} (h : Traces s R id Q) (h' : Traces s R id Q') (hs : s.shape id = .ok shape)
    {i j : Nat} (hi : i < shape.batch) (hj : j < shape.width) :
    Q i j = Q' i j :=
  Tensor.eq_of_evalAt (fun e => Except.ok.inj ((h shape hs e).symm.trans (h' shape hs e))) hi hj

section Sums

variable {β γ : Type}

/-- Lists whose elements tell where they stand have them once. -/
theorem nodup_flatMap_of_getElem? {xs : List β} {f : β → List γ}
    (h : ∀ (p q : Nat) (x x' : β) (i j : Nat) (y : γ), xs[p]? = some x → xs[q]? = some x' →
      (f x)[i]? = some y → (f x')[j]? = some y → p = q ∧ i = j) : (xs.flatMap f).Nodup := by
  refine List.nodup_flatMap.mpr ⟨fun x hx => ?_, List.pairwise_iff_getElem.mpr
    fun p q hp hq hlt => ?_⟩
  · obtain ⟨p, hp⟩ := List.getElem?_of_mem hx
    refine List.nodup_iff_injective_get.mpr fun i j hij => Fin.ext ?_
    exact (h p p x x i j _ hp hp (List.getElem?_eq_getElem i.2) (by
      rw [← List.get_eq_getElem, hij]
      exact List.getElem?_eq_getElem j.2)).2
  · intro y hy hy'
    obtain ⟨i, hi⟩ := List.getElem?_of_mem hy
    obtain ⟨j, hj⟩ := List.getElem?_of_mem hy'
    exact Nat.ne_of_lt hlt (h p q _ _ i j y (List.getElem?_eq_getElem hp)
      (List.getElem?_eq_getElem hq) hi hj).1

theorem sum_map_flatMap (xs : List β) (f : β → List γ) (k : γ → ℚ) :
    ((xs.flatMap f).map k).sum = (xs.map fun x => ((f x).map k).sum).sum := by
  induction xs with
  | nil => rfl
  | cons x xs ih =>
    rw [List.flatMap_cons, List.map_append, List.sum_append, ih, List.map_cons, List.sum_cons]

/-- What comes to nothing may be left out of a sum. -/
theorem sum_map_of_subset [DecidableEq γ] {xs ys : List γ} (hx : xs.Nodup) (hy : ys.Nodup)
    (hsub : xs ⊆ ys) {k : γ → ℚ} (hzero : ∀ y ∈ ys, y ∉ xs → k y = 0) :
    (xs.map k).sum = (ys.map k).sum := by
  rw [← List.sum_toFinset k hx, ← List.sum_toFinset k hy]
  refine Finset.sum_subset (fun x hmem => List.mem_toFinset.mpr (hsub (List.mem_toFinset.mp hmem)))
    fun y hmem hnot => ?_
  exact hzero y (List.mem_toFinset.mp hmem) fun h => hnot (List.mem_toFinset.mpr h)

theorem sum_map_filter {M : Type} [AddMonoid M] {xs : List β} {c : β → Bool} {k : β → M}
    (h : ∀ x ∈ xs, c x = false → k x = 0) : ((xs.filter c).map k).sum = (xs.map k).sum := by
  induction xs with
  | nil => rfl
  | cons x xs ih =>
    have hrest := ih fun y hy => h y (List.mem_cons_of_mem _ hy)
    rw [List.filter_cons, List.map_cons, List.sum_cons, ← hrest]
    cases hc : c x with
    | true => rw [if_pos rfl, List.map_cons, List.sum_cons]
    | false => rw [if_neg Bool.false_ne_true, h x List.mem_cons_self hc, zero_add]

theorem rational_sum (xs : List ℚ) : Scalar.sum xs = xs.sum := by
  unfold Scalar.sum
  exact List.sum_eq_foldl.symm

theorem sum_reduceOption_eval (xs : List β) (E : β → Option ℚ[X]) (e : ℚ) :
    (xs.map fun x => (E x).map (·.eval e)).reduceOption.sum =
      (xs.map fun x => (E x).getD 0).sum.eval e := by
  induction xs with
  | nil => simp
  | cons x xs ih => cases hx : E x <;> simp [hx, ih]

end Sums

/-- Of all weights, what is looked up is counted for the one that is looked for. -/
theorem sum_ite_eq_lookup {β : Type} {pairs : List (WeightRef × β)} (hn : (pairs.map (·.1)).Nodup)
    (w : WeightRef) (f : β → ℚ) :
    (pairs.map fun q => if q.1 = w then f q.2 else 0).sum =
      ((pairs.lookup w).toList.map f).sum := by
  induction pairs with
  | nil => rfl
  | cons q pairs ih =>
    rw [List.map_cons, List.nodup_cons] at hn
    rw [List.map_cons, List.sum_cons, ih hn.2, List.lookup_cons]
    by_cases hq : q.1 = w
    · have hnone : pairs.lookup w = none :=
        List.lookup_eq_none_iff.mpr fun c hc => by
          have hne : w ≠ c.1 := fun heq => hn.1 (hq.trans heq ▸ List.mem_map_of_mem hc)
          simpa using hne
      simp [hq, hnone]
    · simp [hq, show (w == q.1) = false by simpa using fun h : w = q.1 => hq h.symm]

/-- A weight that is not moved does not change. -/
theorem slope_movedWeight (W : WeightRef → Tensor ℚ) (w v : WeightRef) (c d : Tensor ℚ)
    (trains : Bool) :
    c.slope (movedWeight W w d trains v) = if trains = true ∧ v = w then c.dot d else 0 := by
  split
  · next hmoved =>
    rw [Tensor.dot_eq_slope]
    refine Shape.sum_congr fun i j _ _ => ?_
    rw [movedWeight, if_pos hmoved, coeff_add, coeff_C_of_ne_zero one_ne_zero, zero_add]
  · next hkept =>
    have hconst : movedWeight W w d trains v = fun i j => C ((W v).get i j) := by
      funext i j
      rw [movedWeight, if_neg hkept, add_zero]
    rw [hconst, Tensor.slope_const]

theorem mem_of_gives {a : Node ℚ} {r : Reader ℚ} {cs : List (Tensor ℚ)}
    (hcs : a.layer.contributions a.tensors r = .ok cs) {w : WeightRef} {c : Tensor ℚ}
    (hc : c ∈ a.gives r w) : (w, c) ∈ a.tensors.weights.zip cs := by
  cases hpart : a.participates with
  | false =>
    rw [Node.gives_of_not_participates hpart] at hc
    cases hc
  | true =>
    cases htrains : a.trains with
    | false =>
      have hnone : a.collected r = .ok [] := by
        rw [Node.collected, htrains, if_neg Bool.false_ne_true]
      rw [Node.gives_of_participates hpart hnone, List.zip_nil_right] at hc
      cases hc
    | true =>
      have hcollected : a.collected r = .ok cs := by rw [Node.collected, htrains, if_pos rfl, hcs]
      rw [Node.gives_of_participates hpart hcollected] at hc
      exact mem_of_lookup (Option.mem_toList.mp hc)

/-- What a node gives to the gradient of the weight that is moved. -/
theorem sum_gives {s : Store ℚ} {a : Node ℚ} (hfits : Fits s a.layer a.tensors)
    (hpart : a.trains = true → a.participates = true) {r : Reader ℚ} {cs : List (Tensor ℚ)}
    (hcs : a.layer.contributions a.tensors r = .ok cs) (W : WeightRef → Tensor ℚ) (w : WeightRef)
    (d : Tensor ℚ) : ((a.gives r w).map (·.dot d)).sum =
      ((a.tensors.weights.zip cs).map fun q => q.2.slope (movedWeight W w d a.trains q.1)).sum := by
  simp only [slope_movedWeight]
  cases htrains : a.trains with
  | false =>
    have hnone : a.collected r = .ok [] := by
      rw [Node.collected, htrains, if_neg Bool.false_ne_true]
    cases hparts : a.participates with
    | false => simp [Node.gives_of_not_participates hparts]
    | true => simp [Node.gives_of_participates hparts hnone]
  | true =>
    have hcollected : a.collected r = .ok cs := by rw [Node.collected, htrains, if_pos rfl, hcs]
    have hkeys : (a.tensors.weights.zip cs).map (·.1) = a.tensors.weights :=
      List.map_fst_zip (le_of_eq (length_of_contributions hfits hcs).symm)
    rw [Node.gives_of_participates (hpart htrains) hcollected, ← sum_ite_eq_lookup
      (by rw [hkeys]; exact nodup_weights hfits)]
    simp only [true_and]

theorem Layer.lossOf_of_not_loss {layer : Layer ℚ} (hnot : layer.loss?.isSome = false)
    (handles : Handles) (r : Reader ℚ) : layer.lossOf handles r = .ok none := by
  cases layer with
  | loss => cases hnot
  | input | fullyConnected | activation | addition | multiout | identity | custom => rfl

/-- All runs in which the weight `w` is moved along `d`, the polynomials that they trace, and a
backward pass of the run in which it is not moved. -/
structure Course (g : NodeGraph (Node ℚ)) (s : Store ℚ) (batch : Nat) (W : WeightRef → Tensor ℚ)
    (T : TensorRef → Tensor ℚ) (w : WeightRef) (d : Tensor ℚ) (r₀ : Reader ℚ) (R : ℚ → Reader ℚ)
    (P : TensorRef → Nat → Nat → ℚ[X]) (r : Reader ℚ) (given : WeightRef → List (Tensor ℚ)) :
    Prop where
  registered : Registered g s batch g.order
  stocked : Stocked g s W T r₀
  weight : s.HasWeight w d.shape
  polynomial : ∀ (p : Nat) (a : Node ℚ), g.nodes[p]? = some a → a.layer.isPolynomial = true
  terminal : ∀ (p : Nat) (a : Node ℚ), g.nodes[p]? = some a → a.isLoss = true → a.isTerminal = true
  solved : ∀ e, Solved g (moving w d e) r₀ g.order (R e)
  traces : ∀ q k y, IsOutput g q k y → Traces s R y.value (P y.value)
  returned : Returned g (R 0) g.order.reverse r given

namespace Course

variable {g : NodeGraph (Node ℚ)} {s : Store ℚ} {batch : Nat} {W : WeightRef → Tensor ℚ}
  {T : TensorRef → Tensor ℚ} {w : WeightRef} {d : Tensor ℚ} {r₀ r : Reader ℚ} {R : ℚ → Reader ℚ}
  {P : TensorRef → Nat → Nat → ℚ[X]} {given : WeightRef → List (Tensor ℚ)} {p q k : Nat}
  {a b : Node ℚ} {y : Wire}

section Forward

variable (h : Course g s batch W T w d r₀ R P r given)
include h

/-- In every run a node reads the polynomials. -/
theorem read (ha : g.nodes[p]? = some a) (e : ℚ) :
    Polynomials.Read ⟨P, movedWeight W w d a.trains, T⟩ s a.tensors e (moving w d e a (R e)) := by
  refine read_moving h.stocked h.weight ha (h.solved e).weight
    (fun l hl => (h.solved e).label h.registered ha hl) fun x hx shape hs => ?_
  obtain ⟨j, hj⟩ := List.getElem?_of_mem hx
  obtain ⟨q, k, -, hy⟩ := h.registered.exists_producer ha hj
  exact h.traces q k x hy shape hs e

/-- What a node computes is what its outputs trace. -/
theorem trace_eq {shape : Shape} {F : Polynomials → Nat → Nat → ℚ[X]}
    {E : Polynomials → Option ℚ[X]} (hadjoint : a.layer.Adjoint s a.tensors shape F E)
    (ha : g.nodes[p]? = some a) (hy : y ∈ a.tensors.outputs) {i j : Nat} (hi : i < shape.batch)
    (hj : j < shape.width) : P y.value i j = F ⟨P, movedWeight W w d a.trains, T⟩ i j := by
  obtain ⟨k, hk⟩ := List.getElem?_of_mem hy
  have hs := hadjoint.outputs y hy
  refine (h.traces p k y ⟨a, ha, hk⟩).eq (fun shape' hs' e => ?_) hs hi hj
  obtain rfl : shape = shape' := Except.ok.inj (hs.symm.trans hs')
  exact (h.solved e).value_of_results (h.registered.mem_order ha) ha
    (hadjoint.results _ e _ (h.read ha e)) hk (List.getElem?_replicate_of_lt
      (List.getElem?_eq_some_iff.mp hk).1)

/-- What takes no part in the backward pass is not moved. -/
theorem value_of_not_participates (hb : g.nodes[q]? = some b) (hpart : b.participates = false)
    (hy : b.tensors.outputs[k]? = some y) (e : ℚ) : (R e).value y.value = (R 0).value y.value := by
  induction hplace : place g q using Nat.strongRecOn generalizing q k b y with
  | ind bound ih =>
    have hreg := h.registered
    have hd := hreg.compiled.toScheduled
    have hfits := (hreg.holds_of_node hb).fits
    cases hsource : b.isSource with
    | true =>
      have hmem := List.mem_of_getElem? hy
      rw [(h.solved e).source hreg hb hsource hmem, (h.solved 0).source hreg hb hsource hmem]
    | false =>
      obtain ⟨hpasses, hcollects⟩ := Bool.or_eq_false_iff.mp hpart
      have htrains : b.trains = false := (hd.collects q b hb).symm.trans hcollects
      have hsee : ∀ e, moving w d e b (R e) = R e :=
        fun e => by rw [moving, htrains, if_neg Bool.false_ne_true]
      have hinput : ∀ x ∈ b.tensors.inputs, (R e).value x.value = (R 0).value x.value := by
        intro x hx
        obtain ⟨j, hj⟩ := List.getElem?_of_mem hx
        obtain ⟨q', k', hr, c, hc, hx'⟩ := hreg.exists_producer hb hj
        refine ih _ (hplace ▸ hreg.compiled.ordered.before _ _ _ _ hr) hc (Bool.eq_false_iff.mpr
          fun hpart' => ?_) hx' rfl
        rw [(hd.passes q b hb).mpr ⟨j, q', k', c, hr, hc, hpart'⟩] at hpasses
        cases hpasses
      obtain ⟨vs, hvs, -⟩ := (h.solved 0).results q (hreg.mem_order hb) b hb
      have hvs' : b.layer.results b.tensors (moving w d e b (R e)) = .ok vs := by
        rw [hsee] at hvs ⊢
        rw [← hvs]
        exact Layer.results_of_agree hfits hinput fun v _ => by
          rw [(h.solved e).weight, (h.solved 0).weight]
      have hlength := Layer.length_of_results hfits hvs
      rw [show b.layer.isSource = false from hsource, if_neg Bool.false_ne_true] at hlength
      obtain ⟨v, hv⟩ : ∃ v, vs[k]? = some v :=
        ⟨_, List.getElem?_eq_getElem (hlength ▸ (List.getElem?_eq_some_iff.mp hy).1)⟩
      rw [(h.solved e).value_of_results (hreg.mem_order hb) hb hvs' hy hv,
        (h.solved 0).value_of_results (hreg.mem_order hb) hb hvs hy hv]

theorem coeff_of_not_participates (hb : g.nodes[q]? = some b) (hpart : b.participates = false)
    (hy : b.tensors.outputs[k]? = some y) {shape : Shape} (hs : s.shape y.value = .ok shape)
    {i j : Nat} (hi : i < shape.batch) (hj : j < shape.width) : (P y.value i j).coeff 1 = 0 := by
  have htraces := h.traces q k y ⟨b, hb, hy⟩
  have hconst : Traces s R y.value fun i j => C ((P y.value i j).eval 0) := by
    intro shape' hs' e
    rw [h.value_of_not_participates hb hpart hy e, htraces shape' hs' 0]
    simp only [Tensor.evalAt, eval_C]
  rw [htraces.eq hconst hs hi hj, coeff_C_of_ne_zero one_ne_zero]

/-- The rate that comes in at an output: how much the loss changes with what is read there. -/
noncomputable def rate (P : TensorRef → Nat → Nat → ℚ[X]) (r : Reader ℚ) (y : Wire) : ℚ :=
  match r.derivative y with
  | .ok dy => dy.slope (P y.value)
  | .error _ => 0

omit h in
theorem rate_of_derivative {dy : Tensor ℚ} (hdy : r.derivative y = .ok dy) :
    rate P r y = dy.slope (P y.value) := by
  rw [rate, hdy]

end Forward

section Backward

variable (h : Course g s batch W T w d r₀ R P r given)
include h

theorem value_back (hy : IsOutput g q k y) : r.value y.value = (R 0).value y.value :=
  h.returned.rest _ fun _ _ hd => value_ne_derivative h.registered hy hd rfl

theorem shape_back : r.shape = s.shape :=
  h.returned.shape.trans ((h.solved 0).shape.trans h.stocked.shape)

/-- The backward pass reads what the run without a move has found. -/
theorem read_back (ha : g.nodes[p]? = some a) :
    Polynomials.Read ⟨P, movedWeight W w d a.trains, T⟩ s a.tensors 0 r := by
  have hweight : r.weight = r₀.weight := h.returned.weight.trans (h.solved 0).weight
  rw [← moving_zero h.stocked h.weight hweight a]
  refine read_moving h.stocked h.weight ha hweight (fun l hl => ?_) fun x hx shape hs => ?_
  · rw [← (h.solved 0).label h.registered ha hl]
    exact h.returned.rest _ fun _ _ hd => label_ne_derivative h.registered ha hl hd rfl
  · obtain ⟨j, hj⟩ := List.getElem?_of_mem hx
    obtain ⟨q, k, -, hy⟩ := h.registered.exists_producer ha hj
    rw [h.value_back hy]
    exact h.traces q k x hy shape hs 0

/-- Nothing comes in where nothing is read. -/
theorem derivative_of_none {shape : Shape} (hs : s.shape y.value = .ok shape)
    (hnone : y.derivative = none) : r.derivative y = .ok (.zeros shape) := by
  rw [Reader.derivative, hnone, h.shape_back, hs]
  rfl

omit h in
theorem rate_of_zeros {shape : Shape} (hdy : r.derivative y = .ok (.zeros shape)) :
    rate P r y = 0 :=
  (rate_of_derivative hdy).trans (Tensor.slope_zeros shape _)

/-- The derivative of an output is what its reader passes back. -/
theorem derivative_of_reader {j : Nat} {x : Wire} {t : TensorRef} (ha : g.nodes[p]? = some a)
    (hx : a.tensors.inputs[j]? = some x) (ht : x.derivative = some t) {dxs : List (Tensor ℚ)}
    (hdxs : a.layer.derivatives a.tensors r = .ok dxs) {dx : Tensor ℚ} (hdx : dxs[j]? = some dx) :
    r.derivative x = .ok dx := by
  have hreg := h.registered
  obtain ⟨q, k, hr, b, hb, hk⟩ := hreg.exists_producer ha hx
  have hpart : b.participates = true := by
    rw [← isSome_derivative_of_reads hreg hr hb hk, ht]
    rfl
  have hpasses := (hreg.compiled.passes p a ha).mpr ⟨j, q, k, b, hr, hb, hpart⟩
  obtain ⟨dxs', hdxs', hvalues⟩ :=
    h.returned.passed p (List.mem_reverse.mpr (hreg.mem_order ha)) a ha hpasses
  obtain rfl := Except.ok.inj (hdxs.symm.trans hdxs')
  rw [Reader.derivative, ht]
  refine hvalues (t, dx) (List.mem_filterMap.mpr ⟨(x, dx), ?_, by simp [ht]⟩)
  exact List.mem_of_getElem? (List.getElem?_zip_eq_some.mpr ⟨hx, hdx⟩)

/-- What a node passes back and what it gives to the gradients of its weights, if the derivatives of
its outputs are there. -/
theorem exists_turn (ha : g.nodes[p]? = some a) (hnot : a.isSource = false)
    (hdy : ∀ (k : Nat) y, a.tensors.outputs[k]? = some y →
      ∃ dy, r.derivative y = .ok dy ∧ s.shape y.value = .ok dy.shape) :
    ∃ dxs cs, ∃ E : Option ℚ[X], a.layer.derivatives a.tensors r = .ok dxs ∧
      a.layer.contributions a.tensors r = .ok cs ∧
      List.Forall₂ (fun (x : Wire) (dx : Tensor ℚ) => s.shape x.value = .ok dx.shape)
        a.tensors.inputs dxs ∧
        List.Forall₂ (fun w (c : Tensor ℚ) => s.HasWeight w c.shape) a.tensors.weights cs ∧
      (∀ e, a.layer.lossOf a.tensors (R e) = .ok (E.map (·.eval e))) ∧
      (a.tensors.outputs.map (rate P r)).sum + E.elim 0 (·.coeff 1) =
        ((a.tensors.inputs.zip dxs).map fun q => q.2.slope (P q.1.value)).sum +
          ((a.tensors.weights.zip cs).map fun q => q.2.slope
            (movedWeight W w d a.trains q.1)).sum := by
  have hreg := h.registered
  have hfits := (hreg.holds_of_node ha).fits
  obtain ⟨shape, F, E, hadjoint⟩ :=
    Layer.exists_adjoint hreg.registry hfits (h.polynomial p a ha) hnot
  let dy (y : Wire) : Tensor ℚ := (r.derivative y).toOption.getD (.zeros shape)
  have hdy' : ∀ y ∈ a.tensors.outputs, r.derivative y = .ok (dy y) ∧ (dy y).shape = shape := by
    intro y hy
    obtain ⟨k, hk⟩ := List.getElem?_of_mem hy
    obtain ⟨t, ht, hshape⟩ := hdy k y hk
    have heq : dy y = t := by simp only [dy, ht, Except.toOption, Option.getD_some]
    rw [heq]
    exact ⟨ht, Except.ok.inj (hshape.symm.trans (hadjoint.outputs y hy))⟩
  have hvalue : ∀ y ∈ a.tensors.outputs, r.value y.value =
      .ok (.evalAt shape (F ⟨P, movedWeight W w d a.trains, T⟩) 0) := by
    intro y hy
    obtain ⟨k, hk⟩ := List.getElem?_of_mem hy
    have hout : IsOutput g p k y := ⟨a, ha, hk⟩
    rw [h.value_back hout, h.traces p k y hout shape (hadjoint.outputs y hy) 0]
    exact congrArg Except.ok (Tensor.ofFn_congr
      fun i j hi hj => by rw [h.trace_eq hadjoint ha hy hi hj])
  -- Nothing reads a loss.
  have hloss : a.layer.loss?.isSome = true → ∀ y ∈ a.tensors.outputs, dy y = .zeros shape := by
    intro hloss y hy
    have htakes := ((hreg.holds_of_node ha).outputs y hy).takes
    rw [h.terminal p a ha hloss, Bool.not_true, Bool.and_false, Bool.false_and,
      Option.isSome_eq_false_iff, Option.isNone_iff_eq_none] at htakes
    exact Except.ok.inj
      ((hdy' y hy).1.symm.trans (h.derivative_of_none (hadjoint.outputs y hy) htakes))
  obtain ⟨dxs, cs, hdxs, hcs, hinputs, hweights, hsum⟩ :=
    hadjoint.adjoint _ r dy (h.read_back ha) hvalue hdy' hloss
  refine ⟨dxs, cs, E ⟨P, movedWeight W w d a.trains, T⟩, hdxs, hcs, hinputs,
    hweights, fun e => ?_, ?_⟩
  · rw [← hadjoint.lossOf _ e _ (h.read ha e)]
    have hsee := (seesValues_moving w d e).value a (R e)
    exact (Layer.lossOf_of_agree hfits (fun _ _ => by rw [hsee]) fun _ _ => by rw [hsee]).symm
  · rw [← hsum]
    refine congrArg₂ (· + ·) (congrArg List.sum (List.map_congr_left fun y hy => ?_)) rfl
    rw [rate_of_derivative (hdy' y hy).1]
    exact Tensor.slope_congr fun i j hi hj => h.trace_eq hadjoint ha hy ((hdy' y hy).2 ▸ hi)
      ((hdy' y hy).2 ▸ hj)

/-- The derivatives of all outputs are there. -/
theorem exists_derivative (hy : IsOutput g q k y) : ∃ dy, r.derivative y = .ok dy ∧
    s.shape y.value = .ok dy.shape := by
  have hreg := h.registered
  have hperm := hreg.compiled.ordered.perm
  induction hrank : g.size - place g q using Nat.strongRecOn generalizing q k y with
  | ind bound ih =>
    obtain ⟨width, hwidth⟩ := hreg.wireFits_of_output hy
    have hs := hwidth.value.shape hreg.registry
    cases hderivative : y.derivative with
    | none => exact ⟨_, h.derivative_of_none hs hderivative, hs⟩
    | some t =>
      obtain ⟨b, hb, hk⟩ := hy
      have htakes := ((hreg.holds_of_node hb).outputs y (List.mem_of_getElem? hk)).takes
      rw [hderivative, Option.isSome_some, eq_comm, Bool.and_eq_true, Bool.and_eq_true,
        Bool.not_eq_true'] at htakes
      obtain ⟨p, j, hr⟩ := hreg.exists_reader hb hk htakes.1.2
      obtain ⟨a, ha⟩ := hr.reader
      have hx := hreg.input_of_reads hr ha ⟨b, hb, hk⟩
      have hnot : a.isSource = false := by
        refine Bool.eq_false_iff.mpr fun hsource => ?_
        rw [Fits.inputs_of_isSource (hreg.holds_of_node ha).fits hsource] at hx
        cases hx
      obtain ⟨dxs, cs, -, hdxs, -, hshapes, -⟩ := h.exists_turn ha hnot fun k' z hz => by
        have hlt := hreg.compiled.ordered.before _ _ _ _ hr
        have := place_lt hperm ha
        exact ih _ (by omega) ⟨a, ha, hz⟩ rfl
      obtain ⟨dx, hdx, hshape⟩ := getElem?_of_forall₂ hshapes hx
      exact ⟨dx, h.derivative_of_reader ha hx hderivative hdxs hdx, hshape⟩

/-- What passes a node by comes to nothing. -/
theorem rate_of_none (hy : IsOutput g q k y) (hnone : y.derivative = none) : rate P r y = 0 := by
  obtain ⟨width, hwidth⟩ := h.registered.wireFits_of_output hy
  exact rate_of_zeros (h.derivative_of_none (hwidth.value.shape h.registered.registry) hnone)

/-- The rates that come in at the inputs of a node are those that it passes back. -/
theorem rate_of_input {j : Nat} {x : Wire} {dxs : List (Tensor ℚ)} {dx : Tensor ℚ}
    (ha : g.nodes[p]? = some a) (hx : a.tensors.inputs[j]? = some x)
    (hdxs : a.layer.derivatives a.tensors r = .ok dxs) (hdx : dxs[j]? = some dx)
    (hshape : s.shape x.value = .ok dx.shape) : rate P r x = dx.slope (P x.value) := by
  have hreg := h.registered
  cases hderivative : x.derivative with
  | some t => exact rate_of_derivative (h.derivative_of_reader ha hx hderivative hdxs hdx)
  | none =>
    obtain ⟨q, k, hr, hy⟩ := hreg.exists_producer ha hx
    rw [h.rate_of_none hy hderivative]
    obtain ⟨b, hb, hk⟩ := hy
    have hpart : b.participates = false := by
      rw [← isSome_derivative_of_reads hreg hr hb hk, hderivative]
      rfl
    have hzero : ∀ i j, i < dx.shape.batch → j < dx.shape.width →
        dx.get i j * (P x.value i j).coeff 1 = 0 := fun i j hi hj => by
      rw [h.coeff_of_not_participates hb hpart hk hshape hi hj, mul_zero]
    rw [Tensor.slope, Shape.sum_congr hzero]
    simp only [Shape.sum, Finset.sum_const_zero]

/-- What comes in at a node goes out to its inputs and to gradients. -/
theorem exists_balance (ha : g.nodes[p]? = some a) : ∃ E : Option ℚ[X],
    (∀ e, a.layer.lossOf a.tensors (R e) = .ok (E.map (·.eval e))) ∧
      (a.tensors.outputs.map (rate P r)).sum + E.elim 0 (·.coeff 1) =
        (a.tensors.inputs.map (rate P r)).sum + ((a.gives r w).map (·.dot d)).sum ∧
        ∀ c ∈ a.gives r w, c.shape = d.shape := by
  have hreg := h.registered
  have hfits := (hreg.holds_of_node ha).fits
  have htrains := hreg.compiled.participates_of_trains ha
  cases hsource : a.isSource with
  | true =>
    have hcs : a.layer.contributions a.tensors r = .ok [] :=
      Layer.contributions_of_isSource hfits hsource
    refine ⟨none, fun e => Layer.lossOf_of_isSource hfits hsource (R e), ?_, fun c hc => ?_⟩
    swap
    · have hmem := mem_of_gives hcs hc
      rw [List.zip_nil_right] at hmem
      cases hmem
    have hrates : ∀ y ∈ a.tensors.outputs, rate P r y = 0 := by
      intro y hy
      obtain ⟨k, hk⟩ := List.getElem?_of_mem hy
      have htakes := ((hreg.holds_of_node ha).outputs y hy).takes
      rw [hsource, Bool.not_true, Bool.and_false, Option.isSome_eq_false_iff,
        Option.isNone_iff_eq_none] at htakes
      exact h.rate_of_none ⟨a, ha, hk⟩ htakes
    rw [sum_gives hfits htrains hcs W w d, Fits.inputs_of_isSource hfits hsource,
      List.map_congr_left hrates, List.zip_nil_right]
    simp
  | false =>
    obtain ⟨dxs, cs, E, hdxs, hcs, hshapes, hweights, hloss, hsum⟩ :=
      h.exists_turn ha hsource fun k y hy =>
      h.exists_derivative ⟨a, ha, hy⟩
    refine ⟨E, hloss, ?_, fun c hc => ?_⟩
    swap
    · exact ((List.forall₂_iff_zip.mp hweights).2 (mem_of_gives hcs hc)).unique h.weight
    have hinputs : (a.tensors.inputs.zip dxs).map (fun q => q.2.slope (P q.1.value)) =
        a.tensors.inputs.map (rate P r) := by
      have hkeys : (a.tensors.inputs.zip dxs).map (·.1) = a.tensors.inputs :=
        List.map_fst_zip (le_of_eq hshapes.length_eq)
      conv_rhs => rw [← hkeys, List.map_map]
      refine List.map_congr_left fun q hq => ?_
      obtain ⟨j, hj⟩ := List.getElem?_of_mem hq
      obtain ⟨hx, hdx⟩ := List.getElem?_zip_eq_some.mp hj
      obtain ⟨dx, hdx', hshape⟩ := getElem?_of_forall₂ hshapes hx
      obtain rfl := Option.some.inj (hdx.symm.trans hdx')
      exact (h.rate_of_input ha hx hdxs hdx hshape).symm
    rw [hsum, hinputs, sum_gives hfits htrains hcs W w d]

/-- Every output is read once, or comes to nothing. -/
theorem sum_rates : (g.nodes.map fun a => (a.tensors.inputs.map (rate P r)).sum).sum =
    (g.nodes.map fun a => (a.tensors.outputs.map (rate P r)).sum).sum := by
  have hreg := h.registered
  rw [← sum_map_flatMap, ← sum_map_flatMap]
  have hout : ∀ {y}, y ∈ g.nodes.flatMap (·.tensors.outputs) → ∃ q k, IsOutput g q k y := by
    intro y hy
    obtain ⟨b, hb, hy⟩ := List.mem_flatMap.mp hy
    obtain ⟨q, hq⟩ := List.getElem?_of_mem hb
    obtain ⟨k, hk⟩ := List.getElem?_of_mem hy
    exact ⟨q, k, b, hq, hk⟩
  refine sum_map_of_subset (nodup_flatMap_of_getElem? fun p q a b i j x ha hb hx hx' => ?_)
    (nodup_flatMap_of_getElem? fun p q a b i j y ha hb hy hy' => ?_) (fun x hx => ?_)
      fun y hy hnot => ?_
  · obtain ⟨q₁, k₁, hr₁, hy₁⟩ := hreg.exists_producer ha hx
    obtain ⟨q₂, k₂, hr₂, hy₂⟩ := hreg.exists_producer hb hx'
    obtain ⟨rfl, rfl⟩ :=
      hreg.output_eq_of_owned hy₁ hy₂ x.value List.mem_cons_self List.mem_cons_self
    exact hreg.compiled.wired.single _ _ _ _ _ _ hr₁ hr₂
  · exact hreg.output_eq_of_owned ⟨a, ha, hy⟩ ⟨b, hb, hy'⟩ y.value List.mem_cons_self
      List.mem_cons_self
  · obtain ⟨a, ha, hx⟩ := List.mem_flatMap.mp hx
    obtain ⟨p, hp⟩ := List.getElem?_of_mem ha
    obtain ⟨j, hj⟩ := List.getElem?_of_mem hx
    obtain ⟨q, k, -, b, hb, hk⟩ := hreg.exists_producer hp hj
    exact List.mem_flatMap.mpr ⟨b, List.mem_of_getElem? hb, List.mem_of_getElem? hk⟩
  · obtain ⟨q, k, b, hb, hk⟩ := hout hy
    refine h.rate_of_none ⟨b, hb, hk⟩
      (Option.isNone_iff_eq_none.mp (Option.isSome_eq_false_iff.mp ?_))
    rw [((hreg.holds_of_node hb).outputs y (List.mem_of_getElem? hk)).takes]
    refine Bool.eq_false_iff.mpr fun htakes => hnot ?_
    simp only [Bool.and_eq_true, Bool.not_eq_true'] at htakes
    obtain ⟨p, j, hr⟩ := hreg.exists_reader hb hk htakes.1.2
    obtain ⟨a, ha⟩ := hr.reader
    exact List.mem_flatMap.mpr ⟨a, List.mem_of_getElem? ha,
      List.mem_of_getElem? (hreg.input_of_reads hr ha ⟨b, hb, hk⟩)⟩

/-- What all nodes give to the gradient of the weight says at which rate the loss changes. -/
theorem exists_loss : ∃ L : ℚ[X],
    (∀ e, ∃ found, lossesIn g (R e) = .ok found ∧ Scalar.sum found.reduceOption = L.eval e) ∧
      L.coeff 1 = (g.nodes.map fun a => ((a.gives r w).map (·.dot d)).sum).sum := by
  have hall : ∀ a ∈ g.nodes, ∃ E : Option ℚ[X],
      (∀ e, a.layer.lossOf a.tensors (R e) = .ok (E.map (·.eval e))) ∧
      (a.tensors.outputs.map (rate P r)).sum + E.elim 0 (·.coeff 1) =
        (a.tensors.inputs.map (rate P r)).sum + ((a.gives r w).map (·.dot d)).sum := by
    intro a ha
    obtain ⟨p, hp⟩ := List.getElem?_of_mem ha
    obtain ⟨E, hfound, hsum, -⟩ := h.exists_balance hp
    exact ⟨E, hfound, hsum⟩
  choose! E hE using hall
  have hnone : ∀ a ∈ g.nodes, a.isLoss = false → E a = none := by
    intro a ha hnot
    have hfound := (hE a ha).1 0
    rw [Layer.lossOf_of_not_loss (show a.layer.loss?.isSome = false from hnot)] at hfound
    exact Option.map_eq_none_iff.mp (Except.ok.inj hfound).symm
  refine ⟨((g.nodes.filter (·.isLoss)).map fun a => (E a).getD 0).sum, fun e => ?_, ?_⟩
  · refine ⟨(g.nodes.filter (·.isLoss)).map fun a => (E a).map (·.eval e), ?_, ?_⟩
    · refine except_mapM_eq_ok_iff.mpr ?_
      rw [List.forall₂_map_right_iff, List.forall₂_same]
      exact fun a ha => (hE a (List.mem_of_mem_filter ha)).1 e
    · rw [rational_sum, sum_reduceOption_eval]
  · rw [sum_map_filter fun a ha hnot => by rw [hnone a ha hnot, Option.getD_none], ← lcoeff_apply,
      map_list_sum, List.map_map]
    have hsum : (g.nodes.map fun a => (a.tensors.outputs.map (rate P r)).sum +
        (E a).elim 0 (·.coeff 1)).sum = (g.nodes.map fun a =>
          (a.tensors.inputs.map (rate P r)).sum + ((a.gives r w).map (·.dot d)).sum).sum :=
      congrArg List.sum (List.map_congr_left fun a ha => (hE a ha).2)
    rw [List.sum_map_add, List.sum_map_add, h.sum_rates] at hsum
    rw [← add_left_cancel hsum]
    refine congrArg List.sum (List.map_congr_left fun a _ => ?_)
    cases hE : E a <;> simp [hE]

/-- The gradient says at which rate the loss changes. -/
theorem exists_gradient {c : Tensor ℚ} {cs : List (Tensor ℚ)} (hgiven : given w = c :: cs) :
    ∃ (G : Tensor ℚ) (L : ℚ[X]),
    gradientOf given w = .ok G ∧ (∀ e, ∃ found, lossesIn g (R e) = .ok found ∧
      Scalar.sum found.reduceOption = L.eval e) ∧
      L.coeff 1 = G.dot d := by
  obtain ⟨L, hfound, hrate⟩ := h.exists_loss
  have hall : g.order.reverse.flatMap (givenBy g r w) = c :: cs :=
    (h.returned.given w).symm.trans hgiven
  have hshape : ∀ t ∈ c :: cs, t.shape = d.shape := by
    intro t ht
    obtain ⟨p, -, ht⟩ := List.mem_flatMap.mp (hall ▸ ht)
    unfold givenBy at ht
    cases ha : g.nodes[p]? with
    | none =>
      rw [ha] at ht
      cases ht
    | some a =>
      rw [ha] at ht
      obtain ⟨-, -, -, hshape⟩ := h.exists_balance ha
      exact hshape t ht
  obtain ⟨G, hG, -, hsum⟩ := Tensor.exists_sumOnto_slope (fun i j => X * C (d.get i j))
    (hshape c List.mem_cons_self) fun t ht => hshape t (List.mem_cons_of_mem _ ht)
  refine ⟨G, L, by rw [gradientOf, hgiven]; exact hG, hfound, ?_⟩
  have hperm := h.registered.compiled.ordered.perm
  calc L.coeff 1 = (g.nodes.map fun a => ((a.gives r w).map (·.dot d)).sum).sum := hrate
    _ = (g.sortedNodes.map fun a => ((a.gives r w).map (·.dot d)).sum).sum :=
      (((sortedNodes_perm hperm).map _).sum_eq).symm
    _ = (g.order.map fun p => ((givenBy g r w p).map (·.dot d)).sum).sum :=
      congrArg List.sum (map_sortedNodes hperm fun p a ha => by rw [givenBy, ha, Option.elim_some])
    _ = ((c :: cs).map (·.dot d)).sum := by
      rw [← hall, sum_map_flatMap, List.map_reverse, List.sum_reverse]
    _ = G.dot d := by
      rw [Tensor.dot_eq_slope, hsum]
      exact congrArg List.sum (List.map_congr_left fun t _ => Tensor.dot_eq_slope t d)

end Backward

end Course

end LayerGraph
