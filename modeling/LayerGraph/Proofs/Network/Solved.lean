import LayerGraph.Proofs.Network.Survey

/-!
# What runs without sharing have found

In a memory that shares nothing every tensor is written once. So at the end of a run the outputs of
each node are its results, and what has been passed back is what the derivatives of the outputs come
to, wherever in the run that happened.
-/

namespace LayerGraph

open Network

variable {α : Type}

theorem Layer.results_of_isSource [Scalar α] {s : Store α} {layer : Layer α} {handles : Handles}
    (hf : Fits s layer handles) (hsource : layer.isSource = true) {r : Reader α} :
    layer.results handles r = .ok [] := by
  cases hf with
  | input => rfl
  | fullyConnected | activation | addition | multiout | identity | loss => cases hsource

theorem Layer.lossOf_of_isSource [Scalar α] {s : Store α} {layer : Layer α} {handles : Handles}
    (hf : Fits s layer handles) (hsource : layer.isSource = true) (r : Reader α) :
    layer.lossOf handles r = .ok none := by
  cases hf with
  | input => rfl
  | fullyConnected | activation | addition | multiout | identity | loss => cases hsource

theorem Layer.contributions_of_isSource [Scalar α] {s : Store α} {layer : Layer α}
    {handles : Handles} (hf : Fits s layer handles) (hsource : layer.isSource = true)
    {r : Reader α} : layer.contributions handles r = .ok [] := by
  cases hf with
  | input => rfl
  | fullyConnected | activation | addition | multiout | identity | loss => cases hsource

/-- The reader finds a tensor of the shape that the store has for it. -/
def Reader.Fills (r : Reader α) (s : Store α) (id : TensorRef) : Prop :=
  ∃ v, r.value id = .ok v ∧ s.shape id = .ok v.shape

/-- Nodes see the values as they are, and weights that follow from the weights. -/
structure SeesValues (see : Node α → Reader α → Reader α) : Prop where
  value : ∀ a r, (see a r).value = r.value
  weight : ∀ a r r', r'.weight = r.weight → (see a r').weight = (see a r).weight

variable [Scalar α] {g : NodeGraph (Node α)} {s : Store α} {batch : Nat}
  {see : Node α → Reader α → Reader α} {r₀ r r' : Reader α} {done rest : List NodeRef} {p : NodeRef}

/-- The nodes in `done` have run forward: their outputs are their results, and nothing else has been
written. -/
structure Solved (g : NodeGraph (Node α)) (see : Node α → Reader α → Reader α) (r₀ : Reader α)
    (done : List NodeRef) (r : Reader α) : Prop where
  shape : r.shape = r₀.shape
  weight : r.weight = r₀.weight
  rest : ∀ id, (∀ p ∈ done, ∀ a, g.nodes[p]? = some a → a.isSource = false →
    ∀ y ∈ a.tensors.outputs, y.value ≠ id) →
    r.value id = r₀.value id
  results : ∀ p ∈ done, ∀ a, g.nodes[p]? = some a → ∃ vs,
    a.layer.results a.tensors (see a r) = .ok vs ∧
    ∀ w ∈ (a.tensors.outputs.map (·.value)).zip vs, r.value w.1 = .ok w.2

/-- Nodes write nothing but their outputs. -/
theorem value_of_flow {nodes : List NodeRef} (hrun : nodes.foldlM (flowNode g see) r = .ok r')
    {id : TensorRef}
    (hid : ∀ p ∈ nodes, ∀ a, g.nodes[p]? = some a → ∀ y ∈ a.tensors.outputs, y.value ≠ id) :
    r'.value id = r.value id := by
  induction nodes generalizing r with
  | nil =>
    cases hrun
    rfl
  | cons p rest ih =>
    rw [List.foldlM_cons] at hrun
    obtain ⟨r₁, hstep, hrun⟩ := except_bind_eq_ok_iff.mp hrun
    rw [ih hrun fun q hq => hid q (List.mem_cons_of_mem p hq)]
    unfold flowNode at hstep
    split at hstep
    · cases hstep
    · next a ha =>
      obtain ⟨vs, -, hstep⟩ := except_bind_eq_ok_iff.mp hstep
      cases hstep
      exact value_setAll_outputs (hid p List.mem_cons_self a ha)

section Forward

variable (h : Registered g s batch g.order) (hsee : SeesValues see)
include h

omit [Scalar α] in
/-- What a node writes is no input of those that have run. -/
theorem value_setAll_input {a b : Node α} {q : NodeRef} (ha : g.nodes[p]? = some a)
    (hb : g.nodes[q]? = some b) (hle : place g q ≤ place g p) {vs : List (Tensor α)} {x : Wire}
    (hx : x ∈ b.tensors.inputs) :
    (r.setAll ((a.tensors.outputs.map (·.value)).zip vs)).value x.value = r.value x.value := by
  refine value_setAll_outputs fun y hy heq => ?_
  obtain ⟨j, hj⟩ := List.getElem?_of_mem hx
  obtain ⟨k, hk⟩ := List.getElem?_of_mem hy
  obtain ⟨q₀, k₀, hr, hx₀⟩ := h.exists_producer hb hj
  obtain ⟨rfl, -⟩ := h.output_eq_of_owned ⟨a, ha, hk⟩ hx₀ y.value List.mem_cons_self
    (by rw [heq]; exact List.mem_cons_self)
  have := h.compiled.ordered.before _ _ _ _ hr
  omega

omit [Scalar α] in
/-- What a node writes is found, as it writes no tensor twice. -/
theorem value_setAll_written {a : Node α} (ha : g.nodes[p]? = some a) {vs : List (Tensor α)}
    {w : TensorRef × Tensor α} (hw : w ∈ (a.tensors.outputs.map (·.value)).zip vs) :
    (r.setAll ((a.tensors.outputs.map (·.value)).zip vs)).value w.1 = .ok w.2 := by
  have hslot : ∀ w ∈ (a.tensors.outputs.map (·.value)).zip vs, ∃ (k : Nat) (y : Wire),
      a.tensors.outputs[k]? = some y ∧
      y.value = w.1 ∧ vs[k]? = some w.2 := by
    intro w hw
    obtain ⟨k, hk⟩ := List.getElem?_of_mem hw
    obtain ⟨hy, hv⟩ := List.getElem?_zip_eq_some.mp hk
    rw [List.getElem?_map] at hy
    obtain ⟨y, hy, heq⟩ := Option.map_eq_some_iff.mp hy
    exact ⟨k, y, hy, heq, hv⟩
  obtain ⟨w', hw', heq, hvalue⟩ := Reader.exists_value_setAll (r := r) (List.mem_map_of_mem hw)
  obtain ⟨k, y, hy, hyw, hv⟩ := hslot w hw
  obtain ⟨k', y', hy', hyw', hv'⟩ := hslot w' hw'
  obtain ⟨-, rfl⟩ := h.output_eq_of_owned ⟨a, ha, hy⟩ ⟨a, ha, hy'⟩ y.value List.mem_cons_self
    (by rw [hyw, ← heq, ← hyw']; exact List.mem_cons_self)
  rw [hvalue, Option.some.inj (hv'.symm.trans hv)]

/-- Runs write no labels. -/
theorem Solved.label (hs : Solved g see r₀ done r) {a : Node α} (ha : g.nodes[p]? = some a)
    {l : TensorRef} (hl : a.tensors.label = some l) : r.value l = r₀.value l := by
  refine hs.rest l fun q _ b hb _ y hy heq => ?_
  obtain ⟨k, hk⟩ := List.getElem?_of_mem hy
  exact (h.rootOf_ne_label ha hl ⟨b, hb, hk⟩).1 (by rw [heq])

/-- Runs leave what is fed. -/
theorem Solved.source (hs : Solved g see r₀ done r) {a : Node α} (ha : g.nodes[p]? = some a)
    (hsource : a.isSource = true) {y : Wire} (hy : y ∈ a.tensors.outputs) :
    r.value y.value = r₀.value y.value := by
  refine hs.rest y.value fun q _ b hb hnot z hz heq => ?_
  obtain ⟨k, hk⟩ := List.getElem?_of_mem hy
  obtain ⟨i, hi⟩ := List.getElem?_of_mem hz
  obtain ⟨rfl, -⟩ := h.output_eq_of_owned ⟨b, hb, hi⟩ ⟨a, ha, hk⟩ z.value List.mem_cons_self
    (by rw [heq]; exact List.mem_cons_self)
  obtain rfl : a = b := Option.some.inj (ha.symm.trans hb)
  rw [hsource] at hnot
  cases hnot

omit h in
/-- The outputs of the nodes that have run are their results. -/
theorem Solved.value_of_results (hs : Solved g see r₀ done r) (hp : p ∈ done) {a : Node α}
    (ha : g.nodes[p]? = some a) {vs : List (Tensor α)}
    (hvs : a.layer.results a.tensors (see a r) = .ok vs) {k : Nat} {y : Wire} {v : Tensor α}
    (hy : a.tensors.outputs[k]? = some y) (hv : vs[k]? = some v) : r.value y.value = .ok v := by
  obtain ⟨vs', hvs', hvalues⟩ := hs.results p hp a ha
  obtain rfl := Except.ok.inj (hvs.symm.trans hvs')
  refine hvalues (y.value, v) (List.mem_of_getElem? (i := k)
    (List.getElem?_zip_eq_some.mpr ⟨?_, hv⟩))
  rw [List.getElem?_map, hy]
  rfl

include hsee

theorem Solved.step (hs : Solved g see r₀ done r) (hsplit : g.order = done ++ p :: rest)
    {a : Node α} (ha : g.nodes[p]? = some a) {vs : List (Tensor α)}
    (hvs : a.layer.results a.tensors (see a r) = .ok vs) :
    Solved g see r₀ (done ++ [p]) (r.setAll ((a.tensors.outputs.map (·.value)).zip vs)) := by
  have hperm := h.compiled.ordered.perm
  have hnot := not_mem_done (nodup_order hperm) hsplit
  have hcount := Layer.length_of_results (h.holds_of_node ha).fits hvs
  have hlt : ∀ q ∈ done, place g q < place g p := fun q hq => by
    have hpairs := pairwise_place hperm
    rw [hsplit] at hpairs
    exact (List.pairwise_append.mp hpairs).2.2 q hq p List.mem_cons_self
  have hagree : ∀ {q b}, g.nodes[q]? = some b → place g q ≤ place g p →
      b.layer.results b.tensors (see b (r.setAll ((a.tensors.outputs.map (·.value)).zip vs))) =
        b.layer.results b.tensors (see b r) := by
    intro q b hb hle
    refine Layer.results_of_agree (h.holds_of_node hb).fits (fun x hx => ?_) fun w _ => ?_
    · rw [hsee.value, hsee.value]
      exact value_setAll_input h ha hb hle hx
    · rw [hsee.weight b r _ Reader.weight_setAll]
  refine ⟨Reader.shape_setAll.trans hs.shape, Reader.weight_setAll.trans hs.weight,
    fun id hid => ?_, fun q hq b hb => ?_⟩
  · rw [← hs.rest id fun q hq => hid q (List.mem_append_left _ hq)]
    cases hsource : a.isSource with
    | true =>
      rw [show a.layer.isSource = true from hsource, if_pos rfl] at hcount
      rw [hcount, List.zip_nil_right]
      rfl
    | false => exact value_setAll_outputs (hid p (by simp) a ha hsource)
  · rcases List.mem_append.mp hq with hq | hq
    · obtain ⟨vs', hvs', hvalues⟩ := hs.results q hq b hb
      refine ⟨vs', by rw [hagree hb (Nat.le_of_lt (hlt q hq)), hvs'], fun w hw => ?_⟩
      rw [← hvalues w hw]
      refine value_setAll_outputs fun y hy heq => hnot ?_
      obtain ⟨k, hk⟩ := List.getElem?_of_mem hy
      obtain ⟨y', hy', heq'⟩ := List.mem_map.mp (List.of_mem_zip hw).1
      obtain ⟨k', hk'⟩ := List.getElem?_of_mem hy'
      obtain ⟨rfl, -⟩ := h.output_eq_of_owned ⟨a, ha, hk⟩ ⟨b, hb, hk'⟩ y.value List.mem_cons_self
        (by rw [heq, ← heq']; exact List.mem_cons_self)
      exact hq
    · obtain rfl := List.mem_singleton.mp hq
      obtain rfl : a = b := Option.some.inj (ha.symm.trans hb)
      exact ⟨vs, by rw [hagree ha (Nat.le_refl _), hvs], fun w hw => value_setAll_written h ha hw⟩

/-- At the end of a forward run all nodes have had their turns. -/
theorem solved_of_dataflow (hrun : dataflow g see r₀ = .ok r) :
    Solved g see r₀ g.order r := by
  refine except_foldlM_upTo (fun done r => Solved g see r₀ done r) hrun ⟨rfl, rfl,
    fun _ _ => rfl, nofun⟩ fun done p rest c d hsplit hs hstep => ?_
  obtain ⟨a, ha⟩ := exists_node_of_split h.compiled.ordered.perm hsplit
  unfold flowNode at hstep
  rw [ha] at hstep
  obtain ⟨vs, hvs, hstep⟩ := except_bind_eq_ok_iff.mp hstep
  cases hstep
  exact hs.step h hsee hsplit ha hvs

/-- A run ends well if each node has results of the right shapes wherever its inputs are there. -/
theorem exists_solved
    (hstart : ∀ (p : Nat) (a : Node α), g.nodes[p]? = some a → a.isSource = true →
      ∀ y ∈ a.tensors.outputs, r₀.Fills s y.value)
    (hnext : ∀ (p : Nat) (a : Node α) r, g.nodes[p]? = some a → a.isSource = false →
      r.weight = r₀.weight → (∀ l, a.tensors.label = some l → r.value l = r₀.value l) →
      (∀ x ∈ a.tensors.inputs, r.Fills s x.value) →
      ∃ vs, a.layer.results a.tensors (see a r) = .ok vs ∧ vs.length = a.tensors.outputs.length ∧
      ∀ w ∈ (a.tensors.outputs.map (·.value)).zip vs, s.shape w.1 = .ok w.2.shape) :
    ∃ r, dataflow g see r₀ = .ok r ∧ Solved g see r₀ g.order r ∧ ∀ q k y, IsOutput g q k y →
    r.Fills s y.value := by
  have hperm := h.compiled.ordered.perm
  -- The outputs of the nodes that have run are there, and so is what is fed.
  let there (done : List NodeRef) (r : Reader α) : Prop := ∀ (q k : Nat) (b : Node α) (y : Wire),
    g.nodes[q]? = some b → b.tensors.outputs[k]? = some y → b.isSource = true ∨ q ∈ done →
    r.Fills s y.value
  have hstep : ∀ done p rest r, g.order = done ++ p :: rest → Solved g see r₀ done r ∧
      there done r → ∃ r', flowNode g see r p = .ok r' ∧ Solved g see r₀ (done ++ [p]) r' ∧
      there (done ++ [p]) r' := by
    rintro done p rest r hsplit ⟨hs, hfills⟩
    obtain ⟨a, ha⟩ := exists_node_of_split hperm hsplit
    have hfits := (h.holds_of_node ha).fits
    have hbefore : ∀ {q : NodeRef}, q ∈ g.order → place g q < place g p → q ∈ done := by
      intro q hq hlt
      rw [hsplit] at hq
      refine (List.mem_append.mp hq).resolve_right fun hmem => ?_
      rcases List.mem_cons.mp hmem with rfl | hmem
      · exact Nat.lt_irrefl _ hlt
      · have hpairs := pairwise_place hperm
        rw [hsplit] at hpairs
        have := List.rel_of_pairwise_cons (List.pairwise_append.mp hpairs).2.1 hmem
        omega
    obtain ⟨vs, hvs, hlength, hshapes⟩ : ∃ vs, a.layer.results a.tensors (see a r) = .ok vs ∧
        (a.isSource = false → vs.length = a.tensors.outputs.length) ∧
        ∀ w ∈ (a.tensors.outputs.map (·.value)).zip vs, s.shape w.1 = .ok w.2.shape := by
      cases hsource : a.isSource with
      | true =>
        refine ⟨[], Layer.results_of_isSource hfits hsource, nofun, fun w hw => ?_⟩
        rw [List.zip_nil_right] at hw
        cases hw
      | false =>
        obtain ⟨vs, hvs, hlength, hshapes⟩ :=
          hnext p a r ha hsource hs.weight (fun l hl => hs.label h ha hl) fun x hx => by
          obtain ⟨j, hj⟩ := List.getElem?_of_mem hx
          obtain ⟨q, k, hr, b, hb, hk⟩ := h.exists_producer ha hj
          exact hfills q k b x hb hk
            (.inr (hbefore (h.mem_order hb) (h.compiled.ordered.before _ _ _ _ hr)))
        exact ⟨vs, hvs, fun _ => hlength, hshapes⟩
    refine ⟨_, ?_, hs.step h hsee hsplit ha hvs, fun q k b y hb hy hthere => ?_⟩
    · unfold flowNode
      rw [ha]
      dsimp only
      rw [hvs]
      rfl
    by_cases hqp : q = p
    · subst hqp
      obtain rfl : a = b := Option.some.inj (ha.symm.trans hb)
      cases hsource : a.isSource with
      | true =>
        obtain rfl : [] = vs :=
          Except.ok.inj ((Layer.results_of_isSource hfits hsource).symm.trans hvs)
        rw [List.zip_nil_right]
        exact hfills q k a y ha hy (.inl hsource)
      | false =>
        obtain ⟨v, hv⟩ : ∃ v, vs[k]? = some v :=
          ⟨_, List.getElem?_eq_getElem (hlength hsource ▸ (List.getElem?_eq_some_iff.mp hy).1)⟩
        have hw : (y.value, v) ∈ (a.tensors.outputs.map (·.value)).zip vs :=
          List.mem_of_getElem? (List.getElem?_zip_eq_some.mpr ⟨by rw [List.getElem?_map, hy]; rfl,
              hv⟩)
        exact ⟨v, value_setAll_written h ha hw, hshapes _ hw⟩
    · obtain ⟨v, hv, hshape⟩ := hfills q k b y hb hy (hthere.imp_right fun hq =>
        (List.mem_append.mp hq).resolve_right fun hmem => hqp (List.mem_singleton.mp hmem))
      refine ⟨v, (value_setAll_outputs fun z hz heq => ?_).trans hv, hshape⟩
      obtain ⟨i, hi⟩ := List.getElem?_of_mem hz
      obtain ⟨rfl, -⟩ := h.output_eq_of_owned ⟨a, ha, hi⟩ ⟨b, hb, hy⟩ z.value List.mem_cons_self
        (by rw [heq]; exact List.mem_cons_self)
      exact hqp rfl
  obtain ⟨r, hrun, hsolved, hfills⟩ :=
    except_foldlM_exists_upTo _ ⟨⟨rfl, rfl, fun _ _ => rfl, nofun⟩,
    fun q k b y hb hy hthere => hstart q b hb (hthere.resolve_right nofun) y
      (List.mem_of_getElem? hy)⟩ hstep
  exact ⟨r, hrun, hsolved, fun q k y ⟨b, hb, hy⟩ => hfills q k b y hb hy (.inr (h.mem_order hb))⟩

end Forward

/-- What a node gives to the gradient of a weight. -/
def Node.gives (a : Node α) (r : Reader α) (w : WeightRef) : List (Tensor α) :=
  match a.collected r with
  | .ok cs => if a.participates then ((a.tensors.weights.zip cs).lookup w).toList else []
  | .error _ => []

theorem Node.gives_congr {a : Node α} {r r' : Reader α} (h : a.collected r' = a.collected r)
    (w : WeightRef) : a.gives r' w = a.gives r w := by
  unfold Node.gives
  rw [h]

theorem Node.gives_of_participates {a : Node α} {r : Reader α} (hpart : a.participates = true)
    {cs : List (Tensor α)} (hcs : a.collected r = .ok cs) (w : WeightRef) :
    a.gives r w = ((a.tensors.weights.zip cs).lookup w).toList := by
  unfold Node.gives
  rw [hcs]
  exact if_pos hpart

theorem Node.gives_of_not_participates {a : Node α} {r : Reader α} (hpart : a.participates = false)
    (w : WeightRef) : a.gives r w = [] := by
  unfold Node.gives
  rw [hpart]
  split <;> rfl

/-- What the node at an index gives to the gradient of a weight. -/
def givenBy (g : NodeGraph (Node α)) (r : Reader α) (w : WeightRef) (p : NodeRef) :
    List (Tensor α) :=
  (g.nodes[p]?).elim [] (·.gives r w)

/-- The nodes in `done` have had their turns in a backward pass: what they pass back stands in the
derivatives of their producers, and nothing but derivatives has been written. -/
structure Returned (g : NodeGraph (Node α)) (r₀ : Reader α) (done : List NodeRef) (r : Reader α)
    (given : WeightRef → List (Tensor α)) : Prop where
  shape : r.shape = r₀.shape
  weight : r.weight = r₀.weight
  rest : ∀ id, (∀ q k, ¬ IsDerivative g q k id) → r.value id = r₀.value id
  passed : ∀ p ∈ done, ∀ a, g.nodes[p]? = some a → a.passesDerivatives = true →
    ∃ dxs, a.layer.derivatives a.tensors r = .ok dxs ∧ ∀ w ∈ passedTo a.tensors.inputs dxs,
    r.value w.1 = .ok w.2
  given : ∀ w, given w = done.flatMap (givenBy g r w)

section Backward

variable (h : Registered g s batch g.order) {given : WeightRef → List (Tensor α)}
include h

omit [Scalar α] in
theorem value_ne_derivative {q k q' k' : Nat} {y : Wire} {d : TensorRef} (hy : IsOutput g q k y)
    (hd : IsDerivative g q' k' d) : y.value ≠ d :=
  fun heq => h.rootOf_value_ne_derivative hy hd (by rw [heq])

omit [Scalar α] in
theorem label_ne_derivative {q q' k' : Nat} {b : Node α} {l d : TensorRef}
    (hb : g.nodes[q]? = some b) (hl : b.tensors.label = some l) (hd : IsDerivative g q' k' d) :
    l ≠ d := by
  obtain ⟨y, hy, hyd⟩ := hd
  exact fun heq => (h.rootOf_ne_label hb hl hy).2 d hyd (by rw [heq])

omit [Scalar α] in
/-- What is passed back is written to derivatives only. -/
theorem value_setAll_passed {a : Node α} (ha : g.nodes[p]? = some a) (r : Reader α)
    (dxs : List (Tensor α)) {id : TensorRef} (hid : ∀ q k, ¬ IsDerivative g q k id) :
    (r.setAll (passedTo a.tensors.inputs dxs)).value id = r.value id := by
  refine Reader.value_setAll_of_not_mem fun hmem => ?_
  obtain ⟨w, hw, rfl⟩ := List.mem_map.mp hmem
  obtain ⟨q', k', -, hd, -⟩ := exists_slot_of_passedTo h ha hw
  exact hid q' k' hd

/-- A turn leaves what the node and those before it have read as it was. -/
theorem agree_of_turn (hsplit : g.order.reverse = done ++ p :: rest) {a : Node α}
    (ha : g.nodes[p]? = some a) (r : Reader α) (dxs : List (Tensor α)) {q : NodeRef} {b : Node α}
    (hb : g.nodes[q]? = some b) (hq : q ∈ done ++ [p]) :
    b.layer.contributions b.tensors (r.setAll (passedTo a.tensors.inputs dxs)) =
      b.layer.contributions b.tensors r ∧
      b.layer.derivatives b.tensors (r.setAll (passedTo a.tensors.inputs dxs)) =
        b.layer.derivatives b.tensors r := by
  have hle : place g p ≤ place g q := by
    rcases List.mem_append.mp hq with hq | hq
    · exact Nat.le_of_lt ((place_lt_of_split h.compiled.ordered.perm hsplit).1 q hq)
    · rw [List.mem_singleton.mp hq]
  have hkept : ∀ id, (∀ q k, ¬ IsDerivative g q k id) →
      (r.setAll (passedTo a.tensors.inputs dxs)).value id = r.value id :=
    fun id => value_setAll_passed h ha r dxs
  have hx : ∀ x ∈ b.tensors.inputs, (r.setAll (passedTo a.tensors.inputs dxs)).value x.value =
      r.value x.value := by
    intro x hx
    obtain ⟨j, hj⟩ := List.getElem?_of_mem hx
    obtain ⟨q', k', -, hx'⟩ := h.exists_producer hb hj
    exact hkept _ fun q k hd => value_ne_derivative h hx' hd rfl
  have hy : ∀ y ∈ b.tensors.outputs, (r.setAll (passedTo a.tensors.inputs dxs)).value y.value =
      r.value y.value := by
    intro y hy
    obtain ⟨k, hk⟩ := List.getElem?_of_mem hy
    exact hkept _ fun q k hd => value_ne_derivative h ⟨b, hb, hk⟩ hd rfl
  have hd : ∀ y ∈ b.tensors.outputs, (r.setAll (passedTo a.tensors.inputs dxs)).derivative y =
      r.derivative y := by
    intro y hy
    unfold Reader.derivative
    cases hyd : y.derivative with
    | none => rw [Reader.shape_setAll]
    | some d =>
      refine Reader.value_setAll_of_not_mem fun hmem => ?_
      obtain ⟨w, hw, rfl⟩ := List.mem_map.mp hmem
      obtain ⟨q', k', j, hd', hr, -⟩ := exists_slot_of_passedTo h ha hw
      obtain ⟨k, hk⟩ := List.getElem?_of_mem hy
      obtain ⟨rfl, -⟩ := h.derivative_eq_of_owned hd' ⟨y, ⟨b, hb, hk⟩, hyd⟩
      have := h.compiled.ordered.before _ _ _ _ hr
      omega
  have hf := (h.holds_of_node hb).fits
  exact ⟨Layer.contributions_of_agree hf hx hd, Layer.derivatives_of_agree hf
    (fun w _ => by rw [Reader.weight_setAll]) hd (fun _ => hy) fun l hl => hkept _ fun q k hd =>
      label_ne_derivative h hb hl hd rfl⟩

omit [Scalar α] in
/-- Two nodes do not pass back to the same derivative, and one does not pass back to it twice. -/
theorem eq_of_passedTo {a b : Node α} {q : NodeRef} (ha : g.nodes[p]? = some a)
    (hb : g.nodes[q]? = some b) {dxs dxs' : List (Tensor α)} {w w' : TensorRef × Tensor α}
    (hw : w ∈ passedTo a.tensors.inputs dxs) (hw' : w' ∈ passedTo b.tensors.inputs dxs')
    (heq : w.1 = w'.1) : p = q ∧ (dxs = dxs' → w.2 = w'.2) := by
  obtain ⟨q₁, k₁, j₁, hd₁, hr₁, hj₁⟩ := exists_slot_of_passedTo h ha hw
  obtain ⟨q₂, k₂, j₂, hd₂, hr₂, hj₂⟩ := exists_slot_of_passedTo h hb hw'
  obtain ⟨rfl, rfl⟩ := h.derivative_eq_of_owned hd₁ (heq ▸ hd₂)
  obtain ⟨rfl, rfl⟩ := h.compiled.wired.single _ _ _ _ _ _ hr₁ hr₂
  refine ⟨rfl, fun hdxs => ?_⟩
  rw [hdxs, hj₂] at hj₁
  exact (Option.some.inj hj₁).symm

theorem Returned.step (hs : Returned g r₀ done r given)
    (hsplit : g.order.reverse = done ++ p :: rest) {t : Reader α × (WeightRef → List (Tensor α))}
    (hrun : sweepNode g (r, given) p = .ok t) : Returned g r₀ (done ++ [p]) t.1 t.2 := by
  have hperm := h.compiled.ordered.perm
  obtain ⟨a, ha⟩ : ∃ a, g.nodes[p]? = some a :=
    ⟨_, List.getElem?_eq_getElem
      ((mem_order_iff hperm).mp (List.mem_reverse.mp (hsplit ▸ by simp)))⟩
  unfold sweepNode at hrun
  rw [ha] at hrun
  dsimp only at hrun
  split at hrun
  · next hpart =>
    obtain ⟨swept, hsweep, hrun⟩ := except_bind_eq_ok_iff.mp hrun
    obtain ⟨cs, hcs, hsweep⟩ := except_bind_eq_ok_iff.mp hsweep
    obtain ⟨dxs, hdxs, hsweep⟩ := except_bind_eq_ok_iff.mp hsweep
    cases hsweep
    cases hrun
    have hagree : ∀ {q b}, g.nodes[q]? = some b → q ∈ done ++ [p] →
        b.collected (r.setAll (passedTo a.tensors.inputs dxs)) = b.collected r ∧
          b.layer.derivatives b.tensors (r.setAll (passedTo a.tensors.inputs dxs)) =
          b.layer.derivatives b.tensors r := by
      intro q b hb hq
      obtain ⟨hcs, hdxs⟩ := agree_of_turn h hsplit ha r dxs hb hq
      refine ⟨?_, hdxs⟩
      unfold Node.collected
      rw [hcs]
    refine ⟨Reader.shape_setAll.trans hs.shape, Reader.weight_setAll.trans hs.weight,
      fun id hid => (value_setAll_passed h ha r dxs hid).trans (hs.rest id hid),
      fun q hq b hb hpasses => ?_, fun w => ?_⟩
    · rw [(hagree hb hq).2]
      rcases List.mem_append.mp hq with hdone | hq
      · obtain ⟨dxs', hdxs', hvalues⟩ := hs.passed q hdone b hb hpasses
        refine ⟨dxs', hdxs', fun w hw => (Reader.value_setAll_of_not_mem fun hmem => ?_).trans
          (hvalues w hw)⟩
        obtain ⟨w', hw', heq⟩ := List.mem_map.mp hmem
        obtain rfl := (eq_of_passedTo h ha hb hw' hw heq).1
        exact Nat.lt_irrefl _ ((place_lt_of_split hperm hsplit).1 _ hdone)
      · obtain rfl := List.mem_singleton.mp hq
        obtain rfl : a = b := Option.some.inj (ha.symm.trans hb)
        rw [Node.returned, if_pos hpasses] at hdxs
        refine ⟨dxs, hdxs, fun w hw => ?_⟩
        obtain ⟨w', hw', heq, hvalue⟩ :=
          Reader.exists_value_setAll (r := r) (List.mem_map_of_mem hw)
        rw [hvalue, (eq_of_passedTo h ha ha hw' hw heq).2 rfl]
    · rw [List.flatMap_append, List.flatMap_singleton]
      refine congrArg₂ (· ++ ·) ((hs.given w).trans (List.flatMap_congr fun q hq => ?_)) ?_
      · unfold givenBy
        cases hb : g.nodes[q]? with
        | none => rfl
        | some b => exact (Node.gives_congr (hagree hb (List.mem_append_left _ hq)).1 w).symm
      · rw [givenBy, ha]
        exact (Node.gives_of_participates hpart ((hagree ha (by simp)).1.trans hcs) w).symm
  · next hnot =>
    cases hrun
    refine ⟨hs.shape, hs.weight, hs.rest, fun q hq b hb hpasses => ?_, fun w => ?_⟩
    · rcases List.mem_append.mp hq with hdone | hq
      · exact hs.passed q hdone b hb hpasses
      · obtain rfl := List.mem_singleton.mp hq
        obtain rfl : a = b := Option.some.inj (ha.symm.trans hb)
        exact absurd (Node.participates_of_passes hpasses) hnot
    · have hnone : givenBy g r w p = [] := by
        rw [givenBy, ha]
        exact Node.gives_of_not_participates (Bool.eq_false_iff.mpr hnot) w
      rw [List.flatMap_append, List.flatMap_singleton, hnone, List.append_nil]
      exact hs.given w

/-- At the end of a backward pass all nodes have had their turns. -/
theorem returned_of_backflow {given : WeightRef → List (Tensor α)}
    (hrun : backflow g r₀ = .ok given) : ∃ r, Returned g r₀ g.order.reverse r given := by
  obtain ⟨t, ht, hrun⟩ := except_bind_eq_ok_iff.mp hrun
  cases hrun
  refine ⟨t.1, except_foldlM_upTo (fun done (t : Reader α × (WeightRef → List (Tensor α))) =>
    Returned g r₀ done t.1 t.2) ht ⟨rfl, rfl, fun _ _ => rfl, nofun, fun _ => rfl⟩
      fun done q rest c d hsplit hs hstep => ?_⟩
  exact hs.step h hsplit hstep

end Backward

end LayerGraph
