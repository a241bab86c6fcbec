import LayerGraph.Network.Memory
import LayerGraph.Proofs.Network.Ledger

/-!
# Iterations

A network is fed, runs forward and runs backward. Where every input and every label is fed, what a
run finds depends on what is fed and on the weights, and on nothing that the buffers held before.
-/

namespace LayerGraph.Network

variable {α τ : Type} [Scalar α]

/-- What is fed to each input and each label. -/
def feeds (n : Network α) (inputs labels : List (Tensor α)) : List (TensorRef × Tensor α) :=
  n.inputs.zip inputs ++ n.labels.zip labels

/-- What a forward run starts from, if nothing but the weights and what is fed can be read. -/
def fedReader (n : Network α) (inputs labels : List (Tensor α)) : Reader α :=
  Reader.setAll ⟨fun id => .error (.staleHandle id), n.store.shape, n.store.reader.weight⟩
    (n.feeds inputs labels)

omit [Scalar α] in
/-- Every graph input and every label is fed. -/
structure FeedsAll (n : Network α) : Prop where
  inputs : ∀ (p : Nat) (a : Node α) (y : Wire), n.graph.nodes[p]? = some a → a.isSource = true →
    y ∈ a.tensors.outputs → y.value ∈ n.inputs
  labels : ∀ (p : Nat) (a : Node α) (l : TensorRef), n.graph.nodes[p]? = some a →
    a.tensors.label = some l →
    l ∈ n.labels

omit [Scalar α] in
/-- Where there is one graph input and one loss, and both are fed, everything is fed. -/
theorem Prepared.feedsAll {n : Network α} {asks : (Shape → List Shape) → Prop} (h : Prepared asks n)
    (hsource : (n.graph.nodes.filter (·.isSource)).length = 1)
    (hloss : (n.graph.nodes.filter (·.isLoss)).length = 1) (hinputs : n.inputs ≠ [])
    (hlabels : n.labels ≠ []) : FeedsAll n := by
  have hone : ∀ {accept : Node α → Bool}, (n.graph.nodes.filter accept).length = 1 →
      ∀ {p q : Nat} {a b : Node α},
      n.graph.nodes[p]? = some a → n.graph.nodes[q]? = some b → accept a = true →
      accept b = true → a = b := by
    intro accept hlength p q a b ha hb hacc hacc'
    obtain ⟨c, hc⟩ := List.length_eq_one_iff.mp hlength
    have hmem := fun {p : Nat} {a : Node α} (ha : n.graph.nodes[p]? = some a) hacc =>
      List.mem_singleton.mp (hc ▸ List.mem_filter.mpr ⟨List.mem_of_getElem? ha, hacc⟩)
    exact (hmem ha hacc).trans (hmem hb hacc').symm
  refine ⟨fun p a y ha hs hy => ?_, fun p a l ha hl => ?_⟩
  · obtain ⟨id, hid⟩ := List.exists_mem_of_ne_nil _ hinputs
    obtain ⟨q, b, z, hb, hs', hz, rfl⟩ := h.faces.inputs id hid
    obtain rfl := hone hsource ha hb hs hs'
    have hfits := (h.registered.holds_of_node ha).fits
    generalize a.tensors = handles at hfits hy hz
    simp only [Node.isSource] at hs
    generalize a.layer = layer at hfits hs
    cases hfits with
    | input =>
      obtain rfl := List.mem_singleton.mp hy
      obtain rfl := List.mem_singleton.mp hz
      exact hid
    | fullyConnected | activation | addition | multiout | identity | loss => cases hs
  · have hisLoss : ∀ {p : Nat} {a : Node α} {l : TensorRef}, n.graph.nodes[p]? = some a →
        a.tensors.label = some l →
        a.isLoss = true := by
      intro p a l ha hl
      have hfits := (h.registered.holds_of_node ha).fits
      unfold Node.isLoss
      generalize a.tensors = handles at hfits hl
      generalize a.layer = layer at hfits
      cases hfits with
      | loss => rfl
      | input | fullyConnected | activation | addition | multiout | identity => cases hl
    obtain ⟨id, hid⟩ := List.exists_mem_of_ne_nil _ hlabels
    obtain ⟨q, b, hb, hl'⟩ := h.faces.labels id hid
    obtain rfl := hone hloss ha hb (hisLoss ha hl) (hisLoss hb hl')
    obtain rfl : l = id := Option.some.inj (hl.symm.trans hl')
    exact hid

omit [Scalar α] in
/-- The losses that the nodes have found, in the order in which the nodes were added. -/
def losses (n : Network α) : List α := (n.graph.nodes.filter (·.isLoss)).map (·.loss)

/-- The losses that the nodes find in a memory that shares nothing. -/
def lossesIn (g : NodeGraph (Node α)) (r : Reader α) : Except Error (List (Option α)) :=
  (g.nodes.filter (·.isLoss)).mapM fun a => a.layer.lossOf a.tensors r

/-- One iteration. Its results are the outputs and the losses. -/
def iterate (rule : String → WeightState α → Action τ (WeightState α))
    (inputs labels : List (Tensor α)) : Action (τ × Network α) (List (Tensor α) × List α) := do
  onNetwork (feed inputs labels)
  let outputs ← onNetwork (forward true)
  let losses := (← get).2.losses
  backward fun node => do let _ ← applyComplete node (rule node.name)
  return (outputs, losses)

variable {n n' : Network α} {asks : (Shape → List Shape) → Prop} {mode : RunMode}
  {inputs labels : List (Tensor α)} {u : Unit}

section Feed

theorem feed_eq_ok_iff : feed inputs labels n = .ok u n' ↔ n.store.hasTensors = true ∧
    inputs.length = n.inputs.length ∧ (labels ≠ [] → labels.length = n.labels.length) ∧
    ∃ s, n.store.setAll (n.feeds inputs labels) = .ok s ∧ n' = { n with store := s } := by
  have hwrites : ∀ s', (do
      (n.inputs.zip inputs).forM fun p => Store.write p.1 p.2
      (n.labels.zip labels).forM fun p => Store.write p.1 p.2 : Action (Store α) PUnit) n.store =
        .ok ⟨⟩ s' ↔ n.store.setAll (n.feeds inputs labels) = .ok s' := by
    intro s'
    rw [Action.bind_eq_ok_iff, feeds, Store.setAll_append, except_bind_eq_ok_iff]
    constructor
    · rintro ⟨_, s₁, h, h'⟩
      exact ⟨s₁, Store.forM_write_eq_ok_iff.mp h, Store.forM_write_eq_ok_iff.mp h'⟩
    · rintro ⟨s₁, h, h'⟩
      exact ⟨⟨⟩, s₁, Store.forM_write_eq_ok_iff.mpr h, Store.forM_write_eq_ok_iff.mpr h'⟩
  unfold feed
  rw [Action.bind_of_ok (Action.get_apply n), Action.guard_eq_ok_iff, Action.guard_eq_ok_iff,
    Action.guard_eq_ok_iff]
  refine and_congr (by simp) (and_congr not_not (and_congr (by simp) ?_))
  constructor
  · intro h
    obtain ⟨s, hs, rfl⟩ := Action.focus_eq_ok_iff.mp h
    exact ⟨s, (hwrites s).mp hs, rfl⟩
  · rintro ⟨s, hs, rfl⟩
    exact onStore_of_ok ((hwrites s).mpr hs)

variable (h : Ready asks mode n)
include h

omit [Scalar α] in
/-- What is fed comes from outside and has a buffer from the first step on. -/
theorem Ready.external_of_feeds {p : TensorRef × Tensor α} (hp : p ∈ n.feeds inputs labels) :
    n.store.IsExternal p.1 ∧ n.store.UsedIn mode p.1 0 ∧ ∃ shape, n.store.Buffered p.1 shape := by
  have hreg := h.prepared.registered
  obtain ⟨hext, ⟨width, hw⟩, hpos⟩ : n.store.IsExternal p.1 ∧
      (∃ width, n.store.HasWidth p.1 width) ∧
      0 < n.store.forwardSteps := by
    rcases List.mem_append.mp hp with hp | hp
    · obtain ⟨q, a, y, ha, hs, hy, heq⟩ := h.prepared.faces.inputs p.1 (List.of_mem_zip hp).1
      have hold := hreg.holds_of_node ha
      obtain ⟨width, hw⟩ := hold.fits.output hy
      rw [← heq]
      exact ⟨(hold.outputs y hy).source hs, ⟨width, hw.value⟩,
        Nat.lt_of_le_of_lt (Nat.zero_le _) (h.forward_lt ha)⟩
    · obtain ⟨q, a, ha, hl⟩ := h.prepared.faces.labels p.1 (List.of_mem_zip hp).1
      have hold := hreg.holds_of_node ha
      exact ⟨hold.label _ hl, hold.fits.label hl,
        Nat.lt_of_le_of_lt (Nat.zero_le _) (h.forward_lt ha)⟩
  refine ⟨hext, ?_, _, h.buffered_of_external hpos hext hw⟩
  obtain ⟨e, he, hs, hrole⟩ := hext
  have hback := Store.backing_of_source_eq_none he hs
  exact .of_stepsOf hback (by rw [hrole]; rfl)
    (Store.mem_stepsOf_iff.mpr ⟨e, hback, (hreg.registry.external _ e he hs hrole).1⟩) (.inr hpos)

omit [Scalar α] in
/-- A graph input or a label that nothing has been written to yet is fed. -/
theorem Ready.external_of_needed {id : TensorRef} (hid : NeededForward n.graph mode 0 id) :
    n.store.IsExternal id := by
  have hreg := h.prepared.registered
  cases hid with
  | label node label => exact (hreg.holds_of_node node).label _ label
  | value node output there _ =>
    exact ((hreg.holds_of_node node).outputs _ (List.mem_of_getElem? output)).source
      (there.resolve_right (Nat.not_lt_zero _))

/-- Feeding ends well if there is a tensor of the right shape for everything that is fed. -/
theorem Ready.feed_iff (hlabels : labels.length = n.labels.length) :
    (∃ n', feed inputs labels n = .ok () n') ↔ inputs.length = n.inputs.length ∧
      ∀ p ∈ n.feeds inputs labels, n.store.shape p.1 = .ok p.2.shape := by
  rw [← Store.setAll_iff fun p hp => (h.external_of_feeds hp).2.2]
  constructor
  · rintro ⟨n', hrun⟩
    obtain ⟨-, hinputs, -, s, hset, -⟩ := feed_eq_ok_iff.mp hrun
    exact ⟨hinputs, s, hset⟩
  · rintro ⟨hinputs, s, hset⟩
    have hallocated : n.store.hasTensors = true := by
      unfold Store.hasTensors
      rw [h.allocated]
      rfl
    exact ⟨_, feed_eq_ok_iff.mpr ⟨hallocated, hinputs, fun _ => hlabels, s, hset, rfl⟩⟩

/-- A network that has been fed holds what is fed and the weights, as far as a forward run is to
read anything. -/
theorem Ready.fed (hall : FeedsAll n) (hlabels : labels.length = n.labels.length)
    (hrun : feed inputs labels n = .ok u n') : ∃ s, n' = { n with store := s } ∧
      n.store.SameLayout s ∧ n.store.SameKept s ∧ Ready asks mode n' ∧
      s.Agrees (NeededForward n.graph mode 0) (n.fedReader inputs labels) := by
  have hreg := h.prepared.registered
  obtain ⟨-, hinputs, -, s, hset, rfl⟩ := feed_eq_ok_iff.mp hrun
  have hl := Store.sameLayout_setAll hset
  have hkeys : (n.feeds inputs labels).map (·.1) = n.inputs ++ n.labels := by
    rw [feeds, List.map_append, List.map_fst_zip (le_of_eq hinputs.symm),
      List.map_fst_zip (le_of_eq hlabels.symm)]
  have hroots : ∀ id, NeededForward n.graph mode 0 id ∨ id ∈ (n.feeds inputs labels).map (·.1) →
      n.store.rootOf id = id := by
    rintro id (hid | hid)
    · exact (h.external_of_needed hid).rootOf_eq
    · obtain ⟨p, hp, rfl⟩ := List.mem_map.mp hid
      exact (h.external_of_feeds hp).1.rootOf_eq
  refine ⟨s, rfl, hl, Store.sameKept_of_setAll hset fun p hp => ?_,
    (Runs.withStore ⟨h, rfl⟩ ⟨hl, Store.loaded_setAll h.prepared.loaded hset⟩).1, ?_⟩
  · obtain ⟨e, he, hk, -⟩ := (h.external_of_feeds hp).2.1
    exact ⟨e, he, hk⟩
  · have hnone : n.store.Agrees (fun _ => False)
        ⟨fun id => .error (.staleHandle id), n.store.shape, n.store.reader.weight⟩ :=
          ⟨fun _ hid => hid.elim, rfl, rfl⟩
    refine hnone.setAll hreg.registry h.placed hset
      (fun p hp => (h.external_of_feeds hp).2.1) (fun id hid hnot => hnot ?_)
        (fun id hid => (h.external_of_needed hid).spans mode 0)
      fun id hid w hw hne hroot => absurd ?_ hne
    · rw [hkeys, List.mem_append]
      cases hid with
      | label node label => exact .inr (hall.labels _ _ _ node label)
      | value node output there _ =>
        exact .inl (hall.inputs _ _ _ node (there.resolve_right (Nat.not_lt_zero _))
          (List.mem_of_getElem? output))
    · rw [hroots id hid, hroots w.1 (.inr (List.mem_map_of_mem hw))] at hroot
      exact hroot

end Feed

/-- A network that differs from `n` in no more than running changes. -/
structure Framed (n m : Network α) : Prop where
  order : m.graph.order = n.graph.order
  nodes : m.graph.nodes.map Node.core = n.graph.nodes.map Node.core
  inputs : m.inputs = n.inputs
  labels : m.labels = n.labels
  outputs : m.outputs = n.outputs
  batchSize : m.batchSize = n.batchSize
  layout : n.store.SameLayout m.store
  confined : ∀ a ∈ m.graph.nodes, a.layer.Confined

theorem steady_framed (n : Network α) : Steady (Framed n) where
  write m id v s h hset := { h with layout := h.layout.trans (Store.sameLayout_of_set hset) }
  keep m p loss notes h := by
    refine { h with nodes := ?_, confined := fun a ha => ?_ }
    · exact (map_modify_eq (f := Node.core) (fun _ => by rfl) _ _).trans h.nodes
    · obtain ⟨i, hi⟩ := List.getElem?_of_mem ha
      rw [getElem?_modifyNode] at hi
      obtain ⟨b, hb, rfl⟩ := Option.map_eq_some_iff.mp hi
      have := h.confined b (List.mem_of_getElem? hb)
      split <;> exact this
  confined m h := h.confined

theorem Ready.framed (h : Ready asks mode n) : Framed n n :=
  ⟨rfl, rfl, rfl, rfl, rfl, rfl, .refl _, fun a ha => by
    obtain ⟨p, hp⟩ := List.getElem?_of_mem ha
    exact Layer.confined_of_isShipped (h.prepared.registered.compiled.shipped p a hp)⟩

/-- A loss is found by every node that looks for one. -/
theorem Fits.exists_lossOf {s : Store α} {layer : Layer α} {handles : Handles} {r : Reader α}
    {found : Option α} (hf : Fits s layer handles) (hloss : layer.loss?.isSome = true)
    (h : layer.lossOf handles r = .ok found) : ∃ l, found = some l := by
  cases hf with
  | loss =>
    obtain ⟨x, -, h⟩ := except_bind_eq_ok_iff.mp h
    obtain ⟨target, -, h⟩ := except_bind_eq_ok_iff.mp h
    obtain ⟨l, -, h⟩ := except_bind_eq_ok_iff.mp h
    cases h
    exact ⟨l, rfl⟩
  | input | fullyConnected | activation | addition | multiout | identity => cases hloss

theorem Flows.lossesIn {r₀ r : Reader α} (h : Flows n mode r₀ n.graph.order r n') :
    lossesIn n.graph r = .ok (n'.losses.map some) := by
  have hreg := h.stage.registered
  have hall : List.Forall₂ (fun a b => (a.isLoss = true ↔ b.isLoss = true) ∧
      (a.isLoss = true → a.layer.lossOf a.tensors r = .ok (some b.loss))) n.graph.nodes
      n'.graph.nodes := by
    refine List.forall₂_iff_get.mpr ⟨?_, fun i hi hi' => ?_⟩
    · simpa using (congrArg List.length h.stage.nodes).symm
    · have ha := List.getElem?_eq_getElem hi
      have hb := List.getElem?_eq_getElem hi'
      have hlayer := (view_of_core (h.stage.core ha hb)).2
      refine ⟨by simp only [List.get_eq_getElem, Node.isLoss, hlayer], fun hloss => ?_⟩
      obtain ⟨found, hfound, hfinds⟩ := h.losses i (hreg.mem_order ha) _ ha
      obtain ⟨l, rfl⟩ := Fits.exists_lossOf (hreg.holds_of_node ha).fits hloss hfound
      rw [List.get_eq_getElem, List.get_eq_getElem, hfinds _ hb l rfl]
      exact hfound
  have hfiltered := List.rel_filter (p := Node.isLoss) (q := Node.isLoss)
    (fun a b hab => hab.1) hall
  refine except_mapM_eq_ok_iff.mpr ?_
  rw [Network.losses, List.map_map, List.forall₂_map_right_iff]
  refine ((List.forall₂_and_left _ _).mpr ⟨fun a ha => (List.mem_filter.mp ha).2, hfiltered⟩).imp ?_
  exact fun a b hab => hab.2.2 hab.1

/-- A forward run of a network that has been fed finds the outputs and the losses of a memory that
shares nothing, and leaves everything that a backward pass is to read. -/
theorem Ready.exists_flow (h : Ready asks mode n) {r₀ : Reader α}
    (hstart : n.store.Agrees (NeededForward n.graph mode 0) r₀) {training : Bool}
    (hmode : training = false ∨ mode = .train) : ∃ outputs n' r,
      forward training n = .ok outputs n' ∧
      Ready asks mode n' ∧ Framed n n' ∧ n.store.SameKept n'.store ∧
      dataflow n.graph (fun _ r => r) r₀ = .ok r ∧ n.outputs.mapM r.value = .ok outputs ∧
      lossesIn n.graph r = .ok (n'.losses.map some) ∧
      (mode = .train → n'.store.Agrees (NeededBackward n.graph n.graph.size) r) := by
  have hreg := h.prepared.registered
  have hperm := hreg.compiled.ordered.perm
  obtain ⟨outputs, n', hrun, h'⟩ := h.exists_forward hmode
  obtain ⟨r, hflows, hdata, houtputs⟩ := h.flows hstart hrun
  have hframed : Framed n n' := by
    have hkept := (steady_framed n).keeps_forward training n h.framed
    rwa [Action.after_of_ok hrun] at hkept
  refine ⟨outputs, n', r, hrun, h', hframed, hflows.kept, hdata, houtputs, hflows.lossesIn, ?_⟩
  rintro rfl
  have hagrees := hflows.agrees
  rw [length_order hperm] at hagrees
  exact hagrees.mono fun id hid => hid.forward hreg

end LayerGraph.Network
