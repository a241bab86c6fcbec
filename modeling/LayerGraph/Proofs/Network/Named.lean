import LayerGraph.Proofs.Network.Descent
import LayerGraph.Proofs.Network.Reflected

/-!
# Feeding by name

Graph inputs and losses are fed by name, and each node of a forward run is seen to put something
out. What is fed to a node and what it puts out is then said without regard to the order of the
nodes.
-/

namespace LayerGraph

open Network

variable {α τ : Type}

/-- What is found for each node of an order is found for the nodes in this order. -/
theorem map_sortedNodes_eq {g : NodeGraph (Node α)} {β : Type} {f : Node α → β} {ys : List β}
    (h : List.Forall₂ (fun p y => ∃ a, g.nodes[p]? = some a ∧ f a = y) g.order ys) :
    ys = g.sortedNodes.map f := by
  unfold NodeGraph.sortedNodes
  generalize g.order = nodes at h
  induction h with
  | nil => rfl
  | cons hy _ ih =>
    obtain ⟨a, ha, rfl⟩ := hy
    rw [ih, List.filterMap_cons_some ha, List.map_cons]

section Output

variable [Scalar α] {g : NodeGraph (Node α)} {s : Store α} {batch : Nat} {r₀ r : Reader α}

/-- The name of a node, with what it has put out. -/
def Node.putOut (a : Node α) (r : Reader α) : Except Error (String × List (Tensor α)) := do
  return (a.name, ← a.tensors.outputs.mapM fun y => r.value y.value)

/-- Every node has put something out at the end of a run that was fed. -/
theorem Solved.exists_putOut (h : Registered g s batch g.order)
    (hs : Solved g (fun _ r => r) r₀ g.order r)
    (hfed : ∀ a ∈ g.nodes, a.isSource = true →
      ∀ y ∈ a.tensors.outputs, ∃ v, r₀.value y.value = .ok v) {p : NodeRef} {a : Node α}
    (ha : g.nodes[p]? = some a) : ∃ seen, a.putOut r = .ok seen := by
  suffices hvalue : ∀ y ∈ a.tensors.outputs, ∃ v, r.value y.value = .ok v by
    obtain ⟨vs, hvs⟩ := except_mapM_exists hvalue
    exact ⟨(a.name, vs), by rw [Node.putOut, hvs]; rfl⟩
  intro y hy
  cases hsource : a.isSource with
  | true =>
    rw [hs.source h ha hsource hy]
    exact hfed a (List.mem_of_getElem? ha) hsource y hy
  | false =>
    obtain ⟨vs, hvs, -⟩ := hs.results p (h.mem_order ha) a ha
    have hlength := Layer.length_of_results (h.holds_of_node ha).fits hvs
    rw [show a.layer.isSource = false from hsource, if_neg Bool.false_ne_true] at hlength
    obtain ⟨k, hk⟩ := List.getElem?_of_mem hy
    exact ⟨_, hs.value_of_results (h.mem_order ha) ha hvs hk
      (List.getElem?_eq_getElem (hlength ▸ (List.getElem?_eq_some_iff.mp hk).1))⟩

end Output

namespace Network

variable [Scalar α] {n n' m k : Network α} {asks : (Shape → List Shape) → Prop} {mode : RunMode}
  {r r' r₀ : Reader α} {done rest : List NodeRef} {p : NodeRef} {a : Node α}

/-- Run forward, and see what each node has put out once it has run. -/
def forwardSeen (training : Bool) : Action (Network α) (List (String × List (Tensor α))) := do
  Action.read checkReady
  if training ∧ (← get).mode = .inference then throw (.misconfigured .forwardMode)
  (← get).graph.order.mapM fun id => do
    runHook id (Layer.forward · training)
    Action.read fun n => do (← n.node id).putOut n.store.reader

/-- Feed each graph input and each loss what is given for its name. -/
def feedNamed (x t : String → Tensor α) : Action (Network α) Unit := do
  let nodes := (← get).graph.sortedNodes
  feed ((nodes.filter (·.isSource)).map (x ·.name)) ((nodes.filter (·.isLoss)).map (t ·.name))

/-- Nobody writes an output once its node has run. -/
theorem Flows.value_output (h : Flows n mode r₀ (done ++ [p]) r m)
    (hsplit : n.graph.order = done ++ p :: rest)
    (hdata : dataflow n.graph (fun _ r => r) r₀ = .ok r') (ha : n.graph.nodes[p]? = some a)
    {y : Wire} (hy : y ∈ a.tensors.outputs) : r'.value y.value = r.value y.value := by
  have hreg := h.stage.registered
  have hrest : rest.foldlM (flowNode n.graph fun _ r => r) r = .ok r' := by
    rw [dataflow, hsplit, List.append_cons, List.foldlM_append, h.computes, except_ok_bind] at hdata
    exact hdata
  refine value_of_flow hrest fun q hq b hb z hz heq => ?_
  obtain ⟨i, hi⟩ := List.getElem?_of_mem hy
  obtain ⟨j, hj⟩ := List.getElem?_of_mem hz
  obtain ⟨rfl, -⟩ := hreg.output_eq_of_owned ⟨b, hb, hj⟩ ⟨a, ha, hi⟩ z.value List.mem_cons_self
    (by rw [heq]; exact List.mem_cons_self)
  have hnodup := nodup_order hreg.compiled.ordered.perm
  rw [hsplit] at hnodup
  exact (List.nodup_cons.mp (List.nodup_append.mp hnodup).2.1).1 hq

/-- What a node has put out is there once it has run. -/
theorem Flows.seen (h : Flows n mode r₀ (done ++ [p]) r m)
    (hsplit : n.graph.order = done ++ p :: rest)
    (hdata : dataflow n.graph (fun _ r => r) r₀ = .ok r') (ha : n.graph.nodes[p]? = some a) :
    (do (← m.node p).putOut m.store.reader : Except Error _) = a.putOut r' := by
  have hreg := h.stage.registered
  have hplace := place_of_split (nodup_order hreg.compiled.ordered.perm) hsplit
  obtain ⟨b, hb, heq⟩ := getElem?_of_map_eq h.stage.nodes.symm ha
  obtain ⟨hname, htensors⟩ : b.name = a.name ∧ b.tensors = a.tensors := by
    obtain ⟨-, ht, hn, -⟩ := layer_of_task (a := a) (b := b) (congrArg (fun c => (c.1, c.2.2)) heq)
    exact ⟨hn, ht⟩
  rw [node_eq_ok_iff.mpr hb, except_ok_bind]
  unfold Node.putOut
  rw [hname, htensors, except_mapM_congr fun y hy => ?_]
  obtain ⟨k, hk⟩ := List.getElem?_of_mem hy
  rw [h.value_output hsplit hdata ha hy]
  refine h.agrees.value _ (.value ha hk (.inr ?_) ?_)
  · rw [hplace, List.length_append]
    exact Nat.lt_succ_self _
  · cases hopen : a.isTerminal with
    | true => exact .inr (.inl rfl)
    | false =>
      obtain ⟨q, i, hr⟩ := hreg.exists_reader ha hk hopen
      refine .inl ⟨q, i, hr, ?_⟩
      have := hreg.compiled.ordered.before _ _ _ _ hr
      rw [List.length_append, List.length_singleton, ← hplace]
      omega

/-- A forward run that is watched ends as it does otherwise, and each node is seen to put out what a
run without sharing finds. -/
theorem Ready.exists_seen (h : Ready asks mode n)
    (hstart : n.store.Agrees (NeededForward n.graph mode 0) r₀)
    (hfed : ∀ a ∈ n.graph.nodes, a.isSource = true →
      ∀ y ∈ a.tensors.outputs, ∃ v, r₀.value y.value = .ok v)
    (hdata : dataflow n.graph (fun _ r => r) r₀ = .ok r) {training : Bool}
    {outputs : List (Tensor α)} (hrun : forward training n = .ok outputs n') :
    ∃ seen, forwardSeen training n = .ok seen n' ∧
    (seen.map Except.ok).Perm (n.graph.nodes.map (·.putOut r)) := by
  have hreg := h.prepared.registered
  have hperm := hreg.compiled.ordered.perm
  have hsolved := solved_of_dataflow hreg ⟨fun _ _ => rfl, fun _ _ _ hw => hw⟩ hdata
  obtain ⟨_, _, hready, hrun⟩ := Action.bind_eq_ok_iff.mp hrun
  obtain ⟨-, rfl⟩ := Action.read_eq_ok_iff.mp hready
  obtain ⟨_, _, hget, hrun⟩ := Action.bind_eq_ok_iff.mp hrun
  cases hget
  obtain ⟨hguard, hrun⟩ := Action.guard_eq_ok_iff.mp hrun
  obtain ⟨_, _, hget, hrun⟩ := Action.bind_eq_ok_iff.mp hrun
  cases hget
  obtain ⟨_, n₁, hloop, hrun⟩ := Action.bind_eq_ok_iff.mp hrun
  obtain ⟨-, rfl⟩ := Action.read_eq_ok_iff.mp hrun
  obtain ⟨seen, hseen, hall⟩ :=
    Action.exists_watched (Q := fun p out => ∃ a, n.graph.nodes[p]? = some a ∧ a.putOut r = .ok out)
    (fun p n => do (← n.node p).putOut n.store.reader) (fun done m => ∃ r,
      Flows n mode r₀ done r m) hloop
    ⟨r₀, h.stage, .refl _, .refl _, rfl, rfl, hstart, nofun⟩
      fun done p rest m m' u hsplit ⟨r₁, hm⟩ hstep => by
      obtain ⟨r₂, hm'⟩ := hm.step hsplit hstep
      obtain ⟨a, ha⟩ := exists_node_of_split hperm hsplit
      obtain ⟨out, hout⟩ := hsolved.exists_putOut hreg hfed ha
      exact ⟨⟨r₂, hm'⟩, out, (hm'.seen hsplit hdata ha).trans hout, a, ha, hout⟩
  refine ⟨seen, ?_, ?_⟩
  · unfold forwardSeen
    rw [Action.bind_of_ok hready, Action.bind_of_ok (Action.get_apply _), if_neg hguard]
    exact hseen
  · rw [map_sortedNodes_eq (f := (·.putOut r)) (List.forall₂_map_right_iff.mpr hall)]
    exact (sortedNodes_perm hperm).map _

end Network

section Fed

variable [Scalar α] {n : Network α} {asks : (Shape → List Shape) → Prop} {mode : RunMode}
  {x t : String → Tensor α}

/-- What a node is fed if something is fed by name: to the outputs of a graph input, and to the
label of a loss. -/
def Node.fed (x t : String → Tensor α) (a : Node α) : List (TensorRef × Tensor α) :=
  (if a.isSource then a.tensors.outputs.map fun y => (y.value, x a.name) else []) ++
    a.tensors.label.toList.map (·, t a.name)

omit [Scalar α] in
theorem Node.mem_fed_iff {a : Node α} {w : TensorRef × Tensor α} : w ∈ a.fed x t ↔
    (a.isSource = true ∧ ∃ y ∈ a.tensors.outputs, w = (y.value, x a.name)) ∨ ∃ l,
      a.tensors.label = some l ∧ w = (l, t a.name) := by
  unfold Node.fed
  cases hs : a.isSource <;> simp [eq_comm]

omit [Scalar α] in
/-- What is fed to a node is its own. -/
theorem Node.owned_of_fed {a : Node α} {w : TensorRef × Tensor α} (hw : w ∈ a.fed x t) :
    w.1 ∈ a.tensors.owned := by
  rcases Node.mem_fed_iff.mp hw with ⟨-, y, hy, rfl⟩ | ⟨l, hl, rfl⟩
  · exact List.mem_append_left _ (List.mem_flatMap.mpr ⟨y, hy, List.mem_cons_self⟩)
  · exact List.mem_append_right _ (by rw [hl]; exact List.mem_cons_self)

omit [Scalar α] in
/-- A graph input is fed at its only output, and a loss at its label. -/
theorem Fits.faces {s : Store α} {layer : Layer α} {handles : Handles} (hf : Fits s layer handles) :
    (layer.isSource = true → handles.label = none ∧ ∃ y, handles.outputs = [y]) ∧
    handles.label.isSome = layer.loss?.isSome := by
  cases hf with
  | input => exact ⟨fun _ => ⟨rfl, _, rfl⟩, rfl⟩
  | fullyConnected | activation | addition | multiout | identity | loss => exact ⟨nofun, rfl⟩

omit [Scalar α] in
/-- All that is fed to a node is one tensor. -/
theorem Node.snd_of_fed {s : Store α} {a : Node α} (hf : Fits s a.layer a.tensors)
    {w : TensorRef × Tensor α} (hw : w ∈ a.fed x t) :
    w.2 = if a.isSource then x a.name else t a.name := by
  rcases Node.mem_fed_iff.mp hw with ⟨hs, y, -, rfl⟩ | ⟨l, hl, rfl⟩
  · exact (if_pos hs).symm
  · refine (if_neg fun hs : a.isSource = true => ?_).symm
    rw [(hf.faces.1 hs).1] at hl
    cases hl

namespace Network

omit [Scalar α] in
/-- All graph inputs and all losses can be fed. -/
structure Exposed (n : Network α) : Prop where
  inputs : n.inputs = (n.graph.sortedNodes.filter (·.isSource)).filterMap fun a =>
    a.tensors.outputs.head?.map (·.value)
  labels : n.labels = (n.graph.sortedNodes.filter (·.isLoss)).filterMap (·.tensors.label)

omit [Scalar α] in
theorem Exposed.of_tasks {m : Network α} (h : Exposed n) (htasks : SameTasks n.graph m.graph)
    (hinputs : m.inputs = n.inputs) (hlabels : m.labels = n.labels) : Exposed m := by
  have hsorted := sortedNodes_of_tasks htasks
  have hall : ∀ {accept : Node α → Bool} {β : Type} (f : Handles → Option β),
      (∀ a b : Node α, b.layer = a.layer → accept b = accept a) →
      (m.graph.sortedNodes.filter accept).filterMap (fun a => f a.tensors) =
        (n.graph.sortedNodes.filter accept).filterMap fun a => f a.tensors := by
    intro accept β f haccept
    have hfiltered := filter_of_tasks hsorted fun a b htask => haccept a b (layer_of_task htask).1
    have hmap := congrArg (List.filterMap fun t : _ × Handles => f t.2) hfiltered
    rwa [List.filterMap_map, List.filterMap_map] at hmap
  refine ⟨?_, ?_⟩
  · rw [hinputs, h.inputs, hall (fun handles => handles.outputs.head?.map (·.value))
      fun a b hlayer => by rw [Node.isSource, Node.isSource, hlayer]]
  · rw [hlabels, h.labels, hall (·.label)
      fun a b hlayer => by rw [Node.isLoss, Node.isLoss, hlayer]]

omit [Scalar α] in
theorem mem_sortedNodes {g : NodeGraph (Node α)} {s : Store α} {batch : Nat}
    (h : Registered g s batch g.order) {a : Node α} :
    a ∈ g.sortedNodes ↔ a ∈ g.nodes ∧ Fits s a.layer a.tensors := by
  rw [(sortedNodes_perm h.compiled.ordered.perm).mem_iff]
  refine ⟨fun ha => ⟨ha, ?_⟩, And.left⟩
  obtain ⟨p, hp⟩ := List.getElem?_of_mem ha
  exact (h.holds_of_node hp).fits

section Exposed

variable (he : Exposed n) (h : Registered n.graph n.store n.batchSize n.graph.order)
include h

omit [Scalar α] in
/-- Every graph input has an output to be fed, and every loss a label. -/
theorem isSome_faces : (∀ a ∈ n.graph.sortedNodes.filter (·.isSource),
    (a.tensors.outputs.head?.map (·.value)).isSome = true) ∧
    ∀ a ∈ n.graph.sortedNodes.filter (·.isLoss), a.tensors.label.isSome = true := by
  refine ⟨fun a ha => ?_, fun a ha => ?_⟩
  · obtain ⟨ha, hs⟩ := List.mem_filter.mp ha
    obtain ⟨-, y, hy⟩ := ((mem_sortedNodes h).mp ha).2.faces.1 hs
    rw [hy]
    rfl
  · obtain ⟨ha, hl⟩ := List.mem_filter.mp ha
    exact ((mem_sortedNodes h).mp ha).2.faces.2.trans hl

include he

omit [Scalar α] in
/-- By name as many tensors are fed as there are graph inputs and labels. -/
theorem Exposed.length :
    ((n.graph.sortedNodes.filter (·.isSource)).map (x ·.name)).length = n.inputs.length ∧
    ((n.graph.sortedNodes.filter (·.isLoss)).map (t ·.name)).length = n.labels.length := by
  rw [he.inputs, he.labels, List.length_map, List.length_map]
  exact ⟨(List.filterMap_length_eq_length.mpr (isSome_faces h).1).symm,
    (List.filterMap_length_eq_length.mpr (isSome_faces h).2).symm⟩

omit [Scalar α] in
/-- What is fed by name is what the nodes are fed. -/
theorem Exposed.mem_feeds_iff {w : TensorRef × Tensor α} :
    w ∈ n.feeds ((n.graph.sortedNodes.filter (·.isSource)).map (x ·.name))
      ((n.graph.sortedNodes.filter (·.isLoss)).map (t ·.name)) ↔
      ∃ a ∈ n.graph.nodes, w ∈ a.fed x t := by
  rw [feeds, he.inputs, he.labels, zip_filterMap_map _ (isSome_faces h).1,
    zip_filterMap_map _ (isSome_faces h).2, List.mem_append, List.mem_filterMap, List.mem_filterMap]
  constructor
  · rintro (⟨a, ha, hw⟩ | ⟨a, ha, hw⟩)
    · obtain ⟨ha, hs⟩ := List.mem_filter.mp ha
      obtain ⟨ha, hf⟩ := (mem_sortedNodes h).mp ha
      obtain ⟨-, y, hy⟩ := hf.faces.1 hs
      rw [hy] at hw
      exact ⟨a, ha, Node.mem_fed_iff.mpr (.inl ⟨hs, y, by simp [hy], (Option.some.inj hw).symm⟩)⟩
    · obtain ⟨ha, -⟩ := List.mem_filter.mp ha
      obtain ⟨l, hl, hw⟩ := Option.map_eq_some_iff.mp hw
      exact ⟨a, ((mem_sortedNodes h).mp ha).1, Node.mem_fed_iff.mpr (.inr ⟨l, hl, hw.symm⟩)⟩
  · rintro ⟨a, ha, hw⟩
    have hsorted := (sortedNodes_perm h.compiled.ordered.perm).mem_iff.mpr ha
    have hf := ((mem_sortedNodes h).mp hsorted).2
    rcases Node.mem_fed_iff.mp hw with ⟨hs, y, hy, rfl⟩ | ⟨l, hl, rfl⟩
    · refine .inl ⟨a, List.mem_filter.mpr ⟨hsorted, hs⟩, ?_⟩
      obtain ⟨-, y', hy'⟩ := hf.faces.1 hs
      rw [hy'] at hy ⊢
      rw [List.mem_singleton.mp hy]
      rfl
    · refine .inr ⟨a, List.mem_filter.mpr ⟨hsorted, ?_⟩, by rw [hl]; rfl⟩
      exact hf.faces.2.symm.trans (by rw [hl]; rfl)

omit [Scalar α] in
theorem Exposed.feedsAll : FeedsAll n := by
  have hmem : ∀ {a : Node α} {p : Nat}, n.graph.nodes[p]? = some a → a ∈ n.graph.sortedNodes :=
    fun ha =>
    (sortedNodes_perm h.compiled.ordered.perm).mem_iff.mpr (List.mem_of_getElem? ha)
  refine ⟨fun p a y ha hs hy => ?_, fun p a l ha hl => ?_⟩
  · rw [he.inputs, List.mem_filterMap]
    refine ⟨a, List.mem_filter.mpr ⟨hmem ha, hs⟩, ?_⟩
    obtain ⟨-, y', hy'⟩ := (h.holds_of_node ha).fits.faces.1 hs
    rw [hy'] at hy ⊢
    rw [List.mem_singleton.mp hy]
    rfl
  · rw [he.labels, List.mem_filterMap]
    exact ⟨a, List.mem_filter.mpr ⟨hmem ha, (h.holds_of_node ha).fits.faces.2.symm.trans
        (by rw [hl]; rfl)⟩, hl⟩

end Exposed

/-- What a forward run starts from if something is fed by name. -/
def namedReader (n : Network α) (x t : String → Tensor α) : Reader α :=
  n.fedReader ((n.graph.sortedNodes.filter (·.isSource)).map (x ·.name))
    ((n.graph.sortedNodes.filter (·.isLoss)).map (t ·.name))

theorem weight_namedReader (n : Network α) (x t : String → Tensor α) :
    (n.namedReader x t).weight = n.store.reader.weight :=
  Reader.weight_setAll

/-- What is fed to a node is what is found there. -/
theorem Exposed.value_of_fed (he : Exposed n)
    (h : Registered n.graph n.store n.batchSize n.graph.order) {p : NodeRef} {a : Node α}
    (ha : n.graph.nodes[p]? = some a) {w : TensorRef × Tensor α} (hw : w ∈ a.fed x t) :
    (n.namedReader x t).value w.1 = .ok w.2 := by
  have hfed := (he.mem_feeds_iff h).mpr ⟨a, List.mem_of_getElem? ha, hw⟩
  obtain ⟨w', hw', heq, hvalue⟩ := Reader.exists_value_setAll
    (r := ⟨fun id => .error (.staleHandle id), n.store.shape, n.store.reader.weight⟩)
      (List.mem_map_of_mem hfed)
  obtain ⟨b, hb, hw'⟩ := (he.mem_feeds_iff h).mp hw'
  obtain ⟨q, hq⟩ := List.getElem?_of_mem hb
  obtain rfl := h.node_eq_of_owned ha hq (Node.owned_of_fed hw) (heq ▸ Node.owned_of_fed hw')
  obtain rfl := Option.some.inj (ha.symm.trans hq)
  have hf := (h.holds_of_node ha).fits
  refine hvalue.trans ?_
  rw [Node.snd_of_fed hf hw, Node.snd_of_fed hf hw']

/-- Feeding by name ends well if there is a tensor of the right shape for everything that is fed. -/
theorem Ready.feedNamed_iff (hr : Ready asks mode n) (he : Exposed n) :
    (∃ m, feedNamed x t n = .ok () m) ↔
    ∀ a ∈ n.graph.nodes, ∀ w ∈ a.fed x t, n.store.shape w.1 = .ok w.2.shape := by
  have h := hr.prepared.registered
  obtain ⟨hinputs, hlabels⟩ := he.length h (x := x) (t := t)
  refine (hr.feed_iff hlabels).trans ⟨fun ⟨_, hall⟩ a ha w hw => ?_,
    fun hall => ⟨hinputs, fun w hw => ?_⟩⟩
  · exact hall w ((he.mem_feeds_iff h).mpr ⟨a, ha, hw⟩)
  · obtain ⟨a, ha, hw⟩ := (he.mem_feeds_iff h).mp hw
    exact hall a ha w hw

/-- A network that has been fed by name. -/
theorem Ready.fedNamed (hr : Ready asks mode n) (he : Exposed n) {m : Network α}
    (hrun : feedNamed x t n = .ok () m) :
    Framed n m ∧ Ready asks mode m ∧
    m.store.Agrees (NeededForward m.graph mode 0) (n.namedReader x t) ∧ m.graph = n.graph := by
  have h := hr.prepared.registered
  obtain ⟨s, rfl, hl, -, hready, hagrees⟩ :=
    hr.fed (he.feedsAll h) (he.length h (x := x) (t := t)).2 hrun
  exact ⟨{ hr.framed with layout := hl }, hready, hagrees, rfl⟩

variable (asks mode x t) in
/-- A network that was fed by name and has run forward, beside a run without sharing. -/
structure Ran (n k : Network α) (r : Reader α) : Prop where
  ready : Ready asks mode k
  framed : Framed n k
  data : dataflow n.graph (fun _ r => r) (n.namedReader x t) = .ok r
  losses : lossesIn n.graph r = .ok (k.losses.map some)
  agrees : mode = .train → k.store.Agrees (NeededBackward n.graph n.graph.size) r

/-- A network that has been fed by name runs forward, and each node is seen to put out what a run
without sharing finds. -/
theorem Ready.exists_ran (hr : Ready asks mode n) (he : Exposed n) {m : Network α}
    (hfeed : feedNamed x t n = .ok () m) {training : Bool}
    (hmode : training = false ∨ mode = .train) : ∃ outputs k seen r,
        forward training m = .ok outputs k ∧
      forwardSeen training m = .ok seen k ∧ Ran asks mode x t n k r ∧
      (seen.map Except.ok).Perm (n.graph.nodes.map (·.putOut r)) := by
  obtain ⟨hframed, hready, hagrees, hgraph⟩ := hr.fedNamed he hfeed
  obtain ⟨outputs, k, r, hrun, hk, hframed', -, hdata, -, hlosses, hback⟩ :=
    hready.exists_flow hagrees hmode
  obtain ⟨seen, hseen, hperm⟩ := hready.exists_seen hagrees (fun a ha hs y hy => by
    rw [hgraph] at ha
    obtain ⟨p, hp⟩ := List.getElem?_of_mem ha
    exact ⟨_, he.value_of_fed hr.prepared.registered hp (w := (y.value, x a.name))
      (Node.mem_fed_iff.mpr (.inl ⟨hs, y, hy, rfl⟩))⟩)
    hdata hrun
  rw [hgraph] at hdata hlosses hback hperm
  exact ⟨outputs, k, seen, r, hrun, hseen, ⟨hk, hframed.trans hframed', hdata, hlosses, hback⟩,
    hperm⟩

section Ran

variable {k l : Network α} {r : Reader α} (hk : Ran asks .train x t n k r)
include hk

/-- What a network that has run forward holds for its backward pass has the shapes of its
tensors. -/
theorem Ran.readsShapes (h : Registered n.graph n.store n.batchSize n.graph.order) :
    ReadsShapes n.graph n.store r := by
  have hagrees := hk.agrees rfl
  have hl := hk.framed.layout
  have hwidth : ∀ {id : TensorRef} {v : Tensor α} {width : Nat}, n.store.HasWidth id width →
      k.store.get id = .ok v → n.store.shape id = .ok v.shape := by
    rintro id v width ⟨e, he, -, -⟩ hv
    exact Store.shape_eq_ok_iff.mpr ⟨e, he,
      (Store.shape_of_get hk.ready.prepared.loaded ((hl.backing id).trans he) hv).symm⟩
  refine ⟨hagrees.shape.symm.trans (Store.shape_of_sameLayout hl), fun id v hid hv => ?_,
    fun w v shape hw hv => ?_⟩
  · rw [← hagrees.value id hid] at hv
    cases hid.forward h with
    | label node label =>
      obtain ⟨width, hw⟩ := (h.holds_of_node node).fits.label label
      exact hwidth hw hv
    | value node output there needed =>
      obtain ⟨width, hw⟩ := (h.holds_of_node node).fits.output (List.mem_of_getElem? output)
      exact hwidth hw.value hv
  · obtain ⟨r', hr', hbuffered⟩ := hk.ready.buffered_of_hasWeight (hl.extends.hasWeight hw)
    obtain ⟨v', hv', hshape⟩ := (Store.Held.refl hk.ready.prepared.loaded).get hbuffered
    rw [← hagrees.weight] at hv
    change (do k.store.get (← k.store.weight w).value) = _ at hv
    rw [Store.weight_eq_ok_iff.mpr hr', except_ok_bind, hv'] at hv
    rwa [← Except.ok.inj hv]

variable {rule : String → WeightState α → Action τ (WeightState α)} {own own' : τ}

/-- A backward pass ends well if the rule does and keeps shapes. -/
theorem Ran.exists_backward (hrule : ∀ name, Store.KeepsShapes asks (rule name)) (own : τ) :
    ∃ s, backward (handOver rule) ((own, []), k) = .ok () s := by
  obtain ⟨⟨own', log⟩, l, hrun, -⟩ := hk.ready.exists_backward
    (fun node Q hQ => keeps_applyComplete_visit hQ node (recorded (rule node.name) node.name))
    (fun n p a hn ha => (hn.returns_applyComplete ha
      (keepsShapes_recorded (hrule a.name) a.name)).bind
      fun _ _ => Action.returns_pure trivial) (own, [])
  exact ⟨_, hrun⟩

/-- What a backward pass that leaves weights as they are hands over is what nodes give without
sharing. -/
theorem Ran.handsOver (h : Registered n.graph n.store n.batchSize n.graph.order)
    (hapart : n.store.StatesApart)
    (hleaves : ∀ name old own new own', rule name old own = .ok new own' → new.value = old.value)
    {log : List (Handover α)}
    (hrun : backward (handOver rule) ((own, []), k) = .ok () ((own', log), l)) :
    ∃ given record r', Returned n.graph r n.graph.order.reverse r' given ∧
      log.map (·.update) = record.map (·.2.1) ∧
      Replaces given record k l := by
  have htasks := hk.framed.sameTasks
  have hapart' : k.store.StatesApart := by
    unfold Store.StatesApart
    rw [hk.framed.layout.weights]
    exact hapart
  obtain ⟨seen, hseen⟩ := hk.ready.exists_statesSeen
  have hagrees : k.store.Agrees (NeededBackward k.graph k.graph.size) r := by
    rw [htasks.size]
    exact (hk.agrees rfl).mono fun id hid => htasks.neededBackward hid
  obtain ⟨given, record, hgiven, hlog, hreplaces⟩ :=
    hk.ready.handsOver hapart' hleaves hagrees (statesSeen_eq_ok_iff.mp hseen).2 hrun
  rw [backflow_of_tasks htasks] at hgiven
  obtain ⟨r', hback⟩ := returned_of_backflow h hgiven
  exact ⟨given, record, r', hback, hlog, hreplaces⟩

end Ran

end Network

end Fed

end LayerGraph
