import LayerGraph.Proofs.Network.Descent
import LayerGraph.Proofs.Network.Initial
import LayerGraph.Proofs.Network.Reflected

/-!
# Gradients of weights that are not shared

A weight that no node shares is given to by its only owner, so that counterparts in graphs that
mirror each other give the same to their weights, and a pass that leaves weights as they are hands
over the same gradient under each name.
-/

namespace LayerGraph

open Network

variable {α τ : Type}

theorem lookup_zip {β : Type} {ws : List WeightRef} {cs : List β} (hd : ws.Nodup) {i : Nat}
    {w : WeightRef} (hw : ws[i]? = some w) : (ws.zip cs).lookup w = cs[i]? := by
  cases hc : cs[i]? with
  | some c =>
    have hnodup : ((ws.zip cs).map (·.1)).Nodup := by
      rw [map_fst_zip_eq_take]
      exact hd.sublist (List.take_sublist ..)
    exact (lookup_eq_some_iff_mem hnodup).mpr
      (List.mem_of_getElem? (List.getElem?_zip_eq_some.mpr ⟨hw, hc⟩))
  | none =>
    cases hl : (ws.zip cs).lookup w with
    | none => rfl
    | some c =>
      obtain ⟨j, hj⟩ := List.getElem?_of_mem (mem_of_lookup hl)
      obtain ⟨hwj, hcj⟩ := List.getElem?_zip_eq_some.mp hj
      obtain rfl := (List.getElem?_inj (List.getElem?_eq_some_iff.mp hw).1 hd).mp
        (hw.trans hwj.symm)
      rw [hc] at hcj
      cases hcj

/-- A node has no weight twice. -/
theorem Fits.nodup_weights {s : Store α} {layer : Layer α} {handles : Handles}
    (hf : Fits s layer handles) : handles.weights.Nodup := by
  cases hf with
  | fullyConnected _ _ _ _ ne => simpa using ne
  | input | activation | addition | multiout | identity | loss => exact List.nodup_nil

/-- A weight that no node shares is the weight of one node, under one of the names that the layer
declares. -/
theorem Registered.eq_of_weight {g : NodeGraph (Node α)} {s : Store α} {batch : Nat}
    (h : Registered g s batch g.order) (hown : ∀ a ∈ g.nodes, a.sharedFrom = none) {p q : Nat}
    {a b : Node α} {w : WeightRef} (ha : g.nodes[p]? = some a) (hb : g.nodes[q]? = some b)
    (hw : w ∈ a.tensors.weights) (hw' : w ∈ b.tensors.weights) : p = q := by
  have howner : ∀ {p : Nat} {a : Node α}, g.nodes[p]? = some a → w ∈ a.tensors.weights →
      ∃ name ∈ a.layer.weightNames, s.HasWeightName w (a.name ++ ":" ++ name) := by
    intro p a ha hw
    obtain ⟨name, hmem, hname⟩ := exists_mem_of_forall₂ (h.holds_of_node ha).weights.flip hw
    rw [Node.owner, hown a (List.mem_of_getElem? ha)] at hname
    exact ⟨name, hmem, hname⟩
  obtain ⟨name, hmem, hname⟩ := howner ha hw
  obtain ⟨name', hmem', hname'⟩ := howner hb hw'
  refine getElem?_inj_of_nodup_map h.compiled.wired.distinct ha hb ?_
  have heq := hname.name_eq hname'
  have hnames : ∀ {layer : Layer α} {name : String}, name ∈ layer.weightNames → name = "weight" ∨
      name = "bias" := by
    intro layer name hname
    cases layer with
    | fullyConnected => simpa [Layer.weightNames] using hname
    | input | activation | addition | multiout | identity | loss | custom => cases hname
  obtain rfl | rfl := hnames hmem <;> obtain rfl | rfl := hnames hmem'
  · exact owner_eq_of_weightName heq
  · exact absurd heq (weightName_ne_biasName _ _)
  · exact absurd heq.symm (weightName_ne_biasName _ _)
  · exact owner_eq_of_weightName heq

section Given

variable [Scalar α] {g g' : NodeGraph (Node α)} {s s' : Store α} {batch : Nat}

theorem Node.gives_of_not_mem {a : Node α} {r : Reader α} {w : WeightRef}
    (hw : w ∉ a.tensors.weights) : a.gives r w = [] := by
  unfold Node.gives
  split
  · split
    · rw [Option.toList_eq_nil_iff]
      refine Option.eq_none_iff_forall_not_mem.mpr fun c hc => hw ?_
      exact (List.of_mem_zip (mem_of_lookup hc)).1
    · rfl
  · rfl

/-- Where nothing else has the weight of a node, its gradient is given what the node gives. -/
theorem Returned.given_eq {r t : Reader α} {given : WeightRef → List (Tensor α)}
    (hback : Returned g r g.order.reverse t given) (h : Registered g s batch g.order)
    (hown : ∀ a ∈ g.nodes, a.sharedFrom = none) {p : Nat} {a : Node α} {w : WeightRef}
    (ha : g.nodes[p]? = some a) (hw : w ∈ a.tensors.weights) : given w = a.gives t w := by
  have hnone : ∀ {nodes : List NodeRef}, p ∉ nodes → nodes.flatMap (givenBy g t w) = [] := by
    refine fun hp => List.flatMap_eq_nil_iff.mpr fun q hq => ?_
    unfold givenBy
    cases hb : g.nodes[q]? with
    | none => rfl
    | some b =>
      exact Node.gives_of_not_mem fun hw' => hp (h.eq_of_weight hown ha hb hw hw' ▸ hq)
  have hnodup : g.order.reverse.Nodup :=
    List.nodup_reverse.mpr (nodup_order h.compiled.ordered.perm)
  obtain ⟨done, rest, hsplit⟩ := List.append_of_mem (List.mem_reverse.mpr (h.mem_order ha))
  rw [hsplit] at hnodup
  obtain ⟨hdone, hrest⟩ : p ∉ done ∧ p ∉ rest := by
    rw [List.nodup_append] at hnodup
    exact ⟨fun hp => hnodup.2.2 p hp p List.mem_cons_self rfl, (List.nodup_cons.mp hnodup.2.1).1⟩
  rw [hback.given, hsplit, List.flatMap_append, hnone hdone, List.flatMap_cons, hnone hrest,
    givenBy, ha, Option.elim_some, List.append_nil, List.nil_append]

theorem gradientOf_eq_iff {given given' : WeightRef → List (Tensor α)} {w w' : WeightRef}
    (h : given' w' = given w) {G : Tensor α} :
    gradientOf given' w' = .ok G ↔ gradientOf given w = .ok G := by
  rw [gradientOf, gradientOf, h]
  cases given w with
  | nil => exact iff_of_false nofun nofun
  | cons c cs => exact Iff.rfl

end Given

namespace Reflects

variable {g g' : NodeGraph (Node α)} {s s' : Store α} {batch : Nat} {π : Equiv.Perm Nat}
  {σ : Nat → Equiv.Perm Nat} (h : Reflects g g' s s' batch π σ)
include h

/-- Weights at one place in counterparts have one name. -/
theorem hasWeightName_iff {p i : Nat} {a b : Node α} {w w' : WeightRef} (ha : g.nodes[p]? = some a)
    (hb : g'.nodes[π p]? = some b) (hw : a.tensors.weights[i]? = some w)
    (hw' : b.tensors.weights[i]? = some w') {name : String} :
    s'.HasWeightName w' name ↔ s.HasWeightName w name := by
  obtain ⟨short, hshort, hname⟩ :=
    getElem?_of_forall₂ (h.registered.holds_of_node ha).weights.flip hw
  obtain ⟨short', hshort', hname'⟩ :=
    getElem?_of_forall₂ (h.registered'.holds_of_node hb).weights.flip hw'
  rw [h.layer_eq ha hb, hshort] at hshort'
  obtain rfl := Option.some.inj hshort'
  rw [Node.owner, h.name_eq ha hb, h.sharedFrom_eq ha hb] at hname'
  exact ⟨fun hw => hw.name_eq hname' ▸ hname, fun hw => hw.name_eq hname ▸ hname'⟩

variable [Scalar α] {r₀ r₀' r r' t t' : Reader α} {given given' : WeightRef → List (Tensor α)}
  (hown : ∀ a ∈ g.nodes, a.sharedFrom = none) (hown' : ∀ a ∈ g'.nodes, a.sharedFrom = none)
  (hstart : SameStart g g' π r₀ r₀') (hs : Solved g (fun _ r => r) r₀ g.order r)
  (hs' : Solved g' (fun _ r => r) r₀' g'.order r') (hread : ReadsShapes g s r)
  (hread' : r'.shape = s'.shape) (hback : Returned g r g.order.reverse t given)
  (hback' : Returned g' r' g'.order.reverse t' given') (hcomm : ∀ x y : α, x + y = y + x)
  (hassoc : ∀ x y z : α, x + y + z = x + (y + z))
include hown hown' hstart hs hs' hread hread' hback hback' hcomm hassoc

/-- Counterparts give the same to their weights. -/
theorem given_eq {p i : Nat} {a b : Node α} {w w' : WeightRef} (ha : g.nodes[p]? = some a)
    (hb : g'.nodes[π p]? = some b) (htrains : a.trains = true) (hw : a.tensors.weights[i]? = some w)
    (hw' : b.tensors.weights[i]? = some w') : given' w' = given w := by
  have hc := h.registered.compiled
  have hc' := h.registered'.compiled
  rw [hback.given_eq h.registered hown ha (List.mem_of_getElem? hw),
    hback'.given_eq h.registered' hown' hb (List.mem_of_getElem? hw')]
  obtain ⟨ds, ds', hds, hds', hperm, -⟩ :=
    h.sameDerivatives hstart hs hs' hread hread' hback hback' hcomm hassoc ha hb
    (hc.participates_of_trains ha htrains)
  have hcollected : b.collected t' = a.collected t := by
    rw [Node.collected, Node.collected, h.trains_eq ha hb, if_pos htrains, if_pos htrains,
      h.layer_eq ha hb]
    exact Layer.contributions_counterpart (h.fits ha hb).1 (h.fits ha hb).2 hds hds' hperm
      (h.inputs_eq_of_returned hstart hs hs' hback hback' ha hb)
  unfold Node.gives
  rw [hcollected, h.participates_eq hc.toScheduled hc'.toScheduled ha hb]
  cases a.collected t with
  | error e => rfl
  | ok cs =>
    dsimp only
    rw [lookup_zip (h.fits ha hb).1.nodup_weights hw, lookup_zip (h.fits ha hb).2.nodup_weights hw']

end Reflects

namespace Network

variable [Scalar α] {n n₁ n₂ : Network α} {batch : Nat} {given : WeightRef → List (Tensor α)}
  {record : List (WeightRef × WeightState α × WeightState α)} {log : List (Handover α)}

omit [Scalar α] in
/-- The names of the weights that have been handed over, each with its gradient. -/
def gradientsIn (log : List (Handover α)) : List (String × Tensor α) :=
  log.map fun entry => (entry.update.name, entry.update.gradient)

section Log

variable (hreplaces : Replaces given record n₁ n₂) (hlog : log.map (·.update) = record.map (·.2.1))
  (hframed : Framed n n₁) (hreg : Registered n.graph n.store batch n.graph.order)
include hreplaces hframed hreg

/-- What has been handed over is a weight that is trained, under its name. -/
theorem Replaces.of_mem {p : WeightRef × WeightState α × WeightState α} (hp : p ∈ record) :
    trainers n.graph p.1 ≠ [] ∧ n.store.HasWeightName p.1 p.2.1.name := by
  have htrained := (hreplaces.trained p.1).mp (List.mem_map_of_mem hp)
  rw [trainers_of_tasks hframed.sameTasks] at htrained
  refine ⟨htrained, ?_⟩
  obtain ⟨q, hq⟩ := List.exists_mem_of_ne_nil _ htrained
  obtain ⟨-, a, ha, -, hw⟩ := mem_trainersIn_iff.mp hq
  obtain ⟨_, -, r, hr, -⟩ := exists_mem_of_forall₂ (hreg.holds_of_node ha).weights.flip hw
  refine ⟨r, hr, ?_⟩
  rw [(hreplaces.handed p hp).1, weightName_eq (by rw [hframed.layout.weights]; exact hr)]

include hlog

/-- A pass that has replaced the weights has recorded those that are trained, each with the gradient
that it was given. -/
theorem Replaces.mem_gradientsIn_iff {name : String} {G : Tensor α} : (name, G) ∈ gradientsIn log ↔
    ∃ (p i : Nat) (a : Node α) (w : WeightRef), n.graph.nodes[p]? = some a ∧ a.trains = true ∧
      a.tensors.weights[i]? = some w ∧
      n.store.HasWeightName w name ∧ gradientOf given w = .ok G := by
  have hmem : (name, G) ∈ gradientsIn log ↔ ∃ p ∈ record, p.2.1.name = name ∧
      p.2.1.gradient = G := by
    have hpairs : gradientsIn log = record.map fun p => (p.2.1.name, p.2.1.gradient) := by
      have hall := congrArg (List.map fun u : WeightState α => (u.name, u.gradient)) hlog
      rwa [List.map_map, List.map_map] at hall
    rw [hpairs, List.mem_map]
    simp only [Prod.mk.injEq]
  rw [hmem]
  constructor
  · rintro ⟨p, hp, rfl, rfl⟩
    obtain ⟨htrained, hname⟩ := hreplaces.of_mem hframed hreg hp
    obtain ⟨q, hq⟩ := List.exists_mem_of_ne_nil _ htrained
    obtain ⟨-, a, ha, htrains, hw⟩ := mem_trainersIn_iff.mp hq
    obtain ⟨i, hi⟩ := List.getElem?_of_mem hw
    exact ⟨q, i, a, p.1, ha, htrains, hi, hname, (hreplaces.handed p hp).2.2⟩
  · rintro ⟨q, i, a, w, ha, htrains, hw, hname, hG⟩
    have htrained : trainers n.graph w ≠ [] := List.ne_nil_of_mem (mem_trainersIn_iff.mpr
      ⟨List.mem_reverse.mpr (hreg.mem_order ha), a, ha, htrains, List.mem_of_getElem? hw⟩)
    rw [← trainers_of_tasks hframed.sameTasks, ← hreplaces.trained] at htrained
    obtain ⟨p, hp, rfl⟩ := List.mem_map.mp htrained
    exact ⟨p, hp, (hreplaces.of_mem hframed hreg hp).2.name_eq hname,
      Except.ok.inj ((hreplaces.handed p hp).2.2.symm.trans hG)⟩

theorem Replaces.nodup_gradientsIn : (gradientsIn log).Nodup := by
  refine List.Nodup.of_map Prod.fst ?_
  have hnames : (gradientsIn log).map (·.1) = record.map (·.2.1.name) := by
    have hall := congrArg (List.map WeightState.name) hlog
    rw [List.map_map, List.map_map] at hall
    rw [gradientsIn, List.map_map]
    exact hall
  rw [hnames]
  have hnodup := List.Nodup.of_map _ hreplaces.nodup
  refine hnodup.map_on fun p hp q hq heq => ?_
  have hw := (hreplaces.of_mem hframed hreg hp).2.unique hreg.registry
    (heq ▸ (hreplaces.of_mem hframed hreg hq).2)
  exact List.inj_on_of_nodup_map hreplaces.nodup hp hq hw

end Log

/-- Passes that leave weights as they are hand over the same gradient under each name. -/
theorem gradientsIn_perm {n' n₁' n₂' : Network α} {π : Equiv.Perm Nat} {σ : Nat → Equiv.Perm Nat}
    {given' : WeightRef → List (Tensor α)}
    {record' : List (WeightRef × WeightState α × WeightState α)} {log' : List (Handover α)}
    (h : Reflects n.graph n'.graph n.store n'.store batch π σ)
    (hgiven : ∀ (p i : Nat) (a b : Node α) (w w' : WeightRef), n.graph.nodes[p]? = some a →
      n'.graph.nodes[π p]? = some b → a.trains = true → a.tensors.weights[i]? = some w →
      b.tensors.weights[i]? = some w' → given' w' = given w)
    (hreplaces : Replaces given record n₁ n₂) (hreplaces' : Replaces given' record' n₁' n₂')
    (hlog : log.map (·.update) = record.map (·.2.1))
    (hlog' : log'.map (·.update) = record'.map (·.2.1)) (hframed : Framed n n₁)
    (hframed' : Framed n' n₁') : (gradientsIn log').Perm (gradientsIn log) := by
  refine (List.perm_ext_iff_of_nodup (hreplaces'.nodup_gradientsIn hlog' hframed' h.registered')
    (hreplaces.nodup_gradientsIn hlog hframed h.registered)).mpr fun ⟨name, G⟩ => ?_
  rw [hreplaces'.mem_gradientsIn_iff hlog' hframed' h.registered',
    hreplaces.mem_gradientsIn_iff hlog hframed h.registered]
  have hlength : ∀ {p : Nat} {a b : Node α}, n.graph.nodes[p]? = some a →
      n'.graph.nodes[π p]? = some b →
      a.tensors.weights.length = b.tensors.weights.length :=
        fun ha hb => (h.counterpart ha hb).2.length_eq
  constructor
  · rintro ⟨q, i, b, w', hb, htrains, hw', hname, hG⟩
    obtain ⟨p, a, rfl, ha⟩ := h.exists_counterpart hb
    have hw := List.getElem?_eq_getElem (hlength ha hb ▸ (List.getElem?_eq_some_iff.mp hw').1)
    rw [h.trains_eq ha hb] at htrains
    exact ⟨p, i, a, _, ha, htrains, hw, (h.hasWeightName_iff ha hb hw hw').mp hname,
      (gradientOf_eq_iff (hgiven p i a b _ w' ha hb htrains hw hw')).mp hG⟩
  · rintro ⟨p, i, a, w, ha, htrains, hw, hname, hG⟩
    obtain ⟨b, hb, -⟩ := h.exists_node ha
    have hw' := List.getElem?_eq_getElem (hlength ha hb ▸ (List.getElem?_eq_some_iff.mp hw).1)
    exact ⟨π p, i, b, _, hb, (h.trains_eq ha hb).trans htrains, hw',
      (h.hasWeightName_iff ha hb hw hw').mpr hname,
      (gradientOf_eq_iff (hgiven p i a b w _ ha hb htrains hw hw')).mpr hG⟩

end Network

end LayerGraph
