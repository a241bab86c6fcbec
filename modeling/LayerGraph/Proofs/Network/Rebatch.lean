import LayerGraph.Proofs.Network.Budget
import LayerGraph.Proofs.Network.Handles
import LayerGraph.Proofs.Store.Rebatched

/-!
# Setting the batch of a network

A network that is prepared and then given another batch has the shapes, the handles, the windows and
the slots of one that has had that batch from the start.
-/

namespace LayerGraph

variable {α : Type} {batch : Nat}

section Declare

/-- What a layer is told about its node at another batch. -/
def Site.rebatched (batch : Nat) (site : Site) : Site :=
  { site with inputShapes := site.inputShapes.map (·.rebatch batch), batch := batch }

theorem onlyInput_rebatched {site : Site} {shape : Shape} (h : site.onlyInput = .ok shape) :
    (site.rebatched batch).onlyInput = .ok (shape.rebatch batch) := by
  unfold Site.onlyInput Site.rebatched
  rw [onlyInput_eq_ok h]
  rfl

theorem declaration_rebatched {layer : Layer α} {site : Site} {d : Declaration α}
    (hship : layer.isShipped = true) (h : layer.declaration site = .ok d) :
    layer.declaration (site.rebatched batch) = .ok (d.rebatched batch) := by
  cases layer with
  | input width =>
    obtain ⟨_, hreq, h⟩ := except_bind_eq_ok_iff.mp h
    have hreq' : (site.rebatched batch).requireInputs 0 = .ok () := by
      unfold Site.requireInputs at hreq ⊢
      rw [show (site.rebatched batch).inputShapes.length = site.inputShapes.length
        from List.length_map _]
      split at hreq
      · next hlen => rw [if_pos hlen]
      · cases hreq
    dsimp only at h
    split at h
    · cases h
    · next hwidth =>
      cases h
      refine except_bind_eq_ok_iff.mpr ⟨(), hreq', ?_⟩
      dsimp only
      rw [if_neg hwidth]
      rfl
  | fullyConnected units weight bias =>
    obtain ⟨shape, hin, h⟩ := except_bind_eq_ok_iff.mp h
    dsimp only at h
    split at h
    · cases h
    · next hunits =>
      cases h
      refine except_bind_eq_ok_iff.mpr ⟨_, onlyInput_rebatched hin, ?_⟩
      dsimp only
      rw [if_neg hunits]
      rfl
  | activation f | identity =>
    obtain ⟨shape, hin, h⟩ := except_bind_eq_ok_iff.mp h
    cases h
    exact except_bind_eq_ok_iff.mpr ⟨_, onlyInput_rebatched hin, rfl⟩
  | addition =>
    unfold Layer.declaration at h ⊢
    unfold Site.rebatched
    cases hin : site.inputShapes with
    | nil =>
      rw [hin] at h
      cases h
    | cons first rest =>
      rw [hin] at h
      dsimp only at h ⊢
      split at h
      · cases h
      · next hnone =>
        cases h
        have hnone' : (rest.map (·.rebatch batch)).find? (· ≠ first.rebatch batch) = none := by
          refine List.find?_eq_none.mpr fun sh hsh => ?_
          obtain ⟨sh', hsh', rfl⟩ := List.mem_map.mp hsh
          have := List.find?_eq_none.mp hnone sh' hsh'
          simp only [ne_eq, decide_not, Bool.not_eq_eq_eq_not, Bool.not_true,
            decide_eq_false_iff_not, not_not] at this ⊢
          rw [this]
        rw [List.map_cons]
        dsimp only
        rw [hnone']
        rfl
  | multiout =>
    obtain ⟨shape, hin, h⟩ := except_bind_eq_ok_iff.mp h
    cases h
    refine except_bind_eq_ok_iff.mpr ⟨_, onlyInput_rebatched hin, ?_⟩
    simp [Declaration.rebatched, Declaration.outputs, Site.rebatched]
  | loss kind =>
    obtain ⟨shape, hin, h⟩ := except_bind_eq_ok_iff.mp h
    dsimp only at h
    split at h
    · cases h
    · next hfused =>
      cases h
      refine except_bind_eq_ok_iff.mpr ⟨_, onlyInput_rebatched hin, ?_⟩
      dsimp only
      rw [if_neg hfused]
      rfl
  | custom layer => cases hship

/-- What a layer declares at another batch differs in the batch alone. -/
theorem declare_rebatched {layer : Layer α} {site : Site} {d : Declaration α}
    (hship : layer.isShipped = true) (h : layer.declare site = .ok d) :
    layer.declare (site.rebatched batch) = .ok (d.rebatched batch) := by
  obtain ⟨d₀, hd, h⟩ := except_bind_eq_ok_iff.mp h
  cases h
  unfold Layer.declare
  rw [declaration_rebatched hship hd]
  rfl

end Declare

namespace Network

open LayerGraph.Action (Follows)

variable {n n' m : Network α} {done rest : List NodeRef} {p : NodeRef}

section Compile

variable [Zero α]

/-- Compiling does not look at the batch. -/
theorem compile_withBatch {loss : Option String} {u : Unit} (batch : Nat)
    (h : compile loss n = .ok u n') :
    compile loss { n with batchSize := batch } = .ok u { n' with batchSize := batch } := by
  have hgraph : ∀ p : Action (NodeGraph (Node α)) Unit,
      Follows (fun n m => m = { n with batchSize := batch }) (onGraph p) (onGraph p) Eq := by
    refine fun p => (Action.follows_refl p).focus (fun n m hm => by rw [hm]) ?_
    rintro n _ g _ rfl rfl
    rfl
  have hclose : Follows (fun n m : Network α => m = { n with batchSize := batch })
      (modify fun n => { n with isCompiled := true })
        (modify fun n => { n with isCompiled := true }) Eq :=
    Action.follows_modify fun n m hm => by rw [hm]
  have hrun : Follows (fun n m : Network α => m = { n with batchSize := batch }) (compile loss)
      (compile loss) Eq := by
    refine Action.follows_get_bind fun n m hm => Action.Follows.guard (by rw [hm]; exact id) ?_
    refine Action.follows_get_bind fun n m hm => Action.Follows.guard (by rw [hm]; exact id) ?_
    refine Action.Follows.bind (S := Eq) ?_ fun _ _ _ => ?_
    · refine (Action.follows_refl NodeGraph.take).focus (fun n m hm => by rw [hm]) ?_ |>.bind
        fun nodes _ hn => ?_
      · rintro n _ g _ rfl rfl
        rfl
      · subst hn
        refine Action.follows_get_bind fun n m hm => ?_
        rw [hm]
        dsimp only
        split
        · exact hgraph _
        · exact (hgraph _).bind fun _ _ _ => Action.follows_throw _ _
    refine (Action.follows_read (S := Eq) fun n m u hm hu => ⟨u, by rw [hm]; exact hu, rfl⟩).bind
      fun _ _ _ => ?_
    refine (hgraph _).bind fun _ _ _ => ?_
    refine (Action.follows_read (S := Eq) fun n m u hm hu => ⟨u, by rw [hm]; exact hu, rfl⟩).bind
      fun _ _ _ => ?_
    refine (hgraph _).bind fun _ _ _ => (hgraph _).bind fun _ _ _ => ?_
    refine (Action.follows_modify fun n m hm => by rw [hm]).bind fun _ _ _ => ?_
    refine Action.follows_get_bind fun n m hm => ?_
    rw [hm]
    dsimp only
    split
    · exact (hgraph _).bind fun _ _ _ => hclose
    · exact hclose
  obtain ⟨_, m, hm, rfl, rfl⟩ := hrun n _ u n' rfl h
  exact hm

end Compile

section Prepare

/-- A network at another batch. -/
def rebatched (batch : Nat) (n : Network α) : Network α :=
  { n with
    batchSize := batch
    store := n.store.rebatched batch
    graph := { n.graph with nodes := n.graph.nodes.map (Node.rebatch batch) } }

/-- Two networks that are prepared side by side: the second has another batch in its store and in
the nodes that are done. -/
structure Abreast (batch : Nat) (done : List NodeRef) (n m : Network α) : Prop where
  same : m = { n with batchSize := batch, store := m.store, graph := m.graph }
  store : Store.Mirrors batch n.store m.store
  order : m.graph.order = n.graph.order
  nodes : ∀ p : Nat, m.graph.nodes[p]? = (n.graph.nodes[p]?).map fun a => if p ∈ done
    then a.rebatch batch else a

namespace Abreast

variable (h : Abreast batch done n m)
include h

theorem names : m.graph.nodes.map (·.name) = n.graph.nodes.map (·.name) := by
  refine List.ext_getElem? fun p => ?_
  rw [List.getElem?_map, List.getElem?_map, h.nodes, Option.map_map]
  refine congrArg (Option.map · _) (funext fun a => ?_)
  rw [Function.comp_apply]
  split <;> rfl

theorem size : m.graph.size = n.graph.size := by
  simpa [NodeGraph.size] using congrArg List.length h.names

theorem ownerOf (a : Node α) : m.ownerOf a = n.ownerOf a := by
  have hcontains : ∀ name, m.graph.contains name = n.graph.contains name := by
    intro name
    have hany : ∀ g : NodeGraph (Node α), g.contains name = (g.nodes.map (·.name)).any
        (· == name) := fun g => by
      rw [List.any_map]
      rfl
    rw [hany, hany, h.names]
  unfold Network.ownerOf
  simp only [hcontains]

theorem inputSlot (hd : n.graph.Distinct) {a : Node α} {conn : Connection} {x : Wire}
    (hx : n.inputSlot a conn = .ok x) : m.inputSlot a conn = .ok x := by
  obtain ⟨q, b, hq, hb, hout⟩ := inputSlot_eq_ok rfl hd hx
  obtain ⟨b₀, hb₀, hname⟩ := (NodeGraph.indexOf?_eq_some_iff hd).mp hq
  rw [hb] at hb₀
  cases hb₀
  have hd' : m.graph.Distinct := by
    unfold NodeGraph.Distinct at hd ⊢
    rw [show m.graph.nodes.map Vertex.name = n.graph.nodes.map Vertex.name from h.names]
    exact hd
  have hb' := h.nodes q
  rw [hb, Option.map_some] at hb'
  have hfind : m.graph.find? conn.name = some (if q ∈ done then b.rebatch batch else b) := by
    refine (NodeGraph.find?_eq_some_iff hd').mpr ⟨List.mem_of_getElem? hb', ?_⟩
    split
    · exact hname
    · exact hname
  unfold Network.inputSlot
  rw [hfind]
  have hout' : (if q ∈ done then b.rebatch batch else b).tensors.outputs[conn.index]? = some x := by
    split
    · exact hout
    · exact hout
  dsimp only
  rw [hout']

end Abreast

theorem shape_rebatched {s : Store α} {id : TensorRef} {width b : Nat} (hr : Store.Registry b s)
    (h : s.HasWidth id width) : (s.rebatched batch).shape id = .ok ⟨batch, width⟩ := by
  obtain ⟨e, he, hdata, hwidth⟩ := h
  obtain ⟨⟨e₀, he₀⟩, hat⟩ := Store.backing_eq_some_iff.mp he
  have hroot : s.root id = .ok (s.rootOf id) := Store.root_eq_ok_iff.mpr ⟨⟨e₀, he₀⟩, rfl⟩
  have hb : e.batched = true := (hr.batched _ e hat).trans hdata
  have hentry : (s.rebatched batch).rootEntry id = .ok (e.rebatched batch) := by
    refine except_bind_eq_ok_iff.mpr ⟨s.rootOf id, by rw [Store.root_rebatched]; exact hroot, ?_⟩
    exact Store.entry_rebatched (Store.entry_eq_ok_iff.mpr hat)
  refine except_bind_eq_ok_iff.mpr ⟨_, hentry, ?_⟩
  rw [except_pure, TensorRecord.shape_rebatched hb, Shape.rebatch, hwidth]

/-- Whether shapes agree does not depend on the batch they share. -/
theorem settleUse_rebatched {use : BufferUse} {b : Nat} {ins outs : List Shape}
    (hins : ∀ sh ∈ ins, sh.batch = b) (houts : ∀ sh ∈ outs, sh.batch = b) :
    settleUse use (ins.map (·.rebatch batch)) (outs.map (·.rebatch batch)) =
      settleUse use ins outs := by
  match ins with
  | [] => rfl
  | [shape] =>
    have hall : (outs.map (·.rebatch batch)).all (· = shape.rebatch batch) =
        outs.all (· = shape) := by
      rw [List.all_map, Bool.eq_iff_iff, List.all_eq_true, List.all_eq_true]
      refine forall₂_congr fun sh hsh => ?_
      simp only [Function.comp_apply, decide_eq_true_eq]
      refine ⟨fun heq => Shape.eq_of_axes ((houts sh hsh).trans (hins shape (by simp)).symm) ?_,
        fun heq => by rw [heq]⟩
      exact congrArg (·.width) heq
    unfold settleUse
    rw [List.map_cons, List.map_nil]
    dsimp only
    rw [hall]
  | _ :: _ :: _ => rfl

/-- A node that is finalized at one batch is finalized alike at any other. -/
theorem Abreast.step (h : Abreast batch done n m)
    (hreg : Registered n.graph n.store n.batchSize done)
    (hsplit : n.graph.order = done ++ p :: rest) {u : Unit} (hp : prepareNode p n = .ok u n') :
    ∃ m', prepareNode p m = .ok ⟨⟩ m' ∧ Abreast batch (done ++ [p]) n' m' := by
  obtain ⟨a, owner, inputs, inputShapes, declared, use, handles, s', ha, howner, hinputs,
    hshapes, hdeclare, huse, hregister, rfl⟩ := stages_of_prepareNode hp
  have hg := hreg.compiled.toDesigned
  have hpd : p ∉ done := not_mem_done (nodup_order hg.ordered.perm) hsplit
  have hship := hg.shipped p a ha
  obtain ⟨hfits, -⟩ := inputs_of_inputSlot hreg hsplit ha hinputs
  have hall := forall₂_shapes hreg.registry hfits hshapes
  have hins := batch_of_shapes hreg.registry hfits hshapes
  have houts := batch_of_declares (declares_of_declare hship hdeclare) hins
  have ha' : m.graph.nodes[p]? = some a := by
    rw [h.nodes, ha, Option.map_some, if_neg hpd]
  have hinputs' : a.inputs.mapM (m.inputSlot a) = .ok inputs := by
    refine except_mapM_eq_ok_iff.mpr ((except_mapM_eq_ok_iff.mp hinputs).imp fun conn x hx => ?_)
    exact h.inputSlot hreg.compiled.wired.distinct hx
  have hshapes' : inputs.mapM (fun x => m.store.shape x.value) =
      .ok (inputShapes.map (·.rebatch batch)) := by
    refine except_mapM_eq_ok_iff.mpr (List.forall₂_map_right_iff.mpr (hall.imp fun x sh hx => ?_))
    rw [h.store.eq]
    exact shape_rebatched hreg.registry hx.1.value
  have hdeclare' : a.layer.declare ⟨a.name, inputShapes.map (·.rebatch batch), a.outputCount,
      m.batchSize, a.trains⟩ = .ok (declared.rebatched batch) := by
    rw [show m.batchSize = batch by rw [h.same]]
    exact declare_rebatched hship hdeclare
  have huse' : use = settleUse a.bufferUse (inputShapes.map (·.rebatch batch))
      (declared.rebatched batch).outputShapes := huse.trans (settleUse_rebatched hins houts).symm
  obtain ⟨_, t', hregister', hstore, rfl⟩ :=
    follows_register a use inputs owner n.graph.size declared n.store m.store
    handles s' h.store hregister
  rw [← h.size] at hregister'
  refine ⟨_, prepareNode_of_stages ha' ((h.ownerOf a).trans howner) hinputs' hshapes' hdeclare'
    huse' hregister', ?_⟩
  refine ⟨by rw [h.same], hstore, h.order, fun q => ?_⟩
  rw [getElem?_modifyNode, getElem?_modifyNode, h.nodes, Option.map_map, Option.map_map]
  refine congrArg (Option.map · _) (funext fun b => ?_)
  simp only [Function.comp_apply, List.mem_append, List.mem_singleton]
  by_cases hq : p = q
  · subst hq
    simp [hpd, finalized, Node.rebatch, Declaration.rebatched]
  · simp [hq, Ne.symm hq]

theorem Abreast.eq_rebatched (h : Abreast batch done n m)
    (hall : ∀ (p : Nat) a, n.graph.nodes[p]? = some a → p ∈ done) : m = n.rebatched batch := by
  have hnodes : m.graph.nodes = n.graph.nodes.map (Node.rebatch batch) := by
    refine List.ext_getElem? fun p => ?_
    rw [h.nodes, List.getElem?_map]
    cases ha : n.graph.nodes[p]? with
    | none => rfl
    | some a => rw [Option.map_some, Option.map_some, if_pos (hall p a ha)]
  have hgraph : m.graph = ⟨n.graph.nodes.map (Node.rebatch batch), n.graph.order⟩ := by
    rw [← hnodes, ← h.order]
  rw [h.same, h.store.eq, hgraph]
  rfl

theorem sortedNodes_rebatched (n : Network α) :
    (n.rebatched batch).graph.sortedNodes = n.graph.sortedNodes.map (·.rebatch batch) := by
  unfold NodeGraph.sortedNodes rebatched
  rw [List.map_filterMap]
  exact List.filterMap_congr fun id _ => List.getElem?_map ..

theorem select_rebatched {names : List String} {accept : Node α → Bool} {what : Selection}
    {nodes : List (Node α)} (haccept : ∀ a, accept (a.rebatch batch) = accept a)
    (hs : n.select names accept what = .ok nodes) :
    (n.rebatched batch).select names accept what = .ok (nodes.map (·.rebatch batch)) := by
  have hfind : ∀ name, (n.rebatched batch).graph.find? name = (n.graph.find? name).map
      (·.rebatch batch) := fun name =>
    List.find?_map
  unfold select at hs ⊢
  cases hn : names.isEmpty with
  | true =>
    rw [hn, if_pos rfl] at hs
    cases hs
    rw [if_pos rfl, sortedNodes_rebatched, List.filter_map]
    refine congrArg Except.ok (congrArg (List.map _) (List.filter_congr fun a _ => ?_))
    exact (haccept a)
  | false =>
    rw [hn, if_neg (by simp)] at hs
    rw [if_neg (by simp)]
    refine except_mapM_eq_ok_iff.mpr (List.forall₂_map_right_iff.mpr ?_)
    refine (except_mapM_eq_ok_iff.mp hs).imp fun name a ha => ?_
    rw [hfind]
    split at ha
    · next b hb =>
      split at ha
      · next hacc =>
        cases ha
        rw [hb, Option.map_some]
        dsimp only
        rw [if_pos (by rw [haccept]; exact hacc)]
      · cases ha
    · cases ha

/-- A network that is prepared at one batch can be prepared at any other, and this sets the
batch. -/
theorem prepareAll_rebatched {inputNames labelNames : List String} {u : Unit} (hd : Drawn n)
    (h : prepareAll inputNames labelNames n = .ok u n') :
    prepareAll inputNames labelNames { n with batchSize := batch } =
      .ok ⟨⟩ (n'.rebatched batch) := by
  obtain ⟨_, _, hget, h⟩ := Action.bind_eq_ok_iff.mp h
  cases hget
  obtain ⟨⟨⟩, n₁, hall, h⟩ := Action.bind_eq_ok_iff.mp h
  obtain ⟨inputs, _, hread, h⟩ := Action.bind_eq_ok_iff.mp h
  obtain ⟨hinputs, rfl⟩ := Action.read_eq_ok_iff.mp hread
  obtain ⟨labels, _, hread, h⟩ := Action.bind_eq_ok_iff.mp h
  obtain ⟨hlabels, rfl⟩ := Action.read_eq_ok_iff.mp hread
  cases h
  have hstart : Abreast batch [] n { n with batchSize := batch } := by
    refine ⟨rfl, ⟨?_, fun r hr => ?_⟩, rfl, fun p => by simp⟩
    · unfold Store.rebatched
      rw [hd.blank.entries, List.map_nil, ← hd.blank.entries]
    · rw [hd.blank.weights] at hr
      cases hr
  obtain ⟨m₁, hall', ⟨hreg, hset⟩, hm⟩ := Action.follows_forM_prefix (fun done n₁ m =>
    (Registered n₁.graph n₁.store n₁.batchSize done ∧ Settling n.graph n₁.graph) ∧
      Abreast batch done n₁ m)
    (fun done p rest n₁ m n₂ hsplit hr hstep => by
      obtain ⟨⟨hreg, hset⟩, hm⟩ := hr
      have hsplit' := hset.order.trans hsplit
      obtain ⟨m', hstep', hm'⟩ := hm.step hreg hsplit' hstep
      obtain ⟨hreg', hset'⟩ := registered_step hreg hsplit' hstep
      obtain ⟨_, _, _, _, _, _, _, _, -, -, -, -, -, -, -, rfl⟩ := stages_of_prepareNode hstep
      exact ⟨m', hstep', ⟨hreg', hset.trans hset'⟩, hm'⟩)
    ⟨⟨registered_nil hd, .refl _⟩, hstart⟩ hall
  obtain rfl : m₁ = n₁.rebatched batch := hm.eq_rebatched fun p a ha => by
    rw [← hset.order]
    exact mem_order_of_node hreg.compiled.ordered.perm ha
  refine Action.bind_eq_ok_iff.mpr ⟨_, _, rfl, Action.bind_eq_ok_iff.mpr ⟨_, _, hall', ?_⟩⟩
  have hinputs' : (n₁.rebatched batch).select _ _ _ = _ := select_rebatched (fun _ => rfl) hinputs
  have hlabels' : (n₁.rebatched batch).select _ _ _ = _ := select_rebatched (fun _ => rfl) hlabels
  refine Action.bind_eq_ok_iff.mpr ⟨_, _, Action.read_of_ok hinputs', ?_⟩
  refine Action.bind_eq_ok_iff.mpr ⟨_, _, Action.read_of_ok hlabels', ?_⟩
  have houtputs : ((n₁.rebatched batch).graph.sortedNodes.filter (·.isTerminal)).flatMap
      (fun node => node.tensors.outputs.map (·.value)) =
      (n₁.graph.sortedNodes.filter (·.isTerminal)).flatMap fun node =>
        node.tensors.outputs.map (·.value) := by
    rw [sortedNodes_rebatched, List.filter_map, List.flatMap_map]
    rfl
  rw [Action.modify_apply]
  dsimp only
  rw [houtputs, List.filterMap_map, List.filterMap_map]
  rfl

theorem prepare_rebatched {inputNames labelNames : List String} {u : Unit} (hd : Drawn n)
    (h : prepare inputNames labelNames n = .ok u n') :
    prepare inputNames labelNames { n with batchSize := batch } = .ok ⟨⟩ (n'.rebatched batch) := by
  obtain ⟨n₁, hall, rfl⟩ := prepareAll_of_prepare h
  exact prepare_of_prepareAll (n := { n with batchSize := batch }) hd.closed hd.unprepared
    (prepareAll_rebatched hd hall)

end Prepare

end Network

end LayerGraph
