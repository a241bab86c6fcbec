import LayerGraph.Proofs.Network.Mirrored
import LayerGraph.Proofs.Network.Preparable
import LayerGraph.Proofs.Network.Slots

/-!
# Which networks have shapes

A compiled network can be prepared if and only if its nodes have shapes: each layer accepts those of
what its node reads, and declares outputs of that of its node. Whether there are such shapes does
not depend on the order of the nodes.
-/

namespace LayerGraph

variable {α : Type}

/-- Shapes for the outputs of all nodes. Each layer declares outputs of its node's shape if it is
told the shapes of what the node reads, and where a layer has one output, that one is read. -/
structure Shaped (g : NodeGraph (Node α)) (batch : Nat) (shapes : Nat → Shape) : Prop where
  accepts : ∀ p a, g.nodes[p]? = some a → ∃ ins declared,
    a.layer.declare ⟨a.name, ins, a.outputCount, batch, a.trains⟩ = .ok declared ∧
      (∀ shape ∈ declared.outputShapes, shape = shapes p) ∧ ins.length = a.inputs.length ∧
      ∀ i q k, ReadsSlot g p i q k → ins[i]? = some (shapes q)
  first : ∀ p i q k b, ReadsSlot g p i q k → g.nodes[q]? = some b → b.layer ≠ .multiout → k = 0

section Transport

variable {g g' : NodeGraph (Node α)} {batch : Nat} {shapes : Nat → Shape}

theorem Shaped.of_design (h : Shaped g batch shapes)
    (hdesign : g'.nodes.map design = g.nodes.map design) : Shaped g' batch shapes := by
  have hreads := fun {p i q k} => readsSlot_iff_of_wires (wires_of_design hdesign) (r := p)
    (i := i) (q := q) (k := k)
  constructor
  · intro p b hb
    obtain ⟨a, ha, heq⟩ := getElem?_of_map_eq hdesign hb
    obtain ⟨ins, declared, hdeclare, hshapes, hlength, hins⟩ := h.accepts p a ha
    simp only [design, wires, Prod.mk.injEq] at heq
    obtain ⟨⟨hname, hinputs, houtputs⟩, hlayer, htrainable, -⟩ := heq
    refine ⟨ins, declared, ?_, hshapes, by rw [hlength, hinputs],
      fun i q k hread => hins i q k (hreads.mp hread)⟩
    rw [← hdeclare, Node.outputCount, Node.outputCount, Node.trains, Node.trains, hname, houtputs,
      hlayer, htrainable]
  · intro p i q k b hread hb hlayer
    obtain ⟨a, ha, heq⟩ := getElem?_of_map_eq hdesign hb
    simp only [design, Prod.mk.injEq] at heq
    exact h.first p i q k a (hreads.mp hread) ha (by rwa [heq.2.1])

/-- Graphs that mirror each other have the same shapes. -/
theorem Shaped.mirrored (h : Shaped g batch shapes) {π : Equiv.Perm Nat} {σ : Nat → Equiv.Perm Nat}
    (hm : Counterparts g g' π σ) (hw : Wired g) (hw' : Wired g') : Shaped g' batch fun p =>
      shapes (π.symm p) := by
  have hpre : ∀ {p : Nat} {b : Node α}, g'.nodes[p]? = some b → ∃ a, g.nodes[π.symm p]? = some a ∧
      g'.nodes[π (π.symm p)]? = some b := by
    intro p b hb
    obtain ⟨a, ha, -⟩ := hm.symm.exists_node hb
    exact ⟨a, ha, by rwa [Equiv.apply_symm_apply]⟩
  constructor
  · intro p b hb
    obtain ⟨a, ha, hb⟩ := hpre hb
    obtain ⟨ins, declared, hdeclare, hshapes, hlength, hins⟩ := h.accepts _ a ha
    refine ⟨ins, declared, ?_, hshapes, by rw [hlength, hm.length_inputs hw hw' ha hb],
      fun i q k hread => ?_⟩
    · rw [← hdeclare, Node.outputCount, Node.outputCount, hm.length_outputs hw hw' ha hb,
        hm.name_eq ha hb, hm.layer_eq ha hb, hm.trains_eq ha hb]
    · exact hins i _ _ ((hm.symm.reads _ _ _ _).mp hread)
  · intro p i q k b hread hb hlayer
    obtain ⟨a, ha, hb⟩ := hpre hb
    have hlayer' : a.layer ≠ .multiout := by rwa [← hm.layer_eq ha hb]
    have hone : σ (π.symm q) = .refl Nat := by
      refine (hm.fixed (π.symm q)).resolve_right ?_
      rintro ⟨a', ha', heq⟩
      exact hlayer' (Option.some.inj (ha.symm.trans ha') ▸ heq)
    have hread' := (hm.symm.reads _ _ _ _).mp hread
    rw [hone, Equiv.refl_symm] at hread'
    exact h.first _ i _ k a hread' ha hlayer'

end Transport

/-- What a finalized node has found: its layer has declared the shapes of its outputs, having been
told those of its inputs. -/
structure Node.Settled (s : Store α) (batch : Nat) (a : Node α) : Prop where
  declares : ∃ declared, a.layer.declare ⟨a.name, a.inputShapes, a.outputCount, batch,
    a.trains⟩ = .ok declared ∧
    declared.outputShapes = a.outputShapes
  inputs : List.Forall₂ (fun x shape => s.WireFits x shape.width ∧ shape.batch = batch)
    a.tensors.inputs a.inputShapes
  outputs : List.Forall₂ (fun y shape => s.WireFits y shape.width ∧ shape.batch = batch)
    a.tensors.outputs a.outputShapes

namespace Node.Settled

variable {s s' : Store α} {batch : Nat} {a : Node α}

theorem later (h : a.Settled s batch) (hs : s.Extends s') : a.Settled s' batch :=
  ⟨h.declares, h.inputs.imp fun _ _ hx => ⟨hs.wireFits hx.1, hx.2⟩, h.outputs.imp
    fun _ _ hy => ⟨hs.wireFits hy.1, hy.2⟩⟩

/-- All outputs of a node have one shape. -/
theorem exists_shape (h : a.Settled s batch) (hship : a.layer.isShipped = true) :
    ∃ shape, shape ∈ a.outputShapes ∧ ∀ shape' ∈ a.outputShapes, shape' = shape := by
  obtain ⟨declared, hdeclare, houtputs⟩ := h.declares
  obtain ⟨shape, huniform, hmem⟩ := Network.uniform_of_declares (declares_of_declare hship hdeclare)
    fun sh hsh => by
    obtain ⟨x, -, hx⟩ := exists_mem_of_forall₂ h.inputs.flip hsh
    exact hx.2
  exact ⟨shape, houtputs ▸ hmem, houtputs ▸ huniform.outputs⟩

/-- A multiout node has an output for each slot that is read, and one if none is. -/
theorem length_outputs (h : a.Settled s batch) (hlayer : a.layer = .multiout) :
    a.tensors.outputs.length = max a.outputs.length 1 := by
  obtain ⟨declared, hdeclare, houtputs⟩ := h.declares
  have hdeclares := declares_of_declare (by rw [hlayer]; rfl) hdeclare
  rw [h.outputs.length_eq, ← houtputs]
  rw [hlayer] at hdeclares
  cases hdeclares with
  | multiout =>
    rw [List.length_replicate]
    exact Nat.max_eq_left (Nat.le_max_right _ 1)

end Node.Settled

namespace Network

variable {n n' : Network α} {done rest : List NodeRef} {p : NodeRef} {u : Unit}

/-- Nodes stay settled, and the one that is finalized is. -/
theorem settled_of_prepareNode (hreg : Registered n.graph n.store n.batchSize done)
    (hsplit : n.graph.order = done ++ p :: rest) (hp : prepareNode p n = .ok u n')
    (hdone : ∀ q ∈ done, ∀ a : Node α, n.graph.nodes[q]? = some a → a.Settled n.store n.batchSize) :
    ∀ q ∈ done ++ [p], ∀ a : Node α, n'.graph.nodes[q]? = some a →
    a.Settled n'.store n'.batchSize := by
  obtain ⟨a, owner, inputs, inputShapes, declared, use, handles, s', ha, -, hinputs, hshapes,
      hdeclare, huse, hregister, rfl⟩ :=
    stages_of_prepareNode hp
  obtain ⟨hfits, -⟩ := inputs_of_inputSlot hreg hsplit ha hinputs
  have hall := forall₂_shapes hreg.registry hfits hshapes
  obtain ⟨shape, huniform, hnew⟩ :=
    newNode_of_stages hreg hsplit ha hinputs hshapes hdeclare huse hregister
  have hpd : p ∉ done := not_mem_done (nodup_order hreg.compiled.ordered.perm) hsplit
  intro q hq b hb
  dsimp only at hb ⊢
  rw [getElem?_modifyNode] at hb
  rcases List.mem_append.mp hq with hq | hq
  · obtain ⟨b', hb', rfl⟩ := Option.map_eq_some_iff.mp hb
    rw [if_neg fun heq : p = q => hpd (heq ▸ hq)]
    exact (hdone q hq b' hb').later hnew.later
  · obtain rfl := List.mem_singleton.mp hq
    rw [ha, Option.map_some, if_pos rfl, Option.some.injEq] at hb
    subst hb
    refine ⟨⟨declared, hdeclare, rfl⟩, ?_, ?_⟩
    · show List.Forall₂ _ handles.inputs inputShapes
      rw [hnew.inputs_eq]
      exact hall.imp fun _ _ hx => ⟨hnew.later.wireFits hx.1, hx.2⟩
    · refine List.forall₂_iff_zip.mpr ⟨hnew.length_outputs, fun {y sh} hmem => ?_⟩
      obtain ⟨hy, hsh⟩ := List.of_mem_zip hmem
      rw [huniform.outputs sh hsh]
      exact ⟨(hnew.outputs y hy).1, huniform.batch_eq⟩

/-- All nodes of a graph that is prepared are settled. -/
theorem settled_of_prepare {inputNames labelNames : List String} (hdrawn : Drawn n)
    (hp : prepare inputNames labelNames n = .ok u n') :
    Registered n'.graph n'.store n.batchSize n'.graph.order ∧ Settling n.graph n'.graph ∧
      ∀ (p : Nat) (a : Node α), n'.graph.nodes[p]? = some a → a.Settled n'.store n.batchSize := by
  obtain ⟨n₁, hall, rfl⟩ := prepareAll_of_prepare hp
  obtain ⟨_, _, hget, h₁⟩ := Action.bind_eq_ok_iff.mp hall
  cases hget
  obtain ⟨_, n₂, hnodes, h₂⟩ := Action.bind_eq_ok_iff.mp h₁
  obtain ⟨inputs, _, hread, h₃⟩ := Action.bind_eq_ok_iff.mp h₂
  obtain ⟨-, rfl⟩ := Action.read_eq_ok_iff.mp hread
  obtain ⟨labels, _, hread, h₄⟩ := Action.bind_eq_ok_iff.mp h₃
  obtain ⟨-, rfl⟩ := Action.read_eq_ok_iff.mp hread
  cases h₄
  obtain ⟨⟨hreg, hsettling⟩, hsettled, hbatch⟩ := Action.forM_prefix (fun done (n₁ : Network α) =>
    (Registered n₁.graph n₁.store n₁.batchSize done ∧ Settling n.graph n₁.graph) ∧
      (∀ q ∈ done, ∀ a : Node α, n₁.graph.nodes[q]? = some a → a.Settled n₁.store n₁.batchSize) ∧
      n₁.batchSize = n.batchSize) hnodes
    ⟨⟨registered_nil hdrawn, .refl _⟩, nofun, rfl⟩ fun done q rest n₁ n₂ u hsplit hn₁ hrun => by
      obtain ⟨⟨hreg, hsettling⟩, hsettled, hbatch⟩ := hn₁
      refine ⟨registered_of_prepareNode hreg hsettling hsplit hrun,
        settled_of_prepareNode hreg (hsettling.order.trans hsplit) hrun hsettled, ?_⟩
      obtain ⟨_, _, _, _, _, _, _, _, -, -, -, -, -, -, -, rfl⟩ := stages_of_prepareNode hrun
      exact hbatch
  rw [hbatch] at hreg hsettled
  rw [← hsettling.order] at hreg hsettled
  exact ⟨hreg, hsettling, fun p a ha => hsettled p (mem_order_of_node hreg.compiled.ordered.perm ha)
    a ha⟩

/-- What is prepared has shapes. -/
theorem shaped_of_prepare {inputNames labelNames : List String} (hdrawn : Drawn n)
    (hp : prepare inputNames labelNames n = .ok u n') :
    ∃ shapes, Shaped n.graph n.batchSize shapes := by
  obtain ⟨hreg, hsettling, hsettled⟩ := settled_of_prepare hdrawn hp
  let shapes := fun p : Nat => (n'.graph.nodes[p]?).elim ⟨0, 0⟩ fun a => a.outputShapes.headD ⟨0, 0⟩
  have hshape : ∀ {p : Nat} {a : Node α}, n'.graph.nodes[p]? = some a → ∀ shape ∈ a.outputShapes,
      shape = shapes p := by
    intro p a ha shape hshape
    obtain ⟨only, -, hall⟩ := (hsettled p a ha).exists_shape (hreg.compiled.shipped p a ha)
    obtain ⟨first, rest, heq⟩ := List.exists_cons_of_ne_nil (List.ne_nil_of_mem hshape)
    have hfirst : shapes p = first := by
      simp only [shapes, ha, Option.elim_some, heq, List.headD_cons]
    rw [hall shape hshape, hfirst, hall first (by rw [heq]; exact List.mem_cons_self)]
  have hshaped : Shaped n'.graph n.batchSize shapes :=
    ⟨fun p a ha => ?_, fun p i q k b hread hb hlayer => ?_⟩
  · exact ⟨shapes, hshaped.of_design hsettling.design.symm⟩
  · have hset := hsettled p a ha
    have hlinked := hreg.linked_of_node ha
    obtain ⟨declared, hdeclare, houtputs⟩ := hset.declares
    refine ⟨a.inputShapes, declared, hdeclare, houtputs ▸ hshape ha,
      hset.inputs.length_eq.symm.trans hlinked.length, fun i q k hread => ?_⟩
    obtain ⟨b, hb⟩ := hread.producer hreg.compiled.wired.distinct
    obtain ⟨x, hx, hi⟩ := hlinked.wire i q k b hread hb
    obtain ⟨shape, hin, hfits, hbatch⟩ := getElem?_of_forall₂ hset.inputs hi
    obtain ⟨shape', hout, hfits', hbatch'⟩ := getElem?_of_forall₂ (hsettled q b hb).outputs hx
    rw [hin, ← hshape hb shape' (List.mem_of_getElem? hout),
      Shape.eq_of_axes (hbatch.trans hbatch'.symm) (hfits.value.unique hfits'.value)]
  · obtain ⟨a, ha⟩ := hread.reader
    obtain ⟨x, hx, -⟩ := (hreg.linked_of_node ha).wire i q k b hread hb
    exact eq_zero_of_outputs (hreg.holds_of_node hb).fits hlayer hx

/-- What has shapes can be prepared, if no node shares the weights of another. -/
theorem exists_prepare_of_shaped (hdrawn : Drawn n)
    (hown : ∀ a ∈ n.graph.nodes, a.sharedFrom = none) {shapes : Nat → Shape}
    (h : Shaped n.graph n.batchSize shapes) : ∃ n', prepare [] [] n = .ok ⟨⟩ n' := by
  obtain ⟨n', hp, -⟩ :=
    exists_prepare_of_steps (I := fun done (n₁ : Network α) => n₁.batchSize = n.batchSize ∧
    ∀ q ∈ done, ∀ a : Node α, n₁.graph.nodes[q]? = some a →
      a.Settled n₁.store n₁.batchSize ∧ ∀ shape ∈ a.outputShapes, shape = shapes q) hdrawn
      ⟨rfl, nofun⟩
    fun done r rest n₁ hsplit₀ hreg hsettling hprogress ⟨hbatch, hdone⟩ => by
      have hsplit := hsettling.order.trans hsplit₀
      have hshaped := h.of_design hsettling.design
      rw [← hbatch] at hshaped
      have hd := hreg.compiled.wired.distinct
      obtain ⟨a, ha⟩ : ∃ a, n₁.graph.nodes[r]? = some a := by
        have hr : r ∈ n₁.graph.order := by simp [hsplit]
        exact ⟨_, List.getElem?_eq_getElem ((mem_order_iff hreg.compiled.ordered.perm).mp hr)⟩
      obtain ⟨ins, declared, hdeclare, hshapes, hlength, hins⟩ := hshaped.accepts r a ha
      obtain ⟨inputs, hinputs⟩ : ∃ inputs, a.inputs.mapM (n₁.inputSlot a) = .ok inputs :=
        except_mapM_exists fun c hc => exists_inputSlot hreg hsplit ha hc
          fun i q b hread hq hb => by
          by_cases hlayer : b.layer = .multiout
          · have hlt := (hreg.compiled.wired.lt_iff q b c.index hb).mpr ⟨r, i, hread⟩
            refine ⟨_, List.getElem?_eq_getElem ?_⟩
            rw [(hdone q hq b hb).1.length_outputs hlayer]
            exact Nat.lt_of_lt_of_le hlt (Nat.le_max_left _ 1)
          · rw [hshaped.first r i q _ b hread hb hlayer]
            exact exists_first_output (hreg.holds q hq b hb).fits
      obtain ⟨-, hwire⟩ := inputs_of_inputSlot hreg hsplit ha hinputs
      have hinShapes : inputs.mapM (fun x => n₁.store.shape x.value) = .ok ins := by
        have hcount : inputs.length = ins.length := (except_mapM_length hinputs).trans hlength.symm
        refine except_mapM_eq_ok_iff.mpr (List.forall₂_iff_get.mpr ⟨hcount, fun i hi hi' => ?_⟩)
        obtain ⟨q, k, hread⟩ := hreg.compiled.wired.resolved r a i _ ha
          (List.getElem?_eq_getElem (except_mapM_length hinputs ▸ hi))
        obtain ⟨b, hb⟩ := hread.producer hd
        obtain ⟨x, hx, hix⟩ := hwire i q k b hread hb
        obtain ⟨hset, hall⟩ := hdone q (producer_done hreg hsplit hread) b hb
        obtain ⟨shape, hout, hfits, hbatch'⟩ := getElem?_of_forall₂ hset.outputs hx
        have hin := hins i q k hread
        rw [← hall shape (List.mem_of_getElem? hout), List.getElem?_eq_getElem hi',
          Option.some.injEq] at hin
        rw [List.getElem?_eq_getElem hi, Option.some.injEq] at hix
        rw [List.get_eq_getElem, List.get_eq_getElem, hix, hin,
          hfits.value.shape hreg.registry, ← hbatch']
      have hshared : a.sharedFrom = none := by
        obtain ⟨a₀, ha₀, heq⟩ := getElem?_of_map_eq hsettling.design ha
        simp only [design, Prod.mk.injEq] at heq
        rw [← heq.2.2.2.1]
        exact hown a₀ (List.mem_of_getElem? ha₀)
      obtain ⟨use, handles, n₂, hrun, hprogress', hgraph, hbatch₂⟩ :=
        exists_prepareNode_of_declare hreg hsplit hprogress ha hshared hinputs hinShapes hdeclare
      refine ⟨n₂, hrun, hprogress', hbatch₂.trans hbatch,
        fun q hq b hb => ⟨settled_of_prepareNode hreg hsplit hrun
        (fun q hq a ha => (hdone q hq a ha).1) q hq b hb, ?_⟩⟩
      rw [hgraph, getElem?_modifyNode] at hb
      obtain ⟨b', hb', rfl⟩ := Option.map_eq_some_iff.mp hb
      by_cases hqr : r = q
      · subst hqr
        rw [if_pos rfl]
        exact hshapes
      · rw [if_neg hqr]
        refine (hdone q ?_ b' hb').2
        exact (List.mem_append.mp hq).resolve_right fun hmem =>
          hqr (List.mem_singleton.mp hmem).symm
  exact ⟨n', hp⟩

end Network

end LayerGraph
