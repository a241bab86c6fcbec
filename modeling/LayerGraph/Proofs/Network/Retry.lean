import LayerGraph.Proofs.Network.Beside
import LayerGraph.Proofs.Network.Budget
import LayerGraph.Proofs.Network.Timeline

/-!
# Preparing once more

A preparation that fails empties the store, but what it has found stays in the nodes. The next one
finds the same again before any of it is read, so it comes out as if it were the first.
-/

namespace LayerGraph

variable {α : Type}

namespace Network

variable {n n' : Network α} {p : NodeRef} {done rest : List NodeRef}

/-- What finalizing a node finds before it changes anything. -/
structure Finding (α : Type) where
  node : Node α
  owner : String
  inputs : List Wire
  inputShapes : List Shape
  declared : Declaration α

namespace Finding

def use (f : Finding α) : BufferUse :=
  settleUse f.node.bufferUse f.inputShapes f.declared.outputShapes

def register (f : Finding α) (size : Nat) : Action (Store α) Handles :=
  Network.register f.node f.use f.owner size f.inputs f.declared

/-- A node that has found out how it uses its buffer. -/
def settle (f : Finding α) (a : Node α) : Node α := { a with bufferUse := f.use }

def finalize (f : Finding α) (handles : Handles) : Node α → Node α :=
  finalized f.use f.inputShapes f.declared.outputShapes handles

end Finding

def finding (p : NodeRef) (n : Network α) : Except Error (Finding α) := do
  let node ← n.node p
  let owner ← n.ownerOf node
  let inputs ← node.inputs.mapM (n.inputSlot node)
  let inputShapes ← inputs.mapM fun slot => n.store.shape slot.value
  let declared ← node.layer.declare ⟨node.name, inputShapes, node.outputCount,
    n.batchSize, node.trains⟩
  return ⟨node, owner, inputs, inputShapes, declared⟩

/-- Finalizing a node, whether it ends well or fails. -/
theorem prepareNode_apply (p : NodeRef) (n : Network α) : prepareNode p n =
    match finding p n with
    | .error e => .error e n
    | .ok f =>
      match f.register n.graph.size n.store with
      | .error e s => .error e { n with graph := n.graph.modifyNode p f.settle, store := s }
      | .ok handles s =>
        .ok ⟨⟩ { n with graph := n.graph.modifyNode p (f.finalize handles), store := s } := by
  unfold finding
  refine (Action.bind_of_ok (Action.get_apply n)).trans ((Action.read_bind _ _ n).trans ?_)
  dsimp only
  cases n.node p with
  | error e => rfl
  | ok a =>
  refine (Action.read_bind _ _ n).trans ?_
  rw [except_ok_bind]
  cases n.ownerOf a with
  | error e => rfl
  | ok owner =>
  refine (Action.read_bind _ _ n).trans ?_
  rw [except_ok_bind]
  cases a.inputs.mapM (n.inputSlot a) with
  | error e => rfl
  | ok inputs =>
  refine (Action.read_bind _ _ n).trans ?_
  rw [except_ok_bind]
  cases inputs.mapM fun slot => n.store.shape slot.value with
  | error e => rfl
  | ok inputShapes =>
  refine (Action.read_bind _ _ n).trans ?_
  rw [except_ok_bind]
  cases a.layer.declare ⟨a.name, inputShapes, a.outputCount, n.batchSize, a.trains⟩ with
  | error e => rfl
  | ok declared =>
  refine (Action.bind_of_ok (Action.modify_apply _ n)).trans ?_
  rw [except_ok_bind, except_pure]
  dsimp only
  cases hregister : (Finding.register ⟨a, owner, inputs, inputShapes, declared⟩ n.graph.size)
    n.store with
  | error e s => exact Action.bind_of_error (Action.focus_of_error hregister)
  | ok handles s =>
    refine Eq.trans (Action.bind_of_ok (Action.focus_of_ok hregister)) ?_
    simp only [modifyNode, Action.modify_apply, NodeGraph.modifyNode, List.modify_modify_eq]
    rfl

theorem finding_eq_ok_iff {f : Finding α} : finding p n = .ok f ↔
    n.graph.nodes[p]? = some f.node ∧ n.ownerOf f.node = .ok f.owner ∧
      f.node.inputs.mapM (n.inputSlot f.node) = .ok f.inputs ∧
      f.inputs.mapM (fun slot => n.store.shape slot.value) = .ok f.inputShapes ∧
      f.node.layer.declare ⟨f.node.name, f.inputShapes, f.node.outputCount, n.batchSize,
        f.node.trains⟩ = .ok f.declared := by
  unfold finding
  constructor
  · intro h
    obtain ⟨a, ha, h⟩ := except_bind_eq_ok_iff.mp h
    obtain ⟨owner, howner, h⟩ := except_bind_eq_ok_iff.mp h
    obtain ⟨inputs, hinputs, h⟩ := except_bind_eq_ok_iff.mp h
    obtain ⟨inputShapes, hshapes, h⟩ := except_bind_eq_ok_iff.mp h
    obtain ⟨declared, hdeclare, h⟩ := except_bind_eq_ok_iff.mp h
    cases h
    exact ⟨node_eq_ok_iff.mp ha, howner, hinputs, hshapes, hdeclare⟩
  · rintro ⟨ha, howner, hinputs, hshapes, hdeclare⟩
    refine except_bind_eq_ok_iff.mpr ⟨_, node_eq_ok_iff.mpr ha,
      except_bind_eq_ok_iff.mpr ⟨_, howner, ?_⟩⟩
    refine except_bind_eq_ok_iff.mpr ⟨_, hinputs, except_bind_eq_ok_iff.mpr ⟨_, hshapes, ?_⟩⟩
    exact except_bind_eq_ok_iff.mpr ⟨_, hdeclare, rfl⟩

section Redone

variable {g g' : NodeGraph (Node α)}

/-- A graph of the same design, which differs in the nodes of `rest` at most. -/
structure Redone (rest : List NodeRef) (g g' : NodeGraph (Node α)) : Prop where
  order : g'.order = g.order
  design : g'.nodes.map LayerGraph.design = g.nodes.map LayerGraph.design
  kept : ∀ q ∉ rest, g'.nodes[q]? = g.nodes[q]?

theorem Redone.refl (g : NodeGraph (Node α)) : Redone rest g g := ⟨rfl, rfl, fun _ _ => rfl⟩

theorem Redone.modifyNode (h : Redone rest g g') (hp : p ∈ rest) {f : Node α → Node α}
    (hf : ∀ a, LayerGraph.design (f a) = LayerGraph.design a) :
    Redone rest g (g'.modifyNode p f) := by
  refine ⟨h.order, (map_modify_eq hf _ _).trans h.design, fun q hq => ?_⟩
  have hne : p ≠ q := fun heq => hq (heq ▸ hp)
  rw [getElem?_modifyNode, h.kept q hq]
  simp [hne]

theorem keeps_redone_prepareNode (hp : p ∈ rest) :
    Action.Keeps (fun n : Network α => Redone rest g n.graph) (prepareNode p) := by
  intro n h
  unfold Action.after
  rw [prepareNode_apply]
  cases finding p n with
  | error e => exact h
  | ok f =>
    dsimp only
    cases f.register n.graph.size n.store with
    | error e s => exact h.modifyNode hp fun _ => rfl
    | ok handles s => exact h.modifyNode hp fun _ => rfl

theorem redone_forM (rest : List NodeRef) (n : Network α) :
    Redone rest n.graph ((rest.forM prepareNode).after n).graph :=
  Action.keeps_forM (fun _ hp => keeps_redone_prepareNode hp) n (.refl _)

theorem ownerOf_of_redone (hg : Redone rest n.graph g) {a b : Node α} (h : design b = design a) :
    ownerOf { n with graph := g } b = n.ownerOf a := by
  simp only [design, wires, Prod.mk.injEq] at h
  have hany : ∀ (g : NodeGraph (Node α)) (name : String), g.contains name =
      (g.nodes.map design).any fun d => d.1.1 == name := by
    intro g name
    rw [List.any_map]
    rfl
  unfold Network.ownerOf
  simp only [h.1.1, h.2.2.2.1, hany, hg.design]

/-- A node reads what is done before it, which is as it was. -/
theorem inputSlot_of_redone (hreg : Registered n.graph n.store n.batchSize done)
    (hsplit : n.graph.order = done ++ p :: rest) (hg : Redone (p :: rest) n.graph g) {a b : Node α}
    (ha : n.graph.nodes[p]? = some a) {conn : Connection} (hconn : conn ∈ a.inputs) {x : Wire}
    (hx : n.inputSlot a conn = .ok x) : inputSlot { n with graph := g } b conn = .ok x := by
  have hd := hreg.compiled.wired.distinct
  obtain ⟨q, c, hq, hc, hout⟩ := inputSlot_eq_ok rfl hd hx
  obtain ⟨i, hi⟩ := List.getElem?_of_mem hconn
  have hdone := producer_done hreg hsplit ⟨a, conn, ha, hi, hq, rfl⟩
  have hnodup : (done ++ p :: rest).Nodup := hsplit ▸ nodup_order hreg.compiled.ordered.perm
  have hrest : q ∉ p :: rest := fun hmem => (List.nodup_append.mp hnodup).2.2 q hdone q hmem rfl
  have hd' : g.Distinct := (hreg.compiled.wired.of_wires (wires_of_design hg.design)).distinct
  have hc' : g.nodes[q]? = some c := (hg.kept q hrest).trans hc
  obtain ⟨c₀, hc₀, hname⟩ := (NodeGraph.indexOf?_eq_some_iff hd).mp hq
  rw [hc] at hc₀
  cases hc₀
  have hfind : g.find? conn.name = some c :=
    (NodeGraph.find?_eq_some_iff hd').mpr ⟨List.mem_of_getElem? hc', hname⟩
  unfold Network.inputSlot
  rw [hfind]
  dsimp only
  rw [hout]

/-- What is found for a node does not depend on what is left in it and in the nodes after it. -/
theorem finding_of_redone (hreg : Registered n.graph n.store n.batchSize done)
    (hsplit : n.graph.order = done ++ p :: rest) (hg : Redone (p :: rest) n.graph g) {f : Finding α}
    (hf : finding p n = .ok f) {a : Node α} (ha : g.nodes[p]? = some a) :
    finding p { n with graph := g } = .ok { f with node := a } ∧ design a = design f.node := by
  obtain ⟨hnode, howner, hinputs, hshapes, hdeclare⟩ := finding_eq_ok_iff.mp hf
  obtain ⟨b, hb, hdesign⟩ := getElem?_of_map_eq hg.design ha
  rw [hnode] at hb
  cases hb
  have hdesign : design a = design f.node := hdesign.symm
  refine ⟨finding_eq_ok_iff.mpr ⟨ha, (ownerOf_of_redone hg hdesign).trans howner, ?_, hshapes, ?_⟩,
    hdesign⟩
  · have hin : a.inputs = f.node.inputs := congrArg (·.1.2.1) hdesign
    have hslots : ∀ conn ∈ f.node.inputs, inputSlot { n with graph := g } a conn =
        n.inputSlot f.node conn := by
      intro conn hconn
      obtain ⟨x, -, hx⟩ := except_mapM_mem hinputs hconn
      rw [hx]
      exact inputSlot_of_redone hreg hsplit hg hnode hconn hx
    rw [hin, except_mapM_congr hslots]
    exact hinputs
  · simp only [design, wires, Prod.mk.injEq] at hdesign
    obtain ⟨⟨hname, -, houtputs⟩, hlayer, htrainable, -⟩ := hdesign
    rw [Node.outputCount, Node.trains, hname, houtputs, hlayer, htrainable]
    exact hdeclare

theorem settleUse_idem (use : BufferUse) (inputShapes outputShapes : List Shape) :
    settleUse (settleUse use inputShapes outputShapes) inputShapes outputShapes =
      settleUse use inputShapes outputShapes := by
  rcases settleUse_eq_or use inputShapes outputShapes with h | h
  · rw [h]
    exact h
  · rw [h]
    exact (settleUse_eq_or .own inputShapes outputShapes).elim id id

theorem modifyNode_of_fixed {a : Node α} {f : Node α → Node α} (ha : g.nodes[p]? = some a)
    (hf : f a = a) : g.modifyNode p f = g := by
  have hnodes : g.nodes.modify p f = g.nodes := by
    refine List.ext_getElem? fun q => ?_
    rw [List.getElem?_modify]
    by_cases hq : p = q
    · subst hq
      simp [ha, hf]
    · simp [hq]
  unfold NodeGraph.modifyNode
  rw [hnodes]

/-- A node that is left with its use settled registers the same as before. -/
theorem prepareNode_of_redone (hreg : Registered n.graph n.store n.batchSize done)
    (hsplit : n.graph.order = done ++ p :: rest) (hg : Redone (p :: rest) n.graph g) {f : Finding α}
    (hf : finding p n = .ok f) {a : Node α} (ha : g.nodes[p]? = some a) (hu : a.bufferUse = f.use) :
    prepareNode p { n with graph := g } =
      match f.register n.graph.size n.store with
      | .error e s => .error e { n with graph := g.modifyNode p f.settle, store := s }
      | .ok handles s =>
        .ok ⟨⟩ { n with graph := g.modifyNode p (f.finalize handles), store := s } := by
  obtain ⟨hf', hdesign⟩ := finding_of_redone hreg hsplit hg hf ha
  have huse : Finding.use { f with node := a } = f.use := by
    unfold Finding.use at hu ⊢
    dsimp only
    rw [hu, settleUse_idem]
  have hregister : Finding.register { f with node := a } = f.register := by
    funext size
    unfold Finding.register
    rw [huse]
    exact register_of_design hdesign _ _ _ _ _
  have hsize : g.size = n.graph.size := by
    simpa [NodeGraph.size] using congrArg List.length hg.design
  rw [prepareNode_apply, hf']
  dsimp only
  rw [hregister, hsize]
  unfold Finding.settle Finding.finalize
  rw [huse]

/-- Going through the nodes again, with what the first time has left in them, comes to the same. -/
theorem forM_prepareNode_again (hreg : Registered n.graph n.store n.batchSize done)
    (hsplit : n.graph.order = done ++ rest) :
    rest.forM prepareNode { n with graph := ((rest.forM prepareNode).after n).graph } =
      rest.forM prepareNode n := by
  induction rest generalizing done n with
  | nil => rfl
  | cons p rest ih =>
    have hcons : (p :: rest).forM prepareNode = (do
      prepareNode (α := α) p
      rest.forM prepareNode) := rfl
    have hg := redone_forM (p :: rest) n
    generalize hm : ((p :: rest).forM prepareNode).after n = m at hg ⊢
    rw [hcons] at hm ⊢
    have hstep := prepareNode_apply p n
    cases hf : finding p n with
    | error e =>
      rw [hf] at hstep
      rw [Action.after_of_error (Action.bind_of_error hstep)] at hm
      rw [← hm]
    | ok f =>
      rw [hf] at hstep
      dsimp only at hstep
      obtain ⟨hnode, -⟩ := finding_eq_ok_iff.mp hf
      cases hr : f.register n.graph.size n.store with
      | error e s =>
        rw [hr] at hstep
        rw [Action.after_of_error (Action.bind_of_error hstep)] at hm
        subst hm
        have ha : (n.graph.modifyNode p f.settle).nodes[p]? = some (f.settle f.node) := by
          rw [getElem?_modifyNode, hnode]
          simp
        have hagain := prepareNode_of_redone hreg hsplit hg hf ha rfl
        rw [hr, modifyNode_of_fixed ha rfl] at hagain
        rw [Action.bind_of_error hagain, Action.bind_of_error hstep]
      | ok handles s =>
        rw [hr] at hstep
        obtain ⟨hreg', hset⟩ := registered_step hreg hsplit hstep
        rw [Action.after_bind_of_ok hstep] at hm
        have hafter :=
          redone_forM rest { n with graph := n.graph.modifyNode p (f.finalize handles), store := s }
        have hp : p ∉ rest := by
          have hnodup := nodup_order hreg.compiled.ordered.perm
          rw [hsplit] at hnodup
          exact (List.nodup_cons.mp (List.nodup_append.mp hnodup).2.1).1
        have ha : m.graph.nodes[p]? = some (f.finalize handles f.node) := by
          rw [← hm, hafter.kept p hp, getElem?_modifyNode, hnode]
          simp
        have hagain := prepareNode_of_redone hreg hsplit hg hf ha rfl
        rw [hr] at hagain
        dsimp only at hagain
        rw [modifyNode_of_fixed ha rfl] at hagain
        have hrest := ih hreg' (by rw [hset.order, hsplit, List.append_assoc]; rfl)
        rw [hm] at hrest
        rw [Action.bind_of_ok hagain, Action.bind_of_ok hstep]
        exact hrest

end Redone

section Again

/-- What finalizing nodes changes is the graph and the store. -/
theorem keeps_rest_prepareNode (n : Network α) (p : NodeRef) :
    Action.Keeps (fun m : Network α => ∃ g s, m = { n with graph := g, store := s })
      (prepareNode p) := by
  rintro _ ⟨g, s, rfl⟩
  unfold Action.after
  rw [prepareNode_apply]
  cases finding p { n with graph := g, store := s } with
  | error e => exact ⟨_, _, rfl⟩
  | ok f =>
    dsimp only
    cases f.register g.size s with
    | error e s' => exact ⟨_, _, rfl⟩
    | ok handles s' => exact ⟨_, _, rfl⟩

/-- Nodes are all that a preparation that fails has changed. -/
theorem prepareAll_eq_error {inputs labels : List String} {e : Error}
    (h : prepareAll inputs labels n = .error e n') :
    n' = (n.graph.order.forM prepareNode).after n := by
  unfold prepareAll at h
  rw [Action.bind_of_ok (Action.get_apply n)] at h
  cases hall : n.graph.order.forM prepareNode n with
  | error e' m =>
    rw [Action.bind_of_error hall] at h
    cases h
    exact (Action.after_of_error hall).symm
  | ok u m =>
    rw [Action.bind_of_ok hall] at h
    rw [Action.after_of_ok hall]
    refine Action.Fails.bind (P := (· = m)) (Action.keeps_read _) (fun _ => ?_) m e n' rfl h
    exact Action.Fails.bind (Action.keeps_read _) fun _ => Action.fails_modify _

theorem prepare_eq_error {inputs labels : List String} {e : Error} (hclosed : n.isCompiled = true)
    (hunprepared : n.isPrepared = false) (h : prepare inputs labels n = .error e n') :
    ∃ m, prepareAll inputs labels n = .error e m ∧ n' = { m with store := m.store.reset } := by
  unfold prepare at h
  rw [Action.bind_of_ok (Action.get_apply n)] at h
  dsimp only at h
  rw [if_neg (by rw [hclosed]; simp), Action.bind_of_ok (Action.get_apply n),
    if_neg (by rw [hunprepared]; simp)] at h
  cases hall : prepareAll inputs labels n with
  | ok u m =>
    rw [Action.bind_of_ok (Action.tryCatch_of_ok hall)] at h
    cases h
  | error e' m =>
    have htry : ∀ handler : Error → Action (Network α) Unit,
        (tryCatch (prepareAll inputs labels) handler : Action (Network α) Unit) n = handler e' m :=
          fun handler =>
      Action.tryCatch_of_error hall
    cases (Action.bind_of_error ((htry _).trans (by rfl))).symm.trans h
    exact ⟨m, rfl, rfl⟩

/-- A store of which nothing is registered or planned is what emptying makes of it. -/
theorem reset_of_sameBuffers {s s' : Store α} (h : Store.SameBuffers s s') (hblank : s.IsBlank)
    (hplan : s.plan = .empty) : s'.reset = s := by
  obtain ⟨_, _, _, _, _, _, _, _, _, _, _, _⟩ := s
  obtain ⟨-, -, -, -, hforward, hmax, hoptimize, hlimit, -, -⟩ := h
  obtain ⟨rfl, rfl, rfl, rfl, rfl, rfl, rfl⟩ := hblank
  cases hplan
  unfold Store.reset
  rw [hforward, hmax, hoptimize, hlimit]
  rfl

/-- What a preparation that fails leaves behind is what it has found in the nodes. -/
theorem after_prepare_of_error (hd : Drawn n) (hplan : n.store.plan = .empty)
    {inputs labels : List String} {e : Error} (h : prepare inputs labels n = .error e n') :
    n' = { n with graph := ((n.graph.order.forM prepareNode).after n).graph } := by
  obtain ⟨m, hall, rfl⟩ := prepare_eq_error hd.closed hd.unprepared h
  rw [← prepareAll_eq_error hall]
  have hbuffers := keeps_unsettled_prepareAll inputs labels n (unsettled_refl hd)
  rw [Action.after_of_error hall] at hbuffers
  obtain ⟨g, s, hm⟩ : ∃ g s, m = { n with graph := g, store := s } := by
    rw [prepareAll_eq_error hall]
    exact Action.keeps_forM (fun p _ => keeps_rest_prepareNode n p) n ⟨_, _, rfl⟩
  rw [reset_of_sameBuffers hbuffers.requested.1 hd.blank hplan, hm]

/-- A preparation after one that has failed comes out as if it were the first. -/
theorem prepare_after_of_error (hd : Drawn n) (hplan : n.store.plan = .empty)
    {inputs labels : List String} {e : Error} (h : prepare inputs labels n = .error e n')
    (inputs' labels' : List String) : prepare inputs' labels' n' = prepare inputs' labels' n := by
  have horder := (redone_forM n.graph.order n).order
  have hagain := forM_prepareNode_again (registered_nil hd) (List.nil_append n.graph.order).symm
  rw [after_prepare_of_error hd hplan h]
  generalize ((n.graph.order.forM prepareNode).after n).graph = g at horder hagain
  have hall : prepareAll inputs' labels' { n with graph := g } = prepareAll inputs' labels' n := by
    unfold prepareAll
    rw [Action.bind_of_ok (Action.get_apply _), Action.bind_of_ok (Action.get_apply _)]
    dsimp only
    rw [horder]
    exact Action.bind_congr hagain _
  unfold prepare
  rw [Action.bind_of_ok (Action.get_apply _), Action.bind_of_ok (Action.get_apply _)]
  dsimp only
  rw [if_neg (by rw [hd.closed]; simp), Action.bind_of_ok (Action.get_apply _),
    Action.bind_of_ok (Action.get_apply _)]
  dsimp only
  rw [if_neg (by rw [hd.unprepared]; simp)]
  exact Action.bind_congr (Action.tryCatch_congr hall _) _

end Again

end Network

/-- A store plans slots for the mode it is allocated for, and none otherwise. -/
def Store.Unplanned (s : Store α) : Prop := s.mode = none → s.plan = .empty

theorem Store.keeps_unplanned_allocate (mode : RunMode) :
    Action.Keeps (Unplanned (α := α)) (allocate mode) := by
  intro s h
  by_cases hmode : s.mode = some mode
  · rw [Action.after_of_ok (allocate_of_eq hmode)]
    exact h
  · have hreleased : s.released.Unplanned := by
      unfold released
      split
      · exact fun _ => rfl
      · exact h
    unfold Action.after
    rw [allocate_of_ne hmode]
    refine Action.keeps_update (fun s s' _ hp => ?_) s.released hreleased
    obtain ⟨_, -, hp⟩ := except_bind_eq_ok_iff.mp hp
    cases hp
    exact fun hnone => absurd hnone (Option.some_ne_none mode)

namespace Network

variable {n n' : Network α} {p : NodeRef}

section Unplanned

/-- A network of which only what it is allocated for is planned. -/
structure Idle [Scalar α] (n : Network α) : Prop where
  plan : n.store.Unplanned
  confined : ∀ a ∈ n.graph.nodes, a.layer.Confined

namespace Idle

variable [Scalar α]

theorem ofSettings (settings : NetworkSettings) : Idle (ofSettings settings : Network α) :=
  ⟨fun _ => rfl, fun a ha => by cases ha⟩

theorem withStore (h : Idle n) {s : Store α} (hmode : s.mode = n.store.mode)
    (hplan : s.plan = n.store.plan) : Idle { n with store := s } :=
  ⟨fun hnone => hplan.trans (h.plan (hmode.symm.trans hnone)), h.confined⟩

theorem steady : Steady (Idle (α := α)) where
  write n id v s h hset :=
    h.withStore (Store.sameLayout_of_set hset).mode (Store.sameLayout_of_set hset).plan
  keep n p loss notes h := ⟨h.plan, confined_modifyNode (fun _ => by rfl) h.confined p⟩
  confined n h := h.confined

theorem drafting : Drafting (fun a : Node α => a.layer.Confined) Idle where
  nodes _ h := h.confined
  redrawn _ _ _ h hg := ⟨h.plan, hg⟩
  bounded _ _ _ h := h.withStore rfl rfl

theorem keeps_prepareNode (p : NodeRef) : Action.Keeps (Idle (α := α)) (prepareNode p) := by
  intro n h
  unfold Action.after
  rw [prepareNode_apply]
  cases finding p n with
  | error e => exact h
  | ok f =>
    have hbuffers : n.store.SameBuffers ((f.register n.graph.size).after n.store) :=
      keeps_register (Store.tabular_sameBuffers n.store) f.node f.use f.inputs f.owner _
        f.declared n.store (.refl _)
    dsimp only
    cases hr : f.register n.graph.size n.store with
    | error e s =>
      rw [Action.after_of_error hr] at hbuffers
      exact ⟨(h.withStore hbuffers.mode hbuffers.plan).plan,
        confined_modifyNode (fun _ => by rfl) h.confined p⟩
    | ok handles s =>
      rw [Action.after_of_ok hr] at hbuffers
      exact ⟨(h.withStore hbuffers.mode hbuffers.plan).plan,
        confined_modifyNode (fun _ => by rfl) h.confined p⟩

theorem keeps_prepare (inputs labels : List String) :
    Action.Keeps (Idle (α := α)) (prepare inputs labels) := by
  refine keeps_prepare_of (keeps_prepareAll_of keeps_prepareNode fun n _ _ _ h => ?_)
    (fun n h => ?_) fun n h => ?_
  · exact ⟨h.plan, h.confined⟩
  · exact ⟨fun _ => rfl, h.confined⟩
  · exact ⟨h.plan, h.confined⟩

theorem keeps_allocate (mode : RunMode) : Action.Keeps (Idle (α := α)) (allocate mode) := by
  refine keeps_allocate_of (fun n h _ => ?_) fun n h => ⟨h.plan, h.confined⟩
  exact ⟨Store.keeps_unplanned_allocate mode n.store h.plan, h.confined⟩

theorem keeps_fillWeights : Action.Keeps (Idle (α := α)) fillWeights := by
  refine keeps_fillWeights_of fun n h _ => ?_
  refine ⟨Action.keeps_update (P := Store.Unplanned) (fun s s' hs hset => ?_) n.store h.plan,
    h.confined⟩
  split at hset
  · cases hset
    exact hs
  · obtain ⟨_, -, hset⟩ := except_bind_eq_ok_iff.mp hset
    cases hset
    exact hs

theorem keeps_requestStates (shapes : Shape → List Shape) :
    Action.Keeps (Idle (α := α)) (requestStates shapes) := by
  refine keeps_requestStates_of fun n h _ _ => ?_
  have hbuffers := Store.sameBuffers_requestStates n.store shapes
  exact h.withStore hbuffers.mode hbuffers.plan

theorem keeps_rebatch (batch : Nat) : Action.Keeps (Idle (α := α)) (rebatch batch) := by
  refine keeps_rebatch_of (fun n h => ⟨h.plan, h.confined⟩) (fun n h _ => ?_) fun n h =>
    ⟨h.plan, ?_⟩
  · refine ⟨Action.keeps_update (P := Store.Unplanned) (fun s s' hs hset => ?_) n.store h.plan,
      h.confined⟩
    split at hset
    · cases hset
    · cases hset
      exact hs
  · exact Lowering.all_of_map_eq (f := (·.layer)) (fun _ _ heq ha => heq ▸ ha)
      (by rw [List.map_map]; rfl) h.confined

theorem enduring : Enduring (Idle (α := α)) where
  toSteady := steady
  allocated := keeps_allocate
  filled := keeps_fillWeights
  released _ h := ⟨fun _ => rfl, h.confined⟩
  requested := keeps_requestStates
  rebatched := keeps_rebatch

theorem call (h : Idle n) (hc : Call n n') : Idle n' := by
  refine enduring.keeps_call h hc (fun node hn heq => heq ▸ ?_)
    (fun nodes fragment hn heq => heq ▸ ?_) (fun loss => ?_)
      (fun inputs labels => keeps_prepare inputs labels n h) ⟨fun _ => rfl, h.confined⟩
    (h.withStore rfl rfl) (fun _ => ⟨h.plan, h.confined⟩) ⟨h.plan, h.confined⟩
  · exact drafting.keeps_add (fun a b hl _ => confined_of_layer a b hl) hn n h
  · exact drafting.keeps_extend (fun a b hl _ => confined_of_layer a b hl) fragment hn n h
  · exact drafting.keeps_compile inherited_confined confined_of_layer
      (fun _ h => ⟨h.plan, h.confined⟩) loss n h

theorem of_calls {settings : NetworkSettings}
    (h : Relation.ReflTransGen Call (Network.ofSettings settings) n) : Idle n := by
  induction h with
  | refl => exact .ofSettings settings
  | tail _ hc ih => exact ih.call hc

end Idle

end Unplanned

/-- A preparation that fails. -/
def Halts (n n' : Network α) : Prop := ∃ inputs labels e, prepare inputs labels n = .error e n'

/-- However often it has failed to prepare a network that is compiled, nothing is registered, and
preparing it comes out as if it were the first time. -/
theorem prepare_of_halts [Scalar α] {asks : (Shape → List Shape) → Prop} (h : Reached asks n)
    (hc : n.isCompiled = true) (hu : n.isPrepared = false)
    (hhalts : Relation.ReflTransGen Halts n n') :
    n'.isPrepared = false ∧ n'.store.entries = [] ∧ n'.store.weights = [] ∧
      ∀ inputs labels, prepare inputs labels n' = prepare inputs labels n := by
  have hd : Drawn n := by
    rcases sound_of_reached h with hd | hd | hp
    · exact absurd (hd.open_.symm.trans hc) Bool.false_ne_true
    · exact hd
    · exact absurd (hu.symm.trans hp.prepared) Bool.false_ne_true
  have hplan : n.store.plan = .empty := by
    obtain ⟨settings, hleads⟩ := leads_of_reached h
    exact (Idle.of_calls (calls_of_leads hleads)).plan hd.blank.mode
  have hall : Drawn n' ∧ n'.store.plan = .empty ∧
      ∀ inputs labels, prepare inputs labels n' = prepare inputs labels n := by
    induction hhalts with
    | refl => exact ⟨hd, hplan, fun _ _ => rfl⟩
    | tail _ hstep ih =>
      obtain ⟨inputs, labels, e, he⟩ := hstep
      obtain ⟨hd₁, hplan₁, hsame⟩ := ih
      refine ⟨fails_drawn_prepare inputs labels _ e _ hd₁ he, ?_, fun inputs' labels' => ?_⟩
      · rw [after_prepare_of_error hd₁ hplan₁ he]
        exact hplan₁
      · exact (prepare_after_of_error hd₁ hplan₁ he inputs' labels').trans (hsame inputs' labels')
  exact ⟨hall.1.unprepared, hall.1.blank.entries, hall.1.blank.weights, hall.2.2⟩

/-- There is no input `z`, so this fails once both nodes are finalized. -/
def mistaken : Network Float32 := (prepare ["z"] []).after tightCompiled

theorem halts_mistaken : Halts tightCompiled mistaken := by
  have hfails : Action.endsWell (prepare ["z"] []) tightCompiled = false := by decide +kernel
  unfold Action.endsWell at hfails
  cases hr : prepare ["z"] [] tightCompiled with
  | ok u n =>
    rw [hr] at hfails
    cases hfails
  | error e n =>
    refine ⟨["z"], [], e, ?_⟩
    rw [hr, mistaken, Action.after_of_error hr]

theorem reached_tight : Reached (fun _ : Shape → List Shape => False) tightCompiled := by
  have h : Reached (fun _ => False) ((compile none).after tight) :=
    .compile _ (.add _ (Node.isPlain_ofLayer rfl _ _)
      (.add _ (Node.isPlain_ofLayer rfl _ _) (.settings _)))
  rwa [Action.after_of_ok compile_tight] at h

theorem mistaken_prepare_of_halts : Halts tightCompiled mistaken ∧ mistaken.isPrepared = false ∧
    mistaken.store.entries = [] ∧ mistaken.store.weights = [] ∧
    prepare [] [] mistaken = prepare [] [] tightCompiled ∧
    Action.endsWell (prepare [] []) tightCompiled = true := by
  obtain ⟨hunprepared, hentries, hweights, hagain⟩ :=
    prepare_of_halts reached_tight rfl rfl (.single halts_mistaken)
  exact ⟨halts_mistaken, hunprepared, hentries, hweights, hagain [] [], by decide +kernel⟩

end Network

end LayerGraph
