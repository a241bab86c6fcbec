import LayerGraph.Proofs.Network.Compile
import LayerGraph.Proofs.Network.Declared
import LayerGraph.Proofs.Store.Tables

/-!
# Preparing in order

Preparing goes through the nodes in sorted order. Those that are done hold what they have
registered, they are linked to their producers, and no tensor belongs to two of them.
-/

namespace LayerGraph

variable {α : Type}

/-- What the nodes in `done` have, one after the other. -/
def gather {β : Type} (g : NodeGraph (Node α)) (done : List NodeRef) (f : Node α → List β) :
    List β :=
  done.flatMap fun p => ((g.nodes[p]?).map f).getD []

/-- The tensors that the nodes in `done` have brought along. -/
def ownedBy (g : NodeGraph (Node α)) (done : List NodeRef) : List TensorRef :=
  gather g done fun a => a.tensors.owned

/-- The steps at which the nodes in `done` add to the gradient of a weight. -/
def usesOf (g : NodeGraph (Node α)) (done : List NodeRef) (w : WeightRef) : List Nat :=
  gather g done fun a => Network.collectSteps a a.tensors.weights w

/-- The inputs of a node are outputs of its producers. -/
structure Linked (g : NodeGraph (Node α)) (p : NodeRef) (a : Node α) : Prop where
  length : a.tensors.inputs.length = a.inputs.length
  wire : ∀ i q k b, ReadsSlot g p i q k → g.nodes[q]? = some b →
    ∃ x, b.tensors.outputs[k]? = some x ∧ a.tensors.inputs[i]? = some x

/-- A graph and a store in which the nodes in `done` are registered. -/
structure Registered (g : NodeGraph (Node α)) (s : Store α) (batch : Nat) (done : List NodeRef) :
    Prop where
  compiled : Compiled g
  registry : Store.Registry batch s
  collected : Store.Collected (usesOf g done) s
  holds : ∀ p ∈ done, ∀ a, g.nodes[p]? = some a → a.Holds s g.size
  linked : ∀ p ∈ done, ∀ a, g.nodes[p]? = some a → Linked g p a
  nodup : (ownedBy g done).Nodup
  bound : ∀ id ∈ ownedBy g done, id < s.entries.length
  forwardSteps : s.forwardSteps = g.size
  maxStep : s.maxStep = Network.lastStep g

section Gather

variable {β : Type} {g g' : NodeGraph (Node α)} {done : List NodeRef} {f : Node α → List β}

theorem gather_append {more : List NodeRef} :
    gather g (done ++ more) f = gather g done f ++ gather g more f := by
  simp [gather]

theorem gather_congr (h : ∀ p ∈ done, g'.nodes[p]?.map f = g.nodes[p]?.map f) :
    gather g' done f = gather g done f := by
  unfold gather
  induction done with
  | nil => rfl
  | cons p done ih =>
    rw [List.flatMap_cons, List.flatMap_cons, h p (by simp), ih fun q hq => h q (by simp [hq])]

/-- An edit of a node that comes next. -/
theorem gather_modifyNode {p : NodeRef} {a : Node α} {edit : Node α → Node α} (hp : p ∉ done)
    (ha : g.nodes[p]? = some a) :
    gather (g.modifyNode p edit) (done ++ [p]) f = gather g done f ++ f (edit a) := by
  have hdone : gather (g.modifyNode p edit) done f = gather g done f := by
    refine gather_congr fun q hq => ?_
    rw [getElem?_modifyNode_of_ne edit fun (heq : q = p) => hp (heq ▸ hq)]
  rw [gather_append, hdone]
  congr 1
  simp [gather, getElem?_modifyNode, ha]

theorem mem_gather_iff {b : β} :
    b ∈ gather g done f ↔ ∃ p ∈ done, ∃ a, g.nodes[p]? = some a ∧ b ∈ f a := by
  unfold gather
  rw [List.mem_flatMap]
  constructor
  · rintro ⟨p, hp, hb⟩
    cases ha : g.nodes[p]? with
    | none => simp [ha] at hb
    | some a => exact ⟨p, hp, a, ha, by simpa [ha] using hb⟩
  · rintro ⟨p, hp, a, ha, hb⟩
    exact ⟨p, hp, by simpa [ha] using hb⟩

end Gather

namespace Network

variable {n n' : Network α}

/-- A graph on its way from the compiled one to the prepared one: the design stays, and nodes only
give up sharing. -/
structure Settling (g₀ g : NodeGraph (Node α)) : Prop where
  order : g.order = g₀.order
  design : g.nodes.map LayerGraph.design = g₀.nodes.map LayerGraph.design
  use : ∀ (p : Nat) (a a' : Node α), g₀.nodes[p]? = some a → g.nodes[p]? = some a' →
    a'.bufferUse = a.bufferUse ∨ a'.bufferUse = .own

theorem Settling.refl (g : NodeGraph (Node α)) : Settling g g := by
  refine ⟨rfl, rfl, fun p a a' ha ha' => ?_⟩
  rw [ha] at ha'
  cases ha'
  exact .inl rfl

theorem Settling.trans {g₁ g₂ g₃ : NodeGraph (Node α)} (h : Settling g₁ g₂) (h' : Settling g₂ g₃) :
    Settling g₁ g₃ := by
  refine ⟨h'.order.trans h.order, h'.design.trans h.design, fun p a c ha hc => ?_⟩
  obtain ⟨b, hb, -⟩ := getElem?_of_map_eq h'.design hc
  rcases h'.use p b c hb hc with hcb | hcb
  · rcases h.use p a b ha hb with hba | hba
    · exact .inl (hcb.trans hba)
    · exact .inr (hcb.trans hba)
  · exact .inr hcb

theorem Settling.compiled {g₀ g : NodeGraph (Node α)} (h : Settling g₀ g) (hc : Compiled g₀) :
    Compiled g := hc.of_design h.order h.design h.use

theorem settling_modifyNode {g : NodeGraph (Node α)} {p : NodeRef} {f : Node α → Node α}
    (hf : ∀ a, LayerGraph.design (f a) = LayerGraph.design a)
    (hu : ∀ a, g.nodes[p]? = some a → (f a).bufferUse = a.bufferUse ∨ (f a).bufferUse = .own) :
    Settling g (g.modifyNode p f) := by
  refine ⟨rfl, map_modify_eq hf _ _, fun q a a' ha ha' => ?_⟩
  rw [getElem?_modifyNode, ha] at ha'
  cases ha'
  split
  · next h =>
    subst h
    exact hu a ha
  · exact .inl rfl

theorem settleUse_eq_or (use : BufferUse) (inputShapes outputShapes : List Shape) :
    settleUse use inputShapes outputShapes = use ∨
      settleUse use inputShapes outputShapes = .own := by
  unfold settleUse
  split
  · split
    · exact .inl rfl
    · exact .inr rfl
  · exact .inr rfl

theorem settleUse_ne_own {use : BufferUse} {inputShapes outputShapes : List Shape}
    (h : settleUse use inputShapes outputShapes ≠ .own) :
    ∃ shape, inputShapes = [shape] ∧ ∀ sh ∈ outputShapes, sh = shape := by
  unfold settleUse at h
  split at h
  · next shape =>
    split at h
    · next hall => exact ⟨shape, rfl, by simpa using hall⟩
    · exact absurd rfl h
  · exact absurd rfl h

/-- A node with what finalizing it has found. -/
def finalized (use : BufferUse) (inputShapes outputShapes : List Shape) (handles : Handles)
    (a : Node α) : Node α :=
  { a with
    bufferUse := use, inputShapes := inputShapes, outputShapes := outputShapes, tensors := handles }

/-- The stages of finalizing a node. -/
theorem stages_of_prepareNode {p : NodeRef} {u : Unit} (h : prepareNode p n = .ok u n') :
    ∃ (a : Node α) (owner : String) (inputs : List Wire) (inputShapes : List Shape)
      (declared : Declaration α) (use : BufferUse) (handles : Handles) (s' : Store α),
      n.graph.nodes[p]? = some a ∧ n.ownerOf a = .ok owner ∧
      a.inputs.mapM (n.inputSlot a) = .ok inputs ∧
      inputs.mapM (fun x => n.store.shape x.value) = .ok inputShapes ∧
      a.layer.declare ⟨a.name, inputShapes, a.outputCount, n.batchSize, a.trains⟩ = .ok declared ∧
      use = settleUse a.bufferUse inputShapes declared.outputShapes ∧
      register a use owner n.graph.size inputs declared n.store = .ok handles s' ∧
      n' = { n with
        graph := n.graph.modifyNode p (finalized use inputShapes declared.outputShapes handles)
        store := s' } := by
  obtain ⟨_, _, hget, h₁⟩ := Action.bind_eq_ok_iff.mp h
  cases hget
  obtain ⟨a, _, hread, h₂⟩ := Action.bind_eq_ok_iff.mp h₁
  obtain ⟨hnode, rfl⟩ := Action.read_eq_ok_iff.mp hread
  obtain ⟨owner, _, hread, h₃⟩ := Action.bind_eq_ok_iff.mp h₂
  obtain ⟨howner, rfl⟩ := Action.read_eq_ok_iff.mp hread
  obtain ⟨inputs, _, hread, h₄⟩ := Action.bind_eq_ok_iff.mp h₃
  obtain ⟨hinputs, rfl⟩ := Action.read_eq_ok_iff.mp hread
  obtain ⟨inputShapes, _, hread, h₅⟩ := Action.bind_eq_ok_iff.mp h₄
  obtain ⟨hshapes, rfl⟩ := Action.read_eq_ok_iff.mp hread
  obtain ⟨declared, _, hread, h₆⟩ := Action.bind_eq_ok_iff.mp h₅
  obtain ⟨hdeclare, rfl⟩ := Action.read_eq_ok_iff.mp hread
  obtain ⟨_, _, hmodify, h₇⟩ := Action.bind_eq_ok_iff.mp h₆
  cases hmodify
  obtain ⟨handles, _, hfocus, h₈⟩ := Action.bind_eq_ok_iff.mp h₇
  obtain ⟨s', hregister, rfl⟩ := Action.focus_eq_ok_iff.mp hfocus
  cases h₈
  have ha : n.graph.nodes[p]? = some a := by
    unfold Network.node at hnode
    split at hnode
    · next heq =>
      cases hnode
      exact heq
    · cases hnode
  refine ⟨a, owner, inputs, inputShapes, declared, _, handles, s', ha, howner, hinputs, hshapes,
    hdeclare, rfl, hregister, ?_⟩
  simp only [NodeGraph.modifyNode, List.modify_modify_eq]
  rfl

/-- A node whose stages end well is finalized. -/
theorem prepareNode_of_stages {p : NodeRef} {s' : Store α} {a : Node α} {owner : String}
    {inputs : List Wire} {inputShapes : List Shape} {declared : Declaration α} {use : BufferUse}
    {handles : Handles} (ha : n.graph.nodes[p]? = some a) (howner : n.ownerOf a = .ok owner)
    (hinputs : a.inputs.mapM (n.inputSlot a) = .ok inputs)
    (hshapes : inputs.mapM (fun x => n.store.shape x.value) = .ok inputShapes)
    (hdeclare : a.layer.declare ⟨a.name, inputShapes, a.outputCount, n.batchSize, a.trains⟩ =
      .ok declared) (huse : use = settleUse a.bufferUse inputShapes declared.outputShapes)
    (hregister : register a use owner n.graph.size inputs declared n.store = .ok handles s') :
    prepareNode p n = .ok ⟨⟩ { n with
      graph := n.graph.modifyNode p (finalized use inputShapes declared.outputShapes handles)
      store := s' } := by
  subst huse
  have hnode : n.node p = .ok a := by
    unfold Network.node
    rw [ha]
  refine Action.bind_eq_ok_iff.mpr ⟨n, n, rfl, ?_⟩
  refine Action.bind_eq_ok_iff.mpr ⟨a, n, Action.read_of_ok hnode, ?_⟩
  refine Action.bind_eq_ok_iff.mpr ⟨owner, n, Action.read_of_ok howner, ?_⟩
  refine Action.bind_eq_ok_iff.mpr ⟨inputs, n, Action.read_of_ok hinputs, ?_⟩
  refine Action.bind_eq_ok_iff.mpr ⟨inputShapes, n, Action.read_of_ok hshapes, ?_⟩
  refine Action.bind_eq_ok_iff.mpr ⟨declared, n, Action.read_of_ok hdeclare, ?_⟩
  refine Action.bind_eq_ok_iff.mpr ⟨⟨⟩, _, rfl, ?_⟩
  have hsize : (n.graph.modifyNode p fun node => { node with
      bufferUse := settleUse a.bufferUse inputShapes declared.outputShapes }).size =
        n.graph.size := by
    simp [NodeGraph.size, NodeGraph.modifyNode]
  refine Action.bind_eq_ok_iff.mpr ⟨handles, _, Action.focus_of_ok hregister, ?_⟩
  simp only [modifyNode, Action.modify_apply, NodeGraph.modifyNode, List.modify_modify_eq]
  rfl

theorem ownerOf_eq_ok {a : Node α} {owner : String} (h : n.ownerOf a = .ok owner) :
    owner = a.owner := by
  unfold ownerOf at h
  unfold Node.owner
  split at h
  · next hnone =>
    cases h
    rw [hnone]
    rfl
  · next shared hsome =>
    rw [hsome]
    split at h
    · cases h
      rfl
    · cases h

/-- The producer that a connection finds is the node that is read. -/
theorem inputSlot_eq_ok {g : NodeGraph (Node α)} (hg : n.graph = g) (hd : g.Distinct) {a : Node α}
    {conn : Connection} {x : Wire} (h : n.inputSlot a conn = .ok x) :
    ∃ q b, g.indexOf? conn.name = some q ∧ g.nodes[q]? = some b ∧
      b.tensors.outputs[conn.index]? = some x := by
  subst hg
  unfold inputSlot at h
  split at h
  · cases h
  · next b hb =>
    split at h
    · next x' hx =>
      cases h
      obtain ⟨hmem, hname⟩ := (NodeGraph.find?_eq_some_iff hd).mp hb
      obtain ⟨q, hq⟩ := List.getElem?_of_mem hmem
      exact ⟨q, b, (NodeGraph.indexOf?_eq_some_iff hd).mpr ⟨b, hq, hname⟩, hq, hx⟩
    · cases h

section Step

variable {g : NodeGraph (Node α)} {s s' : Store α} {batch : Nat} {done rest : List NodeRef}
  {p : NodeRef}

/-- The nodes that a node reads are done before it. -/
theorem producer_done (h : Registered g s batch done) (hsplit : g.order = done ++ p :: rest)
    {i q k : Nat} (hr : ReadsSlot g p i q k) : q ∈ done := by
  obtain ⟨b, hb⟩ := hr.producer h.compiled.wired.distinct
  have hmem := mem_order_of_node h.compiled.ordered.perm hb
  have hlt := h.compiled.ordered.before p i q k hr
  have hpw := pairwise_place h.compiled.ordered.perm
  rw [hsplit] at hmem hpw
  obtain ⟨-, hrest, -⟩ := List.pairwise_append.mp hpw
  rcases List.mem_append.mp hmem with hq | hq
  · exact hq
  · rcases List.mem_cons.mp hq with rfl | hq
    · exact absurd hlt (Nat.lt_irrefl _)
    · have := (List.pairwise_cons.mp hrest).1 q hq
      omega

/-- What the slots that a node reads have found. -/
theorem inputs_of_inputSlot (h : Registered n.graph n.store batch done)
    (hsplit : n.graph.order = done ++ p :: rest) {a : Node α} (ha : n.graph.nodes[p]? = some a)
    {inputs : List Wire} (hinputs : a.inputs.mapM (n.inputSlot a) = .ok inputs) :
    (∀ x ∈ inputs, ∃ width, n.store.WireFits x width) ∧
      ∀ i q k b, ReadsSlot n.graph p i q k → n.graph.nodes[q]? = some b →
        ∃ x, b.tensors.outputs[k]? = some x ∧ inputs[i]? = some x := by
  have hd := h.compiled.wired.distinct
  constructor
  · intro x hx
    obtain ⟨conn, hconn, hslot⟩ := except_mapM_mem_result hinputs hx
    obtain ⟨i, hi⟩ := List.getElem?_of_mem hconn
    obtain ⟨q, b, hq, hb, hout⟩ := inputSlot_eq_ok rfl hd hslot
    have hdone := producer_done h hsplit ⟨a, conn, ha, hi, hq, rfl⟩
    exact (h.holds q hdone b hb).fits.output (List.mem_of_getElem? hout)
  · rintro i q k b ⟨a', conn, ha', hi, hq, rfl⟩ hb
    rw [ha] at ha'
    cases ha'
    obtain ⟨x, hx, hslot⟩ := except_mapM_getElem? hinputs hi
    obtain ⟨q', b', hq', hb', hout⟩ := inputSlot_eq_ok rfl hd hslot
    rw [hq] at hq'
    cases hq'
    rw [hb] at hb'
    cases hb'
    exact ⟨x, hout, hx⟩

/-- The shapes of inputs that fit. -/
theorem forall₂_shapes (hr : Store.Registry batch s) {inputs : List Wire} {shapes : List Shape}
    (hfits : ∀ x ∈ inputs, ∃ width, s.WireFits x width)
    (h : inputs.mapM (fun x => s.shape x.value) = .ok shapes) :
    List.Forall₂ (fun x sh => s.WireFits x sh.width ∧ sh.batch = batch) inputs shapes := by
  have hall := except_mapM_eq_ok_iff.mp h
  induction hall with
  | nil => exact .nil
  | @cons x sh inputs shapes hx hrest ih =>
    obtain ⟨width, hw⟩ := hfits x (by simp)
    have hshape := hw.value.shape hr
    rw [hx] at hshape
    cases hshape
    exact .cons ⟨hw, rfl⟩ (ih (fun y hy => hfits y (by simp [hy]))
      (except_mapM_eq_ok_iff.mpr hrest))

theorem batch_of_shapes (hr : Store.Registry batch s) {inputs : List Wire} {shapes : List Shape}
    (hfits : ∀ x ∈ inputs, ∃ width, s.WireFits x width)
    (h : inputs.mapM (fun x => s.shape x.value) = .ok shapes) : ∀ sh ∈ shapes,
      sh.batch = batch := by
  intro sh hsh
  obtain ⟨x, -, hx⟩ := exists_mem_of_forall₂ (forall₂_shapes hr hfits h).flip hsh
  exact hx.2

theorem collectStep_isSome (hg : Designed g) {a : Node α} (ha : g.nodes[p]? = some a) :
    (collectStep a).isSome = a.trains := by
  unfold collectStep
  rw [hg.collects p a ha]
  cases ht : a.trains with
  | false => rfl
  | true =>
    have hpart : a.participates = true := by
      unfold Node.participates
      rw [hg.collects p a ha, ht, Bool.or_true]
    obtain ⟨turn, hturn⟩ := (exists_turn_iff hg.ordered.perm ha).mp hpart
    rw [if_pos rfl, Schedule.gradientStep, hg.schedule p a ha, hturn]
    rfl

/-- What registering the next node leaves, where its layer has declared outputs for the shapes of
what it reads. -/
theorem newNode_of_stages (h : Registered n.graph n.store n.batchSize done)
    (hsplit : n.graph.order = done ++ p :: rest) {a : Node α} {owner : String} {inputs : List Wire}
    {inputShapes : List Shape} {declared : Declaration α} {use : BufferUse} {handles : Handles}
    (ha : n.graph.nodes[p]? = some a) (hinputs : a.inputs.mapM (n.inputSlot a) = .ok inputs)
    (hshapes : inputs.mapM (fun x => n.store.shape x.value) = .ok inputShapes)
    (hdeclare : a.layer.declare ⟨a.name, inputShapes, a.outputCount, n.batchSize, a.trains⟩ =
      .ok declared) (huse : use = settleUse a.bufferUse inputShapes declared.outputShapes)
    (hregister : register a use owner n.graph.size inputs declared n.store = .ok handles s') :
    ∃ shape, Uniform n.batchSize a.trains shape declared ∧
      NewNode n.batchSize (usesOf n.graph done) n.store s' a use n.graph.size owner inputs shape
        declared handles := by
  have hg := h.compiled.toDesigned
  obtain ⟨hfits, -⟩ := inputs_of_inputSlot h hsplit ha hinputs
  have hall := forall₂_shapes h.registry hfits hshapes
  have hdeclares := declares_of_declare (hg.shipped p a ha) hdeclare
  obtain ⟨shape, huniform, hshape⟩ :=
    uniform_of_declares hdeclares (batch_of_shapes h.registry hfits hshapes)
  have hsource : a.isSource = true → inputs = [] := by
    intro hs
    have hnil : inputShapes = [] := by
      unfold Node.isSource at hs
      generalize a.layer = layer at hs hdeclares
      cases hdeclares with
      | input ins => exact ins
      | fullyConnected | activation | addition | multiout | identity | loss => cases hs
    rw [hnil] at hall
    cases hall
    rfl
  have hin : use ≠ .own → ∀ x, inputs.head? = some x → n.store.WireFits x shape.width := by
    intro hu x hx
    obtain ⟨sh, hins, houts⟩ := settleUse_ne_own (huse ▸ hu)
    rw [hins] at hall
    obtain - | ⟨⟨hw, -⟩, ⟨⟩⟩ := hall
    cases hx
    rw [houts shape hshape]
    exact hw
  exact ⟨shape, huniform, register_spec h.registry h.collected
    (by rw [collectStep_isSome hg ha]; exact huniform) hin hfits hsource hregister⟩

section NewNode

variable {a : Node α} {owner : String} {inputs : List Wire} {inputShapes outputShapes : List Shape}
  {declared : Declaration α} {use : BufferUse} {handles : Handles} {shape : Shape} {size : Nat}
  {uses : WeightRef → List Nat}

/-- A node that is finalized holds what it has registered. -/
theorem holds_of_newNode {site : Site} (hdeclares : Declares site a.layer declared)
    (hcount : site.outputCount = a.outputCount) (howner : owner = a.owner)
    (hfit : Fits s' a.layer handles)
    (hnew : NewNode batch uses s s' a use size owner inputs shape declared handles) :
    (finalized use inputShapes outputShapes handles a).Holds s' size := by
  have hinputs := hnew.inputs_eq
  subst hinputs
  refine ⟨hfit, hnew.reads, hnew.returns, ?outputs, ?slots, ?label, ?weights, ?uses⟩
  case outputs =>
    intro y hy
    obtain ⟨-, ho⟩ := hnew.outputs y hy
    exact ⟨ho.source, ho.writes, ho.own, ho.shares, ho.takes, ho.taken, ho.sharesDerivative,
      ho.ownDerivative⟩
  case slots =>
    intro hread
    have hlen : handles.outputs.length ≤ max a.outputCount 1 := by
      rw [hnew.length_outputs, ← hcount]
      exact hdeclares.length_outputShapes
    have hpos : 0 < a.outputs.length := by
      rw [List.length_pos_iff]
      simpa [Node.isTerminal, finalized] using hread
    show handles.outputs.length ≤ a.outputs.length
    unfold Node.outputCount at hlen
    omega
  case label =>
    intro l (hl : handles.label = some l)
    cases hlab : declared.label with
    | none =>
      rw [hnew.unlabelled hlab] at hl
      cases hl
    | some sh =>
      obtain ⟨l', hl', -, hext⟩ := hnew.labelled sh hlab
      rw [hl] at hl'
      cases hl'
      exact hext
  case weights =>
    show List.Forall₂ (fun name w => s'.HasWeightName w (a.owner ++ ":" ++ name))
      a.layer.weightNames handles.weights
    rw [← hdeclares.weightNames, List.forall₂_map_left_iff, ← howner]
    exact hnew.weights.imp fun _ _ hw => hw.2.1
  case uses =>
    intro w hw
    obtain ⟨_, -, -, -, huses⟩ := exists_mem_of_forall₂ hnew.weights.flip hw
    exact huses

/-- An edit of a node that is not read leaves the links to the producers. -/
theorem linked_modifyNode {q : NodeRef} {b : Node α} {f : Node α → Node α} (h : Linked g q b)
    (hf : Settling g (g.modifyNode p f)) (hread : ∀ i r k, ReadsSlot g q i r k → r ≠ p) :
    Linked (g.modifyNode p f) q b := by
  refine ⟨h.length, fun i r k c hr hc => ?_⟩
  have hr := (readsSlot_iff_of_wires (wires_of_design hf.design)).mp hr
  rw [getElem?_modifyNode_of_ne f (hread i r k hr)] at hc
  exact h.wire i r k c hr hc

theorem linked_finalized (h : Registered n.graph n.store batch done)
    (hsplit : n.graph.order = done ++ p :: rest) (ha : n.graph.nodes[p]? = some a)
    (hinputs : a.inputs.mapM (n.inputSlot a) = .ok inputs) (hhandles : handles.inputs = inputs) :
    Linked n.graph p (finalized use inputShapes outputShapes handles a) := by
  subst hhandles
  exact ⟨except_mapM_length hinputs, (inputs_of_inputSlot h hsplit ha hinputs).2⟩

end NewNode

/-- What finalizing one node makes of the registered ones. -/
theorem registered_step (h : Registered n.graph n.store n.batchSize done)
    (hsplit : n.graph.order = done ++ p :: rest) {u : Unit} (hp : prepareNode p n = .ok u n') :
    Registered n'.graph n'.store n.batchSize (done ++ [p]) ∧ Settling n.graph n'.graph := by
  obtain ⟨a, owner, inputs, inputShapes, declared, use, handles, s', ha, howner, hinputs, hshapes,
    hdeclare, huse, hregister, rfl⟩ := stages_of_prepareNode hp
  have hg := h.compiled.toDesigned
  obtain ⟨hfits, -⟩ := inputs_of_inputSlot h hsplit ha hinputs
  have hdeclares := declares_of_declare (hg.shipped p a ha) hdeclare
  obtain ⟨shape, huniform, hnew⟩ :=
    newNode_of_stages h hsplit ha hinputs hshapes hdeclare huse hregister
  have hfit : Fits s' a.layer handles :=
    fits_of_newNode hdeclares ((forall₂_shapes h.registry hfits hshapes).imp
      fun _ _ hx => hx.1) hnew huniform
  let f := finalized (α := α) use inputShapes declared.outputShapes handles
  have hpd : p ∉ done := not_mem_done (nodup_order hg.ordered.perm) hsplit
  have hsettling : Settling n.graph (n.graph.modifyNode p f) := by
    refine settling_modifyNode (fun _ => rfl) fun b hb => ?_
    rw [ha] at hb
    cases hb
    rw [show (f a).bufferUse = use from rfl, huse]
    exact settleUse_eq_or _ _ _
  have hsize : (n.graph.modifyNode p f).size = n.graph.size := by
    simp [NodeGraph.size, NodeGraph.modifyNode]
  have hbounds : Store.SameBuffers n.store s' := by
    have := keeps_register (Store.tabular_sameBuffers n.store) a use inputs owner
      n.graph.size declared n.store (.refl n.store)
    rwa [Action.after_of_ok hregister] at this
  have howned : ownedBy (n.graph.modifyNode p f) (done ++ [p]) =
      ownedBy n.graph done ++ handles.owned := gather_modifyNode hpd ha
  have huses : usesOf (n.graph.modifyNode p f) (done ++ [p]) =
      fun w => usesOf n.graph done w ++ collectSteps a handles.weights w := by
    funext w
    exact gather_modifyNode hpd ha
  -- Each node that is done is an old one, or the one that is finalized.
  have hcases : ∀ q ∈ done ++ [p], ∀ b, (n.graph.modifyNode p f).nodes[q]? = some b →
      q ∈ done ∧ n.graph.nodes[q]? = some b ∨ q = p ∧ b = f a := by
    intro q hq b hb
    by_cases hqp : q = p
    · subst hqp
      rw [getElem?_modifyNode_self f ha] at hb
      exact .inr ⟨rfl, (Option.some.inj hb).symm⟩
    · rw [getElem?_modifyNode_of_ne f hqp] at hb
      exact .inl ⟨by simpa [hqp] using hq, hb⟩
  refine ⟨⟨hsettling.compiled h.compiled, hnew.registry, huses ▸ hnew.collected, ?holds, ?linked,
    ?nodup, ?bound, ?forwardSteps, ?maxStep⟩, hsettling⟩
  case holds =>
    intro q hq b hb
    rw [hsize]
    obtain ⟨hqd, hb⟩ | ⟨rfl, rfl⟩ := hcases q hq b hb
    · exact (h.holds q hqd b hb).later hnew.later
    · exact holds_of_newNode hdeclares rfl (ownerOf_eq_ok howner) hfit hnew
  case linked =>
    intro q hq b hb
    have hlinked : Linked n.graph q b := by
      obtain ⟨hqd, hb⟩ | ⟨rfl, rfl⟩ := hcases q hq b hb
      · exact h.linked q hqd b hb
      · exact linked_finalized h hsplit ha hinputs hnew.inputs_eq
    exact linked_modifyNode hlinked hsettling fun i r k => ne_next_of_reads hg.ordered hsplit hq
  case nodup =>
    rw [howned]
    refine List.nodup_append.mpr ⟨h.nodup, hnew.fresh.sorted.imp Nat.ne_of_lt, fun i hi j hj => ?_⟩
    exact Nat.ne_of_lt (Nat.lt_of_lt_of_le (h.bound i hi) (hnew.fresh.bound j hj).1)
  case bound =>
    intro id hid
    rw [howned] at hid
    rcases List.mem_append.mp hid with hid | hid
    · exact Nat.lt_of_lt_of_le (h.bound id hid) hnew.later.length_le
    · exact (hnew.fresh.bound id hid).2
  case forwardSteps =>
    rw [hsize]
    exact hbounds.forwardSteps.trans h.forwardSteps
  case maxStep =>
    rw [lastStep_of_design hsettling.order hsettling.design]
    exact hbounds.maxStep.trans h.maxStep

end Step

end Network

end LayerGraph
