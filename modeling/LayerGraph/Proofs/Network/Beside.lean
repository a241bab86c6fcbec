import LayerGraph.Proofs.Network.Accepted
import LayerGraph.Proofs.Network.Lowered
import LayerGraph.Proofs.Network.Twins
import LayerGraph.Proofs.Store.Beside

/-!
# Networks that differ in their buffers

Whether nodes may run in place decides which tensors share a buffer, and nothing else: compiled and
prepared with it or without it, a network has the same nodes in the same order, with the same
handles, for tensors of the same shapes.
-/

namespace LayerGraph

variable {α : Type}

namespace Network

open Store
open LayerGraph.Action (Follows)

variable {known : TensorRef → Shape → Prop} {node : Node α} {use use' : BufferUse}
  {inputs : List Wire} {shape : Shape}

section Register

/-- An output of this shape fits into the buffer that the node shares with its input. -/
def Fitting (known : TensorRef → Shape → Prop) (use : BufferUse) (inputs : List Wire)
    (shape : Shape) : Prop :=
  use ≠ .own → ∀ x, inputs.head? = some x → known x.value shape ∧ ∀ d, x.derivative = some d →
    known d shape

theorem adds_registerVariable (hfit : Fitting known use inputs shape) (name : String)
    (steps : List Nat) :
    Adds known name shape (registerVariable node use inputs name shape steps) := by
  have hown : ∀ role : Role, role = (if node.isSource then .external else .variable) →
      Adds known name shape (request (α := α) name shape .zeros .forwardToBackward role steps) := by
    rintro role rfl
    refine adds_request _ _ ?_ steps
    split
    · rfl
    · rfl
  unfold registerVariable
  cases use with
  | own => exact hown _ rfl
  | view | overwrite =>
    cases hx : inputs.head? with
    | none => exact hown _ rfl
    | some x => exact adds_requestShared (hfit (by simp) x hx).1 steps

/-- A derivative is registered unless the node needs none. -/
theorem exists_registerDerivative (node : Node α) (hfit : Fitting known use inputs shape)
    (name : String) : ∃ p, Adds known name shape p ∧ registerDerivative node use inputs name shape =
      if node.participates && !node.isTerminal && !node.isSource then do return some (← p)
        else return none := by
  have hown : Adds (α := α) known name shape (request name shape .zeros .backward .derivative
      node.schedule.returnSteps) :=
    adds_request _ _ rfl _
  cases use with
  | own | view => exact ⟨_, hown, rfl⟩
  | overwrite =>
    cases hd : inputs.head?.bind (·.derivative) with
    | none =>
      refine ⟨_, hown, ?_⟩
      unfold registerDerivative
      rw [hd]
    | some d =>
      obtain ⟨x, hx, hxd⟩ := Option.bind_eq_some_iff.mp hd
      refine ⟨_, adds_requestShared ((hfit (by simp) x hx).2 d hxd) node.schedule.returnSteps, ?_⟩
      unfold registerDerivative
      rw [hd]

section Follows

variable (hfit : Fitting known use inputs shape) (hfit' : Fitting known use' inputs shape)
include hfit hfit'

theorem follows_registerDerivative_beside (name : String) :
    Follows (Beside known) (registerDerivative node use inputs name shape)
      (registerDerivative node use' inputs name shape) Eq := by
  obtain ⟨p, hp, hform⟩ := exists_registerDerivative node hfit name
  obtain ⟨q, hq, hform'⟩ := exists_registerDerivative node hfit' name
  rw [hform, hform']
  by_cases hneeds : (node.participates && !node.isTerminal && !node.isSource) = true
  · rw [if_pos hneeds, if_pos hneeds]
    exact (hp.follows hq).bind fun _ _ heq => Action.follows_pure (congrArg some heq)
  · rw [if_neg hneeds, if_neg hneeds]
    exact Action.follows_pure rfl

theorem follows_registerOutput_beside (steps : List Nat) (k : Nat) :
    Follows (Beside known) (registerOutput node use inputs steps (shape, k))
      (registerOutput node use' inputs steps (shape, k)) Eq := by
  refine ((adds_registerVariable hfit _ _).follows (adds_registerVariable hfit' _ _)).bind
    fun value _ hv => ?_
  refine (follows_registerDerivative_beside hfit hfit' _).bind fun derivative _ hd => ?_
  subst hv hd
  exact Action.follows_pure rfl

end Follows

/-- The buffers of inputs are known. -/
def KnownInputs (known : TensorRef → Shape → Prop) (inputs : List Wire) : Prop :=
  ∀ x ∈ inputs, (∃ shape, known x.value shape) ∧ ∀ d, x.derivative = some d → ∃ shape, known d shape

theorem follows_registerReads_beside (node : Node α) (hknown : KnownInputs known inputs) :
    Follows (Beside known) (registerReads node inputs) (registerReads node inputs) Eq := by
  refine Action.follows_forM fun x hx => ?_
  obtain ⟨⟨_, hvalue⟩, hderivative⟩ := hknown x hx
  refine (follows_addSteps_beside hvalue _).bind fun _ _ _ => ?_
  cases hd : x.derivative with
  | none => exact Action.follows_pure rfl
  | some d =>
    cases node.schedule.derivativeStep with
    | none => exact Action.follows_pure rfl
    | some t =>
      obtain ⟨_, hknown⟩ := hderivative d hd
      exact follows_addSteps_beside hknown _

theorem follows_registerLabel_beside (node : Node α) (label : Option Shape) :
    Follows (Beside known) (registerLabel node label) (registerLabel node label) Eq := by
  cases label with
  | none => exact Action.follows_pure rfl
  | some shape =>
    have hadds : Adds (α := α) known (node.name ++ ":label") shape
        (request (node.name ++ ":label") shape .zeros .iteration .external []) :=
          adds_request _ _ rfl _
    exact (hadds.follows hadds).bind fun _ _ h => Action.follows_pure (congrArg some h)

theorem follows_registerScratch_beside (node : Node α) (decl : ScratchDecl α) :
    Follows (Beside known) (registerScratch node decl) (registerScratch node decl) Eq := by
  refine Action.follows_get_bind fun s t h => ?_
  have hadds : Adds known (node.name ++ ":" ++ decl.name) decl.shape
      (request (node.name ++ ":" ++ decl.name) decl.shape
      decl.initializer decl.lifetime .temporary (node.schedule.usedAt decl.lifetime s.maxStep)) :=
      adds_request _ _ rfl _
  rw [h.maxStep]
  exact hadds.follows hadds

/-- A node registers the same under the same handles, whatever it shares with its input. -/
theorem follows_register_beside {owner : String} {size : Nat} {declared : Declaration α}
    (hknown : KnownInputs known inputs)
    (hfit : ∀ shape ∈ declared.outputShapes, Fitting known use inputs shape)
    (hfit' : ∀ shape ∈ declared.outputShapes, Fitting known use' inputs shape) :
    Follows (Beside known) (register node use owner size inputs declared)
      (register node use' owner size inputs declared) Eq := by
  have hmapM : ∀ {δ β : Type} {xs : List δ} {f g : δ → Action (Store α) β},
      (∀ x ∈ xs, Follows (Beside known) (f x) (g x) Eq) → Follows (Beside known) (xs.mapM f)
        (xs.mapM g) Eq := by
    intro δ β xs f g h
    simpa only [List.map_id] using Action.follows_mapM id h
  refine (follows_registerReads_beside node hknown).bind fun _ _ _ => Action.follows_get_bind
    fun s t h => ?_
  rw [h.maxStep]
  refine Follows.bind (S := Eq) (hmapM fun output houtput => ?_) fun outputs _ ho => ?_
  · have hmem : output.1 ∈ declared.outputShapes := List.fst_mem_of_mem_zipIdx houtput
    exact follows_registerOutput_beside (hfit _ hmem) (hfit' _ hmem) _ _
  refine Follows.bind (S := Eq) (hmapM fun decl _ => ?_) fun weights _ hw => ?_
  · exact follows_useWeight_beside _ _ _ _ _ _
  refine Follows.bind (S := Eq) (hmapM fun decl _ => ?_) fun tensors _ ht => ?_
  · exact follows_registerScratch_beside node decl
  refine (follows_registerLabel_beside node declared.label).bind fun label _ hl => ?_
  subst ho hw ht hl
  exact Action.follows_pure rfl

/-- What is registered for a node depends on its design alone. -/
theorem register_of_design {a b : Node α} (h : design b = design a) (use : BufferUse)
    (owner : String) (size : Nat) (inputs : List Wire) (declared : Declaration α) :
    register b use owner size inputs declared = register a use owner size inputs declared := by
  obtain ⟨_, _, _, _, _, _, _, _, _, _, _, _, _, _, _⟩ := a
  obtain ⟨_, _, _, _, _, _, _, _, _, _, _, _, _, _, _⟩ := b
  simp only [design, wires, Prod.mk.injEq] at h
  obtain ⟨⟨rfl, rfl, rfl⟩, rfl, rfl, rfl, rfl, rfl, rfl⟩ := h
  rfl

end Register

section Prepare

variable {n n' m : Network α} {done rest : List NodeRef} {p : NodeRef}

/-- Two networks with the same tasks and the same tensors. -/
structure Alongside (n m : Network α) : Prop where
  tasks : SameTasks n.graph m.graph
  batch : m.batchSize = n.batchSize
  store : Beside (fun _ _ => False) n.store m.store

theorem Alongside.symm (h : Alongside n m) : Alongside m n :=
  ⟨h.tasks.symm, h.batch.symm, h.store.symm⟩

/-- Where the tasks are the same, nodes go by the same names. -/
theorem find?_of_task {g g' : NodeGraph (Node α)}
    (h : g'.nodes.map Node.task = g.nodes.map Node.task) (name : String) :
    (g'.find? name).map Node.task = (g.find? name).map Node.task := by
  have hfind : ∀ g : NodeGraph (Node α), (g.find? name).map Node.task =
      (g.nodes.map Node.task).find? fun t => t.1.1.1 == name := fun g => by
    rw [List.find?_map]
    rfl
  rw [hfind, hfind, h]

namespace Alongside

variable (h : Alongside n m)
include h

theorem ownerOf {a b : Node α} (htask : b.task = a.task) : m.ownerOf b = n.ownerOf a := by
  simp only [Node.task, design, wires, Prod.mk.injEq] at htask
  obtain ⟨⟨⟨hname, -, -⟩, -, -, hshared, -⟩, -⟩ := htask
  have hcontains : ∀ name, m.graph.contains name = n.graph.contains name := by
    intro name
    have hany : ∀ g : NodeGraph (Node α), g.contains name = (g.nodes.map Node.task).any
        (fun t => t.1.1.1 == name) := by
      intro g
      rw [List.any_map]
      rfl
    rw [hany, hany, h.tasks.tasks]
  unfold Network.ownerOf
  rw [hname, hshared]
  simp only [hcontains]

theorem inputSlot {a b : Node α} {conn : Connection} {x : Wire}
    (hx : n.inputSlot a conn = .ok x) : m.inputSlot b conn = .ok x := by
  have hfind := find?_of_task h.tasks.tasks conn.name
  unfold Network.inputSlot at hx ⊢
  cases hq : n.graph.find? conn.name with
  | none =>
    rw [hq] at hx
    cases hx
  | some q =>
    rw [hq] at hfind hx
    obtain ⟨q', hq', htask⟩ := Option.map_eq_some_iff.mp hfind
    rw [hq']
    dsimp only at hx ⊢
    rw [(layer_of_task htask).2.1]
    cases hout : q.tensors.outputs[conn.index]? with
    | none =>
      rw [hout] at hx
      cases hx
    | some y =>
      rw [hout] at hx
      exact hx

theorem shape_eq_ok (hreg : Registry n.batchSize n.store) (hreg' : Registry n.batchSize m.store)
    {id : TensorRef} {shape : Shape}
    (hid : n.store.shape id = .ok shape) : m.store.shape id = .ok shape := by
  obtain ⟨e, he, rfl⟩ := shape_eq_ok_iff.mp hid
  obtain ⟨⟨e₀, he₀⟩, -⟩ := backing_eq_some_iff.mp he
  obtain ⟨e₁, he₁, -, -, hshape⟩ := hreg.backing he₀
  rw [he] at he₁
  cases he₁
  obtain ⟨e', he', hshape'⟩ := h.store.hasShape.mpr ⟨e₀, he₀, rfl⟩
  obtain ⟨e₂, he₂, -, -, hshape₂⟩ := hreg'.backing he'
  exact shape_eq_ok_iff.mpr ⟨e₂, he₂, by rw [hshape₂, hshape', hshape]⟩

end Alongside

theorem hasShape_of_shape {s : Store α} {batch : Nat} (hreg : Registry batch s) {id : TensorRef}
    {shape : Shape} (h : s.shape id = .ok shape) : s.HasShape id shape := by
  obtain ⟨e, he, rfl⟩ := shape_eq_ok_iff.mp h
  obtain ⟨⟨e₀, he₀⟩, -⟩ := backing_eq_some_iff.mp he
  obtain ⟨e₁, he₁, -, -, hshape⟩ := hreg.backing he₀
  rw [he] at he₁
  cases he₁
  exact ⟨e₀, he₀, hshape.symm⟩

/-- A node that is settled to share its input's buffer has outputs that fit there. -/
theorem fitting_of_settleUse {s : Store α} {batch : Nat} (hreg : Registry batch s)
    {inputShapes outputShapes : List Shape} (hfits : ∀ x ∈ inputs, ∃ width, s.WireFits x width)
    (hshapes : inputs.mapM (fun x => s.shape x.value) = .ok inputShapes) :
    ∀ shape ∈ outputShapes, Fitting s.HasShape (settleUse use inputShapes outputShapes)
      inputs shape := by
  intro shape hs hne x hx
  obtain ⟨sh, rfl, hall⟩ := settleUse_ne_own hne
  obtain rfl := hall shape hs
  have hpairs := forall₂_shapes hreg hfits hshapes
  cases hpairs with
  | @cons y _ inputs _ hy hrest =>
    cases hx
    obtain ⟨hwire, hbatch⟩ := hy
    have hwide : ∀ {id}, s.HasWidth id shape.width → s.HasShape id shape := fun hw => by
      have := hasShape_of_shape hreg (hw.shape hreg)
      rwa [← hbatch] at this
    exact ⟨hwide hwire.value, fun d hd => hwide (hwire.derivative d hd)⟩

/-- A node that one of the networks can finalize the other can too. -/
theorem Alongside.step (h : Alongside n m) (hreg : Registered n.graph n.store n.batchSize done)
    (hreg' : Registered m.graph m.store m.batchSize done)
    (hsplit : n.graph.order = done ++ p :: rest) {u : Unit} (hp : prepareNode p n = .ok u n') :
    ∃ m', prepareNode p m = .ok ⟨⟩ m' ∧ Alongside n' m' := by
  obtain ⟨a, owner, inputs, inputShapes, declared, use, handles, s', ha, howner, hinputs,
    hshapes, hdeclare, rfl, hregister, rfl⟩ := stages_of_prepareNode hp
  obtain ⟨b, hb, htask⟩ := h.tasks.node ha
  obtain ⟨hlayer, htensors, hname, -⟩ := layer_of_task htask
  rw [h.batch] at hreg'
  have hregistry := hreg.registry
  obtain ⟨hfits, -⟩ := inputs_of_inputSlot hreg hsplit ha hinputs
  have hdesign : design b = design a := congrArg Prod.fst htask
  have hwires : b.inputs = a.inputs ∧ b.outputs = a.outputs := by
    simp only [design, wires, Prod.mk.injEq] at hdesign
    exact hdesign.1.2
  have hinputs' : b.inputs.mapM (m.inputSlot b) = .ok inputs := by
    rw [hwires.1]
    refine except_mapM_eq_ok_iff.mpr ((except_mapM_eq_ok_iff.mp hinputs).imp fun conn x hx => ?_)
    exact h.inputSlot hx
  have hshapes' : inputs.mapM (fun x => m.store.shape x.value) = .ok inputShapes := by
    refine except_mapM_eq_ok_iff.mpr ((except_mapM_eq_ok_iff.mp hshapes).imp fun x sh hx => ?_)
    exact h.shape_eq_ok hregistry hreg'.registry hx
  have hdeclare' : b.layer.declare ⟨b.name, inputShapes, b.outputCount, m.batchSize, b.trains⟩ =
      .ok declared := by
    rw [hlayer, hname, h.batch, (part_of_task htask).1, Node.outputCount, hwires.2]
    exact hdeclare
  have hstore : Beside n.store.HasShape n.store m.store :=
    ⟨h.store.faces, h.store.weights, h.store.maxStep,
      ⟨h.store.left.grounded, h.store.left.level, fun _ _ => id⟩,
      ⟨h.store.right.grounded, h.store.right.level, fun _ _ hs => h.store.hasShape.mpr hs⟩⟩
  have hknown : KnownInputs n.store.HasShape inputs := by
    intro x hx
    obtain ⟨width, hwire⟩ := hfits x hx
    exact ⟨⟨_, hasShape_of_shape hregistry (hwire.value.shape hregistry)⟩,
      fun d hd => ⟨_, hasShape_of_shape hregistry ((hwire.derivative d hd).shape hregistry)⟩⟩
  have hfit : ∀ use, ∀ shape ∈ declared.outputShapes, Fitting n.store.HasShape
      (settleUse use inputShapes declared.outputShapes) inputs shape :=
        fun _ => fitting_of_settleUse hregistry hfits hshapes
  obtain ⟨_, t', hregister', hbeside, rfl⟩ :=
    follows_register_beside hknown (hfit a.bufferUse) (hfit b.bufferUse) n.store m.store
      handles s' hstore hregister
  rw [← register_of_design hdesign, ← h.tasks.size] at hregister'
  refine ⟨_, prepareNode_of_stages hb ((h.ownerOf htask).trans howner) hinputs' hshapes' hdeclare'
    rfl hregister', ?_⟩
  refine ⟨⟨h.tasks.order, ?_⟩, h.batch, ⟨hbeside.faces, hbeside.weights, hbeside.maxStep,
    ⟨hbeside.left.grounded, hbeside.left.level, fun _ _ => False.elim⟩,
    ⟨hbeside.right.grounded, hbeside.right.level, fun _ _ => False.elim⟩⟩⟩
  have hmodify : ∀ {use : BufferUse} (nodes : List (Node α)),
      (nodes.modify p (finalized use inputShapes declared.outputShapes handles)).map Node.task =
        (nodes.map Node.task).modify p fun t => (t.1, handles) :=
          fun nodes => map_modify_comm (fun _ => by rfl) nodes p
  change List.map Node.task (List.modify m.graph.nodes p _) = List.map Node.task
    (List.modify n.graph.nodes p _)
  rw [hmodify, hmodify, h.tasks.tasks]

/-- A node that is finalized is registered. -/
theorem registered_of_prepareNode {g₀ : NodeGraph (Node α)}
    (hreg : Registered n.graph n.store n.batchSize done) (hset : Settling g₀ n.graph)
    (hsplit : g₀.order = done ++ p :: rest) {u : Unit} (hp : prepareNode p n = .ok u n') :
    Registered n'.graph n'.store n'.batchSize (done ++ [p]) ∧ Settling g₀ n'.graph := by
  obtain ⟨hreg', hset'⟩ := registered_step hreg (hset.order.trans hsplit) hp
  obtain ⟨_, _, _, _, _, _, _, _, -, -, -, -, -, -, -, rfl⟩ := stages_of_prepareNode hp
  exact ⟨hreg', hset.trans hset'⟩

section Faces

theorem sortedNodes_of_tasks {g g' : NodeGraph (Node α)} (h : SameTasks g g') :
    g'.sortedNodes.map Node.task = g.sortedNodes.map Node.task := by
  unfold NodeGraph.sortedNodes
  rw [h.order, List.map_filterMap, List.map_filterMap]
  refine List.filterMap_congr fun p _ => ?_
  rw [← List.getElem?_map, ← List.getElem?_map, h.tasks]

/-- What depends on the tasks is selected alike. -/
theorem filter_of_tasks {xs ys : List (Node α)} (h : ys.map Node.task = xs.map Node.task)
    {accept : Node α → Bool} (haccept : ∀ a b : Node α, b.task = a.task → accept b = accept a) :
    (ys.filter accept).map Node.task = (xs.filter accept).map Node.task := by
  induction xs generalizing ys with
  | nil =>
    obtain rfl := List.map_eq_nil_iff.mp h
    rfl
  | cons a xs ih =>
    obtain ⟨b, ys, rfl, htask, hys⟩ := List.map_eq_cons_iff.mp h
    rw [List.filter_cons, List.filter_cons, haccept a b htask]
    split
    · rw [List.map_cons, List.map_cons, htask, ih hys]
    · exact ih hys

theorem select_of_tasks {names : List String} {accept : Node α → Bool} {what : Selection}
    {nodes : List (Node α)} (h : SameTasks n.graph m.graph)
    (haccept : ∀ a b : Node α, b.task = a.task → accept b = accept a)
    (hs : n.select names accept what = .ok nodes) :
    ∃ nodes', m.select names accept what = .ok nodes' ∧ nodes'.map Node.task =
      nodes.map Node.task := by
  unfold select at hs ⊢
  by_cases hnames : names.isEmpty = true
  · rw [if_pos hnames] at hs ⊢
    cases hs
    exact ⟨_, rfl, filter_of_tasks (sortedNodes_of_tasks h) haccept⟩
  rw [if_neg hnames] at hs ⊢
  have hall := except_mapM_eq_ok_iff.mp hs
  simp only [except_mapM_eq_ok_iff]
  clear hs hnames
  induction hall with
  | nil => exact ⟨[], .nil, rfl⟩
  | @cons name a names nodes ha _ ih =>
    obtain ⟨nodes', hnodes, htasks⟩ := ih
    have hfind := find?_of_task h.tasks name
    cases hq : n.graph.find? name with
    | none =>
      rw [hq] at ha
      cases ha
    | some c =>
      rw [hq] at ha hfind
      obtain ⟨b, hb, htask⟩ := Option.map_eq_some_iff.mp hfind
      dsimp only at ha
      split at ha
      · next hacc =>
        cases ha
        refine ⟨b :: nodes', .cons ?_ hnodes, by rw [List.map_cons, List.map_cons, htask, htasks]⟩
        rw [hb]
        exact if_pos ((haccept _ b htask).trans hacc)
      · cases ha

end Faces

/-- What is fed to a network and what it gives. -/
def faces (n : Network α) := (n.inputs, n.labels, n.outputs)

/-- One of the networks is prepared as the other is. -/
theorem Alongside.prepareAll {inputNames labelNames : List String} {u : Unit} (h : Alongside n m)
    (hn : Drawn n) (hm : Drawn m) (hp : prepareAll inputNames labelNames n = .ok u n') :
    ∃ m', Network.prepareAll inputNames labelNames m = .ok ⟨⟩ m' ∧ Alongside n' m' ∧
    faces m' = faces n' := by
  obtain ⟨_, _, hget, hp⟩ := Action.bind_eq_ok_iff.mp hp
  cases hget
  obtain ⟨⟨⟩, n₁, hall, hp⟩ := Action.bind_eq_ok_iff.mp hp
  obtain ⟨inputs, _, hread, hp⟩ := Action.bind_eq_ok_iff.mp hp
  obtain ⟨hinputs, rfl⟩ := Action.read_eq_ok_iff.mp hread
  obtain ⟨labels, _, hread, hp⟩ := Action.bind_eq_ok_iff.mp hp
  obtain ⟨hlabels, rfl⟩ := Action.read_eq_ok_iff.mp hread
  cases hp
  rw [← h.tasks.order] at hall
  obtain ⟨m₁, hall', h₁, -, -⟩ := Action.follows_forM_prefix (fun done n₁ m₁ => Alongside n₁ m₁ ∧
      (Registered n₁.graph n₁.store n₁.batchSize done ∧ Settling n.graph n₁.graph) ∧
      Registered m₁.graph m₁.store m₁.batchSize done ∧ Settling m.graph m₁.graph)
    (fun done p rest n₁ m₁ n₂ hsplit hr hstep => by
      obtain ⟨h₁, ⟨hreg, hset⟩, hreg', hset'⟩ := hr
      have hsplit' := h.tasks.order.symm.trans hsplit
      obtain ⟨m₂, hstep', h₂⟩ := h₁.step hreg hreg' (hset.order.trans hsplit') hstep
      exact ⟨m₂, hstep', h₂, registered_of_prepareNode hreg hset hsplit' hstep,
        registered_of_prepareNode hreg' hset' hsplit hstep'⟩)
    ⟨h, ⟨registered_nil hn, .refl _⟩, registered_nil hm, .refl _⟩ hall
  have hsource : ∀ a b : Node α, b.task = a.task → b.isSource = a.isSource := fun a b htask => by
    rw [Node.isSource, Node.isSource, (layer_of_task htask).1]
  have hloss : ∀ a b : Node α, b.task = a.task → b.isLoss = a.isLoss :=
    fun a b htask => (layer_of_task htask).2.2.2
  have hterminal : ∀ a b : Node α, b.task = a.task → b.isTerminal = a.isTerminal :=
    fun a b htask => by
    simp only [Node.task, design, wires, Prod.mk.injEq] at htask
    rw [Node.isTerminal, Node.isTerminal, htask.1.1.2.2]
  obtain ⟨inputs', hinputs', hin⟩ := select_of_tasks h₁.tasks hsource hinputs
  obtain ⟨labels', hlabels', hlab⟩ := select_of_tasks h₁.tasks hloss hlabels
  have hout := filter_of_tasks (sortedNodes_of_tasks h₁.tasks) hterminal
  refine ⟨_, Action.bind_eq_ok_iff.mpr ⟨_, _, rfl, Action.bind_eq_ok_iff.mpr ⟨_, _, hall',
    Action.bind_eq_ok_iff.mpr ⟨_, _, Action.read_of_ok hinputs', Action.bind_eq_ok_iff.mpr ⟨_, _,
      Action.read_of_ok hlabels', rfl⟩⟩⟩⟩, ⟨h₁.tasks, h₁.batch, h₁.store⟩, ?_⟩
  have hchosen : ∀ {β : Type} (f : Handles → Option β) {xs ys : List (Node α)},
      ys.map Node.task = xs.map Node.task →
      ys.filterMap (fun a => f a.tensors) = xs.filterMap fun a => f a.tensors := by
    intro β f xs ys htasks
    have hmap : ∀ xs : List (Node α), (xs.map Node.task).filterMap (fun t => f t.2) = xs.filterMap
        fun a => f a.tensors :=
      fun xs => List.filterMap_map
    rw [← hmap, ← hmap, htasks]
  have hread : ∀ xs : List (Node α), (xs.map Node.task).flatMap
      (fun t => t.2.outputs.map (·.value)) = xs.flatMap fun a => a.tensors.outputs.map (·.value) :=
        fun xs => List.flatMap_map ..
  unfold faces
  dsimp only
  rw [hchosen (fun handles => handles.outputs.head?.map (·.value)) hin,
    hchosen (·.label) hlab, ← hread, ← hread, hout]

/-- One of the networks can be prepared if the other can, and then they have the same tasks, tensors
and faces. -/
theorem Alongside.prepare {inputNames labelNames : List String} {u : Unit} (h : Alongside n m)
    (hn : Drawn n) (hm : Drawn m) (hp : prepare inputNames labelNames n = .ok u n') :
    ∃ m', Network.prepare inputNames labelNames m = .ok ⟨⟩ m' ∧ Alongside n' m' ∧
    faces m' = faces n' := by
  obtain ⟨n₁, hall, rfl⟩ := prepareAll_of_prepare hp
  obtain ⟨m₁, hall', h₁, hfaces⟩ := h.prepareAll hn hm hall
  exact ⟨_, prepare_of_prepareAll hm.closed hm.unprepared hall', ⟨h₁.tasks, h₁.batch, h₁.store⟩,
    hfaces⟩

end Prepare

section Compile

variable {n n' n₁ : Network α} {g g' : NodeGraph (Node α)} {loss : Option String} {u : Unit}

/-- How nodes use their buffers is no part of their tasks. -/
theorem sameTasks_of_decided {reuse : Bool} (h : (if reuse then decideAll g else .ok g) = .ok g') :
    SameTasks g g' := by
  cases reuse with
  | false =>
    cases h
    exact ⟨rfl, rfl⟩
  | true =>
    exact ⟨order_decideAll h, map_decideAll (fun _ _ => rfl) h⟩

variable [Zero α]

/-- Lowering does not look at whether memory is shared. -/
theorem lowerNodes_setOptimize (enable : Bool) (h : lowerNodes loss n = .ok u n₁) :
    lowerNodes loss (setOptimize enable n) = .ok u (setOptimize enable n₁) := by
  rw [lowerNodes_apply] at h ⊢
  cases hl : Lowering.lower loss n.fusionRules n.graph.nodes with
  | ok u' nodes =>
    rw [hl] at h
    rw [show Lowering.lower loss (setOptimize enable n).fusionRules
      (setOptimize enable n).graph.nodes = _ from hl]
    obtain ⟨g, hg, rfl⟩ := Action.focus_eq_ok_iff.mp h
    exact onGraph_of_ok hg
  | error e nodes =>
    rw [hl] at h
    obtain ⟨_, _, _, h⟩ := Action.bind_eq_ok_iff.mp h
    cases h

theorem settle_of_compile (h : compile loss n = .ok u n') :
    n.isCompiled = false ∧ n.graph.nodes ≠ [] ∧
    ∃ n₁, lowerNodes loss n = .ok ⟨⟩ n₁ ∧ settle n₁ = .ok u n' := by
  obtain ⟨_, _, hget, hc⟩ := Action.bind_eq_ok_iff.mp h
  cases hget
  obtain ⟨hopen, hc⟩ := Action.guard_eq_ok_iff.mp hc
  obtain ⟨_, _, hget, hc⟩ := Action.bind_eq_ok_iff.mp hc
  cases hget
  obtain ⟨hne, hc⟩ := Action.guard_eq_ok_iff.mp hc
  obtain ⟨_, n₁, hlower, hc⟩ := Action.bind_eq_ok_iff.mp hc
  refine ⟨by simpa using hopen, by simpa [NodeGraph.isEmpty] using hne, n₁, hlower, hc⟩

omit [Zero α] in
theorem firm_of_isBlank {s : Store α} (hs : s.IsBlank) : Firm (fun _ _ => False) s := by
  refine ⟨⟨?_, ?_⟩, ?_, fun _ _ => False.elim⟩ <;> simp [hs.entries]

omit [Zero α] in
/-- Stores of which nothing is registered have the same tensors. -/
theorem beside_of_isBlank {s t : Store α} (hs : s.IsBlank) (ht : t.IsBlank)
    (hmax : t.maxStep = s.maxStep) : Beside (fun _ _ => False) s t := by
  refine ⟨?_, ?_, hmax, firm_of_isBlank hs, firm_of_isBlank ht⟩
  · rw [hs.entries, ht.entries]
  · rw [hs.weights, ht.weights]

/-- A draft compiles with shared buffers if it compiles without, and the other way round. -/
theorem alongside_of_compile (hd : Draft n) (enable : Bool) (h : compile loss n = .ok u n') :
    ∃ m', compile loss (setOptimize enable n) = .ok ⟨⟩ m' ∧ Alongside n' m' ∧
    Drawn n' ∧ Drawn m' := by
  obtain ⟨hopen, hne, n₁, hlower, hsettle⟩ := settle_of_compile h
  have hlower' := lowerNodes_setOptimize enable hlower
  have hdraft : Draft (setOptimize enable n) :=
    ⟨hd.open_, hd.unprepared, hd.plain, ⟨hd.blank.entries, hd.blank.weights, hd.blank.persistent,
      hd.blank.slots, hd.blank.slotOf, hd.blank.mode, hd.blank.hasWeights⟩, hd.batch⟩
  obtain ⟨m', hm⟩ : ∃ m', compile loss (setOptimize enable n) = .ok ⟨⟩ m' := by
    obtain ⟨_, _, hread, -⟩ := Action.bind_eq_ok_iff.mp hsettle
    obtain ⟨hcheck, rfl⟩ := Action.read_eq_ok_iff.mp hread
    obtain ⟨_, _, _, _, g₂, _, _, hlower₁, hsort, -⟩ := stages_of_compile h
    rw [hlower] at hlower₁
    cases hlower₁
    obtain ⟨order, hsorted, -⟩ := except_bind_eq_ok_iff.mp (Action.update_eq_ok_iff.mp hsort)
    obtain ⟨u', hl, hnodup, -⟩ := lowered_of_lowerNodes hlower
    have hempty : n₁.graph.nodes ≠ [] := by
      rintro hempty
      rw [checkCompilable, NodeGraph.isEmpty, hempty] at hcheck
      cases hcheck
    rw [compile_apply loss (n := setOptimize enable n) hopen hne, Action.bind_of_ok hlower']
    exact exists_settle (n := setOptimize enable n₁) hempty hcheck hsorted
      (resolved_of_names (Lowering.lower_spec hl hnodup).1)
  have hdrawn := drawn_of_compile hd h
  have hdrawn' := drawn_of_compile hdraft hm
  refine ⟨m', hm, ?_, hdrawn, hdrawn'⟩
  obtain ⟨_, _, _, _, g₂, g₃, g₄, hlower₁, hsort, -, hmark, hdecide, rfl, rfl⟩ :=
    stages_of_compile h
  obtain ⟨_, _, _, _, g₂', g₃', g₄', hlower₂, hsort', -, hmark', hdecide', rfl, rfl⟩ :=
    stages_of_compile hm
  rw [hlower] at hlower₁
  cases hlower₁
  rw [hlower'] at hlower₂
  cases hlower₂
  -- Only the decision looks at the option.
  rw [show (setOptimize enable n₁).graph = n₁.graph from rfl, hsort] at hsort'
  cases hsort'
  rw [hmark] at hmark'
  cases hmark'
  exact ⟨(sameTasks_of_decided hdecide).symm.trans (sameTasks_of_decided hdecide'), rfl,
    beside_of_isBlank hdrawn.blank hdrawn'.blank rfl⟩

end Compile

end Network

end LayerGraph
