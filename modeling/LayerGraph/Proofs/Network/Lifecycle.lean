import LayerGraph.Proofs.Network.Calls
import LayerGraph.Proofs.Network.Runs

/-!
# The life of a network

A network is compiled before it is prepared, and prepared before anything is allocated; neither is
ever undone. From the time it is compiled its nodes stay as they are wired and ordered, and from the
time it is prepared all of its data has as many rows as its batch.
-/

namespace LayerGraph

variable {α : Type}

/-- The shapes that a node has been given have as many rows as the batch. -/
def Node.HasBatch (batch : Nat) (a : Node α) : Prop :=
  ∀ shape ∈ a.inputShapes ++ a.outputShapes, shape.batch = batch

theorem Node.hasBatch_rebatch (batch : Nat) (a : Node α) : (a.rebatch batch).HasBatch batch := by
  intro shape hs
  unfold Node.rebatch at hs
  rw [← List.map_append] at hs
  obtain ⟨shape', -, rfl⟩ := List.mem_map.mp hs
  exact Shape.batch_rebatch shape' batch

namespace Network

variable {n n₀ n' : Network α}

/-- Its layers are shipped ones, and no node has chosen a buffer before the network is compiled. -/
def Plain (n : Network α) : Prop :=
  ∀ a ∈ n.graph.nodes, a.layer.isShipped = true ∧ (n.isCompiled = false → a.bufferUse = .own)

/-- Calls on networks of shipped layers, one after the other. Each of them may fail. -/
def Leads [Scalar α] : Network α → Network α → Prop :=
  Relation.ReflTransGen fun n n' => Call n n' ∧ Plain n'

/-- How the stages of a network and what it holds go together. -/
structure InStage (n : Network α) : Prop where
  compiled : n.isPrepared = true → n.isCompiled = true
  prepared : n.store.hasTensors = true ∨ n.store.hasWeights = true → n.isPrepared = true
  mode : ∀ mode, n.store.mode = some mode → n.mode = mode
  batch : 0 < n.batchSize
  faces : n.isPrepared = true → ∀ id ∈ n.inputs ++ n.outputs ++ n.labels,
    ∃ shape, n.store.shape id = .ok shape ∧ shape.batch = n.batchSize
  nodes : n.isPrepared = true → ∀ a ∈ n.graph.nodes, a.HasBatch n.batchSize

/-- What is not undone. -/
structure Stays (n n' : Network α) : Prop where
  compiled : n.isCompiled = true → n'.isCompiled = true
  prepared : n.isPrepared = true → n'.isPrepared = true
  order : n.isCompiled = true → n'.graph.order = n.graph.order
  design : n.isCompiled = true → n'.graph.nodes.map design = n.graph.nodes.map design

theorem Stays.refl (n : Network α) : Stays n n := ⟨id, id, fun _ => rfl, fun _ => rfl⟩

theorem Stays.trans {n₁ n₂ n₃ : Network α} (h : Stays n₁ n₂) (h' : Stays n₂ n₃) : Stays n₁ n₃ where
  compiled hc := h'.compiled (h.compiled hc)
  prepared hp := h'.prepared (h.prepared hp)
  order hc := (h'.order (h.compiled hc)).trans (h.order hc)
  design hc := (h'.design (h.compiled hc)).trans (h.design hc)

section Frame

/-- What allocating, filling and writing tensors leaves alone. -/
def frame (n : Network α) := (n.graph, n.isCompiled, n.isPrepared, n.batchSize)

variable {β : Type}

theorem keeps_frame_onStore (p : Action (Store α) β) :
    Action.Keeps (fun m => frame m = frame n) (onStore p) := by
  intro m hm
  rw [after_onStore]
  exact hm

theorem keeps_frame_allocate (mode : RunMode) :
    Action.Keeps (fun m => frame m = frame n) (allocate mode) :=
  keeps_allocate_of (fun _ hm _ => hm) fun _ hm => hm

theorem keeps_frame_fillWeights [Scalar α] :
    Action.Keeps (fun m => frame m = frame n) fillWeights :=
  keeps_fillWeights_of fun _ hm _ => hm

theorem keeps_frame_requestStates (shapes : Shape → List Shape) :
    Action.Keeps (fun m => frame m = frame n) (requestStates shapes) :=
  keeps_requestStates_of fun _ hm _ _ => hm

end Frame

section Fixed

/-- Compiled as `n₀` is, and prepared if `n₀` is. -/
structure Fixed (n₀ n : Network α) : Prop where
  compiled : n.isCompiled = true
  prepared : n₀.isPrepared = true → n.isPrepared = true
  order : n.graph.order = n₀.graph.order
  design : n.graph.nodes.map design = n₀.graph.nodes.map design

theorem Fixed.refl (h : n.isCompiled = true) : Fixed n n := ⟨h, id, rfl, rfl⟩

theorem Fixed.of_frame (h : Fixed n₀ n) (heq : frame n' = frame n) : Fixed n₀ n' := by
  simp only [frame, Prod.mk.injEq] at heq
  obtain ⟨hgraph, hcompiled, hprepared, -⟩ := heq
  refine ⟨hcompiled.trans h.compiled, fun hp => hprepared.trans (h.prepared hp), ?_, ?_⟩
  · rw [hgraph]
    exact h.order
  · rw [hgraph]
    exact h.design

theorem Fixed.stays (h : Fixed n₀ n) : Stays n₀ n :=
  ⟨fun _ => h.compiled, h.prepared, fun _ => h.order, fun _ => h.design⟩

theorem keeps_fixed {β : Type} {p : Action (Network α) β}
    (hp : ∀ m, Action.Keeps (fun m' => frame m' = frame m) p) : Action.Keeps (Fixed n₀) p :=
  fun m hm => hm.of_frame (hp m m rfl)

theorem Fixed.withNodes (h : Fixed n₀ n) {g : NodeGraph (Node α)} (ho : g.order = n.graph.order)
    (hd : g.nodes.map LayerGraph.design = n.graph.nodes.map LayerGraph.design)
    {notes : List (Note α)} : Fixed n₀ { n with notes := notes, graph := g } :=
  ⟨h.compiled, h.prepared, ho.trans h.order, hd.trans h.design⟩

theorem keeps_fixed_rebatch (batch : Nat) : Action.Keeps (Fixed n₀) (rebatch batch) := by
  refine keeps_rebatch_of (fun m hm => ⟨hm.compiled, hm.prepared, hm.order, hm.design⟩)
    (fun m hm _ => hm.of_frame rfl) fun m hm => ?_
  refine hm.withNodes (g := { m.graph with nodes := m.graph.nodes.map (Node.rebatch batch) }) rfl ?_
  exact List.map_map ..

theorem enduring_fixed [Scalar α] (hconf : ∀ a ∈ n₀.graph.nodes, a.layer.Confined) :
    Enduring (Fixed n₀) where
  write n id v s h _ := ⟨h.compiled, h.prepared, h.order, h.design⟩
  keep n p loss notes h := by
    refine h.withNodes (g := n.graph.modifyNode p fun node => { node with loss := loss }) rfl ?_
    exact map_modify_eq (fun _ => by rfl) _ _
  confined n h a ha := by
    obtain ⟨b, hb, heq⟩ := List.mem_map.mp (h.design ▸ List.mem_map_of_mem ha)
    simp only [LayerGraph.design, Prod.mk.injEq] at heq
    exact confined_of_layer b a heq.2.1.symm (hconf b hb)
  allocated mode := keeps_fixed fun _ => keeps_frame_allocate mode
  filled := keeps_fixed fun _ => keeps_frame_fillWeights
  released n h := ⟨h.compiled, h.prepared, h.order, h.design⟩
  requested shapes := keeps_fixed fun _ => keeps_frame_requestStates shapes
  rebatched batch := keeps_fixed_rebatch batch

theorem keeps_fixed_modifyNode (p : NodeRef) {f : Node α → Node α}
    (hf : ∀ a, LayerGraph.design (f a) = LayerGraph.design a) :
    Action.Keeps (Fixed n₀) (modifyNode p f) :=
  Action.keeps_modify fun n h => h.withNodes (g := n.graph.modifyNode p f) rfl
    (map_modify_eq hf _ _)

theorem keeps_fixed_prepareNode (p : NodeRef) : Action.Keeps (Fixed n₀) (prepareNode p) := by
  refine keeps_prepareNode_of (fun _ => ?_) (fun _ _ _ _ _ _ => ?_) fun _ _ _ => ?_
  · exact keeps_fixed_modifyNode p fun _ => rfl
  · exact keeps_fixed fun _ => keeps_frame_onStore _
  · exact keeps_fixed_modifyNode p fun _ => rfl

theorem keeps_fixed_prepare (inputs labels : List String) :
    Action.Keeps (Fixed n₀) (prepare inputs labels) := by
  refine keeps_prepare_of (keeps_prepareAll_of keeps_fixed_prepareNode fun n _ _ _ h => ?_)
    (fun n h => ?_) fun n h => ?_
  · exact ⟨h.compiled, h.prepared, h.order, h.design⟩
  · exact ⟨h.compiled, h.prepared, h.order, h.design⟩
  · exact ⟨h.compiled, fun _ => rfl, h.order, h.design⟩

end Fixed

section Sound

variable {asks : (Shape → List Shape) → Prop}

theorem Drawn.withGraph (h : Drawn n) {g : NodeGraph (Node α)} (ho : g.order = n.graph.order)
    (hg : g.nodes.map Node.core = n.graph.nodes.map Node.core) {notes : List (Note α)} :
    Drawn { n with notes := notes, graph := g } := by
  have hsize : g.size = n.graph.size := by simpa [NodeGraph.size] using congrArg List.length hg
  refine ⟨h.closed, h.unprepared, h.compiled.of_core ho hg, h.blank,
    h.forwardSteps.trans hsize.symm, ?_, h.batch⟩
  exact h.maxStep.trans (lastStep_of_design ho (design_of_core hg)).symm

theorem Bare.keep (h : Bare n) (p : NodeRef) (loss : α) (notes : List (Note α)) :
    Bare { n with
      notes := notes
      graph := n.graph.modifyNode p fun node => { node with loss := loss } } := by
  rcases h with h | h
  · refine .inl ⟨h.open_, h.unprepared, ?_, h.blank, h.batch⟩
    refine Lowering.all_of_map_eq (f := fun a => (a.layer, a.bufferUse)) (fun a b heq ha => ?_)
      (map_modify_eq (fun _ => by rfl) _ _) h.plain
    obtain ⟨hl, hu⟩ := Prod.mk.inj heq
    exact ⟨hl ▸ ha.1, hu ▸ ha.2⟩
  · refine .inr (h.withGraph (g := n.graph.modifyNode p fun node => { node with loss := loss })
      rfl ?_)
    exact map_modify_eq (fun _ => by rfl) _ _

theorem Sound.shipped (h : Sound asks n) : ∀ a ∈ n.graph.nodes, a.layer.isShipped = true := by
  intro a ha
  rcases h with h | h | h
  · exact (h.plain a ha).1
  · obtain ⟨p, hp⟩ := List.getElem?_of_mem ha
    exact h.compiled.shipped p a hp
  · obtain ⟨p, hp⟩ := List.getElem?_of_mem ha
    exact h.registered.compiled.shipped p a hp

theorem Sound.prepared (h : Sound asks n) (hp : n.isPrepared = true) : Prepared asks n := by
  refine h.cases.resolve_left fun hb => ?_
  rw [hb.unprepared] at hp
  cases hp

theorem Sound.drawn (h : Sound asks n) (hc : n.isCompiled = true) (hp : n.isPrepared = false) :
    Drawn n := by
  rcases h with h | h | h
  · rw [h.open_] at hc
    cases hc
  · exact h
  · rw [h.prepared] at hp
    cases hp

theorem Sound.withNotes (h : Sound asks n) (notes : List (Note α)) :
    Sound asks { n with notes := notes } := by
  rcases h with h | h | h
  · exact .inl ⟨h.open_, h.unprepared, h.plain, h.blank, h.batch⟩
  · exact .inr (.inl (h.withGraph rfl rfl))
  · have hfaces : Faces { n with notes := notes } :=
      ⟨h.faces.inputs, h.faces.labels, h.faces.outputs⟩
    exact .inr (.inr ⟨h.closed, h.prepared, h.batch, h.registered, hfaces, h.allocated,
        h.loaded, h.asked, h.mode⟩)

theorem Sound.plain (h : Sound asks n) : Plain n := by
  intro a ha
  refine ⟨h.shipped a ha, fun hopen => ?_⟩
  rcases h.open_or_closed with hd | hc
  · exact (hd.plain a ha).2
  · rw [hc] at hopen
    cases hopen

/-- Whatever is called, networks stay sound, if any optimizer state may be asked for. -/
theorem enduring_sound [Scalar α] : Enduring (Sound (α := α) fun _ => True) where
  write n id v s h hset := by
    rcases h.cases with hb | hp
    · rw [writable_of_isBlank hb.isBlank n.store id v s rfl hset]
      exact h
    · exact .inr (.inr ((steady_prepared _).write n id v s hp hset))
  keep n p loss notes h := by
    rcases h.cases with hb | hp
    · exact (hb.keep p loss notes).sound
    · exact .inr (.inr (hp.keep p loss notes))
  confined n h a ha := Layer.confined_of_isShipped (h.shipped a ha)
  allocated mode n h := sound_allocate mode h
  filled n h := sound_fillWeights h
  released n h := sound_releaseTensors false h
  requested shapes n h := sound_requestStates trivial h
  rebatched batch n h := sound_rebatch batch h

end Sound

section Batch

/-- Once a network is prepared, its nodes have its batch. -/
def Even (n : Network α) : Prop := n.isPrepared = true → ∀ a ∈ n.graph.nodes, a.HasBatch n.batchSize

theorem Even.of_frame (h : Even n) (heq : frame n' = frame n) : Even n' := by
  simp only [frame, Prod.mk.injEq] at heq
  obtain ⟨hgraph, -, hprepared, hbatch⟩ := heq
  unfold Even
  rw [hgraph, hprepared, hbatch]
  exact h

theorem even_of_unprepared (h : n.isPrepared = false) : Even n :=
  fun hp => (Bool.false_ne_true (h.symm.trans hp)).elim

/-- Setting the batch sets that of the nodes too. -/
theorem even_rebatch (batch : Nat) (h : Even n) : Even ((rebatch batch).after n) := by
  unfold rebatch
  by_cases hzero : batch = 0
  · rw [Action.after_guard_of_pos hzero]
    exact h
  rw [if_neg hzero, Action.after_get_bind]
  dsimp only
  by_cases hmode : n.store.hasTensors = true
  · rw [Action.after_guard_of_pos hmode]
    exact h
  rw [if_neg hmode, Action.after_modify_bind, Action.after_get_bind]
  dsimp only
  by_cases hp : n.isPrepared = true
  · rw [if_pos hp]
    obtain ⟨s, hr, -⟩ := Store.exists_rebatch (Bool.eq_false_iff.mpr hmode) batch
    rw [Action.after_bind_of_ok (onStore_of_ok (n := { n with batchSize := batch }) hr)]
    intro _ a ha
    obtain ⟨b, -, rfl⟩ := List.mem_map.mp ha
    exact Node.hasBatch_rebatch batch b
  · rw [if_neg hp]
    exact even_of_unprepared (Bool.eq_false_iff.mpr hp)

/-- A node that is finalized has the batch of the network. -/
theorem hasBatch_of_prepareNode {done rest : List NodeRef} {p : NodeRef} {u : Unit}
    (h : Registered n.graph n.store n.batchSize done) (hsplit : n.graph.order = done ++ p :: rest)
    (hdone : ∀ q ∈ done, ∀ a, n.graph.nodes[q]? = some a → a.HasBatch n.batchSize)
    (hp : prepareNode p n = .ok u n') :
    ∀ q ∈ done ++ [p], ∀ a, n'.graph.nodes[q]? = some a → a.HasBatch n'.batchSize := by
  obtain ⟨a, owner, inputs, inputShapes, declared, use, handles, s', ha, -, hinputs, hshapes,
      hdeclare, -, -, rfl⟩ :=
    stages_of_prepareNode hp
  obtain ⟨hfits, -⟩ := inputs_of_inputSlot h hsplit ha hinputs
  have hins := batch_of_shapes h.registry hfits hshapes
  have houts := batch_of_declares (declares_of_declare (h.compiled.shipped p a ha) hdeclare) hins
  intro q hq b hb
  rw [getElem?_modifyNode] at hb
  obtain ⟨c, hc, rfl⟩ := Option.map_eq_some_iff.mp hb
  by_cases hpq : p = q
  · rw [if_pos hpq]
    intro shape hs
    rcases List.mem_append.mp hs with hs | hs
    · exact hins shape hs
    · exact houts shape hs
  · rw [if_neg hpq]
    have hq : q ∈ done := by simpa [Ne.symm hpq] using hq
    exact hdone q hq c hc

theorem even_of_prepareAll {inputs labels : List String} {u : Unit} (hd : Drawn n)
    (hp : prepareAll inputs labels n = .ok u n') : ∀ a ∈ n'.graph.nodes,
      a.HasBatch n'.batchSize := by
  obtain ⟨_, _, hget, hp⟩ := Action.bind_eq_ok_iff.mp hp
  cases hget
  obtain ⟨_, n₁, hall, hp⟩ := Action.bind_eq_ok_iff.mp hp
  obtain ⟨_, _, hread, hp⟩ := Action.bind_eq_ok_iff.mp hp
  obtain ⟨-, rfl⟩ := Action.read_eq_ok_iff.mp hread
  obtain ⟨_, _, hread, hp⟩ := Action.bind_eq_ok_iff.mp hp
  obtain ⟨-, rfl⟩ := Action.read_eq_ok_iff.mp hread
  cases hp
  obtain ⟨hreg, hset, hbatch⟩ :=
      Action.forM_prefix (fun done n₁ => Registered n₁.graph n₁.store n₁.batchSize done ∧
      Settling n.graph n₁.graph ∧ ∀ q ∈ done, ∀ a, n₁.graph.nodes[q]? = some a →
        a.HasBatch n₁.batchSize) hall
    ⟨registered_nil hd, .refl _, by simp⟩ fun done p rest n₁ n₂ u hsplit h hstep => by
      obtain ⟨hreg, hset, hbatch⟩ := h
      have hsplit' : n₁.graph.order = done ++ p :: rest := hset.order.trans hsplit
      obtain ⟨hreg', hset'⟩ := registered_step hreg hsplit' hstep
      have hbatch' := hasBatch_of_prepareNode hreg hsplit' hbatch hstep
      obtain ⟨_, _, _, _, _, _, _, _, -, -, -, -, -, -, -, rfl⟩ := stages_of_prepareNode hstep
      exact ⟨hreg', hset.trans hset', hbatch'⟩
  intro a ha
  obtain ⟨p, hp⟩ := List.getElem?_of_mem ha
  refine hbatch p ?_ a hp
  rw [← hset.order]
  exact mem_order_of_node hreg.compiled.ordered.perm hp

/-- A sound network whose nodes have its batch once it is prepared. -/
structure Regular (n : Network α) : Prop where
  sound : Sound (fun _ => True) n
  even : Even n

theorem regular_ofSettings (settings : NetworkSettings) :
    Regular (ofSettings settings : Network α) :=
  ⟨.inl (draft_ofSettings settings), even_of_unprepared rfl⟩

theorem Regular.of_frame (h : Regular n) (hs : Sound (fun _ => True) n')
    (heq : frame n' = frame n) : Regular n' :=
  ⟨hs, h.even.of_frame heq⟩

theorem enduring_regular [Scalar α] : Enduring (Regular (α := α)) where
  write n id v s h hset := h.of_frame (enduring_sound.write n id v s h.sound hset) rfl
  keep n p loss notes h := by
    refine ⟨enduring_sound.keep n p loss notes h.sound, fun hp => ?_⟩
    refine Lowering.all_of_map_eq (f := fun a => (a.inputShapes, a.outputShapes))
      (fun a b heq ha => ?_) (map_modify_eq (fun _ => by rfl) _ _) (h.even hp)
    obtain ⟨hins, houts⟩ := Prod.mk.inj heq
    unfold Node.HasBatch
    rw [← hins, ← houts]
    exact ha
  confined n h := enduring_sound.confined n h.sound
  allocated mode n h := h.of_frame (sound_allocate mode h.sound) (keeps_frame_allocate mode n rfl)
  filled n h := h.of_frame (sound_fillWeights h.sound) (keeps_frame_fillWeights n rfl)
  released n h := h.of_frame (sound_releaseTensors false h.sound) rfl
  requested shapes n h :=
    h.of_frame (sound_requestStates trivial h.sound) (keeps_frame_requestStates shapes n rfl)
  rebatched batch n h := ⟨sound_rebatch batch h.sound, even_rebatch batch h.even⟩

theorem regular_prepare (inputs labels : List String) (h : Regular n) :
    Regular ((prepare inputs labels).after n) := by
  refine ⟨sound_prepare inputs labels h.sound, ?_⟩
  by_cases hp : n.isPrepared = true
  · rw [after_prepare_of_prepared inputs labels hp]
    exact h.even
  rw [Bool.not_eq_true] at hp
  by_cases hc : n.isCompiled = true
  · have hd := h.sound.drawn hc hp
    cases hr : prepare inputs labels n with
    | ok u n' =>
      rw [Action.after_of_ok hr]
      obtain ⟨n₁, hall, rfl⟩ := prepareAll_of_prepare hr
      have heven := even_of_prepareAll hd hall
      exact fun _ => heven
    | error e n' =>
      rw [Action.after_of_error hr]
      exact even_of_unprepared (fails_drawn_prepare inputs labels n e n' hd hr).unprepared
  · rw [after_prepare_of_open inputs labels (Bool.eq_false_iff.mpr hc)]
    exact h.even

theorem Regular.inStage (h : Regular n) : InStage n where
  compiled hp := (h.sound.prepared hp).closed
  prepared hheld := by
    refine h.sound.cases.elim (fun hb => ?_) (·.prepared)
    rw [Store.hasTensors, hb.isBlank.mode, hb.isBlank.hasWeights] at hheld
    simp at hheld
  mode mode hm := by
    rcases h.sound.cases with hb | hp
    · rw [hb.isBlank.mode] at hm
      cases hm
    · exact hp.mode mode hm
  batch := h.sound.cases.elim (·.batch) (·.batch)
  faces hp id hid := by
    have hprep := h.sound.prepared hp
    have hholds : ∀ {p : Nat} {a : Node α}, n.graph.nodes[p]? = some a →
        a.Holds n.store n.graph.size := fun ha =>
      hprep.registered.holds _ (mem_order_of_node hprep.registered.compiled.ordered.perm ha) _ ha
    have hshape : ∀ {width}, n.store.HasWidth id width →
        ∃ shape, n.store.shape id = .ok shape ∧ shape.batch = n.batchSize :=
          fun hw => ⟨_, hw.shape hprep.registered.registry, rfl⟩
    rcases List.mem_append.mp hid with hid | hid
    · rcases List.mem_append.mp hid with hid | hid
      · obtain ⟨p, a, y, ha, -, hy, rfl⟩ := hprep.faces.inputs id hid
        obtain ⟨width, hw⟩ := (hholds ha).fits.output hy
        exact hshape hw.value
      · obtain ⟨p, a, y, ha, -, hy, rfl⟩ := hprep.faces.outputs id hid
        obtain ⟨width, hw⟩ := (hholds ha).fits.output hy
        exact hshape hw.value
    · obtain ⟨p, a, ha, hl⟩ := hprep.faces.labels id hid
      obtain ⟨width, hw⟩ := (hholds ha).fits.label hl
      exact hshape hw
  nodes := h.even

end Batch

section Growth

/-- Growing changes nodes and names only. -/
def Grows (n₀ n : Network α) : Prop := n = { n₀ with graph := n.graph, aliases := n.aliases }

theorem grows_add (node : Node α) : Action.Keeps (Grows n₀) (add node) := by
  refine Action.keeps_get.bind fun n => Action.Keeps.guard (Action.Keeps.bind ?_
    fun _ => Action.keeps_pure _)
  intro m hm
  rw [show (onGraph _).after m = _ from Action.after_focus _ _ _ m, hm]
  rfl

theorem grows_extend (nodes : List (Node α)) (fragment : String) :
    Action.Keeps (Grows n₀) (extend nodes fragment) := by
  refine Action.keeps_get.bind fun n => Action.Keeps.guard (Action.Keeps.guard ?_)
  cases n.graph.nodes.getLast? with
  | none => exact Action.keeps_throw _
  | some last =>
    have halias : ∀ f : Network α → List (String × String),
        Action.Keeps (Grows n₀) (modify fun n => { n with aliases := f n }) := fun f =>
      Action.keeps_modify fun n hn => by rw [hn]; rfl
    refine (Action.keeps_forM fun node _ => grows_add _).bind fun _ => (halias _).bind fun _ => ?_
    split
    · exact halias _
    · exact Action.keeps_pure _

/-- A draft that grows by plain nodes is a draft. -/
theorem Draft.grows (h : Draft n) (hg : Grows n n') (hp : Plain n') : Draft n' := by
  rw [hg] at hp ⊢
  exact ⟨h.open_, h.unprepared, fun a ha => ⟨(hp a ha).1, (hp a ha).2 h.open_⟩, h.blank, h.batch⟩

theorem regular_grow {p : Action (Network α) Unit} (hp : Action.Keeps (Grows n) p)
    (hclosed : n.isCompiled = true → p.after n = n) (h : Regular n) (hplain : Plain (p.after n)) :
    Regular (p.after n) := by
  rcases h.sound.open_or_closed with hd | hc
  · have hdraft := hd.grows (hp n rfl) hplain
    exact ⟨.inl hdraft, even_of_unprepared hdraft.unprepared⟩
  · rw [hclosed hc]
    exact h

end Growth

section Calls

variable [Scalar α]

theorem regular_compile (loss : Option String) (h : Regular n) :
    Regular ((compile loss).after n) := by
  refine ⟨sound_compile loss h.sound, ?_⟩
  rcases h.sound.open_or_closed with hd | hc
  · cases hr : compile loss n with
    | ok u n' =>
      rw [Action.after_of_ok hr]
      exact even_of_unprepared (drawn_of_compile hd hr).unprepared
    | error e n' =>
      rw [Action.after_of_error hr]
      exact even_of_unprepared (fails_draft_compile loss n e n' hd hr).unprepared
  · rw [after_compile_of_closed loss hc]
    exact h.even

/-- What a call does to a network of shipped layers. -/
theorem regular_of_call (h : Regular n) (hcall : Call n n') (hplain : Plain n') : Regular n' := by
  refine enduring_regular.keeps_call h hcall (fun node _ heq => ?_) (fun nodes fragment _ heq => ?_)
    (fun loss => regular_compile loss h) (fun inputs labels => regular_prepare inputs labels h)
    (h.of_frame (sound_releaseTensors true h.sound) rfl)
      (h.of_frame (sound_releaseWeights h.sound) rfl)
    (fun enable => h.of_frame (sound_setOptimize enable h.sound) rfl)
      (h.of_frame (h.sound.withNotes []) rfl)
  · rw [heq] at hplain ⊢
    exact regular_grow (grows_add node) (after_add_of_closed node) h hplain
  · rw [heq] at hplain ⊢
    exact regular_grow (grows_extend nodes fragment) (after_extend_of_closed nodes fragment)
      h hplain

/-- A call on a compiled network leaves it fixed. -/
theorem fixed_of_call (hc : n.isCompiled = true) (hconf : ∀ a ∈ n.graph.nodes, a.layer.Confined)
    (hcall : Call n n') : Fixed n n' := by
  have hfixed := Fixed.refl hc
  refine (enduring_fixed hconf).keeps_call hfixed hcall (fun node _ heq => ?_)
    (fun nodes fragment _ heq => ?_) (fun loss => ?_)
      (fun inputs labels => keeps_fixed_prepare inputs labels n hfixed) (hfixed.of_frame rfl)
    (hfixed.of_frame rfl) (fun _ => hfixed.of_frame rfl) (hfixed.of_frame rfl)
  · rw [heq, after_add_of_closed node hc]
    exact hfixed
  · rw [heq, after_extend_of_closed nodes fragment hc]
    exact hfixed
  · rw [after_compile_of_closed loss hc]
    exact hfixed

/-- What a network that is reached has been led to. -/
theorem leads_of_reached {asks : (Shape → List Shape) → Prop} (h : Reached asks n) :
    ∃ settings, Leads (ofSettings settings) n := by
  have hstep : ∀ {n n' : Network α}, (∃ settings, Leads (ofSettings settings) n) →
      Reached asks n' → Call n n' →
      ∃ settings, Leads (ofSettings settings) n' := by
    rintro n n' ⟨settings, hl⟩ hr hcall
    exact ⟨settings, hl.tail ⟨hcall, (sound_of_reached hr).plain⟩⟩
  induction h with
  | settings settings => exact ⟨settings, .refl⟩
  | add node plain h ih =>
    exact hstep ih (.add node plain h) (.add node (Layer.confined_of_isShipped plain.1))
  | extend nodes fragment plain h ih =>
    refine hstep ih (.extend nodes fragment plain h) (.extend nodes fragment fun node hn => ?_)
    exact Layer.confined_of_isShipped (plain node hn).1
  | compile loss h ih => exact hstep ih (.compile loss h) (.compile loss)
  | prepare inputs labels h ih => exact hstep ih (.prepare inputs labels h) (.prepare inputs labels)
  | allocate mode h ih => exact hstep ih (.allocate mode h) (.allocate mode)
  | fillWeights h ih => exact hstep ih (.fillWeights h) .fillWeights
  | releaseTensors weightsToo h ih =>
    exact hstep ih (.releaseTensors weightsToo h) (.releaseTensors weightsToo)
  | releaseWeights h ih => exact hstep ih (.releaseWeights h) .releaseWeights
  | setOptimize enable h ih => exact hstep ih (.setOptimize enable h) (.setOptimize enable)
  | requestStates shapes asked h ih =>
    exact hstep ih (.requestStates shapes asked h) (.requestStates shapes)
  | rebatch batch h ih => exact hstep ih (.rebatch batch h) (.rebatch batch)
  | write id value h ih => exact hstep ih (.write id value h) (.write id value)
  | feed inputs labels h ih => exact hstep ih (.feed inputs labels h) (.feed inputs labels)
  | forward training h ih => exact hstep ih (.forward training h) (.forward training)
  | backward own rule h ih =>
    exact hstep ih (.backward own rule h)
      (.backward own _ fun node Q hQ => keeps_applyComplete_visit hQ node (rule node.name))
  | applyGradients own name rule h ih =>
    exact hstep ih (.applyGradients own name rule h) (.applyGradients own name rule)

theorem stays_of_call (h : Regular n) (hcall : Call n n') : Stays n n' := by
  by_cases hc : n.isCompiled = true
  · exact (fixed_of_call hc (fun a ha => Layer.confined_of_isShipped (h.sound.shipped a ha))
      hcall).stays
  · have hp : n.isPrepared ≠ true := fun hp => hc (h.sound.prepared hp).closed
    exact ⟨fun h => absurd h hc, fun h => absurd h hp, fun h => absurd h hc, fun h => absurd h hc⟩

theorem regular_of_leads (h : Regular n) (hl : Leads n n') : Regular n' := by
  induction hl with
  | refl => exact h
  | tail _ hstep ih => exact regular_of_call ih hstep.1 hstep.2

theorem stays_of_leads (h : Regular n) (hl : Leads n n') : Stays n n' := by
  induction hl with
  | refl => exact .refl n
  | tail hl hstep ih => exact ih.trans (stays_of_call (regular_of_leads h hl) hstep.1)

/-- Whatever has been called on shipped layers, and however it has ended, the stages of a network go
together with what it holds, and whatever is called next undoes none of them and changes no node,
connection or place in the order once the network is compiled. -/
theorem inStage_of_leads {settings : NetworkSettings} (h : Leads (ofSettings settings) n) :
    InStage n ∧ ∀ n', Leads n n' → Stays n n' := by
  have hregular := regular_of_leads (regular_ofSettings settings) h
  exact ⟨hregular.inStage, fun n' hl => stays_of_leads hregular hl⟩

theorem readied_inStage : readied.isPrepared = true ∧ InStage readied ∧
    ∀ n', Leads readied n' → Stays readied n' := by
  obtain ⟨settings, hl⟩ := leads_of_reached reached_readied
  obtain ⟨hstage, hstays⟩ := inStage_of_leads hl
  exact ⟨hstage.prepared (.inl (by rw [Store.hasTensors, readied_ready.2]; rfl)), hstage, hstays⟩

end Calls

end Network

end LayerGraph
