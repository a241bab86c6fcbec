import LayerGraph.Proofs.Network.Reached
import LayerGraph.Proofs.Network.Steady

/-!
# Every reached network is sound

Each call takes a sound network to a sound one, whether it ends well or fails.
-/

namespace LayerGraph.Network

variable {α β : Type} {n : Network α} {asks : (Shape → List Shape) → Prop}

section Growth

theorem isPlain_of_same (a b : Node α) (hl : b.layer = a.layer) (hu : b.bufferUse = a.bufferUse)
    (h : a.IsPlain) : b.IsPlain := ⟨hl ▸ h.1, hu.trans h.2⟩

theorem keeps_draft_add {node : Node α} (h : node.IsPlain) :
    Action.Keeps (Draft (α := α)) (add node) :=
  drafting_draft.keeps_add isPlain_of_same h

theorem keeps_draft_extend {nodes : List (Node α)} (fragment : String)
    (h : ∀ node ∈ nodes, node.IsPlain) : Action.Keeps (Draft (α := α)) (extend nodes fragment) :=
  drafting_draft.keeps_extend isPlain_of_same fragment h

/-- A network that is closed is not changed by growing or compiling it. -/
theorem after_add_of_closed (node : Node α) (h : n.isCompiled = true) : (add node).after n = n := by
  unfold add
  rw [Action.after_get_bind]
  exact Action.after_guard_of_pos h _ _ n

theorem after_extend_of_closed (nodes : List (Node α)) (fragment : String)
    (h : n.isCompiled = true) : (extend nodes fragment).after n = n := by
  unfold extend
  rw [Action.after_get_bind]
  exact Action.after_guard_of_pos h _ _ n

theorem after_compile_of_closed [Zero α] (loss : Option String) (h : n.isCompiled = true) :
    (compile loss).after n = n := by
  unfold compile
  rw [Action.after_get_bind]
  exact Action.after_guard_of_pos h _ _ n

theorem Sound.open_or_closed (h : Sound asks n) : Draft n ∨ n.isCompiled = true :=
  h.elim .inl fun h => .inr (h.elim (·.closed) (·.closed))

theorem sound_add {node : Node α} (hp : node.IsPlain) (h : Sound asks n) :
    Sound asks ((add node).after n) := by
  rcases h.open_or_closed with hd | hc
  · exact .inl (keeps_draft_add hp n hd)
  · rw [after_add_of_closed node hc]
    exact h

theorem sound_extend {nodes : List (Node α)} (fragment : String) (hp : ∀ node ∈ nodes, node.IsPlain)
    (h : Sound asks n) : Sound asks ((extend nodes fragment).after n) := by
  rcases h.open_or_closed with hd | hc
  · exact .inl (keeps_draft_extend fragment hp n hd)
  · rw [after_extend_of_closed nodes fragment hc]
    exact h

theorem sound_compile [Zero α] (loss : Option String) (h : Sound asks n) :
    Sound asks ((compile loss).after n) := by
  rcases h.open_or_closed with hd | hc
  · cases hr : compile loss n with
    | ok u n' =>
      rw [Action.after_of_ok hr]
      exact .inr (.inl (drawn_of_compile hd hr))
    | error e n' =>
      rw [Action.after_of_error hr]
      exact .inl (fails_draft_compile loss n e n' hd hr)
  · rw [after_compile_of_closed loss hc]
    exact h

end Growth

section Prepare

theorem after_prepare_of_open (inputs labels : List String) (h : n.isCompiled = false) :
    (prepare inputs labels).after n = n := by
  unfold prepare
  rw [Action.after_get_bind]
  exact Action.after_guard_of_pos (by rw [h]; rfl) _ _ n

theorem after_prepare_of_prepared (inputs labels : List String) (h : n.isPrepared = true) :
    (prepare inputs labels).after n = n := by
  cases hc : n.isCompiled with
  | false => exact after_prepare_of_open inputs labels hc
  | true =>
    unfold prepare
    rw [Action.after_get_bind]
    dsimp only
    rw [if_neg (by rw [hc]; simp), Action.after_get_bind]
    exact Action.after_guard_of_pos h _ _ n

theorem sound_prepare (inputs labels : List String) (h : Sound asks n) :
    Sound asks ((prepare inputs labels).after n) := by
  rcases id h with hd | hd | hp
  · rw [after_prepare_of_open inputs labels hd.open_]
    exact h
  · cases hr : prepare inputs labels n with
    | ok u n' =>
      rw [Action.after_of_ok hr]
      exact .inr (.inr (prepared_of_prepare hd hr))
    | error e n' =>
      rw [Action.after_of_error hr]
      exact .inr (.inl (fails_drawn_prepare inputs labels n e n' hd hr))
  · rw [after_prepare_of_prepared inputs labels hp.prepared]
    exact h

end Prepare

section Memory

/-- A change of the store that keeps what is registered. -/
theorem Prepared.reworked (h : Prepared asks n) {s : Store α}
    (hs : Store.Reworked asks n.batchSize n.store s)
    (hmode : s.mode = n.store.mode ∨ s.mode = none) : Prepared asks { n with store := s } := by
  refine h.withStore hs h.batch fun m hm => ?_
  rcases hmode with hs | hs
  · exact h.mode m (hs.symm.trans hm)
  · rw [hs] at hm
    cases hm

theorem onStore_of_ok {p : Action (Store α) β} {b : β} {s : Store α} (h : p n.store = .ok b s) :
    onStore p n = .ok b { n with store := s } := Action.focus_of_ok h

theorem after_onStore (p : Action (Store α) β) (n : Network α) :
    (onStore p).after n = { n with store := p.after n.store } := Action.after_focus _ _ p n

theorem after_allocate_of_unprepared (mode : RunMode) (h : n.isPrepared = false) :
    (allocate mode).after n = n := by
  unfold allocate
  rw [Action.after_get_bind]
  exact Action.after_guard_of_pos (by rw [h]; rfl) _ _ n

theorem after_allocate_of_prepared (mode : RunMode) (h : n.isPrepared = true) :
    (allocate mode).after n = match Store.allocate mode n.store with
      | .ok _ s => { n with store := s, mode := mode }
      | .error _ s => { n with store := s } := by
  unfold allocate
  rw [Action.after_get_bind]
  dsimp only
  rw [if_neg (by rw [h]; simp)]
  cases hr : Store.allocate mode n.store with
  | ok u s => exact Action.after_of_ok (Action.bind_of_ok (Action.focus_of_ok hr))
  | error e s => exact Action.after_of_error (Action.bind_of_error (Action.focus_of_error hr))

theorem sound_allocate (mode : RunMode) (h : Sound asks n) :
    Sound asks ((allocate mode).after n) := by
  rcases h.cases with hb | hp
  · rw [after_allocate_of_unprepared mode hb.unprepared]
    exact h
  rw [after_allocate_of_prepared mode hp.prepared]
  have hre : Store.Reworked asks n.batchSize n.store ((Store.allocate mode).after n.store) :=
    Store.reworked_allocate hp.registered.registry hp.allocated hp.loaded mode
  have hmode := (Store.reallocated_allocate hp.allocated hp.loaded mode).2
  cases hr : Store.allocate mode n.store with
  | ok u s =>
    rw [Action.after_of_ok hr] at hre hmode
    refine .inr (.inr (hp.withStore hre hp.batch fun m hm => ?_))
    rcases hmode with hs | ⟨u', s', hr', hs⟩
    · rw [hs] at hm
      cases hm
    · rw [hr] at hr'
      cases hr'
      rw [hs] at hm
      exact Option.some.inj hm
  | error e s =>
    rw [Action.after_of_error hr] at hre hmode
    refine .inr (.inr (hp.reworked hre (.inr ?_)))
    rcases hmode with hs | ⟨u', s', hr', -⟩
    · exact hs
    · rw [hr] at hr'
      cases hr'

theorem after_fillWeights_of_unprepared [Scalar α] (h : n.isPrepared = false) :
    (fillWeights : Action (Network α) Unit).after n = n := by
  unfold fillWeights
  rw [Action.after_get_bind]
  exact Action.after_guard_of_pos (by rw [h]; rfl) _ _ n

theorem after_fillWeights_of_prepared [Scalar α] (h : n.isPrepared = true) :
    (fillWeights : Action (Network α) Unit).after n =
      { n with store := (Store.fillWeights n.store.maxStep).after n.store } := by
  unfold fillWeights
  rw [Action.after_get_bind]
  dsimp only
  rw [if_neg (by rw [h]; simp), Action.after_get_bind, after_onStore]

theorem mode_fillWeights [Scalar α] (maxStep : Nat) (s : Store α) :
    ((Store.fillWeights maxStep).after s).mode = s.mode := by
  refine Action.keeps_update (P := fun s' => s'.mode = s.mode) (fun s₁ s' h₁ h => ?_) s rfl
  split at h
  · cases h
    exact h₁
  · obtain ⟨_, -, h⟩ := except_bind_eq_ok_iff.mp h
    cases h
    exact h₁

theorem sound_fillWeights [Scalar α] (h : Sound asks n) :
    Sound asks ((fillWeights : Action (Network α) Unit).after n) := by
  rcases h.cases with hb | hp
  · rw [after_fillWeights_of_unprepared hb.unprepared]
    exact h
  · rw [after_fillWeights_of_prepared hp.prepared]
    exact .inr (.inr (hp.reworked
      (Store.reworked_fillWeights hp.registered.registry hp.allocated hp.loaded _)
      (.inl (mode_fillWeights _ _))))

theorem isBlank_releaseTensors {s : Store α} (h : s.IsBlank) : s.releaseTensors.IsBlank :=
  ⟨h.entries, h.weights, h.persistent, rfl, rfl, rfl, h.hasWeights⟩

theorem isBlank_releaseWeights {s : Store α} (h : s.IsBlank) : s.releaseWeights.IsBlank :=
  ⟨h.entries, h.weights, rfl, h.slots, h.slotOf, h.mode, rfl⟩

theorem sound_releaseTensors (weightsToo : Bool) (h : Sound asks n) :
    Sound asks (releaseTensors weightsToo n) := by
  rcases h.cases with hb | hp
  · have hblank := isBlank_releaseTensors hb.isBlank
    cases weightsToo with
    | true => exact (hb.withStore (isBlank_releaseWeights hblank) rfl rfl hb.batch _ _).sound
    | false => exact (hb.withStore hblank rfl rfl hb.batch _ _).sound
  · have hre : Store.Reworked asks n.batchSize n.store n.store.releaseTensors :=
      Store.reworked_releaseTensors hp.registered.registry hp.loaded
    cases weightsToo with
    | true =>
      exact .inr (.inr (hp.reworked (hre.trans
        (Store.reworked_releaseWeights hre.registry hre.allocated hre.loaded)) (.inr rfl)))
    | false => exact .inr (.inr (hp.reworked hre (.inr rfl)))

theorem sound_releaseWeights (h : Sound asks n) : Sound asks (releaseWeights n) := by
  rcases h.cases with hb | hp
  · exact (hb.withStore (isBlank_releaseWeights hb.isBlank) rfl rfl hb.batch _ _).sound
  · exact .inr (.inr (hp.reworked
      (Store.reworked_releaseWeights hp.registered.registry hp.allocated hp.loaded) (.inl rfl)))

theorem sound_setOptimize (enable : Bool) (h : Sound asks n) :
    Sound asks (setOptimize enable n) := by
  rcases h.cases with hb | hp
  · have hblank := hb.isBlank
    exact (hb.withStore (s := { n.store with optimize := enable })
      ⟨hblank.entries, hblank.weights, hblank.persistent, hblank.slots, hblank.slotOf, hblank.mode,
        hblank.hasWeights⟩ rfl rfl hb.batch _ _).sound
  · exact .inr (.inr (hp.withStore
      (Store.reworked_setOptimize hp.registered.registry hp.allocated hp.loaded enable)
        hp.batch hp.mode))

theorem sound_requestStates {shapes : Shape → List Shape} (hasks : asks shapes) (h : Sound asks n) :
    Sound asks ((requestStates shapes).after n) := by
  unfold requestStates
  rw [Action.after_get_bind]
  rcases h.cases with hb | hp
  · rw [Action.after_guard_of_pos (by rw [hb.unprepared]; rfl)]
    exact h
  dsimp only
  rw [if_neg (by rw [hp.prepared]; simp), Action.after_get_bind]
  by_cases hw : n.store.hasWeights = true
  · rw [Action.after_guard_of_pos hw]
    exact h
  rw [if_neg hw, after_onStore]
  have hbuffers := Store.sameBuffers_requestStates n.store shapes
  exact .inr (.inr (hp.reworked (Store.reworked_requestStates hp.registered.registry hp.allocated
    hp.loaded (by simpa using hw) hasks) (.inl hbuffers.mode)))

theorem core_rebatch (batch : Nat) (nodes : List (Node α)) :
    (nodes.map (Node.rebatch batch)).map Node.core = nodes.map Node.core := by
  rw [List.map_map]
  rfl

theorem sound_rebatch (batch : Nat) (h : Sound asks n) : Sound asks ((rebatch batch).after n) := by
  unfold rebatch
  by_cases hzero : batch = 0
  · rw [Action.after_guard_of_pos hzero]
    exact h
  rw [if_neg hzero, Action.after_get_bind]
  dsimp only
  by_cases hmode : n.store.hasTensors = true
  · rw [Action.after_guard_of_pos hmode]
    exact h
  rw [if_neg hmode]
  have hpos : 0 < batch := Nat.pos_of_ne_zero hzero
  rw [Action.after_modify_bind, Action.after_get_bind]
  rcases h.cases with hb | hp
  · dsimp only
    rw [if_neg (by rw [hb.unprepared]; simp)]
    exact (hb.withStore hb.isBlank rfl rfl hpos _ _).sound
  dsimp only
  rw [if_pos hp.prepared]
  obtain ⟨s, hr, hs⟩ := Store.exists_rebatch (Bool.eq_false_iff.mpr hmode) batch
  have hre : Store.Reworked asks batch n.store s :=
    Store.reworked_rebatch hp.registered.registry hp.allocated hp.loaded hr
  rw [Action.after_bind_of_ok (onStore_of_ok (n := { n with batchSize := batch }) hr)]
  refine .inr (.inr ?_)
  exact (hp.withStore hre hpos fun m hm => hp.mode m (hs ▸ hm)).withGraph rfl (core_rebatch batch _)

end Memory

section Run

/-- What a hook leaves behind. -/
theorem Prepared.keep (h : Prepared asks n) (p : NodeRef) (loss : α) (notes : List (Note α)) :
    Prepared asks { n with
      notes := notes, graph := n.graph.modifyNode p fun node => { node with loss := loss } } := by
  have h' := h.withGraph (g := n.graph.modifyNode p fun node => { node with loss := loss }) rfl
    (map_modify_eq (f := Node.core) (fun _ => by rfl) _ _)
  exact ⟨h'.closed, h'.prepared, h'.batch, h'.registered,
    ⟨h'.faces.inputs, h'.faces.labels, h'.faces.outputs⟩, h'.allocated, h'.loaded,
    h'.asked, h'.mode⟩

theorem steady_prepared [Scalar α] (asks : (Shape → List Shape) → Prop) :
    Steady (Prepared (α := α) asks) where
  write n id v s h hset :=
    h.reworked (Store.reworked_of_set h.registered.registry h.allocated h.loaded hset)
    (.inl (Store.sameLayout_of_set hset).mode)
  keep n p loss notes h := h.keep p loss notes
  confined n h a ha := by
    obtain ⟨p, hp⟩ := List.getElem?_of_mem ha
    exact Layer.confined_of_isShipped (h.registered.compiled.shipped p a hp)

theorem after_of_not_ready {γ : Type} {e : Error} (hn : checkReady n = .error e)
    (k : Unit → Action (Network α) γ) : (Action.read checkReady >>= k).after n = n :=
  Action.after_of_error (Action.bind_of_error (Action.read_of_error hn))

variable [Scalar α] {τ : Type}

/-- Nothing can be written to a network of which nothing is registered. -/
theorem sound_onStore {p : Action (Store α) β} (hp : ∀ Q, Store.Writable Q → Action.Keeps Q p)
    (h : Sound asks n) : Sound asks ((onStore p).after n) := by
  rcases h.cases with hb | hprep
  · rw [after_onStore, show p.after n.store = n.store from hp _ (writable_of_isBlank hb.isBlank)
      n.store rfl]
    exact h
  · exact .inr (.inr ((steady_prepared asks).keeps_onStore hp n hprep))

theorem sound_feed (inputs labels : List (Tensor α)) (h : Sound asks n) :
    Sound asks ((feed inputs labels).after n) := by
  rcases h.cases with hb | hp
  · have hnone : n.store.hasTensors = false := by rw [Store.hasTensors, hb.isBlank.mode]; rfl
    unfold feed
    rw [Action.after_get_bind, Action.after_guard_of_pos (by rw [hnone]; rfl)]
    exact h
  · exact .inr (.inr ((steady_prepared asks).keeps_feed inputs labels n hp))

theorem sound_forward (training : Bool) (h : Sound asks n) :
    Sound asks ((forward training).after n) := by
  rcases h.cases with hb | hp
  · obtain ⟨e, he⟩ := hb.checkReady
    unfold forward
    rw [after_of_not_ready he]
    exact h
  · exact .inr (.inr ((steady_prepared asks).keeps_forward training n hp))

theorem sound_backward {visit : Node α → Action (τ × Store α) Unit}
    (hvisit : ∀ node Q, Store.Writable Q → Action.Keeps (fun s : τ × Store α => Q s.2) (visit node))
    (own : τ) (h : Sound asks n) : Sound asks ((backward visit).after (own, n)).2 := by
  rcases h.cases with hb | hp
  · obtain ⟨e, he⟩ := hb.checkReady
    unfold backward
    have hread : Action.read (fun s : τ × Network α => checkReady s.2) (own, n) =
        .error e (own, n) :=
      Action.read_of_error he
    rw [Action.after_of_error (Action.bind_of_error hread)]
    exact h
  · exact .inr (.inr ((steady_prepared asks).keeps_backward hvisit (own, n) hp))

theorem sound_applyGradients (own : τ) (name : String)
    (rule : WeightState α → Action τ (WeightState α)) (h : Sound asks n) :
    Sound asks ((applyGradients name rule).after (own, n)).2 := by
  rcases h.cases with hb | hprep
  · unfold applyGradients
    refine Action.after_read_bind (P := fun s : τ × Network α => Sound asks s.2) h fun node _ => ?_
    have hsame := keeps_applyComplete (writable_of_isBlank hb.isBlank) node rule (own, n.store) rfl
    unfold onOwnStore
    rw [Action.after_focus]
    dsimp only at hsame ⊢
    rw [hsame]
    exact h
  · exact .inr (.inr ((steady_prepared asks).keeps_applyGradients name rule (own, n) hprep))

theorem sound_of_reached {n : Network α} (h : Reached asks n) : Sound asks n := by
  induction h with
  | settings settings => exact .inl (draft_ofSettings settings)
  | add node plain _ ih => exact sound_add plain ih
  | extend nodes fragment plain _ ih => exact sound_extend fragment plain ih
  | compile loss _ ih => exact sound_compile loss ih
  | prepare inputs labels _ ih => exact sound_prepare inputs labels ih
  | allocate mode _ ih => exact sound_allocate mode ih
  | fillWeights _ ih => exact sound_fillWeights ih
  | releaseTensors weightsToo _ ih => exact sound_releaseTensors weightsToo ih
  | releaseWeights _ ih => exact sound_releaseWeights ih
  | setOptimize enable _ ih => exact sound_setOptimize enable ih
  | requestStates shapes asked _ ih => exact sound_requestStates asked ih
  | rebatch batch _ ih => exact sound_rebatch batch ih
  | write id value _ ih => exact sound_onStore (fun Q hQ => Store.keeps_write hQ id value) ih
  | feed inputs labels _ ih => exact sound_feed inputs labels ih
  | forward training _ ih => exact sound_forward training ih
  | backward own rule _ ih =>
    exact sound_backward (fun node Q hQ => keeps_applyComplete_visit hQ node (rule node.name))
      own ih
  | applyGradients own name rule _ ih => exact sound_applyGradients own name rule ih

end Run

end LayerGraph.Network
