import LayerGraph.Proofs.Network.Rebatch

/-!
# Setting the batch and building with it

What is called on a prepared network leaves its tables alone, but for optimizer state and for how
long what is kept is in use. So setting the batch later comes to the same as having built with it.
-/

namespace LayerGraph

variable {α : Type} {batch : Nat} {passed : Prop}

theorem TensorRecord.lasting_lasting (maxStep : Nat) (e : TensorRecord α) :
    (e.lasting maxStep).lasting maxStep = e.lasting maxStep := by
  cases h : Store.isKeptRoot e && !e.steps.contains maxStep with
  | false => simp only [lasting, h, Bool.false_eq_true, if_false]
  | true =>
    have hlasts : e.lasting maxStep = { e with steps := e.steps ++ [maxStep] } := by
      simp only [lasting, h, if_true]
    rw [hlasts, lasting, if_neg (by simp)]

theorem TensorRecord.rebatched_lasting (batch maxStep : Nat) (e : TensorRecord α) :
    (e.lasting maxStep).rebatched batch = (e.rebatched batch).lasting maxStep := by
  have hsteps : ∀ e : TensorRecord α, e.lasting maxStep =
      { e with steps := if Store.isKeptRoot e && !e.steps.contains maxStep then e.steps ++ [maxStep]
        else e.steps } := by
    intro e
    unfold lasting
    split <;> rfl
  have hshape : ∀ e : TensorRecord α, e.rebatched batch =
      { e with shape := if e.batched then e.shape.rebatch batch else e.shape } := by
    intro e
    unfold rebatched
    split <;> rfl
  rw [hsteps, hshape, hshape, hsteps]
  rfl

/-- A node but for the loss that a run has found. -/
def Node.quiet [Zero α] (a : Node α) : Node α := { a with loss := 0 }

namespace Store

variable {m s s' : Store α}

/-- At the given batch the store has the tables of `m`, but for optimizer state and for how long
what is kept is in use. It is in use up to the last step once it has been filled, which has happened
before or holds still. -/
structure Kin (batch : Nat) (passed : Prop) (m s : Store α) : Prop where
  weights : s.weights.map core = m.weights.map core
  forwardSteps : s.forwardSteps = m.forwardSteps
  maxStep : s.maxStep = m.maxStep
  entries : ∃ states, (∀ e ∈ states, IsState m e) ∧
    (s.entries.map (·.rebatched batch) = m.entries ++ states ∨
    (passed ∨ s.hasWeights = true) ∧ s.entries.map (·.rebatched batch) =
    (m.entries.map (·.lasting m.maxStep)) ++ states)

namespace Kin

theorem of_tables (h : Kin batch passed m s) (he : s'.entries = s.entries)
    (hw : s'.weights = s.weights) (hf : s'.forwardSteps = s.forwardSteps)
    (hm : s'.maxStep = s.maxStep) (hkept : passed ∨ s.hasWeights = false ∨ s'.hasWeights = true) :
    Kin batch passed m s' := by
  refine ⟨by rw [hw]; exact h.weights, hf.trans h.forwardSteps, hm.trans h.maxStep, ?_⟩
  obtain ⟨states, hstates, hentries⟩ := h.entries
  refine ⟨states, hstates, hentries.imp (fun heq => by rw [he]; exact heq)
    fun ⟨hp, heq⟩ => ⟨?_, by rw [he]; exact heq⟩⟩
  rcases hp with hp | hp
  · exact .inl hp
  · exact hkept.imp_right (·.resolve_left (by rw [hp]; simp))

theorem of_set (h : Kin batch passed m s) {id : TensorRef} {v : Tensor α}
    (hs : s.set id v = .ok s') : Kin batch passed m s' := by
  obtain ⟨-, -, -, ⟨-, hw, rfl⟩ | ⟨-, -, -, rfl⟩⟩ := set_eq_ok hs
  · exact h.of_tables rfl rfl rfl rfl (.inr (.inr hw))
  · refine h.of_tables rfl rfl rfl rfl (.inr ?_)
    cases s.hasWeights <;> simp

theorem releaseTensors (h : Kin batch passed m s) : Kin batch passed m s.releaseTensors := by
  refine h.of_tables rfl rfl rfl rfl (.inr ?_)
  exact (Bool.eq_false_or_eq_true s.hasWeights).symm

theorem releaseWeights (h : Kin batch passed m s) (hw : passed ∨ s.hasWeights = false) :
    Kin batch passed m s.releaseWeights :=
  h.of_tables rfl rfl rfl rfl (hw.imp_right .inl)

theorem keeps_allocate (mode : RunMode) : Action.Keeps (Kin batch passed m) (allocate mode) :=
  keeps_allocate_of_slots (fun s _ _ _ _ h => h.of_tables rfl rfl rfl rfl
    (.inr (Bool.eq_false_or_eq_true s.hasWeights).symm)) mode

theorem keeps_fillWeights [Scalar α] (h : Kin batch passed m s) :
    Kin batch passed m ((fillWeights s.maxStep).after s) := by
  rcases after_fillWeights s.maxStep s with hsame | ⟨-, hok⟩
  · rw [hsame]
    exact h
  rw [Action.after_of_ok hok]
  refine ⟨h.weights, h.forwardSteps, h.maxStep, ?_⟩
  obtain ⟨states, hstates, hentries⟩ := h.entries
  refine ⟨states, hstates, .inr ⟨.inr rfl, ?_⟩⟩
  have hfilled : (s.filled s.maxStep).entries.map (·.rebatched batch) =
      (s.entries.map (·.rebatched batch)).map (·.lasting m.maxStep) := by
    change (s.entries.map _).map _ = _
    rw [List.map_map, List.map_map, h.maxStep]
    exact List.map_congr_left fun e _ => e.rebatched_lasting batch m.maxStep
  have hkept : states.map (·.lasting m.maxStep) = states := by
    refine (List.map_congr_left fun e he => ?_).trans (List.map_id _)
    simp [TensorRecord.lasting, (hstates e he).lasts]
  rw [hfilled]
  rcases hentries with heq | ⟨-, heq⟩
  · rw [heq, List.map_append, hkept]
  · rw [heq, List.map_append, hkept, List.map_map]
    exact congrArg (· ++ states) (List.map_congr_left fun e _ => e.lasting_lasting m.maxStep)

theorem keeps_requestStates (shapes : Shape → List Shape) :
    Action.Keeps (Kin (α := α) batch passed m) (requestStates shapes) := by
  refine Store.keeps_requestStates (fun s e he h => ?_) (fun s weights hw h => ?_) shapes
  · refine ⟨h.weights, h.forwardSteps, h.maxStep, ?_⟩
    obtain ⟨states, hstates, hentries⟩ := h.entries
    refine ⟨states ++ [e], fun e' he' => ?_, ?_⟩
    · rcases List.mem_append.mp he' with he' | he'
      · exact hstates e' he'
      · obtain rfl := List.mem_singleton.mp he'
        exact ⟨he.role, he.source, he.fixed, by rw [← h.maxStep]; exact he.lasts⟩
    · have hmap : (s.entries ++ [e]).map (·.rebatched batch) = s.entries.map (·.rebatched batch) ++
          [e] := by
        rw [List.map_append, List.map_cons, List.map_nil, TensorRecord.rebatched_of_fixed he.fixed]
      dsimp only
      rw [hmap]
      exact hentries.imp (fun heq => by rw [heq, List.append_assoc]) fun ⟨hp, heq⟩ =>
        ⟨hp, by rw [heq, List.append_assoc]⟩
  · exact ⟨hw.trans h.weights, h.forwardSteps, h.maxStep, h.entries⟩

theorem rebatched (h : Kin batch passed m s) (b : Nat) : Kin batch passed m (s.rebatched b) := by
  have hentries : (s.rebatched b).entries.map (·.rebatched batch) = s.entries.map
      (·.rebatched batch) := by
    unfold Store.rebatched
    rw [List.map_map]
    exact List.map_congr_left fun e _ => e.rebatched_rebatched b batch
  refine ⟨h.weights, h.forwardSteps, h.maxStep, ?_⟩
  rw [hentries]
  exact h.entries

/-- Neither optimizer state nor how long what is kept is in use has a say in the plan. -/
theorem planRequests (h : Kin batch passed m s) (mode : RunMode) :
    (s.rebatched batch).planRequests mode = m.planRequests mode := by
  obtain ⟨states, hstates, hentries⟩ := h.entries
  have hrequest : ∀ e, (s.rebatched batch).planRequest? mode e = m.planRequest? mode e := by
    intro e
    have hused : (s.rebatched batch).usedSteps mode e = m.usedSteps mode e := by
      cases mode with
      | train => rfl
      | inference =>
        unfold usedSteps
        rw [show (s.rebatched batch).forwardSteps = m.forwardSteps from h.forwardSteps]
    unfold planRequest?
    rw [hused]
  have hnone : ∀ e ∈ states, m.planRequest? mode e = none := by
    intro e he
    unfold planRequest?
    rw [if_pos (by simp [(hstates e he).role, Role.isKept])]
  have hlasts : ∀ e, m.planRequest? mode (e.lasting m.maxStep) = m.planRequest? mode e := by
    intro e
    unfold TensorRecord.lasting
    split
    · next hk =>
      have hkept : e.role.isKept = true := by simp_all [isKeptRoot]
      unfold planRequest?
      rw [if_pos (by simp [hkept]), if_pos (by simp [hkept])]
    · rfl
  have hall : ∀ xs, (s.rebatched batch).entries = xs ++ states →
      xs.map (m.planRequest? mode) = m.entries.map (m.planRequest? mode) →
      (s.rebatched batch).planRequests mode = m.planRequests mode := by
    intro xs hxs hmap
    have hpicked : ∀ ys : List (TensorRecord α),
        ys.zipIdx.filterMap (fun p => (m.planRequest? mode p.1).map (p.2, ·)) =
        (ys.map (m.planRequest? mode)).zipIdx.filterMap fun p => p.1.map (p.2, ·) := by
      intro ys
      rw [List.zipIdx_map, List.filterMap_map]
      rfl
    have hrest : ∀ k, (states.zipIdx k).filterMap (fun p => (m.planRequest? mode p.1).map
        (p.2, ·)) = [] := by
      refine fun k => List.filterMap_eq_nil_iff.mpr fun p hp => ?_
      rw [hnone p.1 (List.fst_mem_of_mem_zipIdx hp)]
      rfl
    unfold Store.planRequests
    simp only [hrequest]
    rw [hxs, List.zipIdx_append, List.filterMap_append, hpicked xs, hmap, ← hpicked,
      hrest, List.append_nil]
  rcases hentries with heq | ⟨-, heq⟩
  · exact hall _ heq rfl
  · exact hall _ heq (by rw [List.map_map]; exact List.map_congr_left fun e _ => hlasts e)

end Kin

/-- The slots of an allocation depend on the requests alone. -/
theorem plan_of_allocate {mode : RunMode} {u : Unit} (hm : s.mode = none)
    (h : allocate mode s = .ok u s') :
    s'.plan = SlotPlan.plan ((s.planRequests mode).map (·.2)) s.optimize ∧
      s'.slotOf = ((s.planRequests mode).map (·.1)).zip s'.plan.slotOf := by
  have hreleased : s.released = s := by
    unfold Store.released hasTensors
    rw [hm]
    rfl
  rw [allocate_of_ne (by rw [hm]; simp), hreleased] at h
  obtain ⟨_, -, h⟩ := except_bind_eq_ok_iff.mp (Action.update_eq_ok_iff.mp h)
  cases h
  exact ⟨rfl, rfl⟩

end Store

namespace Network

variable [Scalar α] {m n n' : Network α}

/-- At the given batch the network is `m`, but for optimizer state and for how long what is kept is
in use. -/
structure Alike (batch : Nat) (passed : Prop) (m n : Network α) : Prop where
  closed : n.isCompiled = true
  prepared : n.isPrepared = true
  shipped : ∀ a ∈ n.graph.nodes, a.layer.isShipped = true
  nodes : (n.graph.nodes.map (·.rebatch batch)).map Node.quiet = m.graph.nodes.map Node.quiet
  order : n.graph.order = m.graph.order
  inputs : n.inputs = m.inputs
  labels : n.labels = m.labels
  outputs : n.outputs = m.outputs
  store : Store.Kin batch passed m.store n.store

namespace Alike

theorem withStore (h : Alike batch passed m n) {s : Store α}
    (hs : Store.Kin batch passed m.store s) :
    Alike batch passed m { n with store := s } := { h with store := hs }

theorem steady : Steady (Alike (α := α) batch passed m) where
  write n id v s h hs := h.withStore (h.store.of_set hs)
  keep n p loss notes h := by
    refine { h with shipped := fun a ha => ?_, nodes := ?_ }
    · obtain ⟨i, hi⟩ := List.getElem?_of_mem ha
      rw [getElem?_modifyNode] at hi
      obtain ⟨b, hb, rfl⟩ := Option.map_eq_some_iff.mp hi
      have := h.shipped b (List.mem_of_getElem? hb)
      split <;> exact this
    · have hsame : (n.graph.nodes.modify p fun node => { node with loss := loss }).map
          (fun a => (a.rebatch batch).quiet) = n.graph.nodes.map fun a => (a.rebatch batch).quiet :=
            map_modify_eq (fun _ => by rfl) _ p
      have hnodes := h.nodes
      rw [List.map_map] at hnodes ⊢
      exact hsame.trans hnodes
  confined n h a ha := Layer.confined_of_isShipped (h.shipped a ha)

theorem keeps_rebatch (b : Nat) : Action.Keeps (Alike (α := α) batch passed m) (rebatch b) := by
  refine keeps_rebatch_of (fun n h => { h with }) (fun n h _ => ?_) fun n h => ?_
  · refine h.withStore ?_
    cases hr : Store.rebatch b n.store with
    | ok u s =>
      obtain ⟨-, rfl⟩ := Store.rebatch_eq_ok_iff.mp hr
      rw [Action.after_of_ok hr]
      exact h.store.rebatched b
    | error e s =>
      have := Action.fails_update _ (P := Store.Kin batch passed m.store) n.store e s h.store hr
      rw [Action.after_of_error hr]
      exact this
  · refine { h with shipped := fun a ha => ?_, nodes := ?_ }
    · obtain ⟨b, hb, rfl⟩ := List.mem_map.mp ha
      exact h.shipped b hb
    · have hsame : (n.graph.nodes.map (Node.rebatch b)).map (fun a => a.rebatch batch) =
          n.graph.nodes.map (·.rebatch batch) := by
        rw [List.map_map]
        refine List.map_congr_left fun a _ => ?_
        simp [Node.rebatch, Shape.rebatch]
      dsimp only
      rw [hsame]
      exact h.nodes

theorem enduring : Enduring (Alike (α := α) batch passed m) where
  toSteady := steady
  allocated mode n h := by
    have hs := Store.Kin.keeps_allocate mode n.store h.store
    rw [after_allocate_of_prepared mode h.prepared]
    cases hr : Store.allocate mode n.store with
    | ok u s =>
      rw [Action.after_of_ok hr] at hs
      exact { h with store := hs }
    | error e s =>
      rw [Action.after_of_error hr] at hs
      exact { h with store := hs }
  filled n h := by
    rw [after_fillWeights_of_prepared h.prepared]
    exact h.withStore h.store.keeps_fillWeights
  released n h := h.withStore h.store.releaseTensors
  requested shapes n h := by
    unfold requestStates
    rw [Action.after_get_bind, if_neg (by rw [h.prepared]; simp), Action.after_get_bind]
    cases hw : n.store.hasWeights with
    | true =>
      rw [Action.after_guard_of_pos (by rfl)]
      exact h
    | false =>
      rw [if_neg (by simp), after_onStore]
      exact h.withStore (Store.Kin.keeps_requestStates shapes n.store h.store)
  rebatched := keeps_rebatch

/-- Every call leaves a network that is alike. What is kept may be released if that it was filled
need not be seen. -/
theorem call (h : Alike batch passed m n) (hc : Call n n')
    (hp : passed ∨ n.store.hasWeights = false) : Alike batch passed m n' := by
  have hreleased : ∀ {n : Network α}, Alike batch passed m n → passed ∨ n.store.hasWeights = false →
      Alike batch passed m (Network.releaseWeights n) :=
        fun h hp => h.withStore (h.store.releaseWeights hp)
  refine enduring.of_call h.closed h.prepared h hc ?_ (hreleased h hp) (fun enable => ?_) { h with }
  · exact hreleased (enduring.released n h) hp
  · refine { h with store := h.store.of_tables rfl rfl rfl rfl (.inr ?_) }
    exact (Bool.eq_false_or_eq_true n.store.hasWeights).symm

end Alike

/-- `n` has come to be what `m` is from the start. Optimizer state may have been requested since,
and what is kept is in use up to the last step if it has been filled. -/
structure Rebuilt (passed : Prop) (m n : Network α) : Prop where
  batch : n.batchSize = m.batchSize
  nodes : n.graph.nodes.map Node.quiet = m.graph.nodes.map Node.quiet
  order : n.graph.order = m.graph.order
  inputs : n.inputs = m.inputs
  labels : n.labels = m.labels
  outputs : n.outputs = m.outputs
  weights : n.store.weights.map Store.core = m.store.weights.map Store.core
  entries : ∃ states, (∀ e ∈ states, m.store.IsState e) ∧
    (n.store.entries = m.store.entries ++ states ∨
    passed ∧ n.store.entries = m.store.entries.map (·.lasting m.store.maxStep) ++ states)
  requests : ∀ mode, n.store.planRequests mode = m.store.planRequests mode
  slots : ∀ mode n' m', allocate mode n = .ok () n' → allocate mode m = .ok () m' →
    n'.store.plan = m'.store.plan ∧ n'.store.slotOf = m'.store.slotOf

omit [Scalar α] in
/-- A batch is taken unless it is zero or tensors are allocated, and then nothing changes. -/
theorem rebatch_apply (b : Nat) (n : Network α) : rebatch b n =
    if b = 0 then .error (.misconfigured .emptyBatch) n
    else if n.store.hasTensors then .error (.resource .batchWhileAllocated) n
    else .ok () (if n.isPrepared then n.rebatched b else { n with batchSize := b }) := by
  unfold rebatch
  by_cases hzero : b = 0
  · rw [if_pos hzero, if_pos hzero]
    rfl
  rw [if_neg hzero, if_neg hzero]
  dsimp only
  rw [Action.bind_of_ok (Action.get_apply n)]
  cases hm : n.store.hasTensors with
  | true =>
    rw [if_pos rfl, if_pos rfl]
    rfl
  | false =>
    rw [if_neg Bool.false_ne_true, if_neg Bool.false_ne_true,
      Action.bind_of_ok (Action.modify_apply _ n), Action.bind_of_ok (Action.get_apply _)]
    by_cases hp : n.isPrepared = true
    · have hs : Store.rebatch b n.store = .ok () (n.store.rebatched b) :=
        Store.rebatch_eq_ok_iff.mpr ⟨hm, rfl⟩
      rw [if_pos hp, if_pos hp]
      exact Action.bind_of_ok (onStore_of_ok (n := { n with batchSize := b }) hs)
    · rw [if_neg hp, if_neg hp]
      rfl

omit [Scalar α] in
theorem store_of_allocate {mode : RunMode} {u : Unit} (h : allocate mode n = .ok u n') :
    Store.allocate mode n.store = .ok () n'.store := by
  obtain ⟨_, _, hget, h⟩ := Action.bind_eq_ok_iff.mp h
  cases hget
  obtain ⟨-, h⟩ := Action.guard_eq_ok_iff.mp h
  obtain ⟨_, _, hfocus, h⟩ := Action.bind_eq_ok_iff.mp h
  obtain ⟨s, hs, rfl⟩ := Action.focus_eq_ok_iff.mp hfocus
  cases h
  exact hs

theorem store_of_fillWeights {u : Unit} (h : fillWeights n = .ok u n') :
    Store.fillWeights n.store.maxStep n.store = .ok () n'.store := by
  obtain ⟨_, _, hget, h⟩ := Action.bind_eq_ok_iff.mp h
  cases hget
  obtain ⟨-, h⟩ := Action.guard_eq_ok_iff.mp h
  obtain ⟨_, _, hget, h⟩ := Action.bind_eq_ok_iff.mp h
  cases hget
  obtain ⟨s, hs, rfl⟩ := Action.focus_eq_ok_iff.mp h
  exact hs

/-- Setting the batch of a prepared network gives what building with that batch gives, whatever has
been called in between, and a batch that is not taken changes nothing. Only where what is kept has
been filled is it in use for longer. -/
theorem rebuilt_of_rebatch {n₀ n₁ n₂ n₃ : Network α} {loss : Option String}
    {inputs labels : List String} {u₁ u₂ : Unit} (hdraft : Draft n₀) (hb : 0 < batch)
    (hcompile : compile loss n₀ = .ok u₁ n₁) (hprepare : prepare inputs labels n₁ = .ok u₂ n₂)
    (hcalls : Relation.ReflTransGen (fun n n' => Call n n' ∧ n'.store.optimize = n.store.optimize ∧
      (passed ∨ n'.store.hasWeights = false)) n₂ n₃) :
    (∃ m₁ m₂, compile loss { n₀ with batchSize := batch } = .ok () m₁ ∧
      prepare inputs labels m₁ = .ok () m₂ ∧
      (n₃.store.hasTensors = false → ∃ n₄, rebatch batch n₃ = .ok () n₄ ∧ Rebuilt passed m₂ n₄)) ∧
    ∀ b, b = 0 ∨ n₃.store.hasTensors = true → ∃ e, rebatch b n₃ = .error e n₃ := by
  have hdrawn := drawn_of_compile hdraft hcompile
  have hprep : Prepared (fun _ => True) n₂ := prepared_of_prepare hdrawn hprepare
  have hclean : n₂.store.hasWeights = false ∧ n₂.store.mode = none := by
    obtain ⟨n', hall, rfl⟩ := prepareAll_of_prepare hprepare
    have hu := keeps_unsettled_prepareAll inputs labels n₁ (unsettled_refl hdrawn)
    rw [Action.after_of_ok hall] at hu
    exact ⟨hu.requested.1.hasWeights.trans hdrawn.blank.hasWeights,
      hu.requested.1.mode.trans hdrawn.blank.mode⟩
  have halike : Alike batch passed (n₂.rebatched batch) n₂ ∧
      (passed ∨ n₂.store.hasWeights = false) := by
    refine ⟨⟨hprep.closed, hprep.prepared, fun a ha => ?_, rfl, rfl, rfl, rfl, rfl, rfl,
      rfl, rfl, [], by simp, .inl (List.append_nil _).symm⟩, .inr hclean.1⟩
    obtain ⟨i, hi⟩ := List.getElem?_of_mem ha
    exact hprep.registered.compiled.shipped i a hi
  have hend : Alike batch passed (n₂.rebatched batch) n₃ ∧ n₃.store.optimize = n₂.store.optimize ∧
      (passed ∨ n₃.store.hasWeights = false) := by
    induction hcalls with
    | refl => exact ⟨halike.1, rfl, halike.2⟩
    | tail _ hc ih => exact ⟨ih.1.call hc.1 ih.2.2, hc.2.1.trans ih.2.1, hc.2.2⟩
  obtain ⟨h, hoptimize, hkept⟩ := hend
  refine ⟨⟨_, _, compile_withBatch batch hcompile, prepare_rebatched hdrawn hprepare, fun hm => ?_⟩,
    ?_⟩
  · have hm' : n₃.store.mode = none := by simpa [Store.hasTensors] using hm
    have hrequests : ∀ mode, (n₃.rebatched batch).store.planRequests mode =
        (n₂.rebatched batch).store.planRequests mode := h.store.planRequests
    refine ⟨n₃.rebatched batch, ?_, rfl, h.nodes, h.order, h.inputs, h.labels, h.outputs,
      h.store.weights, ?_, hrequests, fun mode n' m' hn hm'' => ?_⟩
    · rw [rebatch_apply, if_neg (Nat.pos_iff_ne_zero.mp hb), hm, if_neg Bool.false_ne_true,
        if_pos h.prepared]
    · obtain ⟨states, hstates, hentries⟩ := h.store.entries
      refine ⟨states, hstates, hentries.imp_right fun hfilled => ⟨?_, hfilled.2⟩⟩
      rcases hfilled.1 with hp | hp
      · exact hp
      · exact hkept.resolve_right (by rw [hp]; simp)
    · obtain ⟨hplan, hslots⟩ := Store.plan_of_allocate (s := (n₃.rebatched batch).store) hm'
        (store_of_allocate hn)
      obtain ⟨hplan', hslots'⟩ := Store.plan_of_allocate (s := (n₂.rebatched batch).store) hclean.2
        (store_of_allocate hm'')
      have hsame : n'.store.plan = m'.store.plan := by
        rw [hplan, hplan', hrequests]
        exact congrArg _ hoptimize
      exact ⟨hsame, by rw [hslots, hslots', hsame, hrequests]⟩
  · rintro b hrejected
    rw [rebatch_apply]
    by_cases hzero : b = 0
    · exact ⟨_, if_pos hzero⟩
    · exact ⟨_, (if_neg hzero).trans (if_pos (hrejected.resolve_left hzero))⟩

/-- A layer of one unit on an input of two, drafted for a batch of one. -/
def layered : Network Float32 :=
  (add (.ofLayer (.fullyConnected 1 .zeros .zeros) "y" [⟨"x", 0⟩])).after
    ((add (.ofLayer (.input 2) "x" [])).after (ofSettings ⟨1, true, none, []⟩))

theorem draft_layered : Draft layered :=
  keeps_draft_add (Node.isPlain_ofLayer rfl _ _) _
    (keeps_draft_add (Node.isPlain_ofLayer rfl _ _) _ (draft_ofSettings _))

/-- What compiling makes of it. -/
def layeredCompiled : Network Float32 :=
  { (ofSettings ⟨1, true, none, []⟩ : Network Float32) with
    graph := ⟨[
      { Node.ofLayer (.input 2) "x" [] with outputs := [[⟨"y", 0⟩]] },
      { Node.ofLayer (.fullyConnected 1 .zeros .zeros) "y" [⟨"x", 0⟩] with
        schedule := .bothWays 1 0 2, collectsGradients := true }], [0, 1]⟩
    store := (Store.empty true none).setBounds 2 3
    isCompiled := true }

theorem compile_layered : compile none layered = .ok () layeredCompiled := by cbv

/-- What preparing it comes to at the batch. -/
def layeredAt (batch : Nat) : Network Float32 :=
  (prepare [] []).after { layeredCompiled with batchSize := batch }

/-- What `layered` has come to once it has been filled, allocated and released again. -/
def layeredUsed : Network Float32 :=
  releaseTensors false ((allocate .train).after (fillWeights.after (layeredAt 1)))

theorem layeredUsed_rebuilt : layeredUsed.store.hasWeights = true ∧
    ∃ n, rebatch 2 layeredUsed = .ok () n ∧ Rebuilt True (layeredAt 2) n := by
  have hprepare : prepare [] [] layeredCompiled = .ok () (layeredAt 1) :=
    Action.eq_ok_of_endsWell (by decide +kernel)
  have hcalls : Relation.ReflTransGen (fun n n' => Call n n' ∧
      n'.store.optimize = n.store.optimize ∧
      (True ∨ n'.store.hasWeights = false)) (layeredAt 1) layeredUsed :=
    .tail (.tail (.single ⟨.fillWeights, by decide +kernel, .inl trivial⟩)
      ⟨.allocate .train, by decide +kernel, .inl trivial⟩)
      ⟨.releaseTensors false, by decide +kernel, .inl trivial⟩
  obtain ⟨⟨m₁, m₂, hcompile', hprepare', h⟩, -⟩ :=
    rebuilt_of_rebatch draft_layered (by decide : 0 < 2) compile_layered hprepare hcalls
  rw [compile_withBatch 2 compile_layered] at hcompile'
  cases hcompile'
  rw [layeredAt, Action.after_of_ok hprepare']
  exact ⟨by decide +kernel, h (by decide +kernel)⟩

/-- The weight of `y` stays in use up to the last step, which it is not before it is filled. -/
theorem layeredUsed_window : ∃ n, rebatch 2 layeredUsed = .ok () n ∧
    n.store.findTensor? "y:weight" = some 2 ∧ n.store.window 2 = .ok (some (1, 3)) ∧
    (layeredAt 2).store.findTensor? "y:weight" = some 2 ∧
    (layeredAt 2).store.window 2 = .ok (some (1, 1)) :=
  ⟨(rebatch 2).after layeredUsed, Action.eq_ok_of_endsWell (by decide +kernel), by decide +kernel,
    by decide +kernel, by decide +kernel, by decide +kernel⟩

end Network

end LayerGraph
