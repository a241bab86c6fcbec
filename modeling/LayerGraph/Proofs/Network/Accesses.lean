import LayerGraph.Proofs.Layer.Accesses
import LayerGraph.Proofs.Network.Timeline
import LayerGraph.Proofs.Network.Windows

/-!
# Accesses and windows

Whatever a node reads or writes at one of its steps lies in the window of its buffer, so its hooks
run the same on a store from which all buffers are gone that are closed at the step. The producer of
a tensor, its readers and the weights' users register the steps one by one; here they are held
against what the hooks need.
-/

namespace LayerGraph

variable {α : Type}

/-- What is kept is in use at the last step once it lasts. -/
theorem TensorRecord.mem_steps_lasting {maxStep : Nat} {e : TensorRecord α}
    (h : Store.isKeptRoot (e.lasting maxStep) = true) : maxStep ∈ (e.lasting maxStep).steps := by
  have hk : Store.isKeptRoot e = true := by rwa [(e.lasting_eq maxStep).1] at h
  unfold lasting
  split
  · simp
  · next hlasts => simpa [hk] using hlasts

namespace Store

variable {s s' : Store α}

/-- What is kept is in use up to the last step once it has been filled, and optimizer state from the
first step on. -/
structure Lasting (s : Store α) : Prop where
  filled : s.hasWeights = true → ∀ e ∈ s.entries, isKeptRoot e = true → s.maxStep ∈ e.steps
  states : ∀ r ∈ s.weights, ∀ id ∈ r.optimizerState, ∃ e, s.entries[id]? = some e ∧ 0 ∈ e.steps

/-- Changes to entries that leave their use alone. -/
theorem Lasting.map (h : s.Lasting) {f : TensorRecord α → TensorRecord α}
    (hf : ∀ e, (f e).steps = e.steps ∧ isKeptRoot (f e) = isKeptRoot e)
    (he : s'.entries = s.entries.map f) (hw : s'.weights = s.weights) (hm : s'.maxStep = s.maxStep)
    (hfilled : s'.hasWeights = true → s.hasWeights = true) : s'.Lasting := by
  refine ⟨fun hweights e hmem hk => ?_, fun r hr id hid => ?_⟩
  · rw [he] at hmem
    obtain ⟨e₀, he₀, rfl⟩ := List.mem_map.mp hmem
    rw [(hf e₀).2] at hk
    rw [hm, (hf e₀).1]
    exact h.filled (hfilled hweights) e₀ he₀ hk
  · obtain ⟨e, hat, hzero⟩ := h.states r (hw ▸ hr) id hid
    exact ⟨f e, by rw [he, List.getElem?_map, hat]; rfl, (hf e).1 ▸ hzero⟩

theorem Lasting.of_tables (h : s.Lasting) (he : s'.entries = s.entries)
    (hw : s'.weights = s.weights) (hm : s'.maxStep = s.maxStep)
    (hfilled : s'.hasWeights = true → s.hasWeights = true) : s'.Lasting :=
  h.map (f := id) (fun _ => ⟨rfl, rfl⟩) (by rw [List.map_id, he]) hw hm hfilled

theorem lasting_of_isBlank (h : s.IsBlank) : s.Lasting := by
  refine ⟨fun hw => ?_, fun r hr => ?_⟩
  · rw [h.hasWeights] at hw
    cases hw
  · rw [h.weights] at hr
    cases hr

theorem Lasting.withState (h : s.Lasting) (w : WeightRef) {e : TensorRecord α}
    (he : e.steps = [0, s.maxStep]) : (s.withState w e).Lasting := by
  have hold : ∀ {id : Nat} {e' : TensorRecord α}, s.entries[id]? = some e' →
      (s.entries ++ [e])[id]? = some e' :=
    fun hat => by rw [List.getElem?_append_left (List.getElem?_eq_some_iff.mp hat).1, hat]
  refine ⟨fun hweights e' hmem hk => ?_, fun r hr id hid => ?_⟩
  · rcases List.mem_append.mp hmem with hmem | hmem
    · exact h.filled hweights e' hmem hk
    · obtain rfl := List.mem_singleton.mp hmem
      rw [he]
      exact List.mem_cons_of_mem _ List.mem_cons_self
  · obtain ⟨i, hi⟩ := List.getElem?_of_mem hr
    rw [show (s.withState w e).weights[i]? = _ from List.getElem?_modify ..] at hi
    obtain ⟨r₀, hr₀, rfl⟩ := Option.map_eq_some_iff.mp hi
    have hstates := h.states r₀ (List.mem_of_getElem? hr₀)
    split at hid
    · rcases List.mem_append.mp hid with hid | hid
      · obtain ⟨e', hat, hzero⟩ := hstates id hid
        exact ⟨e', hold hat, hzero⟩
      · obtain rfl := List.mem_singleton.mp hid
        exact ⟨e, List.getElem?_concat_length, by rw [he]; exact List.mem_cons_self⟩
    · obtain ⟨e', hat, hzero⟩ := hstates id hid
      exact ⟨e', hold hat, hzero⟩

theorem keeps_lasting_requestStates (shapes : Shape → List Shape) :
    Action.Keeps (Lasting (α := α)) (requestStates shapes) :=
  keeps_requestStates_of_added (fun _ w _ _ hsteps _ h => h.withState w hsteps) shapes

theorem keeps_lasting_allocate (mode : RunMode) : Action.Keeps (Lasting (α := α)) (allocate mode) :=
  keeps_allocate_of_slots (fun _ _ _ _ _ h => h.of_tables rfl rfl rfl id) mode

theorem keeps_lasting_rebatch (batch : Nat) : Action.Keeps (Lasting (α := α)) (rebatch batch) := by
  refine Action.keeps_update fun s s' h hr => ?_
  split at hr
  · cases hr
  · cases hr
    refine h.map (fun e => ?_) rfl rfl rfl id
    split <;> exact ⟨rfl, rfl⟩

theorem Lasting.after_fillWeights [Scalar α] (h : s.Lasting) :
    ((fillWeights s.maxStep).after s).Lasting := by
  rcases Store.after_fillWeights s.maxStep s with hsame | ⟨-, hok⟩
  · rw [hsame]
    exact h
  rw [Action.after_of_ok hok]
  refine ⟨fun _ e hmem hk => ?_, fun r hr id hid => ?_⟩
  · obtain ⟨e, -, rfl⟩ := List.mem_map.mp hmem
    exact TensorRecord.mem_steps_lasting hk
  · obtain ⟨e, hat, hzero⟩ := h.states r hr id hid
    refine ⟨e.lasting s.maxStep, ?_, (e.lasting_eq s.maxStep).2 hzero⟩
    exact (List.getElem?_map ..).trans (congrArg _ hat)

variable {batch t : Nat} {id : TensorRef}

/-- A buffer is open at each step at which it is used. -/
theorem Registry.isOpenAt_of_mem (hr : Registry batch s) (ht : t ∈ s.stepsOf id) :
    s.isOpenAt t (s.rootOf id) = true :=
  hr.isOpenAt ht ht le_rfl le_rfl

theorem IsExternal.isOpenAt (h : s.IsExternal id) (hr : Registry batch s) (ht : t ≤ s.maxStep) :
    s.isOpenAt t (s.rootOf id) = true := by
  obtain ⟨e, he, hs, hrole⟩ := h
  obtain ⟨hzero, hmax⟩ := hr.external id e he hs hrole
  have hb := backing_of_source_eq_none he hs
  exact hr.isOpenAt (mem_stepsOf_iff.mpr ⟨e, hb, hzero⟩) (mem_stepsOf_iff.mpr ⟨e, hb, hmax⟩)
    (Nat.zero_le t) ht

/-- What is kept is open from its first use on. -/
theorem Lasting.isOpenAt (h : s.Lasting) (hr : Registry batch s) (hfilled : s.hasWeights = true)
    {e : TensorRecord α} (he : s.entries[id]? = some e) (hk : e.role.isKept = true) {a : Nat}
    (ha : a ∈ s.stepsOf id) (hat : a ≤ t) (ht : t ≤ s.maxStep) :
    s.isOpenAt t (s.rootOf id) = true := by
  have hs : e.source = none := hr.source_eq_none he (Role.isData_eq_false_of_isKept hk)
  have hmax := h.filled hfilled e (List.mem_of_getElem? he) (by simp [isKeptRoot, hs, hk])
  exact hr.isOpenAt ha (mem_stepsOf_iff.mpr ⟨e, backing_of_source_eq_none he hs, hmax⟩) hat ht

end Store

namespace Network

section Lasting

variable [Scalar α] {n n' : Network α}

theorem enduring_lasting : Enduring fun n : Network α => Timely n ∧ n.store.Lasting where
  write n id v s h hs := by
    have hl := Store.sameLayout_of_set hs
    exact ⟨Timely.enduring.write n id v s h.1 hs,
      h.2.of_tables hl.entries hl.weights hl.maxStep fun hw => hl.hasWeights ▸ hw⟩
  keep n p loss notes h := ⟨Timely.enduring.keep n p loss notes h.1, h.2⟩
  confined n h := h.1.confined
  allocated mode n h := by
    have hkeeps : Action.Keeps (fun n : Network α => n.store.Lasting) (allocate mode) :=
      keeps_allocate_of (fun n h _ => Store.keeps_lasting_allocate mode n.store h) fun _ h => h
    exact ⟨Timely.enduring.allocated mode n h.1, hkeeps n h.2⟩
  filled n h := by
    have hkeeps : Action.Keeps (fun n : Network α => n.store.Lasting) fillWeights :=
      keeps_fillWeights_of fun _ h _ => h.after_fillWeights
    exact ⟨Timely.enduring.filled n h.1, hkeeps n h.2⟩
  released n h := ⟨Timely.enduring.released n h.1, h.2.of_tables rfl rfl rfl id⟩
  requested shapes n h := by
    have hkeeps : Action.Keeps (fun n : Network α => n.store.Lasting) (requestStates shapes) :=
      keeps_requestStates_of fun n h _ _ => Store.keeps_lasting_requestStates shapes n.store h
    exact ⟨Timely.enduring.requested shapes n h.1, hkeeps n h.2⟩
  rebatched batch n h := by
    have hkeeps : Action.Keeps (fun n : Network α => n.store.Lasting) (rebatch batch) :=
      keeps_rebatch_of (fun _ h => h) (fun n h _ => Store.keeps_lasting_rebatch batch n.store h)
        fun _ h => h
    exact ⟨Timely.enduring.rebatched batch n h.1, hkeeps n h.2⟩

theorem drafting_blank : Drafting (fun a : Node α => a.layer.Confined) fun n =>
    n.store.IsBlank ∧ ∀ a ∈ n.graph.nodes, a.layer.Confined :=
  ⟨fun _ h => h.2, fun _ _ _ h hg => ⟨h.1, hg⟩, fun _ _ _ h => ⟨h.1.setBounds _ _, h.2⟩⟩

omit [Scalar α] in
theorem lasting_prepare (inputs labels : List String) (h : Sound (fun _ => True) n)
    (hl : n.store.Lasting) : ((prepare inputs labels).after n).store.Lasting := by
  rcases h with hd | hd | hp
  · rw [after_prepare_of_open inputs labels hd.open_]
    exact hl
  · cases hr : prepare inputs labels n with
    | error e n' =>
      rw [Action.after_of_error hr]
      exact Store.lasting_of_isBlank (fails_drawn_prepare inputs labels n e n' hd hr).blank
    | ok u n' =>
      have hu := keeps_unsettled_prepareAll inputs labels n (unsettled_refl hd)
      obtain ⟨n₁, hall, heq⟩ := prepareAll_of_prepare hr
      rw [Action.after_of_ok hall] at hu
      rw [Action.after_of_ok hr, heq]
      refine ⟨fun hw => ?_, fun r hr id hid => ?_⟩
      · rw [show n₁.store.hasWeights = false from hu.requested.1.hasWeights.trans
          hd.blank.hasWeights] at hw
        cases hw
      · rw [hu.requested.2 r hr] at hid
        cases hid
  · rw [after_prepare_of_prepared inputs labels hp.prepared]
    exact hl

theorem lasting_of_call (h : Sound (fun _ => True) n) (ht : Timely n) (hl : n.store.Lasting)
    (hcall : Call n n') : n'.store.Lasting := by
  have hgrow : ∀ {β : Type} {p : Action (Network α) β},
      Action.Keeps (fun n => n.store.IsBlank ∧ ∀ a ∈ n.graph.nodes, a.layer.Confined) p →
      (n.isCompiled = true → p.after n = n) → (p.after n).store.Lasting := by
    intro β p hkeeps hclosed
    rcases h.open_or_closed with hd | hc
    · exact Store.lasting_of_isBlank (hkeeps n ⟨hd.blank, ht.confined⟩).1
    · rw [hclosed hc]
      exact hl
  have hsame : ∀ a b : Node α, b.layer = a.layer → b.bufferUse = a.bufferUse → a.layer.Confined →
      b.layer.Confined :=
    fun a b hlayer _ => confined_of_layer a b hlayer
  refine (enduring_lasting.keeps_call ⟨ht, hl⟩ hcall (fun node hn heq => ⟨ht.call hcall, ?_⟩)
    (fun nodes fragment hn heq => ⟨ht.call hcall, ?_⟩) (fun loss => ⟨ht.call (.compile loss), ?_⟩)
    (fun inputs labels => ⟨ht.call (.prepare inputs labels), lasting_prepare inputs labels h hl⟩)
    ⟨ht.call (.releaseTensors true), hl.of_tables rfl rfl rfl nofun⟩ ⟨ht.call .releaseWeights,
    hl.of_tables rfl rfl rfl nofun⟩ (fun enable => ⟨ht.call (.setOptimize enable),
      hl.of_tables rfl rfl rfl id⟩) ⟨ht.call .takeNotes, hl⟩).2
  · rw [heq]
    exact hgrow (drafting_blank.keeps_add hsame hn) (after_add_of_closed node)
  · rw [heq]
    exact hgrow (drafting_blank.keeps_extend hsame fragment hn)
      (after_extend_of_closed nodes fragment)
  · exact hgrow (drafting_blank.keeps_compile inherited_confined confined_of_layer
      (fun _ h => h) loss) (after_compile_of_closed loss)

/-- Whatever has been called, no step lies beyond the last one, and what is kept lasts up to it. -/
theorem within_of_leads {settings : NetworkSettings} (h : Leads (ofSettings settings) n) :
    Sound (fun _ => True) n ∧ n.store.Within ∧ n.store.Lasting := by
  have hall : Regular n ∧ Timely n ∧ n.store.Lasting := by
    induction h with
    | refl =>
      exact ⟨regular_ofSettings settings, .ofSettings settings,
        Store.lasting_of_isBlank (Store.isBlank_empty _ _)⟩
    | tail _ hstep ih =>
      obtain ⟨hr, ht, hl⟩ := ih
      exact ⟨regular_of_call hr hstep.1 hstep.2, ht.call hstep.1,
        lasting_of_call hr.sound ht hl hstep.1⟩
  exact ⟨hall.1.sound, hall.2.1.within, hall.2.2⟩

end Lasting

section Live

variable {n : Network α} {asks : (Shape → List Shape) → Prop} {mode : RunMode}
  (h : Ready asks mode n) {p : Nat} {a : Node α} (ha : n.graph.nodes[p]? = some a)
include h ha

theorem Ready.forward_le : a.schedule.forward ≤ n.store.maxStep := by
  have hreg := h.prepared.registered
  rw [hreg.maxStep]
  exact (punctual_of_scheduled hreg.compiled.toScheduled ha).forward

/-- A node runs backward after it has run forward, and before the end. -/
theorem Ready.turn_between {turn : BackwardTurn} (hturn : a.schedule.backward = some turn) :
    a.schedule.forward ≤ turn.gradientStep ∧ turn.derivativeStep ≤ n.store.maxStep := by
  have hreg := h.prepared.registered
  have hstep := gradientStep_of_scheduled hreg.compiled.toScheduled (List.mem_of_getElem? ha) hturn
  have hlt := h.forward_lt ha
  rw [hreg.forwardSteps] at hlt
  refine ⟨by omega, ?_⟩
  rw [hreg.maxStep]
  exact (punctual_of_scheduled hreg.compiled.toScheduled ha).returns _
    (Schedule.mem_returnSteps hturn).2

/-- Where a node runs forward, whatever it uses is open. -/
theorem Ready.liveForward :
    Layer.LiveForward n.store (n.store.isOpenAt a.schedule.forward) a.view.handles := by
  have hreg := h.prepared.registered.registry
  have hold := h.holds ha
  refine ⟨fun x hx => ?_, fun y hy => ?_, fun w hw r hr => ?_, fun l hl => ?_⟩
  · have hread := hold.reads x hx _ (List.mem_cons_self ..)
    exact hreg.isOpenAt_of_mem hread
  · cases hs : a.isSource with
    | true => exact ((hold.outputs y hy).source hs).isOpenAt hreg (h.forward_le ha)
    | false =>
      have hwritten := (hold.outputs y hy).writes hs a.schedule.forward (by simp [outputSteps])
      exact hreg.isOpenAt_of_mem hwritten
  · obtain ⟨r', hr', hused⟩ := hold.uses w hw
    obtain rfl := Option.some.inj (hr.symm.trans hr')
    exact hreg.isOpenAt_of_mem hused
  · exact (hold.label l hl).isOpenAt hreg (h.forward_le ha)

variable {turn : BackwardTurn} (hturn : a.schedule.backward = some turn)
include hturn

/-- Where a node adds to the gradients of its weights, whatever it uses is open. -/
theorem Ready.liveCollect (hcollects : a.collectsGradients = true) :
    Layer.LiveCollect n.store (n.store.isOpenAt turn.gradientStep) a.view.handles := by
  have hreg := h.prepared.registered
  have hold := h.holds ha
  have hstep := (Schedule.mem_returnSteps hturn).1
  refine ⟨fun x hx => ?_, fun y hy d hd => ?_, fun w hw r d hr hd => ?_⟩
  · have hread := hold.reads x hx _ (List.mem_cons_of_mem _ hstep)
    exact hreg.registry.isOpenAt_of_mem hread
  · have htaken := (hold.outputs y hy).taken d hd _ hstep
    exact hreg.registry.isOpenAt_of_mem htaken
  · have htrains : a.trains = true := (hreg.compiled.collects p a ha).symm.trans hcollects
    have huse : turn.gradientStep ∈ usesOf n.graph n.graph.order w :=
      (mem_usesOf_iff hreg.compiled.toDesigned).mpr ⟨p, a, ha, htrains,
        hw, by rw [Schedule.gradientStep, hturn]; rfl⟩
    have hused := (hreg.collected.used w r d _ hr hd huse).1
    exact hreg.registry.isOpenAt_of_mem hused

variable (hl : n.store.Lasting)
include hl

omit hturn in
theorem Ready.isOpenAt_weight {t : Nat} (hforward : a.schedule.forward ≤ t)
    (ht : t ≤ n.store.maxStep) {w : WeightRef} (hw : w ∈ a.tensors.weights) {r : WeightRecord}
    (hr : n.store.weights[w]? = some r) : n.store.isOpenAt t (n.store.rootOf r.value) = true := by
  have hreg := h.prepared.registered.registry
  obtain ⟨r', hr', hused⟩ := (h.holds ha).uses w hw
  obtain rfl := Option.some.inj (hr.symm.trans hr')
  obtain ⟨e, he, hrole⟩ := hreg.value w r hr
  exact hl.isOpenAt hreg h.filled he (by rw [hrole]; rfl) hused hforward ht

/-- Where a node passes derivatives back, whatever it uses is open. -/
theorem Ready.livePassBack :
    a.layer.LivePassBack n.store (n.store.isOpenAt turn.derivativeStep) a.view.handles := by
  have hreg := h.prepared.registered.registry
  have hold := h.holds ha
  obtain ⟨hforward, hlast⟩ := h.turn_between ha hturn
  have hstep := (Schedule.mem_returnSteps hturn).2
  refine ⟨fun hneeds y hy => ?_, fun y hy d hd => ?_, fun x hx d hd => ?_, fun w hw r hr => ?_,
    fun l hlabel => ?_⟩
  · cases hs : a.isSource with
    | true => exact ((hold.outputs y hy).source hs).isOpenAt hreg hlast
    | false =>
      have hwritten := (hold.outputs y hy).writes hs turn.derivativeStep (by
        simp only [outputSteps, hneeds, if_true, List.mem_append]
        exact .inl (.inr hstep))
      exact hreg.isOpenAt_of_mem hwritten
  · have htaken := (hold.outputs y hy).taken d hd _ hstep
    exact hreg.isOpenAt_of_mem htaken
  · have hgiven :=
      hold.returns x hx d turn.derivativeStep hd (by rw [Schedule.derivativeStep, hturn]; rfl)
    exact hreg.isOpenAt_of_mem hgiven
  · exact h.isOpenAt_weight ha hl (by unfold BackwardTurn.derivativeStep; omega) hlast hw hr
  · exact (hold.label l hlabel).isOpenAt hreg hlast

/-- Where the last gradient of a weight has been added, whatever an update of it uses is open. -/
theorem Ready.liveUpdate {w : WeightRef} (hw : w ∈ a.tensors.weights) {r : WeightRecord}
    (hr : n.store.weights[w]? = some r) (hlast : turn.gradientStep ∈ r.gradientSteps) :
    n.store.LiveUpdate (n.store.isOpenAt turn.derivativeStep) r := by
  have hreg := h.prepared.registered
  obtain ⟨hforward, hle⟩ := h.turn_between ha hturn
  refine ⟨h.isOpenAt_weight ha hl (by unfold BackwardTurn.derivativeStep; omega) hle hw hr,
    fun d hd => ?_, fun id hid => ?_⟩
  · rw [hreg.collected.gradientSteps w r hr] at hlast
    have hused := (hreg.collected.used w r d _ hr hd hlast).2
    exact hreg.registry.isOpenAt_of_mem hused
  · obtain ⟨e, he, hrole⟩ := hreg.registry.state w r id hr hid
    obtain ⟨e', he', hzero⟩ := hl.states r (List.mem_of_getElem? hr) id hid
    obtain rfl := Option.some.inj (he.symm.trans he')
    have hs := hreg.registry.source_eq_none he (by rw [hrole]; rfl)
    exact hl.isOpenAt hreg.registry h.filled he (by rw [hrole]; rfl)
      (Store.mem_stepsOf_iff.mpr ⟨e, Store.backing_of_source_eq_none he hs, hzero⟩)
        (Nat.zero_le _) hle

end Live

end Network

/-- The state of a hook without the buffers whose windows do not contain the step. -/
def HookState.openAt (t : Nat) (s : HookState α) : HookState α :=
  { s with store := s.store.openAt t }

/-- The last step that a mode runs. -/
def Store.lastStepOf (s : Store α) : RunMode → Nat
  | .train => s.maxStep
  | .inference => s.forwardSteps - 1

/-- A hook ends well on the store, and what is open at the step is all that it needs: it does the
same with that alone. -/
def Store.OpenSuffices (s : Store α) (t : Nat) (hook : Action (HookState α) Unit) : Prop :=
  ∀ loss notes, ∃ k, hook ⟨s, loss, notes⟩ = .ok () k ∧ hook (HookState.openAt t ⟨s, loss, notes⟩) =
    .ok () (k.openAt t)

theorem Hook.Blind.openSuffices {s : Store α} {t : Nat} {view : NodeView} {hook : Hook α Unit}
    {Q : Unit → Prop} (h : Hook.Blind s (s.isOpenAt t) view hook)
    (hreturns : Hook.Returns s view hook Q) (hl : s.Loaded) : s.OpenSuffices t (hook view) := by
  intro loss notes
  obtain ⟨_, k, hrun, -, -⟩ := hreturns ⟨s, loss, notes⟩ (.refl hl)
  have hopen : Action.Blind (fun k => s.SameLayout k.store) (HookState.openAt t) (hook view) :=
    h.congr fun k hk => congrArg (fun store => (⟨store, k.loss, k.notes⟩ : HookState α)) (hk.only t)
  exact ⟨k, hrun, (hopen.sees ⟨s, loss, notes⟩ (.refl s)).trans (congrArg _ hrun)⟩

namespace Network

/-- What the nodes of a network use at a step is open there, aliases share the buffers of roots, and
the outputs are used up to the last step of the mode. -/
structure KeepsToWindows [Scalar α] (n : Network α) : Prop where
  forward : ∀ (p : Nat) (a : Node α), n.graph.nodes[p]? = some a → ∀ training,
    n.store.OpenSuffices a.schedule.forward (a.layer.forward training a.view)
  collects : n.store.mode = some .train → ∀ (p : Nat) (a : Node α), n.graph.nodes[p]? = some a →
    a.collectsGradients = true → ∃ turn, a.schedule.backward = some turn ∧
      n.store.OpenSuffices turn.gradientStep (a.layer.collectGradients a.view)
  passes : n.store.mode = some .train → ∀ (p : Nat) (a : Node α), n.graph.nodes[p]? = some a →
    a.passesDerivatives = true → ∃ turn, a.schedule.backward = some turn ∧
      n.store.OpenSuffices turn.derivativeStep (a.layer.passBack a.view)
  applies : ∀ (p : Nat) (a : Node α), n.graph.nodes[p]? = some a → a.participates = true →
    ∃ turn, a.schedule.backward = some turn ∧
      ∀ {τ : Type} (rule : WeightState α → Action τ (WeightState α)) (own : τ),
      applyComplete a rule (own, n.store.openAt turn.derivativeStep) =
        Action.mapState (fun s => (s.1, s.2.openAt turn.derivativeStep))
          (applyComplete a rule (own, n.store)) ∧
      (n.store.mode = some .train → Store.KeepsShapes (fun _ => True) rule →
        (applyComplete a rule).endsWell (own, n.store) = true)
  aliases : ∀ (id : Nat) e r, n.store.entries[id]? = some e → e.source = some r →
    ∃ e', n.store.entries[r]? = some e' ∧ e'.source = none
  outputs : ∀ mode, n.store.mode = some mode → ∀ id ∈ n.outputs,
    (∀ (q : Nat) (b : Node α) (y : Wire), n.graph.nodes[q]? = some b → b.isSource = true →
      y ∈ b.tensors.outputs → y.value ≠ id) →
    ∃ e, n.store.rootEntry id = .ok e ∧ (n.store.usedSteps mode e).max? =
    some (n.store.lastStepOf mode)

section Windows

variable [Scalar α] {n : Network α} {mode : RunMode} (h : Ready (fun _ => True) mode n)
include h

omit [Scalar α] in
/-- A graph output that is not fed is used up to the last step of the mode. -/
theorem Ready.max_usedSteps (hwithin : n.store.Within) {id : TensorRef} (hid : id ∈ n.outputs)
    (hfed : ∀ (q : Nat) (b : Node α) (y : Wire), n.graph.nodes[q]? = some b → b.isSource = true →
      y ∈ b.tensors.outputs → y.value ≠ id) :
    ∃ e, n.store.rootEntry id = .ok e ∧ (n.store.usedSteps mode e).max? =
      some (n.store.lastStepOf mode) := by
  have hreg := h.prepared.registered
  obtain ⟨p, a, y, ha, hterminal, hy, rfl⟩ := h.prepared.faces.outputs id hid
  have hs : a.isSource = false := by
    cases hs : a.isSource with
    | true => exact absurd rfl (hfed p a y ha hs hy)
    | false => rfl
  obtain ⟨k, hk⟩ := List.getElem?_of_mem hy
  have hplace := hreg.place_lt_forwardSteps ha
  have hused : n.store.UsedIn mode y.value (n.store.lastStepOf mode) := by
    refine hreg.usedIn_outputSteps ha hk hs ?_ ?_
    · cases mode <;> simp [outputSteps, hterminal, Store.lastStepOf, hreg.forwardSteps]
    · cases mode with
      | train => exact .inl rfl
      | inference => exact .inr (show n.store.forwardSteps - 1 < n.store.forwardSteps by omega)
  obtain ⟨e, he, -, hmem⟩ := hused
  refine ⟨e, Store.rootEntry_eq_ok_iff.mpr he, List.max?_eq_some_iff.mpr ⟨hmem, fun t ht => ?_⟩⟩
  obtain ⟨ht, hmode⟩ := Store.mem_usedSteps_iff.mp ht
  cases mode with
  | train => exact hwithin.entries e (List.mem_of_getElem? (Store.backing_eq_some_iff.mp he).2) t ht
  | inference =>
    have hlt := hmode.resolve_left (by decide)
    exact Nat.le_sub_one_of_lt hlt

theorem Ready.keepsToWindows (hl : n.store.Lasting) (hwithin : n.store.Within) :
    KeepsToWindows n := by
  have hreg := h.prepared.registered
  have hship := fun {p a} => hreg.compiled.shipped p a
  have hloaded := h.prepared.loaded
  refine ⟨fun p a ha training => ?_, fun htrain p a ha hcollects => ?_,
    fun htrain p a ha hpasses => ?_,
    fun p a ha hpart => ?_, fun id e r he hr => ?_, fun mode' hmode id hid hfed => ?_⟩
  · exact (Layer.blind_forward (hship ha) (h.liveForward ha) training).openSuffices
      (Layer.returns_forward (h.holds ha).fits (h.equipped ha) training) hloaded
  · obtain rfl : mode = .train := Option.some.inj (h.allocated.symm.trans htrain)
    have hpart : a.participates = true := by rw [Node.participates, hcollects, Bool.or_true]
    obtain ⟨turn, hturn, -⟩ := hreg.compiled.exists_turn ha hpart
    exact ⟨turn, hturn,
      (Layer.blind_collectGradients (hship ha) (h.liveCollect ha hturn hcollects)).openSuffices
      (Layer.returns_collectGradients a.view (h.holds ha).fits (h.equippedBack ha hpart)) hloaded⟩
  · obtain rfl : mode = .train := Option.some.inj (h.allocated.symm.trans htrain)
    have hpart := Node.participates_of_passes hpasses
    obtain ⟨turn, hturn, -⟩ := hreg.compiled.exists_turn ha hpart
    exact ⟨turn, hturn, (Layer.blind_passBack (hship ha) (h.livePassBack ha hturn hl)).openSuffices
      (Layer.returns_passBack a.view (h.holds ha).fits (h.equippedBack ha hpart)) hloaded⟩
  · obtain ⟨turn, hturn, -⟩ := hreg.compiled.exists_turn ha hpart
    refine ⟨turn, hturn, fun rule own => ⟨?_, fun htrain hrule => ?_⟩⟩
    · have hlive : ∀ step, a.schedule.gradientStep = some step → ∀ w ∈ a.tensors.weights, ∀ r,
          n.store.weights[w]? = some r → step ∈ r.gradientSteps →
          n.store.LiveUpdate (n.store.isOpenAt turn.derivativeStep) r := by
        intro step hstep w hw r hr hlast
        rw [Schedule.gradientStep, hturn] at hstep
        cases hstep
        exact h.liveUpdate ha hturn hl hw hr hlast
      exact ((blind_applyComplete hlive rule).congr fun s hs => congrArg (Prod.mk s.1)
        (hs.only _)).sees (own, n.store) (.refl _)
    · obtain rfl : mode = .train := Option.some.inj (h.allocated.symm.trans htrain)
      obtain ⟨b, s, hrun, -, -⟩ := h.returns_applyComplete ha hrule (own, n.store) (.refl hloaded)
      unfold Action.endsWell
      rw [hrun]
  · obtain ⟨-, e', he', hs, -⟩ := hreg.registry.ofSource id e r he hr
    exact ⟨e', he', hs⟩
  · obtain rfl : mode = mode' := Option.some.inj (h.allocated.symm.trans hmode)
    exact h.max_usedSteps hwithin hid hfed

end Windows

section Calls

variable [Scalar α] {n : Network α}

/-- Whatever has been called on a network of shipped layers, whether it shares buffers or not: once
it can run, what a node reads and writes at a step lies in the windows of the buffers, which has
every hook run the same on what is open there. Writing a tensor is a call and a hook is given any
loss and notes, so that goes for what a node finds in the middle of a run. -/
theorem keepsToWindows_of_leads {settings : NetworkSettings}
    (hleads : Leads (ofSettings settings) n) (hready : n.checkReady = .ok ()) :
    KeepsToWindows n := by
  obtain ⟨hsound, hwithin, hlasting⟩ := within_of_leads hleads
  obtain ⟨mode, -, hr⟩ := hsound.ready hready
  exact hr.keepsToWindows hlasting hwithin

theorem relaying_keepsToWindows : checkReady relaying = .ok () ∧ relaying.store.mode = some .train ∧
    KeepsToWindows relaying := by
  obtain ⟨settings, hleads⟩ := leads_of_reached reached_relaying
  obtain ⟨hready, hmode, -⟩ := relaying_ready
  exact ⟨hready, hmode, keepsToWindows_of_leads hleads hready⟩

end Calls

end Network

end LayerGraph
