import LayerGraph.Proofs.Network.Beside
import LayerGraph.Proofs.Network.Lifecycle
import LayerGraph.Proofs.Network.Rebuilt

/-!
# Shared buffers cannot be seen

Networks that are built from one draft, whether they share buffers or not, find the same in every
run, whatever has been called on them before, if they are fed the same and have the same weights.
-/

namespace LayerGraph

open Network

variable {α τ : Type} {batch : Nat}

namespace Store

variable {s s' : Store α}

/-- Optimizer state is registered and starts from zero, and every weight has its own. -/
structure StatesHeld (s : Store α) : Prop where
  apart : s.StatesApart
  zeros : ∀ id ∈ s.weights.flatMap (·.optimizerState), ∃ e, s.entries[id]? = some e ∧
    e.initializer = .zeros

theorem StatesHeld.registered (h : s.StatesHeld) {id : TensorRef}
    (hid : id ∈ s.weights.flatMap (·.optimizerState)) : id < s.entries.length := by
  obtain ⟨e, he, -⟩ := h.zeros id hid
  exact (List.getElem?_eq_some_iff.mp he).1

theorem StatesHeld.of_tables (h : s.StatesHeld) (hw : s'.weights = s.weights)
    (he : s'.entries.map (·.initializer) = s.entries.map (·.initializer)) : s'.StatesHeld := by
  refine ⟨?_, fun id hid => ?_⟩
  · unfold StatesApart
    rw [hw]
    exact h.apart
  · obtain ⟨e, hat, hzeros⟩ := h.zeros id (hw ▸ hid)
    obtain ⟨e', he', hsame⟩ := getElem?_of_map_eq he.symm hat
    exact ⟨e', he', hsame.trans hzeros⟩

/-- Changes to entries that leave their initializers alone. -/
theorem StatesHeld.map (h : s.StatesHeld) {f : TensorRecord α → TensorRecord α}
    (hf : ∀ e, (f e).initializer = e.initializer) (he : s'.entries = s.entries.map f)
    (hw : s'.weights = s.weights) : s'.StatesHeld :=
  h.of_tables hw (by rw [he, List.map_map]; exact List.map_congr_left fun e _ => hf e)

/-- The state of all weights once there is one more. -/
theorem states_modify_perm (weights : List WeightRecord) (w : WeightRef) (id : TensorRef) :
    ((weights.modify w fun r => { r with optimizerState := r.optimizerState ++ [id] }).flatMap
      (·.optimizerState)).Perm ((if w < weights.length then [id] else []) ++ weights.flatMap
      (·.optimizerState)) := by
  induction weights generalizing w with
  | nil => simp
  | cons r weights ih =>
    cases w with
    | zero =>
      simp only [List.modify_zero_cons, List.flatMap_cons, List.length_cons,
        Nat.zero_lt_succ, if_true]
      exact (List.perm_append_comm).append_right _
    | succ w =>
      simp only [List.modify_succ_cons, List.flatMap_cons, List.length_cons, Nat.succ_lt_succ_iff]
      exact ((ih w).append_left _).trans (List.perm_append_comm_assoc _ _ _)

theorem StatesHeld.withState (h : s.StatesHeld) (w : WeightRef) {e : TensorRecord α}
    (he : e.initializer = .zeros) : (s.withState w e).StatesHeld := by
  have hperm := states_modify_perm s.weights w s.entries.length
  have hmem : ∀ id ∈ (if w < s.weights.length then [s.entries.length] else []),
      id = s.entries.length := by
    intro id hid
    split at hid
    · exact List.mem_singleton.mp hid
    · cases hid
  refine ⟨?_, fun id hid => ?_⟩
  · refine hperm.nodup_iff.mpr (List.nodup_append.mpr ⟨?_, h.apart, ?_⟩)
    · split <;> simp
    · rintro id hid _ hold rfl
      exact Nat.lt_irrefl _ (hmem id hid ▸ h.registered hold)
  · change ∃ e', (s.entries ++ [e])[id]? = some e' ∧ e'.initializer = .zeros
    rcases List.mem_append.mp (hperm.mem_iff.mp hid) with hid | hid
    · exact ⟨e, by rw [hmem id hid, List.getElem?_concat_length], he⟩
    · obtain ⟨e', hat, hzeros⟩ := h.zeros id hid
      exact ⟨e', by rw [List.getElem?_append_left (h.registered hid), hat], hzeros⟩

theorem keeps_statesHeld_requestStates (shapes : Shape → List Shape) :
    Action.Keeps (StatesHeld (α := α)) (requestStates shapes) :=
  keeps_requestStates_of_added (fun _ w _ _ _ hzeros h => h.withState w hzeros) shapes

theorem keeps_statesHeld_allocate (mode : RunMode) :
    Action.Keeps (StatesHeld (α := α)) (allocate mode) :=
  keeps_allocate_of_slots (fun _ _ _ _ _ h => h.of_tables rfl rfl) mode

theorem StatesHeld.after_fillWeights [Scalar α] (h : s.StatesHeld) (maxStep : Nat) :
    ((fillWeights maxStep).after s).StatesHeld := by
  rcases Store.after_fillWeights maxStep s with hsame | ⟨-, hok⟩
  · rw [hsame]
    exact h
  · rw [Action.after_of_ok hok]
    exact h.map (fun e => by rw [(e.lasting_eq maxStep).1]) rfl rfl

/-- Tensors keep their widths. -/
theorem Kin.width {passed : Prop} {m : Store α} (h : Kin batch passed m s) {id : TensorRef}
    {shape : Shape} (hid : m.HasShape id shape) : ∃ shape', s.HasShape id shape' ∧
    shape'.width = shape.width := by
  obtain ⟨e, he, rfl⟩ := hid
  obtain ⟨states, -, hentries⟩ := h.entries
  have hat : ∃ e', (s.entries.map (·.rebatched batch))[id]? = some e' ∧ e.Becomes e' := by
    have hlt := (List.getElem?_eq_some_iff.mp he).1
    rcases hentries with heq | ⟨-, heq⟩
    · exact ⟨e, by rw [heq, List.getElem?_append_left hlt, he], .refl e⟩
    · refine ⟨e.lasting m.maxStep, ?_, e.becomes_lasting _⟩
      rw [heq, List.getElem?_append_left (by rwa [List.length_map]), List.getElem?_map, he]
      rfl
  obtain ⟨_, hat, hbecomes⟩ := hat
  rw [List.getElem?_map] at hat
  obtain ⟨e', he', rfl⟩ := Option.map_eq_some_iff.mp hat
  exact ⟨e'.shape, ⟨e', he', rfl⟩, (e'.becomes_rebatched batch).width.symm.trans hbecomes.width⟩

end Store

namespace Network

variable [Scalar α] {d n₀ m₀ n m n' : Network α} {asks : (Shape → List Shape) → Prop}
  {mode : RunMode}

omit [Scalar α] in
/-- A prepared network is brought to a batch or left as it is. -/
theorem after_rebatch_of_prepared (h : n.isPrepared = true) (b : Nat) :
    (rebatch b).after n = n ∨ (rebatch b).after n = n.rebatched b := by
  unfold Action.after
  rw [rebatch_apply, if_pos h]
  by_cases hzero : b = 0
  · rw [if_pos hzero]
    exact .inl rfl
  rw [if_neg hzero]
  by_cases hmode : n.store.hasTensors = true
  · rw [if_pos hmode]
    exact .inl rfl
  · rw [if_neg hmode]
    exact .inr rfl

/-- What calls make of a network that has been prepared: at the given batch it is what it was, but
for optimizer state and for how long what is kept is in use. -/
structure Descends (batch : Nat) (n₀ n : Network α) : Prop where
  sound : Sound (fun _ => True) n
  alike : Alike batch True (n₀.rebatched batch) n
  states : n.store.StatesHeld

namespace Descends

theorem enduring : Enduring (Descends (α := α) batch n₀) where
  write n id v s h hs := by
    have hl := Store.sameLayout_of_set hs
    exact ⟨enduring_sound.write n id v s h.sound hs, Alike.steady.write n id v s h.alike hs,
      h.states.of_tables hl.weights (by rw [hl.entries])⟩
  keep n p loss notes h :=
    ⟨enduring_sound.keep n p loss notes h.sound, Alike.steady.keep n p loss notes h.alike, h.states⟩
  confined n h := Alike.steady.confined n h.alike
  allocated mode n h := by
    have hkeeps : Action.Keeps (fun n : Network α => n.store.StatesHeld) (allocate mode) :=
      keeps_allocate_of (fun n h _ => Store.keeps_statesHeld_allocate mode n.store h) fun _ h => h
    exact ⟨enduring_sound.allocated mode n h.sound, Alike.enduring.allocated mode n h.alike,
      hkeeps n h.states⟩
  filled n h := by
    refine ⟨enduring_sound.filled n h.sound, Alike.enduring.filled n h.alike, ?_⟩
    rw [after_fillWeights_of_prepared h.alike.prepared]
    exact h.states.after_fillWeights _
  released n h := ⟨enduring_sound.released n h.sound, Alike.enduring.released n h.alike,
    h.states.of_tables rfl rfl⟩
  requested shapes n h := by
    have hkeeps : Action.Keeps (fun n : Network α => n.store.StatesHeld) (requestStates shapes) :=
      keeps_requestStates_of fun n h _ _ => Store.keeps_statesHeld_requestStates shapes n.store h
    exact ⟨enduring_sound.requested shapes n h.sound, Alike.enduring.requested shapes n h.alike,
      hkeeps n h.states⟩
  rebatched b n h := by
    refine ⟨enduring_sound.rebatched b n h.sound, Alike.enduring.rebatched b n h.alike, ?_⟩
    rcases after_rebatch_of_prepared h.alike.prepared b with heq | heq
    · rw [heq]
      exact h.states
    · rw [heq]
      exact h.states.map (fun e => by unfold TensorRecord.rebatched; split <;> rfl) rfl rfl

variable (h : Descends batch n₀ n)
include h

theorem of_call (hc : Call n n') : Descends batch n₀ n' := by
  have halike : ∀ {n'}, Call n n' → Alike batch True (n₀.rebatched batch) n' :=
    fun hc => h.alike.call hc (.inl trivial)
  refine enduring.of_call h.alike.closed h.alike.prepared h hc ⟨?_,
    halike (.releaseTensors true), ?_⟩ ⟨?_, halike .releaseWeights, ?_⟩ (fun enable =>
      ⟨?_, halike (.setOptimize enable), ?_⟩) ⟨?_, halike .takeNotes, h.states⟩
  · exact sound_releaseTensors true h.sound
  · exact h.states.of_tables rfl rfl
  · exact sound_releaseWeights h.sound
  · exact h.states.of_tables rfl rfl
  · exact sound_setOptimize enable h.sound
  · exact h.states.of_tables rfl rfl
  · exact h.sound.withNotes []

theorem of_calls (hc : Relation.ReflTransGen Call n n') : Descends batch n₀ n' := by
  induction hc with
  | refl => exact h
  | tail _ hstep ih => exact ih.of_call hstep

theorem sameTasks : SameTasks n₀.graph n.graph := by
  refine ⟨h.alike.order, ?_⟩
  have hnodes := congrArg (List.map Node.task) h.alike.nodes
  simp only [rebatched, List.map_map] at hnodes
  exact hnodes

theorem shape (hreg : Store.Registry n.batchSize n.store) {id : TensorRef}
    {width : Nat} {shape : Shape} (hid : n.store.HasWidth id width)
    (h₀ : n₀.store.HasShape id shape) : n.store.shape id = .ok ⟨n.batchSize, shape.width⟩ := by
  obtain ⟨e, he, rfl⟩ := h₀
  have hrebatched : (n₀.rebatched batch).store.HasShape id (e.rebatched batch).shape :=
    ⟨e.rebatched batch, by simp [rebatched, Store.rebatched, he], rfl⟩
  obtain ⟨shape', ⟨e', he', rfl⟩, hwidth⟩ := h.alike.store.width hrebatched
  obtain ⟨e₁, he₁, heq⟩ := hasShape_of_shape hreg (hid.shape hreg)
  rw [he'] at he₁
  cases he₁
  rw [hid.shape hreg, ← (e.becomes_rebatched batch).width, ← hwidth, heq]

end Descends

section Seen

variable (h : Ready asks mode n)
include h

/-- What is kept can be read in a network that can run. -/
theorem Ready.exists_get {id : TensorRef} {e : TensorRecord α} (he : n.store.entries[id]? = some e)
    (hk : e.role.isKept = true) : ∃ v, n.store.get id = .ok v := by
  obtain ⟨v, hv, -⟩ := (Store.Held.refl h.prepared.loaded).get
    (Store.buffered_of_kept h.prepared.registered.registry he hk h.filled)
  exact ⟨v, hv⟩

theorem Ready.exists_valuesSeen : ∃ seen, n.valuesSeen = .ok seen := by
  refine except_mapM_exists fun r hr => ?_
  obtain ⟨w, hw⟩ := List.getElem?_of_mem hr
  obtain ⟨e, he, hrole⟩ := h.prepared.registered.registry.value w r hw
  obtain ⟨value, hvalue⟩ := h.exists_get he (by rw [hrole]; rfl)
  exact ⟨_, except_bind_eq_ok_iff.mpr ⟨value, hvalue, rfl⟩⟩

theorem Ready.exists_statesSeen : ∃ seen, n.statesSeen = .ok seen := by
  refine except_mapM_exists fun r hr => except_mapM_exists fun id hid => ?_
  obtain ⟨w, hw⟩ := List.getElem?_of_mem hr
  obtain ⟨e, he, hrole⟩ := h.prepared.registered.registry.state w r id hw hid
  exact h.exists_get he (by rw [hrole]; rfl)

end Seen

section Twins

variable (h : Alongside n₀ m₀) (hfaces : faces m₀ = faces n₀) (hp : Prepared asks n₀)
  (hn : Descends n.batchSize n₀ n) (hm : Descends m.batchSize m₀ m) (hr : Ready asks mode n)
  (hr' : Ready asks mode m) (hbatch : m.batchSize = n.batchSize)
  (hvalues : m.valuesSeen = n.valuesSeen)
include h hfaces hp hn hm hr hr' hbatch hvalues

/-- What comes of networks that have been prepared alongside each other is the same but for the
buffers. -/
theorem twins_of_descends : Twins (m.statesSeen = n.statesSeen) n m := by
  have hreg := hr.prepared.registered.registry
  have hreg' := hr'.prepared.registered.registry
  have htasks : SameTasks n.graph m.graph := (hn.sameTasks.symm.trans h.tasks).trans hm.sameTasks
  -- Whatever has a width in both had one when they were prepared.
  have hshape : ∀ {id width width'}, (∃ width, n₀.store.HasWidth id width) →
      n.store.HasWidth id width →
      m.store.HasWidth id width' → m.store.shape id = n.store.shape id := by
    rintro id width width' ⟨width₀, h₀⟩ hw hw'
    have h₁ := hasShape_of_shape hp.registered.registry (h₀.shape hp.registered.registry)
    rw [hn.shape hreg hw h₁, hm.shape hreg' hw' (h.store.hasShape.mpr h₁), hbatch]
  simp only [faces, Prod.mk.injEq] at hfaces
  obtain ⟨hinputs, hlabels, houtputs⟩ := hfaces
  obtain ⟨values, hsees⟩ := hr.exists_valuesSeen
  obtain ⟨hnames, hweight⟩ := valuesSeen_eq_ok_iff.mp hsees
  obtain ⟨hnames', hweight'⟩ := valuesSeen_eq_ok_iff.mp (hvalues.trans hsees)
  obtain ⟨states, hstates⟩ := hr.exists_statesSeen
  obtain ⟨states', hstates'⟩ := hr'.exists_statesSeen
  refine ⟨htasks, ?_, ?_, ?_, fun p a ha => ?_, hnames'.trans hnames.symm,
    hweight'.trans hweight.symm,
    _, _, (statesSeen_eq_ok_iff.mp hstates).2, (statesSeen_eq_ok_iff.mp hstates').2,
    fun hsame => ?_⟩
  · exact (hm.alike.inputs.trans hinputs).trans hn.alike.inputs.symm
  · exact (hm.alike.labels.trans hlabels).trans hn.alike.labels.symm
  · exact (hm.alike.outputs.trans houtputs).trans hn.alike.outputs.symm
  · obtain ⟨b, hb, htask⟩ := htasks.node ha
    obtain ⟨a₀, ha₀, htask₀⟩ := getElem?_of_map_eq hn.sameTasks.tasks ha
    obtain ⟨-, htensors, -⟩ := layer_of_task htask
    obtain ⟨-, htensors₀, -⟩ := layer_of_task htask₀
    have hfits := (hr.holds ha).fits
    have hfits' := (hr'.holds hb).fits
    have hfits₀ := (hp.registered.holds_of_node ha₀).fits
    rw [htensors] at hfits'
    rw [htensors₀] at hfits₀
    refine ⟨fun y hy => ?_, fun l hl => ?_⟩
    · obtain ⟨width₀, hw₀⟩ := hfits₀.output hy
      obtain ⟨width, hw⟩ := hfits.output hy
      obtain ⟨width', hw'⟩ := hfits'.output hy
      exact hshape ⟨width₀, hw₀.value⟩ hw.value hw'.value
    · obtain ⟨width, hw⟩ := hfits.label hl
      obtain ⟨width', hw'⟩ := hfits'.label hl
      exact hshape (hfits₀.label hl) hw hw'
  · rw [hstates, hstates'] at hsame
    rw [Except.ok.inj hsame]

/-- If everything is fed, they run the same. -/
theorem paired_of_descends (hfeeds : FeedsAll n₀) :
    Paired (m.statesSeen = n.statesSeen) asks mode n m where
  toTwins := twins_of_descends h hfaces hp hn hm hr hr' hbatch hvalues
  ready := hr
  ready' := hr'
  apart := hn.states.apart
  apart' := hm.states.apart
  feedsAll := hfeeds.of_tasks hn.sameTasks hn.alike.inputs hn.alike.labels

end Twins

section Build

/-- Compile a network and prepare it. -/
def build (loss : Option String) (inputs labels : List String) : Action (Network α) Unit := do
  compile loss
  prepare inputs labels

/-- Feed a network and run it forward. Its results are the outputs and the losses. -/
def infer (inputs labels : List (Tensor α)) : Action (Network α) (List (Tensor α) × List α) := do
  feed inputs labels
  let outputs ← forward false
  return (outputs, (← get).losses)

/-- Whatever is fed to two networks, they find the same in it, hand the same over to a rule for
weights and end with the same weights. Where they do not have the same optimizer state, that goes
for rules that leave it alone. -/
structure RunsAlike (n m : Network α) : Prop where
  infer : ∀ inputs labels, labels.length = n.labels.length →
    Action.Matches (fun n' m' => m'.valuesSeen = n'.valuesSeen) (fun _ _ => True) Eq
      (infer inputs labels n) (Network.infer inputs labels m)
  train : n.store.mode = some .train →
    ∀ {τ : Type} (rule : String → WeightState α → Action τ (WeightState α)) (own : τ)
    (batches : List (List (Tensor α) × List (Tensor α))),
    m.statesSeen = n.statesSeen ∨ (∀ name, LeavesState (rule name)) →
    (∀ b ∈ batches, b.2.length = n.labels.length) →
    Action.Matches (fun s t => s.1 = t.1 ∧ t.2.valuesSeen = s.2.valuesSeen ∧
        (m.statesSeen = n.statesSeen → t.2.statesSeen = s.2.statesSeen)) SameOwn Eq
      (batches.mapM (fun b => iterate rule b.1 b.2) (own, n))
        (batches.mapM (fun b => iterate rule b.1 b.2) (own, m))

section Paired

variable {same : Prop}

theorem Paired.valuesSeen_eq (h : Paired same asks mode n m) : m.valuesSeen = n.valuesSeen := by
  obtain ⟨seen, hseen⟩ := h.ready.exists_valuesSeen
  rw [hseen, h.toTwins.valuesSeen hseen]

theorem Paired.statesSeen_eq (h : Paired same asks mode n m) (hsame : same) :
    m.statesSeen = n.statesSeen := by
  obtain ⟨seen, hseen⟩ := h.ready.exists_statesSeen
  rw [hseen, h.toTwins.statesSeen hsame hseen]

theorem Paired.runsAlike (h : Paired (m.statesSeen = n.statesSeen) asks mode n m) :
    RunsAlike n m where
  infer inputs labels hlabels := by
    refine Action.Matches.bind (h.feed hlabels) ?_
    rintro _ _ n₁ m₁ - ⟨h₁, r, hagrees, hagrees'⟩
    refine Action.Matches.bind (h₁.forward hagrees hagrees' (.inl rfl)) ?_
    rintro outputs _ n₂ m₂ rfl ⟨h₂, hlosses, -⟩
    exact .ok (congrArg (Prod.mk outputs) hlosses) h₂.valuesSeen_eq
  train htrain τ rule own batches hstates hlabels := by
    obtain rfl : mode = .train := Option.some.inj (h.ready.allocated.symm.trans htrain)
    have hrule : ∀ name, m.statesSeen = n.statesSeen ∨ LeavesState (rule name) :=
      fun name => hstates.imp_right (· name)
    exact (h.iterations hlabels hrule own).mono (fun s t hst => ⟨hst.1, hst.2.valuesSeen_eq,
      hst.2.statesSeen_eq⟩) (fun _ _ h => h) fun _ _ h => h

end Paired

theorem descends_refl {inputs labels : List String} {u : Unit} (hd : Drawn n)
    (hp : prepare inputs labels n = .ok u n₀) (batch : Nat) : Descends batch n₀ n₀ := by
  have hprep : Prepared (fun _ => True) n₀ := prepared_of_prepare hd hp
  have hu := keeps_unsettled_prepareAll inputs labels n (unsettled_refl hd)
  obtain ⟨n₁, hall, rfl⟩ := prepareAll_of_prepare hp
  rw [Action.after_of_ok hall] at hu
  have hnone : ∀ r ∈ n₁.store.weights, r.optimizerState = [] := hu.requested.2
  have hstates : n₁.store.weights.flatMap (·.optimizerState) = [] :=
    List.flatMap_eq_nil_iff.mpr hnone
  refine ⟨.inr (.inr hprep), ⟨hprep.closed, hprep.prepared, fun a ha => ?_, rfl, rfl, rfl, rfl,
    rfl, rfl, rfl, rfl, [], by simp, .inl (List.append_nil _).symm⟩, ?_, ?_⟩
  · obtain ⟨p, hp⟩ := List.getElem?_of_mem ha
    exact hprep.registered.compiled.shipped p a hp
  · unfold Store.StatesApart
    rw [hstates]
    exact List.nodup_nil
  · rw [hstates]
    simp

/-- Whether buffers are shared does not decide whether a draft can be built, and cannot be seen in
what is built: whatever has been called on two networks since, as long as they can run with the same
batch, in the same mode and with the same weights, they run alike. That goes for two that both share
buffers too, or do not, so nothing that earlier calls have left in the buffers can be seen
either. -/
theorem runsAlike_of_build {loss : Option String} {inputs labels : List String} {enable : Bool}
    {u : Unit} (hd : Draft d) (hbuild : build loss inputs labels (setOptimize enable d) = .ok u n₀)
    (hfeeds : FeedsAll n₀) (enable' : Bool) :
    ∃ m₀, build loss inputs labels (setOptimize enable' d) = .ok ⟨⟩ m₀ ∧
      ∀ n m, Relation.ReflTransGen Call n₀ n → Relation.ReflTransGen Call m₀ m →
        n.checkReady = .ok () → m.checkReady = .ok () → m.store.mode = n.store.mode →
        m.batchSize = n.batchSize → m.valuesSeen = n.valuesSeen → RunsAlike n m := by
  have hdraft : Draft (setOptimize enable d) :=
    ⟨hd.open_, hd.unprepared, hd.plain, ⟨hd.blank.entries, hd.blank.weights, hd.blank.persistent,
      hd.blank.slots, hd.blank.slotOf, hd.blank.mode, hd.blank.hasWeights⟩, hd.batch⟩
  obtain ⟨_, n₁, hcompile, hprepare⟩ := Action.bind_eq_ok_iff.mp hbuild
  obtain ⟨m₁, hcompile', h₁, hdrawn, hdrawn'⟩ := alongside_of_compile hdraft enable' hcompile
  obtain ⟨m₀, hprepare', h₀, hfaces⟩ := h₁.prepare hdrawn hdrawn' hprepare
  refine ⟨m₀, (Action.bind_of_ok hcompile').trans hprepare',
    fun n m hn hm hready hready' hmode hbatch hseen => ?_⟩
  have hdesc := (descends_refl hdrawn hprepare n.batchSize).of_calls hn
  have hdesc' := (descends_refl hdrawn' hprepare' m.batchSize).of_calls hm
  obtain ⟨mode, hallocated, hr⟩ := (hdesc.sound.prepared hdesc.alike.prepared).ready hready
  obtain ⟨mode', hallocated', hr'⟩ := (hdesc'.sound.prepared hdesc'.alike.prepared).ready hready'
  obtain rfl : mode' = mode := by
    rw [hallocated, hallocated'] at hmode
    exact Option.some.inj hmode
  exact (paired_of_descends h₀ hfaces (prepared_of_prepare hdrawn hprepare) hdesc
    hdesc' hr hr' hbatch hseen hfeeds).runsAlike

end Build

/-- A layer with a loss behind it, drafted for a batch of one. -/
def slim : Network Float32 :=
  (add (.ofLayer (.loss .mse) "z" [⟨"y", 0⟩])).after
    ((add (.ofLayer (.fullyConnected 1 .zeros .zeros) "y" [⟨"x", 0⟩])).after
      ((add (.ofLayer (.input 2) "x" [])).after (ofSettings ⟨1, true, none, []⟩)))

theorem draft_slim : Draft slim :=
  keeps_draft_add (Node.isPlain_ofLayer rfl _ _) _ (keeps_draft_add (Node.isPlain_ofLayer rfl _ _) _
    (keeps_draft_add (Node.isPlain_ofLayer rfl _ _) _ (draft_ofSettings _)))

/-- What compiling makes of it, whether buffers are to be shared or not. -/
def slimCompiled (enable : Bool) : Network Float32 :=
  { (ofSettings ⟨1, enable, none, []⟩ : Network Float32) with
    graph := ⟨[
      { Node.ofLayer (.input 2) "x" [] with outputs := [[⟨"y", 0⟩]] },
      { Node.ofLayer (.fullyConnected 1 .zeros .zeros) "y" [⟨"x", 0⟩] with
        outputs := [[⟨"z", 0⟩]], schedule := .bothWays 1 1 3, collectsGradients := true },
      { Node.ofLayer (.loss .mse) "z" [⟨"y", 0⟩] with
        schedule := .bothWays 2 0 3, passesDerivatives := true
        bufferUse := if enable then .view else .own }], [0, 1, 2]⟩
    store := (Store.empty enable none).setBounds 3 6
    isCompiled := true }

theorem compile_slim (enable : Bool) : compile none (setOptimize enable slim) =
    .ok () (slimCompiled enable) := by
  cases enable <;> cbv

/-- What preparing it comes to. -/
def slimBuilt (enable : Bool) : Network Float32 := (prepare [] []).after (slimCompiled enable)

theorem build_slim (enable : Bool) : build none [] [] (setOptimize enable slim) =
    .ok ⟨⟩ (slimBuilt enable) :=
  (Action.bind_of_ok (compile_slim enable)).trans
    (Action.eq_ok_of_endsWell (by cases enable <;> decide +kernel))

/-- What it comes to once it is allocated for training and filled. -/
def slimStarted (enable : Bool) : Network Float32 :=
  fillWeights.after ((allocate .train).after (slimBuilt enable))

theorem called_slim (enable : Bool) :
    Relation.ReflTransGen Call (slimBuilt enable) (slimStarted enable) :=
  .tail (.single (.allocate .train)) .fillWeights

theorem slimStarted_ready (enable : Bool) : checkReady (slimStarted enable) = .ok () ∧
    (slimStarted enable).store.mode = some .train ∧ (slimStarted enable).batchSize = 1 := by
  cases enable <;> decide +kernel

/-- What is filled with zeros is seen as zeros. -/
theorem valuesSeen_of_zeros {n : Network Float32} (ws : List (String × TensorRef × Shape))
    (hfills : n.isPrepared = true ∧ n.store.hasWeights = false ∧
      (Store.fillWeights n.store.maxStep).endsWell n.store = true)
    (hweights : n.store.weights.map (fun r => (r.name, r.value)) = ws.map fun w => (w.1, w.2.1))
    (hentries : ∀ w ∈ ws, (n.store.entries[w.2.1]?.map fun e => (Store.isKeptRoot e, e.shape,
      match e.initializer with | .zeros => true | _ => false)) = some (true, w.2.2, true)) :
    (fillWeights.after n).valuesSeen = .ok (ws.map fun w => (w.1, .zeros w.2.2)) := by
  obtain ⟨hprepared, hw, hends⟩ := hfills
  have hstore : (fillWeights.after n).store = n.store.filled n.store.maxStep := by
    rw [after_fillWeights_of_prepared hprepared]
    rcases Store.fillWeights_eq_ok_iff.mp (Action.eq_ok_of_endsWell hends) with ⟨hfilled,
      -⟩ | ⟨-, -, heq⟩
    · rw [hw] at hfilled
      cases hfilled
    · exact heq
  have hseen : (fillWeights.after n).valuesSeen =
      (n.store.weights.map fun r => (r.name, r.value)).mapM fun r => do
      return (r.1, ← (n.store.filled n.store.maxStep).get r.2) := by
    unfold valuesSeen
    rw [hstore, List.mapM_map]
    rfl
  rw [hseen, hweights, List.mapM_map, except_mapM_eq_ok_iff, List.forall₂_map_right_iff,
    List.forall₂_same]
  intro w hmem
  obtain ⟨e, he, heq⟩ := Option.map_eq_some_iff.mp (hentries w hmem)
  simp only [Prod.mk.injEq] at heq
  obtain ⟨hk, hshape, hz⟩ := heq
  refine except_bind_eq_ok_iff.mpr ⟨_, Store.get_of_filled he hk _, ?_⟩
  split at hz
  · next hzeros => rw [hzeros, hshape]; rfl
  · cases hz

theorem slimStarted_seen (enable : Bool) :
    (slimStarted enable).valuesSeen =
      .ok [("y:weight", .zeros ⟨2, 1⟩), ("y:bias", .zeros ⟨1, 1⟩)] :=
  valuesSeen_of_zeros [("y:weight", 3, ⟨2, 1⟩), ("y:bias", 5, ⟨1, 1⟩)]
    (by cases enable <;> decide +kernel) (by cases enable <;> decide +kernel)
      (by cases enable <;> decide +kernel)

theorem feedsAll_slim : FeedsAll (slimBuilt true) := by
  have hdraft : Draft (setOptimize true slim) := draft_slim
  have hdrawn : Drawn (slimCompiled true) := drawn_of_compile hdraft (compile_slim true)
  have hprepare : prepare [] [] (slimCompiled true) = .ok () (slimBuilt true) :=
    Action.eq_ok_of_endsWell (by decide +kernel)
  have hp : Prepared (fun _ => True) (slimBuilt true) := prepared_of_prepare hdrawn hprepare
  exact hp.feedsAll (by decide +kernel) (by decide +kernel) (by decide +kernel) (by decide +kernel)

theorem slim_runsAlike : FeedsAll (slimBuilt true) ∧
    RunsAlike (slimStarted true) (slimStarted false) := by
  obtain ⟨m₀, hbuild, halike⟩ := runsAlike_of_build draft_slim (build_slim true) feedsAll_slim false
  rw [build_slim false] at hbuild
  rw [← (EStateM.Result.ok.inj hbuild).2] at halike
  obtain ⟨hready, hmode, hbatch⟩ := slimStarted_ready true
  obtain ⟨hready', hmode', hbatch'⟩ := slimStarted_ready false
  exact ⟨feedsAll_slim, halike _ _ (called_slim true) (called_slim false) hready hready'
    (hmode'.trans hmode.symm) (hbatch'.trans hbatch.symm) ((slimStarted_seen false).trans
      (slimStarted_seen true).symm)⟩

end Network

end LayerGraph
