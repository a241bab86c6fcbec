import LayerGraph.Proofs.Network.Descent
import LayerGraph.Proofs.Rational

/-!
# Training

Training brings a network into a state in which it trains on batches of the given size, and then
takes the steps of mini-batch gradient descent, one batch after the other.
-/

namespace LayerGraph

variable {ρ α : Type}

namespace Store

variable {s s' : Store α} {shapes : Shape → List Shape} {u : Unit}

/-- Every weight that is trained has optimizer state. -/
def HasStates (s : Store α) : Prop := ∀ r ∈ s.weights, r.trainable = true → r.optimizerState ≠ []

theorem hasStates_of_lacksState (hshapes : ∀ shape, shapes shape ≠ [])
    (h : s.lacksState shapes = .ok false) : s.HasStates := by
  have hall : ∀ rs : List WeightRecord, (rs.anyM fun r => do
      return decide (r.optimizerState.length < (shapes (← s.entry r.value).shape).length) :
        Except Error Bool) = .ok false →
      ∀ r ∈ rs, r.optimizerState ≠ [] := by
    intro rs
    induction rs with
    | nil => exact fun _ => nofun
    | cons r rs ih =>
      intro h r' hr'
      rw [List.anyM_cons] at h
      obtain ⟨lacks, hlacks, h⟩ := except_bind_eq_ok_iff.mp h
      obtain ⟨e, -, hlacks⟩ := except_bind_eq_ok_iff.mp hlacks
      cases hlacks
      split at h
      · cases h
      · next hnot =>
        rcases List.mem_cons.mp hr' with rfl | hr'
        · intro hempty
          have hpos := List.length_pos_iff.mpr (hshapes e.shape)
          simp [hempty, hpos] at hnot
        · exact ih h r' hr'
  intro r hr htrainable
  exact hall _ h r (List.mem_filter.mpr ⟨hr, htrainable⟩)

theorem weights_of_pushState {w : WeightRef} {name : String} {shape : Shape}
    (h : pushState w name shape s = .ok u s') :
    ∃ id, s'.weights = s.weights.modify w fun r =>
    { r with optimizerState := r.optimizerState ++ [id] } := by
  unfold pushState at h
  obtain ⟨_, _, hget, h⟩ := Action.bind_eq_ok_iff.mp h
  cases hget
  obtain ⟨id, s₁, hpush, h⟩ := Action.bind_eq_ok_iff.mp h
  cases h
  unfold push at hpush
  split at hpush
  · cases hpush
  · cases hpush
    exact ⟨_, rfl⟩

/-- Requests give every weight that is trained some state, if some is asked for. -/
theorem hasStates_of_requestStates (hshapes : ∀ shape, shapes shape ≠ [])
    (h : requestStates shapes s = .ok u s') : s'.HasStates := by
  obtain ⟨_, _, hget, h⟩ := Action.bind_eq_ok_iff.mp h
  cases hget
  -- State is only added, so a weight that has some keeps it.
  have hpush : ∀ {k : Nat} {name : String} {shape : Shape} {s s' : Store α} {u : Unit},
      pushState k name shape s = .ok u s' →
      s'.weights.length = s.weights.length ∧ ∀ (w : WeightRef) (r : WeightRecord),
        s'.weights[w]? = some r →
        ∃ r₀, s.weights[w]? = some r₀ ∧ r.trainable = r₀.trainable ∧
          (r₀.optimizerState ≠ [] ∨ w = k → r.optimizerState ≠ []) := by
    intro k name shape s s' u h
    obtain ⟨id, hw⟩ := weights_of_pushState h
    rw [hw]
    refine ⟨List.length_modify .., fun w r hr => ?_⟩
    rw [List.getElem?_modify] at hr
    obtain ⟨r₀, hr₀, rfl⟩ := Option.map_eq_some_iff.mp hr
    refine ⟨r₀, hr₀, by split <;> rfl, fun hor => ?_⟩
    split
    · simp
    · next hne => exact hor.resolve_right fun heq => hne heq.symm
  have hloop := Action.forM_prefix (fun done t => t.weights.length = s.weights.length ∧ ∀ w ∈ done,
    ∀ r : WeightRecord, t.weights[w]? = some r → r.trainable = true → r.optimizerState ≠ []) h
    ⟨rfl, nofun⟩ ?_
  · intro r hr htrainable
    obtain ⟨w, hw⟩ := List.getElem?_of_mem hr
    have hlt := (List.getElem?_eq_some_iff.mp hw).1
    exact hloop.2 w (List.mem_range.mpr (hloop.1 ▸ hlt)) r hw htrainable
  · intro done k rest t t' _ _ ⟨hlength, hdone⟩ hrun
    obtain ⟨r, _, hread, hrun⟩ := Action.bind_eq_ok_iff.mp hrun
    obtain ⟨hr, rfl⟩ := Action.read_eq_ok_iff.mp hread
    have hr := weight_eq_ok_iff.mp hr
    split at hrun
    · obtain ⟨e, _, hread, hrun⟩ := Action.bind_eq_ok_iff.mp hrun
      obtain ⟨-, rfl⟩ := Action.read_eq_ok_iff.mp hread
      obtain ⟨shape, more, hne⟩ := List.exists_cons_of_ne_nil (hshapes e.shape)
      rw [hne, List.zipIdx_cons] at hrun
      simp only [List.forM_eq_forM, List.forM_cons] at hrun
      obtain ⟨_, t₁, hfirst, hrun⟩ := Action.bind_eq_ok_iff.mp hrun
      obtain ⟨hlength₁, hfirst⟩ := hpush hfirst
      have hstart : t₁.weights.length = s.weights.length ∧ ∀ w ∈ done ++ [k], ∀ r : WeightRecord,
          t₁.weights[w]? = some r → r.trainable = true → r.optimizerState ≠ [] := by
        refine ⟨hlength₁.trans hlength, fun w hw r hr htrainable => ?_⟩
        obtain ⟨r₀, hr₀, htrains, hkeeps⟩ := hfirst w r hr
        refine hkeeps ?_
        rcases List.mem_append.mp hw with hw | hw
        · exact .inl (hdone w hw r₀ hr₀ (htrains ▸ htrainable))
        · exact .inr (List.mem_singleton.mp hw)
      refine Action.forM_prefix (fun _ t => t.weights.length = s.weights.length ∧ ∀ w ∈ done ++ [k],
        ∀ r : WeightRecord, t.weights[w]? = some r → r.trainable = true → r.optimizerState ≠ [])
        hrun hstart ?_
      intro _ _ _ t t' _ _ ⟨hlength, hall⟩ hrun
      obtain ⟨hlength', hpushed⟩ := hpush hrun
      refine ⟨hlength'.trans hlength, fun w hw r hr htrainable => ?_⟩
      obtain ⟨r₀, hr₀, htrains, hkeeps⟩ := hpushed w r hr
      exact hkeeps (.inl (hall w hw r₀ hr₀ (htrains ▸ htrainable)))
    · next hnot =>
      cases hrun
      refine ⟨hlength, fun w hw r' hr' htrainable => ?_⟩
      rcases List.mem_append.mp hw with hw | hw
      · exact hdone w hw r' hr' htrainable
      · obtain rfl := List.mem_singleton.mp hw
        rw [hr] at hr'
        cases hr'
        intro hempty
        exact hnot (by rw [htrainable, hempty]; rfl)

/-- Allocation changes nothing that is kept. -/
theorem kept_of_allocate {mode : RunMode} (h : allocate mode s = .ok u s') :
    s'.weights = s.weights ∧ s'.persistent = s.persistent ∧ s'.hasWeights = s.hasWeights ∧
    s'.mode = some mode := by
  by_cases hmode : s.mode = some mode
  · rw [allocate_of_eq hmode] at h
    cases h
    exact ⟨rfl, rfl, rfl, hmode⟩
  · rw [allocate_of_ne hmode, Action.update_eq_ok_iff] at h
    obtain ⟨_, -, h⟩ := except_bind_eq_ok_iff.mp h
    cases h
    unfold released
    split <;> exact ⟨rfl, rfl, rfl, rfl⟩

end Store

namespace Network

variable [Rate ρ α] [Scalar α] {descent : GradientDescent ρ} {d n₀ n n' : Network α}
  {batch : Nat} {u : Unit}

omit [Rate ρ α] in
/-- What is held of weights is what is kept of them. -/
theorem weightHeld_of_persistent {b b' : Nat} (hreg : Store.Registry b n.store)
    (hreg' : Store.Registry b' n'.store) (hweights : n'.store.weights = n.store.weights)
    (hkept : n'.store.persistent = n.store.persistent) : n'.weightHeld = n.weightHeld := by
  funext w
  unfold weightHeld Store.weight
  rw [hweights]
  cases hr : n.store.weights[w]? with
  | none => rfl
  | some r =>
    have hget : ∀ id, id = r.value ∨ id ∈ r.optimizerState → n'.store.get id = n.store.get id := by
      intro id hid
      have hk := hreg.isKept hr hid
      have hk' := hreg'.isKept (hweights ▸ hr) hid
      obtain ⟨e, he, hrole⟩ := hk.backing
      obtain ⟨e', he', hrole'⟩ := hk'.backing
      rw [Store.get_of_kept he hrole, Store.get_of_kept he' hrole', hk.rootOf, hk'.rootOf, hkept]
    simp only [except_ok_bind]
    rw [hget _ (.inl rfl), except_mapM_congr fun id hid => hget id (.inr hid)]

/-- The stages of bringing a network into a state in which it trains. -/
theorem stages_of_readyToTrain (hp : n.isPrepared = true)
    (h : readyToTrain descent batch n = .ok u n') :
    ∃ n₁ n₂ n₃, (∀ {P : Network α → Prop}, Enduring P → P n → P n₁) ∧
      n₁.store.weights = n.store.weights ∧
      n₁.store.persistent = n.store.persistent ∧
      (n.store.hasWeights = false ∧ requestStates descent.stateShapes n₁ = .ok () n₂ ∨
        n.store.hasWeights = true ∧ n₁.store.hasWeights = true ∧
          n₁.store.lacksState descent.stateShapes = .ok false ∧
          n₂ = n₁) ∧
      fillWeights n₂ = .ok () n₃ ∧ allocate .train n₃ = .ok () n' := by
  have hrest : ∀ {m : Network α}, (do
      if !(← get).store.hasWeights then requestStates descent.stateShapes
      else if ← Action.read (·.store.lacksState descent.stateShapes) then
        throw (.resource .missingState)
      fillWeights
      allocate .train : Action (Network α) Unit) m = .ok u n' → ∃ n₂ n₃,
        (m.store.hasWeights = false ∧ requestStates descent.stateShapes m = .ok () n₂ ∨
          m.store.hasWeights = true ∧ m.store.lacksState descent.stateShapes = .ok false ∧ n₂ = m) ∧
        fillWeights n₂ = .ok () n₃ ∧ allocate .train n₃ = .ok () n' := by
    intro m h
    rw [Action.bind_of_ok (Action.get_apply m)] at h
    dsimp only at h
    split at h
    · next hempty =>
      obtain ⟨_, n₂, hrequest, h⟩ := Action.bind_eq_ok_iff.mp h
      obtain ⟨_, n₃, hfill, hallocate⟩ := Action.bind_eq_ok_iff.mp h
      exact ⟨n₂, n₃, .inl ⟨by simpa using hempty, hrequest⟩, hfill, hallocate⟩
    · next hfilled =>
      obtain ⟨lacks, _, hread, h⟩ := Action.bind_eq_ok_iff.mp h
      obtain ⟨hlacks, rfl⟩ := Action.read_eq_ok_iff.mp hread
      obtain ⟨hnot, h⟩ := Action.guard_eq_ok_iff.mp h
      obtain ⟨_, n₃, hfill, hallocate⟩ := Action.bind_eq_ok_iff.mp h
      obtain rfl : lacks = false := by simpa using hnot
      exact ⟨_, n₃, .inr ⟨by simpa using hfilled, hlacks, rfl⟩, hfill, hallocate⟩
  unfold readyToTrain at h
  rw [Action.bind_of_ok (Action.get_apply n)] at h
  dsimp only at h
  split at h
  · obtain ⟨_, _, hmodify, h⟩ := Action.bind_eq_ok_iff.mp h
    cases hmodify
    obtain ⟨_, n₁, hrebatch, h⟩ := Action.bind_eq_ok_iff.mp h
    obtain ⟨n₂, n₃, hstates, hfill, hallocate⟩ := hrest h
    have hn₁ : n₁ = (releaseTensors false n).rebatched batch := by
      rw [rebatch_apply] at hrebatch
      split at hrebatch
      · cases hrebatch
      · split at hrebatch
        · cases hrebatch
        · rw [if_pos (show (releaseTensors false n).isPrepared = true from hp)] at hrebatch
          cases hrebatch
          rfl
    have hsame : n₁.store.weights = n.store.weights ∧ n₁.store.persistent = n.store.persistent ∧
        n₁.store.hasWeights = n.store.hasWeights := by
      rw [hn₁]
      exact ⟨rfl, rfl, rfl⟩
    refine ⟨n₁, n₂, n₃, fun hP h => (hP.rebatched batch).of_ok (hP.released n h) hrebatch, hsame.1,
      hsame.2.1, ?_, hfill, hallocate⟩
    rw [hsame.2.2] at hstates
    rw [hsame.2.2]
    exact hstates.imp_right fun h => ⟨h.1, h⟩
  · obtain ⟨n₂, n₃, hstates, hfill, hallocate⟩ := hrest h
    exact ⟨n, n₂, n₃, fun _ h => h, rfl, rfl, hstates.imp_right fun h => ⟨h.1, h⟩, hfill, hallocate⟩

omit [Rate ρ α] [Scalar α] in
theorem store_of_requestStates {shapes : Shape → List Shape}
    (h : requestStates shapes n = .ok u n') :
    Store.requestStates shapes n.store = .ok () n'.store ∧ n.store.hasWeights = false := by
  obtain ⟨_, _, hget, h⟩ := Action.bind_eq_ok_iff.mp h
  cases hget
  obtain ⟨-, h⟩ := Action.guard_eq_ok_iff.mp h
  obtain ⟨_, _, hget, h⟩ := Action.bind_eq_ok_iff.mp h
  cases hget
  obtain ⟨hempty, h⟩ := Action.guard_eq_ok_iff.mp h
  obtain ⟨s, hs, rfl⟩ := Action.focus_eq_ok_iff.mp h
  exact ⟨hs, by simpa using hempty⟩

omit [Rate ρ α] [Scalar α] in
theorem isPrepared_of_allocate {mode : RunMode} (h : allocate mode n = .ok u n') :
    n'.isPrepared = true := by
  obtain ⟨_, _, hget, h⟩ := Action.bind_eq_ok_iff.mp h
  cases hget
  obtain ⟨hprepared, h⟩ := Action.guard_eq_ok_iff.mp h
  obtain ⟨_, _, hfocus, h⟩ := Action.bind_eq_ok_iff.mp h
  obtain ⟨s, -, rfl⟩ := Action.focus_eq_ok_iff.mp hfocus
  cases h
  simpa using hprepared

theorem hasWeights_of_fillWeights (h : fillWeights n = .ok u n') : n'.store.hasWeights = true := by
  rcases Store.fillWeights_eq_ok_iff.mp (store_of_fillWeights h) with ⟨hfull, heq⟩ | ⟨-, -, heq⟩
  · exact heq ▸ hfull
  · rw [heq]
    rfl

/-- A network that is brought into a state in which it trains can run. -/
theorem ready_of_readyToTrain {asks : (Shape → List Shape) → Prop} (h : Sound asks n)
    (hp : n.isPrepared = true) (hasked : asks descent.stateShapes)
    (hrun : readyToTrain descent batch n = .ok u n') : Ready asks .train n' := by
  have hsound : Sound asks n' := by
    have hkeeps : Action.Keeps (Sound asks) (readyToTrain descent batch) :=
      keeps_readyToTrain (fun n h => sound_fillWeights h) (fun n h => sound_allocate .train h)
        (fun n h => sound_releaseTensors false h) (fun batch n h => sound_rebatch batch h)
        (fun n h => sound_requestStates hasked h) batch
    exact hkeeps.of_ok h hrun
  obtain ⟨_, _, n₃, -, -, -, -, hfill, hallocate⟩ := stages_of_readyToTrain hp hrun
  obtain ⟨-, -, hhas, hmode⟩ := Store.kept_of_allocate (store_of_allocate hallocate)
  exact ⟨hsound.prepared (isPrepared_of_allocate hallocate), hmode,
    hhas.trans (hasWeights_of_fillWeights hfill)⟩

/-- What a network is brought to before it trains: it can run, every weight that is trained has a
velocity if there is momentum, and weights that have been filled before are what they were, and
velocities that have not been are zero. -/
structure Readied (descent : GradientDescent ρ) (n n' : Network α) : Prop where
  ready : Ready (fun _ => True) .train n'
  apart : n'.store.StatesApart
  velocity : Rate.isPositive descent.momentum = true → n'.store.HasStates
  kept : n.store.hasWeights = true → n'.weightHeld = n.weightHeld
  fresh : n.store.hasWeights = false → ∀ w value state, n'.weightHeld w = .ok (value, state) →
    ∀ v ∈ state, v = .zeros v.shape

/-- Optimizer state starts from zero. -/
theorem zeros_of_filled {b : Nat} (hreg : Store.Registry b n.store) (hstates : n.store.StatesHeld)
    {maxStep : Nat} (hstore : n'.store = n.store.filled maxStep) {w : WeightRef} {value : Tensor α}
    {state : List (Tensor α)} (h : n'.weightHeld w = .ok (value, state)) : ∀ v ∈ state,
      v = .zeros v.shape := by
  obtain ⟨r, hr, -, hstate⟩ := weightHeld_eq_ok_iff.mp h
  rw [hstore] at hr hstate
  intro v hv
  obtain ⟨id, hid, hget⟩ := except_mapM_mem_result hstate hv
  obtain ⟨e, he, hsource, hkept⟩ := hreg.isKept hr (.inr hid)
  obtain ⟨e', he', hzeros⟩ :=
    hstates.zeros id (List.mem_flatMap.mpr ⟨r, List.mem_of_getElem? hr, hid⟩)
  obtain rfl : e = e' := Option.some.inj (he.symm.trans he')
  rw [Store.get_of_filled he (by rw [Store.isKeptRoot, hsource, hkept]; rfl), hzeros] at hget
  cases hget
  rfl

theorem readied_of_readyToTrain (hn : Descends batch n₀ n) {b : Nat}
    (h : readyToTrain descent b n = .ok u n') : Descends batch n₀ n' ∧ Readied descent n n' := by
  obtain ⟨n₁, n₂, n₃, hkeeps, hweights₁, hkept₁, hstates, hfill, hallocate⟩ :=
    stages_of_readyToTrain hn.alike.prepared h
  have h₁ : Descends batch n₀ n₁ := hkeeps Descends.enduring hn
  have h₂ : Descends batch n₀ n₂ := by
    rcases hstates with ⟨-, hrequest⟩ | ⟨-, -, -, rfl⟩
    · exact (Descends.enduring.requested _).of_ok h₁ hrequest
    · exact h₁
  have h₃ : Descends batch n₀ n₃ := Descends.enduring.filled.of_ok h₂ hfill
  have h' : Descends batch n₀ n' := (Descends.enduring.allocated .train).of_ok h₃ hallocate
  have hreg : ∀ {m : Network α}, Descends batch n₀ m → Store.Registry m.batchSize m.store :=
    fun hm =>
    (hm.sound.prepared hm.alike.prepared).registered.registry
  have hfilled := store_of_fillWeights hfill
  obtain ⟨hweights, hkept, -, -⟩ := Store.kept_of_allocate (store_of_allocate hallocate)
  have hheld : n'.weightHeld = n₃.weightHeld :=
    weightHeld_of_persistent (hreg h₃) (hreg h') hweights hkept
  have hsame₃ : n₃.store.weights = n₂.store.weights := by
    rcases Store.fillWeights_eq_ok_iff.mp hfilled with ⟨-, heq⟩ | ⟨-, -, heq⟩ <;> rw [heq]
    rfl
  refine ⟨h', ready_of_readyToTrain hn.sound hn.alike.prepared trivial h, h'.states.apart,
    fun hpositive => ?_, fun hfull => ?_, fun hempty w value state hstate => ?_⟩
  · have hshapes : ∀ shape, descent.stateShapes shape ≠ [] := fun shape => by
      unfold GradientDescent.stateShapes
      rw [if_pos hpositive]
      exact List.cons_ne_nil _ _
    have hhas₂ : n₂.store.HasStates := by
      rcases hstates with ⟨-, hrequest⟩ | ⟨-, -, hlacks, rfl⟩
      · exact Store.hasStates_of_requestStates hshapes (store_of_requestStates hrequest).1
      · exact Store.hasStates_of_lacksState hshapes hlacks
    unfold Store.HasStates
    rw [hweights, hsame₃]
    exact hhas₂
  · rcases hstates with ⟨hempty, -⟩ | ⟨-, hfull₁, -, rfl⟩
    · rw [hfull] at hempty
      cases hempty
    · have heq : n₃.store = n₂.store := by
        rcases Store.fillWeights_eq_ok_iff.mp hfilled with ⟨-, heq⟩ | ⟨hempty, -⟩
        · exact heq
        · rw [hfull₁] at hempty
          cases hempty
      rw [hheld, weightHeld_of_persistent (hreg h₂) (hreg h₃) (by rw [heq]) (by rw [heq]),
        weightHeld_of_persistent (hreg hn) (hreg h₂) hweights₁ hkept₁]
  · rcases hstates with ⟨-, hrequest⟩ | ⟨hfull, -⟩
    · obtain ⟨hrun, hempty₁⟩ := store_of_requestStates hrequest
      have hsame := Store.sameBuffers_requestStates n₁.store descent.stateShapes
      rw [Action.after_of_ok hrun] at hsame
      have heq : n₃.store = n₂.store.filled n₂.store.maxStep := by
        rcases Store.fillWeights_eq_ok_iff.mp hfilled with ⟨hfull, -⟩ | ⟨-, -, heq⟩
        · rw [hsame.hasWeights, hempty₁] at hfull
          cases hfull
        · exact heq
      exact zeros_of_filled (hreg h₂) h₂.states heq (hheld ▸ hstate)
    · rw [hempty] at hfull
      cases hfull

omit [Rate ρ α] [Scalar α] in
/-- Weights that a node trains are trained. -/
theorem Prepared.trainable {asks : (Shape → List Shape) → Prop} (h : Prepared asks n)
    {w : WeightRef} {r : WeightRecord} (hr : n.store.weights[w]? = some r)
    (htrained : trainers n.graph w ≠ []) : r.trainable = true := by
  have hreg := h.registered
  obtain ⟨p, hp⟩ := List.exists_mem_of_ne_nil _ htrained
  obtain ⟨-, a, ha, htrains, hw⟩ := mem_trainersIn_iff.mp hp
  obtain ⟨turn, hturn, -⟩ :=
    hreg.compiled.exists_turn ha (hreg.compiled.participates_of_trains ha htrains)
  have hstep : a.schedule.gradientStep = some turn.gradientStep := by
    rw [Schedule.gradientStep, hturn]
    rfl
  have huse := mem_usesOf_of_trainer hreg.compiled.toDesigned ha hstep
    (Bool.and_eq_true_iff.mpr ⟨htrains, decide_eq_true hw⟩)
  exact (hreg.collected.trainable w r hr).mpr (List.ne_nil_of_mem huse)

/-- What is kept of a network that is ready while it runs, whatever is fed to it and however its
weights change. -/
structure Running (asks : (Shape → List Shape) → Prop) (n m : Network α) : Prop where
  prepared : Prepared asks m
  framed : Framed n m

section Running

variable {asks : (Shape → List Shape) → Prop} {x y : Tensor α} {input label : TensorRef}

theorem steady_running (asks : (Shape → List Shape) → Prop) (n : Network α) :
    Steady (Running asks n) where
  write m id v s h hset := ⟨(steady_prepared asks).write m id v s h.prepared hset,
    (steady_framed n).write m id v s h.framed hset⟩
  keep m p loss notes h := ⟨(steady_prepared asks).keep m p loss notes h.prepared,
    (steady_framed n).keep m p loss notes h.framed⟩
  confined _ h := h.framed.confined

omit [Rate ρ α] in
theorem Running.ready {m : Network α} (h : Running asks n m) {mode : RunMode}
    (hmode : n.store.mode = some mode) (hfilled : n.store.hasWeights = true) : Ready asks mode m :=
  ⟨h.prepared, h.framed.layout.mode.trans hmode, h.framed.layout.hasWeights.trans hfilled⟩

variable (hmode : n.store.mode = some .train) (hfilled : n.store.hasWeights = true)
  (hinput : n.inputs = [input]) (hlabel : n.labels = [label])
  (hasks : ∀ shapes, asks shapes → ∃ asking : GradientDescent ρ, shapes = asking.stateShapes)
include hmode hfilled hinput hlabel hasks

/-- A step ends well on a batch that fits. -/
theorem returns_trainStep (descent : GradientDescent ρ) (hx : n.store.shape input = .ok x.shape)
    (hy : n.store.shape label = .ok y.shape) :
    Action.Returns (Running asks n) (trainStep descent x y) fun _ => True := by
  have hsteady := steady_running asks n
  -- What runs keeps what is to be kept, so it is left to show that it ends well.
  have hreturns : ∀ {β : Type} {p : Action (Network α) β}, Action.Keeps (Running asks n) p →
      (∀ m, Running asks n m → ∃ b m', p m = .ok b m') → Action.Returns (Running asks n) p fun _ =>
        True := by
    intro β p hkeeps hends m hm
    obtain ⟨b, m', hrun⟩ := hends m hm
    have hm' := hkeeps m hm
    rw [Action.after_of_ok hrun] at hm'
    exact ⟨b, m', hrun, hm', trivial⟩
  refine (hreturns (hsteady.keeps_feed [x] [y]) fun m hm => ?_).bind fun _ _ =>
    (hreturns (hsteady.keeps_forward true) fun m hm => ?_).bind fun _ _ =>
      Action.returns_get.bind fun _ _ =>
    (hreturns (Action.Keeps.carrying (hsteady.keeps_backward
          fun node Q hQ => keeps_applyComplete_visit hQ node _))
      fun m hm => ?_).bind fun _ _ => Action.returns_pure trivial
  · have hfits : ∀ p ∈ m.feeds [x] [y], m.store.shape p.1 = .ok p.2.shape := by
      intro p hp
      rw [feeds, hm.framed.inputs, hm.framed.labels, hinput, hlabel] at hp
      rw [Store.shape_of_sameLayout hm.framed.layout]
      rcases List.mem_cons.mp hp with rfl | hp
      · exact hx
      · obtain rfl := List.mem_singleton.mp hp
        exact hy
    obtain ⟨m', hrun⟩ :=
      ((hm.ready hmode hfilled).feed_iff (by rw [hm.framed.labels, hlabel]; rfl)).mpr
      ⟨by rw [hm.framed.inputs, hinput]; rfl, hfits⟩
    exact ⟨(), m', hrun⟩
  · obtain ⟨outputs, m', hrun, -⟩ := (hm.ready hmode hfilled).exists_forward (.inr rfl)
    exact ⟨outputs, m', hrun⟩
  · obtain ⟨own, m', hrun, -⟩ := (hm.ready hmode hfilled).exists_backward
      (fun node Q hQ => keeps_applyComplete_visit hQ node _)
      (fun m p a hm ha => (hm.returns_applyComplete ha
        (GradientDescent.keepsShapes_apply hasks descent)).bind fun _ _ =>
        Action.returns_pure trivial) ()
    exact ⟨((), own), m', Action.carrying_eq_ok_iff.mpr hrun⟩

variable {batch inputWidth targetWidth : Nat} {inputs targets : List (List α)}

/-- An epoch ends well on rows that fit. -/
theorem returns_trainEpoch (descent : GradientDescent ρ)
    (hx : n.store.shape input = .ok ⟨batch, inputWidth⟩)
    (hy : n.store.shape label = .ok ⟨batch, targetWidth⟩) (hlength : targets.length = inputs.length)
    (hinputs : ∀ row ∈ inputs, row.length = inputWidth)
    (htargets : ∀ row ∈ targets, row.length = targetWidth) :
    Action.Returns (Running asks n) (trainEpoch descent inputs targets batch inputWidth targetWidth)
      fun _ => True := by
  have hbatch : ∀ {rows : List (List α)} {width b : Nat}, (∀ row ∈ rows, row.length = width) →
      rows.length = inputs.length →
      b < inputs.length / batch →
        batchTensor (batchRows rows batch b) width = .ok (.ofRows width (batchRows rows batch b)) ∧
        (batchRows rows batch b).length = batch := by
    intro rows width b hrows hcount hb
    refine ⟨?_, ?_⟩
    · have hnone : (batchRows rows batch b).find? (·.length ≠ width) = none := by
        refine List.find?_eq_none.mpr fun row hrow => ?_
        simp [hrows row (List.mem_of_mem_drop (List.mem_of_mem_take hrow))]
      unfold batchTensor
      rw [hnone]
    · have hfit : (b + 1) * batch ≤ rows.length := by
        rw [hcount]
        exact (Nat.mul_le_mul_right batch hb).trans (Nat.div_mul_le_self _ _)
      rw [Nat.add_mul, Nat.one_mul] at hfit
      rw [batchRows, List.length_take, List.length_drop]
      omega
  refine (Action.returns_foldlM (R := fun _ => True) (fun total b hb _ => ?_) trivial).bind
    fun _ _ =>
    Action.returns_pure trivial
  have hb := List.mem_range.mp hb
  obtain ⟨hreadx, hcountx⟩ := hbatch hinputs rfl hb
  obtain ⟨hready, hcounty⟩ := hbatch htargets hlength hb
  refine (Action.returns_read fun _ _ => ⟨_, hreadx, rfl⟩).bind fun x hx' =>
    (Action.returns_read fun _ _ => ⟨_, hready, rfl⟩).bind fun y hy' => ?_
  refine (returns_trainStep hmode hfilled hinput hlabel hasks descent ?_ ?_).bind fun _ _ =>
    Action.returns_pure trivial
  · rw [← hx', hx, Tensor.ofRows, Tensor.shape_ofFn, hcountx]
  · rw [← hy', hy, Tensor.ofRows, Tensor.shape_ofFn, hcounty]

end Running

/-- A network that can be made ready is trained without a fault on rows that fit. -/
theorem exists_train {asks : (Shape → List Shape) → Prop} {inputs targets : List (List α)}
    {plan : TrainingPlan ρ} (input label : TensorRef) (inputWidth targetWidth : Nat)
    (h : Sound asks n)
    (hasks : ∀ shapes, asks shapes → ∃ asking : GradientDescent ρ, shapes = asking.stateShapes)
    (hasked : asks (⟨plan.learningRate, plan.momentum⟩ : GradientDescent ρ).stateShapes)
    (hcount : (inputs.isEmpty || inputs.length != targets.length) = false)
    (hprepared : n.isPrepared = true)
    (hready :
      readyToTrain ⟨plan.learningRate, plan.momentum⟩ (min (max plan.batchSize 1) inputs.length) n =
      .ok u n₀) (hinput : n₀.inputs = [input]) (hlabel : n₀.labels = [label])
    (hx : n₀.store.shape input = .ok ⟨min (max plan.batchSize 1) inputs.length, inputWidth⟩)
    (hy : n₀.store.shape label = .ok ⟨min (max plan.batchSize 1) inputs.length, targetWidth⟩)
    (hinputs : ∀ row ∈ inputs, row.length = inputWidth)
    (htargets : ∀ row ∈ targets, row.length = targetWidth)
    (htarget : targetWidth = (targets.headD []).length) :
    ∃ history n', train inputs targets plan n = .ok history n' := by
  have hr : Ready asks .train n₀ := ready_of_readyToTrain h hprepared hasked hready
  have hlength : inputs.length = targets.length := by simpa using (Bool.or_eq_false_iff.mp hcount).2
  have hepochs : Action.Returns (Running asks n₀) ((List.range plan.epochs).mapM fun _ =>
      trainEpoch ⟨plan.learningRate, plan.momentum⟩ inputs targets
        (min (max plan.batchSize 1) inputs.length) inputWidth targetWidth) fun _ => True :=
    Action.returns_mapM fun _ _ => returns_trainEpoch hr.allocated hr.filled
      hinput hlabel hasks _ hx hy hlength.symm hinputs htargets
  obtain ⟨history, n', hrun, -⟩ := hepochs n₀ ⟨hr.prepared, hr.framed⟩
  have hshapes : n₀.inputShapes = .ok [⟨min (max plan.batchSize 1) inputs.length, inputWidth⟩] := by
    rw [inputShapes, hinput, List.mapM_cons, hx]
    rfl
  refine ⟨history, n', ?_⟩
  unfold train
  refine Action.guard_eq_ok_iff.mpr ⟨by rw [hcount]; exact Bool.false_ne_true,
    (Action.bind_of_ok (Action.get_apply n)).trans ?_⟩
  refine Action.guard_eq_ok_iff.mpr ⟨by rw [hprepared]; exact Bool.false_ne_true,
    (Action.bind_of_ok hready).trans ?_⟩
  refine (Action.bind_of_ok (Action.read_of_ok hshapes)).trans ?_
  rw [← htarget]
  exact hrun

/-- Training that ends well is mini-batch gradient descent. It goes on from the weights and the
velocities that a network has, or from velocities that are zero if its weights have not been filled
yet. Its batches are as large as is asked for, but not larger than there are rows, and rows that do
not fill a batch are left out. -/
theorem miniBatchDescent_of_train {loss : Option String} {inputNames labelNames : List String}
    {inputs targets : List (List α)} {plan : TrainingPlan ρ} {history : List α} (hd : Draft d)
    (hbuild : build loss inputNames labelNames d = .ok u n₀)
    (hcalls : Relation.ReflTransGen Call n₀ n)
    (hsource : (n.graph.nodes.filter (·.isSource)).length = 1)
    (hloss : (n.graph.nodes.filter (·.isLoss)).length = 1) (hunmixed : Unmixed n.graph)
    (hrun : train inputs targets plan n = .ok history n') :
    ∃ n₁ input,
      readyToTrain ⟨plan.learningRate, plan.momentum⟩ (min (max plan.batchSize 1) inputs.length) n =
        .ok () n₁ ∧
      n₁.inputShapes = .ok [input] ∧ targets.length = inputs.length ∧
      (n.store.hasWeights = true → n₁.weightHeld = n.weightHeld) ∧
      (n.store.hasWeights = false → ∀ w value state, n₁.weightHeld w = .ok (value, state) →
        ∀ v ∈ state, v = .zeros v.shape) ∧
      n₁.miniBatchDescent ⟨plan.learningRate, plan.momentum⟩ inputs targets plan.epochs
        (min (max plan.batchSize 1) inputs.length) input.width (targets.headD []).length
        n₁.weightHeld = .ok history n'.weightHeld := by
  obtain ⟨_, m₀, hcompile, hprepare⟩ := Action.bind_eq_ok_iff.mp hbuild
  have hn := (descends_refl (drawn_of_compile hd hcompile) hprepare n.batchSize).of_calls hcalls
  unfold train at hrun
  obtain ⟨hcount, hrun⟩ := Action.guard_eq_ok_iff.mp hrun
  obtain ⟨_, _, hget, hrun⟩ := Action.bind_eq_ok_iff.mp hrun
  cases hget
  obtain ⟨-, hrun⟩ := Action.guard_eq_ok_iff.mp hrun
  obtain ⟨_, n₁, hready, hrun⟩ := Action.bind_eq_ok_iff.mp hrun
  obtain ⟨shapes, _, hread, hrun⟩ := Action.bind_eq_ok_iff.mp hrun
  obtain ⟨hshapes, rfl⟩ := Action.read_eq_ok_iff.mp hread
  obtain ⟨hn₁, hreadied⟩ := readied_of_readyToTrain hn hready
  have htasks : SameTasks n.graph n₁.graph := hn.sameTasks.symm.trans hn₁.sameTasks
  split at hrun
  · next input =>
    have hsource₁ : (n₁.graph.nodes.filter (·.isSource)).length = 1 := by
      rw [length_filter_of_tasks htasks
        fun a b hlayer => by rw [Node.isSource, Node.isSource, hlayer], hsource]
    have hloss₁ : (n₁.graph.nodes.filter (·.isLoss)).length = 1 := by
      rw [length_filter_of_tasks htasks fun a b hlayer => by rw [Node.isLoss, Node.isLoss, hlayer],
        hloss]
    obtain ⟨_, _, hdescent, hholds, rfl⟩ :=
      follows_epochs hsource₁ hloss₁ (hunmixed.of_tasks htasks) hreadied.apart
      (fun hpositive w r hr htrained => hreadied.velocity hpositive r (List.mem_of_getElem? hr)
        (hreadied.ready.prepared.trainable hr htrained))
      inputs targets plan.epochs _ _ _ n₁ n₁.weightHeld history n' ⟨hreadied.ready,
        hreadied.ready.framed, rfl⟩ hrun
    obtain rfl := hholds.held
    have hlength : targets.length = inputs.length := by
      simp only [Bool.or_eq_true, bne_iff_ne, ne_eq, not_or, not_not] at hcount
      exact hcount.2.symm
    exact ⟨n₁, input, hready, hshapes, hlength, hreadied.kept, hreadied.fresh, hdescent⟩
  · cases hrun

/-- A layer that is trained with the mean squared error, drafted for a batch of one. -/
def trainee : Network ℚ :=
  (add (.ofLayer (.loss .mse) "z" [⟨"y", 0⟩])).after
    ((add (.ofLayer (.fullyConnected 1 (.constant (1 / 2)) .zeros) "y" [⟨"x", 0⟩])).after
      ((add (.ofLayer (.input 1) "x" [])).after (ofSettings ⟨1, true, none, []⟩)))

theorem draft_trainee : Draft trainee :=
  keeps_draft_add (Node.isPlain_ofLayer rfl _ _) _ (keeps_draft_add (Node.isPlain_ofLayer rfl _ _) _
    (keeps_draft_add (Node.isPlain_ofLayer rfl _ _) _ (draft_ofSettings _)))

/-- What compiling makes of it. -/
def traineeCompiled : Network ℚ :=
  { (ofSettings ⟨1, true, none, []⟩ : Network ℚ) with
    graph := ⟨[
      { Node.ofLayer (.input 1) "x" [] with outputs := [[⟨"y", 0⟩]] },
      { Node.ofLayer (.fullyConnected 1 (.constant (1 / 2)) .zeros) "y" [⟨"x", 0⟩] with
        outputs := [[⟨"z", 0⟩]], schedule := .bothWays 1 1 3, collectsGradients := true },
      { Node.ofLayer (.loss .mse) "z" [⟨"y", 0⟩] with
        schedule := .bothWays 2 0 3, passesDerivatives := true, bufferUse := .view }], [0, 1, 2]⟩
    store := (Store.empty true none).setBounds 3 6
    isCompiled := true }

theorem compile_trainee : compile none trainee = .ok () traineeCompiled := by cbv

/-- What preparing it comes to. -/
def traineeBuilt : Network ℚ := (prepare [] []).after traineeCompiled

theorem build_trainee : build none [] [] trainee = .ok () traineeBuilt :=
  (Action.bind_of_ok compile_trainee).trans (Action.eq_ok_of_endsWell (by decide +kernel))

/-- Two epochs with momentum on three rows, the last of which never fills a batch of two. -/
def traineePlan : TrainingPlan ℚ := ⟨2, 1 / 10, 1 / 2, 2⟩

theorem reached_trainee :
    Reached (fun shapes => ∃ asking : GradientDescent ℚ, shapes = asking.stateShapes)
      traineeBuilt := by
  have hreached : Reached (fun shapes => ∃ asking : GradientDescent ℚ, shapes = asking.stateShapes)
      ((prepare [] []).after ((compile none).after trainee)) :=
    .prepare _ _
      (.compile _ (.add _ (Node.isPlain_ofLayer rfl _ _) (.add _ (Node.isPlain_ofLayer rfl _ _)
      (.add _ (Node.isPlain_ofLayer rfl _ _) (.settings _)))))
  rwa [Action.after_of_ok compile_trainee] at hreached

/-- What training goes on from. -/
def traineeReadied : Network ℚ :=
  (readyToTrain ⟨traineePlan.learningRate, traineePlan.momentum⟩ 2).after traineeBuilt

theorem readied_trainee : readyToTrain ⟨traineePlan.learningRate,
    traineePlan.momentum⟩ 2 traineeBuilt = .ok () traineeReadied :=
  Action.eq_ok_of_endsWell (by decide +kernel)

theorem trained_trainee : ∃ history n', train [[1], [2], [3]] [[1], [1],
    [1]] traineePlan traineeBuilt = .ok history n' := by
  have hbatch : min (max traineePlan.batchSize 1) [[1], [2], [(3 : ℚ)]].length = 2 := rfl
  have hready : readyToTrain ⟨traineePlan.learningRate, traineePlan.momentum⟩
      (min (max traineePlan.batchSize 1) [[1], [2], [(3 : ℚ)]].length) traineeBuilt =
      .ok () traineeReadied := by
    rw [hbatch]
    exact readied_trainee
  refine exists_train 0 8 1 1 (sound_of_reached reached_trainee) (fun _ h => h) ⟨_, rfl⟩ rfl
    (by decide +kernel) hready (by decide +kernel) (by decide +kernel) ?_ ?_ (by decide)
      (by decide) (by decide)
  · rw [hbatch]
    decide +kernel
  · rw [hbatch]
    decide +kernel

theorem trainee_miniBatchDescent :
    ∃ history n', train [[1], [2], [3]] [[1], [1], [1]] traineePlan traineeBuilt = .ok history n' ∧
    (∀ w value state, traineeReadied.weightHeld w = .ok (value, state) →
      ∀ v ∈ state, v = .zeros v.shape) ∧
    traineeReadied.miniBatchDescent ⟨traineePlan.learningRate, traineePlan.momentum⟩
      [[1], [2], [3]] [[1], [1], [1]] 2 2 1 1 traineeReadied.weightHeld =
        .ok history n'.weightHeld := by
  obtain ⟨history, n', hrun⟩ := trained_trainee
  have hbatch : min (max traineePlan.batchSize 1) [[1], [2], [(3 : ℚ)]].length = 2 := rfl
  have hmain := miniBatchDescent_of_train draft_trainee build_trainee .refl (by decide +kernel)
    (by decide +kernel) (by decide +kernel) hrun
  rw [hbatch] at hmain
  obtain ⟨n₁, input, hready, hshapes, -, -, hfresh, hdescent⟩ := hmain
  have heq : n₁ = traineeReadied := (EStateM.Result.ok.inj (hready.symm.trans readied_trainee)).2
  have hinput : traineeReadied.inputShapes = .ok [⟨2, 1⟩] := by decide +kernel
  rw [heq] at hshapes hfresh hdescent
  rw [List.singleton_inj.mp (Except.ok.inj (hshapes.symm.trans hinput))] at hdescent
  have hempty : traineeBuilt.store.hasWeights = false := by decide +kernel
  exact ⟨history, n', hrun, hfresh hempty, hdescent⟩

end Network

end LayerGraph
