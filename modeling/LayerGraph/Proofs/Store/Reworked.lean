import LayerGraph.Proofs.Store.Loaded
import LayerGraph.Proofs.Store.Memory
import LayerGraph.Proofs.Store.Tables

/-!
# What is done to a store once its tables are complete

Allocating, filling, releasing, writing and the rest keep what is registered: the tables only grow,
no weight changes its gradient steps, what is held has the right shape, and optimizer state has a
shape that has been asked for.
-/

namespace LayerGraph.Store

variable {α : Type} {s s' : Store α} {batch : Nat} {asks : (Shape → List Shape) → Prop}

/-- Optimizer state has one of the shapes that some request has given for the shape of the
weight. -/
def Asked (asks : (Shape → List Shape) → Prop) (s : Store α) : Prop :=
  ∀ (w : Nat) r id, s.weights[w]? = some r → id ∈ r.optimizerState → ∃ shapes e e', asks shapes ∧
    s.entries[id]? = some e ∧ s.entries[r.value]? = some e' ∧ e.shape ∈ shapes e'.shape

theorem Stateless.asked (h : Stateless s) : Asked asks s := by
  intro w r id hw hid
  rw [h r (List.mem_of_getElem? hw)] at hid
  cases hid

/-- Neither weights nor their state change their shapes. -/
theorem Asked.later (h : Asked asks s) (hr : Registry batch s) (hs : s.Extends s')
    (hw : s'.weights = s.weights) : Asked asks s' := by
  intro w r id hr' hid
  rw [hw] at hr'
  obtain ⟨shapes, e, e', hasks, he, he', hmem⟩ := h w r id hr' hid
  have hfixed : ∀ {i : Nat} {e : TensorRecord α}, s.entries[i]? = some e → e.role.isData = false →
      ∃ e', s'.entries[i]? = some e' ∧ e'.shape = e.shape := by
    intro i e he hdata
    obtain ⟨e', he', hb⟩ := hs.entry i e he
    exact ⟨e', he', hb.fixed (by rw [hr.batched i e he, hdata])⟩
  obtain ⟨e₀, he₀, hrole⟩ := hr.state w r id hr' hid
  rw [he] at he₀
  cases he₀
  obtain ⟨e₁, he₁, hrole'⟩ := hr.value w r hr'
  rw [he'] at he₁
  cases he₁
  obtain ⟨f, hf, hshape⟩ := hfixed he (by rw [hrole]; rfl)
  obtain ⟨f', hf', hshape'⟩ := hfixed he' (by rw [hrole']; rfl)
  exact ⟨shapes, f, f', hasks, hf, hf', by rw [hshape, hshape']; exact hmem⟩

structure Reworked (asks : (Shape → List Shape) → Prop) (batch : Nat) (s s' : Store α) : Prop where
  later : s.Extends s'
  registry : Registry batch s'
  weights : s'.weights.map core = s.weights.map core
  forwardSteps : s'.forwardSteps = s.forwardSteps
  allocated : s'.Allocated
  loaded : s'.Loaded
  asked : Asked asks s → Asked asks s'

theorem Reworked.refl (hr : Registry batch s) (ha : s.Allocated) (hl : s.Loaded) :
    Reworked asks batch s s := ⟨.refl s, hr, rfl, rfl, ha, hl, id⟩

theorem Reworked.trans {s₁ s₂ s₃ : Store α} {batch' : Nat} (h : Reworked asks batch' s₁ s₂)
    (h' : Reworked asks batch s₂ s₃) : Reworked asks batch s₁ s₃ :=
  ⟨h.later.trans h'.later, h'.registry, h'.weights.trans h.weights,
    h'.forwardSteps.trans h.forwardSteps, h'.allocated, h'.loaded, fun ha => h'.asked (h.asked ha)⟩

theorem Collected.reworked {uses : WeightRef → List Nat} (h : Collected uses s)
    (hs : Reworked asks batch s s') : Collected uses s' := by
  have hold : ∀ (w : Nat) r', s'.weights[w]? = some r' → ∃ r, s.weights[w]? = some r ∧
      core r = core r' := by
    intro w r' hr'
    have hat : (s'.weights.map core)[w]? = some (core r') := by simp [hr']
    rw [hs.weights] at hat
    simpa using hat
  constructor
  · intro w r' hr'
    obtain ⟨r, hr, heq⟩ := hold w r' hr'
    simp only [core, Prod.mk.injEq] at heq
    rw [← heq.2.2.2.2]
    exact h.gradientSteps w r hr
  · intro w r' hr'
    obtain ⟨r, hr, heq⟩ := hold w r' hr'
    simp only [core, Prod.mk.injEq] at heq
    rw [← heq.2.2.2.1]
    exact h.trainable w r hr
  · intro w r' hr'
    obtain ⟨r, hr, heq⟩ := hold w r' hr'
    simp only [core, Prod.mk.injEq] at heq
    rw [← heq.2.2.1]
    exact h.gradient w r hr
  · intro w r' g t hr' hg ht
    obtain ⟨r, hr, heq⟩ := hold w r' hr'
    simp only [core, Prod.mk.injEq] at heq
    rw [← heq.2.2.1] at hg
    obtain ⟨h₁, h₂⟩ := h.used w r g t hr hg ht
    exact ⟨hs.later.stepsOf h₁, hs.later.stepsOf h₂⟩
  · intro w hw
    have hlen := congrArg List.length hs.weights
    rw [List.length_map, List.length_map] at hlen
    refine h.unused w ?_
    rw [List.getElem?_eq_none_iff] at hw ⊢
    exact hlen ▸ hw

section Layout

/-- A store that differs in its values and slots only. -/
theorem reworked_of_entries (hr : Registry batch s) (he : s'.entries = s.entries)
    (hw : s'.weights = s.weights) (hm : s'.maxStep = s.maxStep)
    (hf : s'.forwardSteps = s.forwardSteps) (ha : s'.Allocated) (hl : s'.Loaded) :
    Reworked asks batch s s' := by
  have hext : s.Extends s' := ⟨fun id e h => ⟨e, by rw [he]; exact h, .refl e⟩,
    fun w r h => ⟨r, by rw [hw]; exact h, rfl, rfl, fun _ h => h⟩, hm⟩
  refine ⟨hext, ?_, by rw [hw], hf, ha, hl, fun h => h.later hr hext hw⟩
  constructor
  · rw [he]; exact hr.ofSource
  · rw [he]; exact hr.batched
  · rw [he]; exact hr.batch
  · rw [he, hm]; exact hr.external
  · rw [he, hw]; exact hr.value
  · rw [he, hw]; exact hr.gradient
  · rw [he, hw]; exact hr.state
  · rw [hw]; exact hr.name_inj
  · rw [hw]; exact hr.value_inj
  · rw [hw]; exact hr.gradient_inj

variable (hr : Registry batch s) (ha : s.Allocated) (hl : s.Loaded)
include hr ha hl

theorem reworked_of_set {id : TensorRef} {v : Tensor α} (h : s.set id v = .ok s') :
    Reworked asks batch s s' :=
  have hlay := sameLayout_of_set h
  reworked_of_entries hr hlay.entries hlay.weights hlay.maxStep hlay.forwardSteps
    (hlay.allocated ha) (loaded_of_set hl h)

omit ha in
theorem reworked_releaseTensors : Reworked asks batch s s.releaseTensors :=
  reworked_of_entries hr rfl rfl rfl rfl (allocated_releaseTensors s) (loaded_releaseTensors hl)

theorem reworked_releaseWeights : Reworked asks batch s s.releaseWeights :=
  reworked_of_entries hr rfl rfl rfl rfl (allocated_releaseWeights ha) (loaded_releaseWeights hl)

theorem reworked_setOptimize (enable : Bool) :
    Reworked asks batch s { s with optimize := enable } :=
  reworked_of_entries hr rfl rfl rfl rfl
    ⟨fun mode hm => (ha.placed mode hm).of_entries rfl rfl rfl fun _ _ _ => Iff.rfl, ha.empty⟩
    ⟨hl.slots, hl.persistent, hl.filled⟩

theorem reworked_allocate (mode : RunMode) : Reworked asks batch s ((allocate mode).after s) :=
  have h := (reallocated_allocate ha hl mode).1
  reworked_of_entries hr h.entries h.weights h.maxStep h.forwardSteps h.allocated h.loaded

end Layout

section Rebatch

theorem exists_rebatch (h : s.hasTensors = false) (batch : Nat) :
    ∃ s', rebatch batch s = .ok () s' ∧ s'.mode = s.mode :=
  ⟨_, rebatch_eq_ok_iff.mpr ⟨h, rfl⟩, rfl⟩

theorem reworked_rebatch (hr : Registry batch s) (ha : s.Allocated) (hl : s.Loaded) {batch' : Nat}
    {u : Unit} (h : rebatch batch' s = .ok u s') : Reworked asks batch' s s' := by
  obtain ⟨hmode, rfl⟩ := rebatch_eq_ok_iff.mp h
  have hmode : s.mode = none := by simpa [hasTensors] using hmode
  have hat : ∀ (id : Nat) e', (s.entries.map (·.rebatched batch'))[id]? = some e' →
      ∃ e, s.entries[id]? = some e ∧ e.Becomes e' ∧ (e.batched = true → e'.shape.batch = batch') ∧
        e'.steps = e.steps := by
    intro id e' he'
    rw [List.getElem?_map] at he'
    obtain ⟨e, he, rfl⟩ := Option.map_eq_some_iff.mp he'
    refine ⟨e, he, e.becomes_rebatched batch', fun hb => ?_, ?_⟩
    · rw [TensorRecord.shape_rebatched hb]
      rfl
    · rw [TensorRecord.rebatched_eq]
  have hnew : ∀ (id : Nat) e, s.entries[id]? = some e → ∃ e',
      (s.entries.map (·.rebatched batch'))[id]? = some e' ∧
      e.Becomes e' := by
    intro id e he
    exact ⟨_, by rw [List.getElem?_map, he]; rfl, e.becomes_rebatched batch'⟩
  have hext : s.Extends { s with entries := s.entries.map (·.rebatched batch') } :=
    extends_of_entries hnew
  have hkeptBatched : ∀ (id : Nat) e, s.entries[id]? = some e → e.role.isKept = true →
      e.batched = false := by
    intro id e he hk
    rw [hr.batched id e he]
    cases hrole : e.role <;> simp_all [Role.isKept, Role.isData]
  refine ⟨hext, ?_, rfl, rfl, ⟨fun mode hm => ?_, fun _ => ha.empty hmode⟩, ?_,
    fun h => h.later hr hext rfl⟩
  · have hdata : ∀ (id : Nat) e', (s.entries.map (·.rebatched batch'))[id]? = some e' →
        e'.role.isData = true → e'.shape.batch = batch' := by
      intro id e' he' hd
      obtain ⟨e, he, hb, hbatch, -⟩ := hat id e' he'
      exact hbatch (by rw [hr.batched id e he, ← hb.role]; exact hd)
    constructor
    · intro id e' r he' hs
      obtain ⟨e, he, hb, -⟩ := hat id e' he'
      obtain ⟨hd, e₁, he₁, hs₁, hrole₁, hsh₁⟩ := hr.ofSource id e r he (hb.source ▸ hs)
      obtain ⟨e₁', he₁', hb₁⟩ := hnew r e₁ he₁
      have hd' : e'.role.isData = true := by rw [hb.role]; exact hd
      have hrole : e₁'.role = e'.role := hb₁.role.trans (hrole₁.trans hb.role.symm)
      refine ⟨hd', e₁', he₁', hb₁.source.trans hs₁, hrole, Shape.eq_of_axes ?_ ?_⟩
      · rw [hdata id e' he' hd', hdata r e₁' he₁' (by rw [hrole]; exact hd')]
      · rw [hb₁.width, hsh₁, hb.width]
    · intro id e' he'
      obtain ⟨e, he, hb, -⟩ := hat id e' he'
      rw [hb.batched, hb.role]
      exact hr.batched id e he
    · exact hdata
    · intro id e' he' hs hrole
      obtain ⟨e, he, hb, -, hsteps⟩ := hat id e' he'
      rw [hsteps]
      exact hr.external id e he (hb.source ▸ hs) (hb.role ▸ hrole)
    · intro w r hw
      obtain ⟨e, he, hrole⟩ := hr.value w r hw
      obtain ⟨e', he', hb⟩ := hnew _ e he
      exact ⟨e', he', hb.role.trans hrole⟩
    · intro w r g hw hg
      obtain ⟨e, e₁, he, hrole, he₁, hsh⟩ := hr.gradient w r g hw hg
      obtain ⟨e', he', hb⟩ := hnew _ e he
      obtain ⟨e₁', he₁', hb₁⟩ := hnew _ e₁ he₁
      have hf : e.batched = false := by rw [hr.batched _ e he, hrole]; rfl
      have hf₁ : e₁.batched = false := by
        obtain ⟨e₂, he₂, hrole₂⟩ := hr.value w r hw
        rw [he₁] at he₂
        cases he₂
        rw [hr.batched _ e₁ he₁, hrole₂]
        rfl
      exact ⟨e', e₁', he', hb.role.trans hrole, he₁',
        (hb.fixed hf).trans (hsh.trans (hb₁.fixed hf₁).symm)⟩
    · intro w r id hw hid
      obtain ⟨e, he, hrole⟩ := hr.state w r id hw hid
      obtain ⟨e', he', hb⟩ := hnew _ e he
      exact ⟨e', he', hb.role.trans hrole⟩
    · exact hr.name_inj
    · exact hr.value_inj
    · exact hr.gradient_inj
  · rw [show s.mode = some mode from hm] at hmode
    cases hmode
  · refine ⟨fun k r v hs => ?_, fun r v hv => ?_, fun hw id e' he' hk => ?_⟩
    · rw [(ha.empty hmode).1] at hs
      cases hs
    · obtain ⟨e, he, hk, hshape⟩ := hl.persistent r v hv
      obtain ⟨e', he', hb⟩ := hnew r e he
      exact ⟨e', he', by rw [hb.role]; exact hk,
        hshape.trans (hb.fixed (hkeptBatched r e he hk)).symm⟩
    · obtain ⟨e, he, hb, -⟩ := hat id e' he'
      exact hl.filled hw id e he (hb.role ▸ hk)

end Rebatch

section Fill

variable [Scalar α]

theorem nodup_filled (entries : List (TensorRecord α)) : ((entries.zipIdx.filterMap fun (e, id) =>
    if isKeptRoot e then some (id, e.initializer.fill id e.shape) else none).map (·.1)).Nodup := by
  refine nodup_map_fst_filterMap_zipIdx (fun p q h => ?_) entries
  dsimp only at h
  split at h
  · cases h
    rfl
  · cases h

/-- The values that filling gives. -/
theorem lookup_filled {entries : List (TensorRecord α)} {id : Nat} {v : Tensor α} :
    (entries.zipIdx.filterMap fun (e, id) =>
      if isKeptRoot e then some (id, e.initializer.fill id e.shape) else none).lookup id = some v ↔
      ∃ e, entries[id]? = some e ∧ isKeptRoot e = true ∧ e.initializer.fill id e.shape = v := by
  have hnodup := nodup_filled entries
  rw [lookup_eq_some_iff_mem hnodup, List.mem_filterMap]
  constructor
  · rintro ⟨⟨e, i⟩, hmem, h⟩
    dsimp only at h
    split at h
    · next hk =>
      cases h
      exact ⟨e, List.mem_zipIdx_iff_getElem?.mp hmem, hk, rfl⟩
    · cases h
  · rintro ⟨e, he, hk, rfl⟩
    exact ⟨(e, id), List.mem_zipIdx_iff_getElem?.mpr he, by simp [hk]⟩

/-- What has been filled can be read. -/
theorem get_of_filled {id : TensorRef} {e : TensorRecord α} (he : s.entries[id]? = some e)
    (hk : isKeptRoot e = true) (maxStep : Nat) : (s.filled maxStep).get id =
      .ok (e.initializer.fill id e.shape) := by
  obtain ⟨hsource, hkept⟩ := Bool.and_eq_true_iff.mp hk
  have heq := (e.lasting_eq maxStep).1
  have hentry : (s.filled maxStep).entries[id]? = some (e.lasting maxStep) :=
    List.getElem?_map.trans (by rw [he]; rfl)
  have hnone : (e.lasting maxStep).source = none := by
    rw [heq]
    exact Option.isNone_iff_eq_none.mp hsource
  rw [get_of_kept (backing_of_source_eq_none hentry hnone) (by rw [heq]; exact hkept),
    rootOf_of_source_eq_none hentry hnone, show (s.filled maxStep).persistent.lookup id = _ from
      lookup_filled.mpr ⟨e, he, hk, rfl⟩]

theorem reworked_filled (hr : Registry batch s) (ha : s.Allocated) (hl : s.Loaded)
    (maxStep : Nat) : Reworked asks batch s (s.filled maxStep) := by
  have hentries : ∀ id : Nat, (s.entries.map (·.lasting maxStep))[id]? =
      (s.entries[id]?).map (·.lasting maxStep) := fun id => List.getElem?_map
  have hshape : ∀ e : TensorRecord α, (e.lasting maxStep).shape = e.shape := fun e => by
    rw [(e.lasting_eq maxStep).1]
  have hrole : ∀ e : TensorRecord α, (e.lasting maxStep).role = e.role := fun e => by
    rw [(e.lasting_eq maxStep).1]
  have hroot : ∀ (id : Nat) e, s.entries[id]? = some e → e.role.isKept = true →
      isKeptRoot e = true := by
    intro id e he hk
    simp [isKeptRoot, hk, hr.source_eq_none he (Role.isData_eq_false_of_isKept hk)]
  have hext := extends_of_entries (s := s) fun id e he =>
    ⟨_, by rw [hentries, he]; rfl, e.becomes_lasting maxStep⟩
  refine ⟨⟨hext.entry, hext.weight, hext.maxStep⟩, ?_, rfl, rfl, ⟨fun mode hm => ?_, ha.empty⟩, ?_,
    fun h => h.later hr ⟨hext.entry, hext.weight, hext.maxStep⟩ rfl⟩
  · have := hr.map (f := fun _ e => e.lasting maxStep) hentries fun id e => by
      have hb := e.becomes_lasting maxStep
      exact ⟨hb.source, hb.role, hshape e, hb.batched, hb.steps⟩
    exact ⟨this.ofSource, this.batched, this.batch, this.external, this.value, this.gradient,
      this.state, this.name_inj, this.value_inj, this.gradient_inj⟩
  · refine (ha.placed mode hm).of_entries rfl rfl rfl fun id e hk => ?_
    rw [show (s.filled maxStep).entries[id]? = _ from hentries id]
    constructor
    · intro h
      obtain ⟨e₀, he₀, rfl⟩ := Option.map_eq_some_iff.mp h
      rw [he₀, TensorRecord.lasting_of_not_kept (by rw [← hrole e₀]; exact hk)]
    · intro h
      rw [h, Option.map_some, TensorRecord.lasting_of_not_kept hk]
  · refine ⟨fun k r v hs => ?_, fun r v hv => ?_, fun _ id e he hk => ?_⟩
    · obtain ⟨e, he, hv⟩ := hl.slots k r v hs
      exact ⟨_, by rw [show (s.filled maxStep).entries[r]? = _ from hentries r, he]; rfl,
        hv.trans (hshape e).symm⟩
    · obtain ⟨e, he, hk, rfl⟩ := lookup_filled.mp hv
      refine ⟨_, by rw [show (s.filled maxStep).entries[r]? = _ from hentries r, he]; rfl, ?_, ?_⟩
      · rw [hrole]
        exact (Bool.and_eq_true_iff.mp hk).2
      · exact (Initializer.shape_fill _ _ _).trans (hshape e).symm
    · rw [show (s.filled maxStep).entries[id]? = _ from hentries id] at he
      obtain ⟨e₀, he₀, rfl⟩ := Option.map_eq_some_iff.mp he
      rw [hrole] at hk
      exact ⟨_, lookup_filled.mpr ⟨e₀, he₀, hroot id e₀ he₀ hk, rfl⟩⟩

theorem reworked_fillWeights (hr : Registry batch s) (ha : s.Allocated) (hl : s.Loaded)
    (maxStep : Nat) : Reworked asks batch s ((fillWeights maxStep).after s) := by
  rcases after_fillWeights maxStep s with hsame | ⟨-, hok⟩
  · rw [hsame]
    exact .refl hr ha hl
  · rw [Action.after_of_ok hok]
    exact reworked_filled hr ha hl maxStep

end Fill

section States

/-- One more entry for optimizer state that belongs to a weight. -/
theorem reworked_addState (hr : Registry batch s) (ha : s.Allocated) (hl : s.Loaded)
    (hw : s.hasWeights = false) (w : WeightRef) {e : TensorRecord α}
    (hrole : e.role = .optimizerState) (hbatched : e.batched = false) (hsource : e.source = none)
    (hasks : ∀ r, s.weights[w]? = some r →
      ∃ shapes e', asks shapes ∧ s.entries[r.value]? = some e' ∧ e.shape ∈ shapes e'.shape) :
    Reworked asks batch s { s with
      entries := s.entries ++ [e]
      weights := s.weights.modify w fun r =>
        { r with optimizerState := r.optimizerState ++ [s.entries.length] } } := by
  have hdata : e.role.isData = false := by rw [hrole]; rfl
  have hpush := hr.push (e := e) (by rw [hbatched, hdata]) (fun h => by rw [hdata] at h; cases h)
    (fun r h => by rw [hsource] at h; cases h) (fun _ h => by rw [hrole] at h; cases h)
  have hnew : (s.entries ++ [e])[s.entries.length]? = some e := List.getElem?_concat_length
  have hold : ∀ (id : Nat) e', s.entries[id]? = some e' → (s.entries ++ [e])[id]? = some e' := by
    intro id e' he
    rw [List.getElem?_append_left (List.getElem?_eq_some_iff.mp he).1]
    exact he
  refine ⟨(extends_push s e).trans (extends_modifyWeight _ w _ fun r => ⟨rfl, rfl, fun _ h => h⟩),
    ?_, ?_, rfl, ⟨fun mode hm => ?_, ha.empty⟩, ?_, fun h w' r id hr' hid => ?_⟩
  · refine hpush.modifyWeight (fun _ => ⟨rfl, rfl⟩) (fun _ _ _ hg => .inl hg) fun r id hr' hid => ?_
    rcases List.mem_append.mp hid with hid | hid
    · exact hpush.state w r id hr' hid
    · obtain rfl := List.mem_singleton.mp hid
      exact ⟨e, hnew, hrole⟩
  · refine map_modify_eq (f := core) ?_ s.weights w
    intro r
    rfl
  · refine (ha.placed mode hm).of_entries rfl rfl rfl fun id e' hk => ⟨fun he => ?_, hold id e'⟩
    rw [List.getElem?_append] at he
    split at he
    · exact he
    · have heq : e' = e := List.mem_singleton.mp (List.mem_of_getElem? he)
      rw [heq, hrole] at hk
      cases hk
  · refine hl.withEntries (fun id e' he => ⟨e', hold id e' he, rfl, rfl⟩) fun h => ?_
    rw [hw] at h
    cases h
  · have hkept : ∀ r₀, s.weights[w']? = some r₀ → id ∈ r₀.optimizerState → r₀.value = r.value →
        ∃ shapes e₁ e', asks shapes ∧ (s.entries ++ [e])[id]? = some e₁ ∧
          (s.entries ++ [e])[r.value]? = some e' ∧ e₁.shape ∈ shapes e'.shape := by
      intro r₀ hr₀ hid₀ hv
      obtain ⟨shapes, e₁, e', hsh, he₁, he', hmem⟩ := h w' r₀ id hr₀ hid₀
      exact ⟨shapes, e₁, e', hsh, hold _ _ he₁, hold _ _ (hv ▸ he'), hmem⟩
    rw [List.getElem?_modify] at hr'
    obtain ⟨r₀, hr₀, rfl⟩ := Option.map_eq_some_iff.mp hr'
    split at hid
    · next hww =>
      subst hww
      rw [if_pos rfl] at hkept ⊢
      rcases List.mem_append.mp hid with hid | hid
      · exact hkept r₀ hr₀ hid rfl
      · obtain rfl := List.mem_singleton.mp hid
        obtain ⟨shapes, e', hsh, he', hmem⟩ := hasks r₀ hr₀
        exact ⟨shapes, e, e', hsh, hnew, hold _ _ he', hmem⟩
    · next hww =>
      rw [if_neg hww] at hkept ⊢
      exact hkept r₀ hr₀ hid rfl

theorem reworked_pushState (hr : Registry batch s) (ha : s.Allocated) (hl : s.Loaded)
    (hw : s.hasWeights = false) (w : WeightRef) (name : String) (shape : Shape)
    (hasks : ∀ r, s.weights[w]? = some r →
      ∃ shapes e', asks shapes ∧ s.entries[r.value]? = some e' ∧ shape ∈ shapes e'.shape) :
    Reworked asks batch s ((pushState w name shape).after s) := by
  cases h : pushState w name shape s with
  | ok u s' =>
    rw [Action.after_of_ok h]
    obtain ⟨_, _, hget, h₁⟩ := Action.bind_eq_ok_iff.mp h
    cases hget
    obtain ⟨id, s₁, hpush, h₂⟩ := Action.bind_eq_ok_iff.mp h₁
    obtain ⟨rfl, rfl⟩ := push_eq_ok hpush
    cases h₂
    exact reworked_addState hr ha hl hw w rfl rfl rfl hasks
  | error e s' =>
    rw [Action.after_of_error h]
    have hsame : s' = s := by
      unfold pushState at h
      simp only [bind, EStateM.bind, Action.get_apply, push] at h
      split at h
      · cases h
      · next heq =>
        cases h
        split at heq
        · cases heq
          rfl
        · cases heq
    rw [hsame]
    exact .refl hr ha hl

/-- What is registered for the weights has the shapes that are asked for. -/
theorem reworked_requestStates (hr : Registry batch s) (ha : s.Allocated) (hl : s.Loaded)
    (hw : s.hasWeights = false) {shapes : Shape → List Shape} (hasks : asks shapes) :
    Reworked asks batch s ((requestStates shapes).after s) := by
  let P := fun s' => Reworked asks batch s s' ∧ s'.hasWeights = false
  have hkeeps : Action.Keeps P (requestStates shapes) := by
    refine Action.keeps_get.bind fun _ => Action.keeps_forM fun w _ => ?_
    intro s₁ hs₁
    obtain ⟨h₁, hw₁⟩ := id hs₁
    refine Action.after_read_bind (P := P) hs₁ fun weight hweight => ?_
    split
    · refine Action.after_read_bind (P := P) hs₁ fun entry hentry => ?_
      have hweight := weight_eq_ok_iff.mp hweight
      have hentry := entry_eq_ok_iff.mp hentry
      obtain ⟨e₀, he₀, hrole⟩ := h₁.registry.value w weight hweight
      rw [hentry] at he₀
      cases he₀
      have hloop : Action.Keeps (fun s' => Reworked asks batch s₁ s' ∧ s'.hasWeights = false)
          ((shapes entry.shape).zipIdx.forM fun p =>
            pushState w (weight.name ++ ":opt" ++ toString p.2) p.1) := by
        refine Action.keeps_forM fun p hp => ?_
        rintro s₂ ⟨h₂, hw₂⟩
        refine ⟨h₂.trans (reworked_pushState h₂.registry h₂.allocated h₂.loaded hw₂ _ _ _ ?_),
          (sameBuffers_pushState s₂ w _ p.1).hasWeights.trans hw₂⟩
        -- The weight still has the shape that it had before the first state was registered.
        intro r hr₂
        obtain ⟨r', hr', -, hv, -⟩ := h₂.later.weight w weight hweight
        rw [hr₂] at hr'
        cases hr'
        obtain ⟨e', he', hb⟩ := h₂.later.entry _ entry hentry
        refine ⟨shapes, e', hasks, by rw [hv]; exact he', ?_⟩
        rw [hb.fixed (by rw [h₁.registry.batched _ _ hentry, hrole]; rfl)]
        exact List.fst_mem_of_mem_zipIdx hp
      obtain ⟨h₂, hw₂⟩ := hloop s₁ ⟨.refl h₁.registry h₁.allocated h₁.loaded, hw₁⟩
      exact ⟨h₁.trans h₂, hw₂⟩
    · exact hs₁
  exact (hkeeps s ⟨.refl hr ha hl, hw⟩).1

end States

end LayerGraph.Store
