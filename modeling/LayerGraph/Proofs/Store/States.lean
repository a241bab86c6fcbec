import LayerGraph.Proofs.Store.Tables
import LayerGraph.Proofs.Store.Memory

/-!
# What a request for optimizer state leaves

Requests pass over the weights that have some state, and the check counts what each weight has. The
two agree but for weights that have some state and less than is asked for.
-/

namespace LayerGraph

/-- A search through a list ends well if each look does. -/
theorem except_anyM_eq_ok {ε β : Type} {f : β → Except ε Bool} {c : β → Bool} {xs : List β}
    (h : ∀ x ∈ xs, f x = .ok (c x)) : xs.anyM f = .ok (xs.any c) := by
  induction xs with
  | nil => rfl
  | cons x xs ih =>
    rw [List.anyM_cons, h x List.mem_cons_self, except_ok_bind, List.any_cons]
    cases c x with
    | true => rfl
    | false => exact ih fun y hy => h y (List.mem_cons_of_mem x hy)

namespace Store

variable {α : Type} {s s' t : Store α} {shapes : Shape → List Shape}

section Valued

/-- The value of every weight is one of the tensors. -/
def Valued (s : Store α) : Prop := ∀ r ∈ s.weights, r.value < s.entries.length

theorem Valued.mono (h : s.Valued) (hlength : s.entries.length ≤ s'.entries.length)
    (hvalues : s'.weights.map (·.value) = s.weights.map (·.value)) : s'.Valued := by
  intro r hr
  obtain ⟨r₀, hr₀, heq⟩ := exists_of_map_eq hvalues.symm (List.mem_map_of_mem hr)
  exact heq ▸ Nat.lt_of_lt_of_le (h r₀ hr₀) hlength

theorem tensorialAt_valued : TensorialAt (fun _ => True) (Valued (α := α)) where
  added _ _ _ _ h := h.mono (by simp) rfl
  timed _ _ _ _ h := h.mono (by simp) rfl
  ends _ _ := ⟨trivial, trivial⟩

theorem Valued.modify (h : s.Valued) (w : WeightRef) {f : WeightRecord → WeightRecord}
    (hf : ∀ r, (f r).value = r.value) : Valued { s with weights := s.weights.modify w f } :=
  h.mono (Nat.le_refl _) (map_modify_eq hf s.weights w)

theorem keeps_valued_joinWeight (name : String) (shape : Shape) (initializer : Initializer α)
    (trainable : Bool) : Action.Keeps Valued (joinWeight name shape initializer trainable) := by
  refine Action.keeps_get.bind fun s => ?_
  cases s.findWeight? name with
  | some w =>
    refine (Action.keeps_read _).bind fun _ => (Action.keeps_read _).bind fun _ =>
      Action.Keeps.guard ?_
    exact (Action.keeps_modify fun s h => h.modify w fun _ => by rfl).bind fun _ =>
      Action.keeps_pure _
  | none =>
    intro s h
    unfold Action.after push
    dsimp only [bind, EStateM.bind]
    by_cases htaken : (s.entries.any fun e => e.name == name) = true
    · rw [if_pos htaken]
      exact h
    · rw [if_neg htaken]
      intro r hr
      rcases List.mem_append.mp hr with hr | hr
      · exact Nat.lt_of_lt_of_le (h r hr) (by simp)
      · obtain rfl := List.mem_singleton.mp hr
        simp

theorem keeps_valued_gradientOf (w : WeightRef) (name : String) (shape : Shape) :
    Action.Keeps (Valued (α := α)) (gradientOf w name shape) := by
  refine (Action.keeps_read _).bind fun weight => ?_
  cases weight.gradient with
  | some gradient => exact Action.keeps_pure _
  | none =>
    refine (keeps_push tensorialAt_valued rfl (fun h => by cases h) (by simp)).bind fun _ => ?_
    exact (Action.keeps_modify fun s h => h.modify w fun _ => by rfl).bind fun _ =>
      Action.keeps_pure _

theorem keeps_valued_useWeight (name : String) (shape : Shape) (initializer : Initializer α)
    (trainable : Bool) (forwardStep : Nat) (gradientStep : Option Nat) :
    Action.Keeps Valued (useWeight name shape initializer trainable forwardStep gradientStep) := by
  refine (keeps_valued_joinWeight _ _ _ _).bind fun w => (Action.keeps_read _).bind fun weight => ?_
  refine (Action.keeps_modify fun s h => h.mono (by simp) rfl).bind fun _ => ?_
  cases gradientStep with
  | none => exact Action.keeps_pure _
  | some step =>
    dsimp only
    split
    · refine (keeps_valued_gradientOf _ _ _).bind fun gradient =>
        (Action.keeps_modify fun s h => ?_).bind fun _ =>
        Action.keeps_pure _
      exact (h.modify w (f := fun r => { r with gradientSteps := r.gradientSteps ++ [step] })
        fun _ => rfl).mono (by simp) rfl
    · exact Action.keeps_pure _

theorem keeps_valued_requestStates (shapes : Shape → List Shape) :
    Action.Keeps (Valued (α := α)) (requestStates shapes) :=
  keeps_requestStates (fun _ _ _ h => h.mono (by simp) rfl)
    (fun s weights hcore h => h.mono (Nat.le_refl _)
      (by simpa [core, Function.comp_def] using congrArg (List.map (·.2.1)) hcore)) shapes

theorem keeps_valued_rebatch (batch : Nat) : Action.Keeps (Valued (α := α)) (rebatch batch) := by
  refine Action.keeps_update fun s s' h hr => ?_
  split at hr
  · cases hr
  · cases hr
    exact h.mono (by simp) rfl

end Valued

section Counts

/-- How many tensors of optimizer state are asked for a weight. -/
def statesAsked (s : Store α) (shapes : Shape → List Shape) (r : WeightRecord) : Nat :=
  match s.entries[r.value]? with
  | some e => (shapes e.shape).length
  | none => 0

theorem statesAsked_of_entry {r : WeightRecord} {e : TensorRecord α}
    (he : s.entries[r.value]? = some e) : s.statesAsked shapes r = (shapes e.shape).length := by
  unfold statesAsked
  rw [he]

/-- The weights that fall short of what is asked for them. -/
def Lacking (s : Store α) (shapes : Shape → List Shape) (r : WeightRecord) : Prop :=
  r ∈ s.weights ∧ r.trainable = true ∧ r.optimizerState.length < s.statesAsked shapes r

instance (s : Store α) (shapes : Shape → List Shape) : Decidable (∃ r, s.Lacking shapes r) :=
  decidable_of_iff (s.weights.any (fun r => r.trainable &&
      decide (r.optimizerState.length < s.statesAsked shapes r)) = true) (by simp [Lacking])

theorem lacksState_of_valued (h : s.Valued) (shapes : Shape → List Shape) :
    ∃ lacks, s.lacksState shapes = .ok lacks ∧ (lacks = true ↔ ∃ r, s.Lacking shapes r) := by
  refine ⟨_, except_anyM_eq_ok (c :=
      fun r => decide (r.optimizerState.length < s.statesAsked shapes r)) ?_, ?_⟩
  · intro r hr
    have he := List.getElem?_eq_getElem (h r (List.mem_of_mem_filter hr))
    rw [entry_eq_ok_iff.mpr he, except_ok_bind, statesAsked_of_entry he]
    rfl
  · simp only [List.any_eq_true, List.mem_filter, decide_eq_true_eq, Lacking, and_assoc]

end Counts

section Requests

theorem pushState_eq_ok {w : WeightRef} {name : String} {shape : Shape} {u : Unit}
    (h : pushState w name shape s = .ok u s') : ∃ e, s' = s.withState w e := by
  obtain ⟨_, _, hget, h⟩ := Action.bind_eq_ok_iff.mp h
  cases hget
  obtain ⟨id, s₁, hpush, h⟩ := Action.bind_eq_ok_iff.mp h
  cases h
  unfold push at hpush
  split at hpush
  · cases hpush
  · cases hpush
    exact ⟨_, rfl⟩

/-- A later store in which the weights `done` have been given the state that is asked for, if they
had none. -/
structure Granted (shapes : Shape → List Shape) (s : Store α) (done : List WeightRef)
    (t : Store α) : Prop where
  entries : s.entries <+: t.entries
  length : t.weights.length = s.weights.length
  weight : ∀ (w : Nat) r, s.weights[w]? = some r →
    ∃ ids, t.weights[w]? = some { r with optimizerState := r.optimizerState ++ ids } ∧
      ids.length = if w ∈ done ∧ r.trainable = true ∧ r.optimizerState = []
        then s.statesAsked shapes r else 0

variable {done : List WeightRef} {w : WeightRef} {r r' : WeightRecord}

/-- What a weight that has not been visited yet is. -/
theorem Granted.weight_of_not_mem (h : Granted shapes s done t) (hw : w ∉ done)
    (hr : s.weights[w]? = some r) : t.weights[w]? = some r := by
  obtain ⟨ids, hr', hids⟩ := h.weight w r hr
  rw [if_neg fun hmem => hw hmem.1] at hids
  rw [hr', List.length_eq_zero_iff.mp hids, List.append_nil]

theorem Granted.statesAsked (h : Granted shapes s done t) (hs : s.Valued) (hr : r ∈ s.weights)
    (hvalue : r'.value = r.value) : t.statesAsked shapes r' = s.statesAsked shapes r := by
  obtain ⟨e, he⟩ : ∃ e, s.entries[r.value]? = some e := ⟨_, List.getElem?_eq_getElem (hs r hr)⟩
  have he' : t.entries[r'.value]? = some e := by
    rw [hvalue, List.prefix_iff_getElem?.mp h.entries r.value (hs r hr), ← he]
    exact (List.getElem?_eq_getElem _).symm
  rw [statesAsked_of_entry he, statesAsked_of_entry he']

theorem Granted.valued (h : Granted shapes s done t) (hs : s.Valued) : t.Valued := by
  refine hs.mono h.entries.length_le (List.ext_getElem? fun w => ?_)
  rw [List.getElem?_map, List.getElem?_map]
  cases hr : s.weights[w]? with
  | none =>
    rw [List.getElem?_eq_none_iff] at hr
    rw [List.getElem?_eq_none_iff.mpr (h.length ▸ hr)]
  | some r =>
    obtain ⟨ids, hr', -⟩ := h.weight w r hr
    rw [hr']
    rfl

/-- Pushing states one by one to a weight that has none. -/
theorem granted_of_pushes (h : Granted shapes s done t) (hw : w ∉ done)
    (hr : s.weights[w]? = some r) (hempty : r.trainable = true ∧ r.optimizerState = [])
    {xs : List (Shape × Nat)} {t' : Store α} {u : PUnit}
    (hlength : xs.length = s.statesAsked shapes r)
    (hrun : (xs.forM fun x => pushState w (r.name ++ ":opt" ++ toString x.2) x.1) t = .ok u t') :
    Granted shapes s (done ++ [w]) t' := by
  have hpushed := Action.forM_prefix (fun sofar t' => t.entries <+: t'.entries ∧
    ∃ ids, ids.length = sofar.length ∧ t'.weights = t.weights.modify w fun r =>
      { r with optimizerState := r.optimizerState ++ ids }) hrun ⟨List.prefix_refl _,
        [], rfl, ?_⟩ ?_
  · obtain ⟨hentries, ids, hids, hweights⟩ := hpushed
    refine ⟨h.entries.trans hentries, by rw [hweights, List.length_modify, h.length],
      fun v r₀ hr₀ => ?_⟩
    rw [hweights, List.getElem?_modify]
    by_cases hv : w = v
    · subst hv
      obtain rfl := Option.some.inj (hr₀.symm.trans hr)
      rw [h.weight_of_not_mem hw hr₀]
      exact ⟨ids, by simp, by rw [if_pos ⟨by simp, hempty⟩, hids, hlength]⟩
    · obtain ⟨ids', hr', hids'⟩ := h.weight v r₀ hr₀
      refine ⟨ids', by simp [hv, hr'], hids'.trans ?_⟩
      simp [Ne.symm hv]
  · simp only [List.append_nil]
    exact (List.modify_id w t.weights).symm
  · intro sofar x rest t₁ t₂ u hxs ⟨hentries, ids, hids, hweights⟩ hpush
    obtain ⟨e, rfl⟩ := pushState_eq_ok hpush
    refine ⟨hentries.trans (List.prefix_append _ _), ids ++ [t₁.entries.length], by simp [hids], ?_⟩
    simp only [withState, hweights, List.modify_modify_eq]
    congr 1
    funext r
    simp

/-- A request visits one weight after the other. -/
theorem granted_of_requestStates (hs : s.Valued) {u : Unit}
    (h : requestStates shapes s = .ok u s') :
    Granted shapes s (List.range s.weights.length) s' := by
  obtain ⟨_, _, hget, h⟩ := Action.bind_eq_ok_iff.mp h
  cases hget
  refine Action.forM_prefix (Granted shapes s) h ⟨List.prefix_refl _, rfl,
    fun w r hr => ⟨[], by simpa using hr, by simp⟩⟩ ?_
  intro done w rest t t' u hrange hgranted hrun
  have hw : w ∉ done := by
    have hnodup := List.nodup_range (n := s.weights.length)
    rw [hrange] at hnodup
    exact fun hmem => (List.disjoint_of_nodup_append hnodup) hmem List.mem_cons_self
  have hlt : w < s.weights.length := List.mem_range.mp (hrange ▸ by simp)
  have hr₀ := List.getElem?_eq_getElem hlt
  obtain ⟨r, _, hread, hrun⟩ := Action.bind_eq_ok_iff.mp hrun
  obtain ⟨hr, rfl⟩ := Action.read_eq_ok_iff.mp hread
  have hr := weight_eq_ok_iff.mp hr
  obtain rfl := Option.some.inj ((hgranted.weight_of_not_mem hw hr₀).symm.trans hr)
  split at hrun
  · next hempty =>
    rw [Bool.and_eq_true, List.isEmpty_iff] at hempty
    obtain ⟨e, _, hread, hrun⟩ := Action.bind_eq_ok_iff.mp hrun
    obtain ⟨he, rfl⟩ := Action.read_eq_ok_iff.mp hread
    have he := entry_eq_ok_iff.mp he
    refine granted_of_pushes hgranted hw hr₀ hempty ?_ hrun
    rw [List.length_zipIdx, ← hgranted.statesAsked hs (List.getElem_mem hlt) rfl,
      statesAsked_of_entry he]
  · next hskip =>
    cases hrun
    refine ⟨hgranted.entries, hgranted.length, fun v r hv => ?_⟩
    obtain ⟨ids, hr', hids⟩ := hgranted.weight v r hv
    refine ⟨ids, hr', hids.trans ?_⟩
    by_cases hvw : v = w
    · subst hvw
      obtain rfl := Option.some.inj (hr₀.symm.trans hv)
      have hnot : ¬ (s.weights[v].trainable = true ∧ s.weights[v].optimizerState = []) := by
        simpa [List.isEmpty_iff] using hskip
      rw [if_neg fun hc => hnot hc.2, if_neg fun hc => hnot hc.2]
    · simp [hvw]

variable (h : Granted shapes s (List.range s.weights.length) t) (hs : s.Valued)
include h

/-- What a weight has been given once all have been visited. -/
theorem Granted.exists_ids (hr : s.weights[w]? = some r) :
    ∃ ids, t.weights[w]? = some { r with optimizerState := r.optimizerState ++ ids } ∧
      (r.optimizerState = [] → r.trainable = true → ids.length = s.statesAsked shapes r) ∧
      (r.optimizerState ≠ [] → ids = []) := by
  obtain ⟨ids, hr', hids⟩ := h.weight w r hr
  have hmem : w ∈ List.range s.weights.length :=
    List.mem_range.mpr (List.getElem?_eq_some_iff.mp hr).1
  refine ⟨ids, hr', fun hempty htrains => ?_, fun hne => ?_⟩
  · rw [hids, if_pos ⟨hmem, htrains, hempty⟩]
  · rw [if_neg fun hc => hne hc.2.2] at hids
    exact List.length_eq_zero_iff.mp hids

include hs

/-- Only those that had some state before may still fall short. -/
theorem Granted.lacking_iff : (∃ r, t.Lacking shapes r) ↔ ∃ r, s.Lacking shapes r ∧
    r.optimizerState ≠ [] := by
  constructor
  · rintro ⟨r', hr', htrains, hlt⟩
    obtain ⟨w, hw⟩ := List.getElem?_of_mem hr'
    have hlength : w < s.weights.length := h.length ▸ (List.getElem?_eq_some_iff.mp hw).1
    have hr := List.getElem?_eq_getElem hlength
    have hmem := List.getElem_mem hlength
    obtain ⟨ids, hgiven, hfresh, hkept⟩ := h.exists_ids hr
    obtain rfl := Option.some.inj (hgiven.symm.trans hw)
    have hasked : t.statesAsked shapes
        { s.weights[w] with optimizerState := s.weights[w].optimizerState ++ ids } =
        s.statesAsked shapes s.weights[w] := h.statesAsked hs hmem rfl
    rw [hasked] at hlt
    have hne : s.weights[w].optimizerState ≠ [] := by
      intro hempty
      rw [List.length_append, hempty, hfresh hempty htrains] at hlt
      simp at hlt
    rw [hkept hne, List.append_nil] at hlt
    exact ⟨_, ⟨hmem, htrains, hlt⟩, hne⟩
  · rintro ⟨r, ⟨hr, htrains, hlt⟩, hne⟩
    obtain ⟨w, hw⟩ := List.getElem?_of_mem hr
    obtain ⟨ids, hgiven, -, hkept⟩ := h.exists_ids hw
    rw [hkept hne, List.append_nil] at hgiven
    exact ⟨r, List.mem_of_getElem? hgiven, htrains, by rw [h.statesAsked hs hr rfl]; exact hlt⟩

/-- The same request once more gives nothing to anyone. -/
theorem Granted.requestStates : requestStates shapes t = .ok () t := by
  have hrun : ∃ t', Store.requestStates shapes t = .ok () t' ∧ t' = t := by
    refine Action.exists_forM (fun _ t' => t' = t) rfl ?_
    rintro done w rest _ hrange rfl
    refine ⟨_, ?_, rfl⟩
    have hlt : w < s.weights.length := h.length ▸ List.mem_range.mp (hrange ▸ by simp)
    obtain ⟨ids, hgiven, hfresh, -⟩ := h.exists_ids (List.getElem?_eq_getElem hlt)
    refine (Action.bind_of_ok (Action.read_of_ok (f := fun s : Store α => s.weight w)
        (weight_eq_ok_iff.mpr hgiven))).trans ?_
    split
    · next hempty =>
      rw [Bool.and_eq_true, List.isEmpty_iff, List.append_eq_nil_iff] at hempty
      obtain ⟨htrains, hnone, rfl⟩ := hempty
      have hmem := List.getElem_mem hlt
      have he := List.getElem?_eq_getElem (h.valued hs _ (List.mem_of_getElem? hgiven))
      have hasked := (statesAsked_of_entry he).symm.trans ((h.statesAsked hs hmem rfl).trans
        (hfresh hnone htrains).symm)
      refine (Action.bind_of_ok (Action.read_of_ok (f := fun t : Store α => t.entry _)
          (entry_eq_ok_iff.mpr he))).trans ?_
      rw [List.length_eq_zero_iff.mp hasked]
      rfl
    · rfl
  obtain ⟨t', hrun, rfl⟩ := hrun
  exact hrun

end Requests

end Store

end LayerGraph
