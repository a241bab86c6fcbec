import LayerGraph.Proofs.Store.Registry

/-!
# What a request registers

A request for data adds one entry and leaves the weights alone; a request for a weight joins the
weight of that name, and counts the step at which its gradient is added to.
-/

namespace LayerGraph.Store

variable {α : Type} {batch : Nat} {s s' : Store α}

/-- A later store with the same weights. -/
structure Grows (batch : Nat) (s s' : Store α) : Prop where
  later : s.Extends s'
  registry : Registry batch s → Registry batch s'
  weights : s'.weights = s.weights

theorem Grows.refl (s : Store α) : Grows batch s s := ⟨.refl s, id, rfl⟩

theorem Grows.trans {s₁ s₂ s₃ : Store α} (h : Grows batch s₁ s₂) (h' : Grows batch s₂ s₃) :
    Grows batch s₁ s₃ :=
  ⟨h.later.trans h'.later, fun hr => h'.registry (h.registry hr), h'.weights.trans h.weights⟩

theorem push_eq_ok {e : TensorRecord α} {id : TensorRef} (h : push e s = .ok id s') :
    id = s.entries.length ∧ s' = { s with entries := s.entries ++ [e] } := by
  unfold push at h
  split at h
  · cases h
  · cases h
    exact ⟨rfl, rfl⟩

theorem grows_modify (s : Store α) (id : TensorRef) (steps : List Nat) :
    Grows batch s { s with
      entries := s.entries.modify id fun e => { e with steps := e.steps ++ steps } } :=
  ⟨extends_modify s id steps, fun h => h.modify id steps, rfl⟩

theorem mem_stepsOf_iff {id : TensorRef} {t : Nat} :
    t ∈ s.stepsOf id ↔ ∃ e, s.backing id = some e ∧ t ∈ e.steps := by
  unfold stepsOf
  cases s.backing id with
  | none => simp
  | some e => simp

theorem mem_stepsOf_modify {id : TensorRef} {e : TensorRecord α} (he : s.backing id = some e)
    (steps : List Nat) {t : Nat} (ht : t ∈ steps) :
    t ∈ ({ s with entries := s.entries.modify (s.rootOf id) fun e =>
      { e with steps := e.steps ++ steps } } : Store α).stepsOf id := by
  obtain ⟨⟨e₀, he₀⟩, he⟩ := backing_eq_some_iff.mp he
  have hext := extends_modify s (s.rootOf id) steps
  obtain ⟨e₁, he₁, -⟩ := hext.entry id e₀ he₀
  refine mem_stepsOf_iff.mpr ⟨{ e with steps := e.steps ++ steps }, ?_, by simp [ht]⟩
  rw [backing_eq_some_iff, hext.rootOf he₀]
  exact ⟨⟨e₁, he₁⟩, by simp [he]⟩

theorem addSteps_spec (hr : Registry batch s) {id : TensorRef} {steps : List Nat} {u : Unit}
    (h : addSteps id steps s = .ok u s') : Grows batch s s' ∧
      s'.entries.length = s.entries.length ∧ ∀ t ∈ steps, t ∈ s'.stepsOf id := by
  obtain ⟨r, hroot, h⟩ := except_bind_eq_ok_iff.mp (Action.update_eq_ok_iff.mp h)
  obtain ⟨⟨e₀, he₀⟩, rfl⟩ := root_eq_ok_iff.mp hroot
  cases h
  obtain ⟨e, he, -⟩ := hr.backing he₀
  exact ⟨grows_modify s _ steps, by simp, fun t ht => mem_stepsOf_modify he steps ht⟩

/-- The entry that a request adds. -/
structure Added (s s' : Store α) (id : TensorRef) (role : Role) (shape : Shape) : Prop where
  id_eq : id = s.entries.length
  length_eq : s'.entries.length = s.entries.length + 1
  entry : ∃ e, s'.entries[id]? = some e ∧ e.role = role ∧ e.shape = shape

theorem request_spec {name : String} {shape : Shape} {initializer : Initializer α}
    {lifetime : Lifetime} {steps : List Nat} {id : TensorRef} (role : Role)
    (hrole : role.isData = true) (hbatch : shape.batch = batch) (hl : lifetime ≠ .run)
    (h : request name shape initializer lifetime role steps s = .ok id s') :
    Grows batch s s' ∧ Added s s' id role shape ∧ s'.rootOf id = id ∧
      (role ≠ .external → ∀ t ∈ steps, t ∈ s'.stepsOf id) := by
  obtain ⟨_, _, hget, h⟩ := Action.bind_eq_ok_iff.mp h
  cases hget
  obtain ⟨rfl, rfl⟩ := push_eq_ok h
  refine ⟨⟨extends_push s _, fun hr => ?_, rfl⟩, ⟨rfl, by simp, ?_⟩, ?_, ?_⟩
  · refine hr.push hrole.symm (fun _ => hbatch) nofun fun _ hext => ?_
    have hext : role = .external := hext
    simp [hext]
  · exact ⟨_, List.getElem?_concat_length, rfl, rfl⟩
  · exact rootOf_of_source_eq_none List.getElem?_concat_length rfl
  · intro hne t ht
    refine mem_stepsOf_iff.mpr ⟨_, backing_of_source_eq_none List.getElem?_concat_length rfl, ?_⟩
    simpa [hne, hl] using ht

theorem requestShared_spec (hr : Registry batch s) {source : TensorRef} {name : String}
    {steps : List Nat} {id : TensorRef} {e : TensorRecord α} (he : s.backing source = some e)
    (hdata : e.role.isData = true) (h : requestShared source name steps s = .ok id s') :
    Grows batch s s' ∧ Added s s' id e.role e.shape ∧ s'.rootOf id = s.rootOf source ∧
      ∀ t ∈ steps, t ∈ s'.stepsOf id := by
  obtain ⟨r, s₁, hread, h₁⟩ := Action.bind_eq_ok_iff.mp h
  obtain ⟨hroot, rfl⟩ := Action.read_eq_ok_iff.mp hread
  obtain ⟨-, rfl⟩ := root_eq_ok_iff.mp hroot
  obtain ⟨e', s₂, hread, h₂⟩ := Action.bind_eq_ok_iff.mp h₁
  obtain ⟨hentry, rfl⟩ := Action.read_eq_ok_iff.mp hread
  have hat := (backing_eq_some_iff.mp he).2
  rw [entry_eq_ok_iff, hat] at hentry
  cases hentry
  obtain ⟨id', s₃, hpush, h₃⟩ := Action.bind_eq_ok_iff.mp h₂
  obtain ⟨rfl, rfl⟩ := push_eq_ok hpush
  obtain ⟨_, s₄, hadd, h₄⟩ := Action.bind_eq_ok_iff.mp h₃
  cases h₄
  have hsource := hr.backing_source he
  have hr₃ := hr.push (e := { e with name := name, steps := [], source := some (s.rootOf source) })
    (hr.batched _ e hat) (hr.batch _ e hat)
    (fun r' hr' => by cases hr'; exact ⟨hdata, e, hat, hsource, rfl, rfl⟩) nofun
  obtain ⟨hgrow, hlen, hsteps⟩ := addSteps_spec hr₃ hadd
  have hext := extends_push s { e with name := name, steps := [], source := some (s.rootOf source) }
  have hnew := List.getElem?_concat_length (l := s.entries)
    (a := { e with name := name, steps := [], source := some (s.rootOf source) })
  have hgrow' : Grows batch s s' := ⟨hext.trans hgrow.later, fun _ => hgrow.registry hr₃,
    hgrow.weights⟩
  refine ⟨hgrow', ⟨rfl, by rw [hlen]; simp, ?_⟩, ?_, hsteps⟩
  · obtain ⟨e', he', hb⟩ := hgrow.later.entry _ _ hnew
    refine ⟨e', he', hb.role, ?_⟩
    have hbatch := (hgrow'.registry hr).batch _ e' he' (by rw [hb.role]; exact hdata)
    exact Shape.eq_of_axes (hbatch.trans (hr.batch _ e hat hdata).symm) hb.width
  · rw [hgrow.later.rootOf hnew]
    exact rootOf_of_source_eq_some hnew rfl

section Weights

/-- The steps at which each weight's gradient is added to, and that a weight is trained exactly if
there are such steps. -/
structure Collected (uses : WeightRef → List Nat) (s : Store α) : Prop where
  gradientSteps : ∀ (w : Nat) r, s.weights[w]? = some r → r.gradientSteps = uses w
  trainable : ∀ (w : Nat) r, s.weights[w]? = some r → (r.trainable = true ↔ uses w ≠ [])
  gradient : ∀ (w : Nat) r, s.weights[w]? = some r → (r.gradient.isSome = true ↔ uses w ≠ [])
  used : ∀ (w : Nat) r g t, s.weights[w]? = some r → r.gradient = some g → t ∈ uses w →
    t ∈ s.stepsOf g ∧ t + 1 ∈ s.stepsOf g
  unused : ∀ w : Nat, s.weights[w]? = none → uses w = []

theorem Collected.grows {uses : WeightRef → List Nat} (h : Collected uses s)
    (hg : Grows batch s s') : Collected uses s' where
  gradientSteps := by
    rw [hg.weights]
    exact h.gradientSteps
  trainable := by
    rw [hg.weights]
    exact h.trainable
  gradient := by
    rw [hg.weights]
    exact h.gradient
  used := by
    rw [hg.weights]
    intro w r g t hr hrg ht
    obtain ⟨h₁, h₂⟩ := h.used w r g t hr hrg ht
    exact ⟨hg.later.stepsOf h₁, hg.later.stepsOf h₂⟩
  unused := by
    rw [hg.weights]
    exact h.unused

variable {name : String} {shape : Shape} {initializer : Initializer α} {trainable : Bool}
  {w : WeightRef}

/-- The weight of a name is the one that is known, trained if one of its users trains it, or a new
one. -/
theorem joinWeight_spec (hr : Registry batch s)
    (h : joinWeight name shape initializer trainable s = .ok w s') :
    s.Extends s' ∧ Registry batch s' ∧ (∀ id t, t ∈ s.stepsOf id → t ∈ s'.stepsOf id) ∧
      ∃ r e, s'.weights[w]? = some r ∧ r.name = name ∧ s'.entries[r.value]? = some e ∧
        e.shape = shape ∧
        ((∃ r₀, s.weights[w]? = some r₀ ∧
            r = { r₀ with trainable := r₀.trainable || trainable } ∧
            ∀ v : Nat, v ≠ w → s'.weights[v]? = s.weights[v]?) ∨
          (s.weights[w]? = none ∧ r = ⟨name, r.value, none, trainable, [], []⟩ ∧
            ∀ v : Nat, v ≠ w → s'.weights[v]? = s.weights[v]?)) := by
  obtain ⟨_, _, hget, h₀⟩ := Action.bind_eq_ok_iff.mp h
  cases hget
  cases hw' : s.findWeight? name with
  | some w' =>
    rw [hw'] at h₀
    obtain ⟨r, _, hread, h₁⟩ := Action.bind_eq_ok_iff.mp h₀
    obtain ⟨hweight, rfl⟩ := Action.read_eq_ok_iff.mp hread
    have hr₀ := weight_eq_ok_iff.mp hweight
    obtain ⟨e, _, hread, h₂⟩ := Action.bind_eq_ok_iff.mp h₁
    obtain ⟨hentry, rfl⟩ := Action.read_eq_ok_iff.mp hread
    have he := entry_eq_ok_iff.mp hentry
    obtain ⟨hshape, h₃⟩ := Action.guard_eq_ok_iff.mp h₂
    obtain ⟨_, _, hmodify, h₄⟩ := Action.bind_eq_ok_iff.mp h₃
    cases hmodify
    cases h₄
    have hname : r.name = name := by
      obtain ⟨hlt, hn, -⟩ := List.findIdx?_eq_some_iff_getElem.mp hw'
      rw [List.getElem?_eq_getElem hlt, Option.some.injEq] at hr₀
      rw [← hr₀]
      simpa using hn
    have hext :=
      extends_modifyWeight s w (fun e => { e with trainable := e.trainable || trainable })
      fun r => ⟨rfl, rfl, fun _ hg => hg⟩
    refine ⟨hext, ?_, fun id t ht => hext.stepsOf ht,
      { r with trainable := r.trainable || trainable },
      e, ?_, hname, he, by simpa using hshape, .inl ⟨r, hr₀, rfl, ?_⟩⟩
    · exact hr.modifyWeight (fun _ => ⟨rfl, rfl⟩) (fun _ _ _ hg => .inl hg)
        fun r id hrw hid => hr.state w r id hrw hid
    · simp [hr₀]
    · intro v hv
      rw [List.getElem?_modify]
      simp [Ne.symm hv]
  | none =>
    rw [hw'] at h₀
    obtain ⟨value, _, hpush, h₁⟩ := Action.bind_eq_ok_iff.mp h₀
    obtain ⟨rfl, rfl⟩ := push_eq_ok hpush
    cases h₁
    have hnew : (s.entries ++ [(⟨name, shape, false, initializer, .run, .weight, [], none⟩ :
        TensorRecord α)])[s.entries.length]? = _ := List.getElem?_concat_length
    have hext := (extends_push s ⟨name, shape, false, initializer, .run, .weight, [], none⟩).trans
      (extends_pushWeight _ ⟨name, s.entries.length, none, trainable, [], []⟩)
    have hr₁ := hr.push (e := ⟨name, shape, false, initializer, .run, .weight, [], none⟩) rfl nofun
      nofun nofun
    refine ⟨hext, ?_, fun id t ht => hext.stepsOf ht, _, _, List.getElem?_concat_length,
      rfl, hnew, rfl, .inr ⟨by simp, rfl, ?_⟩⟩
    · refine hr₁.pushWeight (e := ⟨name, shape, false, initializer, .run, .weight, [], none⟩)
        hnew rfl rfl rfl ?_ ?_
      · intro v r hrv hn
        have hmem := List.mem_of_getElem? hrv
        have := List.findIdx?_eq_none_iff.mp hw' r hmem
        simp only [beq_eq_false_iff_ne] at this
        exact this hn
      · intro v r hrv hn
        obtain ⟨e, he, -⟩ := hr.value v r hrv
        have hlt := (List.getElem?_eq_some_iff.mp he).1
        have hn : r.value = s.entries.length := hn
        exact Nat.lt_irrefl _ (hn ▸ hlt)
    · intro v hv
      rw [List.getElem?_append]
      split
      · rfl
      · next hlt =>
        have hlt : ¬ v < s.weights.length := hlt
        have hne : v ≠ s.weights.length := hv
        rw [List.getElem?_eq_none_iff.mpr (by simp only [List.length_singleton]; omega),
          List.getElem?_eq_none_iff.mpr (by omega)]

/-- A weight has one gradient buffer, which is registered when it is first asked for. -/
theorem gradientOf_spec (hr : Registry batch s) {r : WeightRecord} {e : TensorRecord α}
    {g : TensorRef} (hw : s.weights[w]? = some r) (he : s.entries[r.value]? = some e)
    (hshape : e.shape = shape) (h : gradientOf w name shape s = .ok g s') :
    s.Extends s' ∧ Registry batch s' ∧ s'.weights[w]? = some { r with gradient := some g } ∧
      ∀ v : Nat, v ≠ w → s'.weights[v]? = s.weights[v]? := by
  obtain ⟨r', _, hread, h₁⟩ := Action.bind_eq_ok_iff.mp h
  obtain ⟨hweight, rfl⟩ := Action.read_eq_ok_iff.mp hread
  rw [weight_eq_ok_iff, hw] at hweight
  cases hweight
  cases hg : r.gradient with
  | some g' =>
    rw [hg] at h₁
    cases h₁
    refine ⟨.refl s, hr, ?_, fun _ _ => rfl⟩
    rw [hw, ← hg]
  | none =>
    rw [hg] at h₁
    obtain ⟨g', _, hpush, h₂⟩ := Action.bind_eq_ok_iff.mp h₁
    obtain ⟨rfl, rfl⟩ := push_eq_ok hpush
    obtain ⟨_, _, hmodify, h₃⟩ := Action.bind_eq_ok_iff.mp h₂
    cases hmodify
    cases h₃
    have hnew : (s.entries ++ [(⟨name ++ ":grad", shape, false, .zeros, .backward, .gradient, [],
        none⟩ : TensorRecord α)])[s.entries.length]? = _ := List.getElem?_concat_length
    have hold : (s.entries ++ [(⟨name ++ ":grad", shape, false, .zeros, .backward, .gradient, [],
        none⟩ : TensorRecord α)])[r.value]? = some e := by
      rw [List.getElem?_append_left (List.getElem?_eq_some_iff.mp he).1]
      exact he
    have hr₁ :=
      hr.push (e := ⟨name ++ ":grad", shape, false, .zeros, .backward, .gradient, [], none⟩)
      rfl nofun nofun nofun
    refine ⟨(extends_push s _).trans ⟨fun id e he => ⟨e, he, .refl e⟩, fun v r' hv => ?_, rfl⟩, ?_,
      by simp [hw], fun v hv => ?_⟩
    · simp only [List.getElem?_modify]
      have hv : s.weights[v]? = some r' := hv
      rw [hv]
      by_cases hvw : w = v
      · subst hvw
        rw [hw] at hv
        cases hv
        exact ⟨{ r with gradient := some s.entries.length }, by simp, rfl, rfl,
          fun g' hg' => by rw [hg] at hg'; cases hg'⟩
      · exact ⟨r', by simp [hvw], rfl, rfl, fun _ h => h⟩
    · refine hr₁.modifyWeight (fun _ => ⟨rfl, rfl⟩) (fun r' g' hr' hg' => .inr ?_)
        fun r' id hr' hid => hr₁.state w r' id hr' hid
      have hr' : s.weights[w]? = some r' := hr'
      rw [hw] at hr'
      cases hr'
      cases hg'
      refine ⟨⟨_, e, hnew, rfl, hold, hshape.symm⟩, fun w' r' hr' hg' => ?_⟩
      obtain ⟨e', -, he', -⟩ := hr.gradient w' r' _ hr' hg'
      exact Nat.lt_irrefl _ (List.getElem?_eq_some_iff.mp he').1
    · rw [List.getElem?_modify]
      simp [Ne.symm hv]

/-- What becomes of the steps when one weight is edited. -/
theorem Collected.edit {uses uses' : WeightRef → List Nat} (hc : Collected uses s)
    (hsteps : ∀ id t, t ∈ s.stepsOf id → t ∈ s'.stepsOf id)
    (hother : ∀ v : Nat, v ≠ w → s'.weights[v]? = s.weights[v]?)
    (huses : ∀ v : Nat, v ≠ w → uses' v = uses v) {r : WeightRecord} (hw : s'.weights[w]? = some r)
    (hgs : r.gradientSteps = uses' w) (htr : r.trainable = true ↔ uses' w ≠ [])
    (hg : r.gradient.isSome = true ↔ uses' w ≠ [])
    (hused : ∀ g t, r.gradient = some g → t ∈ uses' w → t ∈ s'.stepsOf g ∧ t + 1 ∈ s'.stepsOf g) :
    Collected uses' s' := by
  have hcases : ∀ (v : Nat) r', s'.weights[v]? = some r' →
      (v = w ∧ r' = r) ∨ (v ≠ w ∧ s.weights[v]? = some r') := by
    intro v r' hv
    by_cases hvw : v = w
    · subst hvw
      rw [hw] at hv
      exact .inl ⟨rfl, (Option.some.inj hv).symm⟩
    · exact .inr ⟨hvw, (hother v hvw).symm.trans hv⟩
  constructor
  · intro v r' hv
    rcases hcases v r' hv with ⟨rfl, rfl⟩ | ⟨hvw, hv'⟩
    · exact hgs
    · rw [huses v hvw]
      exact hc.gradientSteps v r' hv'
  · intro v r' hv
    rcases hcases v r' hv with ⟨rfl, rfl⟩ | ⟨hvw, hv'⟩
    · exact htr
    · rw [huses v hvw]
      exact hc.trainable v r' hv'
  · intro v r' hv
    rcases hcases v r' hv with ⟨rfl, rfl⟩ | ⟨hvw, hv'⟩
    · exact hg
    · rw [huses v hvw]
      exact hc.gradient v r' hv'
  · intro v r' g t hv
    rcases hcases v r' hv with ⟨rfl, rfl⟩ | ⟨hvw, hv'⟩
    · exact hused g t
    · rw [huses v hvw]
      intro hg' ht
      obtain ⟨h₁, h₂⟩ := hc.used v r' g t hv' hg' ht
      exact ⟨hsteps g _ h₁, hsteps g _ h₂⟩
  · intro v hv
    have hvw : v ≠ w := by
      rintro rfl
      rw [hw] at hv
      cases hv
    rw [huses v hvw]
    exact hc.unused v ((hother v hvw).symm.trans hv)

/-- A weight collects its gradient at `step`. -/
def collectAt (w : WeightRef) (g : TensorRef) (step : Nat) (s : Store α) : Store α :=
  { s with
    entries := s.entries.modify g fun e => { e with steps := e.steps ++ [step, step + 1] }
    weights := s.weights.modify w fun r => { r with gradientSteps := r.gradientSteps ++ [step] } }

theorem useWeight_eq_ok {forwardStep : Nat} {gradientStep : Option Nat}
    (h : useWeight name shape initializer trainable forwardStep gradientStep s = .ok w s') :
    ∃ s₁ s₂ r, joinWeight name shape initializer trainable s = .ok w s₁ ∧ s₁.weights[w]? = some r ∧
      s₂ = { s₁ with entries := s₁.entries.modify r.value fun e =>
        { e with steps := e.steps ++ [forwardStep] } } ∧
      ((s' = s₂ ∧ (gradientStep = none ∨ r.trainable = false)) ∨
        ∃ step g s₃, gradientStep = some step ∧ gradientOf w name shape s₂ = .ok g s₃ ∧
          s' = collectAt w g step s₃) := by
  obtain ⟨w', s₁, hjoin, h₁⟩ := Action.bind_eq_ok_iff.mp h
  obtain ⟨r, _, hread, h₂⟩ := Action.bind_eq_ok_iff.mp h₁
  obtain ⟨hweight, rfl⟩ := Action.read_eq_ok_iff.mp hread
  obtain ⟨_, _, hmodify, h₃⟩ := Action.bind_eq_ok_iff.mp h₂
  cases hmodify
  have hw := weight_eq_ok_iff.mp hweight
  cases gradientStep with
  | none =>
    cases h₃
    exact ⟨s₁, _, r, hjoin, hw, rfl, .inl ⟨rfl, .inl rfl⟩⟩
  | some step =>
    dsimp only at h₃
    cases ht : r.trainable with
    | false =>
      rw [ht] at h₃
      cases h₃
      exact ⟨s₁, _, r, hjoin, hw, rfl, .inl ⟨rfl, .inr ht⟩⟩
    | true =>
      rw [ht, if_pos rfl] at h₃
      obtain ⟨g, s₃, hg, h₄⟩ := Action.bind_eq_ok_iff.mp h₃
      obtain ⟨_, _, hmodify, h₅⟩ := Action.bind_eq_ok_iff.mp h₄
      cases hmodify
      cases h₅
      exact ⟨s₁, _, r, hjoin, hw, rfl, .inr ⟨step, g, s₃, rfl, hg, rfl⟩⟩

section Collect

variable {r : WeightRecord} {e : TensorRecord α} {g : TensorRef} {step : Nat}

/-- The value of a weight has no batch dimension. -/
theorem Registry.batched_value (hr : Registry batch s) (hw : s.weights[w]? = some r)
    (he : s.entries[r.value]? = some e) : e.batched = false := by
  obtain ⟨e', he', hrole⟩ := hr.value w r hw
  rw [he] at he'
  cases he'
  rw [hr.batched _ e he, hrole]
  rfl

theorem extends_collectAt (w : WeightRef) (g : TensorRef) (step : Nat) (s : Store α) :
    s.Extends (collectAt w g step s) :=
  (extends_modify s g [step, step + 1]).trans
    (extends_modifyWeight _ w _ fun _ => ⟨rfl, rfl, fun _ hg => hg⟩)

theorem registry_collectAt (hr : Registry batch s) : Registry batch (collectAt w g step s) := by
  have hr' := (grows_modify s g [step, step + 1]).registry hr
  exact hr'.modifyWeight (fun _ => ⟨rfl, rfl⟩) (fun _ _ _ hg => .inl hg)
    fun r id hrw hid => hr'.state w r id hrw hid

theorem mem_stepsOf_collectAt (hr : Registry batch s) (hw : s.weights[w]? = some r)
    (hg : r.gradient = some g) {t : Nat} (ht : t ∈ [step, step + 1]) :
    t ∈ (collectAt w g step s).stepsOf g := by
  obtain ⟨e, _, he, hrole, -⟩ := hr.gradient w r g hw hg
  obtain ⟨_, hbacking, -⟩ := hr.backing he
  have hroot : s.rootOf g = g :=
    rootOf_of_source_eq_none he (hr.source_eq_none he (by rw [hrole]; rfl))
  have hnew := mem_stepsOf_modify hbacking [step, step + 1] ht
  rw [hroot] at hnew
  exact (extends_modifyWeight _ w _ fun _ => ⟨rfl, rfl, fun _ hg => hg⟩).stepsOf hnew

theorem weights_collectAt (hw : s.weights[w]? = some r) : (collectAt w g step s).weights[w]? =
    some { r with gradientSteps := r.gradientSteps ++ [step] } := by
  simp [collectAt, hw]

/-- What joining a weight leaves: a record of the steps in `uses` that train the weight so far, and
the other weights as they were. -/
structure Joined (uses : List Nat) (trains : Bool) (w : WeightRef) (r : WeightRecord)
    (s s' : Store α) : Prop where
  record : s'.weights[w]? = some r
  others : ∀ v : Nat, v ≠ w → s'.weights[v]? = s.weights[v]?
  steps : ∀ id t, t ∈ s.stepsOf id → t ∈ s'.stepsOf id
  gradientSteps : r.gradientSteps = uses
  trainable : r.trainable = true ↔ uses ≠ [] ∨ trains = true
  gradient : r.gradient.isSome = true ↔ uses ≠ []
  used : ∀ g t, r.gradient = some g → t ∈ uses → t ∈ s'.stepsOf g ∧ t + 1 ∈ s'.stepsOf g

theorem Joined.grows {uses : List Nat} {s₁ : Store α} (h : Joined uses trainable w r s s₁)
    (hg : Grows batch s₁ s') : Joined uses trainable w r s s' where
  record := by rw [hg.weights]; exact h.record
  others := by rw [hg.weights]; exact h.others
  steps id t ht := hg.later.stepsOf (h.steps id t ht)
  gradientSteps := h.gradientSteps
  trainable := h.trainable
  gradient := h.gradient
  used g t hr ht := (h.used g t hr ht).imp hg.later.stepsOf hg.later.stepsOf

variable {uses : WeightRef → List Nat}

theorem joined_of_joinWeight (hr : Registry batch s) (hc : Collected uses s)
    (h : joinWeight name shape initializer trainable s = .ok w s') :
    ∃ r e, s'.entries[r.value]? = some e ∧ e.shape = shape ∧ r.name = name ∧
      Joined (uses w) trainable w r s s' := by
  obtain ⟨-, -, hsteps, r, e, hw, hname, he, hshape, hcase⟩ := joinWeight_spec hr h
  refine ⟨r, e, he, hshape, hname, ?_⟩
  rcases hcase with ⟨r₀, hr₀, rfl, hothers⟩ | ⟨hnone, heq, hothers⟩
  · refine ⟨hw, hothers, hsteps, hc.gradientSteps w r₀ hr₀, ?_, hc.gradient w r₀ hr₀,
      fun g t hg ht => (hc.used w r₀ g t hr₀ hg ht).imp (hsteps g _) (hsteps g _)⟩
    simp only [Bool.or_eq_true, hc.trainable w r₀ hr₀]
  · rw [hc.unused w hnone]
    rw [heq] at hw ⊢
    exact ⟨hw, hothers, hsteps, rfl, by simp, by simp, fun g t hg => nomatch hg⟩

/-- A user that does not train the weight leaves the collected steps as they are. -/
theorem Joined.collected (h : Joined (uses w) false w r s s') (hc : Collected uses s) :
    Collected uses s' :=
  hc.edit h.steps h.others (fun _ _ => rfl) h.record h.gradientSteps (by simpa using h.trainable)
    h.gradient h.used

/-- A user that trains the weight adds its step to the collected ones. -/
theorem Joined.collected_collectAt {s₁ : Store α} (h : Joined (uses w) true w r s s₁)
    (hc : Collected uses s) (hr : Registry batch s₁) (he : s₁.entries[r.value]? = some e)
    (hshape : e.shape = shape) (hg : gradientOf w name shape s₁ = .ok g s') :
    Collected (fun v => uses v ++ if v = w then [step] else []) (collectAt w g step s') := by
  obtain ⟨hext, hr', hw', hothers⟩ := gradientOf_spec hr h.record he hshape hg
  have hext' := hext.trans (extends_collectAt w g step s')
  refine hc.edit (fun id t ht => hext'.stepsOf (h.steps id t ht)) ?others (fun v hv => by simp [hv])
    (weights_collectAt hw') (by simp [h.gradientSteps]) (by simp [h.trainable]) (by simp) ?used
  case others =>
    intro v hv
    simp only [collectAt, List.getElem?_modify]
    rw [hothers v hv, h.others v hv]
    simp [Ne.symm hv]
  case used =>
    intro g' t hg' ht
    cases hg'
    have hnew : ∀ {t}, t ∈ [step, step + 1] → t ∈ (collectAt w g step s').stepsOf g :=
      mem_stepsOf_collectAt hr' hw' rfl
    simp only [if_true, List.mem_append, List.mem_singleton] at ht
    rcases ht with ht | rfl
    · -- The buffer is the one that the weight has had before.
      obtain ⟨g', hg'⟩ := Option.isSome_iff_exists.mp (h.gradient.mpr (List.ne_nil_of_mem ht))
      obtain ⟨r', hr', -, -, hkeep⟩ := hext.weight w r h.record
      rw [hw'] at hr'
      cases hr'
      cases hkeep g' hg'
      exact (h.used g t hg' ht).imp hext'.stepsOf hext'.stepsOf
    · exact ⟨hnew (by simp), hnew (by simp)⟩

end Collect

/-- A node that uses a weight adds its forward step to those of the value, and one that trains it
adds its gradient step to those of the weight. -/
theorem useWeight_spec {uses : WeightRef → List Nat} (hr : Registry batch s)
    (hc : Collected uses s) {forwardStep : Nat} {gradientStep : Option Nat}
    (htrain : trainable = gradientStep.isSome)
    (h : useWeight name shape initializer trainable forwardStep gradientStep s = .ok w s') :
    s.Extends s' ∧ Registry batch s' ∧
      Collected (fun v => uses v ++ if v = w then gradientStep.toList else []) s' ∧
      ∃ r e, s'.weights[w]? = some r ∧ r.name = name ∧ s'.entries[r.value]? = some e ∧
        e.shape = shape ∧ forwardStep ∈ s'.stepsOf r.value := by
  obtain ⟨s₁, s₂, r, hjoin, hw, hs₂, htail⟩ := useWeight_eq_ok h
  obtain ⟨hext₁, hr₁, -⟩ := joinWeight_spec hr hjoin
  obtain ⟨_, e, he, hshape, hname, hjoined⟩ := joined_of_joinWeight hr hc hjoin
  cases hw.symm.trans hjoined.record
  have hgrow : Grows batch s₁ s₂ := hs₂ ▸ grows_modify s₁ r.value [forwardStep]
  have hr₂ := hgrow.registry hr₁
  have hjoined₂ := hjoined.grows hgrow
  obtain ⟨e₂, he₂, hb₂⟩ := hgrow.later.entry _ e he
  have hshape₂ : e₂.shape = shape := (hb₂.fixed (hr₁.batched_value hw he)).trans hshape
  have hforward : forwardStep ∈ s₂.stepsOf r.value := by
    obtain ⟨e', he', hrole⟩ := hr₁.value w r hw
    have hsource := hr₁.source_eq_none he' (by rw [hrole]; rfl)
    have hnew := mem_stepsOf_modify (backing_of_source_eq_none he' hsource) [forwardStep]
      (List.mem_singleton_self _)
    rwa [rootOf_of_source_eq_none he' hsource, ← hs₂] at hnew
  rcases htail with ⟨rfl, hno⟩ | ⟨step, g, s₃, rfl, hgradient, rfl⟩
  · have hnone : gradientStep = none := by
      rcases hno with hno | hno
      · exact hno
      · have huntrained : trainable ≠ true := fun h => by
          rw [hjoined.trainable.mpr (.inr h)] at hno
          cases hno
        simpa [htrain] using huntrained
    subst hnone
    obtain rfl : trainable = false := htrain
    refine ⟨hext₁.trans hgrow.later, hr₂, ?_, r, e₂, hjoined₂.record, hname, he₂, hshape₂, hforward⟩
    simpa using hjoined₂.collected hc
  · obtain rfl : trainable = true := htrain
    obtain ⟨hext₃, hr₃, hw₃, -⟩ := gradientOf_spec hr₂ hjoined₂.record he₂ hshape₂ hgradient
    have hext := hext₃.trans (extends_collectAt w g step s₃)
    obtain ⟨e₄, he₄, hb₄⟩ := hext.entry _ e₂ he₂
    refine ⟨hext₁.trans (hgrow.later.trans hext), registry_collectAt hr₃,
      hjoined₂.collected_collectAt hc hr₂ he₂ hshape₂ hgradient, _, e₄,
      weights_collectAt hw₃, hname, he₄, ?_, hext.stepsOf hforward⟩
    exact (hb₄.fixed (hr₂.batched_value hjoined₂.record he₂)).trans hshape₂

end Weights

end LayerGraph.Store
