import LayerGraph.Proofs.Network.Gradients
import LayerGraph.Proofs.Store.Buffered

/-!
# Weights that are handed over

What a rule for weights is handed is recorded, without a change to what the rule does. The visit of
a node hands over those of its weights whose gradients no later node adds to.
-/

namespace LayerGraph

variable {α τ : Type}

/-- A weight as it was handed over at a node. -/
structure Handover (α : Type) where
  node : String
  update : WeightState α

/-- The rule, with a record of what it is handed at the node of this name. -/
def recorded (rule : WeightState α → Action τ (WeightState α)) (name : String)
    (update : WeightState α) : Action (τ × List (Handover α)) (WeightState α) := do
  modify fun s => (s.1, s.2 ++ [⟨name, update⟩])
  Action.focus (·.1) (fun own s => (own, s.2)) (rule update)

/-- What is recorded changes no shape if the rule does not. -/
theorem keepsShapes_recorded {asks : (Shape → List Shape) → Prop}
    {rule : WeightState α → Action τ (WeightState α)} (h : Store.KeepsShapes asks rule)
    (name : String) : Store.KeepsShapes asks (recorded rule name) := by
  intro u hg hstate
  refine (Action.returns_modify fun _ _ => trivial).bind fun _ _ => ?_
  exact (h u hg hstate).focus (fun _ _ => trivial) fun _ _ _ _ => trivial

namespace Store

variable [Scalar α] {batch step : Nat} {s s' : Store α} {uses : WeightRef → List Nat}
  {own own' : τ} {log log' : List (Handover α)} {rule : WeightState α → Action τ (WeightState α)}
  {name : String}

omit [Scalar α] in
/-- A loop that writes one tensor after the other. -/
theorem forM_write_eq_ok_iff {writes : List (TensorRef × Tensor α)} {u : PUnit} :
    (writes.forM fun p => write p.1 p.2 : Action (Store α) PUnit) s = .ok u s' ↔
    s.setAll writes = .ok s' := by
  induction writes generalizing s with
  | nil => exact ⟨fun h => by cases h; rfl, fun h => by cases h; rfl⟩
  | cons p writes ih =>
    simp only [List.forM_eq_forM, List.forM_cons] at ih ⊢
    rw [Action.bind_eq_ok_iff, show s.setAll (p :: writes) = (do (← s.set p.1 p.2).setAll writes)
      from rfl, except_bind_eq_ok_iff]
    exact ⟨fun ⟨_, s₁, h, h'⟩ => ⟨s₁, Action.update_eq_ok_iff.mp h, ih.mp h'⟩,
      fun ⟨s₁, h, h'⟩ => ⟨(), s₁, Action.update_of_ok h, ih.mpr h'⟩⟩

/-- A weight that is handed over is recorded, and what is written afterwards is kept. -/
theorem revise_recorded_eq_ok {w : WeightRef} {r : WeightRecord} {d : TensorRef} {u : Unit}
    (hr : s.weights[w]? = some r) (hd : r.gradient = some d)
    (h : revise w (recorded rule name) ((own, log), s) = .ok u ((own', log'), s')) :
    ∃ update writes, log' = log ++ [⟨name, update⟩] ∧ update.name = r.name ∧
      s.get r.value = .ok update.value ∧ s.get d = .ok update.gradient ∧ s.setAll writes = .ok s' ∧
      ∀ p ∈ writes, p.1 = r.value ∨ p.1 ∈ r.optimizerState := by
  obtain ⟨found, _, hread, h⟩ := Action.bind_eq_ok_iff.mp h
  obtain ⟨hfound, rfl⟩ := Action.read_eq_ok_iff.mp hread
  unfold Store.update? at hfound
  rw [weight_eq_ok_iff.mpr hr, except_ok_bind, hd] at hfound
  obtain ⟨value, hvalue, hfound⟩ := except_bind_eq_ok_iff.mp hfound
  obtain ⟨gradient, hgradient, hfound⟩ := except_bind_eq_ok_iff.mp hfound
  obtain ⟨state, hstate, hfound⟩ := except_bind_eq_ok_iff.mp hfound
  cases hfound
  obtain ⟨updated, s₁, hfocus, h⟩ := Action.bind_eq_ok_iff.mp h
  obtain ⟨⟨own₁, log₁⟩, hrule, rfl⟩ := Action.focus_eq_ok_iff.mp hfocus
  obtain ⟨_, _, hlog, hrule⟩ := Action.bind_eq_ok_iff.mp hrule
  cases hlog
  obtain ⟨own₂, -, heq⟩ := Action.focus_eq_ok_iff.mp hrule
  cases heq
  obtain ⟨s₂, hwrite, heq⟩ := Action.focus_eq_ok_iff.mp h
  cases heq
  obtain ⟨_, s₃, hset, hwrite⟩ := Action.bind_eq_ok_iff.mp hwrite
  refine ⟨⟨r.name, value, gradient, state⟩, (r.value, updated.value) ::
    r.optimizerState.zip updated.state, rfl, rfl, hvalue, hgradient, ?_, fun p hp => ?_⟩
  · change (do (← s.set r.value updated.value).setAll _) = .ok s'
    rw [Action.update_eq_ok_iff.mp hset, except_ok_bind]
    exact forM_write_eq_ok_iff.mp hwrite
  · rcases List.mem_cons.mp hp with rfl | hp
    · exact .inl rfl
    · exact .inr (List.of_mem_zip hp).1

/-- Writes to what is kept leave everything else as it is. -/
theorem get_of_setAll_kept {writes : List (TensorRef × Tensor α)} (hset : s.setAll writes = .ok s')
    (hk : ∀ p ∈ writes, ∃ e, s.backing p.1 = some e ∧ e.role.isKept = true) {id : TensorRef}
    {e : TensorRecord α} (he : s.backing id = some e)
    (hne : ∀ p ∈ writes, s.rootOf id ≠ s.rootOf p.1) : s'.get id = s.get id := by
  refine (except_foldlM_upTo (fun _ s₁ => s.SameLayout s₁ ∧ s₁.get id = s.get id) hset
    ⟨.refl s, rfl⟩ fun done p rest s₁ s₂ hsplit hs hstep => ?_).2
  obtain ⟨hl, hs⟩ := hs
  have hp : p ∈ writes := by simp [hsplit]
  obtain ⟨e', he', hkept⟩ := hk p hp
  refine ⟨hl.trans (sameLayout_of_set hstep), Eq.trans ?_ hs⟩
  refine get_of_set_kept hstep ((hl.backing _).trans he') hkept ((hl.backing _).trans he) ?_
  rw [hl.rootOf, hl.rootOf]
  exact hne p hp

/-- What handing over a weight leaves alone: whatever is not kept, and the values of all other
weights. -/
theorem get_of_revised (hreg : Registry batch s) {w : WeightRef} {r : WeightRecord}
    (hr : s.weights[w]? = some r) {writes : List (TensorRef × Tensor α)}
    (hset : s.setAll writes = .ok s') (hw : ∀ p ∈ writes, p.1 = r.value ∨ p.1 ∈ r.optimizerState) :
    (∀ id e, s.backing id = some e → e.role.isKept = false → s'.get id = s.get id) ∧
      ∀ v r', s.weights[v]? = some r' → v ≠ w → s'.get r'.value = s.get r'.value := by
  have hwrites : ∀ p ∈ writes, ∃ e, s.backing p.1 = some e ∧ e.role.isKept = true ∧
      (p.1 = r.value ∨ e.role = .optimizerState) := by
    intro p hp
    rcases hw p hp with heq | hmem
    · obtain ⟨e, he, hrole⟩ := hreg.backing_value hr
      exact ⟨e, heq ▸ he, by rw [hrole]; rfl, .inl heq⟩
    · obtain ⟨e, he, hrole⟩ := hreg.backing_state hr hmem
      exact ⟨e, he, by rw [hrole]; rfl, .inr hrole⟩
  have hkept : ∀ p ∈ writes, ∃ e, s.backing p.1 = some e ∧ e.role.isKept = true := fun p hp => by
    obtain ⟨e, he, hk, -⟩ := hwrites p hp
    exact ⟨e, he, hk⟩
  refine ⟨fun id e he hk => get_of_setAll_kept hset hkept he fun p hp heq => ?_,
    fun v r' hr' hv => ?_⟩
  · obtain ⟨e', he', hk', -⟩ := hwrites p hp
    have hat := (backing_eq_some_iff.mp he).2
    rw [heq, (backing_eq_some_iff.mp he').2] at hat
    cases hat
    rw [hk] at hk'
    cases hk'
  · obtain ⟨e, he, hrole⟩ := hreg.backing_value hr'
    refine get_of_setAll_kept hset hkept he fun p hp heq => ?_
    obtain ⟨e', he', -, hcase⟩ := hwrites p hp
    rcases hcase with hvalue | hstate
    · obtain ⟨e₁, he₁, hrole₁⟩ := hreg.value v r' hr'
      obtain ⟨e₂, he₂, hrole₂⟩ := hreg.value w r hr
      rw [hvalue, rootOf_of_source_eq_none he₁ (hreg.source_eq_none he₁ (by rw [hrole₁]; rfl)),
        rootOf_of_source_eq_none he₂ (hreg.source_eq_none he₂ (by rw [hrole₂]; rfl))] at heq
      exact hv (hreg.value_inj v w r' r hr' hr heq)
    · have hat := (backing_eq_some_iff.mp he).2
      rw [heq, (backing_eq_some_iff.mp he').2] at hat
      cases hat
      rw [hrole] at hstate
      cases hstate

omit [Scalar α] in
theorem isLast_eq (hc : Collected uses s) {w : WeightRef} {r : WeightRecord}
    (hr : s.weights[w]? = some r) :
    (do return (← s.trains w) && (← s.isLastGradientStep w step) : Except Error Bool) =
      .ok (Completes uses step w) := by
  unfold trains isLastGradientStep
  rw [weight_eq_ok_iff.mpr hr]
  simp only [except_ok_bind, except_pure, hc.gradientSteps w r hr, Completes]
  cases hmax : (uses w).max? with
  | none => simp
  | some m =>
    have hne : uses w ≠ [] := fun h => by simp [h] at hmax
    rw [(hc.trainable w r hr).mpr hne, (hc.gradient w r hr).mpr hne]
    rfl

/-- What the visit of a node records: each weight whose gradient is complete, with that gradient. -/
structure Visited (uses : WeightRef → List Nat) (step : Nat) (name : String) (ws : List WeightRef)
    (s s' : Store α) (new : List (Handover α)) : Prop where
  layout : s.SameLayout s'
  unkept : ∀ id e, s.backing id = some e → e.role.isKept = false → s'.get id = s.get id
  others : ∀ w r, s.weights[w]? = some r → (w ∉ ws ∨ Completes uses step w = false) →
    s'.get r.value = s.get r.value
  handed : List.Forall₂ (fun w (h : Handover α) => h.node = name ∧ ∃ r d, s.weights[w]? = some r ∧
    r.gradient = some d ∧ h.update.name = r.name ∧ s.get d = .ok h.update.gradient)
    (ws.filter (Completes uses step)) new

theorem visited_of_fold {ws : List WeightRef} {count count' : Nat} (hreg : Registry batch s)
    (hc : Collected uses s) (hw : ∀ w ∈ ws, ∃ r, s.weights[w]? = some r) (hn : ws.Nodup)
    (h : (ws.foldlM (fun applied w => do
      if ← Action.read fun s => do
          return (← s.2.trains w) && (← s.2.isLastGradientStep w step) then
        Store.revise w (recorded rule name)
        return applied + 1
      else return applied) count : Action ((τ × List (Handover α)) × Store α) Nat) ((own, log), s) =
        .ok count' ((own', log'), s')) :
    ∃ new, log' = log ++ new ∧ Visited uses step name ws s s' new := by
  induction ws generalizing s own log count with
  | nil =>
    cases h
    exact ⟨[], by simp, .refl _, fun _ _ _ _ => rfl, fun _ _ _ _ => rfl, .nil⟩
  | cons w ws ih =>
    obtain ⟨r, hr⟩ := hw w (by simp)
    obtain ⟨hnot, hn⟩ := List.nodup_cons.mp hn
    rw [List.foldlM_cons] at h
    obtain ⟨count₁, ⟨⟨own₁, log₁⟩, s₁⟩, hstep, h⟩ := Action.bind_eq_ok_iff.mp h
    obtain ⟨last, _, hread, hstep⟩ := Action.bind_eq_ok_iff.mp hstep
    obtain ⟨hlast, rfl⟩ := Action.read_eq_ok_iff.mp hread
    rw [isLast_eq hc hr] at hlast
    cases hcomplete : Completes uses step w with
    | false =>
      rw [hcomplete] at hlast
      cases hlast
      cases hstep
      obtain ⟨new, hlog, hv⟩ := ih hreg hc (fun v hv => hw v (List.mem_cons_of_mem _ hv)) hn h
      refine ⟨new, hlog, hv.layout, hv.unkept, fun v r' hr' hcase => hv.others v r' hr' ?_, ?_⟩
      · exact hcase.imp_left fun hmem => fun hin => hmem (List.mem_cons_of_mem _ hin)
      · rw [List.filter_cons_of_neg (by simp [hcomplete])]
        exact hv.handed
    | true =>
      rw [hcomplete] at hlast
      cases hlast
      obtain ⟨_, ⟨⟨own₂, log₂⟩, s₂⟩, hrevise, hstep⟩ := Action.bind_eq_ok_iff.mp hstep
      cases hstep
      have hne : uses w ≠ [] := fun hnil => by simp [Completes, hnil] at hcomplete
      obtain ⟨d, hd⟩ := Option.isSome_iff_exists.mp ((hc.gradient w r hr).mpr hne)
      obtain ⟨update, writes, rfl, hname, -, hgradient, hset, hwrites⟩ :=
        revise_recorded_eq_ok hr hd hrevise
      have hl := sameLayout_setAll hset
      obtain ⟨hunkept, hothers⟩ := get_of_revised hreg hr hset hwrites
      obtain ⟨new, rfl, hv⟩ := ih (hl.registry hreg) (hl.collected hc)
        (fun v hv => by rw [hl.weights]; exact hw v (List.mem_cons_of_mem _ hv)) hn h
      refine ⟨⟨name, update⟩ :: new, by simp, hl.trans hv.layout, fun id e he hk => ?_,
        fun v r' hr' hcase => ?_, ?_⟩
      · exact (hv.unkept id e ((hl.backing id).trans he) hk).trans (hunkept id e he hk)
      · have hvw : v ≠ w := by
          rintro rfl
          rcases hcase with hcase | hcase
          · exact hcase (List.mem_cons_self ..)
          · rw [hcomplete] at hcase
            cases hcase
        refine (hv.others v r' (by rw [hl.weights]; exact hr') ?_).trans (hothers v r' hr' hvw)
        exact hcase.imp_left fun hmem => fun hin => hmem (List.mem_cons_of_mem _ hin)
      · rw [List.filter_cons_of_pos (by simp [hcomplete])]
        refine .cons ⟨rfl, r, d, hr, hd, hname, hgradient⟩ (hv.handed.imp ?_)
        rintro v h' ⟨hnode, r', d', hr', hd', hname', hgradient'⟩
        rw [hl.weights] at hr'
        refine ⟨hnode, r', d', hr', hd', hname', ?_⟩
        obtain ⟨e, -, he, hrole, -⟩ := hreg.gradient v r' d' hr' hd'
        rw [← hunkept d' e
          (backing_of_source_eq_none he (hreg.source_eq_none he (by rw [hrole]; rfl)))
          (by rw [hrole]; rfl)]
        exact hgradient'

end Store

end LayerGraph
