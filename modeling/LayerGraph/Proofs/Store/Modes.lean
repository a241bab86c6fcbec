import LayerGraph.Proofs.SlotPlan.SlotCount
import LayerGraph.Proofs.Store.Loaded
import LayerGraph.Store.Request
import Mathlib.Algebra.Order.BigOperators.Group.List
import Mathlib.Algebra.Order.Group.Nat

/-!
# What the modes plan

Without a backward pass a tensor is in use for fewer steps, and some are not in use at all. So
inference needs no more slots than training. It may need more elements: which slots are free when a
request is placed is another matter then, and a small tensor may hold a large slot when a large
tensor comes.
-/

namespace LayerGraph.Store

variable {α : Type} {s s' : Store α} {mode : RunMode}

theorem map_snd_planRequests (s : Store α) (mode : RunMode) :
    (s.planRequests mode).map (·.2) = s.entries.filterMap (s.planRequest? mode) := by
  unfold planRequests
  rw [List.map_filterMap]
  conv_rhs => rw [← List.zipIdx_map_fst 0 s.entries, List.filterMap_map]
  refine List.filterMap_congr fun p _ => ?_
  cases h : s.planRequest? mode p.1 <;> simp [h]

theorem first_le_last_of_planRequests : ∀ r ∈ (s.planRequests mode).map (·.2),
    r.first ≤ r.last := by
  intro r hr
  rw [map_snd_planRequests] at hr
  obtain ⟨e, -, he⟩ := List.mem_filterMap.mp hr
  exact (planRequest?_eq_some he).2.2.2.1

theorem usedSteps_subset (e : TensorRecord α) : s.usedSteps mode e ⊆ s.usedSteps .train e := by
  cases mode with
  | train => exact fun _ h => h
  | inference => exact fun _ h => (List.mem_filter.mp h).1

/-- The steps at which a request begins and ends are steps of use. -/
theorem planRequest?_ends {e : TensorRecord α} {r : SlotRequest}
    (h : s.planRequest? mode e = some r) :
    r.first ∈ s.usedSteps mode e ∧ r.last ∈ s.usedSteps mode e ∧
      r.exclusive = decide (e.role = .external ∨ e.lifetime = .run) := by
  unfold planRequest? at h
  split at h
  · cases h
  · split at h
    · next first last hfirst hlast =>
      cases h
      exact ⟨(List.min?_eq_some_iff.mp hfirst).1, (List.max?_eq_some_iff.mp hlast).1, rfl⟩
    · cases h

/-- What asks for a slot in any mode asks for one in training, of the same size and for no
shorter. -/
theorem planRequest?_train {e : TensorRecord α} {r : SlotRequest}
    (h : s.planRequest? mode e = some r) :
    ∃ r', s.planRequest? .train e = some r' ∧ r'.first ≤ r.first ∧ r.last ≤ r'.last ∧
      r'.size = r.size ∧ r'.exclusive = r.exclusive := by
  obtain ⟨hsource, hkept, -⟩ := planRequest?_eq_some h
  obtain ⟨hfirst, hlast, hexclusive⟩ := planRequest?_ends h
  obtain ⟨r', hr'⟩ := exists_planRequest? hsource hkept (usedSteps_subset e hfirst)
  have hspan := (planRequest?_eq_some hr').2.2.2.2
  exact ⟨r', hr', (hspan _ (usedSteps_subset e hfirst)).1, (hspan _ (usedSteps_subset e hlast)).2,
    (size_planRequest? hr').trans (size_planRequest? h).symm,
    (planRequest?_ends hr').2.2.trans hexclusive.symm⟩

/-- What is asked of more requests as they are in use for longer is asked of most in training. -/
theorem countP_planRequests_le {p : SlotRequest → Bool}
    (hp : ∀ r r' : SlotRequest, r'.first ≤ r.first → r.last ≤ r'.last → r'.exclusive = r.exclusive →
      p r = true → p r' = true) :
    ((s.planRequests mode).map (·.2)).countP p ≤ ((s.planRequests .train).map (·.2)).countP p := by
  rw [map_snd_planRequests, map_snd_planRequests, List.countP_filterMap, List.countP_filterMap]
  refine List.countP_mono_left fun e _ he => ?_
  cases hr : s.planRequest? mode e with
  | none =>
    rw [hr] at he
    cases he
  | some r =>
    rw [hr] at he
    obtain ⟨r', hr', hfirst, hlast, -, hexclusive⟩ := planRequest?_train hr
    rw [hr']
    exact hp r r' hfirst hlast hexclusive he

theorem slotCount_planRequests_le (s : Store α) (mode : RunMode) :
    (SlotPlan.plan ((s.planRequests mode).map (·.2)) true).slotCount ≤
      (SlotPlan.plan ((s.planRequests .train).map (·.2)) true).slotCount := by
  refine SlotPlan.slotCount_mono first_le_last_of_planRequests first_le_last_of_planRequests ?_
    fun t => ?_
  · exact countP_planRequests_le fun _ _ _ _ hexclusive hr => hexclusive.trans hr
  · refine countP_planRequests_le fun r r' hfirst hlast hexclusive hr => ?_
    simp only [SlotRequest.sharesAt, Bool.and_eq_true, decide_eq_true_eq] at hr ⊢
    exact ⟨hexclusive ▸ hr.1, hfirst.trans hr.2.1, hr.2.2.trans hlast⟩

theorem sum_size_planRequests_le (s : Store α) (mode : RunMode) :
    (((s.planRequests mode).map (·.2)).map (·.size)).sum ≤
      (((s.planRequests .train).map (·.2)).map (·.size)).sum := by
  rw [map_snd_planRequests, map_snd_planRequests]
  induction s.entries with
  | nil => exact Nat.le_refl _
  | cons e entries ih =>
    cases hr : s.planRequest? mode e with
    | none =>
      rw [List.filterMap_cons_none hr]
      refine ih.trans ((List.Sublist.map _ ?_).sum_le_sum fun _ _ => Nat.zero_le _)
      exact (List.sublist_cons_self e entries).filterMap _
    | some r =>
      obtain ⟨r', hr', -, -, hsize, -⟩ := planRequest?_train hr
      rw [List.filterMap_cons_some hr, List.filterMap_cons_some hr', List.map_cons,
        List.map_cons, List.sum_cons, List.sum_cons, hsize]
      exact Nat.add_le_add_left ih _

/-- Without a limit every allocation ends well. -/
theorem allocate_of_unlimited (hlimit : s.memoryLimit = none) (hmode : s.mode = none)
    (mode : RunMode) :
    ∃ s', allocate mode s = .ok () s' ∧ s'.plan = SlotPlan.plan ((s.planRequests mode).map (·.2))
      s.optimize := by
  have hreleased : s.released = s := by
    unfold released hasTensors
    rw [hmode]
    rfl
  have hplanned : ∃ s', planned mode s = .ok s' ∧
      s'.plan = SlotPlan.plan ((s.planRequests mode).map (·.2)) s.optimize := by
    unfold planned checkBudget
    rw [hlimit]
    exact ⟨_, rfl, rfl⟩
  obtain ⟨s', hok, hplan⟩ := hplanned
  rw [allocate_of_ne (by rw [hmode]; exact nofun), hreleased]
  exact ⟨s', Action.update_of_ok hok, hplan⟩

/-- Inference plans no more slots than training. It plans no more elements if all tensors that are
given slots have one size, and in any case none that training would not need without sharing. -/
theorem inference_plans_le (s : Store α) (hoptimize : s.optimize = true)
    (hlimit : s.memoryLimit = none) (hmode : s.mode = none) :
    ∃ inferring training unshared, allocate .inference s = .ok () inferring ∧
      allocate .train s = .ok () training ∧
      allocate .train { s with optimize := false } = .ok () unshared ∧
      inferring.slotCount ≤ training.slotCount ∧
      (∀ size, (∀ r ∈ s.planRequests .train, r.2.size = size) →
        inferring.slotElements ≤ training.slotElements) ∧
      inferring.slotElements ≤ unshared.slotElements := by
  obtain ⟨inferring, hinferring, hi⟩ := allocate_of_unlimited hlimit hmode .inference
  obtain ⟨training, htraining, ht⟩ := allocate_of_unlimited hlimit hmode .train
  obtain ⟨unshared, hunshared, hu⟩ :=
    allocate_of_unlimited (s := { s with optimize := false }) hlimit hmode .train
  rw [hoptimize] at hi ht
  have hcount := slotCount_planRequests_le s .inference
  refine ⟨inferring, training, unshared, hinferring, htraining, hunshared, ?_,
    fun size hsize => ?_, ?_⟩
  · rw [slotCount, slotCount, hi, ht]
    exact hcount
  · have htrain : ∀ r ∈ (s.planRequests .train).map (·.2), r.size = size := by
      intro r hr
      obtain ⟨p, hp, rfl⟩ := List.mem_map.mp hr
      exact hsize p hp
    have hinfer : ∀ r ∈ (s.planRequests .inference).map (·.2), r.size = size := by
      intro r hr
      rw [map_snd_planRequests] at hr htrain
      obtain ⟨e, he, hr⟩ := List.mem_filterMap.mp hr
      obtain ⟨r', hr', -, -, hsame, -⟩ := planRequest?_train hr
      exact hsame.symm.trans (htrain r' (List.mem_filterMap.mpr ⟨e, he, hr'⟩))
    rw [slotElements, slotElements, hi, ht, SlotPlan.elements_of_uniform true hinfer,
      SlotPlan.elements_of_uniform true htrain]
    exact Nat.mul_le_mul_right _ hcount
  · rw [slotElements, slotElements, hi, hu]
    refine (SlotPlan.elements_le _ true).trans ?_
    change _ ≤ (SlotPlan.plan ((s.planRequests .train).map (·.2)) false).elements
    rw [SlotPlan.elements_plan_false]
    exact sum_size_planRequests_le s .inference

/-- Three tensors in an iteration of two steps forward and two backward. The first is read again at
the end. -/
def staggered : Store Float32 :=
  (do
    let _ ← request "kept" ⟨1, 1⟩ .zeros .iteration .temporary [1, 3]
    let _ ← request "early" ⟨1, 2⟩ .zeros .forward .temporary [0]
    let _ ← request "late" ⟨1, 2⟩ .zeros .forward .temporary [1] :
      Action (Store Float32) Unit).after ((empty true none).setBounds 2 3)

theorem staggered_plans_le : staggered.optimize = true ∧ staggered.memoryLimit = none ∧
    staggered.mode = none ∧ ∃ inferring training unshared,
      allocate .inference staggered = .ok () inferring ∧
      allocate .train staggered = .ok () training ∧
      allocate .train { staggered with optimize := false } = .ok () unshared ∧
      inferring.slotCount ≤ training.slotCount ∧
      (∀ size, (∀ r ∈ staggered.planRequests .train, r.2.size = size) →
        inferring.slotElements ≤ training.slotElements) ∧
      inferring.slotElements ≤ unshared.slotElements :=
  ⟨rfl, rfl, rfl, inference_plans_le staggered rfl rfl rfl⟩

/-- In training `late` is placed before `kept` and takes the slot of `early`. In inference both are
in use for one step, `kept` is placed first and takes that slot, and `late` is left to open another
one. -/
theorem staggered_elements : ∃ training inferring, allocate .train staggered = .ok () training ∧
    allocate .inference staggered = .ok () inferring ∧ training.slotElements = 3 ∧
    inferring.slotElements = 4 := by
  obtain ⟨training, htraining, ht⟩ := allocate_of_unlimited (s := staggered) rfl rfl .train
  obtain ⟨inferring, hinferring, hi⟩ := allocate_of_unlimited (s := staggered) rfl rfl .inference
  refine ⟨training, inferring, htraining, hinferring, ?_, ?_⟩
  · rw [slotElements, ht, SlotPlan.plan, SlotPlan.placeAll_of_perm
      [(⟨0, 0, 2, false⟩, 1), (⟨1, 1, 2, false⟩, 2), (⟨1, 3, 1, false⟩, 0)]
      (by decide +kernel) (by decide)]
    rfl
  · rw [slotElements, hi, SlotPlan.plan, SlotPlan.placeAll_of_perm
      [(⟨0, 0, 2, false⟩, 1), (⟨1, 1, 1, false⟩, 0), (⟨1, 1, 2, false⟩, 2)]
      (by decide +kernel) (by decide)]
    rfl

end LayerGraph.Store
