import LayerGraph.Proofs.Network.Runs
import LayerGraph.Proofs.Store.Budget

/-!
# Allocations that are refused

Weights are filled only once it is known that they are within the limit, so filling that is refused
changes nothing. Tensors are planned anew for each mode, and what was allocated for another mode is
released before that. So an allocation that is refused leaves a network without tensors if it has
come from another mode, and changes nothing otherwise.
-/

namespace LayerGraph

variable {α : Type}

namespace Store

variable {s s' : Store α} {mode : RunMode} {e : Error}

theorem checkBudget_eq_error_iff {elements : Nat} : s.checkBudget elements = .error e ↔
    ∃ limit, s.memoryLimit = some limit ∧ limit < elements ∧
    e = .resource (.overLimit elements limit) := by
  unfold checkBudget
  cases s.memoryLimit with
  | none => exact ⟨nofun, nofun⟩
  | some limit =>
    dsimp only
    split
    · next hover =>
      refine ⟨fun h => ⟨limit, rfl, hover, ?_⟩, fun ⟨_, h, _, he⟩ => ?_⟩
      · cases h
        rfl
      · cases h
        rw [he]
    · next hwithin =>
      refine ⟨nofun, fun ⟨_, h, hover, _⟩ => ?_⟩
      cases h
      exact absurd hover hwithin

/-- The elements that a store comes to if it is allocated for a mode. -/
def needed (s : Store α) (mode : RunMode) : Nat :=
  (SlotPlan.plan ((s.planRequests mode).map (·.2)) s.optimize).elements + s.filledElements

/-- What is needed for a mode does not depend on what is allocated. -/
theorem needed_released (s : Store α) (mode : RunMode) :
    s.released.needed mode = s.needed mode := by
  unfold released
  split <;> rfl

theorem planned_eq_error_iff : planned mode s = .error e ↔
    ∃ limit, s.memoryLimit = some limit ∧ limit < s.needed mode ∧
    e = .resource (.overLimit (s.needed mode) limit) := by
  rw [← checkBudget_eq_error_iff]
  unfold planned
  dsimp only
  rw [except_bind_eq_error_iff]
  exact ⟨fun h => h.resolve_right fun ⟨_, _, h⟩ => (nomatch h), .inl⟩

/-- An allocation is refused if it exceeds the limit, and then what was allocated before is
released. -/
theorem allocate_eq_error_iff : allocate mode s = .error e s' ↔ s.mode ≠ some mode ∧
    s' = s.released ∧ ∃ limit, s.memoryLimit = some limit ∧ limit < s.needed mode ∧
    e = .resource (.overLimit (s.needed mode) limit) := by
  by_cases hmode : s.mode = some mode
  · rw [allocate_of_eq hmode]
    refine ⟨fun h => ?_, fun h => absurd hmode h.1⟩
    cases h
  · have hlimit : s.released.memoryLimit = s.memoryLimit := by
      unfold released
      split <;> rfl
    rw [allocate_of_ne hmode, ← needed_released, ← hlimit, ← planned_eq_error_iff]
    unfold Action.update
    cases planned mode s.released with
    | ok s₁ =>
      refine ⟨fun h => ?_, fun h => ?_⟩
      · cases h
      · cases h.2.2
    | error e₁ =>
      refine ⟨fun h => ?_, fun h => ?_⟩
      · cases h
        exact ⟨hmode, rfl, rfl⟩
      · cases h.2.2
        rw [h.2.1]

end Store

namespace Network

variable {n n' : Network α} {mode : RunMode} {e : Error}

/-- An allocation is refused before the network is prepared, and whenever it exceeds the limit. -/
theorem allocate_eq_error_iff : allocate mode n = .error e n' ↔
    (n.isPrepared = false ∧ e = .notPrepared ∧ n' = n) ∨
    (n.isPrepared = true ∧ n.store.mode ≠ some mode ∧ n' = { n with store := n.store.released } ∧
      ∃ limit, n.store.memoryLimit = some limit ∧ limit < n.store.needed mode ∧
        e = .resource (.overLimit (n.store.needed mode) limit)) := by
  unfold allocate
  rw [Action.bind_of_ok (Action.get_apply n)]
  dsimp only
  by_cases hp : n.isPrepared = true
  · rw [if_neg (by simp [hp])]
    cases hs : Store.allocate mode n.store with
    | ok u s =>
      rw [Action.bind_of_ok (onStore_of_ok hs)]
      refine ⟨nofun, fun h => ?_⟩
      rcases h with ⟨hunprepared, -⟩ | ⟨-, hmode, -, hlimit⟩
      · exact absurd hp (by simp [hunprepared])
      · rw [Store.allocate_eq_error_iff.mpr ⟨hmode, rfl, hlimit⟩] at hs
        cases hs
    | error e₁ s =>
      obtain ⟨hmode, rfl, hlimit⟩ := Store.allocate_eq_error_iff.mp hs
      have hstore : onStore (Store.allocate mode) n =
          .error e₁ { n with store := n.store.released } :=
        Action.focus_of_error hs
      rw [Action.bind_of_error hstore]
      refine ⟨fun h => ?_, fun h => ?_⟩
      · cases h
        exact .inr ⟨hp, hmode, rfl, hlimit⟩
      · rcases h with ⟨hunprepared, -⟩ | ⟨-, -, rfl, hlimit'⟩
        · exact absurd hp (by simp [hunprepared])
        · cases hs.symm.trans (Store.allocate_eq_error_iff.mpr ⟨hmode, rfl, hlimit'⟩)
          rfl
  · have hunprepared : n.isPrepared = false := by simpa using hp
    rw [if_pos (by simp [hunprepared])]
    refine ⟨fun h => ?_, fun h => ?_⟩
    · cases h
      exact .inl ⟨hunprepared, rfl, rfl⟩
    · rcases h with ⟨-, rfl, rfl⟩ | ⟨hprepared, -⟩
      · rfl
      · exact absurd hprepared hp

theorem released_of_mode {other : RunMode} (h : n.store.mode = some other) :
    { n with store := n.store.released } = releaseTensors false n := by
  rw [Store.released, Store.hasTensors, h]
  rfl

theorem eq_of_fillWeights_error [Scalar α] (h : fillWeights n = .error e n') : n' = n := by
  unfold fillWeights at h
  rw [Action.bind_of_ok (Action.get_apply n)] at h
  dsimp only at h
  split at h
  · cases h
    rfl
  · rw [Action.bind_of_ok (Action.get_apply n)] at h
    unfold onStore Action.focus Store.fillWeights Action.update at h
    split at h
    · cases h
    · next hs =>
      split at hs
      · cases hs
      · cases hs
        cases h
        rfl

/-- What is refused changes nothing, except that an allocation for a mode releases the tensors that
are allocated for the other mode. -/
theorem retained_of_refused [Scalar α] (n : Network α) :
    (∀ e n', fillWeights n = .error e n' → n' = n) ∧
    ∀ mode e n', allocate mode n = .error e n' →
      n' = n ∨ (∃ other, other ≠ mode ∧ n.store.mode = some other) ∧
      n' = releaseTensors false n := by
  refine ⟨fun _ _ h => eq_of_fillWeights_error h, fun mode e n' h => ?_⟩
  rcases allocate_eq_error_iff.mp h with ⟨-, -, rfl⟩ | ⟨-, hmode, rfl, -⟩
  · exact .inl rfl
  cases hold : n.store.mode with
  | none =>
    refine .inl ?_
    rw [Store.released, Store.hasTensors, hold]
    rfl
  | some other =>
    exact .inr ⟨⟨other, fun heq => hmode (hold.trans (congrArg some heq)), rfl⟩,
      released_of_mode hold⟩

/-- A layer of one unit on an input of two, with a limit that is enough for inference and not for
training. It is prepared, filled and allocated for inference. -/
def serving : Network Float32 :=
  let drafted := (add (.ofLayer (.fullyConnected 1 .zeros .zeros) "y" [⟨"x", 0⟩])).after
    ((add (.ofLayer (.input 2) "x" [])).after (ofSettings ⟨1, true, some 7, []⟩))
  (allocate .inference).after
    (fillWeights.after ((prepare [] []).after ((compile none).after drafted)))

theorem reached_serving : Reached (fun _ => False) serving :=
  .allocate _ (.fillWeights (.prepare _ _ (.compile _ (.add _ (Node.isPlain_ofLayer rfl _ _)
    (.add _ (Node.isPlain_ofLayer rfl _ _) (.settings _))))))

theorem needed_serving : serving.isPrepared = true ∧ serving.store.mode = some .inference ∧
    serving.store.memoryLimit = some 7 ∧ serving.store.needed .train = 9 := by cbv

theorem allocate_serving : allocate .train serving =
    .error (.resource (.overLimit 9 7)) (releaseTensors false serving) := by
  obtain ⟨hprepared, hmode, hlimit, hneeded⟩ := needed_serving
  refine allocate_eq_error_iff.mpr (.inr ⟨hprepared, ?_, (released_of_mode hmode).symm,
      7, hlimit, ?_, ?_⟩)
  · rw [hmode]
    exact nofun
  · rw [hneeded]
    decide
  · rw [hneeded]

theorem serving_retained : ∃ e n', allocate .train serving = .error e n' ∧
    (n' = serving ∨ (∃ other, other ≠ .train ∧ serving.store.mode = some other) ∧
      n' = releaseTensors false serving) :=
  ⟨_, _, allocate_serving, (retained_of_refused serving).2 .train _ _ allocate_serving⟩

/-- The network runs until training is refused, and does not run any more then. -/
theorem serving_stopped : Reached (fun _ => False) serving ∧
    (∃ outputs n', forward false serving = .ok outputs n') ∧
    ∃ e n', allocate .train serving = .error e n' ∧ forward false n' = .error .notAllocated n' := by
  obtain ⟨mode, -, hready⟩ := reached_serving.ready (by cbv)
  obtain ⟨outputs, n', hrun, -⟩ := hready.exists_forward (.inl (Eq.refl false))
  refine ⟨reached_serving, ⟨outputs, n', hrun⟩, _, _, allocate_serving, ?_⟩
  have hchecked : checkReady (releaseTensors false serving) = .error .notAllocated := by cbv
  exact Action.bind_of_error (Action.read_of_error hchecked)

end Network

end LayerGraph
