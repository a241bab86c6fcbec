import LayerGraph.Proofs.Store.Allocation
import LayerGraph.Proofs.Store.Request

/-!
# Values of the right shapes

Whatever a store holds has the shape of its tensor, from the time a tensor is allocated until it is
released. So what is read has that shape, and a value of that shape can be written.
-/

namespace LayerGraph.Store

variable {α : Type} {s s' : Store α} {batch : Nat}

/-- Every value that is held has the shape of its tensor, and no weight lacks its value. -/
structure Loaded (s : Store α) : Prop where
  slots : ∀ (k r : Nat) (v : Tensor α), s.slots[k]? = some (some (r, v)) →
    ∃ e, s.entries[r]? = some e ∧ v.shape = e.shape
  persistent : ∀ (r : Nat) (v : Tensor α), s.persistent.lookup r = some v →
    ∃ e, s.entries[r]? = some e ∧ e.role.isKept = true ∧ v.shape = e.shape
  filled : s.hasWeights = true → ∀ (id : Nat) e, s.entries[id]? = some e → e.role.isKept = true →
    ∃ v, s.persistent.lookup id = some v

/-- A change of the tables that keeps the shapes of what is held. -/
theorem Loaded.withEntries (h : Loaded s) {entries : List (TensorRecord α)}
    {weights : List WeightRecord}
    (hshape : ∀ (id : Nat) e, s.entries[id]? = some e →
      ∃ e', entries[id]? = some e' ∧ e'.role = e.role ∧ e'.shape = e.shape)
    (hkept : s.hasWeights = true → ∀ (id : Nat) e, entries[id]? = some e → e.role.isKept = true →
      ∃ e₀, s.entries[id]? = some e₀ ∧ e₀.role.isKept = true) :
    Loaded { s with entries := entries, weights := weights } := by
  refine ⟨fun k r v hs => ?_, fun r v hl => ?_, fun hw id e he hk => ?_⟩
  · obtain ⟨e, he, hv⟩ := h.slots k r v hs
    obtain ⟨e', he', -, hs'⟩ := hshape r e he
    exact ⟨e', he', hv.trans hs'.symm⟩
  · obtain ⟨e, he, hk, hv⟩ := h.persistent r v hl
    obtain ⟨e', he', hr, hs'⟩ := hshape r e he
    exact ⟨e', he', by rw [hr]; exact hk, hv.trans hs'.symm⟩
  · obtain ⟨e₀, he₀, hk₀⟩ := hkept hw id e he hk
    exact h.filled hw id e₀ he₀ hk₀

theorem loaded_of_set {id : TensorRef} {v : Tensor α} (h : Loaded s) (hs : s.set id v = .ok s') :
    Loaded s' := by
  obtain ⟨e, he, hshape, ⟨hk, hw, rfl⟩ | ⟨hk, k, hl, rfl⟩⟩ := set_eq_ok hs
  · have hat := (backing_eq_some_iff.mp he).2
    refine ⟨h.slots, fun r w hl => ?_, fun hw id' e' he' hk' => ?_⟩
    · by_cases hr : r = s.rootOf id
      · subst hr
        rw [lookup_hold_self] at hl
        cases hl
        exact ⟨e, hat, hk, hshape⟩
      · rw [lookup_hold_of_ne hr] at hl
        exact h.persistent r w hl
    · by_cases hr : id' = s.rootOf id
      · exact ⟨v, by rw [hr, lookup_hold_self]⟩
      · obtain ⟨w, hw'⟩ := h.filled hw id' e' he' hk'
        exact ⟨w, by rw [lookup_hold_of_ne hr]; exact hw'⟩
  · refine ⟨fun j r w hs => ?_, h.persistent, h.filled⟩
    rw [List.getElem?_set] at hs
    split at hs
    · split at hs
      · cases hs
        exact ⟨e, (backing_eq_some_iff.mp he).2, hshape⟩
      · cases hs
    · exact h.slots j r w hs

section Values

variable [Scalar α] {id : TensorRef} {e : TensorRecord α}

/-- What is read has the shape of its tensor. -/
theorem shape_of_get (h : Loaded s) (he : s.backing id = some e) {v : Tensor α}
    (hv : s.get id = .ok v) : v.shape = e.shape := by
  have hat := (backing_eq_some_iff.mp he).2
  cases hk : e.role.isKept with
  | true =>
    rw [get_of_kept he hk] at hv
    split at hv
    · next w hw =>
      cases hv
      obtain ⟨e', he', -, hw'⟩ := h.persistent _ _ hw
      rw [hat] at he'
      cases he'
      exact hw'
    · cases hv
  | false =>
    cases hl : s.slotOf.lookup (s.rootOf id) with
    | none =>
      obtain ⟨he₀, he'⟩ := backing_eq_some_iff.mp he
      unfold Store.get at hv
      rw [root_eq_ok_iff.mpr ⟨he₀, rfl⟩, except_ok_bind, entry_eq_ok_iff.mpr he',
        except_ok_bind, hk, hl] at hv
      cases hv
    | some k =>
      rw [get_of_slot he hk hl] at hv
      cases hv
      cases hs : s.slots.getD k none with
      | none => exact Initializer.shape_fill _ _ _
      | some held =>
        obtain ⟨owner, w⟩ := held
        simp only [slotValue]
        split
        · next ho =>
          subst ho
          have hmem : s.slots[k]? = some (some (s.rootOf id, w)) := by
            rw [List.getD_eq_getElem?_getD] at hs
            cases hk' : s.slots[k]? with
            | none => rw [hk'] at hs; cases hs
            | some o =>
              rw [hk'] at hs
              exact congrArg some hs
          obtain ⟨e', he', hw'⟩ := h.slots k _ w hmem
          rw [hat] at he'
          cases he'
          exact hw'
        · exact Initializer.shape_fill _ _ _

/-- A kept tensor of a filled store has a value. -/
theorem exists_get_of_kept (h : Loaded s) (hw : s.hasWeights = true) (he : s.backing id = some e)
    (hk : e.role.isKept = true) : ∃ v, s.get id = .ok v := by
  obtain ⟨v, hv⟩ := h.filled hw _ e (backing_eq_some_iff.mp he).2 hk
  exact ⟨v, by rw [get_of_kept he hk, hv]⟩

end Values

section Memory

theorem loaded_releaseTensors (h : Loaded s) : Loaded s.releaseTensors :=
  ⟨by simp [releaseTensors], h.persistent, h.filled⟩

theorem loaded_releaseWeights (h : Loaded s) : Loaded s.releaseWeights :=
  ⟨h.slots, by simp [releaseWeights], nofun⟩

theorem allocated_releaseWeights (h : Allocated s) : Allocated s.releaseWeights :=
  ⟨fun mode hm => (h.placed mode hm).of_entries rfl rfl rfl fun _ _ _ => Iff.rfl, h.empty⟩

/-- A store that has been allocated anew, or has lost its slots on the way. -/
structure Reallocated (s s' : Store α) : Prop where
  entries : s'.entries = s.entries
  weights : s'.weights = s.weights
  persistent : s'.persistent = s.persistent
  forwardSteps : s'.forwardSteps = s.forwardSteps
  maxStep : s'.maxStep = s.maxStep
  hasWeights : s'.hasWeights = s.hasWeights
  allocated : s'.Allocated
  loaded : s'.Loaded

variable {mode : RunMode}

/-- Slots of the other mode are gone before new ones are planned. -/
def released (s : Store α) : Store α := if s.hasTensors then s.releaseTensors else s

theorem reallocated_released (ha : s.Allocated) (hl : s.Loaded) :
    Reallocated s s.released ∧ s.released.mode = none ∧ s.released.slots = [] := by
  unfold released
  split
  · exact ⟨⟨rfl, rfl, rfl, rfl, rfl, rfl, allocated_releaseTensors s, loaded_releaseTensors hl⟩,
      rfl, rfl⟩
  · next hm =>
    have hm : s.mode = none := by simpa [hasTensors] using hm
    exact ⟨⟨rfl, rfl, rfl, rfl, rfl, rfl, ha, hl⟩, hm, (ha.empty hm).1⟩

/-- A store with new slots for a mode, if the budget allows it. -/
def planned (mode : RunMode) (s : Store α) : Except Error (Store α) := do
  let requests := s.planRequests mode
  let plan := SlotPlan.plan (requests.map (·.2)) s.optimize
  let persistent := if s.hasWeights then s.keptElements else 0
  s.checkBudget (plan.elements + persistent)
  return s.allotted mode requests plan

theorem allocate_of_eq (h : s.mode = some mode) : allocate mode s = .ok () s := by
  simp [allocate, bind, EStateM.bind, h]

theorem allocate_of_ne (h : s.mode ≠ some mode) :
    allocate mode s = Action.update (planned mode) s.released := by
  simp only [allocate, bind, EStateM.bind, Action.get_apply, h, if_false]
  rfl

/-- An allocation changes the slots of a store and its mode alone. -/
theorem keeps_allocate_of_slots {Q : Store α → Prop}
    (hQ : ∀ s slots slotOf plan mode, Q s →
      Q { s with slots := slots, slotOf := slotOf, plan := plan, mode := mode }) (mode : RunMode) :
    Action.Keeps Q (allocate mode) := by
  intro s h
  by_cases hmode : s.mode = some mode
  · rw [Action.after_of_ok (allocate_of_eq hmode)]
    exact h
  · have hreleased : Q s.released := by
      unfold released
      split
      · exact hQ s _ _ _ _ h
      · exact h
    unfold Action.after
    rw [allocate_of_ne hmode]
    refine Action.keeps_update (fun s s' h hp => ?_) s.released hreleased
    obtain ⟨_, -, hp⟩ := except_bind_eq_ok_iff.mp hp
    cases hp
    exact hQ s _ _ _ _ h

/-- Whether an allocation ends well or fails, the store is placed for the mode it says. -/
theorem reallocated_allocate (ha : s.Allocated) (hl : s.Loaded) (mode : RunMode) :
    Reallocated s ((allocate mode).after s) ∧
      (((allocate mode).after s).mode = none ∨
        ∃ u s', allocate mode s = .ok u s' ∧ s'.mode = some mode) := by
  by_cases hmode : s.mode = some mode
  · have hr : allocate mode s = .ok () s := allocate_of_eq hmode
    rw [Action.after_of_ok hr]
    exact ⟨⟨rfl, rfl, rfl, rfl, rfl, rfl, ha, hl⟩, .inr ⟨_, _, hr, hmode⟩⟩
  · obtain ⟨hrel, hnone, hslots⟩ := reallocated_released ha hl
    have hr := allocate_of_ne hmode
    cases hp : planned mode s.released with
    | ok s' =>
      have hok : allocate mode s = .ok () s' := hr.trans (Action.update_of_ok hp)
      rw [Action.after_of_ok hok]
      obtain ⟨_, -, hp⟩ := except_bind_eq_ok_iff.mp hp
      cases hp
      refine ⟨⟨hrel.entries, hrel.weights, hrel.persistent, hrel.forwardSteps, hrel.maxStep,
        hrel.hasWeights, ⟨fun m hm => ?_, nofun⟩, ⟨fun k r v hs => ?_, hrel.loaded.persistent,
        hrel.loaded.filled⟩⟩, .inr ⟨_, _, hok, rfl⟩⟩
      · cases hm
        exact placed_of_plan s.released mode _
      · rw [allotted, List.getElem?_replicate] at hs
        split at hs <;> cases hs
    | error e =>
      have herr : allocate mode s = .error e s.released := hr.trans (Action.update_of_error hp)
      rw [Action.after_of_error herr]
      exact ⟨hrel, .inl hnone⟩

end Memory

end LayerGraph.Store
