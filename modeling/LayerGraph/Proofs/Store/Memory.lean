import LayerGraph.Proofs.Store.Extends
import LayerGraph.Store.Allocation

/-!
# What rebatching and filling make of a store

Setting the batch changes the shapes of batched entries alone, and filling extends the windows of
what is kept and gives it values.
-/

namespace LayerGraph

variable {α : Type}

namespace TensorRecord

/-- An entry with another batch, if it has a batch axis. -/
def rebatched (batch : Nat) (e : TensorRecord α) : TensorRecord α :=
  if e.batched then { e with shape := e.shape.rebatch batch } else e

theorem rebatched_of_fixed {e : TensorRecord α} (h : e.batched = false) (batch : Nat) :
    e.rebatched batch = e := by
  simp [rebatched, h]

theorem shape_rebatched {e : TensorRecord α} (h : e.batched = true) (batch : Nat) :
    (e.rebatched batch).shape = e.shape.rebatch batch := by
  simp [rebatched, h]

/-- Rebatching changes no more than the shape. -/
theorem rebatched_eq (batch : Nat) (e : TensorRecord α) :
    e.rebatched batch = { e with shape := (e.rebatched batch).shape } := by
  unfold rebatched
  split <;> rfl

theorem becomes_rebatched (batch : Nat) (e : TensorRecord α) : e.Becomes (e.rebatched batch) := by
  rw [rebatched_eq]
  refine ⟨rfl, rfl, rfl, rfl, ?_, fun h => by rw [rebatched_of_fixed h], List.Subset.refl _⟩
  unfold rebatched
  split <;> rfl

theorem lasting_of_not_kept {e : TensorRecord α} (h : e.role.isKept = false) (maxStep : Nat) :
    e.lasting maxStep = e := by
  simp [lasting, Store.isKeptRoot, h]

/-- An entry that lasts is used at more steps at most. -/
theorem lasting_eq (maxStep : Nat) (e : TensorRecord α) :
    e.lasting maxStep = { e with steps := (e.lasting maxStep).steps } ∧
    e.steps ⊆ (e.lasting maxStep).steps := by
  unfold lasting
  split
  · exact ⟨rfl, List.subset_append_left _ _⟩
  · exact ⟨rfl, List.Subset.refl _⟩

theorem becomes_lasting (maxStep : Nat) (e : TensorRecord α) : e.Becomes (e.lasting maxStep) := by
  rw [(lasting_eq maxStep e).1]
  exact ⟨rfl, rfl, rfl, rfl, rfl, fun _ => rfl, (lasting_eq maxStep e).2⟩

end TensorRecord

namespace Store

variable {s s' : Store α}

theorem rebatch_eq_ok_iff {batch : Nat} {u : Unit} : rebatch batch s = .ok u s' ↔
    s.hasTensors = false ∧ s' = { s with entries := s.entries.map (·.rebatched batch) } := by
  unfold rebatch
  rw [Action.update_eq_ok_iff]
  cases s.hasTensors with
  | true => exact ⟨nofun, fun h => nomatch h.1⟩
  | false =>
    refine ⟨fun h => ?_, fun h => by rw [h.2]; rfl⟩
    cases h
    exact ⟨rfl, rfl⟩

variable [Scalar α]

theorem fillWeights_eq_ok_iff {maxStep : Nat} {u : Unit} : fillWeights maxStep s = .ok u s' ↔
    s.hasWeights = true ∧ s' = s ∨ s.hasWeights = false ∧
      s.checkBudget (s.keptElements + s.slotElements) = .ok () ∧
      s' = s.filled maxStep := by
  unfold fillWeights
  rw [Action.update_eq_ok_iff]
  cases s.hasWeights with
  | true =>
    refine ⟨fun h => ?_, fun h => ?_⟩
    · cases h
      exact .inl ⟨rfl, rfl⟩
    · rw [(h.resolve_right fun h => nomatch h.1).2]
      rfl
  | false =>
    rw [if_neg (by simp), except_bind_eq_ok_iff]
    constructor
    · rintro ⟨_, hcheck, h⟩
      cases h
      exact .inr ⟨rfl, hcheck, rfl⟩
    · rintro (⟨h, -⟩ | ⟨-, hcheck, rfl⟩)
      · cases h
      · exact ⟨_, hcheck, rfl⟩

/-- Filling that fails leaves the store as it is. -/
theorem after_fillWeights (maxStep : Nat) (s : Store α) :
    (fillWeights maxStep).after s = s ∨ s.hasWeights = false ∧ fillWeights maxStep s = .ok ()
      (s.filled maxStep) := by
  cases h : fillWeights maxStep s with
  | ok u s' =>
    rcases fillWeights_eq_ok_iff.mp h with ⟨-, rfl⟩ | ⟨hw, -, rfl⟩
    · exact .inl (Action.after_of_ok h)
    · exact .inr ⟨hw, rfl⟩
  | error e s' =>
    refine .inl ?_
    rw [Action.after_of_error h]
    exact Action.fails_update _ (P := fun s' => s' = s) s e s' rfl h

end Store

end LayerGraph
