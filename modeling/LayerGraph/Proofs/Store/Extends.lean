import LayerGraph.Store.Request
import LayerGraph.Proofs.Store.Access

/-!
# Growing tables

While a network is prepared the tables of its store only grow: what is registered stays what it is,
and is used at no fewer steps. Only the batch of an entry may change later.
-/

namespace LayerGraph

variable {α : Type}

/-- An entry later on. -/
structure TensorRecord.Becomes (e e' : TensorRecord α) : Prop where
  batched : e'.batched = e.batched
  lifetime : e'.lifetime = e.lifetime
  role : e'.role = e.role
  source : e'.source = e.source
  width : e'.shape.width = e.shape.width
  fixed : e.batched = false → e'.shape = e.shape
  steps : e.steps ⊆ e'.steps

namespace TensorRecord.Becomes

theorem refl (e : TensorRecord α) : e.Becomes e :=
  ⟨rfl, rfl, rfl, rfl, rfl, fun _ => rfl, List.Subset.refl _⟩

theorem trans {e₁ e₂ e₃ : TensorRecord α} (h : e₁.Becomes e₂) (h' : e₂.Becomes e₃) :
    e₁.Becomes e₃ where
  batched := h'.batched.trans h.batched
  lifetime := h'.lifetime.trans h.lifetime
  role := h'.role.trans h.role
  source := h'.source.trans h.source
  width := h'.width.trans h.width
  fixed hb := (h'.fixed (h.batched.trans hb)).trans (h.fixed hb)
  steps := List.Subset.trans h.steps h'.steps

theorem addSteps (e : TensorRecord α) (steps : List Nat) :
    e.Becomes { e with steps := e.steps ++ steps } :=
  ⟨rfl, rfl, rfl, rfl, rfl, fun _ => rfl, List.subset_append_left _ _⟩

end TensorRecord.Becomes

namespace Store

/-- A store later on. -/
structure Extends (s s' : Store α) : Prop where
  entry : ∀ (id : Nat) e, s.entries[id]? = some e → ∃ e', s'.entries[id]? = some e' ∧ e.Becomes e'
  weight : ∀ (w : Nat) r, s.weights[w]? = some r → ∃ r', s'.weights[w]? = some r' ∧
    r'.name = r.name ∧ r'.value = r.value ∧ ∀ g, r.gradient = some g → r'.gradient = some g
  maxStep : s'.maxStep = s.maxStep

/-- The steps at which the buffer behind a tensor is used. -/
def stepsOf (s : Store α) (id : TensorRef) : List Nat :=
  ((s.backing id).map (·.steps)).getD []

namespace Extends

theorem refl (s : Store α) : s.Extends s :=
  ⟨fun _ e h => ⟨e, h, .refl e⟩, fun _ r h => ⟨r, h, rfl, rfl, fun _ h => h⟩, rfl⟩

theorem trans {s₁ s₂ s₃ : Store α} (h : s₁.Extends s₂) (h' : s₂.Extends s₃) : s₁.Extends s₃ where
  entry id e he := by
    obtain ⟨e₂, he₂, hb⟩ := h.entry id e he
    obtain ⟨e₃, he₃, hb'⟩ := h'.entry id e₂ he₂
    exact ⟨e₃, he₃, hb.trans hb'⟩
  weight w r hr := by
    obtain ⟨r₂, hr₂, hn, hv, hg⟩ := h.weight w r hr
    obtain ⟨r₃, hr₃, hn', hv', hg'⟩ := h'.weight w r₂ hr₂
    exact ⟨r₃, hr₃, hn'.trans hn, hv'.trans hv, fun g hrg => hg' g (hg g hrg)⟩
  maxStep := h'.maxStep.trans h.maxStep

variable {s s' : Store α} (h : s.Extends s')
include h

theorem rootOf {id : TensorRef} {e : TensorRecord α} (he : s.entries[id]? = some e) :
    s'.rootOf id = s.rootOf id := by
  obtain ⟨e', he', hb⟩ := h.entry id e he
  unfold Store.rootOf
  rw [he, he']
  simp only [hb.source]

theorem backing {id : TensorRef} {e : TensorRecord α} (he : s.backing id = some e) :
    ∃ e', s'.backing id = some e' ∧ e.Becomes e' := by
  obtain ⟨⟨e₀, he₀⟩, he⟩ := backing_eq_some_iff.mp he
  obtain ⟨e', he', hb⟩ := h.entry _ e he
  obtain ⟨e₁, he₁, -⟩ := h.entry id e₀ he₀
  refine ⟨e', backing_eq_some_iff.mpr ⟨⟨e₁, he₁⟩, ?_⟩, hb⟩
  rw [h.rootOf he₀]
  exact he'

theorem stepsOf {id : TensorRef} {t : Nat} (ht : t ∈ s.stepsOf id) : t ∈ s'.stepsOf id := by
  unfold Store.stepsOf at ht ⊢
  cases hb : s.backing id with
  | none =>
    rw [hb] at ht
    cases ht
  | some e =>
    rw [hb] at ht
    obtain ⟨e', he', hbe⟩ := h.backing hb
    rw [he']
    exact hbe.steps ht

theorem length_le : s.entries.length ≤ s'.entries.length := by
  by_contra hlt
  have hlt : s'.entries.length < s.entries.length := by omega
  obtain ⟨e', he', -⟩ := h.entry s'.entries.length _ (List.getElem?_eq_getElem hlt)
  simp at he'

end Extends

/-- Entries are added at the end and used at more steps; the table of weights stays as it is. -/
theorem extends_of_entries {s : Store α} {entries : List (TensorRecord α)}
    (h : ∀ (id : Nat) e, s.entries[id]? = some e → ∃ e', entries[id]? = some e' ∧ e.Becomes e') :
    s.Extends { s with entries := entries } :=
  ⟨h, fun _ r hr => ⟨r, hr, rfl, rfl, fun _ hg => hg⟩, rfl⟩

theorem extends_push (s : Store α) (e : TensorRecord α) :
    s.Extends { s with entries := s.entries ++ [e] } := by
  refine extends_of_entries fun id e' he => ⟨e', ?_, .refl e'⟩
  rw [List.getElem?_append_left (List.getElem?_eq_some_iff.mp he).1]
  exact he

theorem extends_modify (s : Store α) (id : TensorRef) (steps : List Nat) :
    s.Extends { s with
      entries := s.entries.modify id fun e => { e with steps := e.steps ++ steps } } := by
  refine extends_of_entries fun id' e he => ?_
  rw [List.getElem?_modify, he]
  by_cases hid : id = id'
  · exact ⟨_, by simp [hid], .addSteps e steps⟩
  · exact ⟨e, by simp [hid], .refl e⟩

theorem extends_modifyWeight (s : Store α) (w : WeightRef) (f : WeightRecord → WeightRecord)
    (hf : ∀ r, (f r).name = r.name ∧ (f r).value = r.value ∧ ∀ g, r.gradient = some g →
      (f r).gradient = some g) : s.Extends { s with weights := s.weights.modify w f } := by
  refine ⟨fun id e he => ⟨e, he, .refl e⟩, fun v r hr => ?_, rfl⟩
  rw [List.getElem?_modify, hr]
  by_cases hv : w = v
  · exact ⟨f r, by simp [hv], hf r⟩
  · exact ⟨r, by simp [hv], rfl, rfl, fun _ hg => hg⟩

theorem extends_pushWeight (s : Store α) (r : WeightRecord) :
    s.Extends { s with weights := s.weights ++ [r] } := by
  refine ⟨fun id e he => ⟨e, he, .refl e⟩, fun v r' hr => ⟨r', ?_, rfl, rfl, fun _ hg => hg⟩, rfl⟩
  rw [List.getElem?_append_left (List.getElem?_eq_some_iff.mp hr).1]
  exact hr

end Store

end LayerGraph
