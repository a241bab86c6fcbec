import LayerGraph.Proofs.Store.Extends

/-!
# The registry

What holds of the tables of a store at any time: an alias names an entry that is none itself, only
data has a batch, and every weight has a value, a gradient buffer and a state of its own.
-/

namespace LayerGraph

variable {α : Type}

theorem Shape.eq_of_axes {a b : Shape} (hb : a.batch = b.batch) (hw : a.width = b.width) :
    a = b := by
  obtain ⟨_, _⟩ := a
  obtain ⟨_, _⟩ := b
  simp_all

/-- Data has a batch; what belongs to a weight has none. -/
def Role.isData : Role → Bool
  | .variable | .derivative | .temporary | .external => true
  | .weight | .gradient | .optimizerState => false

theorem Role.isKept_eq_false_of_isData {role : Role} (h : role.isData = true) :
    role.isKept = false := by
  cases role <;> first | rfl | cases h

theorem Role.isData_eq_false_of_isKept {role : Role} (h : role.isKept = true) :
    role.isData = false := by
  cases role <;> first | rfl | cases h

namespace Store

structure Registry (batch : Nat) (s : Store α) : Prop where
  ofSource : ∀ (id : Nat) e r, s.entries[id]? = some e → e.source = some r →
    e.role.isData = true ∧ ∃ e', s.entries[r]? = some e' ∧ e'.source = none ∧ e'.role = e.role ∧
      e'.shape = e.shape
  batched : ∀ (id : Nat) e, s.entries[id]? = some e → e.batched = e.role.isData
  batch : ∀ (id : Nat) e, s.entries[id]? = some e → e.role.isData = true → e.shape.batch = batch
  external : ∀ (id : Nat) e, s.entries[id]? = some e → e.source = none → e.role = .external →
    0 ∈ e.steps ∧ s.maxStep ∈ e.steps
  value : ∀ (w : Nat) r, s.weights[w]? = some r →
    ∃ e, s.entries[r.value]? = some e ∧ e.role = .weight
  gradient : ∀ (w : Nat) r g, s.weights[w]? = some r → r.gradient = some g →
    ∃ e e', s.entries[g]? = some e ∧ e.role = .gradient ∧ s.entries[r.value]? = some e' ∧
      e.shape = e'.shape
  state : ∀ (w : Nat) r id, s.weights[w]? = some r → id ∈ r.optimizerState →
    ∃ e, s.entries[id]? = some e ∧ e.role = .optimizerState
  name_inj : ∀ (w w' : Nat) r r', s.weights[w]? = some r → s.weights[w']? = some r' →
    r.name = r'.name → w = w'
  value_inj : ∀ (w w' : Nat) r r', s.weights[w]? = some r → s.weights[w']? = some r' →
    r.value = r'.value → w = w'
  gradient_inj : ∀ (w w' : Nat) r r' g, s.weights[w]? = some r → s.weights[w']? = some r' →
    r.gradient = some g → r'.gradient = some g → w = w'

namespace Registry

variable {batch : Nat} {s s' : Store α}

theorem source_eq_none (h : Registry batch s) {id : Nat} {e : TensorRecord α}
    (he : s.entries[id]? = some e) (hr : e.role.isData = false) : e.source = none := by
  cases hs : e.source with
  | none => rfl
  | some r =>
    have := (h.ofSource id e r he hs).1
    rw [hr] at this
    cases this

/-- What backs a tensor has its role and shape, and is no alias. -/
theorem backing (h : Registry batch s) {id : Nat} {e : TensorRecord α}
    (he : s.entries[id]? = some e) : ∃ e', s.backing id = some e' ∧ e'.source = none ∧
      e'.role = e.role ∧ e'.shape = e.shape := by
  cases hs : e.source with
  | none => exact ⟨e, backing_of_source_eq_none he hs, hs, rfl, rfl⟩
  | some r =>
    obtain ⟨-, e', he', hs', hr', hsh'⟩ := h.ofSource id e r he hs
    refine ⟨e', backing_eq_some_iff.mpr ⟨⟨e, he⟩, ?_⟩, hs', hr', hsh'⟩
    rw [rootOf_of_source_eq_some he hs]
    exact he'

theorem backing_source (h : Registry batch s) {id : Nat} {e : TensorRecord α}
    (he : s.backing id = some e) : e.source = none := by
  obtain ⟨⟨e₀, he₀⟩, -⟩ := backing_eq_some_iff.mp he
  obtain ⟨e', he', hs, -⟩ := h.backing he₀
  rw [he] at he'
  cases he'
  exact hs

/-- A tensor that backs itself is no alias. -/
theorem source_of_rootOf (h : Registry batch s) {id : Nat} {e : TensorRecord α}
    (he : s.entries[id]? = some e) (hroot : s.rootOf id = id) : e.source = none := by
  cases hs : e.source with
  | none => rfl
  | some r =>
    obtain ⟨-, e', he', hnone, -⟩ := h.ofSource id e r he hs
    obtain rfl : r = id := (rootOf_of_source_eq_some he hs).symm.trans hroot
    rw [he] at he'
    cases he'
    exact hs.symm.trans hnone

theorem backing_value (h : Registry batch s) {w : WeightRef} {r : WeightRecord}
    (hr : s.weights[w]? = some r) : ∃ e, s.backing r.value = some e ∧ e.role = .weight := by
  obtain ⟨e, he, hrole⟩ := h.value w r hr
  exact ⟨e, backing_of_source_eq_none he (h.source_eq_none he (by rw [hrole]; rfl)), hrole⟩

theorem backing_state (h : Registry batch s) {w : WeightRef} {r : WeightRecord} {id : TensorRef}
    (hr : s.weights[w]? = some r) (hid : id ∈ r.optimizerState) :
    ∃ e, s.backing id = some e ∧ e.role = .optimizerState := by
  obtain ⟨e, he, hrole⟩ := h.state w r id hr hid
  exact ⟨e, backing_of_source_eq_none he (h.source_eq_none he (by rw [hrole]; rfl)), hrole⟩

theorem empty (batch : Nat) {s : Store α} (he : s.entries = []) (hw : s.weights = []) :
    Registry batch s := by
  constructor <;> simp [he, hw]

section Entries

variable (h : Registry batch s)
include h

theorem push {e : TensorRecord α} (hbatched : e.batched = e.role.isData)
    (hbatch : e.role.isData = true → e.shape.batch = batch)
    (hsource : ∀ r, e.source = some r →
      e.role.isData = true ∧ ∃ e', s.entries[r]? = some e' ∧ e'.source = none ∧ e'.role = e.role ∧
      e'.shape = e.shape)
    (hexternal : e.source = none → e.role = .external → 0 ∈ e.steps ∧ s.maxStep ∈ e.steps) :
    Registry batch { s with entries := s.entries ++ [e] } := by
  have hold : ∀ (id : Nat) e', s.entries[id]? = some e' → (s.entries ++ [e])[id]? = some e' := by
    intro id e' he
    rw [List.getElem?_append_left (List.getElem?_eq_some_iff.mp he).1]
    exact he
  have hcases : ∀ (id : Nat) e', (s.entries ++ [e])[id]? = some e' →
      s.entries[id]? = some e' ∨ e' = e := by
    intro id e' he
    rw [List.getElem?_append] at he
    split at he
    · exact .inl he
    · right
      obtain ⟨-, rfl⟩ := List.getElem?_eq_some_iff.mp he
      simp
  constructor
  · intro id e' r he hs
    rcases hcases id e' he with he | rfl
    · obtain ⟨hd, e₁, he₁, h₁⟩ := h.ofSource id e' r he hs
      exact ⟨hd, e₁, hold _ _ he₁, h₁⟩
    · obtain ⟨hd, e₁, he₁, h₁⟩ := hsource r hs
      exact ⟨hd, e₁, hold _ _ he₁, h₁⟩
  · intro id e' he
    rcases hcases id e' he with he | rfl
    · exact h.batched id e' he
    · exact hbatched
  · intro id e' he
    rcases hcases id e' he with he | rfl
    · exact h.batch id e' he
    · exact hbatch
  · intro id e' he
    rcases hcases id e' he with he | rfl
    · exact h.external id e' he
    · exact hexternal
  · intro w r hr
    obtain ⟨e₁, he₁, h₁⟩ := h.value w r hr
    exact ⟨e₁, hold _ _ he₁, h₁⟩
  · intro w r g hr hg
    obtain ⟨e₁, e₂, he₁, h₁, he₂, h₂⟩ := h.gradient w r g hr hg
    exact ⟨e₁, e₂, hold _ _ he₁, h₁, hold _ _ he₂, h₂⟩
  · intro w r id hr hid
    obtain ⟨e₁, he₁, h₁⟩ := h.state w r id hr hid
    exact ⟨e₁, hold _ _ he₁, h₁⟩
  · exact h.name_inj
  · exact h.value_inj
  · exact h.gradient_inj

/-- An edit of the entries that changes neither role nor source nor shape. -/
theorem map {f : Nat → TensorRecord α → TensorRecord α} {entries : List (TensorRecord α)}
    (hentries : ∀ id : Nat, entries[id]? = (s.entries[id]?).map (f id))
    (hf : ∀ id e, (f id e).source = e.source ∧ (f id e).role = e.role ∧ (f id e).shape = e.shape ∧
      (f id e).batched = e.batched ∧ e.steps ⊆ (f id e).steps) :
    Registry batch { s with entries := entries } := by
  have hnew : ∀ (id : Nat) e, s.entries[id]? = some e → entries[id]? = some (f id e) := by
    intro id e he
    rw [hentries, he]
    rfl
  have hof : ∀ (id : Nat) e, entries[id]? = some e → ∃ e₀, s.entries[id]? = some e₀ ∧
      e = f id e₀ := by
    intro id e he
    rw [hentries] at he
    obtain ⟨e₀, he₀, rfl⟩ := Option.map_eq_some_iff.mp he
    exact ⟨e₀, he₀, rfl⟩
  constructor
  · intro id e r he hs
    obtain ⟨e₀, he₀, rfl⟩ := hof id e he
    obtain ⟨hsource, hrole, hshape, -⟩ := hf id e₀
    rw [hsource] at hs
    rw [hrole, hshape]
    obtain ⟨hd, e₁, he₁, hs₁, hr₁, hsh₁⟩ := h.ofSource id e₀ r he₀ hs
    obtain ⟨hsource₁, hrole₁, hshape₁, -⟩ := hf r e₁
    exact ⟨hd, f r e₁, hnew _ _ he₁, hsource₁.trans hs₁, hrole₁.trans hr₁, hshape₁.trans hsh₁⟩
  · intro id e he
    obtain ⟨e₀, he₀, rfl⟩ := hof id e he
    obtain ⟨-, hrole, -, hbatched, -⟩ := hf id e₀
    rw [hrole, hbatched]
    exact h.batched id e₀ he₀
  · intro id e he
    obtain ⟨e₀, he₀, rfl⟩ := hof id e he
    obtain ⟨-, hrole, hshape, -⟩ := hf id e₀
    rw [hrole, hshape]
    exact h.batch id e₀ he₀
  · intro id e he
    obtain ⟨e₀, he₀, rfl⟩ := hof id e he
    obtain ⟨hsource, hrole, -, -, hsteps⟩ := hf id e₀
    rw [hrole, hsource]
    intro hs hr
    obtain ⟨hz, hm⟩ := h.external id e₀ he₀ hs hr
    exact ⟨hsteps hz, hsteps hm⟩
  · intro w r hr
    obtain ⟨e₁, he₁, h₁⟩ := h.value w r hr
    exact ⟨_, hnew _ _ he₁, (hf _ e₁).2.1.trans h₁⟩
  · intro w r g hr hg
    obtain ⟨e₁, e₂, he₁, h₁, he₂, h₂⟩ := h.gradient w r g hr hg
    exact ⟨_, _, hnew _ _ he₁, (hf _ e₁).2.1.trans h₁, hnew _ _ he₂,
      (hf _ e₁).2.2.1.trans (h₂.trans (hf _ e₂).2.2.1.symm)⟩
  · intro w r id hr hid
    obtain ⟨e₁, he₁, h₁⟩ := h.state w r id hr hid
    exact ⟨_, hnew _ _ he₁, (hf _ e₁).2.1.trans h₁⟩
  · exact h.name_inj
  · exact h.value_inj
  · exact h.gradient_inj

theorem modify (id : TensorRef) (steps : List Nat) :
    Registry batch { s with
      entries := s.entries.modify id fun e => { e with steps := e.steps ++ steps } } := by
  refine h.map (f := fun i e => if id = i then { e with steps := e.steps ++ steps } else e) ?_ ?_
  · intro i
    rw [List.getElem?_modify]
    rfl
  · intro i e
    split
    · exact ⟨rfl, rfl, rfl, rfl, List.subset_append_left _ _⟩
    · exact ⟨rfl, rfl, rfl, rfl, List.Subset.refl _⟩

end Entries

section Weights

variable (h : Registry batch s)
include h

theorem pushWeight {r : WeightRecord} {e : TensorRecord α} (he : s.entries[r.value]? = some e)
    (hrole : e.role = .weight) (hg : r.gradient = none) (ho : r.optimizerState = [])
    (hname : ∀ (w : Nat) r', s.weights[w]? = some r' → r'.name ≠ r.name)
    (hvalue : ∀ (w : Nat) r', s.weights[w]? = some r' → r'.value ≠ r.value) :
    Registry batch { s with weights := s.weights ++ [r] } := by
  have hcases : ∀ (w : Nat) r', (s.weights ++ [r])[w]? = some r' →
      s.weights[w]? = some r' ∨ (w = s.weights.length ∧ r' = r) := by
    intro w r' hr
    rw [List.getElem?_append] at hr
    split at hr
    · exact .inl hr
    · next hlt =>
      right
      obtain ⟨hlt', rfl⟩ := List.getElem?_eq_some_iff.mp hr
      simp only [List.length_singleton] at hlt'
      exact ⟨by omega, by simp⟩
  refine { h with
    value := ?_
    gradient := ?_
    state := ?_
    name_inj := ?_
    value_inj := ?_
    gradient_inj := ?_ }
  · intro w r' hr
    rcases hcases w r' hr with hr | ⟨-, rfl⟩
    · exact h.value w r' hr
    · exact ⟨e, he, hrole⟩
  · intro w r' g hr hg'
    rcases hcases w r' hr with hr | ⟨-, rfl⟩
    · exact h.gradient w r' g hr hg'
    · rw [hg] at hg'
      cases hg'
  · intro w r' id hr hid
    rcases hcases w r' hr with hr | ⟨-, rfl⟩
    · exact h.state w r' id hr hid
    · rw [ho] at hid
      cases hid
  · intro w w' r₁ r₂ h₁ h₂ heq
    rcases hcases w r₁ h₁ with h₃ | ⟨rfl, rfl⟩ <;> rcases hcases w' r₂ h₂ with h₄ | ⟨rfl, rfl⟩
    · exact h.name_inj w w' r₁ r₂ h₃ h₄ heq
    · exact absurd heq (hname w r₁ h₃)
    · exact absurd heq.symm (hname w' r₂ h₄)
    · rfl
  · intro w w' r₁ r₂ h₁ h₂ heq
    rcases hcases w r₁ h₁ with h₃ | ⟨rfl, rfl⟩ <;> rcases hcases w' r₂ h₂ with h₄ | ⟨rfl, rfl⟩
    · exact h.value_inj w w' r₁ r₂ h₃ h₄ heq
    · exact absurd heq (hvalue w r₁ h₃)
    · exact absurd heq.symm (hvalue w' r₂ h₄)
    · rfl
  · intro w w' r₁ r₂ g h₁ h₂ hg₁ hg₂
    rcases hcases w r₁ h₁ with h₃ | ⟨rfl, rfl⟩ <;> rcases hcases w' r₂ h₂ with h₄ | ⟨rfl, rfl⟩
    · exact h.gradient_inj w w' r₁ r₂ g h₃ h₄ hg₁ hg₂
    · rw [hg] at hg₂
      cases hg₂
    · rw [hg] at hg₁
      cases hg₁
    · rfl

/-- An edit of one weight that keeps its name and value. A gradient buffer that is new belongs to no
other weight. -/
theorem modifyWeight {w : WeightRef} {f : WeightRecord → WeightRecord}
    (hf : ∀ r, (f r).name = r.name ∧ (f r).value = r.value)
    (hg : ∀ r g, s.weights[w]? = some r → (f r).gradient = some g → r.gradient = some g ∨
      ((∃ e e', s.entries[g]? = some e ∧ e.role = .gradient ∧ s.entries[r.value]? = some e' ∧
        e.shape = e'.shape) ∧ ∀ (w' : Nat) r', s.weights[w']? = some r' → r'.gradient ≠ some g))
    (ho : ∀ r id, s.weights[w]? = some r → id ∈ (f r).optimizerState →
      ∃ e, s.entries[id]? = some e ∧ e.role = .optimizerState) :
    Registry batch { s with weights := s.weights.modify w f } := by
  have hcases : ∀ (v : Nat) r', (s.weights.modify w f)[v]? = some r' →
      ∃ r, s.weights[v]? = some r ∧ ((v = w ∧ r' = f r) ∨ (v ≠ w ∧ r' = r)) := by
    intro v r' hr
    rw [List.getElem?_modify] at hr
    obtain ⟨r, hr₀, rfl⟩ := Option.map_eq_some_iff.mp hr
    refine ⟨r, hr₀, ?_⟩
    by_cases hv : w = v
    · exact .inl ⟨hv.symm, by simp [hv]⟩
    · exact .inr ⟨Ne.symm hv, by simp [hv]⟩
  have hkeep : ∀ (v : Nat) r', (s.weights.modify w f)[v]? = some r' →
      ∃ r, s.weights[v]? = some r ∧ r'.name = r.name ∧ r'.value = r.value := by
    intro v r' hr
    obtain ⟨r, hr₀, ⟨-, rfl⟩ | ⟨-, rfl⟩⟩ := hcases v r' hr
    · exact ⟨r, hr₀, hf r⟩
    · exact ⟨r', hr₀, rfl, rfl⟩
  refine { h with
    value := ?_
    gradient := ?_
    state := ?_
    name_inj := ?_
    value_inj := ?_
    gradient_inj := ?_ }
  · intro v r' hr
    obtain ⟨r, hr, -, hv⟩ := hkeep v r' hr
    rw [hv]
    exact h.value v r hr
  · intro v r' g hr hg'
    obtain ⟨r, hr₀, ⟨rfl, rfl⟩ | ⟨-, rfl⟩⟩ := hcases v r' hr
    · rw [(hf r).2]
      rcases hg r g hr₀ hg' with hgr | ⟨hnew, -⟩
      · exact h.gradient v r g hr₀ hgr
      · exact hnew
    · exact h.gradient v r' g hr₀ hg'
  · intro v r' id hr hid
    obtain ⟨r, hr₀, ⟨rfl, rfl⟩ | ⟨-, rfl⟩⟩ := hcases v r' hr
    · exact ho r id hr₀ hid
    · exact h.state v r' id hr₀ hid
  · intro v v' r₁ r₂ h₁ h₂ heq
    obtain ⟨r₁', h₁, hn₁, -⟩ := hkeep v r₁ h₁
    obtain ⟨r₂', h₂, hn₂, -⟩ := hkeep v' r₂ h₂
    exact h.name_inj v v' r₁' r₂' h₁ h₂ (hn₁.symm.trans (heq.trans hn₂))
  · intro v v' r₁ r₂ h₁ h₂ heq
    obtain ⟨r₁', h₁, -, hv₁⟩ := hkeep v r₁ h₁
    obtain ⟨r₂', h₂, -, hv₂⟩ := hkeep v' r₂ h₂
    exact h.value_inj v v' r₁' r₂' h₁ h₂ (hv₁.symm.trans (heq.trans hv₂))
  · intro v v' r₁ r₂ g h₁ h₂ hg₁ hg₂
    obtain ⟨r₁', h₃, ⟨rfl, rfl⟩ | ⟨hne₁, rfl⟩⟩ := hcases v r₁ h₁ <;>
      obtain ⟨r₂', h₄, ⟨rfl, rfl⟩ | ⟨hne₂, rfl⟩⟩ := hcases v' r₂ h₂
    · rfl
    · rcases hg r₁' g h₃ hg₁ with hgr | ⟨-, hnew⟩
      · exact h.gradient_inj _ v' r₁' r₂ g h₃ h₄ hgr hg₂
      · exact absurd hg₂ (hnew v' r₂ h₄)
    · rcases hg r₂' g h₄ hg₂ with hgr | ⟨-, hnew⟩
      · exact h.gradient_inj v _ r₁ r₂' g h₃ h₄ hg₁ hgr
      · exact absurd hg₁ (hnew v r₁ h₃)
    · exact h.gradient_inj v v' r₁ r₂ g h₃ h₄ hg₁ hg₂

end Weights

end Registry

end Store

end LayerGraph
