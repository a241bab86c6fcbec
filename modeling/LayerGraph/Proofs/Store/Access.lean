import LayerGraph.Store.Access
import LayerGraph.Proofs.Action
import LayerGraph.Proofs.Lists

/-!
# Reading and writing

Every tensor is backed by the buffer of its root. A value that is written is read back through every
tensor of the same root, and what is in another slot stays as it is.
-/

namespace LayerGraph

namespace Store

variable {α : Type} {s s' : Store α} {id : TensorRef}

theorem entry_eq_ok_iff {e : TensorRecord α} : s.entry id = .ok e ↔ s.entries[id]? = some e := by
  unfold entry
  split
  · next e' he => rw [he, Except.ok.injEq, Option.some.injEq]
  · next hn => exact ⟨nofun, fun h => by rw [hn] at h; cases h⟩

theorem weight_eq_ok_iff {w : WeightRef} {r : WeightRecord} :
    s.weight w = .ok r ↔ s.weights[w]? = some r := by
  unfold weight
  split
  · next e' he => rw [he, Except.ok.injEq, Option.some.injEq]
  · next hn => exact ⟨nofun, fun h => by rw [hn] at h; cases h⟩

/-- The position of the entry whose buffer backs a tensor. -/
def rootOf (s : Store α) (id : TensorRef) : TensorRef :=
  match s.entries[id]? with
  | some e => e.source.getD id
  | none => id

/-- The entry whose buffer backs a tensor. -/
def backing (s : Store α) (id : TensorRef) : Option (TensorRecord α) :=
  (s.entries[id]?).bind fun _ => s.entries[s.rootOf id]?

theorem root_eq_ok_iff {r : TensorRef} :
    s.root id = .ok r ↔ (∃ e, s.entries[id]? = some e) ∧ s.rootOf id = r := by
  unfold root rootOf
  rw [except_bind_eq_ok_iff]
  simp only [entry_eq_ok_iff]
  constructor
  · rintro ⟨e, he, h⟩
    cases h
    exact ⟨⟨e, he⟩, by rw [he]⟩
  · rintro ⟨⟨e, he⟩, rfl⟩
    exact ⟨e, he, by rw [he]; rfl⟩

theorem backing_eq_some_iff {e : TensorRecord α} :
    s.backing id = some e ↔ (∃ e₀, s.entries[id]? = some e₀) ∧
    s.entries[s.rootOf id]? = some e := by
  unfold backing
  rw [Option.bind_eq_some_iff]
  exact ⟨fun ⟨e₀, he₀, h⟩ => ⟨⟨e₀, he₀⟩, h⟩, fun ⟨⟨e₀, he₀⟩, h⟩ => ⟨e₀, he₀, h⟩⟩

theorem rootEntry_eq_ok_iff {e : TensorRecord α} :
    s.rootEntry id = .ok e ↔ s.backing id = some e := by
  unfold rootEntry
  rw [except_bind_eq_ok_iff, backing_eq_some_iff]
  simp only [root_eq_ok_iff, entry_eq_ok_iff]
  exact ⟨fun ⟨r, ⟨he, hr⟩, h⟩ => ⟨he, hr ▸ h⟩, fun ⟨he, h⟩ => ⟨_, ⟨he, rfl⟩, h⟩⟩

theorem shape_eq_ok_iff {shape : Shape} :
    s.shape id = .ok shape ↔ ∃ e, s.backing id = some e ∧ e.shape = shape := by
  unfold Store.shape
  rw [except_bind_eq_ok_iff]
  simp only [rootEntry_eq_ok_iff]
  exact ⟨fun ⟨e, he, h⟩ => ⟨e, he, Except.ok.inj h⟩, fun ⟨e, he, h⟩ => ⟨e, he, congrArg _ h⟩⟩

/-- A tensor that is no alias backs itself. -/
theorem rootOf_of_source_eq_none {e : TensorRecord α} (he : s.entries[id]? = some e)
    (hs : e.source = none) : s.rootOf id = id := by
  unfold rootOf
  rw [he]
  simp [hs]

theorem rootOf_of_source_eq_some {e : TensorRecord α} {r : TensorRef}
    (he : s.entries[id]? = some e) (hs : e.source = some r) : s.rootOf id = r := by
  unfold rootOf
  rw [he]
  simp [hs]

theorem backing_of_source_eq_none {e : TensorRecord α} (he : s.entries[id]? = some e)
    (hs : e.source = none) : s.backing id = some e := by
  rw [backing_eq_some_iff, rootOf_of_source_eq_none he hs]
  exact ⟨⟨e, he⟩, he⟩

/-- Two stores with the same tables, slots and plan; they may differ in the values they hold. -/
structure SameLayout (s s' : Store α) : Prop where
  entries : s'.entries = s.entries
  weights : s'.weights = s.weights
  slotOf : s'.slotOf = s.slotOf
  slotCount : s'.slots.length = s.slots.length
  plan : s'.plan = s.plan
  forwardSteps : s'.forwardSteps = s.forwardSteps
  maxStep : s'.maxStep = s.maxStep
  optimize : s'.optimize = s.optimize
  memoryLimit : s'.memoryLimit = s.memoryLimit
  mode : s'.mode = s.mode
  hasWeights : s'.hasWeights = s.hasWeights

namespace SameLayout

theorem refl (s : Store α) : SameLayout s s :=
  ⟨rfl, rfl, rfl, rfl, rfl, rfl, rfl, rfl, rfl, rfl, rfl⟩

theorem trans {s₁ s₂ s₃ : Store α} (h : SameLayout s₁ s₂) (h' : SameLayout s₂ s₃) :
    SameLayout s₁ s₃ :=
  ⟨h'.entries.trans h.entries, h'.weights.trans h.weights, h'.slotOf.trans h.slotOf,
    h'.slotCount.trans h.slotCount, h'.plan.trans h.plan, h'.forwardSteps.trans h.forwardSteps,
    h'.maxStep.trans h.maxStep, h'.optimize.trans h.optimize, h'.memoryLimit.trans h.memoryLimit,
    h'.mode.trans h.mode, h'.hasWeights.trans h.hasWeights⟩

variable (h : SameLayout s s')
include h

theorem rootOf (id : TensorRef) : s'.rootOf id = s.rootOf id := by
  unfold Store.rootOf
  rw [h.entries]

theorem backing (id : TensorRef) : s'.backing id = s.backing id := by
  unfold Store.backing
  rw [h.rootOf, h.entries]

theorem weight (w : WeightRef) : s'.weight w = s.weight w := by
  unfold Store.weight
  rw [h.weights]

theorem shape (id : TensorRef) : s'.shape id = s.shape id := by
  have hrootEntry : s'.rootEntry id = s.rootEntry id := by
    unfold Store.rootEntry Store.root Store.entry
    rw [h.entries]
  unfold Store.shape
  rw [hrootEntry]

end SameLayout

section Values

variable [Scalar α] {v : Tensor α} {e : TensorRecord α} {k : Nat}

theorem get_of_slot (he : s.backing id = some e) (hk : e.role.isKept = false)
    (hslot : s.slotOf.lookup (s.rootOf id) = some k) :
    s.get id = .ok (slotValue (s.slots.getD k none) (s.rootOf id) e) := by
  obtain ⟨he₀, he⟩ := backing_eq_some_iff.mp he
  unfold Store.get
  rw [root_eq_ok_iff.mpr ⟨he₀, rfl⟩, except_ok_bind, entry_eq_ok_iff.mpr he,
    except_ok_bind, hk, hslot]
  rfl

theorem get_of_kept (he : s.backing id = some e) (hk : e.role.isKept = true) :
    s.get id = match s.persistent.lookup (s.rootOf id) with
      | some value => .ok value
      | none => .error .notAllocated := by
  obtain ⟨he₀, he⟩ := backing_eq_some_iff.mp he
  unfold Store.get
  rw [root_eq_ok_iff.mpr ⟨he₀, rfl⟩, except_ok_bind, entry_eq_ok_iff.mpr he, except_ok_bind, hk]
  rfl

omit [Scalar α] in
theorem set_of_slot (he : s.backing id = some e) (hk : e.role.isKept = false)
    (hshape : v.shape = e.shape) (hslot : s.slotOf.lookup (s.rootOf id) = some k) :
    s.set id v = .ok { s with slots := s.slots.set k (some (s.rootOf id, v)) } := by
  obtain ⟨he₀, he⟩ := backing_eq_some_iff.mp he
  unfold Store.set
  rw [root_eq_ok_iff.mpr ⟨he₀, rfl⟩, except_ok_bind, entry_eq_ok_iff.mpr he, except_ok_bind]
  simp [hshape, hk, hslot]

omit [Scalar α] in
theorem set_of_kept (he : s.backing id = some e) (hk : e.role.isKept = true)
    (hshape : v.shape = e.shape) (hw : s.hasWeights = true) :
    s.set id v = .ok { s with persistent := hold (s.rootOf id) v s.persistent } := by
  obtain ⟨he₀, he⟩ := backing_eq_some_iff.mp he
  unfold Store.set
  rw [root_eq_ok_iff.mpr ⟨he₀, rfl⟩, except_ok_bind, entry_eq_ok_iff.mpr he, except_ok_bind]
  simp [hshape, hk, hw]

omit [Scalar α] in
/-- A write that succeeds has found the tensor's entry, fits its shape, and changes either one slot
or one kept value. -/
theorem set_eq_ok (h : s.set id v = .ok s') : ∃ e, s.backing id = some e ∧ v.shape = e.shape ∧
    ((e.role.isKept = true ∧ s.hasWeights = true ∧
        s' = { s with persistent := hold (s.rootOf id) v s.persistent }) ∨
      (e.role.isKept = false ∧ ∃ k, s.slotOf.lookup (s.rootOf id) = some k ∧
        s' = { s with slots := s.slots.set k (some (s.rootOf id, v)) })) := by
  unfold Store.set at h
  obtain ⟨r, hr, h⟩ := except_bind_eq_ok_iff.mp h
  obtain ⟨he₀, rfl⟩ := root_eq_ok_iff.mp hr
  obtain ⟨e, he, h⟩ := except_bind_eq_ok_iff.mp h
  refine ⟨e, backing_eq_some_iff.mpr ⟨he₀, entry_eq_ok_iff.mp he⟩, ?_⟩
  dsimp only at h
  split at h
  · cases h
  · next hshape =>
    refine ⟨by simpa using hshape, ?_⟩
    split at h
    · next hk =>
      split at h
      · next hw =>
        cases h
        exact .inl ⟨hk, hw, rfl⟩
      · cases h
    · next hk =>
      split at h
      · next k hslot =>
        cases h
        exact .inr ⟨by simpa using hk, k, hslot, rfl⟩
      · cases h

omit [Scalar α] in
theorem sameLayout_of_set (h : s.set id v = .ok s') : SameLayout s s' := by
  obtain ⟨e, -, -, ⟨-, -, rfl⟩ | ⟨-, k, -, rfl⟩⟩ := set_eq_ok h
  · exact ⟨rfl, rfl, rfl, rfl, rfl, rfl, rfl, rfl, rfl, rfl, rfl⟩
  · exact ⟨rfl, rfl, rfl, List.length_set, rfl, rfl, rfl, rfl, rfl, rfl, rfl⟩

omit [Scalar α] in
theorem lookup_hold_self (id : TensorRef) (v : Tensor α) (held : List (TensorRef × Tensor α)) :
    (hold id v held).lookup id = some v := by
  simp [hold]

omit [Scalar α] in
theorem lookup_hold_of_ne {id id' : TensorRef} (h : id' ≠ id) (v : Tensor α)
    (held : List (TensorRef × Tensor α)) : (hold id v held).lookup id' = held.lookup id' := by
  have hne : (id' == id) = false := by simpa using h
  rw [hold, List.lookup_cons, hne]
  exact (lookup_filter (· ≠ id) held id').trans (if_pos (by simpa using h))

/-- What is backed by another slot, or is kept, is not touched by a write to a slot. -/
theorem get_of_set_slots {id' : TensorRef} {e' : TensorRecord α} {w : Option (TensorRef × Tensor α)}
    (he : s.backing id' = some e')
    (hne : e'.role.isKept = false → s.slotOf.lookup (s.rootOf id') ≠ some k) :
    ({ s with slots := s.slots.set k w } : Store α).get id' = s.get id' := by
  obtain ⟨he₀, he'⟩ := backing_eq_some_iff.mp he
  unfold Store.get
  have hroot : ({ s with slots := s.slots.set k w } : Store α).root id' = s.root id' := rfl
  have hentry : ∀ r, ({ s with slots := s.slots.set k w } : Store α).entry r = s.entry r :=
    fun _ => rfl
  rw [hroot, root_eq_ok_iff.mpr ⟨he₀, rfl⟩, except_ok_bind, except_ok_bind, hentry,
    entry_eq_ok_iff.mpr he', except_ok_bind, except_ok_bind]
  cases hk : e'.role.isKept with
  | true => rfl
  | false =>
    cases hl : s.slotOf.lookup (s.rootOf id') with
    | none => rfl
    | some j =>
      have hjk : k ≠ j := fun h => hne hk (h ▸ hl)
      simp [List.getD_eq_getElem?_getD, hjk]

/-- A kept value is read wherever the slots are. -/
theorem get_of_set_persistent {id' r : TensorRef} {e' : TensorRecord α}
    (he : s.backing id' = some e') (hne : e'.role.isKept = true → s.rootOf id' ≠ r) :
    ({ s with persistent := hold r v s.persistent } : Store α).get id' = s.get id' := by
  obtain ⟨he₀, he'⟩ := backing_eq_some_iff.mp he
  unfold Store.get
  have hroot : ({ s with persistent := hold r v s.persistent } : Store α).root id' = s.root id' :=
    rfl
  have hentry : ∀ r', ({ s with persistent := hold r v s.persistent } : Store α).entry r' =
      s.entry r' := fun _ => rfl
  rw [hroot, root_eq_ok_iff.mpr ⟨he₀, rfl⟩, except_ok_bind, except_ok_bind, hentry,
    entry_eq_ok_iff.mpr he', except_ok_bind, except_ok_bind]
  cases hk : e'.role.isKept with
  | true => simp only [if_true, lookup_hold_of_ne (hne hk)]
  | false => rfl

/-- A written value is read back through every tensor of the same root. -/
theorem get_of_set_self {id' : TensorRef} (h : s.set id v = .ok s')
    (hroot : s.rootOf id' = s.rootOf id) (he₀ : ∃ e₀, s.entries[id']? = some e₀)
    (hlt : ∀ k, s.slotOf.lookup (s.rootOf id) = some k → k < s.slots.length) :
    s'.get id' = .ok v := by
  obtain ⟨e, he, -, hcase⟩ := set_eq_ok h
  have hl := sameLayout_of_set h
  have he' : s'.backing id' = some e := by
    rw [hl.backing, backing_eq_some_iff, hroot]
    exact ⟨he₀, (backing_eq_some_iff.mp he).2⟩
  have hroot' : s'.rootOf id' = s.rootOf id := (hl.rootOf id').trans hroot
  rcases hcase with ⟨hk, -, rfl⟩ | ⟨hk, k, hslot, rfl⟩
  · rw [get_of_kept he' hk, hroot', lookup_hold_self]
  · rw [get_of_slot he' hk (by rw [hroot']; exact hslot), hroot']
    simp [slotValue, List.getD_eq_getElem?_getD, hlt k hslot]

end Values

end Store

end LayerGraph
