import LayerGraph.Proofs.Store.Loaded

/-!
# What a write leaves alone

A write at a step at which its buffer is in use leaves every other buffer alone whose use spans that
step. Weights and optimizer state share nothing with anything. To tell which buffers are read and
written, all others are taken away: what is left is read and written as before, and what is gone
cannot be.
-/

namespace LayerGraph.Store

variable {α : Type} {s s' : Store α} {mode : RunMode} {id id' : TensorRef} {t : Nat}

/-- The buffer of the tensor is used at a step that the mode runs. -/
def UsedIn (s : Store α) (mode : RunMode) (id : TensorRef) (t : Nat) : Prop :=
  ∃ e, s.backing id = some e ∧ e.role.isKept = false ∧ t ∈ s.usedSteps mode e

/-- The buffer of the tensor is used at the step, or before and after it, or it is shared with
nothing. -/
def Spans (s : Store α) (mode : RunMode) (id : TensorRef) (t : Nat) : Prop :=
  ∃ e, s.backing id = some e ∧ (e.role.isKept = true ∨ e.role = .external ∨
    ∃ a ∈ s.usedSteps mode e, ∃ b ∈ s.usedSteps mode e, a ≤ t ∧ t ≤ b)

theorem mem_usedSteps_iff {e : TensorRecord α} :
    t ∈ s.usedSteps mode e ↔ t ∈ e.steps ∧ (mode = .train ∨ t < s.forwardSteps) := by
  cases mode with
  | train => simp [usedSteps]
  | inference => simp [usedSteps]

theorem UsedIn.of_stepsOf {e : TensorRecord α} (he : s.backing id = some e)
    (hk : e.role.isKept = false) (ht : t ∈ s.stepsOf id)
    (hmode : mode = .train ∨ t < s.forwardSteps) : s.UsedIn mode id t := by
  obtain ⟨e', he', ht⟩ := mem_stepsOf_iff.mp ht
  rw [he] at he'
  cases he'
  exact ⟨e, he, hk, mem_usedSteps_iff.mpr ⟨ht, hmode⟩⟩

theorem Spans.of_usedIn {a b : Nat} (ha : s.UsedIn mode id a) (hb : s.UsedIn mode id b)
    (hat : a ≤ t) (htb : t ≤ b) : s.Spans mode id t := by
  obtain ⟨e, he, -, ha⟩ := ha
  obtain ⟨e', he', -, hb⟩ := hb
  rw [he] at he'
  cases he'
  exact ⟨e, he, .inr (.inr ⟨a, ha, b, hb, hat, htb⟩)⟩

namespace SameLayout

variable (h : SameLayout s s')
include h

theorem usedSteps (mode : RunMode) (e : TensorRecord α) :
    s'.usedSteps mode e = s.usedSteps mode e := by
  cases mode with
  | train => rfl
  | inference => simp only [Store.usedSteps, h.forwardSteps]

theorem usedIn (hu : s.UsedIn mode id t) : s'.UsedIn mode id t := by
  obtain ⟨e, he, hk, ht⟩ := hu
  exact ⟨e, (h.backing id).trans he, hk, by rwa [h.usedSteps]⟩

theorem spans (hs : s.Spans mode id t) : s'.Spans mode id t := by
  obtain ⟨e, he, hs⟩ := hs
  refine ⟨e, (h.backing id).trans he, ?_⟩
  simpa only [h.usedSteps] using hs

theorem placed (hp : Placed s mode) : Placed s' mode :=
  hp.of_entries h.slotOf h.slotCount h.forwardSteps fun id e _ => by rw [h.entries]

theorem registry {batch : Nat} (hr : Registry batch s) : Registry batch s' := by
  constructor <;> simp only [h.entries, h.weights, h.maxStep]
  · exact hr.ofSource
  · exact hr.batched
  · exact hr.batch
  · exact hr.external
  · exact hr.value
  · exact hr.gradient
  · exact hr.state
  · exact hr.name_inj
  · exact hr.value_inj
  · exact hr.gradient_inj

theorem collected {uses : WeightRef → List Nat} (hc : Collected uses s) : Collected uses s' := by
  constructor <;> simp only [h.weights, Store.stepsOf, h.backing]
  · exact hc.gradientSteps
  · exact hc.trainable
  · exact hc.gradient
  · exact hc.used
  · exact hc.unused

end SameLayout

section Write

variable [Scalar α] {v : Tensor α}

/-- Two buffers that are in use at one step are in different slots. -/
theorem get_of_set_apart (hp : Placed s mode) (h : s.set id v = .ok s') (hu : s.UsedIn mode id t)
    (hs : s.Spans mode id' t) (hne : s.rootOf id' ≠ s.rootOf id) : s'.get id' = s.get id' := by
  obtain ⟨e, he, hk, ht⟩ := hu
  obtain ⟨e', he', hspan⟩ := hs
  obtain ⟨e₁, he₁, -, ⟨hk₁, -⟩ | ⟨-, k, hl, rfl⟩⟩ := set_eq_ok h
  · rw [he] at he₁
    cases he₁
    rw [hk] at hk₁
    cases hk₁
  refine get_of_set_slots he' fun hk' hl' => ?_
  rcases hspan with hkept | hexternal | ⟨a, ha, b, hb, hat, htb⟩
  · rw [hk'] at hkept
    cases hkept
  · exact hp.shared _ _ k e' hne hl' hl (backing_eq_some_iff.mp he').2 hexternal
  · exact hp.apart _ _ k e' e a b t hne hl' hl (backing_eq_some_iff.mp he').2
      (backing_eq_some_iff.mp he).2 ha hb ht hat htb

/-- A write to what is kept changes nothing of another root. -/
theorem get_of_set_kept {e e' : TensorRecord α} (h : s.set id v = .ok s')
    (he : s.backing id = some e) (hk : e.role.isKept = true) (he' : s.backing id' = some e')
    (hne : s.rootOf id' ≠ s.rootOf id) : s'.get id' = s.get id' := by
  obtain ⟨e₁, he₁, -, ⟨-, -, rfl⟩ | ⟨hk₁, -⟩⟩ := set_eq_ok h
  · exact get_of_set_persistent he' fun _ => hne
  · rw [he] at he₁
    cases he₁
    rw [hk] at hk₁
    cases hk₁

/-- What is kept stays as it is when something else is written. -/
theorem get_of_set_unkept {e e' : TensorRecord α} (h : s.set id v = .ok s')
    (he : s.backing id = some e) (hk : e.role.isKept = false) (he' : s.backing id' = some e')
    (hk' : e'.role.isKept = true) : s'.get id' = s.get id' := by
  obtain ⟨e₀, he₀, -, hcase⟩ := set_eq_ok h
  rw [he] at he₀
  cases he₀
  rcases hcase with ⟨hkept, -⟩ | ⟨-, k, -, rfl⟩
  · rw [hk] at hkept
    cases hkept
  · refine get_of_set_slots he' fun hnot => ?_
    rw [hk'] at hnot
    cases hnot

end Write

section Open

variable {live : TensorRef → Bool}

/-- Whether the step lies in the window of the buffer behind the tensor. -/
def isOpenAt (s : Store α) (t : Nat) (id : TensorRef) : Bool :=
  match s.window id with
  | .ok (some (first, last)) => first ≤ t && t ≤ last
  | _ => false

/-- The store without the buffers of other roots than these. -/
def only (live : TensorRef → Bool) (s : Store α) : Store α :=
  { s with
    persistent := s.persistent.filter (live ·.1)
    slotOf := s.slotOf.filter (live ·.1) }

/-- The store without the buffers whose windows do not contain the step. -/
def openAt (t : Nat) (s : Store α) : Store α := s.only (s.isOpenAt t)

theorem SameLayout.isOpenAt (h : SameLayout s s') (t : Nat) : s'.isOpenAt t = s.isOpenAt t := by
  funext id
  unfold Store.isOpenAt window rootEntry root entry
  rw [h.entries]

theorem SameLayout.only (h : SameLayout s s') (t : Nat) : s'.only (s.isOpenAt t) = s'.openAt t := by
  rw [openAt, h.isOpenAt]

/-- A buffer that is used before a step and after it, or at it, is open there. -/
theorem Registry.isOpenAt {batch a b : Nat} (hr : Registry batch s) (ha : a ∈ s.stepsOf id)
    (hb : b ∈ s.stepsOf id) (hat : a ≤ t) (htb : t ≤ b) : s.isOpenAt t (s.rootOf id) = true := by
  obtain ⟨e, he, ha⟩ := mem_stepsOf_iff.mp ha
  obtain ⟨e', he', hb⟩ := mem_stepsOf_iff.mp hb
  obtain rfl := Option.some.inj (he.symm.trans he')
  have hroot : s.rootEntry (s.rootOf id) = .ok e :=
    rootEntry_eq_ok_iff.mpr (backing_of_source_eq_none (backing_eq_some_iff.mp he).2
      (hr.backing_source he))
  obtain ⟨first, hfirst⟩ := Option.isSome_iff_exists.mp (List.isSome_min?_of_mem ha)
  obtain ⟨last, hlast⟩ := Option.isSome_iff_exists.mp (List.isSome_max?_of_mem ha)
  have hle : first ≤ a := (List.min?_eq_some_iff.mp hfirst).2 a ha
  have hge : b ≤ last := (List.max?_eq_some_iff.mp hlast).2 b hb
  have hwindow : s.window (s.rootOf id) = .ok (some (first, last)) := by
    unfold window
    rw [hroot, except_ok_bind]
    dsimp only
    rw [hfirst, hlast]
    rfl
  unfold Store.isOpenAt
  rw [hwindow]
  simp only [Bool.and_eq_true, decide_eq_true_eq]
  omega

section Access

variable [Scalar α] {v : Tensor α}

/-- What is left is read as before. -/
theorem get_only (h : live (s.rootOf id) = true) : (s.only live).get id = s.get id := by
  unfold Store.get
  rw [show (s.only live).root id = s.root id from rfl]
  cases hroot : s.root id with
  | error e => rfl
  | ok r =>
    obtain ⟨-, rfl⟩ := root_eq_ok_iff.mp hroot
    rw [except_ok_bind, except_ok_bind, show (s.only live).entry _ = s.entry _ from rfl]
    cases s.entry (s.rootOf id) with
    | error e => rfl
    | ok e => simp only [except_ok_bind, only, lookup_filter, h, if_true]

omit [Scalar α] in
theorem filter_hold (held : List (TensorRef × Tensor α)) (h : live id = true) :
    (hold id v held).filter (live ·.1) = hold id v (held.filter (live ·.1)) := by
  rw [hold, List.filter_cons, if_pos h, List.filter_comm]
  rfl

omit [Scalar α] in
/-- What is left is written as before. -/
theorem set_only (h : live (s.rootOf id) = true) :
    (s.only live).set id v = (s.set id v).map (·.only live) := by
  unfold Store.set
  rw [show (s.only live).root id = s.root id from rfl]
  cases hroot : s.root id with
  | error e => rfl
  | ok r =>
    obtain ⟨-, rfl⟩ := root_eq_ok_iff.mp hroot
    rw [except_ok_bind, except_ok_bind, show (s.only live).entry _ = s.entry _ from rfl]
    cases s.entry (s.rootOf id) with
    | error e => rfl
    | ok e =>
      rw [except_ok_bind, except_ok_bind, show (s.only live).hasWeights = s.hasWeights from rfl,
        show (s.only live).slotOf.lookup _ = _ from lookup_filter live s.slotOf _, if_pos h]
      dsimp only
      by_cases hshape : v.shape = e.shape
      · rw [if_neg (not_not.mpr hshape), if_neg (not_not.mpr hshape)]
        by_cases hkept : e.role.isKept = true
        · rw [if_pos hkept, if_pos hkept]
          by_cases hweights : s.hasWeights = true
          · rw [if_pos hweights, if_pos hweights]
            exact congrArg (fun held => Except.ok { s.only live with persistent := held })
              (filter_hold s.persistent h).symm
          · rw [if_neg hweights, if_neg hweights]
            rfl
        · rw [if_neg hkept, if_neg hkept]
          cases s.slotOf.lookup (s.rootOf id) <;> rfl
      · rw [if_pos hshape, if_pos hshape]
        rfl

/-- What has been taken away cannot be read. -/
theorem get_only_of_not_live (h : live (s.rootOf id) = false) : (s.only live).get id ≠ .ok v := by
  intro hv
  obtain ⟨r, hroot, hv⟩ := except_bind_eq_ok_iff.mp hv
  obtain ⟨-, rfl⟩ := root_eq_ok_iff.mp hroot
  obtain ⟨e, -, hv⟩ := except_bind_eq_ok_iff.mp hv
  have hnone : live ((s.only live).rootOf id) = false := h
  dsimp only [only] at hv hnone
  rw [lookup_filter, lookup_filter, hnone] at hv
  split at hv <;> cases hv

omit [Scalar α] in
/-- A write to what has been taken away fails, or ends in a store that has what should not be
there. -/
theorem set_only_of_not_live (h : live (s.rootOf id) = false) :
    (s.only live).set id v ≠ .ok (s'.only live) := by
  intro hset
  have hnone : live ((s.only live).rootOf id) = false := h
  obtain ⟨e, -, -, ⟨-, -, heq⟩ | ⟨-, k, hslot, -⟩⟩ := set_eq_ok hset
  · have hheld := congrArg (fun t : Store α => t.persistent.lookup ((s.only live).rootOf id)) heq
    dsimp only at hheld
    rw [lookup_hold_self] at hheld
    dsimp only [only] at hheld hnone
    rw [lookup_filter, hnone] at hheld
    cases hheld
  · rw [show (s.only live).slotOf = s.slotOf.filter (live ·.1) from rfl, lookup_filter, hnone]
      at hslot
    cases hslot

end Access

end Open

end LayerGraph.Store
