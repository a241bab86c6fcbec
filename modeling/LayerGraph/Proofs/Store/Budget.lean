import LayerGraph.Proofs.Store.Reworked
import LayerGraph.Proofs.Store.Tables
import Mathlib.Algebra.GroupWithZero.Nat
import Mathlib.Algebra.Order.BigOperators.Group.List
import Mathlib.Algebra.Order.Group.Nat
import Mathlib.Data.List.Perm.Subperm

/-!
# The budget of a store

A slot is as large as the largest tensor that it serves, so the values in slots come to no more than
what the plan reserves, and what is kept comes to no more than all weights and optimizer state.
Slots and kept values are counted together when either is allocated, and nothing that happens in
between makes one of them grow.
-/

namespace LayerGraph

/-- The weights of distinct positions of a list come to no more than the sizes of its elements. -/
theorem sum_map_le_of_nodup {β : Type} {keys : List Nat} {xs : List β} {weight : Nat → Nat}
    {size : β → Nat} (hd : keys.Nodup) (h : ∀ i ∈ keys, ∃ x, xs[i]? = some x ∧ weight i ≤ size x) :
    (keys.map weight).sum ≤ (xs.map size).sum := by
  have hbound : ∀ i ∈ keys, weight i ≤ (xs[i]?.map size).getD 0 := by
    intro i hi
    obtain ⟨x, hx, hle⟩ := h i hi
    rw [hx]
    exact hle
  have hsub : keys ⊆ List.range xs.length := by
    intro i hi
    obtain ⟨x, hx, -⟩ := h i hi
    exact List.mem_range.mpr (List.getElem?_eq_some_iff.mp hx).1
  obtain ⟨picked, hperm, hpicked⟩ := hd.subperm hsub
  have hall : ((List.range xs.length).map fun i => (xs[i]?.map size).getD 0) = xs.map size := by
    refine List.ext_getElem (by simp) fun i hi _ => ?_
    have hi : i < xs.length := by simpa using hi
    simp [hi]
  calc (keys.map weight).sum ≤ (keys.map fun i => (xs[i]?.map size).getD 0).sum :=
    List.sum_le_sum hbound
    _ = (picked.map fun i => (xs[i]?.map size).getD 0).sum := ((hperm.map _).sum_eq).symm
    _ ≤ ((List.range xs.length).map fun i => (xs[i]?.map size).getD 0).sum :=
      (hpicked.map _).sum_le_sum fun _ _ => Nat.zero_le _
    _ = (xs.map size).sum := by rw [hall]

namespace Store

variable {α : Type} {s s' : Store α} {limit : Nat}

/-- The elements of the value that a slot holds. -/
def slotSize (slot : Option (TensorRef × Tensor α)) : Nat := (slot.map (·.2.shape.size)).getD 0

/-- The elements of all values that are held: in slots, as weights and as optimizer state. -/
def heldElements (s : Store α) : Nat :=
  (s.slots.map slotSize).sum + (s.persistent.map (·.2.shape.size)).sum

/-- The elements of all weights and optimizer state, once they are filled. -/
def filledElements (s : Store α) : Nat := if s.hasWeights then s.keptElements else 0

/-- A store that keeps to its limit: every value in a slot fits into the slot, every kept value is
one of a root that is counted, and what is planned and what is filled come to no more than the
limit. -/
structure Budgeted (limit : Nat) (s : Store α) : Prop extends Grounded s where
  limited : s.memoryLimit = some limit
  slotCount : s.slots.length = s.plan.slotCount
  fits : ∀ (k : Nat) slot c, s.slots[k]? = some slot → s.plan.capacities[k]? = some c →
    slotSize slot ≤ c
  room : ∀ (id k : Nat), s.slotOf.lookup id = some k →
    ∃ e c, s.entries[id]? = some e ∧ s.plan.capacities[k]? = some c ∧ e.shape.size ≤ c
  distinct : (s.persistent.map (·.1)).Nodup
  kept : ∀ p ∈ s.persistent, ∃ e, s.entries[p.1]? = some e ∧ isKeptRoot e = true ∧
    p.2.shape = e.shape
  unfilled : s.hasWeights = false → s.persistent = []
  idle : s.mode = none → s.slotOf = [] ∧ s.plan = .empty
  within : s.slotElements + s.filledElements ≤ limit

theorem keptElements_eq (s : Store α) :
    s.keptElements = (s.entries.map fun e => if isKeptRoot e then e.shape.size else 0).sum := by
  unfold keptElements
  induction s.entries with
  | nil => rfl
  | cons e rest ih =>
    rw [List.map_cons, List.sum_cons, ← ih, List.filter_cons, ← isKeptRoot]
    split
    · rfl
    · rw [Nat.zero_add]

/-- What is counted depends on the entries that are kept. -/
theorem keptElements_congr {f : TensorRecord α → TensorRecord α} (hs : s'.entries = s.entries.map f)
    (hf : ∀ e ∈ s.entries, isKeptRoot (f e) = isKeptRoot e ∧
      (isKeptRoot e = true → (f e).shape = e.shape)) : s'.keptElements = s.keptElements := by
  rw [keptElements_eq, keptElements_eq, hs, List.map_map]
  refine congrArg List.sum (List.map_congr_left fun e he => ?_)
  obtain ⟨hroot, hshape⟩ := hf e he
  simp only [Function.comp_def, hroot]
  split
  · next hk => rw [hshape hk]
  · rfl

namespace Budgeted

/-- What is held comes to no more than what is planned and filled. -/
theorem held_le (h : Budgeted limit s) : s.heldElements ≤ s.slotElements + s.filledElements := by
  refine Nat.add_le_add ?_ ?_
  · have hle : List.Forall₂ (· ≤ ·) (s.slots.map slotSize) s.plan.capacities := by
      refine List.forall₂_iff_get.mpr ⟨by rw [List.length_map]; exact h.slotCount,
        fun k hk hk' => ?_⟩
      have hlt : k < s.slots.length := by simpa using hk
      rw [List.get_eq_getElem, List.getElem_map]
      exact h.fits k s.slots[k] s.plan.capacities[k] (by simp [hlt]) (by simp [hk'])
    exact hle.sum_le_sum
  · unfold filledElements
    split
    · rw [keptElements_eq]
      have hsizes : s.persistent.map (·.2.shape.size) = (s.persistent.map (·.1)).map fun id =>
          (s.entries[id]?.map (·.shape.size)).getD 0 := by
        rw [List.map_map]
        refine List.map_congr_left fun p hp => ?_
        obtain ⟨e, he, -, hshape⟩ := h.kept p hp
        simp [he, hshape]
      rw [hsizes]
      refine sum_map_le_of_nodup h.distinct fun id hid => ?_
      obtain ⟨p, hp, rfl⟩ := List.mem_map.mp hid
      obtain ⟨e, he, hk, -⟩ := h.kept p hp
      exact ⟨e, he, by simp [he, hk]⟩
    · next hw =>
      rw [h.unfilled (by simpa using hw)]
      exact Nat.le_refl _

/-- A write puts a value of the same size in place of another. -/
theorem of_set (h : Budgeted limit s) {id : TensorRef} {v : Tensor α} (hs : s.set id v = .ok s') :
    Budgeted limit s' := by
  obtain ⟨e, he, hshape, ⟨hk, hw, rfl⟩ | ⟨hk, k, hl, rfl⟩⟩ := set_eq_ok hs
  · obtain ⟨he₀, hat⟩ := backing_eq_some_iff.mp he
    obtain ⟨e', he', hsource⟩ := h.source_of_root (root_eq_ok_iff.mpr ⟨he₀, rfl⟩)
    rw [hat] at he'
    cases he'
    refine { h with
      toGrounded := ⟨h.rooted, h.fixed⟩
      distinct := ?_
      kept := fun p hp => ?_
      unfilled := fun hw' => ?_ }
    · refine List.nodup_cons.mpr ⟨fun hmem => ?_, ?_⟩
      · obtain ⟨p, hp, heq⟩ := List.mem_map.mp hmem
        simpa [heq] using (List.mem_filter.mp hp).2
      · exact (List.filter_sublist.map _).nodup h.distinct
    · rcases List.mem_cons.mp hp with rfl | hp
      · exact ⟨e, hat, by simp [isKeptRoot, hk, hsource], hshape⟩
      · exact h.kept p (List.mem_filter.mp hp).1
    · rw [show s.hasWeights = false from hw'] at hw
      cases hw
  · refine { h with
      toGrounded := ⟨h.rooted, h.fixed⟩, slotCount := by rw [← h.slotCount]; exact List.length_set
      fits := fun j slot c hj hc => ?_ }
    rw [List.getElem?_set] at hj
    split at hj
    · next hkj =>
      subst hkj
      split at hj
      · cases hj
        obtain ⟨e', c', he', hc', hle⟩ := h.room _ k hl
        rw [(backing_eq_some_iff.mp he).2] at he'
        cases he'
        rw [show s.plan.capacities[k]? = some c from hc] at hc'
        cases hc'
        rw [slotSize, Option.map_some, Option.getD_some, hshape]
        exact hle
      · cases hj
    · exact h.fits j slot c hj hc

theorem releaseWeights (h : Budgeted limit s) : Budgeted limit s.releaseWeights :=
  { h with
    toGrounded := ⟨h.rooted, h.fixed⟩
    distinct := List.nodup_nil
    kept := nofun
    unfilled := fun _ => rfl
    within := (Nat.le_add_right _ _).trans h.within }

theorem releaseTensors (h : Budgeted limit s) : Budgeted limit s.releaseTensors :=
  { h with
    toGrounded := ⟨h.rooted, h.fixed⟩
    slotCount := rfl
    fits := nofun
    room := nofun
    idle := fun _ => ⟨rfl, rfl⟩
    within := (Nat.add_le_add_right (Nat.zero_le _) _).trans h.within }

theorem released (h : Budgeted limit s) : Budgeted limit s.released ∧ s.released.mode = none := by
  unfold Store.released
  split
  · exact ⟨h.releaseTensors, rfl⟩
  · next hm => exact ⟨h, by simpa [hasTensors] using hm⟩

theorem reset (h : Budgeted limit s) : Budgeted limit s.reset :=
  { h with
    toGrounded := ⟨nofun, nofun⟩
    slotCount := rfl
    fits := nofun
    room := nofun
    distinct := List.nodup_nil
    kept := nofun, unfilled := fun _ => rfl, idle := fun _ => ⟨rfl, rfl⟩, within := Nat.zero_le _ }

theorem setBounds (h : Budgeted limit s) (forwardSteps maxStep : Nat) :
    Budgeted limit (s.setBounds forwardSteps maxStep) :=
  { h with toGrounded := ⟨h.rooted, h.fixed⟩ }

/-- A change of entries that keeps their shapes, their sources and their roles. -/
theorem withEntries (h : Budgeted limit s) {f : TensorRecord α → TensorRecord α}
    (hf : ∀ e, (f e).source = e.source ∧ (f e).role = e.role ∧ (f e).batched = e.batched ∧
      (f e).shape = e.shape) : Budgeted limit { s with entries := s.entries.map f } := by
  have hkept : ∀ e, isKeptRoot (f e) = isKeptRoot e := by
    intro e
    unfold isKeptRoot
    rw [(hf e).1, (hf e).2.1]
  have hground : Grounded { s with entries := s.entries.map f } := by
    refine h.map ?_
    rw [List.map_map]
    refine List.map_congr_left fun e _ => ?_
    simp only [Function.comp_def, grounds, (hf e).1, (hf e).2.1, (hf e).2.2.1]
  refine { h with
    toGrounded := hground
    room := fun id k hl => ?_
    kept := fun p hp => ?_
    within := ?_ }
  · obtain ⟨e, c, he, hc, hle⟩ := h.room id k hl
    exact ⟨f e, c, by rw [List.getElem?_map, he]; rfl, hc, by rw [(hf e).2.2.2]; exact hle⟩
  · obtain ⟨e, he, hk, hshape⟩ := h.kept p hp
    exact ⟨f e, by rw [List.getElem?_map, he]; rfl, by rw [hkept]; exact hk,
      hshape.trans (hf e).2.2.2.symm⟩
  · have hsame : ({ s with entries := s.entries.map f } : Store α).keptElements = s.keptElements :=
      keptElements_congr rfl fun e _ => ⟨hkept e, fun _ => (hf e).2.2.2⟩
    have := h.within
    unfold filledElements at this ⊢
    rw [hsame]
    exact this

end Budgeted

theorem budgeted_empty (optimize : Bool) {memoryLimit : Option Nat}
    (hl : memoryLimit = some limit) :
    Budgeted limit (Store.empty optimize memoryLimit : Store α) where
  rooted := nofun
  fixed := nofun
  limited := hl
  slotCount := rfl
  fits := nofun
  room := nofun
  distinct := List.nodup_nil
  kept := nofun
  unfilled _ := rfl
  idle _ := ⟨rfl, rfl⟩
  within := Nat.zero_le _

theorem checkBudget_eq_ok {n : Nat} {u : Unit} (hl : s.memoryLimit = some limit)
    (h : s.checkBudget n = .ok u) : n ≤ limit := by
  unfold checkBudget at h
  rw [hl] at h
  dsimp only at h
  split at h
  · cases h
  · omega

section Memory

theorem keeps_budgeted_fillWeights [Scalar α] (maxStep : Nat) :
    Action.Keeps (Budgeted (α := α) limit) (fillWeights maxStep) := by
  intro s h
  rcases after_fillWeights maxStep s with hsame | ⟨hw, hok⟩
  · rw [hsame]
    exact h
  rw [Action.after_of_ok hok]
  obtain ⟨-, hcheck, -⟩ := (fillWeights_eq_ok_iff.mp hok).resolve_left fun ⟨hfilled, _⟩ => by
    rw [hw] at hfilled
    cases hfilled
  have hle := checkBudget_eq_ok h.limited hcheck
  have hlasts : ∀ e : TensorRecord α, e.lasting maxStep =
      { e with steps := (e.lasting maxStep).steps } :=
    fun e => (e.lasting_eq maxStep).1
  have hentries := h.withEntries (f := (·.lasting maxStep)) fun e => by
    rw [hlasts e]
    exact ⟨rfl, rfl, rfl, rfl⟩
  refine { h with
    toGrounded := ⟨hentries.rooted, hentries.fixed⟩
    room := hentries.room
    distinct := nodup_filled s.entries
    kept := fun p hp => ?_, unfilled := nofun, within := ?_ }
  · obtain ⟨⟨e, id⟩, hmem, hpick⟩ := List.mem_filterMap.mp hp
    dsimp only at hpick
    split at hpick
    · next hk =>
      cases hpick
      refine ⟨e.lasting maxStep, ?_, ?_, ?_⟩
      · change (s.entries.map _)[id]? = _
        rw [List.getElem?_map, List.mem_zipIdx_iff_getElem?.mp hmem]
        rfl
      · rw [hlasts e]
        exact hk
      · rw [hlasts e]
        exact Initializer.shape_fill _ _ _
    · cases hpick
  · have hsame : (s.filled maxStep).keptElements = s.keptElements :=
      keptElements_congr rfl fun e _ => by
      rw [hlasts e]
      exact ⟨rfl, fun _ => rfl⟩
    change s.slotElements + (s.filled maxStep).keptElements ≤ limit
    omega

/-- A plan that is within the limit leaves a store that is. -/
theorem budgeted_of_planned {mode : RunMode} (h : Budgeted limit s) (hp : planned mode s = .ok s') :
    Budgeted limit s' := by
  obtain ⟨_, hcheck, hp⟩ := except_bind_eq_ok_iff.mp hp
  cases hp
  refine { h with
    toGrounded := ⟨h.rooted, h.fixed⟩
    slotCount := List.length_replicate
    fits := fun k slot c hk _ => ?_
    room := fun id k hl => ?_, idle := nofun, within := checkBudget_eq_ok h.limited hcheck }
  · rw [allotted, List.getElem?_replicate] at hk
    split at hk
    · cases hk
      exact Nat.zero_le _
    · cases hk
  · obtain ⟨i, r, e, hk, hr, he, her⟩ := exists_position hl
    obtain ⟨c, hc, hle⟩ := SlotPlan.size_le_capacity (r := r) hk (by simp [hr])
    exact ⟨e, c, he, hc, by rw [← size_planRequest? her]; exact hle⟩

theorem keeps_budgeted_allocate (mode : RunMode) :
    Action.Keeps (Budgeted (α := α) limit) (allocate mode) := by
  intro s h
  by_cases hmode : s.mode = some mode
  · rw [Action.after_of_ok (allocate_of_eq hmode)]
    exact h
  · have hr := allocate_of_ne hmode
    unfold Action.after
    rw [hr]
    exact Action.keeps_update (fun s s' h hp => budgeted_of_planned h hp) s.released h.released.1

theorem budgeted_of_rebatch {batch : Nat} {u : Unit} (h : Budgeted limit s)
    (hr : rebatch batch s = .ok u s') : Budgeted limit s' := by
  obtain ⟨hmode, rfl⟩ := rebatch_eq_ok_iff.mp hr
  have hidle := h.idle (by simpa [hasTensors] using hmode)
  have hkept : ∀ e ∈ s.entries, isKeptRoot e = true → e.rebatched batch = e := fun e he hk =>
    TensorRecord.rebatched_of_fixed (h.fixed e he (Bool.and_eq_true_iff.mp hk).2) batch
  have hground : Grounded { s with entries := s.entries.map (·.rebatched batch) } := by
    refine h.map ?_
    rw [List.map_map]
    refine List.map_congr_left fun e _ => ?_
    rw [Function.comp_apply, e.rebatched_eq]
    rfl
  refine { h with
    toGrounded := hground
    room := fun id k hl => ?_
    kept := fun p hp => ?_
    within := ?_ }
  · rw [show s.slotOf = [] from hidle.1] at hl
    cases hl
  · obtain ⟨e, he, hk, hshape⟩ := h.kept p hp
    refine ⟨e, ?_, hk, hshape⟩
    rw [List.getElem?_map, he, Option.map_some, hkept e (List.mem_of_getElem? he) hk]
  · have hsame : ({ s with entries := s.entries.map (·.rebatched batch) } : Store α).keptElements =
        s.keptElements :=
      keptElements_congr rfl fun e he => ⟨by rw [e.rebatched_eq]; rfl,
        fun hk => by rw [hkept e he hk]⟩
    have := h.within
    unfold filledElements at this ⊢
    rw [hsame]
    exact this

end Memory

section Requests

/-- A store in which nothing is filled keeps to its limit whatever is requested. -/
theorem Budgeted.push (h : Budgeted limit s) (hw : s.hasWeights = false) {e : TensorRecord α}
    (he : Requested s e) : Budgeted limit { s with entries := s.entries ++ [e] } := by
  have hground := tabular_grounded.added s e he h.toGrounded
  refine { h with
    toGrounded := hground
    room := fun id k hl => ?_
    kept := fun p hp => ?_
    within := ?_ }
  · obtain ⟨e', c, he', hc, hle⟩ := h.room id k hl
    exact ⟨e', c, by rw [List.getElem?_append_left (List.getElem?_eq_some_iff.mp he').1]; exact he',
      hc, hle⟩
  · rw [show s.persistent = [] from h.unfilled hw] at hp
    cases hp
  · have := h.within
    unfold filledElements at this ⊢
    rw [hw] at this
    rw [show ({ s with entries := s.entries ++ [e] } : Store α).hasWeights = false from hw]
    exact this

theorem Budgeted.withWeights (h : Budgeted limit s) (weights : List WeightRecord) :
    Budgeted limit { s with weights := weights } :=
  { h with toGrounded := ⟨h.rooted, h.fixed⟩ }

/-- A store that keeps to its limit and in which nothing is filled or allocated. -/
def Vacant (limit : Nat) (s : Store α) : Prop :=
  Budgeted limit s ∧ s.hasWeights = false ∧ s.mode = none

theorem tabular_vacant : Tabular (Vacant (α := α) limit) where
  added s e he h := ⟨h.1.push h.2.1 he, h.2⟩
  timed s id steps h := by
    refine ⟨?_, h.2⟩
    have hground := tabular_grounded.timed s id steps h.1.toGrounded
    have hidle := h.1.idle h.2.2
    refine { h.1 with
      toGrounded := hground
      room := fun id k hl => ?_
      kept := fun p hp => ?_
      within := ?_ }
    · rw [show s.slotOf = [] from hidle.1] at hl
      cases hl
    · rw [show s.persistent = [] from h.1.unfilled h.2.1] at hp
      cases hp
    · have := h.1.within
      unfold filledElements at this ⊢
      rw [h.2.1] at this
      rw [show Store.hasWeights _ = false from h.2.1]
      exact this
  weights s weights _ h := ⟨h.1.withWeights weights, h.2⟩

theorem keeps_budgeted_requestStates (shapes : Shape → List Shape) :
    Action.Keeps (fun s : Store α => Budgeted limit s ∧ s.hasWeights = false)
      (requestStates shapes) :=
  keeps_requestStates (fun _ _ he h => ⟨h.1.push h.2 he.requested, h.2⟩)
    (fun _ weights _ h => ⟨h.1.withWeights weights, h.2⟩) shapes

end Requests

end Store

end LayerGraph
