import LayerGraph.Proofs.SlotPlan
import Mathlib.Algebra.GroupWithZero.Nat

/-!
# What a plan owes its requests

A plan serves its requests: no two of them are in each other's way, none is given less than it has
asked for, and no slot is larger than it has to be.
-/

namespace LayerGraph

namespace SlotPlan

variable {requests : List SlotRequest} {state : Placement} {optimize : Bool}

/-- Every slot is filled by one of the requests that are placed in it. -/
def Snug (requests : List SlotRequest) (state : Placement) : Prop :=
  ∀ (k : Nat) slot, state.slots[k]? = some slot →
    ∃ i r, (i, k) ∈ state.placed ∧ requests[i]? = some r ∧ r.size = slot.capacity

theorem Snug.place (h : Snug requests state) {i : Nat} {r : SlotRequest}
    (hr : requests[i]? = some r) : Snug requests (place optimize state (r, i)) := by
  rcases place_cases optimize state r i with ⟨k, slot, -, -, hslot, -, heq⟩ | heq
  · rw [heq]
    intro k' slot' hslot'
    by_cases hk : k' = k
    · subst hk
      obtain rfl : slot.hold r = slot' := by simpa [hslot] using hslot'
      rcases Nat.le_total r.size slot.capacity with hle | hle
      · obtain ⟨j, s, hmem, hs, hsize⟩ := h k' slot hslot
        exact ⟨j, s, List.mem_cons_of_mem _ hmem, hs, by simp [OpenSlot.hold, hsize, hle]⟩
      · exact ⟨i, r, List.mem_cons_self .., hr, by simp [OpenSlot.hold, hle]⟩
    · obtain ⟨j, s, hmem, hs, hsize⟩ :=
        h k' slot' (by simpa [List.getElem?_modify, Ne.symm hk] using hslot')
      exact ⟨j, s, List.mem_cons_of_mem _ hmem, hs, hsize⟩
  · rw [heq]
    intro k' slot' hslot'
    by_cases hk : k' < state.slots.length
    · rw [List.getElem?_append_left hk] at hslot'
      obtain ⟨j, s, hmem, hs, hsize⟩ := h k' slot' hslot'
      exact ⟨j, s, List.mem_cons_of_mem _ hmem, hs, hsize⟩
    · obtain ⟨rfl, rfl⟩ : k' = state.slots.length ∧ slot' = ⟨r.last, r.size, r.exclusive⟩ := by
        rw [List.getElem?_append_right (Nat.le_of_not_lt hk), List.getElem?_singleton] at hslot'
        split at hslot'
        · next hzero => exact ⟨by omega, by simpa using hslot'.symm⟩
        · cases hslot'
      exact ⟨i, r, List.mem_cons_self .., hr, rfl⟩

/-- Every slot is used, and no larger than one of its requests. -/
theorem exists_of_slot {k c : Nat} (hk : (plan requests optimize).capacities[k]? = some c) :
    ∃ (i : Nat) (r : SlotRequest),
      (plan requests optimize).slotOf[i]? = some k ∧ requests[i]? = some r ∧ r.size = c := by
  have hsnug : Snug requests (placeAll requests optimize) :=
    placeAll_induction (fun _ _ h => by cases h) fun _ _ _ hr h => h.place hr
  obtain ⟨slot, hslot, rfl⟩ : ∃ slot, (placeAll requests optimize).slots[k]? = some slot ∧
      slot.capacity = c := by
    simpa [plan] using hk
  obtain ⟨i, r, hmem, hr, hsize⟩ := hsnug k slot hslot
  exact ⟨i, r, slotOf_eq_some_iff.mpr hmem, hr, hsize⟩

/-- A request adds no more than its size. -/
theorem sum_place_le (optimize : Bool) (state : Placement) (r : SlotRequest × Nat) :
    ((place optimize state r).slots.map (·.capacity)).sum ≤
      (state.slots.map (·.capacity)).sum + r.1.size := by
  rcases place_cases optimize state r.1 r.2 with ⟨k, slot, -, -, hslot, -, heq⟩ | heq
  · rw [heq]
    obtain ⟨before, a, behind, hsplit, -, hmodify⟩ :=
      List.exists_of_modify (·.hold r.1) (List.getElem?_eq_some_iff.mp hslot).1
    rw [hmodify, hsplit]
    simp only [List.map_append, List.map_cons, List.sum_append, List.sum_cons, OpenSlot.hold]
    omega
  · rw [heq]
    simp

theorem sum_size_sorted (requests : List SlotRequest) :
    ((requests.zipIdx.mergeSort before).map (·.1.size)).sum = (requests.map (·.size)).sum := by
  rw [((List.mergeSort_perm requests.zipIdx before).map (·.1.size)).sum_nat]
  change (requests.zipIdx.map (SlotRequest.size ∘ Prod.fst)).sum = _
  rw [← List.map_map, List.zipIdx_map_fst]

/-- A plan never holds more than all requests together. -/
theorem elements_le (requests : List SlotRequest) (optimize : Bool) :
    (plan requests optimize).elements ≤ (requests.map (·.size)).sum := by
  have hfold : ∀ (rs : List (SlotRequest × Nat)) (state : Placement),
      ((rs.foldl (place optimize) state).slots.map (·.capacity)).sum ≤
        (state.slots.map (·.capacity)).sum + (rs.map (·.1.size)).sum := by
    intro rs
    induction rs with
    | nil => simp
    | cons r rs ih =>
      intro state
      have := ih (place optimize state r)
      have := sum_place_le optimize state r
      rw [List.foldl_cons, List.map_cons, List.sum_cons]
      omega
  have := hfold (requests.zipIdx.mergeSort before) ⟨[], []⟩
  rw [sum_size_sorted] at this
  simpa [plan, elements, placeAll, List.sum] using this

/-- No two requests are placed in one slot. -/
def Separate (state : Placement) : Prop :=
  (state.placed.map (·.2)).Nodup ∧ ∀ p ∈ state.placed, p.2 < state.slots.length

theorem Separate.place {i : Nat} {r : SlotRequest} (h : Separate state) :
    Separate (place false state (r, i)) := by
  rcases place_cases false state r i with ⟨_, _, hopt, -⟩ | heq
  · cases hopt
  · rw [heq]
    have hfresh : state.slots.length ∉ state.placed.map (·.2) := by
      intro hmem
      obtain ⟨p, hp, heq⟩ := List.mem_map.mp hmem
      exact Nat.ne_of_lt (h.2 p hp) heq
    refine ⟨List.nodup_cons.mpr ⟨hfresh, h.1⟩, fun p hp => ?_⟩
    rw [List.length_append, List.length_singleton]
    rcases List.mem_cons.mp hp with rfl | hp
    · exact Nat.lt_succ_self _
    · exact Nat.lt_succ_of_lt (h.2 p hp)

theorem nodup_slotOf (requests : List SlotRequest) : (plan requests false).slotOf.Nodup := by
  have hseparate : Separate (placeAll requests false) :=
    placeAll_induction ⟨List.nodup_nil, by simp⟩ fun _ _ _ _ h => h.place
  refine List.nodup_iff_getElem?_ne_getElem?.mpr fun i j hij hj heq => ?_
  have hlt : j < requests.length := by simpa using hj
  obtain ⟨k, hk⟩ := exists_slotOf false hlt
  have hi := slotOf_eq_some_iff.mp (heq.trans hk)
  have hj := slotOf_eq_some_iff.mp hk
  have hsame : i = j := congrArg Prod.fst (List.inj_on_of_nodup_map hseparate.1 hi hj rfl)
  exact Nat.ne_of_lt hij hsame

/-- What a plan owes its requests: each has a slot; requests that share one are used at different
times, and none of them is exclusive; a slot is as large as the largest of its requests and no
larger; and without optimization nothing is shared. -/
structure Serves (requests : List SlotRequest) (optimize : Bool) (p : SlotPlan) : Prop where
  length : p.slotOf.length = requests.length
  slot : ∀ k ∈ p.slotOf, k < p.slotCount
  apart : ∀ (i j k : Nat) (r s : SlotRequest), i ≠ j → p.slotOf[i]? = some k →
    p.slotOf[j]? = some k → requests[i]? = some r → requests[j]? = some s →
      (r.last < s.first ∨ s.last < r.first) ∧ r.exclusive = false ∧ s.exclusive = false
  fits : ∀ (i k : Nat) (r : SlotRequest), p.slotOf[i]? = some k → requests[i]? = some r →
    ∃ c, p.capacities[k]? = some c ∧ r.size ≤ c
  filled : ∀ k c : Nat, p.capacities[k]? = some c →
    ∃ (i : Nat) (r : SlotRequest), p.slotOf[i]? = some k ∧ requests[i]? = some r ∧ r.size = c
  elements : p.elements ≤ (requests.map (·.size)).sum
  separate : optimize = false → p.slotOf.Nodup

theorem plan_serves (requests : List SlotRequest) (optimize : Bool)
    (hw : ∀ r ∈ requests, r.first ≤ r.last) :
    Serves requests optimize (plan requests optimize) where
  length := length_slotOf requests optimize
  slot k hk := by
    obtain ⟨i, hi⟩ := List.getElem?_of_mem hk
    exact slotOf_lt hw hi
  apart _ _ _ _ _ hij hi hj hr hs := apart_of_slotOf hw hi hj hij hr hs
  fits _ _ _ hk hr := size_le_capacity hk hr
  filled _ _ hk := exists_of_slot hk
  elements := elements_le requests optimize
  separate hoff := hoff ▸ nodup_slotOf requests

/-- Of three requests the last one goes to the smaller of two free slots. -/
theorem plan_serves_staggered :
    (∀ r ∈ [(⟨0, 0, 16, false⟩ : SlotRequest), ⟨0, 0, 4, false⟩, ⟨1, 1, 4, false⟩],
      r.first ≤ r.last) ∧
    plan [⟨0, 0, 16, false⟩, ⟨0, 0, 4, false⟩, ⟨1, 1, 4, false⟩] true = ⟨[0, 1, 1], [16, 4]⟩ ∧
    Serves [⟨0, 0, 16, false⟩, ⟨0, 0, 4, false⟩, ⟨1, 1, 4, false⟩] true
      (plan [⟨0, 0, 16, false⟩, ⟨0, 0, 4, false⟩, ⟨1, 1, 4, false⟩] true) :=
  ⟨by decide, by rw [plan, placeAll_of_perm _ (.refl _) (by decide)]; rfl,
    plan_serves _ true (by decide)⟩

end SlotPlan

end LayerGraph
