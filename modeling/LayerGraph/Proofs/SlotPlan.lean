import LayerGraph.SlotPlan
import LayerGraph.Proofs.Lists
import Mathlib.Data.List.Perm.Basic

/-!
# Requests that share a slot

A slot is given to another request only after the last step of all that had it before. So two
requests in one slot have windows that do not meet, and neither of them is exclusive. No request is
larger than its slot.
-/

namespace LayerGraph

theorem mem_of_firstBest {β : Type} {better : β → β → Bool} {xs : List β} {x : β}
    (h : firstBest better xs = some x) : x ∈ xs := by
  cases xs with
  | nil => cases h
  | cons y ys =>
    have hfold : ∀ (zs : List β) (b : β),
        zs.foldl (fun best y => if better y best then y else best) b ∈ b :: zs := by
      intro zs
      induction zs with
      | nil => simp
      | cons z zs ih =>
        intro b
        rcases List.mem_cons.mp (ih (if better z b then z else b)) with heq | hmem
        · rw [List.foldl_cons, heq]
          split <;> simp
        · exact List.mem_cons_of_mem _ (List.mem_cons_of_mem _ hmem)
    cases h
    exact hfold ys y

namespace SlotPlan

theorem exists_of_reuse? {slots : List OpenSlot} {request : SlotRequest} {k : Nat}
    (h : reuse? slots request = some k) :
    ∃ slot, slots[k]? = some slot ∧ slot.isFreeFor request = true := by
  have hfree : ∀ s : OpenSlot × Nat, s ∈ slots.zipIdx.filter (fun s => s.1.isFreeFor request) →
      slots[s.2]? = some s.1 ∧ s.1.isFreeFor request = true := by
    intro s hs
    obtain ⟨hmem, hf⟩ := List.mem_filter.mp hs
    exact ⟨List.mem_zipIdx_iff_getElem?.mp hmem, hf⟩
  unfold reuse? at h
  dsimp only at h
  split at h
  · next s hs =>
    cases h
    exact ⟨s.1, hfree s (List.mem_filter.mp (mem_of_firstBest hs)).1⟩
  · obtain ⟨s, hs, rfl⟩ := Option.map_eq_some_iff.mp h
    exact ⟨s.1, hfree s (mem_of_firstBest hs)⟩

/-- A request is given a free slot, if it may share one, or a new slot. -/
theorem place_cases (optimize : Bool) (state : Placement) (r : SlotRequest) (i : Nat) :
    (∃ k slot, optimize = true ∧ r.exclusive = false ∧ state.slots[k]? = some slot ∧
      slot.isFreeFor r = true ∧
      place optimize state (r, i) = ⟨state.slots.modify k (·.hold r), (i, k) :: state.placed⟩) ∨
    place optimize state (r, i) =
      ⟨state.slots ++ [⟨r.last, r.size, r.exclusive⟩],
        (i, state.slots.length) :: state.placed⟩ := by
  unfold place
  split
  · next k hk =>
    split at hk
    · next hopt =>
      obtain ⟨slot, hslot, hfree⟩ := exists_of_reuse? hk
      obtain ⟨hopt, hexclusive⟩ := Bool.and_eq_true_iff.mp hopt
      exact .inl ⟨k, slot, hopt, by simpa using hexclusive, hslot, hfree, rfl⟩
    · cases hk
  · exact .inr rfl

/-- What is placed stands in a slot that stays in use at least as long, and what shares a slot is
apart in time. -/
structure Tidy (requests : List SlotRequest) (state : Placement) : Prop where
  held : ∀ i k, (i, k) ∈ state.placed → ∃ r slot, requests[i]? = some r ∧
    state.slots[k]? = some slot ∧ r.last ≤ slot.last ∧
    (slot.exclusive = false → r.exclusive = false)
  apart : ∀ i j k r s, (i, k) ∈ state.placed → (j, k) ∈ state.placed → i ≠ j →
    requests[i]? = some r → requests[j]? = some s →
      (r.last < s.first ∨ s.last < r.first) ∧ r.exclusive = false ∧ s.exclusive = false

variable {requests : List SlotRequest} {state : Placement} {optimize : Bool}

theorem Tidy.push (h : Tidy requests state) {i : Nat} {r : SlotRequest}
    (hr : requests[i]? = some r) :
    Tidy requests ⟨state.slots ++ [⟨r.last, r.size, r.exclusive⟩],
      (i, state.slots.length) :: state.placed⟩ where
  held := by
    intro j k hjk
    rcases List.mem_cons.mp hjk with hjk | hjk
    · cases hjk
      refine ⟨r, ⟨r.last, r.size, r.exclusive⟩, hr, ?_, Nat.le_refl _, fun hx => hx⟩
      simp
    · obtain ⟨s, slot, hs, hslot, hlast, hex⟩ := h.held j k hjk
      have hk : k < state.slots.length := (List.getElem?_eq_some_iff.mp hslot).1
      exact ⟨s, slot, hs, by rw [List.getElem?_append_left hk]; exact hslot, hlast, hex⟩
  apart := by
    have hfresh : ∀ j, (j, state.slots.length) ∉ state.placed := by
      intro j hj
      obtain ⟨_, _, _, hslot, _⟩ := h.held j _ hj
      simp at hslot
    intro a b k s t ha hb hab hs ht
    rcases List.mem_cons.mp ha with ha | ha <;> rcases List.mem_cons.mp hb with hb | hb
    · cases ha
      cases hb
      exact absurd rfl hab
    · cases ha
      exact absurd hb (hfresh b)
    · cases hb
      exact absurd ha (hfresh a)
    · exact h.apart a b k s t ha hb hab hs ht

theorem Tidy.share (h : Tidy requests state) {i k : Nat} {r : SlotRequest} {slot : OpenSlot}
    (hr : requests[i]? = some r) (hw : r.first ≤ r.last) (hx : r.exclusive = false)
    (hslot : state.slots[k]? = some slot) (hfree : slot.isFreeFor r = true) :
    Tidy requests ⟨state.slots.modify k (·.hold r), (i, k) :: state.placed⟩ := by
  obtain ⟨hsx, hlt⟩ : slot.exclusive = false ∧ slot.last < r.first := by
    simpa [OpenSlot.isFreeFor] using hfree
  have hbefore : ∀ j s, (j, k) ∈ state.placed → requests[j]? = some s →
      s.last < r.first ∧ s.exclusive = false := by
    intro j s hj hs
    obtain ⟨s', slot', hs', hslot', hlast, hex⟩ := h.held j k hj
    rw [hs] at hs'
    rw [hslot] at hslot'
    cases hs'
    cases hslot'
    exact ⟨Nat.lt_of_le_of_lt hlast hlt, hex hsx⟩
  constructor
  · intro j k' hjk
    rcases List.mem_cons.mp hjk with hjk | hmem
    · cases hjk
      exact ⟨r, slot.hold r, hr, by simp [hslot], Nat.le_refl _, fun _ => hx⟩
    · obtain ⟨s, slot', hs, hslot', hlast, hex⟩ := h.held j k' hmem
      by_cases hk : k' = k
      · subst hk
        have := hbefore j s hmem hs
        exact ⟨s, slot.hold r, hs, by simp [hslot], by simp only [OpenSlot.hold]; omega,
          fun _ => this.2⟩
      · exact ⟨s, slot', hs, by simpa [List.getElem?_modify, Ne.symm hk] using hslot', hlast, hex⟩
  · intro a b k' s t ha hb hab hs ht
    rcases List.mem_cons.mp ha with ha | ha <;> rcases List.mem_cons.mp hb with hb | hb
    · cases ha
      cases hb
      exact absurd rfl hab
    · cases ha
      rw [hr] at hs
      cases hs
      exact ⟨.inr (hbefore b t hb ht).1, hx, (hbefore b t hb ht).2⟩
    · cases hb
      rw [hr] at ht
      cases ht
      exact ⟨.inl (hbefore a s ha hs).1, (hbefore a s ha hs).2, hx⟩
    · exact h.apart a b k' s t ha hb hab hs ht

theorem Tidy.place (h : Tidy requests state) {i : Nat} {r : SlotRequest}
    (hr : requests[i]? = some r) (hw : r.first ≤ r.last) :
    Tidy requests (place optimize state (r, i)) := by
  rcases place_cases optimize state r i with ⟨k, slot, -, hexclusive, hslot, hfree, heq⟩ | heq
  · rw [heq]
    exact h.share hr hw hexclusive hslot hfree
  · rw [heq]
    exact h.push hr

theorem place_placed (optimize : Bool) (state : Placement) (r : SlotRequest × Nat) :
    (place optimize state r).placed.map (·.1) = r.2 :: state.placed.map (·.1) := by
  unfold place
  split <;> rfl

theorem foldl_place_placed (rs : List (SlotRequest × Nat)) (state : Placement) :
    ((rs.foldl (place optimize) state).placed.map (·.1)).Perm
      (rs.map (·.2) ++ state.placed.map (·.1)) := by
  induction rs generalizing state with
  | nil => exact .refl _
  | cons r rs ih =>
    rw [List.foldl_cons]
    refine (ih _).trans ?_
    rw [place_placed]
    exact List.perm_middle

variable (hw : ∀ r ∈ requests, r.first ≤ r.last)

theorem mem_sorted {r : SlotRequest × Nat} :
    r ∈ requests.zipIdx.mergeSort before ↔ requests[r.2]? = some r.1 := by
  rw [List.mem_mergeSort]
  exact List.mem_zipIdx_iff_getElem?

theorem pairwise_before (requests : List SlotRequest) :
    (requests.zipIdx.mergeSort before).Pairwise fun r s => before r s = true := by
  refine List.pairwise_mergeSort (fun a b c hab hbc => ?_) (fun a b => ?_) _
  · simp only [before, Bool.or_eq_true, Bool.and_eq_true, decide_eq_true_eq, beq_iff_eq]
      at hab hbc ⊢
    omega
  · simp only [before, Bool.or_eq_true, Bool.and_eq_true, decide_eq_true_eq, beq_iff_eq]
    omega

/-- There is one order in which requests are placed. -/
theorem placeAll_of_perm (sorted : List (SlotRequest × Nat)) (hperm : sorted.Perm requests.zipIdx)
    (hsorted : sorted.Pairwise fun r s => before r s = true) :
    placeAll requests optimize = sorted.foldl (place optimize) ⟨[], []⟩ := by
  have hsame : requests.zipIdx.mergeSort before = sorted := by
    refine List.Perm.eq_of_pairwise (fun r s hr hs hrs hsr => ?_) (pairwise_before requests)
      hsorted ((List.mergeSort_perm _ _).trans hperm.symm)
    have hr' := mem_sorted.mp hr
    have hs' := List.mem_zipIdx_iff_getElem?.mp (hperm.subset hs)
    have hi : r.2 = s.2 := by
      simp only [before, Bool.or_eq_true, Bool.and_eq_true, decide_eq_true_eq, beq_iff_eq]
        at hrs hsr
      omega
    rw [hi, hs'] at hr'
    exact Prod.ext (Option.some.inj hr').symm hi
  rw [placeAll, hsame]

/-- What holds at first and is kept when a request is placed holds when all are placed. -/
theorem placeAll_induction {P : Placement → Prop} (hempty : P ⟨[], []⟩)
    (hplace : ∀ state i r, requests[i]? = some r → P state → P (place optimize state (r, i))) :
    P (placeAll requests optimize) := by
  have hall : ∀ (rs : List (SlotRequest × Nat)) (state : Placement), P state →
      (∀ r ∈ rs, requests[r.2]? = some r.1) → P (rs.foldl (place optimize) state) := by
    intro rs
    induction rs with
    | nil => exact fun _ h _ => h
    | cons r rs ih =>
      intro state h hrs
      exact ih _ (hplace state r.2 r.1 (hrs r (by simp)) h) fun s hs => hrs s (by simp [hs])
  exact hall _ _ hempty fun r hr => mem_sorted.mp hr

include hw in
theorem tidy_placeAll : Tidy requests (placeAll requests optimize) :=
  placeAll_induction ⟨by simp, by simp⟩ fun _ _ _ hr h =>
    h.place hr (hw _ (List.mem_of_getElem? hr))

/-- Every request is placed once. -/
theorem placed_perm (requests : List SlotRequest) (optimize : Bool) :
    ((placeAll requests optimize).placed.map (·.1)).Perm (List.range requests.length) := by
  refine (foldl_place_placed _ _).trans ?_
  rw [List.map_nil, List.append_nil]
  refine ((List.mergeSort_perm _ _).map _).trans ?_
  rw [List.zipIdx_map_snd, List.range_eq_range']

@[simp] theorem length_slotOf (requests : List SlotRequest) (optimize : Bool) :
    (plan requests optimize).slotOf.length = requests.length := by simp [plan]

/-- Every request has a slot of the plan. -/
theorem exists_slotOf (optimize : Bool) {i : Nat} (hi : i < requests.length) :
    ∃ k, (plan requests optimize).slotOf[i]? = some k :=
  ⟨_, List.getElem?_eq_getElem (by simpa using hi)⟩

/-- The slot of a request is the one in which it has been placed. -/
theorem slotOf_eq_some_iff {i k : Nat} :
    (plan requests optimize).slotOf[i]? = some k ↔
    (i, k) ∈ (placeAll requests optimize).placed := by
  have hperm := placed_perm requests optimize
  have hlookup := lookup_eq_some_iff_mem (hperm.nodup_iff.mpr List.nodup_range) (i := i) (b := k)
  have hlt : (i, k) ∈ (placeAll requests optimize).placed → i < requests.length := fun h =>
    List.mem_range.mp (hperm.subset (List.mem_map_of_mem h))
  by_cases hi : i < requests.length
  · obtain ⟨⟨_, k'⟩, hmem, rfl⟩ := List.mem_map.mp (hperm.symm.subset (List.mem_range.mpr hi))
    have hk' := (lookup_eq_some_iff_mem (hperm.nodup_iff.mpr List.nodup_range)).mpr hmem
    rw [← hlookup]
    simp [plan, hi, hk']
  · simp only [plan, List.getElem?_map, List.getElem?_eq_none (l := List.range requests.length)
      (by simpa using hi)]
    exact iff_of_false (by simp) fun h => hi (hlt h)

include hw in
theorem slotOf_lt {i k : Nat} (h : (plan requests optimize).slotOf[i]? = some k) :
    k < (plan requests optimize).slotCount := by
  obtain ⟨_, _, _, hslot, _⟩ := (tidy_placeAll hw).held i k (slotOf_eq_some_iff.mp h)
  simpa [plan, slotCount] using (List.getElem?_eq_some_iff.mp hslot).1

include hw in
/-- Two requests in one slot are used at different times, and neither is exclusive. -/
theorem apart_of_slotOf {i j k : Nat} {r s : SlotRequest}
    (hi : (plan requests optimize).slotOf[i]? = some k)
    (hj : (plan requests optimize).slotOf[j]? = some k) (hij : i ≠ j)
    (hr : requests[i]? = some r) (hs : requests[j]? = some s) :
    (r.last < s.first ∨ s.last < r.first) ∧ r.exclusive = false ∧ s.exclusive = false :=
  (tidy_placeAll hw).apart i j k r s (slotOf_eq_some_iff.mp hi) (slotOf_eq_some_iff.mp hj) hij hr hs

/-- What is placed fits into its slot. -/
def Roomy (requests : List SlotRequest) (state : Placement) : Prop :=
  ∀ i k, (i, k) ∈ state.placed → ∃ r slot, requests[i]? = some r ∧ state.slots[k]? = some slot ∧
    r.size ≤ slot.capacity

theorem Roomy.place (h : Roomy requests state) {i : Nat} {r : SlotRequest}
    (hr : requests[i]? = some r) : Roomy requests (place optimize state (r, i)) := by
  rcases place_cases optimize state r i with ⟨k, slot, -, -, hslot, -, heq⟩ | heq
  · rw [heq]
    intro j k' hjk
    rcases List.mem_cons.mp hjk with hjk | hmem
    · cases hjk
      exact ⟨r, slot.hold r, hr, by simp [hslot], Nat.le_max_right _ _⟩
    · obtain ⟨s, slot', hs, hslot', hle⟩ := h j k' hmem
      by_cases hk : k' = k
      · subst hk
        rw [hslot] at hslot'
        cases hslot'
        exact ⟨s, slot.hold r, hs, by simp [hslot], Nat.le_trans hle (Nat.le_max_left _ _)⟩
      · exact ⟨s, slot', hs, by simpa [List.getElem?_modify, Ne.symm hk] using hslot', hle⟩
  · rw [heq]
    intro j k' hjk
    rcases List.mem_cons.mp hjk with hjk | hmem
    · cases hjk
      exact ⟨r, ⟨r.last, r.size, r.exclusive⟩, hr, by simp, Nat.le_refl _⟩
    · obtain ⟨s, slot, hs, hslot, hle⟩ := h j k' hmem
      have hk : k' < state.slots.length := (List.getElem?_eq_some_iff.mp hslot).1
      exact ⟨s, slot, hs, by rw [List.getElem?_append_left hk]; exact hslot, hle⟩

theorem roomy_placeAll (requests : List SlotRequest) (optimize : Bool) :
    Roomy requests (placeAll requests optimize) :=
  placeAll_induction (fun _ _ h => by cases h) fun _ _ _ hr h => h.place hr

/-- A request is no larger than its slot. -/
theorem size_le_capacity {i k : Nat} {r : SlotRequest}
    (hk : (plan requests optimize).slotOf[i]? = some k) (hr : requests[i]? = some r) : ∃ c,
      (plan requests optimize).capacities[k]? = some c ∧ r.size ≤ c := by
  obtain ⟨r', slot, hr', hslot, hle⟩ :=
    roomy_placeAll requests optimize i k (slotOf_eq_some_iff.mp hk)
  rw [hr] at hr'
  cases hr'
  exact ⟨slot.capacity, by simp [plan, hslot], hle⟩

end SlotPlan

end LayerGraph
