import LayerGraph.Proofs.SlotPlan.Serves
import Mathlib.Algebra.BigOperators.Group.List.Basic
import Mathlib.Data.Finset.Card
import Mathlib.Order.Bounds.Basic

/-!
# How many slots a plan has

A slot is opened only when every slot that may be shared is still in use. So a plan has one slot for
each exclusive request, and as many others as there are other requests in use at one step. No
assignment of slots has fewer.
-/

namespace LayerGraph

/-- Whether the request is in use at a step, in a slot that it may share. -/
def SlotRequest.sharesAt (r : SlotRequest) (t : Nat) : Bool :=
  !r.exclusive && (r.first ≤ t && t ≤ r.last)

namespace SlotPlan

def exclusiveCount (requests : List SlotRequest) : Nat := requests.countP (·.exclusive)

/-- The number of requests that are in use at a step and not exclusive. -/
def load (requests : List SlotRequest) (t : Nat) : Nat := requests.countP (·.sharesAt t)

/-- An assignment of slots that keeps exclusive requests alone and windows that meet apart. -/
structure Separates (requests : List SlotRequest) (slotOf : List Nat) : Prop where
  length : slotOf.length = requests.length
  apart : ∀ (i j k : Nat) (r s : SlotRequest), i ≠ j → slotOf[i]? = some k → slotOf[j]? = some k →
    requests[i]? = some r → requests[j]? = some s →
      (r.last < s.first ∨ s.last < r.first) ∧ r.exclusive = false ∧ s.exclusive = false

variable {requests placed : List SlotRequest} {state : Placement}

theorem load_cons (r : SlotRequest) (rs : List SlotRequest) (t : Nat) :
    load (r :: rs) t = load rs t + if r.sharesAt t then 1 else 0 := List.countP_cons

theorem load_perm {rs ss : List SlotRequest} (h : rs.Perm ss) (t : Nat) : load rs t = load ss t :=
  h.countP_eq _

theorem countP_exclusive_or_sharesAt (rs : List SlotRequest) (t : Nat) :
    (rs.countP fun r => r.exclusive || r.sharesAt t) = exclusiveCount rs + load rs t := by
  unfold exclusiveCount load
  induction rs with
  | nil => rfl
  | cons r rs ih =>
    simp only [List.countP_cons, ih]
    cases hx : r.exclusive
    · simp only [Bool.false_or, Bool.false_eq_true, if_false]
      omega
    · simp only [SlotRequest.sharesAt, hx, Bool.true_or, Bool.not_true, Bool.false_and, if_true,
        Bool.false_eq_true, if_false]
      omega

/-- Requests that are exclusive or in use at one step are in each other's way, so each of them takes
a slot. -/
theorem Separates.load_le {slotOf : List Nat} (h : Separates requests slotOf) (t : Nat) :
    exclusiveCount requests + load requests t ≤ slotOf.toFinset.card := by
  let p : SlotRequest × Nat → Bool := fun q => q.1.exclusive || q.1.sharesAt t
  let taken := ((requests.zip slotOf).filter p).map (·.2)
  have hpairs : (requests.zip slotOf).Pairwise fun a b => p a = true → p b = true → a.2 ≠ b.2 := by
    refine List.pairwise_iff_getElem.mpr fun i j hi hj hij ha hb heq => ?_
    obtain ⟨hr, hk⟩ := List.getElem?_zip_eq_some.mp (List.getElem?_eq_getElem hi)
    obtain ⟨hs, hl⟩ := List.getElem?_zip_eq_some.mp (List.getElem?_eq_getElem hj)
    obtain ⟨hapart, hx, hy⟩ := h.apart i j _ _ _ (Nat.ne_of_lt hij) hk (heq ▸ hl) hr hs
    simp only [p, SlotRequest.sharesAt, hx, hy, Bool.not_false, Bool.true_and, Bool.false_or,
      Bool.and_eq_true, decide_eq_true_eq] at ha hb
    omega
  have hnodup : taken.Nodup := by
    refine List.pairwise_map.mpr ((hpairs.filter p).imp_of_mem fun ha hb hne => ?_)
    exact hne (List.mem_filter.mp ha).2 (List.mem_filter.mp hb).2
  have hsub : taken.toFinset ⊆ slotOf.toFinset := by
    intro k hk
    obtain ⟨q, hq, rfl⟩ := List.mem_map.mp (List.mem_toFinset.mp hk)
    exact List.mem_toFinset.mpr (List.of_mem_zip (List.mem_filter.mp hq).1).2
  have hlength : taken.length = exclusiveCount requests + load requests t := by
    have hfst : (requests.zip slotOf).map (·.1) = requests :=
      List.map_fst_zip (Nat.le_of_eq h.length.symm)
    rw [List.length_map, ← List.countP_eq_length_filter, ← countP_exclusive_or_sharesAt]
    conv_rhs => rw [← hfst, List.countP_map]
    rfl
  rw [← hlength, ← List.toFinset_card_of_nodup hnodup]
  exact Finset.card_le_card hsub

theorem isFreeFor_of_reuse?_eq_none {slots : List OpenSlot} {r : SlotRequest}
    (h : reuse? slots r = none) : ∀ slot ∈ slots, slot.isFreeFor r = false := by
  unfold reuse? at h
  dsimp only at h
  split at h
  · cases h
  · have hnone : slots.zipIdx.filter (fun s => s.1.isFreeFor r) = [] := by
      cases hfree : slots.zipIdx.filter (fun s => s.1.isFreeFor r) with
      | nil => rfl
      | cons s free =>
        rw [hfree] at h
        cases h
    intro slot hslot
    obtain ⟨k, hk⟩ := List.getElem?_of_mem hslot
    have := List.filter_eq_nil_iff.mp hnone (slot, k) (List.mem_zipIdx_iff_getElem?.mpr hk)
    simpa using this

/-- A request that may share a slot gets a new one only if no slot is free for it. -/
theorem place_true_cases (state : Placement) (r : SlotRequest) (i : Nat) :
    (∃ k slot, r.exclusive = false ∧ state.slots[k]? = some slot ∧ slot.isFreeFor r = true ∧
      place true state (r, i) = ⟨state.slots.modify k (·.hold r), (i, k) :: state.placed⟩) ∨
    ((r.exclusive = false → ∀ slot ∈ state.slots, slot.isFreeFor r = false) ∧
      place true state (r, i) = ⟨state.slots ++ [⟨r.last, r.size, r.exclusive⟩],
        (i, state.slots.length) :: state.placed⟩) := by
  cases hx : r.exclusive with
  | true =>
    refine .inr ⟨nofun, ?_⟩
    simp [place, hx]
  | false =>
    cases hreuse : reuse? state.slots r with
    | some k =>
      obtain ⟨slot, hslot, hfree⟩ := exists_of_reuse? hreuse
      exact .inl ⟨k, slot, rfl, hslot, hfree, by simp [place, hx, hreuse]⟩
    | none => exact .inr ⟨fun _ => isFreeFor_of_reuse?_eq_none hreuse, by simp [place, hx, hreuse]⟩

/-- The last steps of the slots that may be shared. -/
def openEnds (slots : List OpenSlot) : List Nat := (slots.filter (!·.exclusive)).map (·.last)

theorem length_openEnds (slots : List OpenSlot) :
    (openEnds slots).length = slots.countP (!·.exclusive) := by
  rw [openEnds, List.length_map, List.countP_eq_length_filter]

/-- What has been placed, and the slots that it has taken: each slot that may be shared ends with a
request of its own, and all of these slots have once been in use together. -/
structure Sparing (placed : List SlotRequest) (slots : List OpenSlot) : Prop where
  exclusive : slots.countP (·.exclusive) = exclusiveCount placed
  ends : (openEnds slots).Subperm ((placed.filter (!·.exclusive)).map (·.last))
  crowded : ∃ t, slots.countP (!·.exclusive) ≤ load placed t

theorem Sparing.share {slots : List OpenSlot} (h : Sparing placed slots) {r : SlotRequest}
    (hx : r.exclusive = false) {k : Nat} {slot : OpenSlot} (hslot : slots[k]? = some slot)
    (hfree : slot.isFreeFor r = true) : Sparing (r :: placed) (slots.modify k (·.hold r)) := by
  obtain ⟨hexclusive, hends, t, hcrowded⟩ := h
  obtain ⟨before, slot', behind, hsplit, hk, hmodify⟩ :=
    List.exists_of_modify (·.hold r) (List.getElem?_eq_some_iff.mp hslot).1
  obtain rfl : slot = slot' := by
    rw [hsplit, ← hk] at hslot
    simpa using hslot.symm
  have hsx : slot.exclusive = false := (by simpa [OpenSlot.isFreeFor] using hfree : _ ∧ _).1
  rw [hmodify]
  rw [hsplit] at hexclusive hends hcrowded
  refine ⟨?_, ?_, t, ?_⟩
  · simpa [exclusiveCount, OpenSlot.hold, hx, hsx] using hexclusive
  · have hrest : (openEnds before ++ openEnds behind).Subperm
        ((placed.filter (!·.exclusive)).map (·.last)) := by
      refine List.Subperm.trans (List.Sublist.subperm ?_) hends
      simp [openEnds, hsx]
    have hperm : (openEnds (before ++ slot.hold r :: behind)).Perm
        (r.last :: (openEnds before ++ openEnds behind)) := by
      simp [openEnds, OpenSlot.hold, hsx]
    rw [List.filter_cons_of_pos (by simp [hx]), List.map_cons]
    exact hperm.subperm.trans ((List.subperm_cons _).mpr hrest)
  · rw [load_cons]
    refine Nat.le_trans (Nat.le_of_eq ?_) (Nat.le_trans hcrowded (Nat.le_add_right _ _))
    simp [OpenSlot.hold, hsx]

theorem Sparing.push {slots : List OpenSlot} (h : Sparing placed slots) {r : SlotRequest}
    (hw : r.first ≤ r.last) (hsorted : ∀ s ∈ placed, s.first ≤ r.first)
    (hbusy : r.exclusive = false → ∀ slot ∈ slots, slot.isFreeFor r = false) :
    Sparing (r :: placed) (slots ++ [⟨r.last, r.size, r.exclusive⟩]) := by
  obtain ⟨hexclusive, hends, t, hcrowded⟩ := h
  cases hx : r.exclusive with
  | true =>
    refine ⟨?_, ?_, t, ?_⟩
    · simpa [exclusiveCount, hx] using hexclusive
    · simpa [openEnds, hx] using hends
    · rw [load_cons]
      exact Nat.le_trans (by simp) (Nat.le_trans hcrowded (Nat.le_add_right _ _))
  | false =>
    refine ⟨?_, ?_, r.first, ?_⟩
    · simpa [exclusiveCount, hx] using hexclusive
    · have hperm : (openEnds (slots ++ [⟨r.last, r.size, false⟩])).Perm
          (r.last :: openEnds slots) := by
        simp [openEnds]
      rw [List.filter_cons_of_pos (by simp [hx]), List.map_cons]
      exact hperm.subperm.trans ((List.subperm_cons _).mpr hends)
    -- Every slot that may be shared ends with a request that is in use when `r` begins.
    · have hlate : ∀ e ∈ openEnds slots, decide (r.first ≤ e) = true := by
        intro e he
        obtain ⟨slot, hmem, rfl⟩ := List.mem_map.mp he
        obtain ⟨hslot, hsx⟩ := List.mem_filter.mp hmem
        have := hbusy hx slot hslot
        simp only [OpenSlot.isFreeFor, hsx, Bool.true_and, decide_eq_false_iff_not] at this
        exact decide_eq_true (Nat.le_of_not_lt this)
      have hshared : slots.countP (!·.exclusive) ≤ load placed r.first :=
        calc slots.countP (!·.exclusive)
            = (openEnds slots).countP (r.first ≤ ·) := by
              rw [List.countP_eq_length.mpr hlate, length_openEnds]
          _ ≤ ((placed.filter (!·.exclusive)).map (·.last)).countP (r.first ≤ ·) :=
            hends.countP_le _
          _ = load placed r.first := by
              rw [List.countP_map, List.countP_filter]
              refine List.countP_congr fun s hs => ?_
              simp [SlotRequest.sharesAt, hsorted s hs, and_comm]
      rw [load_cons, if_pos (by simp [SlotRequest.sharesAt, hx, hw])]
      simpa using hshared

theorem Sparing.place (h : Sparing placed state.slots) {r : SlotRequest} (hw : r.first ≤ r.last)
    (hsorted : ∀ s ∈ placed, s.first ≤ r.first) (i : Nat) :
    Sparing (r :: placed) (place true state (r, i)).slots := by
  rcases place_true_cases state r i with ⟨k, slot, hx, hslot, hfree, heq⟩ | ⟨hbusy, heq⟩
  · rw [heq]
    exact h.share hx hslot hfree
  · rw [heq]
    exact h.push hw hsorted hbusy

theorem Sparing.foldl {rs : List (SlotRequest × Nat)} (h : Sparing placed state.slots)
    (hw : ∀ r ∈ rs, r.1.first ≤ r.1.last) (hsorted : rs.Pairwise fun r s => r.1.first ≤ s.1.first)
    (hplaced : ∀ s ∈ placed, ∀ r ∈ rs, s.first ≤ r.1.first) :
    Sparing ((rs.map (·.1)).reverse ++ placed) (rs.foldl (SlotPlan.place true) state).slots := by
  induction rs generalizing placed state with
  | nil => exact h
  | cons r rs ih =>
    obtain ⟨hfirst, hsorted⟩ := List.pairwise_cons.mp hsorted
    have hstep :=
      h.place (hw r List.mem_cons_self) (fun s hs => hplaced s hs r List.mem_cons_self) r.2
    rw [List.foldl_cons, List.map_cons, List.reverse_cons, List.append_assoc, List.singleton_append]
    refine ih hstep (fun s hs => hw s (List.mem_cons_of_mem _ hs)) hsorted fun s hs q hq => ?_
    rcases List.mem_cons.mp hs with rfl | hs
    · exact hfirst q hq
    · exact hplaced s hs q (List.mem_cons_of_mem _ hq)

theorem pairwise_sorted (requests : List SlotRequest) :
    (requests.zipIdx.mergeSort before).Pairwise fun r s => r.1.first ≤ s.1.first := by
  refine (pairwise_before requests).imp fun h => ?_
  simp only [before, Bool.or_eq_true, Bool.and_eq_true, decide_eq_true_eq, beq_iff_eq] at h
  omega

theorem sparing_placeAll (hw : ∀ r ∈ requests, r.first ≤ r.last) :
    Sparing requests (placeAll requests true).slots := by
  have hempty : Sparing [] (⟨[], []⟩ : Placement).slots :=
    ⟨rfl, List.Subperm.refl _, 0, Nat.zero_le _⟩
  have hsparing := Sparing.foldl hempty (fun r hr => hw _ (List.mem_of_getElem? (mem_sorted.mp hr)))
    (pairwise_sorted requests) nofun
  have hperm : (((requests.zipIdx.mergeSort before).map Prod.fst).reverse ++ []).Perm requests := by
    rw [List.append_nil]
    have hsort := (List.mergeSort_perm requests.zipIdx before).map Prod.fst
    rw [List.zipIdx_map_fst] at hsort
    exact (List.reverse_perm _).trans hsort
  obtain ⟨hexclusive, hends, t, hcrowded⟩ := hsparing
  exact ⟨hexclusive.trans (hperm.countP_eq _), hends.trans ((hperm.filter _).map _).subperm, t,
    hcrowded.trans (Nat.le_of_eq (load_perm hperm t))⟩

theorem separates_plan (optimize : Bool) (hw : ∀ r ∈ requests, r.first ≤ r.last) :
    Separates requests (plan requests optimize).slotOf :=
  ⟨length_slotOf requests optimize, fun _ _ _ _ _ hij hi hj hr hs => apart_of_slotOf
    hw hi hj hij hr hs⟩

/-- No slot of a plan is left empty. -/
theorem card_slotOf (optimize : Bool) (hw : ∀ r ∈ requests, r.first ≤ r.last) :
    (plan requests optimize).slotOf.toFinset.card = (plan requests optimize).slotCount := by
  have hrange : (plan requests optimize).slotOf.toFinset = Finset.range
      (plan requests optimize).slotCount := by
    ext k
    rw [List.mem_toFinset, Finset.mem_range]
    refine ⟨fun hk => ?_, fun hk => ?_⟩
    · obtain ⟨i, hi⟩ := List.getElem?_of_mem hk
      exact slotOf_lt hw hi
    · obtain ⟨i, _, hi, -⟩ :=
        exists_of_slot (List.getElem?_eq_getElem (l := (plan requests optimize).capacities) hk)
      exact List.mem_of_getElem? hi
  rw [hrange, Finset.card_range]

/-- A plan has one slot for each exclusive request, and as many others as other requests are in use
at the busiest step. -/
theorem exists_peak (hw : ∀ r ∈ requests, r.first ≤ r.last) :
    ∃ peak, IsGreatest (Set.range (load requests)) peak ∧
    (plan requests true).slotCount = exclusiveCount requests + peak := by
  obtain ⟨hexclusive, -, t, hcrowded⟩ := sparing_placeAll hw
  have hcount : (plan requests true).slotCount =
      exclusiveCount requests + (placeAll requests true).slots.countP (!·.exclusive) := by
    rw [← hexclusive]
    simpa [plan, slotCount] using List.length_eq_countP_add_countP
      (fun slot : OpenSlot => slot.exclusive) (l := (placeAll requests true).slots)
  have hbusiest : ∀ t', load requests t' ≤ (placeAll requests true).slots.countP
      (!·.exclusive) := by
    intro t'
    have := (separates_plan true hw).load_le t'
    rw [card_slotOf true hw, hcount] at this
    exact Nat.le_of_add_le_add_left this
  refine ⟨_, ⟨⟨t, Nat.le_antisymm (hbusiest t) hcrowded⟩, ?_⟩, hcount⟩
  rintro _ ⟨t', rfl⟩
  exact hbusiest t'

/-- A plan has as many slots as it must: the exclusive requests take one each, and the others as
many as are in use together at the busiest step. -/
theorem slotCount_least (requests : List SlotRequest) (hw : ∀ r ∈ requests, r.first ≤ r.last) :
    (∃ peak, IsGreatest (Set.range (load requests)) peak ∧
      (plan requests true).slotCount = exclusiveCount requests + peak) ∧
    IsLeast {n | ∃ slotOf, Separates requests slotOf ∧ slotOf.toFinset.card = n}
      (plan requests true).slotCount := by
  obtain ⟨peak, hpeak, hcount⟩ := exists_peak hw
  refine ⟨⟨peak, hpeak, hcount⟩, ⟨_, separates_plan true hw, card_slotOf true hw⟩, ?_⟩
  rintro _ ⟨slotOf, hseparates, rfl⟩
  obtain ⟨t, rfl⟩ := hpeak.1
  rw [hcount]
  exact hseparates.load_le t

/-- Of five requests one is exclusive and three others are in use at step 2. -/
theorem slotCount_least_overlapping :
    (∀ r ∈ [(⟨0, 1, 3, false⟩ : SlotRequest), ⟨0, 4, 2, true⟩, ⟨1, 2, 5, false⟩, ⟨2, 2, 1, false⟩,
      ⟨2, 4, 7, false⟩], r.first ≤ r.last) ∧
    load [⟨0, 1, 3, false⟩, ⟨0, 4, 2, true⟩, ⟨1, 2, 5, false⟩, ⟨2, 2, 1, false⟩,
      ⟨2, 4, 7, false⟩] 2 = 3 ∧
    (plan [⟨0, 1, 3, false⟩, ⟨0, 4, 2, true⟩, ⟨1, 2, 5, false⟩, ⟨2, 2, 1, false⟩,
      ⟨2, 4, 7, false⟩] true).slotCount = 4 ∧
    IsLeast {n | ∃ slotOf, Separates [⟨0, 1, 3, false⟩, ⟨0, 4, 2, true⟩, ⟨1, 2, 5, false⟩,
      ⟨2, 2, 1, false⟩, ⟨2, 4, 7, false⟩] slotOf ∧ slotOf.toFinset.card = n} 4 := by
  have hw : ∀ r ∈ [(⟨0, 1, 3, false⟩ : SlotRequest), ⟨0, 4, 2, true⟩, ⟨1, 2, 5, false⟩,
      ⟨2, 2, 1, false⟩, ⟨2, 4, 7, false⟩], r.first ≤ r.last := by decide
  have hcount : (plan [⟨0, 1, 3, false⟩, ⟨0, 4, 2, true⟩, ⟨1, 2, 5, false⟩, ⟨2, 2, 1, false⟩,
      ⟨2, 4, 7, false⟩] true).slotCount = 4 := by
    rw [plan, placeAll_of_perm _ (.refl _) (by decide)]
    rfl
  refine ⟨hw, by decide, hcount, ?_⟩
  have hleast := (slotCount_least _ hw).2
  rwa [hcount] at hleast

/-- Requests that are in use less need no more slots. -/
theorem slotCount_mono {others : List SlotRequest} (hw : ∀ r ∈ requests, r.first ≤ r.last)
    (hw' : ∀ r ∈ others, r.first ≤ r.last)
    (hexclusive : exclusiveCount requests ≤ exclusiveCount others)
    (hload : ∀ t, load requests t ≤ load others t) : (plan requests true).slotCount ≤
      (plan others true).slotCount := by
  obtain ⟨_, ⟨⟨t, rfl⟩, -⟩, hcount⟩ := exists_peak hw
  obtain ⟨peak, ⟨-, hpeak⟩, hcount'⟩ := exists_peak hw'
  rw [hcount, hcount']
  exact Nat.add_le_add hexclusive ((hload t).trans (hpeak ⟨t, rfl⟩))

theorem elements_eq_sum (p : SlotPlan) : p.elements = p.capacities.sum := rfl

/-- Where all requests have one size, so have all slots. -/
theorem elements_of_uniform {size : Nat} (optimize : Bool) (hsize : ∀ r ∈ requests, r.size = size) :
    (plan requests optimize).elements = (plan requests optimize).slotCount * size := by
  rw [elements_eq_sum]
  refine List.sum_eq_card_nsmul _ _ fun c hc => ?_
  obtain ⟨k, hk⟩ := List.getElem?_of_mem hc
  obtain ⟨i, r, -, hr, rfl⟩ := exists_of_slot hk
  exact hsize r (List.mem_of_getElem? hr)

/-- Without sharing, a plan reserves what all requests ask for together. -/
theorem elements_plan_false (requests : List SlotRequest) :
    (plan requests false).elements = (requests.map (·.size)).sum := by
  have hfold : ∀ (rs : List (SlotRequest × Nat)) (state : Placement),
      ((rs.foldl (place false) state).slots.map (·.capacity)).sum =
        (state.slots.map (·.capacity)).sum + (rs.map (·.1.size)).sum := by
    intro rs
    induction rs with
    | nil => simp
    | cons r rs ih =>
      intro state
      rw [List.foldl_cons, ih]
      simp [place, Nat.add_assoc]
  have := hfold (requests.zipIdx.mergeSort before) ⟨[], []⟩
  rw [sum_size_sorted] at this
  rw [elements_eq_sum]
  simpa [plan, placeAll] using this

end SlotPlan

end LayerGraph
