import LayerGraph.Store.Allocation
import LayerGraph.Proofs.SlotPlan
import LayerGraph.Proofs.Store.Access

/-!
# Slots of an allocation

When a mode is allocated every buffer that it uses has a slot, and two buffers in one slot are never
in use at the same time. What feeds the network from outside shares its slot with nothing.
-/

namespace LayerGraph.Store

variable {α : Type} {s s' : Store α} {mode : RunMode}

structure Placed (s : Store α) (mode : RunMode) : Prop where
  slot : ∀ id e t, s.entries[id]? = some e → e.source = none → e.role.isKept = false →
    t ∈ s.usedSteps mode e → ∃ k, s.slotOf.lookup id = some k
  entry : ∀ id k, s.slotOf.lookup id = some k →
    ∃ e, s.entries[id]? = some e ∧ e.role.isKept = false
  bound : ∀ id k, s.slotOf.lookup id = some k → k < s.slots.length
  shared : ∀ id id' k e, id ≠ id' → s.slotOf.lookup id = some k → s.slotOf.lookup id' = some k →
    s.entries[id]? = some e → e.role ≠ .external
  apart : ∀ id id' k e e' a b t, id ≠ id' → s.slotOf.lookup id = some k →
    s.slotOf.lookup id' = some k → s.entries[id]? = some e → s.entries[id']? = some e' →
    a ∈ s.usedSteps mode e → b ∈ s.usedSteps mode e → t ∈ s.usedSteps mode e' → a ≤ t → ¬ t ≤ b

/-- A store is placed for the mode it is allocated for, and holds nothing in slots otherwise. -/
structure Allocated (s : Store α) : Prop where
  placed : ∀ mode, s.mode = some mode → Placed s mode
  empty : s.mode = none → s.slots = [] ∧ s.slotOf = []

theorem allocated_releaseTensors (s : Store α) : s.releaseTensors.Allocated :=
  ⟨nofun, fun _ => ⟨rfl, rfl⟩⟩

/-- Slots depend on the entries that are not kept, and on how many slots there are. -/
theorem Placed.of_entries (h : Placed s mode) (hslotOf : s'.slotOf = s.slotOf)
    (hslots : s'.slots.length = s.slots.length) (hforward : s'.forwardSteps = s.forwardSteps)
    (hentries : ∀ (id : Nat) e, e.role.isKept = false →
      (s'.entries[id]? = some e ↔ s.entries[id]? = some e)) : Placed s' mode := by
  have hused : ∀ e, s'.usedSteps mode e = s.usedSteps mode e := by
    intro e
    cases mode with
    | train => rfl
    | inference => simp only [usedSteps, hforward]
  have hback : ∀ (id : Nat) k e', s.slotOf.lookup id = some k → s'.entries[id]? = some e' →
      s.entries[id]? = some e' := by
    intro id k e' hl he'
    obtain ⟨e, he, hk⟩ := h.entry id k hl
    have := (hentries id e hk).mpr he
    rw [he'] at this
    cases this
    exact he
  constructor
  · intro id e t he hs hk ht
    rw [hslotOf]
    rw [hused] at ht
    exact h.slot id e t ((hentries id e hk).mp he) hs hk ht
  · intro id k hl
    rw [hslotOf] at hl
    obtain ⟨e, he, hk⟩ := h.entry id k hl
    exact ⟨e, (hentries id e hk).mpr he, hk⟩
  · intro id k hl
    rw [hslotOf] at hl
    rw [hslots]
    exact h.bound id k hl
  · intro id id' k e hne hl hl' he
    rw [hslotOf] at hl hl'
    exact h.shared id id' k e hne hl hl' (hback id k e hl he)
  · intro id id' k e e' a b t hne hl hl' he he' ha hb ht
    rw [hslotOf] at hl hl'
    rw [hused] at ha hb ht
    exact h.apart id id' k e e' a b t hne hl hl' (hback id k e hl he)
      (hback id' k e' hl' he') ha hb ht

theorem SameLayout.allocated (h : SameLayout s s') (hs : s.Allocated) : s'.Allocated := by
  refine ⟨fun mode hm => ?_, fun hm => ?_⟩
  · refine (hs.placed mode (h.mode ▸ hm)).of_entries h.slotOf h.slotCount h.forwardSteps ?_
    intro id e _
    rw [h.entries]
  · obtain ⟨hslots, hslotOf⟩ := hs.empty (h.mode ▸ hm)
    refine ⟨List.length_eq_zero_iff.mp ?_, h.slotOf.trans hslotOf⟩
    rw [h.slotCount, hslots]
    rfl

theorem mem_planRequests_iff {id : TensorRef} {r : SlotRequest} :
    (id, r) ∈ s.planRequests mode ↔
      ∃ e, s.entries[id]? = some e ∧ s.planRequest? mode e = some r := by
  unfold planRequests
  rw [List.mem_filterMap]
  constructor
  · rintro ⟨⟨e, i⟩, hmem, h⟩
    obtain ⟨r', hr, heq⟩ := Option.map_eq_some_iff.mp h
    cases heq
    exact ⟨e, List.mem_zipIdx_iff_getElem?.mp hmem, hr⟩
  · rintro ⟨e, he, hr⟩
    exact ⟨(e, id), List.mem_zipIdx_iff_getElem?.mpr he, by simp [hr]⟩

theorem nodup_planRequests (s : Store α) (mode : RunMode) :
    ((s.planRequests mode).map (·.1)).Nodup := by
  refine nodup_map_fst_filterMap_zipIdx (fun p q h => ?_) s.entries
  obtain ⟨r, -, rfl⟩ := Option.map_eq_some_iff.mp h
  rfl

/-- The request of an entry spans all steps at which it is used. -/
theorem planRequest?_eq_some {e : TensorRecord α} {r : SlotRequest}
    (h : s.planRequest? mode e = some r) :
    e.source = none ∧ e.role.isKept = false ∧ (r.exclusive = false → e.role ≠ .external) ∧
      r.first ≤ r.last ∧ ∀ t ∈ s.usedSteps mode e, r.first ≤ t ∧ t ≤ r.last := by
  unfold planRequest? at h
  split at h
  · cases h
  · next hskip =>
    simp only [Bool.or_eq_true, not_or, Option.isSome_iff_ne_none, ne_eq, not_not,
      Bool.not_eq_true] at hskip
    split at h
    · next first last hfirst hlast =>
      cases h
      obtain ⟨hmem, hle⟩ := List.min?_eq_some_iff.mp hfirst
      obtain ⟨-, hge⟩ := List.max?_eq_some_iff.mp hlast
      refine ⟨hskip.1, hskip.2, fun hx hr => ?_, hge _ hmem, fun t ht => ⟨hle t ht, hge t ht⟩⟩
      simp [hr] at hx
    · cases h

theorem size_planRequest? {e : TensorRecord α} {r : SlotRequest}
    (h : s.planRequest? mode e = some r) : r.size = e.shape.size := by
  unfold planRequest? at h
  split at h
  · cases h
  · split at h
    · cases h
      rfl
    · cases h

theorem exists_planRequest? {e : TensorRecord α} {t : Nat} (hs : e.source = none)
    (hk : e.role.isKept = false) (ht : t ∈ s.usedSteps mode e) :
    ∃ r, s.planRequest? mode e = some r := by
  unfold planRequest?
  have hne : s.usedSteps mode e ≠ [] := List.ne_nil_of_mem ht
  obtain ⟨first, hfirst⟩ := Option.isSome_iff_exists.mp (List.isSome_min?_of_ne_nil hne)
  obtain ⟨last, hlast⟩ := Option.isSome_iff_exists.mp (List.isSome_max?_of_ne_nil hne)
  simp [hs, hk, hfirst, hlast]

/-- A tensor with a slot has a request, and both stand at one position. -/
theorem exists_position {slots : List Nat} {id : TensorRef} {k : Nat}
    (hl : (((s.planRequests mode).map (·.1)).zip slots).lookup id = some k) :
    ∃ (i : Nat) (r : SlotRequest) (e : TensorRecord α), slots[i]? = some k ∧
      (s.planRequests mode)[i]? = some (id, r) ∧ s.entries[id]? = some e ∧
      s.planRequest? mode e = some r := by
  obtain ⟨i, hi⟩ := List.getElem?_of_mem (mem_of_lookup hl)
  obtain ⟨hid, hk⟩ := List.getElem?_zip_eq_some.mp hi
  obtain ⟨⟨id', r⟩, hr, rfl⟩ : ∃ p, (s.planRequests mode)[i]? = some p ∧
      p.1 = id := by simpa using hid
  obtain ⟨e, he, her⟩ := mem_planRequests_iff.mp (List.mem_of_getElem? hr)
  exact ⟨i, r, e, hk, hr, he, her⟩

/-- The slots that a plan gives to the requests of a mode. -/
theorem placed_of_plan (s : Store α) (mode : RunMode) (optimize : Bool) :
    let requests := s.planRequests mode
    let plan := SlotPlan.plan (requests.map (·.2)) optimize
    Placed { s with
      slots := List.replicate plan.slotCount none
      slotOf := (requests.map (·.1)).zip plan.slotOf
      plan := plan
      mode := some mode } mode := by
  intro requests plan
  have hw : ∀ r ∈ requests.map (·.2), r.first ≤ r.last := by
    intro r hr
    obtain ⟨⟨id, r⟩, hmem, rfl⟩ := List.mem_map.mp hr
    obtain ⟨e, -, he⟩ := mem_planRequests_iff.mp hmem
    exact (planRequest?_eq_some he).2.2.2.1
  have hlen : (requests.map (·.1)).length = plan.slotOf.length := by
    rw [SlotPlan.length_slotOf, List.length_map, List.length_map]
  have hfst : ((requests.map (·.1)).zip plan.slotOf).map (·.1) = requests.map (·.1) :=
    List.map_fst_zip (Nat.le_of_eq hlen)
  have hnodup : (((requests.map (·.1)).zip plan.slotOf).map (·.1)).Nodup := by
    rw [hfst]
    exact nodup_planRequests s mode
  have hposition : ∀ id k, ((requests.map (·.1)).zip plan.slotOf).lookup id = some k →
      ∃ (i : Nat) (r : SlotRequest) (e : TensorRecord α), plan.slotOf[i]? = some k ∧
        requests[i]? = some (id, r) ∧ s.entries[id]? = some e ∧ s.planRequest? mode e = some r :=
    fun id k hl => exists_position hl
  have hpair : ∀ id id' k (e : TensorRecord α), id ≠ id' →
      ((requests.map (·.1)).zip plan.slotOf).lookup id = some k →
      ((requests.map (·.1)).zip plan.slotOf).lookup id' = some k → s.entries[id]? = some e →
      ∃ r r' e', s.planRequest? mode e = some r ∧ s.entries[id']? = some e' ∧
        s.planRequest? mode e' = some r' ∧ (r.last < r'.first ∨ r'.last < r.first) ∧
        r.exclusive = false := by
    intro id id' k e hne hl hl' he
    obtain ⟨i, r, e₁, hk, hr, he₁, her⟩ := hposition id k hl
    obtain ⟨j, r', e', hk', hr', he', her'⟩ := hposition id' k hl'
    rw [he] at he₁
    cases he₁
    have hij : i ≠ j := by
      rintro rfl
      rw [hr] at hr'
      exact hne (Prod.mk.inj (Option.some.inj hr')).1
    obtain ⟨hapart, hx, -⟩ := SlotPlan.apart_of_slotOf hw hk hk' hij (by simp [hr]; rfl)
      (by simp [hr']; rfl)
    exact ⟨r, r', e', her, he', her', hapart, hx⟩
  constructor
  · intro id e t he hs hk ht
    obtain ⟨r, hr⟩ := exists_planRequest? hs hk ht
    obtain ⟨i, hi⟩ := List.getElem?_of_mem (mem_planRequests_iff.mpr ⟨e, he, hr⟩)
    have hlt : i < (requests.map (·.2)).length := by
      rw [List.length_map]
      exact (List.getElem?_eq_some_iff.mp hi).1
    obtain ⟨k, hk⟩ := SlotPlan.exists_slotOf optimize hlt
    refine ⟨k, (lookup_eq_some_iff_mem hnodup).mpr ?_⟩
    refine List.mem_of_getElem? (i := i) (List.getElem?_zip_eq_some.mpr ⟨?_, hk⟩)
    have hi' : requests[i]? = some (id, r) := hi
    simp [hi']
  · intro id k hl
    obtain ⟨i, r, e, -, -, he, her⟩ := hposition id k hl
    exact ⟨e, he, (planRequest?_eq_some her).2.1⟩
  · intro id k hl
    obtain ⟨i, -, -, hk, -⟩ := hposition id k hl
    rw [List.length_replicate]
    exact SlotPlan.slotOf_lt hw hk
  · intro id id' k e hne hl hl' he
    obtain ⟨r, -, -, hr, -, -, -, hx⟩ := hpair id id' k e hne hl hl' he
    exact (planRequest?_eq_some hr).2.2.1 hx
  · intro id id' k e e' a b t hne hl hl' he he' ha hb ht hat htb
    obtain ⟨r, r', e'', hr, he'', hr', hapart, -⟩ := hpair id id' k e hne hl hl' he
    rw [show s.entries[id']? = some e' from he'] at he''
    cases he''
    obtain ⟨hra, -⟩ := (planRequest?_eq_some hr).2.2.2.2 a ha
    obtain ⟨-, hbr⟩ := (planRequest?_eq_some hr).2.2.2.2 b hb
    obtain ⟨hrt, htr⟩ := (planRequest?_eq_some hr').2.2.2.2 t ht
    omega

end LayerGraph.Store
