import LayerGraph.Proofs.Layer.Dataflow
import LayerGraph.Proofs.Store.Frame

/-!
# Memory without sharing

In a memory that shares nothing every tensor has a place of its own, and a write changes one place.
A store agrees with such a memory on the tensors that are still to be read, if each write either
finds what it writes or leaves the buffers of the others alone.
-/

namespace LayerGraph

variable {α : Type}

namespace Reader

variable {r : Reader α} {id : TensorRef} {v : Tensor α} {writes : List (TensorRef × Tensor α)}

/-- The reader after one tensor has been written. -/
protected def set (r : Reader α) (id : TensorRef) (v : Tensor α) : Reader α :=
  { r with value := fun i => if i = id then .ok v else r.value i }

/-- The reader after one tensor after the other has been written. -/
def setAll (r : Reader α) (writes : List (TensorRef × Tensor α)) : Reader α :=
  writes.foldl (fun r w => r.set w.1 w.2) r

theorem setAll_concat (r : Reader α) (writes : List (TensorRef × Tensor α))
    (w : TensorRef × Tensor α) : r.setAll (writes ++ [w]) = (r.setAll writes).set w.1 w.2 := by
  rw [setAll, List.foldl_append]
  rfl

@[simp] theorem value_set_self (r : Reader α) (id : TensorRef) (v : Tensor α) :
    (r.set id v).value id = .ok v := if_pos rfl

theorem value_set_of_ne {i : TensorRef} (h : i ≠ id) : (r.set id v).value i = r.value i := if_neg h

theorem setAll_rest (r : Reader α) (writes : List (TensorRef × Tensor α)) :
    (r.setAll writes).shape = r.shape ∧ (r.setAll writes).weight = r.weight := by
  induction writes generalizing r with
  | nil => exact ⟨rfl, rfl⟩
  | cons w writes ih => exact ih (r.set w.1 w.2)

@[simp] theorem shape_setAll : (r.setAll writes).shape = r.shape := (setAll_rest r writes).1

@[simp] theorem weight_setAll : (r.setAll writes).weight = r.weight := (setAll_rest r writes).2

theorem value_setAll_of_not_mem (h : id ∉ writes.map (·.1)) :
    (r.setAll writes).value id = r.value id := by
  induction writes generalizing r with
  | nil => rfl
  | cons w writes ih =>
    obtain ⟨hne, hnot⟩ := not_or.mp (fun hor => h (List.mem_cons.mpr hor))
    exact (ih hnot).trans (value_set_of_ne hne)

/-- What is written last is found. -/
theorem exists_value_setAll (h : id ∈ writes.map (·.1)) :
    ∃ w ∈ writes, w.1 = id ∧ (r.setAll writes).value id = .ok w.2 := by
  induction writes generalizing r with
  | nil => cases h
  | cons w writes ih =>
    by_cases hlater : id ∈ writes.map (·.1)
    · obtain ⟨w', hw', heq, hvalue⟩ := ih (r := r.set w.1 w.2) hlater
      exact ⟨w', List.mem_cons_of_mem _ hw', heq, hvalue⟩
    · obtain rfl : id = w.1 := (List.mem_cons.mp h).resolve_right hlater
      exact ⟨w, List.mem_cons_self, rfl, (value_setAll_of_not_mem hlater).trans
        (value_set_self r _ _)⟩

end Reader

namespace Store

variable [Scalar α] {s s' : Store α} {r : Reader α} {live live' : TensorRef → Prop} {batch t : Nat}
  {mode : RunMode} {writes : List (TensorRef × Tensor α)}

/-- The store holds what the reader finds in the tensors that are live, and it has the same shapes
and weights. -/
structure Agrees (s : Store α) (live : TensorRef → Prop) (r : Reader α) : Prop where
  value : ∀ id, live id → s.get id = r.value id
  shape : s.shape = r.shape
  weight : s.reader.weight = r.weight

theorem Agrees.mono (h : s.Agrees live r) (hle : ∀ id, live' id → live id) : s.Agrees live' r :=
  ⟨fun id hid => h.value id (hle id hid), h.shape, h.weight⟩

/-- Two tensors with one buffer read the same. -/
theorem get_of_rootOf_eq {id id' : TensorRef} {e e' : TensorRecord α} (he : s.backing id = some e)
    (he' : s.backing id' = some e') (hroot : s.rootOf id' = s.rootOf id) :
    s.get id' = s.get id := by
  have hb : s.root id = .ok (s.rootOf id) := root_eq_ok_iff.mpr ⟨(backing_eq_some_iff.mp he).1, rfl⟩
  have hb' : s.root id' = .ok (s.rootOf id) :=
    root_eq_ok_iff.mpr ⟨(backing_eq_some_iff.mp he').1, hroot⟩
  unfold Store.get
  rw [hb, hb']

omit [Scalar α] in
theorem shape_of_sameLayout (hl : s.SameLayout s') : s'.shape = s.shape := funext hl.shape

/-- Everything that is kept is the same in both stores. -/
def SameKept (s s' : Store α) : Prop :=
  ∀ id e, s.backing id = some e → e.role.isKept = true → s'.get id = s.get id

theorem SameKept.refl (s : Store α) : s.SameKept s := fun _ _ _ _ => rfl

theorem SameKept.trans {s₁ s₂ s₃ : Store α} (h : s₁.SameKept s₂) (hl : s₁.SameLayout s₂)
    (h' : s₂.SameKept s₃) : s₁.SameKept s₃ :=
  fun id e he hk => (h' id e ((hl.backing id).trans he) hk).trans (h id e he hk)

theorem weight_of_sameKept (hreg : Registry batch s) (hl : s.SameLayout s')
    (hkept : s.SameKept s') : s'.reader.weight = s.reader.weight := by
  funext w
  change (do s'.get (← s'.weight w).value) = (do s.get (← s.weight w).value)
  rw [hl.weight w]
  cases hr : s.weight w with
  | error e => rfl
  | ok r =>
    obtain ⟨e, he, hrole⟩ := hreg.backing_value (weight_eq_ok_iff.mp hr)
    exact hkept r.value e he (by rw [hrole]; rfl)

/-- Writing what is not kept leaves alone what is. -/
theorem sameKept_of_setAll (hset : s.setAll writes = .ok s')
    (hw : ∀ w ∈ writes, ∃ e, s.backing w.1 = some e ∧ e.role.isKept = false) : s.SameKept s' := by
  intro id e he hk
  refine (except_foldlM_upTo (fun _ s₁ => s.SameLayout s₁ ∧ s₁.get id = s.get id) hset
    ⟨.refl s, rfl⟩ fun done w rest s₁ s₂ hsplit ⟨hl, hget⟩ hstep => ?_).2
  obtain ⟨e', he', hk'⟩ := hw w (by rw [hsplit]; simp)
  refine ⟨hl.trans (sameLayout_of_set hstep), ?_⟩
  rw [get_of_set_unkept hstep ((hl.backing _).trans he') hk' ((hl.backing _).trans he) hk]
  exact hget

/-- A store in which some of the writes of a step are done. -/
structure PartWritten (s : Store α) (r : Reader α) (ids : TensorRef → Prop)
    (done : List (TensorRef × Tensor α)) (s₁ : Store α) : Prop where
  layout : s.SameLayout s₁
  new : ∀ id, ids id → id ∈ done.map (·.1) → s₁.get id = (r.setAll done).value id
  old : ∀ id, ids id → id ∉ done.map (·.1) → s₁.get id = s.get id

section Step

variable {ids : TensorRef → Prop} (hp : Placed s mode) (hused : ∀ w ∈ writes, s.UsedIn mode w.1 t)
  (hspans : ∀ id, ids id → s.Spans mode id t) (hids : ∀ w ∈ writes, ids w.1)
  (hfree : ∀ id, ids id → ∀ w ∈ writes, id ≠ w.1 → s.rootOf id = s.rootOf w.1 → s.get id = .ok w.2)
include hp hused hspans hids hfree

theorem PartWritten.step {done rest : List (TensorRef × Tensor α)} {w : TensorRef × Tensor α}
    {s₁ s₂ : Store α} (h : s.PartWritten r ids done s₁) (hsplit : writes = done ++ w :: rest)
    (hset : s₁.set w.1 w.2 = .ok s₂) : s.PartWritten r ids (done ++ [w]) s₂ := by
  have hl := h.layout
  have hw : w ∈ writes := by rw [hsplit]; simp
  have hmem : ∀ id, id ≠ w.1 → (id ∈ (done ++ [w]).map (·.1) ↔ id ∈ done.map (·.1)) :=
    fun id hne => by
    simp [hne]
  have hself : ∀ id, s.rootOf id = s.rootOf w.1 → (∃ e, s.entries[id]? = some e) →
      s₂.get id = .ok w.2 := by
    intro id hroot hentry
    refine get_of_set_self hset (by rw [hl.rootOf, hl.rootOf, hroot]) ?_
      fun k hk => (hl.placed hp).bound _ k hk
    rwa [hl.entries]
  have hsame : ∀ id, ids id → id ≠ w.1 → s₂.get id = s₁.get id := by
    intro id hid hne
    by_cases hroot : s.rootOf id = s.rootOf w.1
    · -- The buffer holds already what is written to it.
      obtain ⟨e, he, -⟩ := hspans id hid
      obtain ⟨e', he', -⟩ := hused w hw
      have hold := hfree id hid w hw hne hroot
      rw [hself id hroot (backing_eq_some_iff.mp he).1]
      by_cases hdone : id ∈ done.map (·.1)
      · obtain ⟨w', hw', rfl, hvalue⟩ := Reader.exists_value_setAll (r := r) hdone
        have hagain := hfree w.1 (hids w hw) w' (by rw [hsplit]; simp [hw'])
          (Ne.symm hne) hroot.symm
        rw [get_of_rootOf_eq he he' hroot.symm, hold] at hagain
        rw [h.new _ hid hdone, hvalue, hagain]
      · rw [h.old id hid hdone, hold]
    · exact get_of_set_apart (hl.placed hp) hset (hl.usedIn (hused w hw)) (hl.spans (hspans id hid))
        (by rwa [hl.rootOf, hl.rootOf])
  refine ⟨hl.trans (sameLayout_of_set hset), fun id hid hin => ?_, fun id hid hout => ?_⟩
  · rw [Reader.setAll_concat]
    by_cases heq : id = w.1
    · obtain ⟨e, he, -⟩ := hused w hw
      rw [heq, Reader.value_set_self]
      exact hself w.1 rfl (backing_eq_some_iff.mp he).1
    · rw [Reader.value_set_of_ne heq, hsame id hid heq]
      exact h.new id hid ((hmem id heq).mp hin)
  · have hne : id ≠ w.1 := fun heq => hout (by simp [heq])
    rw [hsame id hid hne]
    exact h.old id hid fun hin => hout ((hmem id hne).mpr hin)

theorem partWritten_of_setAll (hset : s.setAll writes = .ok s') : s.PartWritten r ids writes s' :=
  except_foldlM_upTo (s.PartWritten r ids) hset ⟨.refl s, fun _ _ h => absurd h (by simp),
    fun _ _ _ => rfl⟩ fun _ _ _ _ _ hsplit h hstep => h.step hp hused hspans hids hfree hsplit hstep

end Step

/-- The writes of one step. Whatever is live afterwards was so before or has been written, its use
spans the step, and it shares its buffer with nothing that is written, unless it holds that
already. -/
theorem Agrees.setAll (h : s.Agrees live r) (hreg : Registry batch s) (hp : Placed s mode)
    (hset : s.setAll writes = .ok s') (hused : ∀ w ∈ writes, s.UsedIn mode w.1 t)
    (hlive : ∀ id, live' id → id ∉ writes.map (·.1) → live id)
    (hspans : ∀ id, live' id → s.Spans mode id t)
    (hfree : ∀ id, live' id ∨ id ∈ writes.map (·.1) → ∀ w ∈ writes, id ≠ w.1 →
      s.rootOf id = s.rootOf w.1 → s.get id = .ok w.2) : s'.Agrees live' (r.setAll writes) := by
  have hl := sameLayout_setAll hset
  have hspans' : ∀ id, live' id ∨ id ∈ writes.map (·.1) → s.Spans mode id t := by
    rintro id (hid | hmem)
    · exact hspans id hid
    · obtain ⟨w, hw, rfl⟩ := List.mem_map.mp hmem
      exact .of_usedIn (hused w hw) (hused w hw) (Nat.le_refl t) (Nat.le_refl t)
  have hwritten :=
    partWritten_of_setAll (r := r) hp hused hspans' (fun w hw => .inr (List.mem_map_of_mem hw))
    hfree hset
  refine ⟨fun id hid => ?_, ?_, ?_⟩
  · by_cases hmem : id ∈ writes.map (·.1)
    · exact hwritten.new id (.inl hid) hmem
    · rw [hwritten.old id (.inl hid) hmem, h.value id (hlive id hid hmem),
        Reader.value_setAll_of_not_mem hmem]
  · rw [shape_of_sameLayout hl, h.shape, Reader.shape_setAll]
  · have hunkept : ∀ w ∈ writes, ∃ e, s.backing w.1 = some e ∧ e.role.isKept = false :=
      fun w hw => by
      obtain ⟨e, he, hk, -⟩ := hused w hw
      exact ⟨e, he, hk⟩
    rw [weight_of_sameKept hreg hl (sameKept_of_setAll hset hunkept), h.weight,
      Reader.weight_setAll]

end Store

end LayerGraph
