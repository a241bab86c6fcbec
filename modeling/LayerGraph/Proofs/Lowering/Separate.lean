import LayerGraph.Proofs.Lowering.FanOut

/-!
# Separating readers

All slots are taken one after the other, and a fan-out node is put behind each that has several
readers. In the end the readers of such a slot read one slot each of its fan-out node, the fan-out
node reads the slot, and every other input reads what it has read before.
-/

namespace LayerGraph.Lowering

variable {α : Type} {nodes nodes' : List (Node α)}

/-- Every slot of a node that is listed, with its readers. -/
def slotsOf (listing : String × List (List Connection)) : List (Connection × List Connection) :=
  listing.2.zipIdx.map fun slot => (⟨listing.1, slot.2⟩, slot.1)

def slotTable (nodes : List (Node α)) : List (Connection × List Connection) :=
  (nodes.map fun a => (a.name, a.outputs)).flatMap slotsOf

theorem mem_slotTable {s : Connection} {readers : List Connection} :
    (s, readers) ∈ slotTable nodes ↔
      ∃ a ∈ nodes, a.name = s.name ∧ a.outputs[s.index]? = some readers := by
  simp only [slotTable, slotsOf, List.mem_flatMap, List.mem_map]
  constructor
  · rintro ⟨_, ⟨a, ha, rfl⟩, ⟨rs, k⟩, hk, heq⟩
    cases heq
    exact ⟨a, ha, rfl, List.mem_zipIdx_iff_getElem?.mp hk⟩
  · rintro ⟨a, ha, hname, hk⟩
    refine ⟨_, ⟨a, ha, rfl⟩, (readers, s.index), List.mem_zipIdx_iff_getElem?.mpr hk, ?_⟩
    rw [hname]

theorem nodup_slotTable (hd : (nodes.map (·.name)).Nodup) :
    ((slotTable nodes).map (·.1)).Nodup := by
  induction nodes with
  | nil => exact List.nodup_nil
  | cons a nodes ih =>
    obtain ⟨ha, hd⟩ := List.nodup_cons.mp (List.map_cons .. ▸ hd)
    have hsplit : (slotTable (a :: nodes)).map (·.1) =
        (slotsOf (a.name, a.outputs)).map (·.1) ++ (slotTable nodes).map (·.1) := by
      simp [slotTable]
    rw [hsplit]
    refine List.nodup_append.mpr ⟨?_, ih hd, fun s hs t ht heq => ha ?_⟩
    · have hmap : (slotsOf (a.name, a.outputs)).map (·.1) =
          (List.range a.outputs.length).map (Connection.mk a.name) := by
        refine List.ext_getElem? fun j => ?_
        by_cases hj : j < a.outputs.length
        · simp [slotsOf, hj]
        · simp [slotsOf, hj]
      rw [hmap]
      exact List.nodup_range.map fun i j h => (Connection.mk.inj h).2
    · subst heq
      obtain ⟨⟨s', rs⟩, hs', rfl⟩ := List.mem_map.mp ht
      obtain ⟨b, hb, hbn, -⟩ := mem_slotTable.mp hs'
      obtain ⟨x, hx, hxs⟩ := List.mem_map.mp hs
      obtain ⟨y, -, rfl⟩ := List.mem_map.mp hx
      have hname : a.name = s'.name := congrArg Connection.name hxs
      exact List.mem_map.mpr ⟨b, hb, hbn.trans hname.symm⟩

/-- A node but for its wiring. -/
def bare (a : Node α) : Node α := { a with inputs := [], outputs := [] }

def fanOutOf (s : Connection) : String := fanOutName s.name s.index

/-- The slots with several readers. -/
def fanned (slots : List (Connection × List Connection)) : List Connection :=
  (slots.filter fun slot => 1 < slot.2.length).map (·.1)

theorem mem_fanned {slots : List (Connection × List Connection)} {s : Connection} :
    s ∈ fanned slots ↔ ∃ readers, (s, readers) ∈ slots ∧ 1 < readers.length := by
  simp [fanned]

variable [Zero α]

def fanOutNode (s : Connection) : Node α := .ofLayer .multiout (fanOutOf s) [s]

/-- The slots in the list are taken one after the other. -/
inductive Splits : List (Connection × List Connection) → List (Node α) → List (Node α) → Prop where
  | done (nodes : List (Node α)) : Splits [] nodes nodes
  | keep {s : Connection} {readers : List Connection} {slots : List (Connection × List Connection)}
      {nodes nodes' : List (Node α)} (few : readers.length ≤ 1) (h : Splits slots nodes nodes') :
      Splits ((s, readers) :: slots) nodes nodes'
  | split {s : Connection} {readers : List Connection} {slots : List (Connection × List Connection)}
      {nodes nodes' : List (Node α)} {position : Nat} (many : 1 < readers.length)
      (inside : position ≤ nodes.length)
      (h : Splits slots (splitSlot s.name s.index readers position nodes) nodes') :
      Splits ((s, readers) :: slots) nodes nodes'

theorem Splits.append {slots more : List (Connection × List Connection)}
    {nodes₁ nodes₂ nodes₃ : List (Node α)} (h : Splits slots nodes₁ nodes₂)
    (h' : Splits more nodes₂ nodes₃) : Splits (slots ++ more) nodes₁ nodes₃ := by
  induction h with
  | done => exact h'
  | keep few _ ih => exact .keep few (ih h')
  | split many inside _ ih => exact .split many inside (ih h')

section Loops

/-- What stands behind position `i`, and the fan-out nodes inserted there, stays as it is. -/
structure Advances (i : Nat) (state state' : Insertion α) : Prop where
  inside : i + 1 + state'.inserted ≤ state'.nodes.length
  length_eq : state'.nodes.length + state.inserted = state.nodes.length + state'.inserted
  rest : (state'.nodes.map fun a => (a.name, a.outputs)).drop (i + 1 + state'.inserted) =
    (state.nodes.map fun a => (a.name, a.outputs)).drop (i + 1 + state.inserted)

omit [Zero α] in
theorem Advances.trans {i : Nat} {s₁ s₂ s₃ : Insertion α} (h : Advances i s₁ s₂)
    (h' : Advances i s₂ s₃) : Advances i s₁ s₃ :=
  ⟨h'.inside, by have := h.length_eq; have := h'.length_eq; omega, h'.rest.trans h.rest⟩

theorem map_splitSlot {β : Type} {f : Node α → β}
    (hf : ∀ node inputs, f { node with inputs := inputs } = f node) (name : String) (k : Nat)
    (readers : List Connection) (position : Nat) (nodes : List (Node α)) :
    (splitSlot name k readers position nodes).map f =
      (nodes.map f).insertIdx position (f (fanOutNode ⟨name, k⟩)) := by
  rw [splitSlot, List.map_insertIdx, setInputs_map hf]
  rfl

theorem length_splitSlot (name : String) (k : Nat) (readers : List Connection) {position : Nat}
    {nodes : List (Node α)} (hp : position ≤ nodes.length) :
    (splitSlot name k readers position nodes).length = nodes.length + 1 := by
  have h := congrArg List.length (splitSlot_names name k readers position nodes)
  rw [List.length_insertIdx_of_le_length (by simpa using hp)] at h
  simpa using h

theorem advances_fanOutSlot {i : Nat} (name : String) {state : Insertion α}
    (h : i + 1 + state.inserted ≤ state.nodes.length) (slot : List Connection × Nat) :
    Advances i state (fanOutSlot i name state slot) ∧
      Splits [(⟨name, slot.2⟩, slot.1)] state.nodes (fanOutSlot i name state slot).nodes := by
  rw [fanOutSlot_eq]
  split
  · next hle => exact ⟨⟨h, rfl, rfl⟩, .keep hle (.done _)⟩
  · next hle =>
    have hlen := length_splitSlot name slot.2 slot.1 h
    refine ⟨⟨by simp only; omega, by simp only; omega, ?_⟩,
      .split (Nat.lt_of_not_le hle) h (.done _)⟩
    simp only [map_splitSlot (f := fun a : Node α => (a.name, a.outputs)) fun _ _ => rfl]
    refine List.ext_getElem? fun j => ?_
    rw [List.getElem?_drop, List.getElem?_drop, List.getElem?_insertIdx_of_gt (by omega)]
    congr 1
    omega

theorem advances_foldl {i : Nat} (name : String) (slots : List (List Connection × Nat))
    {state : Insertion α} (h : i + 1 + state.inserted ≤ state.nodes.length) :
    Advances i state (slots.foldl (fanOutSlot i name) state) ∧
      Splits (slots.map fun slot => (⟨name, slot.2⟩, slot.1)) state.nodes
        (slots.foldl (fanOutSlot i name) state).nodes := by
  induction slots generalizing state with
  | nil => exact ⟨⟨h, rfl, rfl⟩, .done _⟩
  | cons slot slots ih =>
    obtain ⟨hadv, hsplit⟩ := advances_fanOutSlot name h slot
    obtain ⟨hadv', hsplit'⟩ := ih hadv.inside
    exact ⟨hadv.trans hadv', hsplit.append hsplit'⟩

theorem splits_fanOutFrom {count i : Nat} {nodes : List (Node α)} (h : i + count = nodes.length) :
    Splits (((nodes.map fun a => (a.name, a.outputs)).drop i).flatMap slotsOf) nodes
      (fanOutFrom count i nodes) := by
  induction count generalizing i nodes with
  | zero =>
    rw [List.drop_eq_nil_of_le (by simp; omega)]
    exact .done nodes
  | succ count ih =>
    have hlt : i < nodes.length := by omega
    have hi : nodes[i]? = some nodes[i] := by simp [hlt]
    obtain ⟨hadv, hsplit⟩ := advances_foldl nodes[i].name nodes[i].outputs.zipIdx
      (show i + 1 + (⟨nodes, 0⟩ : Insertion α).inserted ≤ _ from hlt)
    have hlen := hadv.length_eq
    have hdrop : ((nodes.map fun a => (a.name, a.outputs)).drop i) =
        (nodes[i].name, nodes[i].outputs) :: (nodes.map fun a => (a.name, a.outputs)).drop
          (i + 1) := by
      rw [List.drop_eq_getElem_cons (by simpa using hlt)]
      simp
    have hfan : fanOutFrom (count + 1) i nodes =
        let state := nodes[i].outputs.zipIdx.foldl (fanOutSlot i nodes[i].name) ⟨nodes, 0⟩
        fanOutFrom count (i + 1 + state.inserted) state.nodes := by
      rw [fanOutFrom, hi]
    rw [hfan, hdrop, List.flatMap_cons]
    generalize nodes[i].outputs.zipIdx.foldl (fanOutSlot i nodes[i].name) ⟨nodes, 0⟩ = state at *
    have hnext := ih (show i + 1 + state.inserted + count = state.nodes.length by
      simp only at hlen; omega)
    rw [hadv.rest] at hnext
    exact hsplit.append hnext

theorem splits_insertFanOut (nodes : List (Node α)) :
    Splits (slotTable nodes) nodes (insertFanOut nodes) := by
  have h := splits_fanOutFrom (Nat.zero_add nodes.length)
  rwa [List.drop_zero] at h

end Loops

namespace Splits

variable {slots : List (Connection × List Connection)} (h : Splits slots nodes nodes')
include h

/-- What is added are fan-out nodes, one behind each slot with several readers. -/
theorem perm : (nodes'.map bare).Perm
      (nodes.map bare ++ (fanned slots).map fun s => bare (fanOutNode s)) := by
  induction h with
  | done nodes => simp [fanned]
  | @keep s readers slots nodes nodes' few _ ih =>
    rwa [show fanned ((s, readers) :: slots) = fanned slots by simp [fanned, few]]
  | @split s readers slots nodes nodes' position many inside _ ih =>
    rw [show fanned ((s, readers) :: slots) = s :: fanned slots by simp [fanned, many]]
    refine ih.trans ?_
    rw [map_splitSlot fun _ _ => rfl]
    have hp := List.perm_insertIdx (bare (fanOutNode s)) (nodes.map bare) (i := position)
      (by simpa using inside)
    refine (hp.append_right _).trans ?_
    simpa using List.perm_middle.symm

theorem names_perm : (nodes'.map (·.name)).Perm
      (nodes.map (·.name) ++ (fanned slots).map fanOutOf) := by
  simpa [Function.comp_def, bare, fanOutNode, Node.ofLayer] using h.perm.map (·.name)

theorem names_sublist : (nodes.map (·.name)).Sublist (nodes'.map (·.name)) := by
  induction h with
  | done => exact .refl _
  | keep _ _ ih => exact ih
  | split _ _ _ ih =>
    refine .trans ?_ ih
    rw [splitSlot_names]
    exact List.sublist_insertIdx _ _ _

theorem eq_of_length (hlen : nodes'.length = nodes.length) : nodes' = nodes := by
  have hnone : fanned slots = [] := by
    have := h.names_perm.length_eq
    simp only [List.length_append, List.length_map] at this
    exact List.length_eq_zero_iff.mp (by omega)
  induction h with
  | done => rfl
  | @keep s readers slots _ _ few _ ih =>
    exact ih hlen (by simpa [fanned, few] using hnone)
  | @split s readers slots _ _ _ many => simp [fanned, many] at hnone

end Splits

/-- What an input reads once the slots in the list are taken. -/
inductive Rerouted (slots : List (Connection × List Connection)) (nodes : List (Node α)) :
    Connection → Connection → Prop where
  | kept {r c : Connection} (reads : Reads nodes r c) (alone : c ∉ fanned slots) :
      Rerouted slots nodes r c
  | sent {s r : Connection} {readers : List Connection} {j : Nat} (slot : (s, readers) ∈ slots)
      (many : 1 < readers.length) (reader : readers[j]? = some r) :
      Rerouted slots nodes r ⟨fanOutOf s, j⟩
  | fan {s : Connection} (slot : s ∈ fanned slots) : Rerouted slots nodes ⟨fanOutOf s, 0⟩ s

/-- The slots in the list belong to nodes and are listed with their readers. -/
structure Tabled (slots : List (Connection × List Connection)) (nodes : List (Node α)) : Prop where
  slots_nodup : (slots.map (·.1)).Nodup
  named : ∀ s readers, (s, readers) ∈ slots → s.name ∈ nodes.map (·.name)
  nodup : ∀ s readers, (s, readers) ∈ slots → readers.Nodup
  mem_iff : ∀ s readers, (s, readers) ∈ slots → ∀ r, r ∈ readers ↔ Reads nodes r s

omit [Zero α] in
theorem tabled_slotTable (hd : (nodes.map (·.name)).Nodup) (hl : ∀ a ∈ nodes, Listed nodes a) :
    Tabled (slotTable nodes) nodes := by
  refine ⟨nodup_slotTable hd, fun s rs hs => ?_, fun s rs hs => ?_, fun s rs hs r => ?_⟩
  all_goals obtain ⟨a, ha, hname, hk⟩ := mem_slotTable.mp hs
  · exact List.mem_map.mpr ⟨a, ha, hname⟩
  · exact (hl a ha).nodup _ _ hk
  · rw [(hl a ha).mem_iff _ _ hk, hname]

theorem Splits.reads_iff {slots : List (Connection × List Connection)}
    (h : Splits slots nodes nodes') (hd : (nodes'.map (·.name)).Nodup) (ht : Tabled slots nodes)
    {r c : Connection} : Reads nodes' r c ↔ Rerouted slots nodes r c := by
  induction h with
  | done nodes =>
    constructor
    · exact fun hr => .kept hr (by simp [fanned])
    · rintro (⟨hr, -⟩ | ⟨hs, -, -⟩ | ⟨hs⟩)
      · exact hr
      · cases hs
      · simp [fanned] at hs
  | @keep s readers slots nodes nodes' few _ ih =>
    have hfan : fanned ((s, readers) :: slots) = fanned slots := by simp [fanned, few]
    rw [ih hd ⟨(List.nodup_cons.mp ht.slots_nodup).2, fun s' rs hs => ht.named s' rs (by simp [hs]),
      fun s' rs hs => ht.nodup s' rs (by simp [hs]), fun s' rs hs =>
        ht.mem_iff s' rs (by simp [hs])⟩]
    constructor
    · rintro (⟨hr, ha⟩ | ⟨hs, hm, hr⟩ | ⟨hs⟩)
      · exact .kept hr (hfan ▸ ha)
      · exact .sent (List.mem_cons_of_mem _ hs) hm hr
      · exact .fan (hfan ▸ hs)
    · rintro (⟨hr, ha⟩ | ⟨hs, hm, hr⟩ | ⟨hs⟩)
      · exact .kept hr (hfan ▸ ha)
      · rcases List.mem_cons.mp hs with heq | hs
        · cases heq
          omega
        · exact .sent hs hm hr
      · exact .fan (hfan ▸ hs)
  | @split s readers slots nodes nodes' position many inside hrest ih =>
    have hfan : fanned ((s, readers) :: slots) = s :: fanned slots := by simp [fanned, many]
    obtain ⟨hsfresh, hslots⟩ := List.nodup_cons.mp ht.slots_nodup
    have hd₁ : ((splitSlot s.name s.index readers position nodes).map (·.name)).Nodup :=
      hd.sublist hrest.names_sublist
    have hfresh := fanOutName_fresh hd₁ inside
    have hreads := fun {r c} => reads_splitSlot_iff hd₁ inside (ht.nodup s readers (by simp))
      (ht.mem_iff s readers (by simp)) (r := r) (c := c)
    -- The slots that are left belong to nodes that were there before, and keep their readers.
    have hother : ∀ s' rs, (s', rs) ∈ slots → s'.name ≠ fanOutOf s ∧ s' ≠ s := by
      intro s' rs hs'
      refine ⟨fun heq => hfresh ?_, fun heq => hsfresh (List.mem_map.mpr ⟨_, hs', heq⟩)⟩
      have hmem := ht.named s' rs (by simp [hs'])
      rwa [heq] at hmem
    have ht₁ : Tabled slots (splitSlot s.name s.index readers position nodes) := by
      refine ⟨hslots, fun s' rs hs' => ?_, fun s' rs hs' => ht.nodup s' rs (by simp [hs']),
        fun s' rs hs' r => ?_⟩
      · rw [splitSlot_names]
        exact (List.mem_insertIdx (by simpa using inside)).mpr
          (.inr (ht.named s' rs (by simp [hs'])))
      · obtain ⟨hne, hne'⟩ := hother s' rs hs'
        rw [ht.mem_iff s' rs (by simp [hs']), hreads]
        exact ⟨fun hr => .inr (.inl ⟨hne', hr⟩), fun hr => by
          rcases hr with ⟨-, heq⟩ | ⟨-, hr⟩ | ⟨-, heq⟩
          · exact absurd heq hne
          · exact hr
          · exact absurd heq hne'⟩
    rw [ih hd ht₁]
    constructor
    · rintro (⟨hr, ha⟩ | ⟨hs, hm, hr⟩ | ⟨hs⟩)
      · rcases hreads.mp hr with ⟨hj, hname⟩ | ⟨hne, hr⟩ | ⟨rfl, rfl⟩
        · obtain ⟨name, j⟩ := c
          cases hname
          exact .sent (s := s) (List.mem_cons_self ..) (many) hj
        · exact .kept hr (by simpa [hfan] using ⟨hne, ha⟩)
        · exact .fan (s := s) (by simp [hfan])
      · exact .sent (List.mem_cons_of_mem _ hs) hm hr
      · exact .fan (by simp [hfan, hs])
    · rintro (⟨hr, ha⟩ | ⟨hs, hm, hr⟩ | ⟨hs⟩)
      · rw [hfan, List.mem_cons, not_or] at ha
        exact .kept (hreads.mpr (.inr (.inl ⟨ha.1, hr⟩))) ha.2
      · rcases List.mem_cons.mp hs with heq | hs
        · cases heq
          refine .kept (hreads.mpr (.inl ⟨hr, rfl⟩)) fun hmem => ?_
          obtain ⟨rs, hrs, -⟩ := mem_fanned.mp hmem
          exact (hother _ rs hrs).1 rfl
        · exact .sent hs hm hr
      · rw [hfan] at hs
        rcases List.mem_cons.mp hs with rfl | hs
        · refine .kept (hreads.mpr (.inr (.inr ⟨rfl, rfl⟩))) fun hmem => ?_
          obtain ⟨rs, hrs, -⟩ := mem_fanned.mp hmem
          exact (hother _ rs hrs).2 rfl
        · exact .fan hs

section Fresh

variable {slots : List (Connection × List Connection)} (h : Splits slots nodes nodes')
  (hd : (nodes'.map (·.name)).Nodup)
include h hd

theorem Splits.fanOutOf_not_mem {s : Connection} (hs : s ∈ fanned slots) :
    fanOutOf s ∉ nodes.map (·.name) := by
  have hd := List.nodup_append.mp (h.names_perm.nodup_iff.mp hd)
  exact fun hm => hd.2.2 _ hm _ (List.mem_map_of_mem hs) rfl

theorem Splits.fanOutOf_inj {s s' : Connection} (hs : s ∈ fanned slots) (hs' : s' ∈ fanned slots)
    (heq : fanOutOf s = fanOutOf s') : s = s' := by
  have hd := List.nodup_append.mp (h.names_perm.nodup_iff.mp hd)
  exact List.inj_on_of_nodup_map hd.2.1 hs hs' heq

end Fresh

section Contended

omit [Zero α]
variable (hr : Resolved nodes) (hl : ∀ a ∈ nodes, Listed nodes a)
include hr hl

theorem exists_mem_slotTable {r s : Connection} (h : Reads nodes r s) :
    ∃ readers, (s, readers) ∈ slotTable nodes := by
  obtain ⟨a, ha, hname⟩ := List.mem_map.mp (hr r s h)
  have hlt : s.index < a.outputs.length := ((hl a ha).lt_iff s.index).mpr ⟨r, hname ▸ h⟩
  exact ⟨a.outputs[s.index], mem_slotTable.mpr ⟨a, ha, hname, by simp [hlt]⟩⟩

/-- The slots behind which a fan-out node is put are those with two readers. -/
theorem mem_fanned_slotTable {s : Connection} :
    s ∈ fanned (slotTable nodes) ↔ ¬ SingleRead nodes s := by
  rw [mem_fanned]
  constructor
  · rintro ⟨readers, hs, hlen⟩ hsingle
    obtain ⟨a, ha, hname, hk⟩ := mem_slotTable.mp hs
    have hmem : ∀ r, r ∈ readers ↔ Reads nodes r s := fun r => by
      rw [(hl a ha).mem_iff _ _ hk, hname]
    have hpos : 0 < readers.length := by omega
    have hsame : readers[0] = readers[1] :=
      hsingle _ _ ((hmem _).mp (List.getElem_mem hpos)) ((hmem _).mp (List.getElem_mem hlen))
    exact absurd (((hl a ha).nodup _ _ hk).getElem_inj_iff.mp hsame) (by omega)
  · intro hmany
    simp only [SingleRead, not_forall] at hmany
    obtain ⟨r, r', h, h', hne⟩ := hmany
    obtain ⟨readers, hs⟩ := exists_mem_slotTable hr hl h
    obtain ⟨a, ha, hname, hk⟩ := mem_slotTable.mp hs
    have hmem : ∀ {r}, Reads nodes r s → r ∈ readers := fun {r} h =>
      ((hl a ha).mem_iff _ _ hk r).mpr (hname ▸ h)
    refine ⟨readers, hs, Nat.lt_of_not_le fun hle => hne ?_⟩
    match readers, hle, hmem h, hmem h' with
    | [x], _, hx, hx' => exact (List.mem_singleton.mp hx).trans (List.mem_singleton.mp hx').symm

end Contended

/-- What separating the readers makes of nodes whose outputs are listed. -/
structure Separated (nodes nodes' : List (Node α)) : Prop where
  perm : (nodes'.map bare).Perm
    (nodes.map bare ++ (fanned (slotTable nodes)).map fun s => bare (fanOutNode s))
  reads_iff : ∀ r c, Reads nodes' r c ↔ Rerouted (slotTable nodes) nodes r c
  resolved : Resolved nodes'
  listed : ∀ a ∈ nodes', Listed nodes' a
  fresh : ∀ s ∈ fanned (slotTable nodes), fanOutOf s ∉ nodes.map (·.name)
  single : ∀ c, SingleRead nodes' c

section Result

variable (hr : Resolved nodes) (hl : ∀ a ∈ nodes, Listed nodes a)
include hr hl

theorem Rerouted.single (h : Splits (slotTable nodes) nodes nodes')
    (hd : (nodes'.map (·.name)).Nodup) {r r' c : Connection}
    (h₁ : Rerouted (slotTable nodes) nodes r c) (h₂ : Rerouted (slotTable nodes) nodes r' c) :
    r = r' := by
  have hd₀ : (nodes.map (·.name)).Nodup := hd.sublist h.names_sublist
  have ht := tabled_slotTable hd₀ hl
  -- Nobody reads a slot of a fan-out node before it is there, and no fan-out node has one behind
  -- it.
  have hfresh : ∀ {s readers} {r : Connection} {j : Nat}, (s, readers) ∈ slotTable nodes →
      1 < readers.length → ¬ Reads nodes r ⟨fanOutOf s, j⟩ := fun hs hm hread =>
    h.fanOutOf_not_mem hd (mem_fanned.mpr ⟨_, hs, hm⟩) (hr _ _ hread)
  have hnested : ∀ {s readers} {j : Nat}, (s, readers) ∈ slotTable nodes → 1 < readers.length →
      (⟨fanOutOf s, j⟩ : Connection) ∉ fanned (slotTable nodes) := by
    intro s readers j hs hm hmem
    obtain ⟨rs, hrs, -⟩ := mem_fanned.mp hmem
    exact h.fanOutOf_not_mem hd (mem_fanned.mpr ⟨_, hs, hm⟩) (ht.named _ _ hrs)
  rcases h₁ with ⟨hread, halone⟩ | ⟨hs, hm, hj⟩ | ⟨hs⟩
  · rcases h₂ with ⟨hread', -⟩ | ⟨hs', hm', -⟩ | ⟨hs'⟩
    · by_contra hne
      exact halone ((mem_fanned_slotTable hr hl).mpr fun hsingle => hne (hsingle _ _ hread hread'))
    · exact absurd hread (hfresh hs' hm')
    · exact absurd hs' halone
  · generalize hc : (⟨fanOutOf _, _⟩ : Connection) = c at h₂
    rcases h₂ with ⟨hread', -⟩ | ⟨hs', hm', hj'⟩ | ⟨hs'⟩
    · exact absurd (hc ▸ hread') (hfresh hs hm)
    · obtain ⟨hname, rfl⟩ := Connection.mk.inj hc
      obtain rfl :=
        h.fanOutOf_inj hd (mem_fanned.mpr ⟨_, hs, hm⟩) (mem_fanned.mpr ⟨_, hs', hm'⟩) hname
      have heq := List.inj_on_of_nodup_map ht.slots_nodup hs hs' rfl
      rw [(Prod.mk.inj heq).2, hj'] at hj
      exact (Option.some.inj hj).symm
    · exact absurd (hc ▸ hs') (hnested hs hm)
  · rcases h₂ with ⟨-, halone'⟩ | ⟨hs', hm', -⟩ | ⟨-⟩
    · exact absurd hs halone'
    · exact absurd hs (hnested hs' hm')
    · rfl

theorem separated_of_ok {u : Unit} (h : separateReaders nodes = .ok u nodes')
    (hd : (nodes'.map (·.name)).Nodup) : Separated nodes nodes' := by
  have hsplits := splits_insertFanOut nodes
  unfold separateReaders at h
  obtain ⟨_, _, hget, h⟩ := Action.bind_eq_ok_iff.mp h
  cases hget
  obtain ⟨_, _, hmod, h⟩ := Action.bind_eq_ok_iff.mp h
  cases hmod
  obtain ⟨_, _, hget, h⟩ := Action.bind_eq_ok_iff.mp h
  cases hget
  split at h
  · have hs := Action.update_eq_ok_iff.mp h
    have hd' : ((insertFanOut nodes).map (·.name)).Nodup := setOutputs_names hs ▸ hd
    have hd₀ : (nodes.map (·.name)).Nodup := hd'.sublist hsplits.names_sublist
    have hreads : ∀ r c, Reads nodes' r c ↔ Rerouted (slotTable nodes) nodes r c := fun r c => by
      rw [reads_setOutputs_iff hs, hsplits.reads_iff hd' (tabled_slotTable hd₀ hl)]
    refine ⟨?_, hreads, resolved_setOutputs hs hd', fun a ha => listed_setOutputs hs hd' ha,
      fun s hs => hsplits.fanOutOf_not_mem hd' hs, fun c r r' h₁ h₂ => ?_⟩
    · rw [setOutputs_map hs fun _ _ => rfl]
      exact hsplits.perm
    · exact Rerouted.single hr hl hsplits hd' ((hreads _ _).mp h₁) ((hreads _ _).mp h₂)
  · next hlen =>
    cases h
    rw [not_not] at hlen
    have heq := hsplits.eq_of_length hlen
    have hd₀ : (nodes.map (·.name)).Nodup := heq ▸ hd
    have hreads := fun {r c} => hsplits.reads_iff hd (tabled_slotTable hd₀ hl) (r := r) (c := c)
    refine ⟨hsplits.perm, fun r c => hreads, heq.symm ▸ hr, heq.symm ▸ hl,
      fun s hs => hsplits.fanOutOf_not_mem hd hs, fun c r r' h₁ h₂ => ?_⟩
    exact Rerouted.single hr hl hsplits hd (hreads.mp h₁) (hreads.mp h₂)

end Result

theorem names_sublist_separateReaders {u : Unit} (h : separateReaders nodes = .ok u nodes') :
    (nodes.map (·.name)).Sublist (nodes'.map (·.name)) := by
  unfold separateReaders at h
  obtain ⟨_, _, hget, h⟩ := Action.bind_eq_ok_iff.mp h
  cases hget
  obtain ⟨_, _, hmod, h⟩ := Action.bind_eq_ok_iff.mp h
  cases hmod
  obtain ⟨_, _, hget, h⟩ := Action.bind_eq_ok_iff.mp h
  cases hget
  have hsub := (splits_insertFanOut nodes).names_sublist
  split at h
  · rw [setOutputs_names (Action.update_eq_ok_iff.mp h)]
    exact hsub
  · cases h
    exact hsub

end LayerGraph.Lowering
