import LayerGraph.Proofs.Lowering.Readers
import Mathlib.Data.List.InsertIdx

/-!
# Fan-out

Behind a slot with several readers a fan-out node is put, which then is the only one to read the
slot, and each of the readers gets a slot of the fan-out node for itself.
-/

namespace LayerGraph.Lowering

variable {α : Type} {nodes : List (Node α)}

def SingleRead (nodes : List (Node α)) (source : Connection) : Prop :=
  ∀ r r', Reads nodes r source → Reads nodes r' source → r = r'

/-- Setting an input leaves the rest of all nodes as it is. -/
theorem setInput_map {β : Type} {f : Node α → β}
    (hf : ∀ node inputs, f { node with inputs := inputs } = f node) (r t : Connection)
    (nodes : List (Node α)) : (setInput r t nodes).map f = nodes.map f := by
  unfold setInput
  split
  · exact map_modify_eq (fun node => hf node _) nodes _
  · rfl

/-- Only the input that is set reads anything else than before. -/
theorem reads_setInput_iff (hd : (nodes.map (·.name)).Nodup) {r t s : Connection}
    (hr : Reads nodes r s) {r' c : Connection} :
    Reads (setInput r t nodes) r' c ↔ (r' = r ∧ c = t) ∨ (r' ≠ r ∧ Reads nodes r' c) := by
  obtain ⟨node, hnode, hname, hs⟩ := hr
  obtain ⟨i, hi⟩ := List.getElem?_of_mem hnode
  have hfind : nodes.findIdx? (·.name == r.name) = some i := by
    obtain ⟨hlt, rfl⟩ := List.getElem?_eq_some_iff.mp hi
    refine List.findIdx?_eq_some_iff_getElem.mpr ⟨hlt, by simpa using hname, fun j hj h => ?_⟩
    have hsame : nodes[j].name = nodes[i].name := by
      rw [hname]
      simpa using h
    have := getElem?_inj_of_nodup_map hd (List.getElem?_eq_getElem _) hi hsame
    omega
  have hset : setInput r t nodes =
      nodes.modify i fun node => { node with inputs := node.inputs.set r.index t } := by
    simp [setInput, hfind]
  have hlen : r.index < node.inputs.length := (List.getElem?_eq_some_iff.mp hs).1
  have hat : ∀ (j : Nat) (a : Node α), nodes[j]? = some a → a.name = node.name → j = i := by
    intro j a hj hn
    exact getElem?_inj_of_nodup_map hd hj hi hn
  rw [hset]
  constructor
  · rintro ⟨a, ha, han, hac⟩
    obtain ⟨j, hj⟩ := List.getElem?_of_mem ha
    rw [List.getElem?_modify] at hj
    obtain ⟨b, hb, rfl⟩ := Option.map_eq_some_iff.mp hj
    by_cases hij : i = j
    · subst hij
      rw [hi] at hb
      cases hb
      simp only [if_true] at han hac
      rw [List.getElem?_set] at hac
      by_cases hidx : r.index = r'.index
      · rw [if_pos hidx, if_pos hlen] at hac
        refine .inl ⟨?_, (Option.some.inj hac).symm⟩
        cases r
        cases r'
        simp_all
      · rw [if_neg hidx] at hac
        exact .inr ⟨fun h => hidx (by rw [h]), node, hnode, han, hac⟩
    · simp only [if_neg hij] at han hac
      refine .inr ⟨fun h => ?_, b, List.mem_of_getElem? hb, han, hac⟩
      exact hij (hat j b hb (by rw [han, h, hname])).symm
  · rintro (⟨rfl, rfl⟩ | ⟨hne, a, ha, han, hac⟩)
    · refine ⟨{ node with inputs := node.inputs.set r'.index c }, ?_, hname, by simp [hlen]⟩
      exact List.mem_of_getElem? (i := i) (by simp [hi])
    · obtain ⟨j, hj⟩ := List.getElem?_of_mem ha
      by_cases hij : i = j
      · subst hij
        rw [hi] at hj
        cases hj
        refine ⟨{ node with inputs := node.inputs.set r.index t }, ?_, han, ?_⟩
        · exact List.mem_of_getElem? (i := i) (by simp [hi])
        · have hidx : r.index ≠ r'.index := by
            intro hidx
            apply hne
            cases r
            cases r'
            simp_all
          simpa [List.getElem?_set, hidx] using hac
      · exact ⟨a, List.mem_of_getElem? (i := j) (by simp [hij, hj]), han, hac⟩

/-- Set several inputs, each to a source of its own. -/
def setInputs (sends : List (Connection × Connection)) (nodes : List (Node α)) : List (Node α) :=
  sends.foldl (fun nodes send => setInput send.1 send.2 nodes) nodes

theorem setInputs_map {β : Type} {f : Node α → β}
    (hf : ∀ node inputs, f { node with inputs := inputs } = f node)
    (sends : List (Connection × Connection)) (nodes : List (Node α)) :
    (setInputs sends nodes).map f = nodes.map f := by
  induction sends generalizing nodes with
  | nil => rfl
  | cons send sends ih => exact (ih _).trans (setInput_map hf _ _ _)

theorem setInputs_names (sends : List (Connection × Connection)) (nodes : List (Node α)) :
    (setInputs sends nodes).map (·.name) = nodes.map (·.name) :=
  setInputs_map (fun _ _ => rfl) sends nodes

theorem reads_setInputs_iff {sends : List (Connection × Connection)}
    (hd : (nodes.map (·.name)).Nodup) (hs : (sends.map (·.1)).Nodup)
    (hr : ∀ send ∈ sends, ∃ s, Reads nodes send.1 s) {r c : Connection} :
    Reads (setInputs sends nodes) r c ↔
      (r, c) ∈ sends ∨ (r ∉ sends.map (·.1) ∧ Reads nodes r c) := by
  induction sends generalizing nodes with
  | nil => simp [setInputs]
  | cons send sends ih =>
    obtain ⟨s, hsend⟩ := hr send (by simp)
    obtain ⟨hnot, hs⟩ := List.nodup_cons.mp hs
    have hset : ∀ {r c}, Reads (setInput send.1 send.2 nodes) r c ↔
        (r = send.1 ∧ c = send.2) ∨ (r ≠ send.1 ∧ Reads nodes r c) := reads_setInput_iff hd hsend
    have hd' : ((setInput send.1 send.2 nodes).map (·.name)).Nodup := by
      rw [setInput_map fun _ _ => rfl]
      exact hd
    have hr' : ∀ other ∈ sends, ∃ s, Reads (setInput send.1 send.2 nodes) other.1 s := by
      intro other ho
      obtain ⟨s', hs'⟩ := hr other (by simp [ho])
      refine ⟨s', hset.mpr (.inr ⟨fun h => hnot ?_, hs'⟩)⟩
      exact List.mem_map.mpr ⟨other, ho, h⟩
    have hrec : Reads (setInputs (send :: sends) nodes) r c ↔ _ := ih hd' hs hr'
    rw [hrec, hset]
    simp only [List.map_cons, List.mem_cons, not_or]
    constructor
    · rintro (h | ⟨hn, ⟨rfl, rfl⟩ | ⟨hne, h⟩⟩)
      · exact .inl (.inr h)
      · exact .inl (.inl rfl)
      · exact .inr ⟨⟨hne, hn⟩, h⟩
    · rintro ((heq | h) | ⟨⟨hne, hn⟩, h⟩)
      · subst heq
        exact .inr ⟨hnot, .inl ⟨rfl, rfl⟩⟩
      · exact .inl h
      · exact .inr ⟨hn, .inr ⟨hne, h⟩⟩

/-- Each reader of a slot is sent to a slot of the fan-out node. -/
def sends (fanOut : String) (readers : List Connection) : List (Connection × Connection) :=
  readers.zipIdx.map fun reader => (reader.1, ⟨fanOut, reader.2⟩)

theorem mem_sends {fanOut : String} {readers : List Connection} {r c : Connection} :
    (r, c) ∈ sends fanOut readers ↔ readers[c.index]? = some r ∧ c.name = fanOut := by
  simp only [sends, List.mem_map]
  constructor
  · rintro ⟨⟨r', k⟩, hmem, heq⟩
    cases heq
    exact ⟨List.mem_zipIdx_iff_getElem?.mp hmem, rfl⟩
  · rintro ⟨hr, rfl⟩
    exact ⟨(r, c.index), List.mem_zipIdx_iff_getElem?.mpr hr, rfl⟩

theorem map_fst_sends (fanOut : String) (readers : List Connection) :
    (sends fanOut readers).map (·.1) = readers := by
  simp [sends, Function.comp_def]

section Split

variable [Zero α]

/-- The nodes after a fan-out node has been put behind slot `k` of the node `name`. -/
def splitSlot (name : String) (k : Nat) (readers : List Connection) (position : Nat)
    (nodes : List (Node α)) : List (Node α) :=
  (setInputs (sends (fanOutName name k) readers) nodes).insertIdx position
    (.ofLayer .multiout (fanOutName name k) [⟨name, k⟩])

theorem fanOutSlot_eq (i : Nat) (name : String) (state : Insertion α)
    (slot : List Connection × Nat) :
    fanOutSlot i name state slot = if slot.1.length ≤ 1 then state else
      ⟨splitSlot name slot.2 slot.1 (i + 1 + state.inserted) state.nodes, state.inserted + 1⟩ := by
  simp [fanOutSlot, splitSlot, setInputs, sends, List.foldl_map]

theorem splitSlot_names (name : String) (k : Nat) (readers : List Connection) (position : Nat)
    (nodes : List (Node α)) : (splitSlot name k readers position nodes).map (·.name) =
      (nodes.map (·.name)).insertIdx position (fanOutName name k) := by
  rw [splitSlot, List.map_insertIdx, setInputs_names]
  rfl

section SplitSlot

variable {name : String} {k position : Nat} {readers : List Connection}
  (hd : ((splitSlot name k readers position nodes).map (·.name)).Nodup)
  (hp : position ≤ nodes.length)

include hd in
theorem names_nodup_of_splitSlot : (nodes.map (·.name)).Nodup := by
  rw [splitSlot_names] at hd
  exact hd.sublist (List.sublist_insertIdx _ _ _)

include hd hp in
theorem fanOutName_fresh : fanOutName name k ∉ nodes.map (·.name) := by
  rw [splitSlot_names] at hd
  have hp' : position ≤ (nodes.map (·.name)).length := by simpa using hp
  exact (List.nodup_cons.mp ((List.perm_insertIdx (fanOutName name k) _ hp').nodup_iff.mp hd)).1

variable (hn : readers.Nodup) (hr : ∀ r, r ∈ readers ↔ Reads nodes r ⟨name, k⟩)
include hd hp hn hr

/-- The fan-out node alone reads the slot, each reader reads a slot of the fan-out node, and what
others read stays as it is. -/
theorem reads_splitSlot_iff {r c : Connection} :
    Reads (splitSlot name k readers position nodes) r c ↔
      (readers[c.index]? = some r ∧ c.name = fanOutName name k) ∨
      (c ≠ ⟨name, k⟩ ∧ Reads nodes r c) ∨ (r = ⟨fanOutName name k, 0⟩ ∧ c = ⟨name, k⟩) := by
  have hd₀ := names_nodup_of_splitSlot hd
  have hsends : ∀ {r c}, Reads (setInputs (sends (fanOutName name k) readers) nodes) r c ↔
      (readers[c.index]? = some r ∧ c.name = fanOutName name k) ∨
        (c ≠ ⟨name, k⟩ ∧ Reads nodes r c) := by
    intro r c
    rw [reads_setInputs_iff hd₀ (by rw [map_fst_sends]; exact hn), mem_sends, map_fst_sends, hr]
    · refine or_congr Iff.rfl ⟨fun ⟨hnot, h⟩ => ⟨fun hc => hnot (hc ▸ h), h⟩,
        fun ⟨hc, h⟩ => ⟨?_, h⟩⟩
      exact fun h' => hc (h.unique hd₀ h')
    · intro send hs
      have : send.1 ∈ readers := map_fst_sends (fanOutName name k) readers ▸
        List.mem_map.mpr ⟨send, hs, rfl⟩
      exact ⟨_, (hr send.1).mp this⟩
  have hlen : (setInputs (sends (fanOutName name k) readers) nodes).length = nodes.length := by
    simpa using congrArg List.length (setInputs_names (sends (fanOutName name k) readers) nodes)
  have hmem : ∀ a, a ∈ splitSlot name k readers position nodes ↔
      a = .ofLayer .multiout (fanOutName name k) [⟨name, k⟩] ∨
        a ∈ setInputs (sends (fanOutName name k) readers) nodes := by
    intro a
    exact List.mem_insertIdx (by omega)
  rw [← or_assoc, ← hsends]
  constructor
  · rintro ⟨a, ha, han, hac⟩
    rcases (hmem a).mp ha with rfl | ha
    · right
      have hlt : r.index = 0 := by
        have := (List.getElem?_eq_some_iff.mp hac).1
        simp only [Node.ofLayer, List.length_singleton] at this
        omega
      cases r
      simp only [Node.ofLayer] at han hac hlt
      subst hlt
      simp_all
    · exact .inl ⟨a, ha, han, hac⟩
  · rintro (⟨a, ha, han, hac⟩ | ⟨rfl, rfl⟩)
    · exact ⟨a, (hmem a).mpr (.inr ha), han, hac⟩
    · exact ⟨_, (hmem _).mpr (.inl rfl), rfl, rfl⟩

end SplitSlot

end Split

end LayerGraph.Lowering
