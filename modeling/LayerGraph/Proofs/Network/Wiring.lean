import LayerGraph.Network.Compile
import LayerGraph.Proofs.Lowering.Basic
import LayerGraph.Proofs.NodeGraph.Names

/-!
# Wiring

In a compiled graph every input reads one slot of one node, every slot that is listed is read, and
it is read once.
-/

namespace LayerGraph

variable {α : Type}

/-- Input `i` of the node `reader` reads slot `k` of the node `producer`. -/
def ReadsSlot (g : NodeGraph (Node α)) (reader i producer k : Nat) : Prop :=
  ∃ node conn, g.nodes[reader]? = some node ∧ node.inputs[i]? = some conn ∧
    g.indexOf? conn.name = some producer ∧ conn.index = k

structure Wired (g : NodeGraph (Node α)) : Prop where
  distinct : g.Distinct
  resolved : ∀ p a i conn, g.nodes[p]? = some a → a.inputs[i]? = some conn →
    ∃ q k, ReadsSlot g p i q k
  single : ∀ r i r' i' q k, ReadsSlot g r i q k → ReadsSlot g r' i' q k → r = r' ∧ i = i'
  lt_iff : ∀ q b k, g.nodes[q]? = some b → (k < b.outputs.length ↔ ∃ r i, ReadsSlot g r i q k)

variable {g g' : NodeGraph (Node α)}

theorem ReadsSlot.unique {r i q k q' k' : Nat} (h : ReadsSlot g r i q k)
    (h' : ReadsSlot g r i q' k') : q = q' ∧ k = k' := by
  obtain ⟨a, c, ha, hc, hq, rfl⟩ := h
  obtain ⟨a', c', ha', hc', hq', rfl⟩ := h'
  rw [ha] at ha'
  cases ha'
  rw [hc] at hc'
  cases hc'
  rw [hq] at hq'
  cases hq'
  exact ⟨rfl, rfl⟩

/-- A slot that is read is a slot of a node. -/
theorem ReadsSlot.producer (hd : g.Distinct) {r i q k : Nat} (h : ReadsSlot g r i q k) :
    ∃ b, g.nodes[q]? = some b := by
  obtain ⟨a, c, -, -, hq, -⟩ := h
  obtain ⟨b, hb, -⟩ := (NodeGraph.indexOf?_eq_some_iff hd).mp hq
  exact ⟨b, hb⟩

section OfNodes

variable {nodes : List (Node α)} {order : List NodeRef}

theorem readsSlot_iff_reads (order : List NodeRef) (hd : (nodes.map (·.name)).Nodup) {r i q k : Nat}
    {a b : Node α} (ha : nodes[r]? = some a) (hb : nodes[q]? = some b) :
    ReadsSlot ⟨nodes, order⟩ r i q k ↔ Lowering.Reads nodes ⟨a.name, i⟩ ⟨b.name, k⟩ := by
  have hg : (⟨nodes, order⟩ : NodeGraph (Node α)).Distinct := hd
  have hindex : ∀ name id, (⟨nodes, order⟩ : NodeGraph (Node α)).indexOf? name = some id ↔
      ∃ node, nodes[id]? = some node ∧ node.name = name :=
    fun name id => NodeGraph.indexOf?_eq_some_iff hg
  constructor
  · rintro ⟨a', c, ha', hc, hq, rfl⟩
    obtain ⟨b', hb', hbn⟩ := (hindex _ _).mp hq
    rw [ha] at ha'
    rw [hb] at hb'
    cases ha'
    cases hb'
    exact ⟨a, List.mem_of_getElem? ha, rfl, by rw [hc, hbn]⟩
  · rintro ⟨a', ha', han, hc⟩
    obtain rfl := Lowering.node_eq_of_name hd ha' (List.mem_of_getElem? ha) han
    exact ⟨a', _, ha, hc, (hindex _ _).mpr ⟨b, hb, rfl⟩, rfl⟩

/-- The slots of a node are those that are read. -/
theorem Wired.lt_iff_reads {g : NodeGraph (Node α)} (h : Wired g) {a : Node α}
    (ha : a ∈ g.nodes) (k : Nat) :
    k < a.outputs.length ↔ ∃ r, Lowering.Reads g.nodes r ⟨a.name, k⟩ := by
  obtain ⟨q, hq⟩ := List.getElem?_of_mem ha
  rw [h.lt_iff q a k hq]
  constructor
  · rintro ⟨p, i, hslot⟩
    obtain ⟨b, _, hb, -⟩ := id hslot
    exact ⟨_, (readsSlot_iff_reads g.order h.distinct hb hq).mp hslot⟩
  · rintro ⟨⟨_, i⟩, b, hb, rfl, hi⟩
    obtain ⟨p, hp⟩ := List.getElem?_of_mem hb
    exact ⟨p, i, (readsSlot_iff_reads g.order h.distinct hp hq).mpr ⟨b, hb, rfl, hi⟩⟩

/-- Nodes whose readers are separated are wired. -/
theorem wired_of_separated (hd : (nodes.map (·.name)).Nodup) (hr : Lowering.Resolved nodes)
    (hl : ∀ a ∈ nodes, Lowering.Listed nodes a) (hs : ∀ c, Lowering.SingleRead nodes c) :
    Wired (⟨nodes, order⟩ : NodeGraph (Node α)) := by
  have hreads := fun {r i q k a b} (ha : nodes[r]? = some a) (hb : nodes[q]? = some b) =>
    readsSlot_iff_reads order hd (i := i) (k := k) ha hb
  have hreader : ∀ {r i q k}, ReadsSlot (⟨nodes, order⟩ : NodeGraph (Node α)) r i q k →
      ∃ a b, nodes[r]? = some a ∧ nodes[q]? = some b ∧
        Lowering.Reads nodes ⟨a.name, i⟩ ⟨b.name, k⟩ := by
    intro r i q k h
    have hg : (⟨nodes, order⟩ : NodeGraph (Node α)).Distinct := hd
    obtain ⟨b, hb⟩ := h.producer hg
    obtain ⟨a, -, ha, -⟩ := id h
    exact ⟨a, b, ha, hb, (hreads ha hb).mp h⟩
  constructor
  · exact hd
  · intro p a i conn ha hc
    have hread : Lowering.Reads nodes ⟨a.name, i⟩ conn := ⟨a, List.mem_of_getElem? ha, rfl, hc⟩
    obtain ⟨b, hb, hbn⟩ := List.mem_map.mp (hr _ _ hread)
    obtain ⟨q, hq⟩ := List.getElem?_of_mem hb
    refine ⟨q, conn.index, (hreads ha hq).mpr ?_⟩
    rw [hbn]
    exact hread
  · intro r i r' i' q k h h'
    obtain ⟨a, b, ha, hb, hread⟩ := hreader h
    obtain ⟨a', b', ha', hb', hread'⟩ := hreader h'
    rw [hb] at hb'
    cases hb'
    obtain ⟨hname, hi⟩ := Connection.mk.inj (hs _ _ _ hread hread')
    exact ⟨getElem?_inj_of_nodup_map hd ha ha' hname, hi⟩
  · intro q b k hb
    rw [(hl b (List.mem_of_getElem? hb)).lt_iff k]
    constructor
    · rintro ⟨r, hread⟩
      obtain ⟨a, ha, han, -⟩ := id hread
      obtain ⟨p, hp⟩ := List.getElem?_of_mem ha
      refine ⟨p, r.index, (hreads hp hb).mpr ?_⟩
      rw [han]
      exact hread
    · rintro ⟨r, i, h⟩
      obtain ⟨a, b', -, hb', hread⟩ := hreader h
      rw [hb] at hb'
      cases hb'
      exact ⟨_, hread⟩

end OfNodes

/-- What wiring is read off: the names, the inputs and the outputs. -/
def wires (a : Node α) : String × List Connection × List (List Connection) :=
  (a.name, a.inputs, a.outputs)

section SameWires

variable (h : g'.nodes.map wires = g.nodes.map wires)
include h

theorem indexOf?_of_wires (name : String) : g'.indexOf? name = g.indexOf? name := by
  have hnames : g'.nodes.map (·.name) = g.nodes.map (·.name) := by
    simpa [wires, Function.comp_def] using congrArg (List.map (·.1)) h
  have hindex : ∀ g : NodeGraph (Node α),
      g.indexOf? name = (g.nodes.map (·.name)).findIdx? (· == name) := by
    intro g
    rw [List.findIdx?_map]
    rfl
  rw [hindex, hindex, hnames]

theorem ReadsSlot.of_wires {r i q k : Nat} (hr : ReadsSlot g' r i q k) : ReadsSlot g r i q k := by
  obtain ⟨a, c, ha, hc, hq, hk⟩ := hr
  obtain ⟨b, hb, heq⟩ := getElem?_of_map_eq h ha
  simp only [wires, Prod.mk.injEq] at heq
  exact ⟨b, c, hb, by rw [heq.2.1]; exact hc, by rw [← indexOf?_of_wires h]; exact hq, hk⟩

theorem readsSlot_iff_of_wires {r i q k : Nat} : ReadsSlot g' r i q k ↔ ReadsSlot g r i q k :=
  ⟨ReadsSlot.of_wires h, ReadsSlot.of_wires h.symm⟩

theorem Wired.of_wires (hg : Wired g) : Wired g' := by
  have hreads := fun {r i q k} => readsSlot_iff_of_wires h (r := r) (i := i) (q := q) (k := k)
  constructor
  · have hnames : g'.nodes.map (·.name) = g.nodes.map (·.name) := by
      simpa [wires, Function.comp_def] using congrArg (List.map (·.1)) h
    have hd := hg.distinct
    unfold NodeGraph.Distinct at hd ⊢
    exact hnames ▸ hd
  · intro p a i conn ha hc
    obtain ⟨b, hb, heq⟩ := getElem?_of_map_eq h ha
    simp only [wires, Prod.mk.injEq] at heq
    simp only [hreads]
    exact hg.resolved p b i conn hb (by rw [heq.2.1]; exact hc)
  · intro r i r' i' q k h₁ h₂
    exact hg.single r i r' i' q k (hreads.mp h₁) (hreads.mp h₂)
  · intro q b k hb
    obtain ⟨b', hb', heq⟩ := getElem?_of_map_eq h hb
    simp only [wires, Prod.mk.injEq] at heq
    simp only [hreads, ← heq.2.2]
    exact hg.lt_iff q b' k hb'

end SameWires

/-- The producers of a node are those it reads from. -/
theorem mem_producers_iff {p : Nat} {producers : List NodeRef} (h : g.producers p = .ok producers)
    {q : Nat} : q ∈ producers ↔ ∃ i k, ReadsSlot g p i q k := by
  unfold NodeGraph.producers at h
  split at h
  · next a ha =>
    constructor
    · intro hq
      obtain ⟨conn, hc, hf⟩ := except_mapM_mem_result h hq
      obtain ⟨i, hi⟩ := List.getElem?_of_mem hc
      split at hf
      · next id hid =>
        cases hf
        exact ⟨i, conn.index, a, conn, ha, hi, hid, rfl⟩
      · cases hf
    · rintro ⟨i, k, a', conn, ha', hi, hq, -⟩
      rw [ha] at ha'
      cases ha'
      obtain ⟨y, hy, hf⟩ := except_mapM_mem h (List.mem_of_getElem? hi)
      rw [hq] at hf
      cases hf
      exact hy
  · cases h

end LayerGraph
