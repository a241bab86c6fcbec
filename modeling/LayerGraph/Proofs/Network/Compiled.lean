import LayerGraph.Proofs.Network.Schedule

/-!
# Compiled graphs

What compiling establishes: the graph is wired and ordered, every node knows whether it takes part
in the backward pass and when, and a node that overwrites its input stands below producers whose
outputs are not needed once they are read.
-/

namespace LayerGraph

variable {α : Type}

/-- From a node upwards each first producer has one reader that alone needs its output, up to a
producer with a buffer of its own. -/
inductive ReadOnceAbove (g : NodeGraph (Node α)) : NodeRef → Prop where
  | here {p q k : Nat} {b : Node α} (reads : ReadsSlot g p 0 q k) (node : g.nodes[q]? = some b)
      (once : Reuse.isReadOnce b = true) (own : b.bufferUse = .own) : ReadOnceAbove g p
  | next {p q k : Nat} {b : Node α} (reads : ReadsSlot g p 0 q k) (node : g.nodes[q]? = some b)
      (once : Reuse.isReadOnce b = true) (above : ReadOnceAbove g q) : ReadOnceAbove g p

/-- Why a node may share the buffer of its input. -/
structure MayShare (g : NodeGraph (Node α)) (p : NodeRef) (a : Node α) : Prop where
  single : a.bufferUse ≠ .own → a.inputs.length = 1
  view : a.bufferUse = .view → a.layer.reuse = .view
  overwrite : a.bufferUse = .overwrite → a.layer.reuse = .entryWise ∧ ReadOnceAbove g p

/-- A node with a buffer of its own shares none. -/
theorem mayShare_of_own {g : NodeGraph (Node α)} {p : NodeRef} {a : Node α}
    (h : a.bufferUse = .own) : MayShare g p a := by
  refine ⟨fun hu => absurd h hu, fun hu => ?_, fun hu => ?_⟩ <;>
  · rw [h] at hu
    cases hu

/-- The nodes know who they are wired to, when they run and whether they take part. -/
structure Scheduled (g : NodeGraph (Node α)) : Prop where
  wired : Wired g
  ordered : Ordered g
  collects : ∀ (p : Nat) (a : Node α), g.nodes[p]? = some a → a.collectsGradients = a.trains
  passes : ∀ p a, g.nodes[p]? = some a → (a.passesDerivatives = true ↔
    ∃ i q k b, ReadsSlot g p i q k ∧ g.nodes[q]? = some b ∧ b.participates = true)
  schedule : ∀ p a, g.nodes[p]? = some a → a.schedule = Network.scheduleOf g p

/-- A scheduled graph of shipped layers. -/
structure Designed (g : NodeGraph (Node α)) : Prop extends Scheduled g where
  shipped : ∀ (p : Nat) (a : Node α), g.nodes[p]? = some a → a.layer.isShipped = true

structure Compiled (g : NodeGraph (Node α)) : Prop extends Designed g where
  mayShare : ∀ p a, g.nodes[p]? = some a → MayShare g p a

/-- What the design of a graph is read off. -/
def design (a : Node α) :=
  (wires a, a.layer, a.trainable, a.sharedFrom, a.schedule, a.passesDerivatives,
    a.collectsGradients)

theorem getElem?_modifyNode {g : NodeGraph (Node α)} {p q : Nat} {f : Node α → Node α} :
    (g.modifyNode p f).nodes[q]? = (g.nodes[q]?).map fun a => if p = q then f a else a := by
  simp only [NodeGraph.modifyNode, List.getElem?_modify]
  rfl

theorem getElem?_modifyNode_self {g : NodeGraph (Node α)} {p : Nat} {a : Node α}
    (f : Node α → Node α) (ha : g.nodes[p]? = some a) : (g.modifyNode p f).nodes[p]? =
      some (f a) := by
  rw [getElem?_modifyNode, ha, Option.map_some, if_pos rfl]

theorem getElem?_modifyNode_of_ne {g : NodeGraph (Node α)} {p q : Nat} (f : Node α → Node α)
    (h : q ≠ p) : (g.modifyNode p f).nodes[q]? = g.nodes[q]? := by
  rw [getElem?_modifyNode]
  cases g.nodes[q]? with
  | none => rfl
  | some b => rw [Option.map_some, if_neg h.symm]

/-- What comes next in the order is read neither by itself nor by what stands before it. -/
theorem ne_next_of_reads {g : NodeGraph (Node α)} (ho : Ordered g) {done rest : List NodeRef}
    {p q i r k : Nat} (hsplit : g.order = done ++ p :: rest) (hq : q ∈ done ++ [p])
    (hr : ReadsSlot g q i r k) : r ≠ p := by
  rintro rfl
  have hlt := ho.before q i r k hr
  rcases List.mem_append.mp hq with hq | hq
  · have hplaces := hsplit ▸ pairwise_place ho.perm
    have := (List.pairwise_append.mp hplaces).2.2 q hq r (by simp)
    omega
  · obtain rfl := List.mem_singleton.mp hq
    exact Nat.lt_irrefl _ hlt

theorem not_mem_done {g : NodeGraph (Node α)} {done rest : List NodeRef} {p : NodeRef}
    (hn : g.order.Nodup) (hsplit : g.order = done ++ p :: rest) : p ∉ done := by
  rw [hsplit] at hn
  exact fun hmem => (List.nodup_append.mp hn).2.2 p hmem p (by simp) rfl

namespace Network

variable {g : NodeGraph (Node α)}

section Mark

/-- A node without what marking writes. -/
def unmarked (a : Node α) : Node α :=
  { a with collectsGradients := false, passesDerivatives := false }

/-- The nodes in `done` know whether they take part. -/
structure Marked (g : NodeGraph (Node α)) (done : List NodeRef) (m : Marking α) : Prop where
  order : m.graph.order = g.order
  nodes : m.graph.nodes.map unmarked = g.nodes.map unmarked
  collects : ∀ p ∈ done, ∀ a, m.graph.nodes[p]? = some a → a.collectsGradients = a.trains
  passes : ∀ p ∈ done, ∀ a, m.graph.nodes[p]? = some a →
    (a.passesDerivatives = true ↔ ∃ i q k, ReadsSlot g p i q k ∧ q ∈ m.participating)
  participating : ∀ q, q ∈ m.participating ↔
    q ∈ done ∧ ∃ b, m.graph.nodes[q]? = some b ∧ b.participates = true

theorem wires_of_unmarked {nodes nodes' : List (Node α)}
    (h : nodes'.map unmarked = nodes.map unmarked) : nodes'.map wires = nodes.map wires := by
  have hsame : wires ∘ unmarked = (wires : Node α → _) := rfl
  have := congrArg (List.map wires) h
  rwa [List.map_map, List.map_map, hsame] at this

theorem nodes_of_markNode {p : NodeRef} {m m' : Marking α} (h : markNode m p = .ok m') :
    m'.graph.nodes.map unmarked = m.graph.nodes.map unmarked := by
  obtain ⟨producers, -, h⟩ := except_bind_eq_ok_iff.mp h
  cases h
  refine map_modify_eq (f := unmarked) ?_ m.graph.nodes p
  intro b
  rfl

/-- Marking one node turns it into `b` and leaves the other nodes as they are. -/
structure MarksNode (m : Marking α) (p : NodeRef) (b : Node α) (m' : Marking α) : Prop where
  order : m'.graph.order = m.graph.order
  others : ∀ q, q ≠ p → m'.graph.nodes[q]? = m.graph.nodes[q]?
  node : m'.graph.nodes[p]? = some b
  collects : b.collectsGradients = b.trains
  passes : b.passesDerivatives = true ↔
    ∃ i q k, ReadsSlot m.graph p i q k ∧ q ∈ m.participating
  participating : ∀ q, q ∈ m'.participating ↔
    q ∈ m.participating ∨ q = p ∧ b.participates = true

theorem marksNode_of_markNode {p : NodeRef} {m m' : Marking α} (hp : p < m.graph.nodes.length)
    (h : markNode m p = .ok m') : ∃ b, MarksNode m p b m' := by
  obtain ⟨producers, hproducers, h⟩ := except_bind_eq_ok_iff.mp h
  cases h
  obtain ⟨a, ha⟩ : ∃ a, m.graph.nodes[p]? = some a := ⟨_, List.getElem?_eq_getElem hp⟩
  refine ⟨{ a with
    collectsGradients := a.trains
    passesDerivatives := producers.any (· ∈ m.participating) }, rfl, ?others, ?node, rfl, ?passes,
    ?participating⟩
  case others => exact fun q hq => getElem?_modifyNode_of_ne _ hq
  case node =>
    rw [getElem?_modifyNode_self _ ha, ha]
    rfl
  case passes =>
    simp only [List.any_eq_true, decide_eq_true_eq, mem_producers_iff hproducers]
    constructor
    · rintro ⟨q, ⟨i, k, hr⟩, hq⟩
      exact ⟨i, q, k, hr, hq⟩
    · rintro ⟨i, q, k, hr, hq⟩
      exact ⟨q, ⟨i, k, hr⟩, hq⟩
  case participating =>
    intro q
    simp only [ha, Option.map_some, Option.getD_some, Node.participates, Bool.or_comm]
    split <;> simp_all [or_comm]

theorem Marked.step (ho : Ordered g) {done rest : List NodeRef} {p : NodeRef} {m m' : Marking α}
    (hsplit : g.order = done ++ p :: rest) (h : Marked g done m) (hm : markNode m p = .ok m') :
    Marked g (done ++ [p]) m' := by
  have hp := not_mem_done (nodup_order ho.perm) hsplit
  have hlt : p < m.graph.nodes.length := by
    have hlength : m.graph.nodes.length = g.nodes.length := by
      simpa only [List.length_map] using congrArg List.length h.nodes
    rw [hlength]
    exact (mem_order_iff ho.perm).mp (by simp [hsplit])
  obtain ⟨b, hb⟩ := marksNode_of_markNode hlt hm
  -- The new node takes no part in what is read so far.
  have hpasses : ∀ q ∈ done ++ [p],
      (∃ i r k, ReadsSlot g q i r k ∧ r ∈ m'.participating) ↔
        ∃ i r k, ReadsSlot g q i r k ∧ r ∈ m.participating := by
    intro q hq
    refine exists_congr fun i => exists_congr fun r => exists_congr fun k =>
      and_congr_right fun hr => ?_
    rw [hb.participating]
    simp [ne_next_of_reads ho hsplit hq hr]
  refine ⟨hb.order.trans h.order, (nodes_of_markNode hm).trans h.nodes, ?collects, ?passes,
    ?participating⟩
  case collects =>
    intro q hq c hc
    by_cases hqp : q = p
    · subst hqp
      cases hb.node.symm.trans hc
      exact hb.collects
    · rw [hb.others q hqp] at hc
      exact h.collects q (by simpa [hqp] using hq) c hc
  case passes =>
    intro q hq c hc
    rw [hpasses q hq]
    by_cases hqp : q = p
    · subst hqp
      cases hb.node.symm.trans hc
      simp only [hb.passes, readsSlot_iff_of_wires (wires_of_unmarked h.nodes)]
    · rw [hb.others q hqp] at hc
      exact h.passes q (by simpa [hqp] using hq) c hc
  case participating =>
    intro q
    rw [hb.participating]
    by_cases hqp : q = p
    · subst hqp
      have hnot : q ∉ m.participating := fun hmem => hp ((h.participating q).mp hmem).1
      simp [hnot, hb.node]
    · rw [hb.others q hqp, h.participating]
      simp [hqp]

theorem nodes_of_markBackward {g' : NodeGraph (Node α)} (h : markBackward g = .ok g') :
    g'.nodes.map unmarked = g.nodes.map unmarked := by
  obtain ⟨m, hm, h⟩ := except_bind_eq_ok_iff.mp h
  cases h
  refine except_foldlM_upTo (fun _ m => m.graph.nodes.map unmarked = g.nodes.map unmarked) hm rfl ?_
  intro done p rest m m' _ hd hf
  exact (nodes_of_markNode hf).trans hd

theorem marked_markBackward {g' : NodeGraph (Node α)} (ho : Ordered g)
    (h : markBackward g = .ok g') : ∃ m, Marked g g.order m ∧ m.graph = g' := by
  obtain ⟨m, hm, h⟩ := except_bind_eq_ok_iff.mp h
  cases h
  refine ⟨m, except_foldlM_upTo (Marked g) hm ?_ ?_, rfl⟩
  · exact ⟨rfl, rfl, by simp, by simp, by simp⟩
  · intro done p rest m m' hsplit hd hf
    exact hd.step ho hsplit hf

end Mark

theorem backwardIds_congr {g' : NodeGraph (Node α)} (ho : g'.order = g.order)
    (h : g'.nodes.map (·.participates) = g.nodes.map (·.participates)) :
    backwardIds g' = backwardIds g := by
  have hpart : ∀ id : NodeRef, g'.nodes[id]?.map (·.participates) =
      g.nodes[id]?.map (·.participates) := by
    intro id
    rw [← List.getElem?_map, ← List.getElem?_map, h]
  unfold backwardIds
  rw [ho]
  exact List.filter_congr fun id _ => by rw [hpart]

theorem scheduleOf_congr {g' : NodeGraph (Node α)} (ho : g'.order = g.order)
    (h : g'.nodes.map (·.participates) = g.nodes.map (·.participates)) (p : NodeRef) :
    scheduleOf g' p = scheduleOf g p := by
  have hsize : g'.size = g.size := by simpa [NodeGraph.size] using congrArg List.length h
  unfold scheduleOf
  rw [backwardIds_congr ho h, ho, hsize]

theorem getElem?_scheduleAll (g : NodeGraph (Node α)) (p : Nat) :
    (scheduleAll g).nodes[p]? =
      (g.nodes[p]?).map fun a => { a with schedule := scheduleOf g p } := by
  simp only [scheduleAll, List.getElem?_map, List.getElem?_zipIdx, Option.map_map, Nat.zero_add]
  rfl

theorem map_scheduleAll {β : Type} {f : Node α → β}
    (hf : ∀ a s, f { a with schedule := s } = f a) (g : NodeGraph (Node α)) :
    (scheduleAll g).nodes.map f = g.nodes.map f := by
  refine List.ext_getElem? fun p => ?_
  rw [List.getElem?_map, List.getElem?_map, getElem?_scheduleAll]
  cases g.nodes[p]? with
  | none => rfl
  | some a => simp [hf]

/-- Marking and scheduling give a wired and ordered graph its design. -/
theorem scheduled_scheduleAll {g' : NodeGraph (Node α)} (hw : Wired g) (ho : Ordered g)
    (h : markBackward g = .ok g') : Scheduled (scheduleAll g') := by
  obtain ⟨m, hm, rfl⟩ := marked_markBackward ho h
  have hwires : (scheduleAll m.graph).nodes.map wires = g.nodes.map wires :=
    (map_scheduleAll (fun _ _ => rfl) m.graph).trans (wires_of_unmarked hm.nodes)
  have hreads := fun {r i q k} => readsSlot_iff_of_wires hwires (r := r) (i := i) (q := q) (k := k)
  have horder : (scheduleAll m.graph).order = g.order := hm.order
  have hnode : ∀ {p : Nat} {a : Node α}, (scheduleAll m.graph).nodes[p]? = some a →
      ∃ b, m.graph.nodes[p]? = some b ∧ a = { b with schedule := scheduleOf m.graph p } := by
    intro p a ha
    rw [getElem?_scheduleAll] at ha
    obtain ⟨b, hb, rfl⟩ := Option.map_eq_some_iff.mp ha
    exact ⟨b, hb, rfl⟩
  have hmem : ∀ {p : Nat} {b : Node α}, m.graph.nodes[p]? = some b → p ∈ g.order := by
    intro p b hb
    obtain ⟨c, hc, -⟩ := getElem?_of_map_eq hm.nodes hb
    exact mem_order_of_node ho.perm hc
  have hsize : (scheduleAll m.graph).size = g.size := by
    simpa [NodeGraph.size] using congrArg List.length hwires
  constructor
  · exact hw.of_wires hwires
  · refine ⟨by rw [horder, hsize]; exact ho.perm, fun r i q k hr => ?_⟩
    have := ho.before r i q k (hreads.mp hr)
    unfold place at this ⊢
    rwa [horder]
  · intro p a ha
    obtain ⟨b, hb, rfl⟩ := hnode ha
    exact hm.collects p (hmem hb) b hb
  · intro p a ha
    obtain ⟨b, hb, rfl⟩ := hnode ha
    refine (hm.passes p (hmem hb) b hb).trans ?_
    simp only [hreads, hm.participating]
    constructor
    · rintro ⟨i, q, k, hr, -, c, hc, hpart⟩
      exact ⟨i, q, k, { c with schedule := scheduleOf m.graph q }, hr,
        by rw [getElem?_scheduleAll, hc]; rfl, hpart⟩
    · rintro ⟨i, q, k, c, hr, hc, hpart⟩
      obtain ⟨d, hd, rfl⟩ := hnode hc
      exact ⟨i, q, k, hr, hmem hd, d, hd, hpart⟩
  · intro p a ha
    obtain ⟨b, hb, rfl⟩ := hnode ha
    have hsame : (scheduleAll m.graph).nodes.map (·.participates) =
        m.graph.nodes.map (·.participates) := map_scheduleAll (fun _ _ => rfl) m.graph
    have horder' : (scheduleAll m.graph).order = m.graph.order := rfl
    exact (scheduleOf_congr horder' hsame p).symm

/-- Marking and scheduling change no layer. -/
theorem layers_of_markBackward {g' : NodeGraph (Node α)} (h : markBackward g = .ok g') :
    (scheduleAll g').nodes.map (·.layer) = g.nodes.map (·.layer) := by
  refine (map_scheduleAll (fun _ _ => rfl) g').trans ?_
  have := congrArg (List.map Node.layer) (nodes_of_markBackward h)
  rwa [List.map_map, List.map_map] at this

theorem designed_scheduleAll {g' : NodeGraph (Node α)} (hw : Wired g) (ho : Ordered g)
    (hs : ∀ (p : Nat) (a : Node α), g.nodes[p]? = some a → a.layer.isShipped = true)
    (h : markBackward g = .ok g') : Designed (scheduleAll g') := by
  refine ⟨scheduled_scheduleAll hw ho h, fun p a ha => ?_⟩
  obtain ⟨b, hb, heq⟩ := getElem?_of_map_eq (layers_of_markBackward h) ha
  exact heq ▸ hs p b hb

end Network

section SameDesign

variable {g g' : NodeGraph (Node α)} (ho : g'.order = g.order)
  (h : g'.nodes.map design = g.nodes.map design)
include ho h

omit ho in
theorem wires_of_design : g'.nodes.map wires = g.nodes.map wires := by
  have hsame : (·.1) ∘ design = (wires : Node α → _) := rfl
  have := congrArg (List.map (·.1)) h
  rwa [List.map_map, List.map_map, hsame] at this

omit ho in
theorem participates_of_design :
    g'.nodes.map (·.participates) = g.nodes.map (·.participates) := by
  have hsame : (fun d => d.2.2.2.2.2.1 || d.2.2.2.2.2.2) ∘ design =
      (fun a : Node α => a.participates) := rfl
  have := congrArg (List.map fun d => d.2.2.2.2.2.1 || d.2.2.2.2.2.2) h
  rwa [List.map_map, List.map_map, hsame] at this

theorem lastStep_of_design : Network.lastStep g' = Network.lastStep g := by
  have hsize : g'.size = g.size := by simpa [NodeGraph.size] using congrArg List.length h
  unfold Network.lastStep
  rw [Network.backwardIds_congr ho (participates_of_design h), hsize]

theorem Scheduled.of_design (hg : Scheduled g) : Scheduled g' := by
  have hwires := wires_of_design h
  have hpart := participates_of_design h
  have hreads := fun {r i q k} => readsSlot_iff_of_wires hwires (r := r) (i := i) (q := q) (k := k)
  have hsize : g'.size = g.size := by
    simpa [NodeGraph.size] using congrArg List.length h
  constructor
  · exact hg.wired.of_wires hwires
  · refine ⟨by rw [ho, hsize]; exact hg.ordered.perm, fun r i q k hr => ?_⟩
    have := hg.ordered.before r i q k (hreads.mp hr)
    unfold place at this ⊢
    rwa [ho]
  · intro p a ha
    obtain ⟨b, hb, heq⟩ := getElem?_of_map_eq h ha
    simp only [design, Prod.mk.injEq] at heq
    have := hg.collects p b hb
    unfold Node.trains at this ⊢
    rw [← heq.2.1, ← heq.2.2.1, ← heq.2.2.2.2.2.2, this]
  · intro p a ha
    obtain ⟨b, hb, heq⟩ := getElem?_of_map_eq h ha
    simp only [design, Prod.mk.injEq] at heq
    rw [← heq.2.2.2.2.2.1, hg.passes p b hb]
    simp only [hreads]
    constructor
    · rintro ⟨i, q, k, c, hr, hc, hp⟩
      obtain ⟨d, hd, hdp⟩ := getElem?_of_map_eq hpart.symm hc
      exact ⟨i, q, k, d, hr, hd, hdp.trans hp⟩
    · rintro ⟨i, q, k, c, hr, hc, hp⟩
      obtain ⟨d, hd, hdp⟩ := getElem?_of_map_eq hpart hc
      exact ⟨i, q, k, d, hr, hd, hdp.trans hp⟩
  · intro p a ha
    obtain ⟨b, hb, heq⟩ := getElem?_of_map_eq h ha
    simp only [design, Prod.mk.injEq] at heq
    rw [← heq.2.2.2.2.1, hg.schedule p b hb]
    exact (Network.scheduleOf_congr ho hpart p).symm

theorem Designed.of_design (hg : Designed g) : Designed g' := by
  refine ⟨hg.toScheduled.of_design ho h, fun p a ha => ?_⟩
  obtain ⟨b, hb, heq⟩ := getElem?_of_map_eq h ha
  simp only [design, Prod.mk.injEq] at heq
  rw [← heq.2.1]
  exact hg.shipped p b hb

end SameDesign

theorem isReadOnce_of_design {a b : Node α} (h : design a = design b) :
    Reuse.isReadOnce a = Reuse.isReadOnce b := by
  simp only [design, wires, Prod.mk.injEq] at h
  unfold Reuse.isReadOnce Node.participates Node.isSource
  rw [h.1.2.2, h.2.1, h.2.2.2.2.2.1, h.2.2.2.2.2.2]

/-- A change that keeps the design, and takes no buffer of its own away from the nodes before place
`bound`, keeps what is above such a node. -/
theorem ReadOnceAbove.of_design {g g' : NodeGraph (Node α)} (ho : Ordered g)
    (h : g'.nodes.map design = g.nodes.map design) (bound : Nat)
    (hown : ∀ (p : Nat) (a a' : Node α), place g p < bound → g.nodes[p]? = some a →
      g'.nodes[p]? = some a' → a.bufferUse = .own → a'.bufferUse = .own) {p : NodeRef}
    (hp : ReadOnceAbove g p) (hlt : place g p ≤ bound) : ReadOnceAbove g' p := by
  have hwires := wires_of_design h
  have hreads := fun {r i q k} => readsSlot_iff_of_wires hwires (r := r) (i := i) (q := q) (k := k)
  have hnode : ∀ {q : Nat} {b : Node α}, g.nodes[q]? = some b → Reuse.isReadOnce b = true →
      ∃ b', g'.nodes[q]? = some b' ∧ Reuse.isReadOnce b' = true := by
    intro q b hb honce
    obtain ⟨b', hb', heq⟩ := getElem?_of_map_eq h.symm hb
    exact ⟨b', hb', by rw [isReadOnce_of_design heq]; exact honce⟩
  induction hp with
  | here hr hb honce hu =>
    obtain ⟨b', hb', honce'⟩ := hnode hb honce
    have hq := ho.before _ _ _ _ hr
    exact .here (hreads.mpr hr) hb' honce' (hown _ _ _ (by omega) hb hb' hu)
  | next hr hb honce _ ih =>
    obtain ⟨b', hb', honce'⟩ := hnode hb honce
    have hq := ho.before _ _ _ _ hr
    exact .next (hreads.mpr hr) hb' honce' (ih (by omega))

/-- A compiled graph stays compiled as long as its design does and nodes only give up sharing. -/
theorem Compiled.of_design {g g' : NodeGraph (Node α)} (hg : Compiled g) (ho : g'.order = g.order)
    (h : g'.nodes.map design = g.nodes.map design)
    (hown : ∀ (p : Nat) (a a' : Node α), g.nodes[p]? = some a → g'.nodes[p]? = some a' →
      a'.bufferUse = a.bufferUse ∨ a'.bufferUse = .own) : Compiled g' := by
  refine ⟨hg.toDesigned.of_design ho h, fun p a' ha' => ?_⟩
  obtain ⟨a, ha, heq⟩ := getElem?_of_map_eq h ha'
  have hshare := hg.mayShare p a ha
  simp only [design, wires, Prod.mk.injEq] at heq
  rcases hown p a a' ha ha' with huse | huse
  · refine ⟨fun hu => ?_, fun hu => ?_, fun hu => ?_⟩
    · rw [← heq.1.2.1]
      exact hshare.single (huse ▸ hu)
    · rw [← heq.2.1]
      exact hshare.view (huse ▸ hu)
    · obtain ⟨hreuse, habove⟩ := hshare.overwrite (huse ▸ hu)
      refine ⟨heq.2.1 ▸ hreuse, habove.of_design hg.ordered h (place g p) ?_ (Nat.le_refl _)⟩
      intro q b b' _ hb hb' hbu
      rcases hown q b b' hb hb' with hb'' | hb''
      · exact hb''.trans hbu
      · exact hb''
  · exact mayShare_of_own huse

namespace Network

variable {g : NodeGraph (Node α)}

theorem readsSlot_of_producersOf {p : Nat} {a : Node α} {producers : List NodeRef} {q : NodeRef}
    (ha : g.nodes[p]? = some a) (h : g.producersOf a = .ok producers)
    (hq : producers.head? = some q) : ∃ k, ReadsSlot g p 0 q k := by
  rw [List.head?_eq_getElem?] at hq
  obtain ⟨conn, hc, hf⟩ := except_mapM_getElem?_result h hq
  split at hf
  · next id hid =>
    cases hf
    exact ⟨conn.index, a, conn, ha, hc, hid, rfl⟩
  · cases hf

theorem readOnceAbove_of_followBuffer {bound p : Nat} {a : Node α} (ha : g.nodes[p]? = some a)
    (h : Reuse.followBuffer g bound a = .ok .overwrite) : ReadOnceAbove g p := by
  induction bound generalizing p a with
  | zero => cases h
  | succ bound ih =>
    obtain ⟨producers, hps, h⟩ := except_bind_eq_ok_iff.mp h
    split at h
    · cases h
    · next q hq =>
      obtain ⟨k, hr⟩ := readsSlot_of_producersOf ha hps hq
      split at h
      · cases h
      · next b hb =>
        split at h
        · cases h
        · next honce =>
          have honce : Reuse.isReadOnce b = true := by simpa using honce
          split at h
          · next hu => exact .here hr hb honce hu
          · exact .next hr hb honce (ih hb h)

theorem followBuffer_ne_view {bound : Nat} {a : Node α} :
    Reuse.followBuffer g bound a ≠ .ok .view := by
  induction bound generalizing a with
  | zero => exact nofun
  | succ bound ih =>
    intro h
    obtain ⟨producers, hps, h⟩ := except_bind_eq_ok_iff.mp h
    split at h
    · cases h
    · split at h
      · cases h
      · split at h
        · cases h
        · split at h
          · cases h
          · exact ih h

theorem mayShare_of_decide {p : Nat} {a : Node α} {use : BufferUse} (ha : g.nodes[p]? = some a)
    (h : Reuse.decide g a = .ok use) :
    (use ≠ .own → a.inputs.length = 1) ∧ (use = .view → a.layer.reuse = .view) ∧
      (use = .overwrite → a.layer.reuse = .entryWise ∧ ReadOnceAbove g p) := by
  unfold Reuse.decide at h
  split at h
  · cases h
    exact ⟨fun hu => absurd rfl hu, nofun, nofun⟩
  · next hlen =>
    have hlen : a.inputs.length = 1 := by simpa using hlen
    split at h
    · cases h
      exact ⟨fun hu => absurd rfl hu, nofun, nofun⟩
    · next hreuse =>
      cases h
      exact ⟨fun _ => hlen, fun _ => hreuse, nofun⟩
    · next hreuse =>
      split at h
      · cases h
        exact ⟨fun hu => absurd rfl hu, nofun, nofun⟩
      · refine ⟨fun _ => hlen, fun hu => ?_, fun hu => ⟨hreuse, ?_⟩⟩
        · exact absurd (hu ▸ h) followBuffer_ne_view
        · exact readOnceAbove_of_followBuffer ha (hu ▸ h)

/-- Deciding how a node uses its buffer changes nothing else. -/
theorem decideNode_eq_ok {p : Nat} {g' : NodeGraph (Node α)} (h : decideNode g p = .ok g') :
    ∃ a use, g.nodes[p]? = some a ∧ Reuse.decide g a = .ok use ∧
      g' = g.modifyNode p fun node => { node with bufferUse := use } := by
  unfold decideNode at h
  split at h
  · cases h
  next a ha =>
  obtain ⟨use, huse, h⟩ := except_bind_eq_ok_iff.mp h
  cases h
  exact ⟨a, use, ha, huse, rfl⟩

theorem map_decideAll {β : Type} {f : Node α → β}
    (hf : ∀ a use, f { a with bufferUse := use } = f a) {g' : NodeGraph (Node α)}
    (h : decideAll g = .ok g') : g'.nodes.map f = g.nodes.map f := by
  refine except_foldlM_upTo (fun _ g' => g'.nodes.map f = g.nodes.map f) h rfl ?_
  intro done p rest g₁ g₂ _ hg₁ hd
  obtain ⟨a, use, -, -, rfl⟩ := decideNode_eq_ok hd
  exact (map_modify_eq (f := f) (fun b => hf b use) g₁.nodes p).trans hg₁

theorem order_decideAll {g' : NodeGraph (Node α)} (h : decideAll g = .ok g') :
    g'.order = g.order := by
  refine except_foldlM_upTo (fun _ g' => g'.order = g.order) h rfl ?_
  intro done p rest g₁ g₂ _ hg₁ hd
  obtain ⟨a, use, -, -, rfl⟩ := decideNode_eq_ok hd
  exact hg₁

/-- The nodes in `done` know how they use their buffers; the others have their own. -/
structure Decided (g : NodeGraph (Node α)) (done : List NodeRef) (g' : NodeGraph (Node α)) :
    Prop where
  order : g'.order = g.order
  nodes : g'.nodes.map design = g.nodes.map design
  mayShare : ∀ p ∈ done, ∀ a, g'.nodes[p]? = some a → MayShare g' p a
  own : ∀ p, p ∉ done → ∀ a, g'.nodes[p]? = some a → a.bufferUse = .own

theorem Decided.step (hg : Designed g) {done rest : List NodeRef} {p : NodeRef}
    {g₁ g₂ : NodeGraph (Node α)} (hsplit : g.order = done ++ p :: rest) (h : Decided g done g₁)
    (hd : decideNode g₁ p = .ok g₂) : Decided g (done ++ [p]) g₂ := by
  obtain ⟨a, use, ha, huse, rfl⟩ := decideNode_eq_ok hd
  have hg₁ : Designed g₁ := hg.of_design h.order h.nodes
  have hsplit' : g₁.order = done ++ p :: rest := h.order.trans hsplit
  have hdesign : (g₁.modifyNode p fun node => { node with bufferUse := use }).nodes.map design =
      g₁.nodes.map design := by
    refine map_modify_eq (f := design) ?_ g₁.nodes p
    intro b
    rfl
  have hat : ∀ q b, (g₁.modifyNode p fun node => { node with bufferUse := use }).nodes[q]? =
      some b → q ≠ p → g₁.nodes[q]? = some b := by
    intro q b hb hq
    rw [getElem?_modifyNode] at hb
    obtain ⟨c, hc, rfl⟩ := Option.map_eq_some_iff.mp hb
    rw [if_neg (Ne.symm hq)]
    exact hc
  -- Nothing before the node's own place has changed.
  have hkeep : ∀ q, ReadOnceAbove g₁ q → place g₁ q ≤ place g₁ p →
      ReadOnceAbove (g₁.modifyNode p fun node => { node with bufferUse := use }) q := by
    intro q hq hle
    refine hq.of_design hg₁.ordered hdesign (place g₁ p) ?_ hle
    intro r b b' hlt hb hb' hbu
    have hne : r ≠ p := fun heq => Nat.lt_irrefl _ (heq ▸ hlt)
    rw [hat r b' hb' hne] at hb
    cases hb
    exact hbu
  have hbefore : ∀ q ∈ done, place g₁ q < place g₁ p := by
    intro q hq
    have hpw := pairwise_place hg₁.ordered.perm
    rw [hsplit'] at hpw
    exact (List.pairwise_append.mp hpw).2.2 q hq p (by simp)
  refine ⟨h.order, hdesign.trans h.nodes, fun q hq b hb => ?_, fun q hq b hb => ?_⟩
  · by_cases hqp : q = p
    · subst hqp
      rw [getElem?_modifyNode, ha] at hb
      simp only [Option.map_some, if_true, Option.some.injEq] at hb
      subst hb
      obtain ⟨hs, hv, ho⟩ := mayShare_of_decide ha huse
      exact ⟨hs, hv, fun hu => ⟨(ho hu).1, hkeep q (ho hu).2 (Nat.le_refl _)⟩⟩
    · have hq' : q ∈ done := by simpa [hqp] using hq
      have hshare := h.mayShare q hq' b (hat q b hb hqp)
      exact ⟨hshare.single, hshare.view, fun hu => ⟨(hshare.overwrite hu).1,
        hkeep q (hshare.overwrite hu).2 (Nat.le_of_lt (hbefore q hq'))⟩⟩
  · simp only [List.mem_append, List.mem_singleton, not_or] at hq
    exact h.own q hq.1 b (hat q b hb hq.2)

theorem compiled_of_decideAll {g' : NodeGraph (Node α)} (hg : Designed g)
    (hown : ∀ (p : Nat) (a : Node α), g.nodes[p]? = some a → a.bufferUse = .own)
    (h : decideAll g = .ok g') :
    Compiled g' ∧ g'.nodes.map design = g.nodes.map design ∧ g'.order = g.order := by
  have hdone := except_foldlM_upTo (Decided g) h
    ⟨rfl, rfl, by simp, fun p _ a ha => hown p a ha⟩
    fun done p rest g₁ g₂ hsplit hd hf => hd.step hg hsplit hf
  have hg' := hg.of_design hdone.order hdone.nodes
  refine ⟨⟨hg', fun p a ha => hdone.mayShare p ?_ a ha⟩, hdone.nodes, hdone.order⟩
  have := mem_order_of_node hg'.ordered.perm ha
  rwa [hdone.order] at this

theorem compiled_of_own (hg : Designed g)
    (hown : ∀ (p : Nat) (a : Node α), g.nodes[p]? = some a → a.bufferUse = .own) : Compiled g :=
  ⟨hg, fun p a ha => mayShare_of_own (hown p a ha)⟩

end Network

end LayerGraph
