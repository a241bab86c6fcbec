import LayerGraph.Proofs.Lowering.Subdivision
import LayerGraph.Proofs.Network.Schedule
import LayerGraph.Proofs.NodeGraph.Sorted

/-!
# What follows from an order

Edges between positions are edges between names, so whether a graph can be sorted is a matter of
names. Once it is sorted, the checks and decisions that follow find what they look for.
-/

namespace LayerGraph

open Relation

variable {α : Type} {g g' : NodeGraph (Node α)}

section Names

theorem nameOf_of_node {p : NodeRef} {a : Node α} (ha : g.nodes[p]? = some a) :
    g.nameOf p = a.name := by
  rw [NodeGraph.nameOf, ha]
  rfl

theorem exists_indexOf?_of_mem (hd : g.Distinct) {name : String} (h : name ∈ g.nodes.map (·.name)) :
    ∃ p a, g.nodes[p]? = some a ∧ a.name = name ∧ g.indexOf? name = some p := by
  obtain ⟨a, ha, hname⟩ := List.mem_map.mp h
  obtain ⟨p, hp⟩ := List.getElem?_of_mem ha
  exact ⟨p, a, hp, hname, (NodeGraph.indexOf?_eq_some_iff hd).mpr ⟨a, hp, hname⟩⟩

theorem resolved_of_names (hr : Lowering.Resolved g.nodes) : g.Resolved := by
  intro a ha conn hconn
  obtain ⟨i, hi⟩ := List.getElem?_of_mem hconn
  obtain ⟨b, hb, hname⟩ := List.mem_map.mp (hr ⟨a.name, i⟩ conn ⟨a, ha, rfl, hi⟩)
  exact NodeGraph.contains_eq_true_iff.mpr ⟨b, hb, hname⟩

theorem feeds_iff (hd : g.Distinct) {p q : NodeRef} {a b : Node α} (ha : g.nodes[p]? = some a)
    (hb : g.nodes[q]? = some b) : g.Feeds p q ↔ Lowering.Feeds g.nodes a.name b.name := by
  have hindex : ∀ name, g.indexOf? name = some p ↔ a.name = name := by
    intro name
    rw [NodeGraph.indexOf?_eq_some_iff hd]
    exact ⟨fun ⟨c, hc, hn⟩ => by rw [ha] at hc; cases hc; exact hn, fun hn => ⟨a, ha, hn⟩⟩
  constructor
  · rintro ⟨c, conn, hc, hconn, hp⟩
    rw [hb] at hc
    cases hc
    obtain ⟨i, hi⟩ := List.getElem?_of_mem hconn
    rw [(hindex _).mp hp]
    exact ⟨i, conn.index, b, List.mem_of_getElem? hb, rfl, hi⟩
  · rintro ⟨i, k, c, hc, hname, hi⟩
    obtain rfl := Lowering.node_eq_of_name hd hc (List.mem_of_getElem? hb) hname
    exact ⟨c, _, hb, List.mem_of_getElem? hi, (hindex _).mpr rfl⟩

theorem feeds_nameOf (hd : g.Distinct) {p q : NodeRef} (h : g.Feeds p q) :
    Lowering.Feeds g.nodes (g.nameOf p) (g.nameOf q) := by
  obtain ⟨b, conn, hb, -, hp⟩ := id h
  obtain ⟨a, ha, -⟩ := (NodeGraph.indexOf?_eq_some_iff hd).mp hp
  rw [nameOf_of_node ha, nameOf_of_node hb]
  exact (feeds_iff hd ha hb).mp h

theorem feeds_indexOf? (hd : g.Distinct) (hr : Lowering.Resolved g.nodes) {x y : String}
    (h : Lowering.Feeds g.nodes x y) : g.Feeds ((g.indexOf? x).getD 0) ((g.indexOf? y).getD 0) := by
  obtain ⟨i, k, hread⟩ := id h
  obtain ⟨p, a, ha, rfl, hp⟩ := exists_indexOf?_of_mem hd (hr _ _ hread)
  obtain ⟨q, b, hb, rfl, hq⟩ := exists_indexOf?_of_mem hd hread.reader
  rw [hp, hq]
  exact (feeds_iff hd ha hb).mpr h

theorem acyclic_iff_feeds (hd : g.Distinct) (hr : Lowering.Resolved g.nodes) :
    (∀ p, ¬ TransGen g.Feeds p p) ↔ Lowering.Acyclic g.nodes := by
  constructor
  · intro hno x hx
    exact hno _ (TransGen.lift (fun x => (g.indexOf? x).getD 0)
      (fun _ _ => feeds_indexOf? hd hr) _ _ hx)
  · intro hno p hp
    exact hno _ (TransGen.lift g.nameOf (fun _ _ => feeds_nameOf hd) _ _ hp)

theorem reachable_iff_fromInput (hd : g.Distinct) (hr : Lowering.Resolved g.nodes) :
    (∀ p < g.size, g.FromInput p) ↔ Lowering.Reachable g.nodes := by
  constructor
  · intro h name hname
    obtain ⟨p, a, ha, rfl, -⟩ := exists_indexOf?_of_mem hd hname
    obtain ⟨s, b, hb, hsource, hpath⟩ := h p (List.getElem?_eq_some_iff.mp ha).1
    refine ⟨b.name, ⟨b, List.mem_of_getElem? hb, hsource, rfl⟩, ?_⟩
    have hlift : ReflTransGen (Lowering.Feeds g.nodes) (g.nameOf s) (g.nameOf p) :=
      ReflTransGen.lift g.nameOf (fun _ _ => feeds_nameOf hd) _ _ hpath
    rwa [nameOf_of_node ha, nameOf_of_node hb] at hlift
  · intro h p hp
    have ha : g.nodes[p]? = some g.nodes[p] := List.getElem?_eq_getElem hp
    obtain ⟨_, ⟨b, hb, hsource, rfl⟩, hpath⟩ :=
      h g.nodes[p].name (List.mem_map_of_mem (List.getElem_mem hp))
    obtain ⟨s, hs⟩ := List.getElem?_of_mem hb
    refine ⟨s, b, hs, hsource, ?_⟩
    have hlift : ReflTransGen g.Feeds ((g.indexOf? b.name).getD 0)
        ((g.indexOf? g.nodes[p].name).getD 0) :=
      ReflTransGen.lift (fun x => (g.indexOf? x).getD 0) (fun _ _ => feeds_indexOf? hd hr) _ _ hpath
    have hindex : ∀ {p : NodeRef} {a : Node α}, g.nodes[p]? = some a → g.indexOf? a.name = some p :=
      fun ha => (NodeGraph.indexOf?_eq_some_iff hd).mpr ⟨_, ha, rfl⟩
    rwa [hindex hs, hindex ha] at hlift

/-- A graph can be sorted exactly if its nodes feed each other without cycles, from its inputs
on. -/
theorem exists_sortedOrder_iff (hd : g.Distinct) (hr : Lowering.Resolved g.nodes) :
    (∃ order, g.sortedOrder = .ok order) ↔
      Lowering.Acyclic g.nodes ∧ Lowering.Reachable g.nodes := by
  rw [NodeGraph.sortedOrder_eq_ok_iff (resolved_of_names hr), acyclic_iff_feeds hd hr,
    reachable_iff_fromInput hd hr]

end Names

namespace Network

theorem exists_producers (hr : g.Resolved) {p : NodeRef} (hp : p < g.size) :
    ∃ producers, g.producers p = .ok producers := by
  rw [NodeGraph.producers, List.getElem?_eq_getElem hp]
  exact NodeGraph.exists_producersOf (hr _ (List.getElem_mem hp))

theorem feeds_of_mem_producers {p q : NodeRef} {producers : List NodeRef}
    (h : g.producers q = .ok producers) (hp : p ∈ producers) : g.Feeds p q := by
  unfold NodeGraph.producers at h
  split at h
  · next a ha =>
    obtain ⟨conn, hconn, hindex⟩ := (NodeGraph.mem_producersOf_iff h).mp hp
    exact ⟨a, conn, ha, hconn, hindex⟩
  · cases h

section Sorted

variable (hs : g.sortedOrder = .ok g.order)
include hs

/-- Nobody reads the last node. -/
theorem exists_last (hd : g.Distinct) (hne : g.nodes ≠ []) :
    ∃ a ∈ g.nodes, ∀ r k, ¬ Lowering.Reads g.nodes r ⟨a.name, k⟩ := by
  have hperm := NodeGraph.sortedOrder_perm hs
  have hlen : 0 < g.order.length := by
    rw [length_order hperm]
    exact List.length_pos_iff.mpr hne
  have hlast : g.order[g.order.length - 1] < g.size := (mem_order_iff hperm).mp (List.getElem_mem _)
  refine ⟨g.nodes[g.order[g.order.length - 1]], List.getElem_mem hlast, fun r k hread => ?_⟩
  obtain ⟨q, b, hb, hname, -⟩ := exists_indexOf?_of_mem hd hread.reader
  have hfeeds : g.Feeds g.order[g.order.length - 1] q :=
    (feeds_iff hd (List.getElem?_eq_getElem hlast) hb).mpr ⟨r.index, k, by rw [hname]; exact hread⟩
  have hlt := NodeGraph.idxOf_lt_of_sortedOrder hs hfeeds
  rw [(nodup_order hperm).idxOf_getElem _ (by omega)] at hlt
  have := List.idxOf_lt_length_of_mem (mem_order_of_node hperm hb)
  omega

/-- The first node is a graph input. -/
theorem exists_first (hr : g.Resolved) (hne : g.nodes ≠ []) :
    ∃ a, g.sortedNode? 0 = some a ∧ a.isSource = true := by
  have hperm := NodeGraph.sortedOrder_perm hs
  have hlen : 0 < g.order.length := by
    rw [length_order hperm]
    exact List.length_pos_iff.mpr hne
  have hfirst : g.order[0] < g.size := (mem_order_iff hperm).mp (List.getElem_mem _)
  have hnode : g.sortedNode? 0 = g.nodes[g.order[0]]? := by
    rw [NodeGraph.sortedNode?, List.getElem?_eq_getElem hlen]
    rfl
  obtain ⟨s, a, ha, hsource, hpath⟩ := ((NodeGraph.sortedOrder_eq_ok_iff hr).mp ⟨_, hs⟩).2 _ hfirst
  refine ⟨a, ?_, hsource⟩
  rcases ReflTransGen.cases_tail hpath with heq | ⟨q, -, hq⟩
  · rw [hnode, heq, ha]
  · -- Nothing stands before the first node.
    have hlt := NodeGraph.idxOf_lt_of_sortedOrder hs hq
    rw [(nodup_order hperm).idxOf_getElem _ hlen] at hlt
    exact absurd hlt (Nat.not_lt_zero _)

/-- The check of the order finds nothing. -/
theorem checkOrder_of_sorted {n : Network α} (hn : n.graph = g) (hr : g.Resolved)
    (hne : g.nodes ≠ []) : checkOrder n = .ok () := by
  have hperm := NodeGraph.sortedOrder_perm hs
  have hplaces : (g.order.zipIdx.forM fun x => checkPlace g x.2 x.1) = .ok () := by
    refine except_forM_exists fun x hx => ?_
    have hid : g.order[x.2]? = some x.1 := List.mem_zipIdx_iff_getElem?.mp hx
    obtain ⟨hlt, hget⟩ := List.getElem?_eq_some_iff.mp hid
    obtain ⟨producers, hproducers⟩ :=
      exists_producers hr ((mem_order_iff hperm).mp (List.mem_of_getElem? hid))
    have hbefore : ∀ q ∈ producers, g.order.idxOf q < x.2 := by
      intro q hq
      have := NodeGraph.idxOf_lt_of_sortedOrder hs (feeds_of_mem_producers hproducers hq)
      rwa [← hget, (nodup_order hperm).idxOf_getElem _ hlt] at this
    rw [checkPlace, hproducers, except_ok_bind]
    exact except_forM_exists fun q hq => by rw [if_pos (hbefore q hq), except_pure]
  obtain ⟨first, hfirst, hsource⟩ := exists_first hs hr hne
  unfold checkOrder
  rw [hn]
  dsimp only
  rw [if_neg (not_not.mpr (length_order hperm)), hplaces, except_ok_bind, hfirst]
  dsimp only
  rw [if_pos hsource, except_pure]

end Sorted

section Decisions

theorem resolved_of_wires (h : g'.nodes.map wires = g.nodes.map wires) (hr : g.Resolved) :
    g'.Resolved := by
  intro a ha conn hconn
  obtain ⟨p, hp⟩ := List.getElem?_of_mem ha
  obtain ⟨b, hb, heq⟩ := getElem?_of_map_eq h hp
  simp only [wires, Prod.mk.injEq] at heq
  have hinputs : conn ∈ b.inputs := by rw [heq.2.1]; exact hconn
  obtain ⟨c, hc, hname⟩ :=
    NodeGraph.contains_eq_true_iff.mp (hr b (List.mem_of_getElem? hb) conn hinputs)
  obtain ⟨q, hq⟩ := List.getElem?_of_mem hc
  obtain ⟨d, hd, heq'⟩ := getElem?_of_map_eq h.symm hq
  simp only [wires, Prod.mk.injEq] at heq'
  exact NodeGraph.contains_eq_true_iff.mpr ⟨d, List.mem_of_getElem? hd, heq'.1.trans hname⟩

theorem size_of_wires (h : g'.nodes.map wires = g.nodes.map wires) : g'.size = g.size := by
  simpa [NodeGraph.size] using congrArg List.length h

theorem wires_modifyNode {f : Node α → Node α} (hf : ∀ a, wires (f a) = wires a) (p : NodeRef) :
    (g.modifyNode p f).nodes.map wires = g.nodes.map wires := map_modify_eq hf g.nodes p

variable (hr : g.Resolved) (ho : ∀ p ∈ g.order, p < g.size)
include hr ho

/-- Every node finds its producers. -/
theorem exists_markBackward : ∃ g', markBackward g = .ok g' ∧
    g'.nodes.map wires = g.nodes.map wires ∧ g'.order = g.order := by
  obtain ⟨m, hm, hwires, horder⟩ : ∃ m, g.order.foldlM markNode ⟨g, []⟩ = .ok m ∧
      m.graph.nodes.map wires = g.nodes.map wires ∧ m.graph.order = g.order :=
    except_foldlM_exists _ ⟨rfl, rfl⟩ <| by
      rintro p hp m ⟨hm, horder⟩
      obtain ⟨producers, hproducers⟩ :=
        exists_producers (resolved_of_wires hm hr) (size_of_wires hm ▸ ho p hp)
      refine ⟨_, by rw [markNode, hproducers]; rfl, ?_, ?_⟩
      · refine Eq.trans (wires_modifyNode ?_ p) hm
        exact fun _ => rfl
      · exact horder
  exact ⟨m.graph, by rw [markBackward, hm]; rfl, hwires, horder⟩

omit ho in
theorem exists_followBuffer {a : Node α} (ha : a ∈ g.nodes) (bound : Nat) :
    ∃ use, Reuse.followBuffer g bound a = .ok use := by
  induction bound generalizing a with
  | zero => exact ⟨_, rfl⟩
  | succ bound ih =>
    obtain ⟨producers, hproducers⟩ := NodeGraph.exists_producersOf (hr _ ha)
    rw [Reuse.followBuffer, hproducers, except_ok_bind]
    cases hhead : producers.head? with
    | none => exact ⟨_, rfl⟩
    | some q =>
      obtain ⟨conn, -, hq⟩ :=
        (NodeGraph.mem_producersOf_iff hproducers).mp (List.mem_of_head? hhead)
      have hlt : q < g.nodes.length := (List.findIdx?_eq_some_iff_getElem.mp hq).1
      simp only [List.getElem?_eq_getElem hlt]
      split
      · exact ⟨_, rfl⟩
      · split
        · exact ⟨_, rfl⟩
        · exact ih (List.getElem_mem hlt)

omit ho in
theorem exists_decide {a : Node α} (ha : a ∈ g.nodes) : ∃ use, Reuse.decide g a = .ok use := by
  unfold Reuse.decide
  split
  · exact ⟨_, rfl⟩
  · split
    · exact ⟨_, rfl⟩
    · exact ⟨_, rfl⟩
    · split
      · exact ⟨_, rfl⟩
      · exact exists_followBuffer hr ha g.size

/-- Every node can decide how it uses the buffer of its input. -/
theorem exists_decideAll : ∃ g', decideAll g = .ok g' := by
  obtain ⟨g', hg', -⟩ : ∃ g', g.order.foldlM decideNode g = .ok g' ∧
      g'.nodes.map wires = g.nodes.map wires :=
    except_foldlM_exists _ rfl fun p hp g' hg' => by
      have hlt : p < g'.size := size_of_wires hg' ▸ ho p hp
      obtain ⟨use, huse⟩ := exists_decide (resolved_of_wires hg' hr) (List.getElem_mem hlt)
      refine ⟨_, by rw [decideNode, List.getElem?_eq_getElem hlt]; dsimp only; rw [huse]; rfl, ?_⟩
      refine Eq.trans (wires_modifyNode ?_ p) hg'
      exact fun _ => rfl
  exact ⟨g', hg'⟩

end Decisions

end Network

end LayerGraph
