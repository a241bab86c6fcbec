import LayerGraph.Proofs.NodeGraph.Sorted

/-!
# What a sort reports

A sort that fails names the first thing that is wrong: a connection that names no node before a
cycle, and a cycle before a node that no graph input reaches. Of several such connections or nodes
it is the first in the order in which the nodes were added.
-/

namespace LayerGraph.NodeGraph

open Relation

variable {ν : Type} [Vertex ν] {g : NodeGraph ν}

/-- All connections, each with the node that lists it. -/
def connections (g : NodeGraph ν) : List (ν × Connection) :=
  g.nodes.flatMap fun node => (Vertex.inputs node).map (node, ·)

/-- The first connection that names no node. -/
def firstUnknown? (g : NodeGraph ν) : Option (ν × Connection) :=
  g.connections.find? fun c => !g.contains c.2.name

theorem firstUnknown?_eq_none_iff : g.firstUnknown? = none ↔ g.Resolved := by
  simp [firstUnknown?, connections, Resolved]

/-- The node that lists the first unknown name, with what it lists before, and the nodes before
it. -/
theorem firstUnknown?_eq_some_iff {node : ν} {conn : Connection} :
    g.firstUnknown? = some (node, conn) ↔ ∃ before behind known unread,
      g.nodes = before ++ node :: behind ∧ Vertex.inputs node = known ++ conn :: unread ∧
      g.contains conn.name = false ∧ (∀ c ∈ known, g.contains c.name = true) ∧
      ∀ other ∈ before, ∀ c ∈ Vertex.inputs other, g.contains c.name = true := by
  unfold firstUnknown? connections
  rw [List.find?_flatMap, List.findSome?_eq_some_iff]
  simp only [List.find?_map, Option.map_eq_some_iff, Option.map_eq_none_iff, Prod.mk.injEq]
  constructor
  · rintro ⟨before, a, behind, hsplit, ⟨c, hc, rfl, rfl⟩, hbefore⟩
    obtain ⟨hp, known, unread, hl, hknown⟩ := List.find?_eq_some_iff_append.mp hc
    exact ⟨before, behind, known, unread, hsplit, hl, by simpa using hp, by simpa using hknown,
      by simpa using hbefore⟩
  · rintro ⟨before, behind, known, unread, hsplit, hl, hp, hknown, hbefore⟩
    refine ⟨before, node, behind, hsplit, ⟨conn, ?_, rfl, rfl⟩, by simpa using hbefore⟩
    exact List.find?_eq_some_iff_append.mpr ⟨by simpa using hp, known, unread,
      hl, by simpa using hknown⟩

/-- A traversal reports the first of its failures. -/
theorem mapM_append_cons_of_error {ε β γ : Type} {f : β → Except ε γ} {before : List β}
    {x : β} {e : ε} (hbefore : ∀ y ∈ before, ∃ z, f y = .ok z) (hx : f x = .error e)
    (behind : List β) : (before ++ x :: behind).mapM f = .error e := by
  obtain ⟨zs, hzs⟩ := except_mapM_exists hbefore
  rw [List.mapM_append, hzs, except_ok_bind, List.mapM_cons, hx]
  rfl

/-- The first unknown name is reported before anything else. -/
theorem sortedOrder_of_unknown {node : ν} {conn : Connection}
    (h : g.firstUnknown? = some (node, conn)) :
    g.sortedOrder = .error (.unknownInput (Vertex.name node) conn.name) := by
  obtain ⟨before, behind, known, unread, hsplit, hl, hp, hknown, hbefore⟩ :=
    firstUnknown?_eq_some_iff.mp h
  have hnode : g.producersOf node = .error (.unknownInput (Vertex.name node) conn.name) := by
    have hnone : g.indexOf? conn.name = none := by
      simpa [indexOf?, contains] using hp
    unfold producersOf
    rw [hl]
    refine mapM_append_cons_of_error (fun c hc => ?_) (by rw [hnone]) unread
    obtain ⟨id, hid, -⟩ := exists_indexOf? (hknown c hc)
    exact ⟨id, by simp [hid]⟩
  have htable : g.nodes.mapM g.producersOf =
      .error (.unknownInput (Vertex.name node) conn.name) := by
    rw [hsplit]
    exact mapM_append_cons_of_error (fun other ho => exists_producersOf (hbefore other ho))
      hnode behind
  unfold sortedOrder readers
  rw [htable]
  rfl

/-- Where there is no cycle, the first node that no graph input reaches is reported. -/
theorem sortedOrder_of_unreached (hr : g.Resolved) (hacyclic : ∀ p, ¬ TransGen g.Feeds p p)
    {p : NodeRef} (hp : p < g.size) (hnot : ¬ g.FromInput p) (hfirst : ∀ q < p, g.FromInput q) :
    g.sortedOrder = .error (.disconnected (g.nameOf p)) := by
  obtain ⟨readers, hreaders⟩ := exists_readers hr
  obtain ⟨order, horder⟩ := exists_order_of_acyclic hreaders hacyclic
  have hmem := fun q => mem_unreached_readers_iff hreaders (p := q)
  have hsorted : (Traversal.unreached (fun p => readers.getD p []) (List.range g.size)
      g.inputIds).Pairwise (· < ·) :=
    List.pairwise_lt_range.sublist (Traversal.unreached_sublist _ _ _)
  unfold sortedOrder
  rw [hreaders, except_ok_bind]
  dsimp only
  rw [horder]
  cases hleft : Traversal.unreached (fun p => readers.getD p []) (List.range g.size) g.inputIds with
  | nil =>
    have hmemp := (hmem p).mpr ⟨hp, hnot⟩
    rw [hleft] at hmemp
    cases hmemp
  | cons q rest =>
    rw [hleft] at hmem hsorted
    have hq : ¬ g.FromInput q := ((hmem q).mp (List.mem_cons_self ..)).2
    obtain rfl : q = p := by
      rcases List.mem_cons.mp ((hmem p).mpr ⟨hp, hnot⟩) with heq | hrest
      · exact heq.symm
      · exact absurd (hfirst q ((List.pairwise_cons.mp hsorted).1 p hrest)) hq
    rfl

theorem sort_of_error {e : Error} (h : g.sortedOrder = .error e) :
    NodeGraph.sort g = .error e g := by
  refine Action.update_of_error ?_
  rw [h]
  rfl

/-- What a sort answers. It reports the first connection that names no node; if there is none, a
node that lies on a cycle; if there is none, the first node that no graph input reaches, and these
leave the graph as it was. If there is none, the nodes are put in an order in which every producer
of a node stands before it. -/
theorem sort_answers (g : NodeGraph ν) :
    (∀ node conn, g.firstUnknown? = some (node, conn) →
      NodeGraph.sort g = .error (.unknownInput (Vertex.name node) conn.name) g) ∧
    (g.firstUnknown? = none →
      ((∃ p, TransGen g.Feeds p p) →
        ∃ p, TransGen g.Feeds p p ∧ NodeGraph.sort g = .error (.cycle (g.nameOf p)) g) ∧
      ((∀ p, ¬ TransGen g.Feeds p p) →
        (∀ p < g.size, ¬ g.FromInput p → (∀ q < p, g.FromInput q) →
          NodeGraph.sort g = .error (.disconnected (g.nameOf p)) g) ∧
        ((∀ p < g.size, g.FromInput p) →
          ∃ order, NodeGraph.sort g = .ok () { g with order := order } ∧
            order.Perm (List.range g.size) ∧
            ∀ p q, g.Feeds p q → order.idxOf p < order.idxOf q))) := by
  refine ⟨fun node conn h => sort_of_error (sortedOrder_of_unknown h), fun hknown => ?_⟩
  have hr : g.Resolved := firstUnknown?_eq_none_iff.mp hknown
  refine ⟨?_, fun hacyclic => ⟨fun p hp hnot hfirst => ?_, fun hfrom => ?_⟩⟩
  · rintro ⟨p, hp⟩
    obtain ⟨q, hq, herror⟩ := sortedOrder_of_cycle hr hp
    exact ⟨q, hq, sort_of_error herror⟩
  · exact sort_of_error (sortedOrder_of_unreached hr hacyclic hp hnot hfirst)
  · obtain ⟨order, horder⟩ := (sortedOrder_eq_ok_iff hr).mpr ⟨hacyclic, hfrom⟩
    refine ⟨order, Action.update_of_ok ?_, sortedOrder_perm horder,
      fun p q => idxOf_lt_of_sortedOrder horder⟩
    rw [horder]
    rfl

end LayerGraph.NodeGraph
