import LayerGraph.Proofs.NodeGraph.Indexed
import LayerGraph.Proofs.NodeGraph.Sorting

/-!
# Sorting keeps an order that is one

Nodes that each stand behind what they read from are sorted into the order in which they stand: when
the search comes to a node as a start, it has finished all nodes behind it and nothing else. So
nodes that are taken in their sorted order are sorted into the same order again.
-/

namespace LayerGraph

open Relation

namespace Traversal

variable {next : Nat → List Nat}

/-- A node whose children are finished is finished next. -/
theorem explore_of_finished {node : Nat} {fresh finished rest : List Nat}
    (h : ∀ c ∈ rest, c ∉ fresh ∧ c ∈ finished) :
    explore next fresh finished [(node, rest)] = .ok ⟨fresh, node :: finished⟩ := by
  induction rest with
  | nil => rw [explore, explore]
  | cons c rest ih =>
    obtain ⟨hfresh, hfinished⟩ := h c List.mem_cons_self
    rw [explore, if_neg hfresh, if_pos hfinished]
    exact ih fun d hd => h d (List.mem_cons_of_mem c hd)

theorem exploreFrom_last {n k : Nat} (hk : k < n) (hup : ∀ c ∈ next k, k < c ∧ c < n) :
    exploreFrom next ⟨List.range (k + 1), List.range' (k + 1) (n - (k + 1))⟩ k =
      .ok ⟨List.range k, List.range' k (n - k)⟩ := by
  have herase : (List.range (k + 1)).erase k = List.range k := by
    rw [List.range_succ, List.erase_append_right _ (by simp), List.erase_cons_head, List.append_nil]
  have hfinished : ∀ c ∈ (next k).reverse, c ∉ List.range k ∧
      c ∈ List.range' (k + 1) (n - (k + 1)) := by
    intro c hc
    obtain ⟨hlt, hn⟩ := hup c (List.mem_reverse.mp hc)
    rw [List.mem_range, List.mem_range'_1]
    omega
  unfold exploreFrom
  dsimp only
  rw [if_pos List.self_mem_range_succ, herase, explore_of_finished hfinished,
    show n - k = n - (k + 1) + 1 by omega, List.range'_succ]

/-- If every node stands behind those it comes after, the nodes are in order as they stand. -/
theorem order_eq_range {n : Nat} (hup : ∀ p < n, ∀ c ∈ next p, p < c ∧ c < n) :
    Traversal.order next n = .ok (List.range n) := by
  have hfold : ∀ k ≤ n, (List.range k).reverse.foldlM (exploreFrom next)
      ⟨List.range k, List.range' k (n - k)⟩ = .ok ⟨[], List.range n⟩ := by
    intro k
    induction k with
    | zero =>
      intro _
      rw [List.range_eq_range' (n := n)]
      rfl
    | succ k ih =>
      intro hk
      rw [show (List.range (k + 1)).reverse = k :: (List.range k).reverse by
        rw [List.range_succ, List.reverse_concat],
        List.foldlM_cons, exploreFrom_last hk (hup k hk), except_ok_bind]
      exact ih (Nat.le_of_succ_le hk)
  have hall := hfold n (Nat.le_refl n)
  rw [Nat.sub_self, List.range'_zero] at hall
  rw [Traversal.order, hall]
  rfl

end Traversal

namespace NodeGraph

variable {ν : Type} [Vertex ν] {g : NodeGraph ν}

/-- Every input names a node that stands before its reader. -/
def ForwardWired (g : NodeGraph ν) : Prop :=
  ∀ q node, g.nodes[q]? = some node → ∀ conn ∈ Vertex.inputs node, ∃ p < q,
    g.indexOf? conn.name = some p

theorem contains_of_indexOf? {name : String} {p : NodeRef} (h : g.indexOf? name = some p) :
    g.contains name = true := by
  have hsome : (g.indexOf? name).isSome = true := by rw [h]; rfl
  rwa [indexOf?, List.findIdx?_isSome] at hsome

theorem ForwardWired.resolved (h : g.ForwardWired) : g.Resolved := by
  intro node hnode conn hconn
  obtain ⟨q, hq⟩ := List.getElem?_of_mem hnode
  obtain ⟨p, -, hp⟩ := h q node hq conn hconn
  exact contains_of_indexOf? hp

theorem ForwardWired.lt (h : g.ForwardWired) {p q : NodeRef} (hpq : g.Feeds p q) : p < q := by
  obtain ⟨node, conn, hnode, hconn, hp⟩ := hpq
  obtain ⟨p', hlt, hp'⟩ := h q node hnode conn hconn
  rw [hp, Option.some.injEq] at hp'
  exact hp' ▸ hlt

/-- A graph that is wired forward is in order as it stands. -/
theorem ForwardWired.sortedOrder (h : g.ForwardWired) (hfrom : ∀ p < g.size, g.FromInput p) :
    g.sortedOrder = .ok (List.range g.size) := by
  obtain ⟨readers, hreaders⟩ := exists_readers h.resolved
  have hup : ∀ p < g.size, ∀ c ∈ readers.getD p [], p < c ∧ c < g.size := fun p _ c hc =>
    ⟨h.lt ((mem_readers_iff hreaders).mp hc), readers_lt hreaders p c hc⟩
  have hnone : Traversal.unreached (fun p => readers.getD p []) (List.range g.size) g.inputIds =
      [] := by
    rw [List.eq_nil_iff_forall_not_mem]
    exact fun p hp => ((mem_unreached_readers_iff hreaders).mp hp).2
      (hfrom p ((mem_unreached_readers_iff hreaders).mp hp).1)
  unfold NodeGraph.sortedOrder
  rw [hreaders, except_ok_bind]
  dsimp only
  rw [Traversal.order_eq_range hup, hnone]
  rfl

section Again

/-- The nodes of a graph as they stand in its order. -/
def relined (g : NodeGraph ν) : NodeGraph ν := ⟨g.sortedNodes, []⟩

variable (hs : g.sortedOrder = .ok g.order)
include hs

theorem getElem?_relined (i : Nat) : g.relined.nodes[i]? = g.order[i]?.bind (g.nodes[·]?) := by
  have hall : ∀ order : List NodeRef, (∀ p ∈ order, p < g.size) →
      (order.filterMap (g.nodes[·]?)).map some = order.map (g.nodes[·]?) := by
    intro order
    induction order with
    | nil => exact fun _ => rfl
    | cons p order ih =>
      intro hlt
      have hp := List.getElem?_eq_getElem (hlt p List.mem_cons_self)
      rw [List.filterMap_cons_some hp, List.map_cons, List.map_cons, hp,
        ih fun q hq => hlt q (List.mem_cons_of_mem p hq)]
  have hsome :=
    congrArg (·[i]?) (hall g.order fun p hp => List.mem_range.mp ((sortedOrder_perm hs).subset hp))
  simp only [List.getElem?_map] at hsome
  change (g.order.filterMap (g.nodes[·]?))[i]? = _
  cases horder : g.order[i]? with
  | none => simpa [horder] using hsome
  | some p =>
    obtain ⟨node, hnode, hp⟩ : ∃ node, (g.order.filterMap (g.nodes[·]?))[i]? = some node ∧
        some node = g.nodes[p]? := by
      simpa [horder] using hsome
    rw [hnode, hp, Option.bind_some]

/-- A node stands at its place in the order. -/
theorem getElem?_relined_idxOf {p : NodeRef} {node : ν} (hp : g.nodes[p]? = some node) :
    g.relined.nodes[g.order.idxOf p]? = some node := by
  have hmem : p ∈ g.order := (sortedOrder_perm hs).symm.subset
    (List.mem_range.mpr (List.getElem?_eq_some_iff.mp hp).1)
  rw [getElem?_relined hs, List.getElem?_idxOf hmem, Option.bind_some, hp]

theorem exists_of_relined {i : Nat} {node : ν} (hi : g.relined.nodes[i]? = some node) :
    ∃ p, g.nodes[p]? = some node ∧ g.order.idxOf p = i := by
  rw [getElem?_relined hs] at hi
  obtain ⟨p, hp, hnode⟩ := Option.bind_eq_some_iff.mp hi
  obtain ⟨hlt, rfl⟩ := List.getElem?_eq_some_iff.mp hp
  have hn : g.order.Nodup := (sortedOrder_perm hs).nodup_iff.mpr List.nodup_range
  exact ⟨_, hnode, hn.idxOf_getElem i hlt⟩

theorem mem_of_mem_relined {node : ν} (h : node ∈ g.relined.nodes) : node ∈ g.nodes := by
  obtain ⟨i, hi⟩ := List.getElem?_of_mem h
  obtain ⟨p, hp, -⟩ := exists_of_relined hs hi
  exact List.mem_of_getElem? hp

variable (hd : g.Distinct)
include hd

theorem distinct_relined : g.relined.Distinct := by
  refine List.nodup_iff_getElem?_ne_getElem?.mpr fun i j hij hj heq => ?_
  have hlt : j < g.relined.nodes.length := by simpa using hj
  have hi := List.getElem?_eq_getElem (Nat.lt_trans hij hlt)
  have hj := List.getElem?_eq_getElem hlt
  rw [List.getElem?_map, List.getElem?_map, hi, hj, Option.map_some, Option.map_some,
    Option.some.injEq] at heq
  obtain ⟨p, hp, hpi⟩ := exists_of_relined hs hi
  obtain ⟨q, hq, hqj⟩ := exists_of_relined hs hj
  obtain rfl := hd.eq_of_name hp hq heq
  exact Nat.ne_of_lt hij (hpi.symm.trans hqj)

/-- What a node reads from stands at its place in the order, too. -/
theorem indexOf?_relined {name : String} {p : NodeRef} (h : g.indexOf? name = some p) :
    g.relined.indexOf? name = some (g.order.idxOf p) := by
  obtain ⟨node, hnode, hname⟩ := (indexOf?_eq_some_iff hd).mp h
  exact (indexOf?_eq_some_iff (distinct_relined hs hd)).mpr ⟨node, getElem?_relined_idxOf hs hnode,
    hname⟩

theorem feeds_relined {p q : NodeRef} (h : g.Feeds p q) :
    g.relined.Feeds (g.order.idxOf p) (g.order.idxOf q) := by
  obtain ⟨node, conn, hnode, hconn, hp⟩ := h
  exact ⟨node, conn, getElem?_relined_idxOf hs hnode, hconn, indexOf?_relined hs hd hp⟩

theorem forwardWired_relined (hr : g.Resolved) : g.relined.ForwardWired := by
  intro i node hi conn hconn
  obtain ⟨q, hq, rfl⟩ := exists_of_relined hs hi
  obtain ⟨p, hp, -⟩ := exists_indexOf? (hr node (List.mem_of_getElem? hq) conn hconn)
  exact ⟨g.order.idxOf p, idxOf_lt_of_sortedOrder hs ⟨node, conn, hq, hconn, hp⟩,
    indexOf?_relined hs hd hp⟩

theorem fromInput_relined {i : Nat} (hfrom : ∀ p < g.size, g.FromInput p)
    (hi : i < g.relined.size) : g.relined.FromInput i := by
  obtain ⟨p, hp, rfl⟩ := exists_of_relined hs (List.getElem?_eq_getElem hi)
  obtain ⟨s, node, hnode, hinput, hpath⟩ := hfrom p (List.getElem?_eq_some_iff.mp hp).1
  exact ⟨g.order.idxOf s, node, getElem?_relined_idxOf hs hnode, hinput,
    ReflTransGen.lift g.order.idxOf (fun _ _ => feeds_relined hs hd) _ _ hpath⟩

/-- Nodes that stand in a sorted order are sorted into it again. -/
theorem sortedOrder_relined : g.relined.sortedOrder = .ok (List.range g.relined.size) := by
  have hr : g.Resolved := by
    rw [← firstUnknown?_eq_none_iff]
    cases hunknown : g.firstUnknown? with
    | none => rfl
    | some c =>
      obtain ⟨node, conn⟩ := c
      rw [sortedOrder_of_unknown hunknown] at hs
      cases hs
  exact (forwardWired_relined hs hd hr).sortedOrder
    fun _ => fromInput_relined hs hd ((sortedOrder_eq_ok_iff hr).mp ⟨_, hs⟩).2

end Again

omit [Vertex ν] in
theorem sortedNodes_range (nodes : List ν) :
    (⟨nodes, List.range nodes.length⟩ : NodeGraph ν).sortedNodes = nodes := by
  have hmap : (List.range nodes.length).map (nodes[·]?) = nodes.map some :=
    List.ext_getElem (by simp) fun i hi _ => by
      rw [List.getElem_map, List.getElem_range, List.getElem_map]
      exact List.getElem?_eq_getElem _
  calc (List.range nodes.length).filterMap (nodes[·]?)
      = ((List.range nodes.length).map (nodes[·]?)).filterMap id := by rw [List.filterMap_map]; rfl
    _ = nodes := by rw [hmap, List.filterMap_map]; simp

end NodeGraph

namespace IndexedGraph

variable {ν : Type} [Vertex ν]

/-- Take the nodes out in their sorted order, put them in again and sort. -/
def reline : Action (IndexedGraph ν) Unit := do
  let nodes := (← get).plain.sortedNodes
  let _ ← take
  replace nodes
  sort

variable {g s : IndexedGraph ν}

omit [Vertex ν] in
theorem exists_of_forget {β : Type} {x : EStateM.Result Error (IndexedGraph ν) β}
    {b : β} {h : NodeGraph ν} (hx : forget x = .ok b h) : ∃ t, x = .ok b t ∧ t.plain = h := by
  cases x with
  | ok b' t =>
    cases hx
    exact ⟨t, rfl, rfl⟩
  | error e t => cases hx

theorem sortedOrder_of_sort (h : g.Sound) (hs : sort g = .ok () s) :
    s.nodes = g.nodes ∧ s.Sound ∧ s.plain.sortedOrder = .ok s.plain.order := by
  obtain ⟨order, horder, heq⟩ := except_bind_eq_ok_iff.mp (Action.update_eq_ok_iff.mp hs)
  cases heq
  refine ⟨rfl, Action.Keeps.of_ok keeps_sound_sort h hs, ?_⟩
  rw [← h.sortedOrder_plain] at horder
  exact horder

theorem Sound.sort_of_sortedOrder (h : g.Sound) {order : List NodeRef}
    (hs : g.plain.sortedOrder = .ok order) : sort g = .ok () { g with order := order } := by
  rw [h.sortedOrder_plain] at hs
  refine Action.update_of_ok ?_
  rw [hs]
  rfl

/-- Nodes that are taken in their sorted order are sorted into the same order again. -/
theorem exists_reline (h : g.Sound) (hs : sort g = .ok () s)
    (hnames : ∀ node ∈ s.nodes, Vertex.name node ≠ "") :
    ∃ t, reline s = .ok () t ∧ t.nodes = s.plain.sortedNodes ∧ t.order = List.range t.size := by
  obtain ⟨-, hsound, horder⟩ := sortedOrder_of_sort h hs
  have hreplace := NodeGraph.replace_of_nodup (NodeGraph.distinct_relined horder hsound.distinct)
    (fun node hm => hnames node (NodeGraph.mem_of_mem_relined horder hm))
      (empty : IndexedGraph ν).plain
  rw [← forget_replace] at hreplace
  obtain ⟨t, ht, hplain⟩ := exists_of_forget hreplace
  have htsound : t.Sound := Action.Keeps.of_ok (keeps_sound_replace _) sound_empty ht
  have hagain := NodeGraph.sortedOrder_relined horder hsound.distinct
  rw [show s.plain.relined = t.plain from hplain.symm] at hagain
  refine ⟨{ t with order := List.range t.size }, ?_, congrArg NodeGraph.nodes hplain, rfl⟩
  unfold reline
  rw [Action.bind_of_ok (Action.get_apply s)]
  exact (Action.bind_of_ok (show take s = .ok s.nodes empty from rfl)).trans
    ((Action.bind_of_ok ht).trans (htsound.sort_of_sortedOrder hagain))

/-- A graph whose nodes stand behind what they read from, and are all reached from graph inputs, is
sorted into the order in which its nodes have been added. So what stands in a sorted order keeps it,
if no node has lost its name by being renamed. -/
theorem sort_in_order [LawfulVertex ν] (calls : List (Call ν)) :
    ((perform calls).plain.ForwardWired →
      (∀ p < (perform calls).size, (perform calls).plain.FromInput p) →
      sort (perform calls) =
        .ok () { perform calls with order := List.range (perform calls).size }) ∧
    ∀ s, sort (perform calls) = .ok () s → (∀ node ∈ s.nodes, Vertex.name node ≠ "") →
      ∃ t, reline s = .ok () t ∧ t.nodes = s.plain.sortedNodes ∧
        t.plain.sortedNodes = s.plain.sortedNodes := by
  have hsound := sound_perform calls
  refine ⟨fun hwired hfrom => hsound.sort_of_sortedOrder (hwired.sortedOrder hfrom),
    fun s hs hnames => ?_⟩
  obtain ⟨t, ht, hnodes, horder⟩ := exists_reline hsound hs hnames
  refine ⟨t, ht, hnodes, ?_⟩
  rw [plain, horder, ← hnodes]
  exact NodeGraph.sortedNodes_range t.nodes

/-- Two branches that meet again, the later one first in the list of what is read. -/
def branched : List (Call (Node Float32)) :=
  [.add (.ofLayer (.input 1) "in" []), .add (.ofLayer .identity "left" [⟨"in", 0⟩]),
    .add (.ofLayer .identity "right" [⟨"in", 0⟩]),
    .add (.ofLayer .addition "join" [⟨"right", 0⟩, ⟨"left", 0⟩])]

theorem branched_in_order : (perform branched).plain.ForwardWired ∧
    (∀ p < (perform branched).size, (perform branched).plain.FromInput p) ∧
    ∃ s, sort (perform branched) = .ok () s ∧ s.order = [0, 1, 2, 3] ∧
      ∃ t, reline s = .ok () t ∧ t.plain.sortedNodes = s.plain.sortedNodes := by
  have hwired : (perform branched).plain.ForwardWired := by
    have hall : ∀ x ∈ (perform branched).nodes.zipIdx, ∀ conn ∈ x.1.inputs,
        ∃ p < x.2, (perform branched).plain.indexOf? conn.name = some p := by decide
    exact fun q node hnode => hall (node, q) (List.mem_zipIdx_iff_getElem?.mpr hnode)
  have hfrom : ∀ p < (perform branched).size, (perform branched).plain.FromInput p := by
    have hfeeds : ∀ {p q : NodeRef} {node : Node Float32} {conn : Connection},
        (perform branched).plain.nodes[q]? = some node → conn ∈ node.inputs →
        (perform branched).plain.indexOf? conn.name = some p → (perform branched).plain.Feeds p q :=
      fun hnode hconn hp => ⟨_, _, hnode, hconn, hp⟩
    have hleft : (perform branched).plain.Feeds 0 1 := hfeeds rfl List.mem_cons_self (by decide)
    have hright : (perform branched).plain.Feeds 0 2 := hfeeds rfl List.mem_cons_self (by decide)
    have hjoin : (perform branched).plain.Feeds 2 3 := hfeeds rfl List.mem_cons_self (by decide)
    intro p hp
    refine ⟨0, .ofLayer (.input 1) "in" [], rfl, rfl, ?_⟩
    match p, hp with
    | 0, _ => exact .refl
    | 1, _ => exact .single hleft
    | 2, _ => exact .single hright
    | 3, _ => exact .tail (.single hright) hjoin
  have hsort := (sort_in_order branched).1 hwired hfrom
  exact ⟨hwired, hfrom, _, hsort, rfl,
    let ⟨t, ht, _, hsame⟩ := (sort_in_order branched).2 _ hsort (by decide); ⟨t, ht, hsame⟩⟩

/-- A node that has lost its name. -/
def nameless : List (Call (Node Float32)) := [.add (.ofLayer (.input 1) "a" []), .rename 0 ""]

/-- It can be sorted, but not be put in again. -/
theorem nameless_not_relined :
    ¬ ∀ (calls : List (Call (Node Float32))) (s : IndexedGraph (Node Float32)),
    sort (perform calls) = .ok () s →
      ∃ t, reline s = .ok () t ∧ t.plain.sortedNodes = s.plain.sortedNodes := by
  intro hall
  have hwired : (perform nameless).plain.ForwardWired := by
    have hall : ∀ x ∈ (perform nameless).nodes.zipIdx, ∀ conn ∈ x.1.inputs,
        ∃ p < x.2, (perform nameless).plain.indexOf? conn.name = some p := by decide
    exact fun q node hnode => hall (node, q) (List.mem_zipIdx_iff_getElem?.mpr hnode)
  have hfrom : ∀ p < (perform nameless).size, (perform nameless).plain.FromInput p
    | 0, _ => ⟨0, .ofLayer (.input 1) "" [], rfl, rfl, .refl⟩
  have hsort : sort (perform nameless) = .ok () { perform nameless with order := [0] } :=
    (sound_perform nameless).sort_of_sortedOrder (hwired.sortedOrder hfrom)
  have hrefused : reline { perform nameless with order := [0] } =
      .error (.misconfigured .emptyName) empty := rfl
  obtain ⟨t, ht, -⟩ := hall nameless _ hsort
  rw [hrefused] at ht
  cases ht

end IndexedGraph

end LayerGraph
