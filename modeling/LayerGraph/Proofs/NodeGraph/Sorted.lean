import LayerGraph.Proofs.NodeGraph.Names
import LayerGraph.Proofs.NodeGraph.Order
import Mathlib.Logic.Relation

/-!
# Which graphs can be sorted

The search fails only where it closes a cycle, and what it finishes stands before everything that
comes after it. So a graph whose inputs name its nodes can be sorted exactly if it has no cycle and
every node is reached from a graph input.
-/

namespace LayerGraph

open Relation

namespace Traversal

variable {next : Nat → List Nat}

/-- `b` is one of the nodes after `a`. -/
def Edge (next : Nat → List Nat) (a b : Nat) : Prop := b ∈ next a

/-- All that comes after a node stands behind it. -/
def Settled (next : Nat → List Nat) : List Nat → Prop
  | [] => True
  | node :: rest => next node ⊆ rest ∧ Settled next rest

/-- What comes after a node of the stack is done, still to be looked at, or above it on the
stack. -/
def Opened (next : Nat → List Nat) (done : List Nat) : List (Nat × List Nat) → Prop
  | [] => True
  | (node, rest) :: stack => next node ⊆ done ++ rest ∧ Opened next (node :: done) stack

/-- A stack is a path, of which each node comes after the one below it. -/
def IsPath (next : Nat → List Nat) : List (Nat × List Nat) → Prop
  | [] => True
  | [(node, rest)] => rest ⊆ next node
  | (node, rest) :: (below, others) :: stack =>
    rest ⊆ next node ∧ Edge next below node ∧ IsPath next ((below, others) :: stack)

theorem Opened.mono {done done' : List Nat} {stack : List (Nat × List Nat)}
    (h : Opened next done stack) (hd : done ⊆ done') : Opened next done' stack := by
  induction stack generalizing done done' with
  | nil => exact h
  | cons frame stack ih =>
    refine ⟨fun c hc => ?_, ih h.2 (List.cons_subset_cons _ hd)⟩
    rcases List.mem_append.mp (h.1 hc) with hc | hc
    · exact List.mem_append_left _ (hd hc)
    · exact List.mem_append_right _ hc

theorem IsPath.rest_subset {node : Nat} {rest : List Nat} {stack : List (Nat × List Nat)}
    (h : IsPath next ((node, rest) :: stack)) : rest ⊆ next node := by
  cases stack with
  | nil => exact h
  | cons => exact h.1

theorem IsPath.tail {frame : Nat × List Nat} {stack : List (Nat × List Nat)}
    (h : IsPath next (frame :: stack)) : IsPath next stack := by
  cases stack with
  | nil => trivial
  | cons => exact h.2.2

theorem IsPath.shorten {node : Nat} {rest rest' : List Nat} {stack : List (Nat × List Nat)}
    (h : IsPath next ((node, rest) :: stack)) (hr : rest' ⊆ rest) :
    IsPath next ((node, rest') :: stack) := by
  cases stack with
  | nil => exact List.Subset.trans hr h
  | cons => exact ⟨List.Subset.trans hr h.1, h.2⟩

/-- From every node of a stack there is a path to its top. -/
theorem IsPath.reaches_top {node x : Nat} {rest : List Nat} {stack : List (Nat × List Nat)}
    (h : IsPath next ((node, rest) :: stack)) (hx : x ∈ ((node, rest) :: stack).map (·.1)) :
    ReflTransGen (Edge next) x node := by
  induction stack generalizing node rest with
  | nil =>
    obtain rfl : x = node := by simpa using hx
    exact .refl
  | cons frame stack ih =>
    rcases List.mem_cons.mp hx with rfl | hx
    · exact .refl
    · exact (ih h.2.2 hx).tail h.2.1

theorem settled_explore {fresh finished : List Nat} {stack : List (Nat × List Nat)} {p : Progress}
    (hs : Settled next finished) (ho : Opened next finished stack)
    (h : explore next fresh finished stack = .ok p) : Settled next p.finished := by
  fun_induction explore next fresh finished stack with
  | case1 fresh finished =>
    cases h
    exact hs
  | case2 fresh finished node stack ih =>
    exact ih ⟨by simpa using ho.1, hs⟩ ho.2 h
  | case3 fresh finished node child rest stack hc ih =>
    refine ih hs ⟨fun c hcn => by simp [hcn], fun c hcn => ?_, ?_⟩ h
    · have hm := ho.1 hcn
      simp only [List.mem_append, List.mem_cons] at hm ⊢
      tauto
    · exact ho.2.mono (List.cons_subset_cons _ (List.subset_cons_self _ _))
  | case4 fresh finished node child rest stack hc hf ih =>
    refine ih hs ⟨fun c hcn => ?_, ho.2⟩ h
    rcases List.mem_append.mp (ho.1 hcn) with hm | hm
    · exact List.mem_append_left _ hm
    · rcases List.mem_cons.mp hm with rfl | hm
      · exact List.mem_append_left _ hf
      · exact List.mem_append_right _ hm
  | case5 => cases h

/-- Where the search fails it has come back to a node of its stack. -/
theorem cycle_of_explore {fresh finished : List Nat} {stack : List (Nat × List Nat)} {id : Nat}
    (hall : ∀ a c, c ∈ next a → c ∈ fresh ∨ c ∈ finished ∨ c ∈ stack.map (·.1))
    (hpath : IsPath next stack) (h : explore next fresh finished stack = .error id) :
    TransGen (Edge next) id id := by
  fun_induction explore next fresh finished stack with
  | case1 => cases h
  | case2 fresh finished node stack ih =>
    refine ih (fun a c hc => ?_) hpath.tail h
    have := hall a c hc
    simp only [List.map_cons, List.mem_cons] at this ⊢
    tauto
  | case3 fresh finished node child rest stack hc ih =>
    refine ih (fun a c hca => ?_) ⟨by simp, hpath.rest_subset (by simp), hpath.shorten (by simp)⟩ h
    by_cases heq : c = child
    · simp [heq]
    · have := hall a c hca
      simp only [List.map_cons, List.mem_cons, List.mem_erase_of_ne heq] at this ⊢
      tauto
  | case4 fresh finished node child rest stack hc hf ih =>
    exact ih hall (hpath.shorten (by simp)) h
  | case5 fresh finished node child rest stack hc hf =>
    obtain rfl : child = id := by cases h; rfl
    have hedge : Edge next node child := hpath.rest_subset (by simp)
    have hon : child ∈ ((node, child :: rest) :: stack).map (·.1) := by
      rcases hall node child hedge with hm | hm | hm
      · exact absurd hm hc
      · exact absurd hm hf
      · exact hm
    exact .tail' (hpath.reaches_top hon) hedge

section Order

variable {n : Nat} (hn : ∀ a c, c ∈ next a → c < n)

theorem settled_exploreFrom {p q : Progress} {start : Nat} (hs : Settled next p.finished)
    (h : exploreFrom next p start = .ok q) : Settled next q.finished := by
  unfold exploreFrom at h
  split at h
  · have ho : Opened next p.finished [(start, (next start).reverse)] :=
      ⟨fun c hc => by simp [hc], trivial⟩
    exact settled_explore hs ho h
  · cases h
    exact hs

theorem settled_order {order : List Nat} (h : Traversal.order next n = .ok order) :
    Settled next order := by
  obtain ⟨q, hq, h⟩ := except_bind_eq_ok_iff.mp h
  cases h
  exact except_foldlM_upTo (P := fun _ p => Settled next p.finished) hq (by simp [Settled])
    fun _ _ _ _ _ _ hs hstep => settled_exploreFrom hs hstep

include hn in
theorem cycle_of_foldlM (starts : List Nat) {p : Progress} {id : Nat}
    (hall : ∀ c < n, c ∈ p.fresh ∨ c ∈ p.finished)
    (h : starts.foldlM (exploreFrom next) p = .error id) : TransGen (Edge next) id id := by
  induction starts generalizing p with
  | nil => cases h
  | cons start starts ih =>
    rw [List.foldlM_cons] at h
    cases hstep : exploreFrom next p start with
    | error id' =>
      rw [hstep] at h
      cases h
      unfold exploreFrom at hstep
      split at hstep
      · refine cycle_of_explore (fun a c hc => ?_) (by simp [IsPath]) hstep
        by_cases heq : c = start
        · simp [heq]
        · rw [List.mem_erase_of_ne heq, ← or_assoc]
          exact .inl (hall c (hn a c hc))
      · cases hstep
    | ok q =>
      rw [hstep] at h
      refine ih (fun c hc => ?_) h
      have hmem : ∀ c, c ∈ p.fresh ++ p.finished → c ∈ q.fresh ++ q.finished := by
        intro c hc
        unfold exploreFrom at hstep
        split at hstep
        · next hm =>
          refine (explore_perm hstep).1.symm.subset ?_
          by_cases heq : c = start
          · simp [heq]
          · simpa [List.mem_erase_of_ne heq, heq] using hc
        · cases hstep
          exact hc
      simpa using hmem c (by simpa using hall c hc)

include hn in
theorem cycle_of_order {id : Nat} (h : Traversal.order next n = .error id) :
    TransGen (Edge next) id id := by
  refine cycle_of_foldlM hn (List.range n).reverse (p := ⟨List.range n, []⟩)
    (by simp) ?_
  unfold Traversal.order at h
  cases hf : (List.range n).reverse.foldlM (exploreFrom next) ⟨List.range n, []⟩ with
  | ok q =>
    rw [hf] at h
    cases h
  | error id' =>
    rw [hf] at h
    cases h
    rfl

end Order

/-- In a settled list a node stands before all that can be reached from it. -/
theorem Settled.idxOf_lt {xs : List Nat} (h : Settled next xs) (hn : xs.Nodup) {a b : Nat}
    (ha : a ∈ xs) (hab : Edge next a b) : b ∈ xs ∧ xs.idxOf a < xs.idxOf b := by
  induction xs with
  | nil => cases ha
  | cons x xs ih =>
    obtain ⟨hx, hn⟩ := List.nodup_cons.mp hn
    by_cases hax : a = x
    · subst hax
      have hb := h.1 hab
      have hne : a ≠ b := fun heq => hx (heq ▸ hb)
      exact ⟨List.mem_cons_of_mem _ hb, by simp [List.idxOf_cons_ne _ hne]⟩
    · obtain ⟨hb, hlt⟩ := ih h.2 hn ((List.mem_cons.mp ha).resolve_left hax)
      have hbx : x ≠ b := fun heq => hx (heq ▸ hb)
      refine ⟨List.mem_cons_of_mem _ hb, ?_⟩
      rw [List.idxOf_cons_ne _ (Ne.symm hax), List.idxOf_cons_ne _ hbx]
      omega

theorem Settled.idxOf_lt_of_transGen {xs : List Nat} (h : Settled next xs)
    (hn : xs.Nodup) {a b : Nat} (ha : a ∈ xs) (hab : TransGen (Edge next) a b) : b ∈ xs ∧
    xs.idxOf a < xs.idxOf b := by
  induction hab with
  | single hab => exact h.idxOf_lt hn ha hab
  | tail _ hbc ih =>
    obtain ⟨hb, hlt⟩ := ih
    obtain ⟨hc, hlt'⟩ := h.idxOf_lt hn hb hbc
    exact ⟨hc, Nat.lt_trans hlt hlt'⟩

section Unreached

variable {fresh queue : List Nat}

/-- What is left over is fresh, and is neither on the queue nor after a node that has been taken. -/
theorem unreached_closed (next : Nat → List Nat) (queue : List Nat) (hn : fresh.Nodup) :
    (∀ p ∈ unreached next fresh queue, p ∈ fresh ∧ p ∉ queue) ∧
      ∀ p ∈ fresh, p ∉ unreached next fresh queue →
        ∀ c ∈ next p, c ∉ unreached next fresh queue := by
  fun_induction unreached next fresh queue with
  | case1 fresh => exact ⟨fun p hp => ⟨hp, by simp⟩, fun p hp hnot => absurd hp hnot⟩
  | case2 fresh node queue hm ih =>
    obtain ⟨hmem, hclosed⟩ := ih (hn.erase node)
    refine ⟨fun p hp => ?_, fun p hp hnot c hc => ?_⟩
    · obtain ⟨hpf, hpq⟩ := hmem p hp
      have hne : p ≠ node := fun heq => hn.not_mem_erase (heq ▸ hpf)
      exact ⟨List.mem_of_mem_erase hpf, by simpa [hne] using fun h => hpq (by simp [h])⟩
    · by_cases hpn : p = node
      · exact fun hcm => (hmem c hcm).2 (by simp [hpn ▸ hc])
      · exact hclosed p ((List.mem_erase_of_ne hpn).mpr hp) hnot c hc
  | case3 fresh node queue hm ih =>
    obtain ⟨hmem, hclosed⟩ := ih hn
    refine ⟨fun p hp => ?_, hclosed⟩
    obtain ⟨hpf, hpq⟩ := hmem p hp
    have hne : p ≠ node := fun heq => hm (heq ▸ hpf)
    exact ⟨hpf, by simp [hne, hpq]⟩

/-- What is taken has been reached from the queue. -/
theorem reached_of_not_mem_unreached {p : Nat} (hp : p ∈ fresh)
    (hnot : p ∉ unreached next fresh queue) : ∃ q ∈ queue, ReflTransGen (Edge next) q p := by
  fun_induction unreached next fresh queue with
  | case1 fresh => exact absurd hp hnot
  | case2 fresh node queue hm ih =>
    by_cases hpn : p = node
    · exact ⟨node, by simp, hpn ▸ .refl⟩
    · obtain ⟨q, hq, hpath⟩ := ih ((List.mem_erase_of_ne hpn).mpr hp) hnot
      rcases List.mem_append.mp hq with hq | hq
      · exact ⟨node, by simp, .head hq hpath⟩
      · exact ⟨q, by simp [hq], hpath⟩
  | case3 fresh node queue hm ih =>
    obtain ⟨q, hq, hpath⟩ := ih hp hnot
    exact ⟨q, by simp [hq], hpath⟩

/-- What is left over is what is not reached from the queue. -/
theorem mem_unreached_iff {n p : Nat} (hn : ∀ a c, c ∈ next a → c < n) (hq : ∀ q ∈ queue, q < n) :
    p ∈ unreached next (List.range n) queue ↔
      p < n ∧ ¬ ∃ q ∈ queue, ReflTransGen (Edge next) q p := by
  obtain ⟨hmem, hclosed⟩ := unreached_closed next queue (List.nodup_range (n := n))
  constructor
  · intro hp
    refine ⟨List.mem_range.mp (hmem p hp).1, ?_⟩
    rintro ⟨q, hqm, hpath⟩
    have hclear : ∀ x, ReflTransGen (Edge next) q x →
        x < n ∧ x ∉ unreached next (List.range n) queue := by
      intro x hx
      induction hx with
      | refl => exact ⟨hq q hqm, fun hm => (hmem q hm).2 hqm⟩
      | tail _ hbc ih =>
        obtain ⟨hb, hnot⟩ := ih
        exact ⟨hn _ _ hbc, hclosed _ (List.mem_range.mpr hb) hnot _ hbc⟩
    exact (hclear p hpath).2 hp
  · rintro ⟨hp, hnot⟩
    by_contra hleft
    exact hnot (reached_of_not_mem_unreached (List.mem_range.mpr hp) hleft)

/-- What is left over keeps its order. -/
theorem unreached_sublist (next : Nat → List Nat) (fresh queue : List Nat) :
    (unreached next fresh queue).Sublist fresh := by
  fun_induction unreached next fresh queue with
  | case1 fresh => exact List.Sublist.refl _
  | case2 fresh node queue hm ih => exact ih.trans List.erase_sublist
  | case3 fresh node queue hm ih => exact ih

end Unreached

end Traversal

namespace NodeGraph

variable {ν : Type} [Vertex ν] {g : NodeGraph ν}

/-- Node `q` reads from node `p`. -/
def Feeds (g : NodeGraph ν) (p q : NodeRef) : Prop :=
  ∃ node conn, g.nodes[q]? = some node ∧ conn ∈ Vertex.inputs node ∧ g.indexOf? conn.name = some p

/-- Every input names a node. -/
def Resolved (g : NodeGraph ν) : Prop :=
  ∀ node ∈ g.nodes, ∀ conn ∈ Vertex.inputs node, g.contains conn.name = true

theorem exists_indexOf? {name : String} (h : g.contains name = true) :
    ∃ id, g.indexOf? name = some id ∧ id < g.size := by
  obtain ⟨node, hn, hname⟩ := contains_eq_true_iff.mp h
  have hsome : (g.indexOf? name).isSome = true := by
    unfold indexOf?
    rw [List.findIdx?_isSome]
    exact List.any_eq_true.mpr ⟨node, hn, by simpa using hname⟩
  obtain ⟨id, hid⟩ := Option.isSome_iff_exists.mp hsome
  exact ⟨id, hid, (List.findIdx?_eq_some_iff_getElem.mp hid).1⟩

theorem mem_producersOf_iff {node : ν} {producers : List NodeRef}
    (h : g.producersOf node = .ok producers) {p : NodeRef} :
    p ∈ producers ↔ ∃ conn ∈ Vertex.inputs node, g.indexOf? conn.name = some p := by
  constructor
  · intro hp
    obtain ⟨conn, hc, hf⟩ := except_mapM_mem_result h hp
    split at hf
    · next id hid =>
      cases hf
      exact ⟨conn, hc, hid⟩
    · cases hf
  · rintro ⟨conn, hc, hid⟩
    obtain ⟨q, hq, hf⟩ := except_mapM_mem h hc
    rw [hid] at hf
    cases hf
    exact hq

theorem exists_producersOf {node : ν}
    (h : ∀ conn ∈ Vertex.inputs node, g.contains conn.name = true) :
    ∃ producers, g.producersOf node = .ok producers := by
  refine except_mapM_exists fun conn hc => ?_
  obtain ⟨id, hid, -⟩ := exists_indexOf? (h conn hc)
  exact ⟨id, by simp [hid]⟩

theorem mem_readersIn_iff {table : List (List NodeRef)} {p q : NodeRef} :
    q ∈ readersIn table p ↔ ∃ producers, table[q]? = some producers ∧ p ∈ producers := by
  unfold readersIn
  simp only [List.mem_flatMap, List.mem_map, List.mem_filter, decide_eq_true_eq]
  constructor
  · rintro ⟨⟨producers, id⟩, hm, p', ⟨hp, rfl⟩, rfl⟩
    exact ⟨producers, List.mem_zipIdx_iff_getElem?.mp hm, hp⟩
  · rintro ⟨producers, hq, hp⟩
    exact ⟨(producers, q), List.mem_zipIdx_iff_getElem?.mpr hq, p, ⟨hp, rfl⟩, rfl⟩

section Readers

variable {readers : List (List NodeRef)} (h : g.readers = .ok readers)
include h

theorem mem_readers_iff {p q : NodeRef} : q ∈ readers.getD p [] ↔ g.Feeds p q := by
  obtain ⟨table, htable, h⟩ := except_bind_eq_ok_iff.mp h
  cases h
  have hrow : ∀ q producers, table[q]? = some producers → ∀ p, p ∈ producers ↔ g.Feeds p q := by
    intro q producers hq p
    obtain ⟨node, hn, hf⟩ := except_mapM_getElem?_result htable hq
    rw [mem_producersOf_iff hf]
    constructor
    · rintro ⟨conn, hc, hid⟩
      exact ⟨node, conn, hn, hc, hid⟩
    · rintro ⟨node', conn, hn', hc, hid⟩
      rw [hn] at hn'
      cases hn'
      exact ⟨conn, hc, hid⟩
  have hmem : q ∈ readersIn table p ↔ g.Feeds p q := by
    rw [mem_readersIn_iff]
    constructor
    · rintro ⟨producers, hq, hp⟩
      exact (hrow q producers hq p).mp hp
    · intro hpq
      obtain ⟨node, -, hn, -⟩ := id hpq
      obtain ⟨producers, hq, -⟩ := except_mapM_getElem? htable hn
      exact ⟨producers, hq, (hrow q producers hq p).mpr hpq⟩
  by_cases hp : p < g.size
  · rw [List.getD_eq_getElem?_getD, List.getElem?_map, List.getElem?_range hp]
    exact hmem
  · have hnone : ((List.range g.size).map (readersIn table))[p]? = none :=
      List.getElem?_eq_none (by simpa using hp)
    rw [List.getD_eq_getElem?_getD, hnone]
    simp only [Option.getD_none, List.not_mem_nil, false_iff]
    rintro ⟨node, conn, -, -, hid⟩
    exact hp (List.findIdx?_eq_some_iff_getElem.mp hid).1

theorem edge_readers : Traversal.Edge (fun p => readers.getD p []) = g.Feeds := by
  funext p q
  exact propext (mem_readers_iff h)

theorem readers_lt (p q : NodeRef) (hq : q ∈ readers.getD p []) : q < g.size := by
  obtain ⟨node, -, hn, -⟩ := (mem_readers_iff h).mp hq
  exact (List.getElem?_eq_some_iff.mp hn).1

end Readers

theorem exists_readers (hr : g.Resolved) : ∃ readers, g.readers = .ok readers := by
  obtain ⟨table, htable⟩ := except_mapM_exists fun node hn => exists_producersOf (hr node hn)
  exact ⟨_, by rw [readers, htable]; rfl⟩

theorem mem_inputIds_iff {p : NodeRef} :
    p ∈ g.inputIds ↔ ∃ node, g.nodes[p]? = some node ∧ Vertex.isInput node = true := by
  unfold inputIds
  simp only [List.mem_map, List.mem_filter]
  constructor
  · rintro ⟨⟨node, id⟩, ⟨hm, hi⟩, rfl⟩
    exact ⟨node, List.mem_zipIdx_iff_getElem?.mp hm, hi⟩
  · rintro ⟨node, hn, hi⟩
    exact ⟨(node, p), ⟨List.mem_zipIdx_iff_getElem?.mpr hn, hi⟩, rfl⟩

/-- A node is reached from a graph input. -/
def FromInput (g : NodeGraph ν) (p : NodeRef) : Prop :=
  ∃ s node, g.nodes[s]? = some node ∧ Vertex.isInput node = true ∧ ReflTransGen g.Feeds s p

section Search

variable {readers : List (List NodeRef)} (h : g.readers = .ok readers)
include h

/-- What a search from the graph inputs leaves over. -/
theorem mem_unreached_readers_iff {p : NodeRef} :
    p ∈ Traversal.unreached (fun p => readers.getD p []) (List.range g.size) g.inputIds ↔
      p < g.size ∧ ¬ g.FromInput p := by
  rw [Traversal.mem_unreached_iff (readers_lt h), edge_readers h]
  · refine and_congr_right fun _ => not_congr ⟨?_, ?_⟩
    · rintro ⟨s, hs, hpath⟩
      obtain ⟨node, hn, hi⟩ := mem_inputIds_iff.mp hs
      exact ⟨s, node, hn, hi, hpath⟩
    · rintro ⟨s, node, hn, hi, hpath⟩
      exact ⟨s, mem_inputIds_iff.mpr ⟨node, hn, hi⟩, hpath⟩
  · intro q hq
    obtain ⟨node, hn, -⟩ := mem_inputIds_iff.mp hq
    exact (List.getElem?_eq_some_iff.mp hn).1

/-- A graph without cycles has an order, and only what is left over can keep it from being
sorted. -/
theorem exists_order_of_acyclic (hacyclic : ∀ p, ¬ TransGen g.Feeds p p) :
    ∃ order, Traversal.order (fun p => readers.getD p []) g.size = .ok order := by
  cases horder : Traversal.order (fun id => readers.getD id []) g.size with
  | ok order => exact ⟨order, rfl⟩
  | error id =>
    have hcycle := Traversal.cycle_of_order (readers_lt h) horder
    rw [edge_readers h] at hcycle
    exact absurd hcycle (hacyclic id)

end Search

section Sorting

variable (hr : g.Resolved)
include hr

/-- A cycle is what a sort reports first, by one of its nodes. -/
theorem sortedOrder_of_cycle {p : NodeRef} (hp : TransGen g.Feeds p p) :
    ∃ q, TransGen g.Feeds q q ∧ g.sortedOrder = .error (.cycle (g.nameOf q)) := by
  obtain ⟨readers, hreaders⟩ := exists_readers hr
  have hlt : p < g.size := by
    obtain ⟨q, -, node, conn, hn, -⟩ := TransGen.tail'_iff.mp hp
    exact (List.getElem?_eq_some_iff.mp hn).1
  have hedge := edge_readers hreaders
  unfold sortedOrder
  rw [hreaders, except_ok_bind]
  dsimp only
  cases horder : Traversal.order (fun id => readers.getD id []) g.size with
  | error id =>
    have hcycle := Traversal.cycle_of_order (readers_lt hreaders) horder
    exact ⟨id, hedge ▸ hcycle, rfl⟩
  | ok order =>
    exfalso
    have hperm := Traversal.order_perm horder
    have hmem : p ∈ order := hperm.symm.subset (List.mem_range.mpr hlt)
    have hn : order.Nodup := hperm.nodup_iff.mpr List.nodup_range
    rw [← hedge] at hp
    exact Nat.lt_irrefl _ ((Traversal.settled_order horder).idxOf_lt_of_transGen hn hmem hp).2

/-- Graphs without cycles in which graph inputs reach every node are those that can be sorted. -/
theorem sortedOrder_eq_ok_iff : (∃ order, g.sortedOrder = .ok order) ↔
    (∀ p, ¬ TransGen g.Feeds p p) ∧ ∀ p < g.size, g.FromInput p := by
  obtain ⟨readers, hreaders⟩ := exists_readers hr
  have hreached : Traversal.unreached (fun p => readers.getD p []) (List.range g.size) g.inputIds =
      [] ↔ ∀ p < g.size, g.FromInput p := by
    simp only [List.eq_nil_iff_forall_not_mem, mem_unreached_readers_iff hreaders, not_and, not_not]
  constructor
  · rintro ⟨order, ho⟩
    refine ⟨fun p hp => ?_, hreached.mp ?_⟩
    · obtain ⟨q, -, he⟩ := sortedOrder_of_cycle hr hp
      rw [ho] at he
      cases he
    · unfold sortedOrder at ho
      rw [hreaders, except_ok_bind] at ho
      dsimp only at ho
      split at ho
      · cases ho
      · split at ho
        · cases ho
        · next hnil => exact hnil
  · rintro ⟨hacyclic, hfrom⟩
    obtain ⟨order, horder⟩ := exists_order_of_acyclic hreaders hacyclic
    unfold sortedOrder
    rw [hreaders, except_ok_bind]
    dsimp only
    rw [horder, hreached.mpr hfrom]
    exact ⟨order, rfl⟩

omit hr in
/-- A node stands before those that read from it. -/
theorem idxOf_lt_of_sortedOrder {order : List NodeRef} (h : g.sortedOrder = .ok order)
    {p q : NodeRef} (hpq : g.Feeds p q) : order.idxOf p < order.idxOf q := by
  have hperm := sortedOrder_perm h
  obtain ⟨readers, hreaders, h⟩ := except_bind_eq_ok_iff.mp h
  dsimp only at h
  split at h
  · cases h
  rename_i hfound
  split at h
  · cases h
  cases h
  have hmem : p ∈ order := by
    obtain ⟨node, conn, -, -, hid⟩ := id hpq
    exact hperm.symm.subset (List.mem_range.mpr (List.findIdx?_eq_some_iff_getElem.mp hid).1)
  have hn : order.Nodup := hperm.nodup_iff.mpr List.nodup_range
  rw [← edge_readers hreaders] at hpq
  exact ((Traversal.settled_order hfound).idxOf_lt hn hmem hpq).2

end Sorting

end NodeGraph

end LayerGraph
