import LayerGraph.Proofs.Network.Wiring
import LayerGraph.Proofs.NodeGraph.Order

/-!
# Places and turns

In a sorted graph every node has a place, and producers stand before their readers. Nodes that take
part in the backward pass have their turns in the opposite order, and each turn is two steps long.
-/

namespace LayerGraph

variable {α : Type}

/-- Where a node stands in the sorted order. -/
def place (g : NodeGraph (Node α)) (id : NodeRef) : Nat := g.order.idxOf id

structure Ordered (g : NodeGraph (Node α)) : Prop where
  perm : g.order.Perm (List.range g.size)
  before : ∀ r i q k, ReadsSlot g r i q k → place g q < place g r

variable {g : NodeGraph (Node α)}

section Perm

variable (h : g.order.Perm (List.range g.size))
include h

theorem nodup_order : g.order.Nodup := h.nodup_iff.mpr List.nodup_range

theorem mem_order_iff {p : Nat} : p ∈ g.order ↔ p < g.size := by
  rw [h.mem_iff, List.mem_range]

theorem length_order : g.order.length = g.size := by simpa using h.length_eq

theorem mem_order_of_node {p : Nat} {a : Node α} (ha : g.nodes[p]? = some a) : p ∈ g.order :=
  (mem_order_iff h).mpr (List.getElem?_eq_some_iff.mp ha).1

theorem place_lt {p : Nat} {a : Node α} (ha : g.nodes[p]? = some a) : place g p < g.size := by
  rw [← length_order h]
  exact List.idxOf_lt_length_of_mem (mem_order_of_node h ha)

theorem place_getElem {i : Nat} (hi : i < g.order.length) : place g g.order[i] = i :=
  (nodup_order h).idxOf_getElem i hi

omit h in
theorem place_inj {p q : Nat} (hp : p ∈ g.order) (heq : place g p = place g q) : p = q := by
  have hlt : g.order.idxOf p < g.order.length := List.idxOf_lt_length_of_mem hp
  have hq : q ∈ g.order := List.idxOf_lt_length_iff.mp (by unfold place at heq; omega)
  rw [← List.getElem_idxOf hlt, ← List.getElem_idxOf (List.idxOf_lt_length_of_mem hq)]
  congr 1

theorem pairwise_place : g.order.Pairwise fun p q => place g p < place g q := by
  refine List.pairwise_iff_getElem.mpr fun i j hi hj hij => ?_
  rw [place_getElem h hi, place_getElem h hj]
  exact hij

/-- Where the nodes stand that come before and after a node in reverse order. -/
theorem place_lt_of_split {done rest : List NodeRef} {p : NodeRef}
    (hsplit : g.order.reverse = done ++ p :: rest) :
    (∀ q ∈ done, place g p < place g q) ∧ ∀ q ∈ rest, place g q < place g p := by
  have hpw := List.pairwise_reverse.mpr (pairwise_place h)
  rw [hsplit] at hpw
  obtain ⟨-, hright, hcross⟩ := List.pairwise_append.mp hpw
  exact ⟨fun q hq => hcross q hq p (by simp), (List.pairwise_cons.mp hright).1⟩

end Perm

namespace Network

/-- What `checkOrder` finds is that the graph is ordered. -/
theorem ordered_of_checkOrder {n : Network α} {u : Unit}
    (hp : n.graph.order.Perm (List.range n.graph.size)) (h : checkOrder n = .ok u) :
    Ordered n.graph := by
  refine ⟨hp, fun r i q k hr => ?_⟩
  unfold checkOrder at h
  dsimp only at h
  split at h
  · cases h
  obtain ⟨_, hall, -⟩ := except_bind_eq_ok_iff.mp h
  obtain ⟨a, -, ha, -⟩ := id hr
  have hmem := mem_order_of_node hp ha
  have hlt := List.idxOf_lt_length_of_mem hmem
  have hpair : (r, place n.graph r) ∈ n.graph.order.zipIdx := by
    rw [List.mem_zipIdx_iff_getElem?]
    simp [place, hlt]
  have hcheck := except_forM_eq_ok hall _ hpair
  obtain ⟨producers, hps, hcheck⟩ := except_bind_eq_ok_iff.mp hcheck
  have hq := except_forM_eq_ok hcheck q ((mem_producers_iff hps).mpr ⟨i, k, hr⟩)
  split at hq
  · next hlt => exact hlt
  · cases hq

theorem mem_backwardIds_iff (hp : g.order.Perm (List.range g.size)) {p : Nat} :
    p ∈ backwardIds g ↔ ∃ a, g.nodes[p]? = some a ∧ a.participates = true := by
  unfold backwardIds
  rw [List.mem_filter, List.mem_reverse]
  constructor
  · rintro ⟨hmem, hpart⟩
    cases ha : g.nodes[p]? with
    | none => simp [ha] at hpart
    | some a => exact ⟨a, rfl, by simpa [ha] using hpart⟩
  · rintro ⟨a, ha, hpart⟩
    exact ⟨mem_order_of_node hp ha, by simp [ha, hpart]⟩

theorem pairwise_backwardIds (hp : g.order.Perm (List.range g.size)) :
    (backwardIds g).Pairwise fun p q => place g q < place g p :=
  ((List.pairwise_reverse.mpr (pairwise_place hp)).sublist List.filter_sublist)

@[simp] theorem scheduleOf_forward (g : NodeGraph (Node α)) (p : NodeRef) :
    (scheduleOf g p).forward = place g p := by
  unfold scheduleOf
  split <;> rfl

/-- Exactly the nodes that take part have a turn. -/
theorem exists_turn_iff (hp : g.order.Perm (List.range g.size)) {p : Nat} {a : Node α}
    (ha : g.nodes[p]? = some a) :
    a.participates = true ↔ ∃ t, (scheduleOf g p).backward = some t := by
  have hmem : a.participates = true ↔ p ∈ backwardIds g := by
    rw [mem_backwardIds_iff hp]
    exact ⟨fun h => ⟨a, ha, h⟩, fun ⟨b, hb, h⟩ => by rw [ha] at hb; cases hb; exact h⟩
  rw [hmem]
  unfold scheduleOf
  split
  · next rank hrank =>
    refine ⟨fun _ => ⟨_, rfl⟩, fun _ => ?_⟩
    have := List.findIdx?_eq_some_iff_getElem.mp hrank
    obtain ⟨hlt, heq, -⟩ := this
    have : (backwardIds g)[rank] = p := by simpa using heq
    exact this ▸ List.getElem_mem hlt
  · next hnone =>
    refine ⟨fun h => ?_, fun ⟨t, ht⟩ => by cases ht⟩
    rw [List.idxOf?_eq_none_iff] at hnone
    exact absurd h hnone

theorem turn_eq {p : Nat} {t : BackwardTurn} (h : (scheduleOf g p).backward = some t) :
    ∃ rank, (backwardIds g)[rank]? = some p ∧ t = ⟨rank, g.size + 2 * rank⟩ := by
  unfold scheduleOf at h
  split at h
  · next rank hrank =>
    obtain ⟨hlt, heq, -⟩ := List.findIdx?_eq_some_iff_getElem.mp hrank
    have hp : (backwardIds g)[rank] = p := by simpa using heq
    cases h
    exact ⟨rank, by simp [hlt, hp], rfl⟩
  · cases h

theorem le_gradientStep {p : Nat} {t : BackwardTurn} (h : (scheduleOf g p).backward = some t) :
    g.size ≤ t.gradientStep := by
  obtain ⟨rank, -, rfl⟩ := turn_eq h
  exact Nat.le_add_right _ _

theorem derivativeStep_le {p : Nat} {t : BackwardTurn} (h : (scheduleOf g p).backward = some t) :
    t.gradientStep + 1 ≤ lastStep g := by
  obtain ⟨rank, hrank, rfl⟩ := turn_eq h
  have hlt := (List.getElem?_eq_some_iff.mp hrank).1
  unfold lastStep
  split
  · next hempty =>
    simp only [List.isEmpty_iff] at hempty
    simp [hempty] at hlt
  · simp only
    omega

/-- The later a node stands, the earlier is its turn. -/
theorem turn_before (hp : g.order.Perm (List.range g.size)) {p q : Nat} {t u : BackwardTurn}
    (ht : (scheduleOf g p).backward = some t) (hu : (scheduleOf g q).backward = some u)
    (hlt : place g p < place g q) : u.gradientStep + 2 ≤ t.gradientStep := by
  obtain ⟨rank, hrank, rfl⟩ := turn_eq ht
  obtain ⟨rank', hrank', rfl⟩ := turn_eq hu
  obtain ⟨hi, hi'⟩ := List.getElem?_eq_some_iff.mp hrank
  obtain ⟨hj, hj'⟩ := List.getElem?_eq_some_iff.mp hrank'
  have hpair := List.pairwise_iff_getElem.mp (pairwise_backwardIds hp)
  rcases Nat.lt_trichotomy rank' rank with h | h | h
  · simp only
    omega
  · subst h
    rw [hi'] at hj'
    subst hj'
    exact absurd hlt (Nat.lt_irrefl _)
  · have := hpair rank rank' hi hj h
    rw [hi', hj'] at this
    omega

theorem forward_le_lastStep (hp : g.order.Perm (List.range g.size)) {p : Nat} {a : Node α}
    (ha : g.nodes[p]? = some a) : place g p ≤ lastStep g := by
  have hlt := place_lt hp ha
  unfold lastStep
  split
  · omega
  · next hne =>
    have : 0 < (backwardIds g).length := List.length_pos_iff.mpr (by simpa using hne)
    omega

end Network

end LayerGraph
