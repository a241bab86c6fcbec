import LayerGraph.Proofs.Network.Prepare

/-!
# Buffers of a prepared network

A tensor belongs to one output of one node. An output has a buffer of its own, or that of the input
whose buffer its node shares, so that every buffer is that of an output which stands above all that
share it.
-/

namespace LayerGraph

variable {α : Type} {g : NodeGraph (Node α)} {s : Store α} {batch : Nat}

/-- Output `k` of the node `q` is `y`. -/
def IsOutput (g : NodeGraph (Node α)) (q k : Nat) (y : Wire) : Prop :=
  ∃ b, g.nodes[q]? = some b ∧ b.tensors.outputs[k]? = some y

theorem IsOutput.unique {q k : Nat} {y y' : Wire} (h : IsOutput g q k y) (h' : IsOutput g q k y') :
    y = y' := by
  obtain ⟨b, hb, hy⟩ := h
  obtain ⟨b', hb', hy'⟩ := h'
  rw [hb] at hb'
  cases hb'
  rw [hy] at hy'
  cases hy'
  rfl

namespace Registered

variable (h : Registered g s batch g.order)
include h

theorem mem_order {q : Nat} {b : Node α} (hb : g.nodes[q]? = some b) : q ∈ g.order :=
  mem_order_of_node h.compiled.ordered.perm hb

theorem holds_of_node {q : Nat} {b : Node α} (hb : g.nodes[q]? = some b) : b.Holds s g.size :=
  h.holds q (h.mem_order hb) b hb

theorem linked_of_node {q : Nat} {b : Node α} (hb : g.nodes[q]? = some b) : Linked g q b :=
  h.linked q (h.mem_order hb) b hb

/-- No tensor belongs to two nodes. -/
theorem node_eq_of_owned {q q' : Nat} {b b' : Node α} (hb : g.nodes[q]? = some b)
    (hb' : g.nodes[q']? = some b') {id : TensorRef} (hid : id ∈ b.tensors.owned)
    (hid' : id ∈ b'.tensors.owned) : q = q' := by
  refine eq_of_mem_of_nodup_flatMap h.nodup (h.mem_order hb) (h.mem_order hb') (b := id) ?_ ?_
  · simpa only [hb, Option.map_some, Option.getD_some] using hid
  · simpa only [hb', Option.map_some, Option.getD_some] using hid'

theorem nodup_owned {q : Nat} {b : Node α} (hb : g.nodes[q]? = some b) : b.tensors.owned.Nodup := by
  have := (List.nodup_flatMap.mp h.nodup).1 q (h.mem_order hb)
  simpa only [hb, Option.map_some, Option.getD_some] using this

/-- No tensor belongs to two outputs. -/
theorem output_eq_of_owned {q q' k k' : Nat} {y y' : Wire} (hy : IsOutput g q k y)
    (hy' : IsOutput g q' k' y') (id : TensorRef) (hid : id ∈ y.owned) (hid' : id ∈ y'.owned) :
    q = q' ∧ k = k' := by
  obtain ⟨b, hb, hk⟩ := hy
  obtain ⟨b', hb', hk'⟩ := hy'
  have howned : ∀ {b : Node α} {k : Nat} {y : Wire}, b.tensors.outputs[k]? = some y → id ∈ y.owned →
      id ∈ b.tensors.owned := fun hk hid =>
    List.mem_append_left _ (List.mem_flatMap.mpr ⟨_, List.mem_of_getElem? hk, hid⟩)
  obtain rfl := h.node_eq_of_owned hb hb' (howned hk hid) (howned hk' hid')
  rw [hb] at hb'
  cases hb'
  refine ⟨rfl, ?_⟩
  by_contra hne
  have hpair := (List.nodup_flatMap.mp (List.nodup_append.mp (h.nodup_owned hb)).1).2
  obtain ⟨hi, rfl⟩ := List.getElem?_eq_some_iff.mp hk
  obtain ⟨hj, rfl⟩ := List.getElem?_eq_some_iff.mp hk'
  rcases Nat.lt_or_gt_of_ne hne with hlt | hlt
  · exact List.pairwise_iff_getElem.mp hpair _ _ hi hj hlt hid hid'
  · exact List.pairwise_iff_getElem.mp hpair _ _ hj hi hlt hid' hid

/-- What an input reads is an output of a producer. -/
theorem exists_producer {p i : Nat} {a : Node α} {x : Wire} (ha : g.nodes[p]? = some a)
    (hx : a.tensors.inputs[i]? = some x) : ∃ q k, ReadsSlot g p i q k ∧ IsOutput g q k x := by
  have hlinked := h.linked_of_node ha
  have hi : i < a.inputs.length := by
    rw [← hlinked.length]
    exact (List.getElem?_eq_some_iff.mp hx).1
  obtain ⟨q, k, hr⟩ := h.compiled.wired.resolved p a i _ ha (List.getElem?_eq_getElem hi)
  obtain ⟨b, hb⟩ := hr.producer h.compiled.wired.distinct
  obtain ⟨x', hx', hi'⟩ := hlinked.wire i q k b hr hb
  rw [hx] at hi'
  cases hi'
  exact ⟨q, k, hr, b, hb, hx'⟩

/-- An output has its own buffer, or that of the first input of its node. -/
theorem rootOf_output {q k : Nat} {b : Node α} {y : Wire} (hb : g.nodes[q]? = some b)
    (hy : b.tensors.outputs[k]? = some y) :
    s.rootOf y.value = y.value ∨ b.bufferUse ≠ .own ∧ ∃ x, b.tensors.inputs[0]? = some x ∧
      s.rootOf y.value = s.rootOf x.value := by
  have hout := (h.holds_of_node hb).outputs y (List.mem_of_getElem? hy)
  by_cases hown : b.bufferUse = .own
  · exact .inl (hout.own (.inl hown))
  cases hin : b.tensors.inputs with
  | nil => exact .inl (hout.own (.inr hin))
  | cons x xs => exact .inr ⟨hown, x, rfl, hout.shares hown x (by rw [hin]; rfl)⟩

/-- Every buffer is that of an output which does not stand below those that share it. -/
theorem exists_root {q k : Nat} {y : Wire} (hy : IsOutput g q k y) :
    ∃ q' k' y', IsOutput g q' k' y' ∧ place g q' ≤ place g q ∧ s.rootOf y.value = y'.value := by
  obtain ⟨b, hb, hk⟩ := hy
  induction hplace : place g q using Nat.strongRecOn generalizing q k y b with
  | ind bound ih =>
    rcases h.rootOf_output hb hk with hown | ⟨-, x, hx, hroot⟩
    · exact ⟨q, k, y, ⟨b, hb, hk⟩, by omega, hown⟩
    · obtain ⟨q₁, k₁, hr, b₁, hb₁, hk₁⟩ := h.exists_producer hb hx
      have hlt := h.compiled.ordered.before _ _ _ _ hr
      obtain ⟨q', k', y', hy', hle, hroot'⟩ := ih _ (by omega) b₁ hb₁ hk₁ rfl
      exact ⟨q', k', y', hy', by omega, hroot.trans hroot'⟩

end Registered

end LayerGraph
