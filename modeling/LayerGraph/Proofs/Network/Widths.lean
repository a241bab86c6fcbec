import LayerGraph.Proofs.Lowering.Row
import LayerGraph.Proofs.Network.Preparable
import LayerGraph.Proofs.Network.Slots

/-!
# Widths along a row

The rows of a node's outputs are as wide as those of its input, unless its layer says how wide they
are. So the width at the end of a row of nodes follows from its layers.
-/

namespace LayerGraph

variable {α : Type}

/-- How wide the rows of a layer's outputs are behind an input of the given width. -/
def Layer.widthFrom (width : Nat) : Layer α → Nat
  | .input width => width
  | .fullyConnected units _ _ => units
  | _ => width

namespace Lowering

variable {nodes xs : List (Node α)} {l : Node α} {c' : List Connection}

/-- Of nodes in a row the last alone is a terminal. -/
theorem Row.filter_isTerminal (h : Row [] (xs ++ [l]) c') (hd : ((xs ++ [l]).map (·.name)).Nodup)
    (hl : ∀ a ∈ xs ++ [l], ∀ k, k < a.outputs.length ↔ ∃ r, Reads (xs ++ [l]) r ⟨a.name, k⟩) :
    (xs ++ [l]).filter (·.isTerminal) = [l] := by
  obtain ⟨hfront, rfl⟩ := row_concat_iff.mp h
  have hall := h.connections_append
  rw [List.nil_append, List.map_append, List.map_singleton, List.append_cancel_right_eq] at hall
  have hread : ∀ a ∈ xs ++ [l], a.isTerminal = true ↔ a.name ∉ xs.map (·.name) := by
    intro a ha
    rw [isTerminal_iff (hl a ha), ← not_exists]
    refine not_congr ⟨?_, fun hmem => ?_⟩
    · rintro ⟨q, i, k, hfeeds⟩
      have hc := mem_connections_iff.mpr ⟨_, hfeeds⟩
      rw [hall] at hc
      obtain ⟨b, hb, heq⟩ := List.mem_map.mp hc
      exact List.mem_map.mpr ⟨b, hb, (Connection.mk.inj heq).1⟩
    · obtain ⟨b, hb, hname⟩ := List.mem_map.mp hmem
      have hc : (⟨a.name, 0⟩ : Connection) ∈ connections (xs ++ [l]) := by
        rw [hall, ← hname]
        exact List.mem_map_of_mem hb
      obtain ⟨r, hfeeds⟩ := mem_connections_iff.mp hc
      exact ⟨r.name, feeds_of_reads hfeeds⟩
  rw [List.map_append, List.nodup_append] at hd
  rw [List.filter_append, List.filter_eq_nil_iff.mpr, List.nil_append, List.filter_eq_self.mpr]
  · intro a ha
    obtain rfl := List.mem_singleton.mp ha
    exact (hread a (by simp)).mpr fun hmem => hd.2.2 _ hmem a.name (by simp) rfl
  · exact fun a ha hterminal => (hread a (List.mem_append_left _ ha)).mp hterminal
      (List.mem_map_of_mem ha)

end Lowering

namespace Network

open Lowering (Row)

variable {n : Network α} {a : Node α} {asks : (Shape → List Shape) → Prop} {width : Nat}

/-- The slot that is named holds rows of this width. -/
def Carries (n : Network α) (c : Connection) (width : Nat) : Prop :=
  ∃ b ∈ n.graph.nodes, b.name = c.name ∧ ∃ y, b.tensors.outputs[c.index]? = some y ∧
    n.store.WireFits y width

/-- A node gives rows of the width that its layer makes of what it reads. -/
theorem Prepared.carries (h : Prepared asks n) (ha : a ∈ n.graph.nodes)
    (hin : ∀ c ∈ a.inputs, Carries n c width) :
    Carries n ⟨a.name, 0⟩ (a.layer.widthFrom width) := by
  have hd := h.registered.compiled.wired.distinct
  obtain ⟨p, hp⟩ := List.getElem?_of_mem ha
  have hlinked := h.registered.linked_of_node hp
  -- The first of the handles is that of the slot that is read.
  have hfirst : ∀ x, a.tensors.inputs[0]? = some x → n.store.WireFits x width := by
    intro x hx
    have hlt : 0 < a.inputs.length := hlinked.length ▸ (List.getElem?_eq_some_iff.mp hx).1
    have hc : a.inputs[0]? = some a.inputs[0] := List.getElem?_eq_getElem hlt
    obtain ⟨b, hb, hname, y, hy, hwidth⟩ := hin _ (List.getElem_mem hlt)
    obtain ⟨q, hq⟩ := List.getElem?_of_mem hb
    have hslot : ReadsSlot n.graph p 0 q a.inputs[0].index :=
      (readsSlot_iff_reads n.graph.order hd hp hq).mpr ⟨a, ha, rfl, by rw [hc, hname]⟩
    obtain ⟨x', hx', hi⟩ := hlinked.wire _ _ _ _ hslot hq
    rw [hy] at hx'
    rw [hx] at hi
    cases hx'
    cases hi
    exact hwidth
  refine ⟨a, ha, rfl, ?_⟩
  have hfits := (h.registered.holds_of_node hp).fits
  generalize a.tensors = handles at hfits hfirst ⊢
  generalize a.layer = layer at hfits ⊢
  cases hfits with
  | input out | fullyConnected _ out => exact ⟨_, rfl, out⟩
  | activation ins out | identity ins out | loss _ ins out =>
    obtain rfl := ins.value.unique (hfirst _ rfl).value
    exact ⟨_, rfl, out⟩
  | addition ins out =>
    obtain rfl := (ins _ (List.mem_cons_self ..)).value.unique (hfirst _ rfl).value
    exact ⟨_, rfl, out⟩
  | multiout ins out =>
    obtain rfl := ins.value.unique (hfirst _ rfl).value
    exact ⟨_, rfl, out _ (List.mem_cons_self ..)⟩

/-- What a row of nodes gives. -/
theorem Prepared.carries_of_row (h : Prepared asks n) {xs : List (Node α)} {c c' : List Connection}
    (hrow : Row c xs c') (hsub : xs ⊆ n.graph.nodes) (hin : ∀ d ∈ c, Carries n d width) :
    ∀ d ∈ c', Carries n d ((xs.map (·.layer)).foldl Layer.widthFrom width) := by
  induction hrow generalizing width with
  | nil c => exact hin
  | @cons c c' a rest hinputs _ ih =>
    subst hinputs
    refine ih (fun b hb => hsub (List.mem_cons_of_mem a hb)) fun d hd => ?_
    obtain rfl := List.mem_singleton.mp hd
    exact h.carries (hsub (List.mem_cons_self ..)) hin

/-- The only output of a node has the shape of the whole batch. -/
theorem Prepared.outputs_eq (h : Prepared asks n) (ha : a ∈ n.graph.nodes)
    (hlayer : a.layer ≠ .multiout) (hc : Carries n ⟨a.name, 0⟩ width) : ∃ y,
      a.tensors.outputs = [y] ∧ n.store.shape y.value = .ok ⟨n.batchSize, width⟩ := by
  obtain ⟨b, hb, hname, y, hy, hwidth⟩ := hc
  obtain rfl : b = a := Lowering.node_eq_of_name h.registered.compiled.wired.distinct hb ha hname
  obtain ⟨p, hp⟩ := List.getElem?_of_mem hb
  obtain ⟨y', houtputs⟩ :=
    List.length_eq_one_iff.mp (length_outputs (h.registered.holds_of_node hp).fits hlayer)
  rw [houtputs, List.getElem?_cons_zero, Option.some.injEq] at hy
  subst hy
  exact ⟨y', houtputs, hwidth.value.shape h.registered.registry⟩

theorem batchSize_of_prepare {inputs labels : List String} {n' : Network α} {u : Unit} (h : Drawn n)
    (hp : prepare inputs labels n = .ok u n') : n'.batchSize = n.batchSize := by
  obtain ⟨n₁, hall, rfl⟩ := prepareAll_of_prepare hp
  have hu := keeps_unsettled_prepareAll inputs labels n (unsettled_refl h)
  rw [Action.after_of_ok hall] at hu
  exact hu.batch

theorem batchSize_of_compile [Zero α] {loss : Option String} {n' : Network α} {u : Unit}
    (hc : compile loss n = .ok u n') : n'.batchSize = n.batchSize := by
  obtain ⟨_, _, n₁, _, _, _, _, hlower, -, -, -, -, rfl, rfl⟩ := stages_of_compile hc
  obtain ⟨-, -, -, hn₁⟩ := lowered_of_lowerNodes hlower
  change n₁.batchSize = _
  rw [hn₁]

end Network

end LayerGraph
