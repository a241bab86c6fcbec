import LayerGraph.Proofs.Lowering.Slots
import LayerGraph.Proofs.Network.Buffers
import LayerGraph.Proofs.Network.Lowered
import LayerGraph.Proofs.Network.Prepared
import LayerGraph.Single

/-!
# Slots that there are

Every node but a fan-out has one output. That an input names another slot than the first of such a
node comes out when the network is prepared, as the slot is looked up among the outputs of its node.
It does not come out where fusing has swallowed the input.
-/

namespace LayerGraph.Network

variable {α : Type} {n n' : Network α} {a b p : Node α} {c : Connection}

/-- Only a fan-out has more outputs than one. -/
theorem length_outputs {s : Store α} (h : Fits s b.layer b.tensors) (hlayer : b.layer ≠ .multiout) :
    b.tensors.outputs.length = 1 := by
  generalize b.layer = layer at h hlayer
  generalize b.tensors = handles at h
  cases h with
  | multiout => exact absurd rfl hlayer
  | input | fullyConnected | activation | addition | identity | loss => rfl

theorem eq_zero_of_outputs {s : Store α} {k : Nat} {y : Wire} (h : Fits s b.layer b.tensors)
    (hlayer : b.layer ≠ .multiout) (hk : b.tensors.outputs[k]? = some y) : k = 0 := by
  have hone := length_outputs h hlayer
  have hlt := (List.getElem?_eq_some_iff.mp hk).1
  omega

/-- Preparing leaves the design of a graph. -/
theorem settling_of_prepare {inputs labels : List String} {u : Unit} (h : Drawn n)
    (hp : prepare inputs labels n = .ok u n') : Settling n.graph n'.graph := by
  obtain ⟨n₁, hall, rfl⟩ := prepareAll_of_prepare hp
  have hu := keeps_unsettled_prepareAll inputs labels n (unsettled_refl h)
  rw [Action.after_of_ok hall] at hu
  exact hu.settling

/-- In a prepared network, nobody reads a later slot of a node that is no fan-out. -/
theorem Prepared.eq_zero_of_reads {asks : (Shape → List Shape) → Prop} (h : Prepared asks n)
    {r : Connection} {k : Nat} (hb : b ∈ n.graph.nodes) (hlayer : b.layer ≠ .multiout)
    (hread : Lowering.Reads n.graph.nodes r ⟨b.name, k⟩) : k = 0 := by
  obtain ⟨a, ha, hname, hinput⟩ := id hread
  obtain ⟨i, hi⟩ := List.getElem?_of_mem ha
  obtain ⟨q, hq⟩ := List.getElem?_of_mem hb
  have hslot : ReadsSlot n.graph i r.index q k :=
    (readsSlot_iff_reads n.graph.order h.registered.compiled.wired.distinct hi hq).mpr
      (by rw [hname]; exact hread)
  obtain ⟨x, hx, -⟩ := (h.registered.linked_of_node hi).wire _ _ _ _ hslot hq
  exact eq_zero_of_outputs (h.registered.holds_of_node hq).fits hlayer hx

variable [Zero α]

/-- Where a network of shipped layers compiles and can be prepared, an input that has named another
slot than the first of a node that is no fan-out is one that fusing has swallowed. -/
theorem slot_zero_or_swallowed {loss : Option String} {inputs labels : List String}
    {n₁ n₂ : Network α} {u u' : Unit} (hdraft : Draft n) (hd : n.graph.Distinct)
    (hrules : n.fusionRules = FusionRule.defaults) (hc : compile loss n = .ok u n₁)
    (hp : prepare inputs labels n₁ = .ok u' n₂) (ha : a ∈ n.graph.nodes) (hinput : c ∈ a.inputs)
    (hthere : p ∈ n.graph.nodes) (hname : p.name = c.name) (hlayer : p.layer ≠ .multiout) :
    c.index = 0 ∨ Lowering.Swallowed n.graph.nodes a c := by
  by_cases hk : c.index = 0
  · exact .inl hk
  obtain ⟨_, lowered, hlower, hd', hwires, hident⟩ := nodes_of_compile hc
  rw [hrules] at hlower
  refine .inr ((Lowering.reads_or_swallowed_of_lower hd (fun a ha => (hdraft.plain a ha).1) hlower
      hd' ha hinput hthere hname hlayer hk).resolve_left ?_)
  rintro ⟨r, b, hb, hread, hb'⟩
  have hdrawn := drawn_of_compile hdraft hc
  have hprepared : Prepared (fun _ => True) n₂ := prepared_of_prepare hdrawn hp
  have hdesign := (settling_of_prepare hdrawn hp).design
  have hwires₂ : n₂.graph.nodes.map wires = lowered.map wires :=
    (wires_of_design hdesign).trans hwires
  have hlayers : n₂.graph.nodes.map (fun a => (a.name, a.layer)) = lowered.map fun a =>
      (a.name, a.layer) := by
    have hfirst := congrArg (List.map fun d => (d.1.1, d.2.1)) hdesign
    have hsecond := congrArg (List.map fun d => (d.1, d.2.1)) hident
    simp only [List.map_map] at hfirst hsecond
    exact hfirst.trans hsecond
  obtain ⟨b₂, hb₂, heq⟩ := List.mem_map.mp (hlayers ▸ List.mem_map_of_mem hb)
  obtain ⟨hbn, hbl⟩ := Prod.mk.inj heq
  rw [← hbn] at hread
  exact hk (hprepared.eq_zero_of_reads hb₂ (hbl ▸ hb')
    ((Lowering.reads_iff_of_wires hwires₂).mpr hread))

/-- A cross entropy that reads the second slot of a softmax. -/
def misread : Network Float32 :=
  { ofSettings ⟨1, true, none, FusionRule.defaults⟩ with
    graph := ⟨[.ofLayer (.input 1) "x" [], .ofLayer (.activation .softmax) "a" [⟨"x", 0⟩],
      .ofLayer (.loss .cross) "l" [⟨"a", 1⟩]], []⟩ }

/-- What compiling makes of it: the loss stands for both, and reads what the softmax has read. -/
def misreadCompiled : Network Float32 :=
  { misread with
    graph := ⟨[{ Node.ofLayer (.input 1) "x" [] with outputs := [[⟨"l", 0⟩]] },
      { Node.ofLayer (.loss .crossSoftmax) "l" [⟨"x", 0⟩] with schedule := .oneWay 1 }], [0, 1]⟩
    store := (Store.empty true none).setBounds 2 1
    isCompiled := true }

theorem compile_misread : compile none misread = .ok () misreadCompiled := by cbv

def misreadPrepared : Network Float32 := (prepare [] []).after misreadCompiled

theorem prepare_misread : prepare [] [] misreadCompiled = .ok () misreadPrepared :=
  Action.eq_ok_of_endsWell (by decide +kernel)

theorem draft_misread : Draft misread :=
  ⟨rfl, rfl, by simp [Lowering.AllPlain, misread, Node.IsPlain, Node.ofLayer, Layer.isShipped],
    Store.isBlank_empty _ _, by decide⟩

theorem misread_swallowed : misread.graph.Distinct ∧ misread.fusionRules = FusionRule.defaults ∧
    compile none misread = .ok () misreadCompiled ∧
    prepare [] [] misreadCompiled = .ok () misreadPrepared ∧
    (1 = 0 ∨ Lowering.Swallowed misread.graph.nodes (.ofLayer (.loss .cross) "l" [⟨"a", 1⟩])
      ⟨"a", 1⟩) := by
  have hzero := slot_zero_or_swallowed draft_misread (by decide) rfl compile_misread prepare_misread
    (a := .ofLayer (.loss .cross) "l" [⟨"a", 1⟩]) (p :=
      .ofLayer (.activation .softmax) "a" [⟨"x", 0⟩]) (c := ⟨"a", 1⟩)
    (by simp [misread]) (by simp [Node.ofLayer]) (by simp [misread]) rfl nofun
  exact ⟨by decide, rfl, compile_misread, prepare_misread, hzero⟩

/-- Nobody is told that a softmax has no second slot. -/
theorem misread_accepted : compile none misread = .ok () misreadCompiled ∧
    prepare [] [] misreadCompiled = .ok () misreadPrepared ∧
    ∃ l ∈ misread.graph.nodes, ∃ a ∈ misread.graph.nodes, ∃ c ∈ l.inputs,
      c.name = a.name ∧ a.layer ≠ .multiout ∧ c.index ≠ 0 := by
  refine ⟨compile_misread, prepare_misread, .ofLayer (.loss .cross) "l" [⟨"a", 1⟩], by
    simp [misread],
    .ofLayer (.activation .softmax) "a" [⟨"x", 0⟩], by simp [misread],
      ⟨"a", 1⟩, by simp [Node.ofLayer], rfl, nofun, ?_⟩
  exact Nat.one_ne_zero

end LayerGraph.Network
