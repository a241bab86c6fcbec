import LayerGraph.Proofs.Network.Accepted

/-!
# Compiling keeps the wiring

Once the nodes are lowered, compiling only orders them and writes down what it decides about them.
So a compiled graph has the wiring that lowering has given it.
-/

namespace LayerGraph

variable {α : Type}

namespace Lowering

variable {nodes lowered lowered' : List (Node α)} {fans : List Connection} {losses : List (Node α)}

theorem Leads.mono {r c : Connection} (h : Leads nodes fans r c)
    (hreads : ∀ r c, Reads nodes r c → Reads lowered r c) : Leads lowered fans r c := by
  induction h with
  | ends reads stops => exact .ends (hreads _ _ reads) stops
  | passes reads through _ ih => exact .passes (hreads _ _ reads) through ih

theorem reads_iff_of_wires (h : lowered'.map wires = lowered.map wires) {r c : Connection} :
    Reads lowered' r c ↔ Reads lowered r c := by
  have hreads : ∀ {xs ys : List (Node α)}, ys.map wires = xs.map wires → Reads ys r c →
      Reads xs r c := by
    rintro xs ys h ⟨a, ha, hname, hc⟩
    obtain ⟨i, hi⟩ := List.getElem?_of_mem ha
    obtain ⟨b, hb, heq⟩ := getElem?_of_map_eq h hi
    simp only [wires, Prod.mk.injEq] at heq
    exact ⟨b, List.mem_of_getElem? hb, heq.1.trans hname, by rw [heq.2.1]; exact hc⟩
  exact ⟨hreads h, hreads h.symm⟩

theorem Rewired.congr [Zero α] (h : Rewired nodes lowered fans losses)
    (hwires : lowered'.map wires = lowered.map wires)
    (hident : lowered'.map ident = lowered.map ident) : Rewired nodes lowered' fans losses := by
  have hreads := fun {r c} => reads_iff_of_wires hwires (r := r) (c := c)
  have hnames : lowered'.map (·.name) = lowered.map (·.name) := by
    simpa [wires, Function.comp_def] using congrArg (List.map (·.1)) hwires
  have hmem : ∀ a ∈ lowered', ∃ b ∈ lowered, a.name = b.name ∧ a.outputs = b.outputs := by
    intro a ha
    obtain ⟨i, hi⟩ := List.getElem?_of_mem ha
    obtain ⟨b, hb, heq⟩ := getElem?_of_map_eq hwires hi
    simp only [wires, Prod.mk.injEq] at heq
    exact ⟨b, List.mem_of_getElem? hb, heq.1.symm, heq.2.2.symm⟩
  refine ⟨hnames ▸ h.distinct, hident ▸ h.members, h.renamed, h.renaming_injOn, fun a ha i d => ?_,
    fun p hp i c => hreads.trans (h.activation p hp i c), fun s hs i c =>
      hreads.trans (h.fanOut s hs i c),
    ?_, fun r c hr => hnames ▸ h.resolved r c (hreads.mp hr), fun a ha => ?_, fun a ha k r => ?_⟩
  · rw [← h.leads a ha]
    exact ⟨fun hl => hl.mono fun _ _ => hreads.mp, fun hl => hl.mono fun _ _ => hreads.mpr⟩
  · rcases h.loss with hnone | ⟨kind, name, terminal, heq, hinput, honly⟩
    · exact .inl hnone
    · refine .inr ⟨kind, name, terminal, heq, fun i c => hreads.trans (hinput i c),
        fun a ha hne => ?_⟩
      obtain ⟨b, hb, hname, -⟩ := hmem a ha
      simp only [hreads, hname]
      exact honly b hb (hname ▸ hne)
  · obtain ⟨b, hb, hname, hout⟩ := hmem a ha
    simp only [hreads, hname, Node.outputCount, hout]
    exact h.separate b hb
  · obtain ⟨b, hb, hname, hout⟩ := hmem a ha
    simp only [hreads, hname, hout]
    exact h.inverse b hb k r

end Lowering

namespace Network

variable {n n' : Network α}

variable [Zero α]

/-- A compiled graph consists of the lowered nodes, but for what is decided about them. -/
theorem nodes_of_compile {loss : Option String} {u : Unit} (h : compile loss n = .ok u n') :
    ∃ u' nodes, Lowering.lower loss n.fusionRules n.graph.nodes = .ok u' nodes ∧
      (nodes.map (·.name)).Nodup ∧ n'.graph.nodes.map wires = nodes.map wires ∧
      n'.graph.nodes.map Lowering.ident = nodes.map Lowering.ident := by
  obtain ⟨u₁, u₂, n₁, n₂, g₂, g₃, g₄, hlower, hsort, -, hmark, hdecide, rfl, rfl⟩ :=
    stages_of_compile h
  obtain ⟨u', hl, hd, -⟩ := lowered_of_lowerNodes hlower
  obtain ⟨hnodes, -⟩ := nodes_of_sort hsort
  have hmap : ∀ {β : Type} {f : Node α → β}, (∀ a use, f { a with bufferUse := use } = f a) →
      (∀ a s, f { a with schedule := s } = f a) → (∀ a, f (unmarked a) = f a) →
      g₄.nodes.map f = n₁.graph.nodes.map f := by
    intro β f huse hschedule hmarks
    have h₄ : g₄.nodes.map f = (scheduleAll g₃).nodes.map f := by
      split at hdecide
      · exact map_decideAll huse hdecide
      · cases hdecide
        rfl
    have h₃ : g₃.nodes.map f = g₂.nodes.map f := by
      have heq := congrArg (List.map f) (nodes_of_markBackward hmark)
      have hsame : f ∘ unmarked = f := funext hmarks
      rwa [List.map_map, List.map_map, hsame] at heq
    rw [h₄, map_scheduleAll hschedule, h₃, hnodes]
  exact ⟨u', n₁.graph.nodes, hl, hd, hmap (fun _ _ => rfl) (fun _ _ => rfl) fun _ => rfl,
    hmap (fun _ _ => rfl) (fun _ _ => rfl) fun _ => rfl⟩

/-- Compiling without fusion rules keeps the wiring: every node is there with its layer, every input
leads to the slot it has named or to the activation that stands for it, what is added are
activations, fan-out nodes and at most one loss, each slot has one reader, and the outputs list the
readers. -/
theorem rewired_of_compile {loss : Option String} {u : Unit} (hrules : n.fusionRules = [])
    (hresolved : Lowering.Resolved n.graph.nodes) (h : compile loss n = .ok u n') :
    ∃ fans losses, Lowering.Rewired n.graph.nodes n'.graph.nodes fans losses := by
  obtain ⟨u', nodes, hlower, hd, hwires, hident⟩ := nodes_of_compile h
  rw [hrules] at hlower
  obtain ⟨fans, losses, hrewired⟩ := Lowering.rewired_of_lower hresolved hd hlower
  exact ⟨fans, losses, hrewired.congr hwires hident⟩

theorem fork_rewired : ∃ n', compile none fork = .ok () n' ∧
    ∃ fans losses, Lowering.Rewired fork.graph.nodes n'.graph.nodes fans losses := by
  obtain ⟨n', h⟩ := exists_compile (n := fork) rfl (by decide) (by decide) (by decide) (by decide)
    (by decide) fork_acyclic fork_reachable fork_lowerable
  exact ⟨n', h, rewired_of_compile rfl (by decide) h⟩

end Network

end LayerGraph
