import LayerGraph.Proofs.Network.Buffers
import LayerGraph.Proofs.Network.Runs
import LayerGraph.Proofs.Store.Frame

/-!
# Networks while they run

A network that runs keeps the nodes that it was prepared with, but for the losses that they find,
and its store changes only in what it holds.
-/

namespace LayerGraph

variable {α : Type}

theorem Store.SameLayout.extends {s s' : Store α} (h : s.SameLayout s') : s.Extends s' where
  entry id e he := ⟨e, by rw [h.entries]; exact he, .refl e⟩
  weight w r hr := ⟨r, by rw [h.weights]; exact hr, rfl, rfl, fun _ hg => hg⟩
  maxStep := h.maxStep

/-- What is written to a store does not change what is registered. -/
theorem Registered.sameLayout {g : NodeGraph (Node α)} {s s' : Store α} {batch : Nat}
    {done : List NodeRef} (h : Registered g s batch done) (hl : s.SameLayout s') :
    Registered g s' batch done where
  compiled := h.compiled
  registry := hl.registry h.registry
  collected := hl.collected h.collected
  holds p hp a ha := (h.holds p hp a ha).later hl.extends
  linked := h.linked
  nodup := h.nodup
  bound id hid := by
    rw [hl.entries]
    exact h.bound id hid
  forwardSteps := hl.forwardSteps.trans h.forwardSteps
  maxStep := hl.maxStep.trans h.maxStep

namespace Network

variable {n n' : Network α} {g : NodeGraph (Node α)} {mode : RunMode} {batch : Nat}
  {asks : (Shape → List Shape) → Prop} {p : NodeRef} {a b : Node α} {u : Unit}

theorem runHook_eq_ok {hook : Layer α → Hook α Unit} (h : runHook p hook n = .ok u n') :
    ∃ a t, n.graph.nodes[p]? = some a ∧ hook a.layer a.view ⟨n.store, a.loss, n.notes⟩ = .ok u t ∧
      n' = n.keep p t := by
  obtain ⟨a, _, hread, h⟩ := Action.bind_eq_ok_iff.mp h
  obtain ⟨ha, rfl⟩ := Action.read_eq_ok_iff.mp hread
  obtain ⟨t, ht, rfl⟩ := Action.focus_eq_ok_iff.mp h
  exact ⟨a, t, node_eq_ok_iff.mp ha, ht, rfl⟩

/-- What a hook leaves behind has the same nodes but for a loss. -/
theorem core_keep (n : Network α) (p : NodeRef) (t : HookState α) :
    (n.keep p t).graph.nodes.map Node.core = n.graph.nodes.map Node.core :=
  map_modify_eq (f := Node.core) (fun _ => by rfl) _ _

/-- A running network whose nodes are those of `g`, with what they have registered. -/
structure Stage (mode : RunMode) (g : NodeGraph (Node α)) (batch : Nat) (n : Network α) : Prop where
  nodes : n.graph.nodes.map Node.core = g.nodes.map Node.core
  registered : Registered g n.store batch g.order
  placed : n.store.Placed mode

theorem Ready.stage (h : Ready asks mode n) : Stage mode n.graph n.batchSize n :=
  ⟨rfl, h.prepared.registered, h.placed⟩

namespace Stage

variable (h : Stage mode g batch n)
include h

theorem later (hl : n.store.SameLayout n'.store)
    (hnodes : n'.graph.nodes.map Node.core = n.graph.nodes.map Node.core) : Stage mode g batch n' :=
  ⟨hnodes.trans h.nodes, h.registered.sameLayout hl, hl.placed h.placed⟩

theorem core (ha : g.nodes[p]? = some a) (hb : n.graph.nodes[p]? = some b) : b.core = a.core := by
  obtain ⟨a', ha', heq⟩ := getElem?_of_map_eq h.nodes hb
  rw [ha] at ha'
  cases ha'
  exact heq.symm

/-- A hook that ends well has run for the node as it was prepared. -/
theorem hook (hook : Layer α → Hook α Unit) (ha : g.nodes[p]? = some a)
    (hrun : runHook p hook n = .ok u n') :
    ∃ loss t, hook a.layer a.view ⟨n.store, loss, n.notes⟩ = .ok u t ∧ n' = n.keep p t := by
  obtain ⟨b, t, hb, ht, rfl⟩ := runHook_eq_ok hrun
  obtain ⟨hview, hlayer⟩ := view_of_core (h.core ha hb)
  rw [hview, hlayer] at ht
  exact ⟨b.loss, t, ht, rfl⟩

end Stage

end Network

end LayerGraph
