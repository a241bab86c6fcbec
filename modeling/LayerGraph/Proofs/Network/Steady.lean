import LayerGraph.Network.Memory
import LayerGraph.Proofs.Layer.Writes

/-!
# What running a network keeps

Feeding, running and applying gradients change a network by writing tensors, finding losses and
leaving notes. A property that these keep is kept by all of them, whether they end well or fail.
-/

namespace LayerGraph.Network

variable {α τ β : Type} [Scalar α]

/-- A property of networks that writing a tensor keeps, and finding a loss. Hooks do no more to the
networks that have it. -/
structure Steady (P : Network α → Prop) : Prop where
  write : ∀ n id v s, P n → n.store.set id v = .ok s → P { n with store := s }
  keep : ∀ n p (loss : α) notes, P n → P { n with
    notes := notes, graph := n.graph.modifyNode p fun node => { node with loss := loss } }
  confined : ∀ n, P n → ∀ a ∈ n.graph.nodes, a.layer.Confined

namespace Steady

variable {P : Network α → Prop} (hP : Steady P) {n : Network α}
include hP

theorem writable (n : Network α) : Store.Writable fun s => P { n with store := s } :=
  fun s id v s' hs h => hP.write { n with store := s } id v s' hs h

theorem keeps_onStore {p : Action (Store α) β} (hp : ∀ Q, Store.Writable Q → Action.Keeps Q p) :
    Action.Keeps P (onStore p) := by
  intro n h
  have := hp _ (hP.writable n) n.store h
  unfold onStore
  rw [Action.after_focus]
  exact this

theorem keeps_onOwnStore {p : Action (τ × Store α) β}
    (hp : ∀ Q, Store.Writable Q → Action.Keeps (fun s : τ × Store α => Q s.2) p) :
    Action.Keeps (fun s : τ × Network α => P s.2) (onOwnStore p) := by
  rintro ⟨own, n⟩ h
  have := hp _ (hP.writable n) (own, n.store) h
  unfold onOwnStore
  rw [Action.after_focus]
  exact this

theorem keeps_runHook (p : NodeRef) {hook : Layer α → Hook α Unit}
    (hhook : ∀ layer : Layer α, layer.Confined → ∀ Q, Store.Writable Q →
      Hook.Keeps Q (hook layer)) : Action.Keeps P (runHook p hook) := by
  intro n h
  unfold runHook
  refine Action.after_read_bind h fun a ha => ?_
  have hmem : a ∈ n.graph.nodes := by
    unfold Network.node at ha
    split at ha
    · next b hb =>
      cases ha
      exact List.mem_of_getElem? hb
    · cases ha
  have hs := hhook a.layer (hP.confined n h a hmem) _ (hP.writable n) a.view
    ⟨n.store, a.loss, n.notes⟩ h
  rw [Action.after_focus]
  exact hP.keep _ p _ _ hs

theorem keeps_feed (inputs labels : List (Tensor α)) : Action.Keeps P (feed inputs labels) := by
  unfold feed
  refine Action.keeps_get.bind fun _ =>
    Action.Keeps.guard (Action.Keeps.guard (Action.Keeps.guard ?_))
  refine hP.keeps_onStore fun Q hQ => (Action.keeps_forM fun x _ => Store.keeps_write hQ _ _).bind
    fun _ => ?_
  exact Action.keeps_forM fun x _ => Store.keeps_write hQ _ _

theorem keeps_forward (training : Bool) : Action.Keeps P (forward training) := by
  refine (Action.keeps_read _).bind fun _ => Action.keeps_get.bind fun _ => Action.Keeps.guard ?_
  refine Action.keeps_get.bind fun _ => (Action.keeps_forM fun p _ => ?_).bind fun _ =>
    Action.keeps_read _
  exact hP.keeps_runHook p fun layer hlayer Q hQ => hlayer.forward Q hQ training

section Backward

variable {visit : Node α → Action (τ × Store α) Unit}
  (hvisit : ∀ node Q, Store.Writable Q → Action.Keeps (fun s : τ × Store α => Q s.2) (visit node))
include hvisit

theorem keeps_backwardNode (p : NodeRef) :
    Action.Keeps (fun s : τ × Network α => P s.2) (backwardNode visit p) := by
  have hhook : ∀ {hook : Layer α → Hook α Unit}, (∀ layer : Layer α, layer.Confined →
      ∀ Q, Store.Writable Q → Hook.Keeps Q (hook layer)) →
      Action.Keeps (fun s : τ × Network α => P s.2) (onNetwork (runHook p hook)) :=
    fun hhook => (hP.keeps_runHook p hhook).focus (fun _ h => h) fun _ _ _ h => h
  have hlast : Action.Keeps (fun s : τ × Network α => P s.2) (do
      let node ← Action.read (·.2.node p)
      onOwnStore (visit node)) :=
    (Action.keeps_read _).bind fun node => hP.keeps_onOwnStore (hvisit node)
  refine (Action.keeps_read _).bind fun node => ?_
  cases node.participates with
  | false => exact Action.keeps_pure _
  | true =>
    have hthen : Action.Keeps (fun s : τ × Network α => P s.2) (do
        if node.passesDerivatives then onNetwork (runHook p Layer.passBack)
        let node ← Action.read (·.2.node p)
        onOwnStore (visit node)) := by
      cases node.passesDerivatives with
      | true => exact (hhook fun layer hlayer => hlayer.passBack).bind fun _ => hlast
      | false => exact hlast
    cases node.collectsGradients with
    | true => exact (hhook fun layer hlayer => hlayer.collectGradients).bind fun _ => hthen
    | false => exact hthen

theorem keeps_backward : Action.Keeps (fun s : τ × Network α => P s.2) (backward visit) := by
  refine (Action.keeps_read _).bind fun _ => Action.keeps_get.bind fun _ => Action.Keeps.guard ?_
  exact Action.keeps_get.bind fun _ => Action.keeps_forM fun p _ => hP.keeps_backwardNode hvisit p

end Backward

theorem keeps_applyGradients (name : String) (rule : WeightState α → Action τ (WeightState α)) :
    Action.Keeps (fun s : τ × Network α => P s.2) (applyGradients name rule) :=
  (Action.keeps_read _).bind fun node => hP.keeps_onOwnStore fun _ hQ =>
    keeps_applyComplete hQ node rule

end Steady

end LayerGraph.Network
