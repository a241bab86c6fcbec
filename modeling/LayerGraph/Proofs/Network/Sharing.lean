import LayerGraph.Proofs.Network.Sound
import LayerGraph.Single

/-!
# Shared weights

The weights of a node are registered under the name of its owner, and a name stands for one weight.
So nodes with weights have the same ones exactly if they have one owner. A node that shares the
weights of a node which shares those of a third has an owner of its own.
-/

namespace LayerGraph

variable {α : Type}

/-- What follows the owner's name is the same for all nodes of a layer. -/
theorem owner_eq_of_weightName {o o' name : String} (h : o ++ ":" ++ name = o' ++ ":" ++ name) :
    o = o' := by
  have := congrArg String.toList h
  simp only [String.toList_append, List.append_assoc] at this
  exact String.toList_inj.mp (List.append_cancel_right this)

namespace Store

variable {batch : Nat} {s : Store α}

/-- One name, one weight. -/
theorem HasWeightName.unique (hreg : Registry batch s) {w w' : WeightRef} {name : String}
    (h : s.HasWeightName w name) (h' : s.HasWeightName w' name) : w = w' := by
  obtain ⟨r, hr, hname⟩ := h
  obtain ⟨r', hr', hname'⟩ := h'
  exact hreg.name_inj w w' r r' hr hr' (hname.trans hname'.symm)

theorem HasWeightName.name_eq {w : WeightRef} {name name' : String} (h : s.HasWeightName w name)
    (h' : s.HasWeightName w name') : name = name' := by
  obtain ⟨r, hr, rfl⟩ := h
  obtain ⟨r', hr', rfl⟩ := h'
  rw [hr] at hr'
  cases hr'
  rfl

end Store

namespace Layer

def isFullyConnected : Layer α → Bool
  | fullyConnected _ _ _ => true
  | _ => false

theorem weightNames_of_isFullyConnected {layer : Layer α} (h : layer.isFullyConnected = true) :
    layer.weightNames = ["weight", "bias"] := by
  cases layer with
  | fullyConnected => rfl
  | input | activation | addition | multiout | identity | loss | custom => cases h

end Layer

namespace Network

open Layer

variable {n : Network α} {asks : (Shape → List Shape) → Prop} {a b : Node α}

/-- Nodes with the same weight names have the same weights exactly if one node owns them. -/
theorem weights_eq_iff (h : Registered n.graph n.store n.batchSize n.graph.order)
    (ha : a ∈ n.graph.nodes) (hb : b ∈ n.graph.nodes) (names : List String)
    (hna : a.layer.weightNames = names) (hnb : b.layer.weightNames = names) (hne : names ≠ []) :
    a.tensors.weights = b.tensors.weights ↔ a.owner = b.owner := by
  obtain ⟨p, hp⟩ := List.mem_iff_getElem?.mp ha
  obtain ⟨q, hq⟩ := List.mem_iff_getElem?.mp hb
  have hperm := h.compiled.toDesigned.ordered.perm
  have hwa := (h.holds p (mem_order_of_node hperm hp) a hp).weights
  have hwb := (h.holds q (mem_order_of_node hperm hq) b hq).weights
  rw [hna] at hwa
  rw [hnb] at hwb
  constructor
  · intro heq
    rw [← heq] at hwb
    generalize a.tensors.weights = ws at hwa hwb
    cases hwa with
    | nil => exact absurd rfl hne
    | cons hw _ =>
      obtain - | ⟨hw', -⟩ := hwb
      exact owner_eq_of_weightName (hw.name_eq hw')
  · intro howner
    rw [← howner] at hwb
    exact List.right_unique_forall₂' (fun _ _ _ hw hw' => hw.unique h.registry hw') hwa hwb

/-- A fully connected node uses the weights of the one that it shares from exactly if that one has
weights of its own. -/
theorem shares_iff_owns [Scalar α] (h : Reached asks n) (hp : n.isPrepared = true)
    (ha : a ∈ n.graph.nodes) (hb : b ∈ n.graph.nodes) (hla : a.layer.isFullyConnected = true)
    (hlb : b.layer.isFullyConnected = true) (hshare : a.sharedFrom = some b.name) :
    a.tensors.weights = b.tensors.weights ↔ b.sharedFrom = none ∨ b.sharedFrom = some b.name := by
  have hprepared : Prepared asks n := (sound_of_reached h).cases.resolve_left fun hbare => by
    rw [hbare.unprepared] at hp
    cases hp
  rw [weights_eq_iff hprepared.registered ha hb _ (weightNames_of_isFullyConnected hla)
    (weightNames_of_isFullyConnected hlb) (by simp)]
  unfold Node.owner
  rw [hshare]
  cases b.sharedFrom with
  | none => simp
  | some owner => simp [eq_comm]

section Relay

/-- One unit with weights that are zero at first. -/
def oneUnit : Layer Float32 := .fullyConnected 1 .zeros .zeros

/-- The layer `o` shares the weights of `r`, and `s` those of `o`. -/
def relay : Network Float32 :=
  (add { Node.ofLayer oneUnit "s" [⟨"o", 0⟩] with sharedFrom := some "o" }).after
    ((add { Node.ofLayer oneUnit "o" [⟨"r", 0⟩] with sharedFrom := some "r" }).after
      ((add (.ofLayer oneUnit "r" [⟨"x", 0⟩])).after
        ((add (.ofLayer (.input 1) "x" [])).after (ofSettings ⟨1, true, none, []⟩))))

/-- What compiling makes of it. -/
def relayCompiled : Network Float32 :=
  { (ofSettings ⟨1, true, none, []⟩ : Network Float32) with
    graph := ⟨[
      { Node.ofLayer (.input 1) "x" [] with outputs := [[⟨"r", 0⟩]] },
      { Node.ofLayer oneUnit "r" [⟨"x", 0⟩] with
        outputs := [[⟨"o", 0⟩]], schedule := .bothWays 1 2 4, collectsGradients := true },
      { Node.ofLayer oneUnit "o" [⟨"r", 0⟩] with
        outputs := [[⟨"s", 0⟩]], sharedFrom := some "r", schedule := .bothWays 2 1 4
        passesDerivatives := true, collectsGradients := true },
      { Node.ofLayer oneUnit "s" [⟨"o", 0⟩] with
        sharedFrom := some "o", schedule := .bothWays 3 0 4
        passesDerivatives := true, collectsGradients := true }], [0, 1, 2, 3]⟩
    store := (Store.empty true none).setBounds 4 9
    isCompiled := true }

theorem compile_relay : compile none relay = .ok () relayCompiled := by cbv

/-- What preparing it comes to. -/
def relayed : Network Float32 := (prepare [] []).after relayCompiled

theorem prepare_relay : prepare [] [] relayCompiled = .ok () relayed :=
  Action.eq_ok_of_endsWell (by decide +kernel)

theorem reached_relayed : Reached (fun _ : Shape → List Shape => False) relayed := by
  have h : Reached (fun _ => False) ((prepare [] []).after ((compile none).after relay)) :=
    .prepare _ _
      (.compile _ (.add _ ⟨rfl, rfl⟩ (.add _ ⟨rfl, rfl⟩ (.add _ (Node.isPlain_ofLayer rfl _ _)
      (.add _ (Node.isPlain_ofLayer rfl _ _) (.settings _))))))
  rwa [Action.after_of_ok compile_relay] at h

theorem relayed_nodes : relayed.isPrepared = true ∧
    relayed.graph.nodes.map (fun a => (a.name, a.layer.isFullyConnected, a.sharedFrom,
      a.tensors.weights)) = [("x", false, none, []), ("r", true, none, [0, 1]),
        ("o", true, some "r", [0, 1]), ("s", true, some "o", [2, 3])] := by
  decide +kernel

theorem relayed_shares : ∃ r ∈ relayed.graph.nodes, ∃ o ∈ relayed.graph.nodes,
    o.sharedFrom = some r.name ∧ o.tensors.weights = r.tensors.weights := by
  obtain ⟨hprepared, hnodes⟩ := relayed_nodes
  obtain ⟨r, hr, hreq⟩ := exists_of_map_eq hnodes (y := ("r", true, none, [0, 1])) (by simp)
  obtain ⟨o, ho, hoeq⟩ := exists_of_map_eq hnodes (y := ("o", true, some "r", [0, 1])) (by simp)
  simp only [Prod.mk.injEq] at hreq hoeq
  have hshare : o.sharedFrom = some r.name := hoeq.2.2.1.trans (congrArg some hreq.1.symm)
  exact ⟨r, hr, o, ho, hshare,
    (shares_iff_owns reached_relayed hprepared ho hr hoeq.2.1 hreq.2.1 hshare).mpr
      (.inl hreq.2.2.1)⟩

/-- The layer `s` does not use the weights of the layer that it is to share from. -/
theorem relayed_apart : ∃ n₁ n₂, compile none relay = .ok () n₁ ∧ prepare [] [] n₁ = .ok () n₂ ∧
    ∃ o ∈ n₂.graph.nodes, ∃ s ∈ n₂.graph.nodes, o.layer.isFullyConnected = true ∧
      s.layer.isFullyConnected = true ∧ s.sharedFrom = some o.name ∧
      s.tensors.weights ≠ o.tensors.weights := by
  obtain ⟨-, hnodes⟩ := relayed_nodes
  obtain ⟨o, ho, hoeq⟩ := exists_of_map_eq hnodes (y := ("o", true, some "r", [0, 1])) (by simp)
  obtain ⟨s, hs, hseq⟩ := exists_of_map_eq hnodes (y := ("s", true, some "o", [2, 3])) (by simp)
  simp only [Prod.mk.injEq] at hoeq hseq
  have hshare : s.sharedFrom = some o.name := hseq.2.2.1.trans (congrArg some hoeq.1.symm)
  have hne : s.tensors.weights ≠ o.tensors.weights := by
    rw [hseq.2.2.2, hoeq.2.2.2]
    decide
  exact ⟨_, _, compile_relay, prepare_relay, o, ho, s, hs, hoeq.2.1, hseq.2.1, hshare, hne⟩

end Relay

end Network

end LayerGraph
