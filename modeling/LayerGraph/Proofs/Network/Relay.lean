import LayerGraph.Proofs.Network.Ledger
import LayerGraph.Proofs.Network.Lifecycle

/-!
# Derivatives are relayed

A backward pass comes to the only reader of a slot before it comes to the node of the slot. What the
reader passes back then is what the node finds when its own turn comes, whatever the caller does at
the nodes in between, and whatever else shares the buffer.
-/

namespace LayerGraph.Network

open LayerGraph.Action

variable {α τ : Type} [Scalar α]

/-- What a node passes back to its input `j` when a pass comes to it. -/
def passedBack (n : Network α) (p : NodeRef) (j : Nat) : Except Error (Tensor α) := do
  let a ← n.node p
  let dxs ← a.layer.derivatives a.tensors n.store.reader
  match dxs[j]? with
  | some dx => return dx
  | none => throw (.staleHandle p)

section Slot

variable {g : NodeGraph (Node α)} {s : Store α} {batch p q k j : Nat} {a : Node α} {d : TensorRef}
  {r : Reader α} {dxs : List (Tensor α)} (h : Registered g s batch g.order)
  (ha : g.nodes[p]? = some a) (hd : IsDerivative g q k d)
include h ha hd

omit [Scalar α] in
/-- What is passed back to an input is where the producer of the input looks for it. -/
theorem value_passed (hlen : dxs.length = a.tensors.inputs.length) (hr : ReadsSlot g p j q k) :
    ∃ v, dxs[j]? = some v ∧ (r.setAll (passedTo a.tensors.inputs dxs)).value d = .ok v := by
  obtain ⟨w, hw, heq, hvalue⟩ :=
    Reader.exists_value_setAll (r := r) (mem_passedTo_of_reads h ha hlen hd hr)
  obtain ⟨q', k', j', hd', hr', hj⟩ := exists_slot_of_passedTo h ha hw
  rw [heq] at hd'
  obtain ⟨rfl, rfl⟩ := h.derivative_eq_of_owned hd hd'
  obtain ⟨-, rfl⟩ := h.compiled.wired.single _ _ _ _ _ _ hr hr'
  exact ⟨w.2, hj, hvalue⟩

omit [Scalar α] in
/-- A derivative that another node passes back is left alone. -/
theorem value_not_passed {p' : NodeRef} (hr : ReadsSlot g p' j q k) (hne : p' ≠ p) :
    (r.setAll (passedTo a.tensors.inputs dxs)).value d = r.value d := by
  refine Reader.value_setAll_of_not_mem fun hmem => ?_
  obtain ⟨w, hw, rfl⟩ := List.mem_map.mp hmem
  obtain ⟨q', k', j', hd', hr', -⟩ := exists_slot_of_passedTo h ha hw
  obtain ⟨rfl, rfl⟩ := h.derivative_eq_of_owned hd hd'
  exact hne (h.compiled.wired.single _ _ _ _ _ _ hr hr').1

end Slot

theorem passedBack_of_stage {g : NodeGraph (Node α)} {mode : RunMode} {batch j : Nat}
    {m : Network α} {p : NodeRef} {a : Node α} {dxs : List (Tensor α)} {v : Tensor α}
    (hs : Stage mode g batch m) (ha : g.nodes[p]? = some a)
    (hdxs : a.layer.derivatives a.tensors m.store.reader = .ok dxs) (hj : dxs[j]? = some v) :
    passedBack m p j = .ok v := by
  obtain ⟨b, hb, hcore⟩ := getElem?_of_map_eq hs.nodes.symm ha
  obtain ⟨hview, hlayer⟩ := view_of_core hcore
  unfold passedBack
  rw [node_eq_ok_iff.mpr hb, except_ok_bind, hlayer, show b.tensors = a.tensors
    from congrArg NodeView.handles hview, hdxs, except_ok_bind, hj]
  rfl

/-- A caller who does no more to a store than to replace weights and optimizer state leaves
everything else as it is. -/
theorem unkept_of_visit {visit : Node α → Action (τ × Store α) Unit} {batch : Nat} {s s' : Store α}
    {own own' : τ} {node : Node α} {u : Unit} (hreg : Store.Registry batch s)
    (hvisit : ∀ Q, Store.Revisable Q → Keeps (fun s : τ × Store α => Q s.2) (visit node))
    (h : visit node (own, s) = .ok u (own', s')) :
    s.SameLayout s' ∧ ∀ id e, s.backing id = some e → e.role.isKept = false →
    s'.get id = s.get id := by
  have hkeep := hvisit (fun s₁ => s.SameLayout s₁ ∧
    ∀ id e, s.backing id = some e → e.role.isKept = false → s₁.get id = s.get id) ?_ (own, s)
    ⟨.refl s, fun _ _ _ _ => rfl⟩
  · rwa [after_of_ok h] at hkeep
  rintro s₁ w r id v s₂ ⟨hl, hold⟩ hw hid hset
  obtain ⟨e', he', hk'⟩ : ∃ e', s₁.backing id = some e' ∧ e'.role.isKept = true := by
    rcases hid with rfl | hid
    · obtain ⟨e', he', hrole⟩ := (hl.registry hreg).backing_value hw
      exact ⟨e', he', by rw [hrole]; rfl⟩
    · obtain ⟨e', he', hrole⟩ := (hl.registry hreg).backing_state hw hid
      exact ⟨e', he', by rw [hrole]; rfl⟩
  refine ⟨hl.trans (Store.sameLayout_of_set hset), fun i e he hk => ?_⟩
  have he₁ := (hl.backing i).trans he
  rw [Store.get_of_set_kept hset he' hk' he₁ fun hroot => ?_]
  · exact hold i e he hk
  · rw [Store.backing_eq_some_iff, hroot, (Store.backing_eq_some_iff.mp he').2] at he₁
    cases he₁.2
    rw [hk] at hk'
    cases hk'

/-- A backward pass of `n` that has made its stops, with `rest` still to come. Whatever has been
passed back and is still to be taken is there. -/
structure Relaying (n : Network α) (stops : List (NodeRef × Network α)) (rest : List NodeRef)
    (m : Network α) : Prop where
  split : n.graph.order.reverse = stops.map (·.1) ++ rest
  stage : Stage .train n.graph n.batchSize m
  gathered : ∃ given : WeightRef → List (Tensor α),
    (∀ w, (given w).length = (trainersIn n.graph (stops.map (·.1)) w).length) ∧
    ∀ p ∈ rest, ∀ a t, n.graph.nodes[p]? = some a → a.schedule.gradientStep = some t →
      m.store.Gathered (usesOf n.graph n.graph.order) given t
  relayed : ∀ q k d r j, IsDerivative n.graph q k d → ReadsSlot n.graph r j q k → q ∈ rest →
    r ∈ stops.map (·.1) → ∃ m' v, (r, m') ∈ stops ∧ passedBack m' r j = .ok v ∧
    m.store.get d = .ok v

namespace Relaying

variable {n m m' : Network α} {stops : List (NodeRef × Network α)} {p : NodeRef}
  {rest : List NodeRef} {own own' : τ} {a : Node α} {u : Unit}
  {visit : Node α → Action (τ × Store α) Unit} {nodes : List NodeRef}

theorem start {asks : (Shape → List Shape) → Prop} (h : Ready asks .train n) :
    Relaying n [] n.graph.order.reverse n where
  split := rfl
  stage := h.stage
  gathered := ⟨fun _ => [], fun _ => rfl, fun _ _ _ _ _ _ w r d c cs _ _ hnone => by cases hnone⟩
  relayed _ _ _ _ _ _ _ _ hmem := by cases hmem

/-- The reader of a slot whose node takes part does so too. -/
theorem passes_of_derivative (h : Relaying n stops rest m) {q k j : Nat} {d : TensorRef}
    (hd : IsDerivative n.graph q k d) (hr : ReadsSlot n.graph p j q k)
    (ha : n.graph.nodes[p]? = some a) : a.passesDerivatives = true := by
  have hreg := h.stage.registered
  obtain ⟨b, hb, hpart, -⟩ := hreg.participates_of_derivative hd
  exact hreg.compiled.passes_of_reads hr ha hb hpart

theorem pass_by (h : Relaying n stops (p :: rest) m) (ha : n.graph.nodes[p]? = some a)
    (hpart : a.participates = false) : Relaying n (stops ++ [(p, m)]) rest m := by
  obtain ⟨given, hgiven, hgathered⟩ := h.gathered
  have htrains : a.trains = false := by
    rw [← h.stage.registered.compiled.collects p a ha]
    exact (Bool.or_eq_false_iff.mp hpart).2
  refine ⟨by simp [h.split], h.stage,
    ⟨given, fun w => ?_, fun q hq => hgathered q (List.mem_cons_of_mem _ hq)⟩,
    fun q k d r j hd hr hq hmem => ?_⟩
  · rw [List.map_append, List.map_singleton, trainersIn_concat ha, Node.trainsWeight, htrains]
    exact hgiven w
  · simp only [List.map_append, List.map_singleton, List.mem_append, List.mem_singleton] at hmem
    rcases hmem with hmem | rfl
    · obtain ⟨m', v, hstop, hv⟩ := h.relayed q k d r j hd hr (List.mem_cons_of_mem _ hq) hmem
      exact ⟨m', v, List.mem_append_left _ hstop, hv⟩
    · rw [Node.participates, h.passes_of_derivative hd hr ha, Bool.true_or] at hpart
      cases hpart

/-- What is to be taken after the turn of a node has been passed back by it, or before it. -/
theorem relayed_of_returned (h : Relaying n stops (p :: rest) m) (ha : n.graph.nodes[p]? = some a)
    {dxs : List (Tensor α)} (hdxs : a.returned m.store.reader = .ok dxs) {q k j : Nat}
    {r : NodeRef} {d : TensorRef} (hd : IsDerivative n.graph q k d) (hr : ReadsSlot n.graph r j q k)
    (hq : q ∈ rest) (hmem : r ∈ (stops ++ [(p, m)]).map (·.1)) :
    NeededBackward n.graph (place n.graph p) d ∧
      ∃ m' v, (r, m') ∈ stops ++ [(p, m)] ∧ passedBack m' r j = .ok v ∧
        (m.store.reader.setAll (passedTo a.tensors.inputs dxs)).value d = .ok v := by
  have hreg := h.stage.registered
  obtain ⟨hdone, hrest⟩ := place_lt_of_split hreg.compiled.ordered.perm h.split
  simp only [List.map_append, List.map_singleton, List.mem_append, List.mem_singleton] at hmem
  rcases hmem with hmem | rfl
  · have hlt := hdone r hmem
    obtain ⟨m', v, hstop, hback, hvalue⟩ :=
      h.relayed q k d r j hd hr (List.mem_cons_of_mem _ hq) hmem
    refine ⟨.derivative hd (hrest q hq) ⟨r, j, hr, Nat.le_of_lt hlt⟩, m', v,
      List.mem_append_left _ hstop, hback, ?_⟩
    rw [value_not_passed hreg ha hd hr fun heq => Nat.lt_irrefl _ (heq ▸ hlt)]
    exact hvalue
  · have hderivatives : a.layer.derivatives a.tensors m.store.reader = .ok dxs := by
      rwa [Node.returned, if_pos (h.passes_of_derivative hd hr ha)] at hdxs
    obtain ⟨v, hj, hvalue⟩ := value_passed (r := m.store.reader) hreg ha hd
      (Layer.length_of_derivatives (hreg.holds_of_node ha).fits hderivatives) hr
    exact ⟨.derivative hd (hrest q hq) ⟨r, j, hr, Nat.le_refl _⟩, m, v,
      List.mem_append_right _ (List.mem_singleton.mpr rfl),
      passedBack_of_stage h.stage ha hderivatives hj, hvalue⟩

/-- A node that collects its gradients leaves what it takes where it is. -/
theorem collected (h : Relaying n stops (p :: rest) m) (ha : n.graph.nodes[p]? = some a)
    (hpart : a.participates = true) {m₂ : Network α}
    (hcollect : if a.collectsGradients then runHook p Layer.collectGradients m =
      .ok () m₂ else m₂ = m) :
    ∃ turn cs, ∃ given : WeightRef → List (Tensor α), a.schedule.backward = some turn ∧
      a.collected m.store.reader = .ok cs ∧
      (∀ w, (given w).length = (trainersIn n.graph (stops.map (·.1)) w).length) ∧
      Swept n.graph n.batchSize m m₂ (place n.graph p + 1) m.store.reader
        (fun w => given w ++ ((a.tensors.weights.zip cs).lookup w).toList) turn.gradientStep := by
  obtain ⟨turn, hturn, -⟩ := h.stage.registered.compiled.toDesigned.exists_turn ha hpart
  have hstep : a.schedule.gradientStep = some turn.gradientStep := by
    rw [Schedule.gradientStep, hturn]
    rfl
  obtain ⟨given, hgiven, hgathered⟩ := h.gathered
  obtain ⟨cs, hcs, hswept⟩ :=
    swept_of_collect h.stage ha hturn ⟨fun _ _ => rfl, rfl, rfl⟩ h.split hgiven
    (hgathered p (by simp) a _ ha hstep) hcollect
  exact ⟨turn, cs, given, hturn, hcs, hgiven, hswept⟩

/-- The turn of a node that takes part, whatever the caller does to weights in it. -/
theorem turn (h : Relaying n stops (p :: rest) m) (ha : n.graph.nodes[p]? = some a)
    (hpart : a.participates = true) {m₂ m₃ : Network α}
    (hcollect : if a.collectsGradients then runHook p Layer.collectGradients m = .ok () m₂
      else m₂ = m)
    (hpass : if a.passesDerivatives then runHook p Layer.passBack m₂ = .ok () m₃ else m₃ = m₂)
    {s : Store α}
    (hvisit : Store.Registry n.batchSize m₃.store → m₃.store.SameLayout s ∧
      ∀ id e, m₃.store.backing id = some e → e.role.isKept = false → s.get id = m₃.store.get id) :
    Relaying n (stops ++ [(p, m)]) rest { m₃ with store := s } := by
  have hreg := h.stage.registered
  obtain ⟨turn, cs, given, hturn, hcs, hgiven, h₂⟩ := h.collected ha hpart hcollect
  have hstep : a.schedule.gradientStep = some turn.gradientStep := by
    rw [Schedule.gradientStep, hturn]
    rfl
  obtain ⟨dxs, hdxs, h₃⟩ := swept_of_pass h₂.stage ha hturn h₂.agrees h₂.gathered hpass
  obtain ⟨hl, hunkept⟩ := hvisit h₃.stage.registered.registry
  refine ⟨by simp [h.split], h₃.stage.later hl rfl,
    ⟨fun w => given w ++ ((a.tensors.weights.zip cs).lookup w).toList,
    fun w => ?_, fun q hq b t hb ht => ?_⟩, fun q k d r j hder hr hq hmem => ?_⟩
  · rw [List.map_append, List.map_singleton, trainersIn_concat ha, List.length_append, hgiven,
      length_given_of_collected (hreg.holds_of_node ha).fits hcs]
    split <;> simp
  · have hlt := (gradientStep_lt hreg.compiled.toDesigned h.split ha hb hstep ht).2 hq
    exact (h₃.gathered.of_unkept h₃.stage.registered.registry hl hunkept).mono (by omega)
  · obtain ⟨hneeded, m', v, hstop, hback, hvalue⟩ := h.relayed_of_returned ha hdxs hder hr hq hmem
    obtain ⟨e, he, hdata⟩ := hneeded.isData h₃.stage.registered
    refine ⟨m', v, hstop, hback, ?_⟩
    rw [hunkept d e he (Role.isKept_eq_false_of_isData hdata), h₃.agrees.value d hneeded]
    exact hvalue

variable (hvisit : ∀ node Q, Store.Revisable Q → Keeps (fun s : τ × Store α => Q s.2) (visit node))
include hvisit

theorem step (h : Relaying n stops (p :: rest) m)
    (hrun : backwardNode visit p (own, m) = .ok u (own', m')) :
    Relaying n (stops ++ [(p, m)]) rest m' := by
  obtain ⟨b, hb, hcase⟩ := turn_of_backwardNode hrun
  obtain ⟨a, ha, hcore⟩ := getElem?_of_map_eq h.stage.nodes hb
  obtain ⟨hparts, hcollects, hpasses⟩ := part_of_core (h.stage.core ha hb)
  rcases hcase with ⟨hpart, -, rfl⟩ | ⟨hpart, m₂, m₃, hturn⟩
  · exact h.pass_by ha (hparts ▸ hpart)
  · have hcollect := hturn.collect
    have hpass := hturn.pass
    rw [hcollects] at hcollect
    rw [hpasses] at hpass
    obtain ⟨b', s, -, hv, rfl⟩ := hturn.visit
    exact h.turn ha (hparts ▸ hpart) hcollect hpass fun hreg => unkept_of_visit hreg (hvisit b') hv

theorem run {s s' : τ × Network α} (h : Relaying n stops (nodes ++ rest) s.2)
    (hrun : nodes.forM (backwardNode visit) s = .ok ⟨⟩ s') :
    Relaying n (stops ++ passage visit nodes s) rest s'.2 := by
  induction nodes generalizing stops s with
  | nil =>
    cases hrun
    rw [passage, List.append_nil]
    exact h
  | cons p nodes ih =>
    rw [List.forM_eq_forM, List.forM_cons] at hrun
    obtain ⟨u, s₁, hfirst, hrun⟩ := bind_eq_ok_iff.mp hrun
    rw [passage, after_of_ok hfirst, List.append_cons]
    exact ih (h.step hvisit hfirst) hrun

end Relaying

/-- A backward pass comes to every node in reverse order. Whenever it comes to one, the derivative
of each of the node's slots is what the only reader of the slot has passed back earlier in the pass,
and it is still that when the node has collected its gradients. -/
structure RelaysDerivatives (visit : Node α → Action (τ × Store α) Unit) (own : τ) (n : Network α) :
    Prop where
  walks : backward visit (own, n) = n.graph.order.reverse.forM (backwardNode visit) (own, n)
  reaches : ∀ s q a, backward visit (own, n) = .ok ⟨⟩ s → n.graph.nodes[q]? = some a →
    ∃ done rest own' m, n.graph.order.reverse = done ++ q :: rest ∧
      done.forM (backwardNode visit) (own, n) = .ok ⟨⟩ (own', m) ∧
      (q :: rest).forM (backwardNode visit) (own', m) = .ok ⟨⟩ s
  relayed : ∀ done q rest own' m a k d, n.graph.order.reverse = done ++ q :: rest →
    done.forM (backwardNode visit) (own, n) = .ok ⟨⟩ (own', m) → n.graph.nodes[q]? = some a →
    IsDerivative n.graph q k d →
    ∃ r j m' v, (∀ r' j', ReadsSlot n.graph r' j' q k ↔ r' = r ∧ j' = j) ∧
      (r, m') ∈ passage visit done (own, n) ∧ passedBack m' r j = .ok v ∧ m.store.get d = .ok v ∧
      ∀ m₂, a.collectsGradients = true → runHook q Layer.collectGradients m = .ok () m₂ →
        m₂.store.get d = .ok v

section Relayed

variable {asks : (Shape → List Shape) → Prop} {n : Network α} {q k : Nat} {a : Node α}

omit [Scalar α] in
/-- A slot has a derivative if its node takes part and something reads from the node. -/
theorem Prepared.isSome_derivative_iff (h : Prepared asks n) {y : Wire}
    (ha : n.graph.nodes[q]? = some a) (hy : a.tensors.outputs[k]? = some y) :
    y.derivative.isSome = true ↔ a.participates = true ∧ ∃ p, n.graph.Feeds q p := by
  have hreg := h.registered
  have hread : a.isTerminal = false ↔ ∃ p, n.graph.Feeds q p := by
    constructor
    · intro hread
      obtain ⟨r, j, hr⟩ := hreg.exists_reader ha hy hread
      exact ⟨r, feeds_iff_readsSlot.mpr ⟨j, k, hr⟩⟩
    · rintro ⟨r, hf⟩
      obtain ⟨j, k', hr⟩ := feeds_iff_readsSlot.mp hf
      have hlt := (hreg.compiled.wired.lt_iff q a k' ha).mpr ⟨r, j, hr⟩
      rw [Node.isTerminal, List.isEmpty_eq_false_iff]
      exact List.ne_nil_of_length_pos (Nat.lt_of_le_of_lt (Nat.zero_le _) hlt)
  rw [((hreg.holds_of_node ha).outputs y (List.mem_of_getElem? hy)).takes, ← hread]
  cases hpart : a.participates with
  | false => simp
  | true => simp [not_source_of_participates hreg ha hpart]

/-- A loop that ends well has come to each of its elements. -/
theorem exists_forM_of_mem {σ β : Type} {f : β → Action σ PUnit} {xs : List β} {x : β} {s s' : σ}
    (h : xs.forM f s = .ok ⟨⟩ s') (hx : x ∈ xs) : ∃ done rest s₁, xs = done ++ x :: rest ∧
      done.forM f s = .ok ⟨⟩ s₁ ∧ (x :: rest).forM f s₁ = .ok ⟨⟩ s' := by
  obtain ⟨done, rest, rfl⟩ := List.append_of_mem hx
  rw [List.forM_eq_forM, List.forM_append] at h
  obtain ⟨⟨⟩, s₁, hdone, hrest⟩ := bind_eq_ok_iff.mp h
  exact ⟨done, rest, s₁, rfl, hdone, hrest⟩

/-- The reader of a slot stands behind its node, so the pass comes to it first. -/
theorem Ready.exists_relayed (h : Ready asks .train n) {visit : Node α → Action (τ × Store α) Unit}
    (hvisit : ∀ node Q, Store.Revisable Q → Keeps (fun s : τ × Store α => Q s.2) (visit node))
    {done rest : List NodeRef} {own own' : τ} {m : Network α} {d : TensorRef}
    (hsplit : n.graph.order.reverse = done ++ q :: rest)
    (hrun : done.forM (backwardNode visit) (own, n) = .ok ⟨⟩ (own', m))
    (ha : n.graph.nodes[q]? = some a) (hd : IsDerivative n.graph q k d) :
    ∃ r j m' v, (∀ r' j', ReadsSlot n.graph r' j' q k ↔ r' = r ∧ j' = j) ∧
      (r, m') ∈ passage visit done (own, n) ∧ passedBack m' r j = .ok v ∧ m.store.get d = .ok v ∧
      ∀ m₂, a.collectsGradients = true → runHook q Layer.collectGradients m = .ok () m₂ →
        m₂.store.get d = .ok v := by
  have hreg := h.prepared.registered
  have hstart : Relaying n [] (done ++ q :: rest) (own, n).2 := hsplit ▸ Relaying.start h
  have hend := hstart.run hvisit hrun
  rw [List.nil_append] at hend
  obtain ⟨b, hb, hpart, hread, -⟩ := hreg.participates_of_derivative hd
  obtain rfl : a = b := Option.some.inj (ha.symm.trans hb)
  obtain ⟨y, ⟨b, hb, hy⟩, -⟩ := id hd
  obtain rfl : a = b := Option.some.inj (ha.symm.trans hb)
  obtain ⟨r, j, hr⟩ := hreg.exists_reader ha hy hread
  have hbefore : place n.graph q < place n.graph r := hreg.compiled.ordered.before r j q k hr
  have hdone : r ∈ (passage visit done (own, n)).map (·.1) := by
    obtain ⟨c, hc⟩ := hr.reader
    have hmem := List.mem_reverse.mpr (mem_order_of_node hreg.compiled.ordered.perm hc)
    rw [hsplit, List.mem_append, List.mem_cons] at hmem
    rw [nodes_passage]
    rcases hmem with hmem | rfl | hmem
    · exact hmem
    · exact absurd hbefore (Nat.lt_irrefl _)
    · have hafter := (place_lt_of_split hreg.compiled.ordered.perm hsplit).2 r hmem
      omega
  obtain ⟨m', v, hstop, hback, hvalue⟩ := hend.relayed q k d r j hd hr (List.mem_cons_self ..) hdone
  refine ⟨r, j, m', v, fun r' j' => ⟨fun hr' => hreg.compiled.wired.single _ _ _ _ _ _ hr' hr, ?_⟩,
    hstop, hback, hvalue, fun m₂ hcollects hcollect => ?_⟩
  · rintro ⟨rfl, rfl⟩
    exact hr
  · have hcollected : if a.collectsGradients then runHook q Layer.collectGradients m = .ok () m₂
        else m₂ = m := by
      rwa [if_pos hcollects]
    obtain ⟨turn, cs, given, -, -, -, hswept⟩ := hend.collected ha hpart hcollected
    rw [hswept.agrees.value d (.derivative hd (Nat.lt_succ_self _) ⟨r, j, hr, hbefore⟩)]
    exact hvalue

theorem Ready.relaysDerivatives (h : Ready asks .train n) {own : τ}
    {visit : Node α → Action (τ × Store α) Unit}
    (hvisit : ∀ node Q, Store.Revisable Q → Keeps (fun s : τ × Store α => Q s.2) (visit node)) :
    RelaysDerivatives visit own n where
  walks := h.backward_apply visit own
  reaches s q a hback ha := by
    rw [h.backward_apply] at hback
    have hmem := List.mem_reverse.mpr
      (mem_order_of_node h.prepared.registered.compiled.ordered.perm ha)
    obtain ⟨done, rest, ⟨own', m⟩, hsplit, hdone, hrest⟩ := exists_forM_of_mem hback hmem
    exact ⟨done, rest, own', m, hsplit, hdone, hrest⟩
  relayed _ _ _ _ _ _ _ _ hsplit hrun ha hd := h.exists_relayed hvisit hsplit hrun ha hd

end Relayed

/-- Once a network is compiled, its nodes know by their paths from the training nodes what part they
have in backward passes. Once it is prepared, the slots that have a derivative are those that are
read from nodes that take part, and a backward pass comes to all nodes and brings to each of these
slots what its only reader has passed back, before it comes to the node of the slot. -/
theorem derivatives_relayed (n : Network α) :
    (∀ loss u n', compile loss n = .ok u n' → Participation n'.graph) ∧
    ∀ settings, Leads (ofSettings settings) n →
      (n.isPrepared = true → Participation n.graph ∧ ∀ (q : Nat) (a : Node α) (k : Nat) (y : Wire),
        n.graph.nodes[q]? = some a → a.tensors.outputs[k]? = some y →
        (y.derivative.isSome = true ↔ a.participates = true ∧ ∃ p, n.graph.Feeds q p)) ∧
      (checkReady n = .ok () → n.store.mode = some .train →
        ∀ (τ : Type) (own : τ) (visit : Node α → Action (τ × Store α) Unit),
          (∀ node Q, Store.Revisable Q → Keeps (fun s : τ × Store α => Q s.2) (visit node)) →
          RelaysDerivatives visit own n) := by
  refine ⟨fun loss u n' hcompile => ?_, fun settings hleads => ?_⟩
  · obtain ⟨-, -, hscheduled, -, -⟩ := scheduled_of_compile hcompile
    exact hscheduled.participation
  have hsound := (regular_of_leads (regular_ofSettings settings) hleads).sound
  refine ⟨fun hprepared => ?_, fun hready htrain τ own visit hvisit => ?_⟩
  · have hprep := hsound.prepared hprepared
    exact ⟨hprep.registered.compiled.toScheduled.participation,
      fun q a k y ha hy => hprep.isSome_derivative_iff ha hy⟩
  · obtain ⟨mode, hmode, hr⟩ := hsound.ready hready
    obtain rfl : mode = .train := Option.some.inj (hmode.symm.trans htrain)
    exact hr.relaysDerivatives hvisit

theorem relaying_slots : relaying.graph.order.reverse = [3, 2, 1, 0] ∧
    relaying.graph.nodes.map (fun a => (a.name, a.tensors.outputs.map (·.derivative))) =
      [("x", [none]), ("r", [some 2]), ("o", [some 8]), ("s", [none])] := by
  decide +kernel

/-- A backward pass ends well, and in it the layer `o` finds what `s` has passed back to it. -/
theorem relaying_passed : Participation relayCompiled.graph ∧ Participation relaying.graph ∧
    ∃ (visit : Node Float32 → Action (Unit × Store Float32) Unit) (n' m m' : Network Float32)
      (j : Nat) (v : Tensor Float32),
      backward visit ((), relaying) = .ok ⟨⟩ ((), n') ∧
      [3].forM (backwardNode visit) ((), relaying) = .ok ⟨⟩ ((), m) ∧
      [2, 1, 0].forM (backwardNode visit) ((), m) = .ok ⟨⟩ ((), n') ∧
      (3, m') ∈ passage visit [3] ((), relaying) ∧
      ReadsSlot relaying.graph 3 j 2 0 ∧ IsDerivative relaying.graph 2 0 8 ∧
      passedBack m' 3 j = .ok v ∧ m.store.get 8 = .ok v := by
  obtain ⟨hready, hmode, -⟩ := relaying_ready
  obtain ⟨horder, hslots⟩ := relaying_slots
  obtain ⟨settings, hleads⟩ := leads_of_reached reached_relaying
  obtain ⟨mode, hmode', hr⟩ := reached_relaying.ready hready
  obtain rfl : mode = .train := Option.some.inj (hmode'.symm.trans hmode)
  obtain ⟨hprepared, hrelays⟩ := (derivatives_relayed relaying).2 settings hleads
  let visit : Node Float32 → Action (Unit × Store Float32) Unit := fun node => do
    let _ ← applyComplete node pure
  have hkeep : ∀ node Q, Store.Writable Q → Keeps (fun s : Unit × Store Float32 => Q s.2)
      (visit node) :=
    fun node Q hQ => keeps_applyComplete_visit hQ node pure
  obtain ⟨⟨⟩, n', hback, -⟩ := hr.exists_backward hkeep
    (fun n p a hn ha => (hn.returns_applyComplete ha Store.keepsShapes_pure).bind
      fun _ _ => returns_pure trivial) ()
  have hrelays := hrelays hready hmode Unit () visit fun node Q hQ =>
    (keeps_applyComplete_of_revisable hQ node pure).bind fun _ => keeps_pure _
  have hrun := hrelays.walks.symm.trans hback
  rw [horder, List.forM_eq_forM, List.forM_cons] at hrun
  obtain ⟨u, ⟨⟨⟩, m⟩, hfirst, hrest⟩ := bind_eq_ok_iff.mp hrun
  have hdone : [3].forM (backwardNode visit) ((), relaying) = .ok ⟨⟩ ((), m) := by
    rw [List.forM_eq_forM, List.forM_cons, bind_of_ok hfirst]
    rfl
  obtain ⟨a, ha, houtputs⟩ : ∃ a, relaying.graph.nodes[2]? = some a ∧
      (a.name, a.tensors.outputs.map (·.derivative)) = ("o", [some 8]) := by
    rw [← Option.map_eq_some_iff, ← List.getElem?_map, hslots]
    rfl
  obtain ⟨y, hy, hderivative⟩ : ∃ y, a.tensors.outputs[0]? = some y ∧ y.derivative = some 8 := by
    rw [← Option.map_eq_some_iff, ← List.getElem?_map, (Prod.mk.inj houtputs).2]
    rfl
  have hd : IsDerivative relaying.graph 2 0 8 := ⟨y, ⟨a, ha, hy⟩, hderivative⟩
  obtain ⟨r, j, m', v, honly, hstop, hpassed, hvalue, -⟩ :=
    hrelays.relayed [3] 2 [1, 0] () m a 0 8 horder hdone ha hd
  obtain rfl : r = 3 := by simpa [passage] using congrArg Prod.fst (List.mem_singleton.mp hstop)
  exact ⟨(derivatives_relayed relay).1 none () relayCompiled compile_relay,
    (hprepared hr.prepared.prepared).1, visit, n', m, m', j, v, hback,
    hdone, hrest, hstop, (honly 3 j).mpr ⟨rfl, rfl⟩, hd, hpassed, hvalue⟩

end LayerGraph.Network
