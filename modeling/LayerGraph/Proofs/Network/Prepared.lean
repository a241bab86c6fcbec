import LayerGraph.Network.Memory
import LayerGraph.Proofs.Network.Prepare
import LayerGraph.Proofs.Store.Reworked

/-!
# Prepared networks

What holds of a network from the time it is prepared: all of its nodes are registered, what is fed
and what is read are tensors of its nodes, every buffer holds a value of its tensor's shape, and
optimizer state has the shapes that are asked for.
-/

namespace LayerGraph

variable {α : Type}

namespace Network

/-- What is fed and what is read belongs to the nodes. -/
structure Faces (n : Network α) : Prop where
  inputs : ∀ id ∈ n.inputs, ∃ (p : Nat) (a : Node α) (y : Wire), n.graph.nodes[p]? = some a ∧
    a.isSource = true ∧ y ∈ a.tensors.outputs ∧ y.value = id
  labels : ∀ id ∈ n.labels, ∃ (p : Nat) (a : Node α), n.graph.nodes[p]? = some a ∧
    a.tensors.label = some id
  outputs : ∀ id ∈ n.outputs, ∃ (p : Nat) (a : Node α) (y : Wire), n.graph.nodes[p]? = some a ∧
    a.isTerminal = true ∧ y ∈ a.tensors.outputs ∧ y.value = id

structure Prepared (asks : (Shape → List Shape) → Prop) (n : Network α) : Prop where
  closed : n.isCompiled = true
  prepared : n.isPrepared = true
  batch : 0 < n.batchSize
  registered : Registered n.graph n.store n.batchSize n.graph.order
  faces : Faces n
  allocated : n.store.Allocated
  loaded : n.store.Loaded
  asked : n.store.Asked asks
  mode : ∀ mode, n.store.mode = some mode → n.mode = mode

/-- A compiled network while it is being prepared, wherever that stops. -/
structure Unsettled (g₀ : NodeGraph (Node α)) (s₀ : Store α) (batch : Nat) (n : Network α) :
    Prop where
  closed : n.isCompiled = true
  unprepared : n.isPrepared = false
  batch : n.batchSize = batch
  settling : Settling g₀ n.graph
  requested : Store.SameBuffers s₀ n.store ∧ n.store.Stateless

variable {n n' : Network α} {asks : (Shape → List Shape) → Prop}

theorem node_eq_ok_iff {p : NodeRef} {a : Node α} :
    n.node p = .ok a ↔ n.graph.nodes[p]? = some a := by
  unfold Network.node
  split
  · next b hb => rw [hb, Except.ok.injEq, Option.some.injEq]
  · next hn => exact ⟨nofun, fun h => by rw [hn] at h; cases h⟩

theorem keeps_unsettled_prepareNode {g₀ : NodeGraph (Node α)} {s₀ : Store α} {batch : Nat}
    (p : NodeRef) : Action.Keeps (Unsettled g₀ s₀ batch) (prepareNode p) := by
  intro n h
  unfold prepareNode
  rw [Action.after_get_bind]
  refine Action.after_read_bind h fun a ha => ?_
  have ha := node_eq_ok_iff.mp ha
  refine Action.after_read_bind h fun owner _ => ?_
  refine Action.after_read_bind h fun inputs _ => ?_
  refine Action.after_read_bind h fun inputShapes _ => ?_
  refine Action.after_read_bind h fun declared _ => ?_
  dsimp only
  have hrest : Action.Keeps (Unsettled g₀ s₀ batch) (do
      let tensors ← onStore
        (register a (settleUse a.bufferUse inputShapes declared.outputShapes) owner
        n.graph.size inputs declared)
      modifyNode p fun node => { node with
        inputShapes := inputShapes
        outputShapes := declared.outputShapes
        tensors := tensors }) := by
    refine Action.Keeps.bind ?_ fun tensors => Action.keeps_modify fun n hn => ?_
    · exact (keeps_register ((Store.tabular_sameBuffers s₀).and Store.tabular_stateless)
        a _ inputs owner _ declared).focus (fun _ hn => hn.requested)
        fun n s hn hs => ⟨hn.closed, hn.unprepared, hn.batch, hn.settling, hs⟩
    · exact ⟨hn.closed, hn.unprepared, hn.batch,
        hn.settling.trans (settling_modifyNode (fun _ => rfl) fun _ _ => .inl rfl), hn.requested⟩
  unfold modifyNode at hrest ⊢
  rw [Action.after_modify_bind]
  refine hrest _ ⟨h.closed, h.unprepared, h.batch, h.settling.trans ?_, h.requested⟩
  refine settling_modifyNode (fun _ => rfl) fun b hb => ?_
  rw [ha] at hb
  cases hb
  exact settleUse_eq_or _ _ _

theorem keeps_unsettled_prepareAll {g₀ : NodeGraph (Node α)} {s₀ : Store α} {batch : Nat}
    (inputNames labelNames : List String) :
    Action.Keeps (Unsettled g₀ s₀ batch) (prepareAll inputNames labelNames) := by
  refine Action.keeps_get.bind fun n => ?_
  refine (Action.keeps_forM fun p _ => keeps_unsettled_prepareNode p).bind fun _ => ?_
  refine (Action.keeps_read _).bind fun inputs => (Action.keeps_read _).bind fun labels => ?_
  exact Action.keeps_modify fun n h => ⟨h.closed, h.unprepared, h.batch, h.settling, h.requested⟩

theorem unsettled_refl (h : Drawn n) : Unsettled n.graph n.store n.batchSize n :=
  ⟨h.closed, h.unprepared, rfl, .refl _, .refl _, by simp [Store.Stateless, h.blank.weights]⟩

/-- Emptying the store brings a network that is being prepared back to where it began. -/
theorem Unsettled.drawn {g₀ : NodeGraph (Node α)} {s₀ : Store α} {batch : Nat}
    (h : Unsettled g₀ s₀ batch n) (hc : Compiled g₀) (hf : s₀.forwardSteps = g₀.size)
    (hm : s₀.maxStep = lastStep g₀) (hb : 0 < batch) : Drawn { n with store := n.store.reset } := by
  have hsize : n.graph.size = g₀.size := by
    simpa [NodeGraph.size] using congrArg List.length h.settling.design
  refine ⟨h.closed, h.unprepared, h.settling.compiled hc, Store.isBlank_reset _, ?_, ?_,
    h.batch ▸ hb⟩
  · exact h.requested.1.forwardSteps.trans (hf.trans hsize.symm)
  · rw [lastStep_of_design h.settling.order h.settling.design]
    exact h.requested.1.maxStep.trans hm

theorem registered_nil (h : Drawn n) : Registered n.graph n.store n.batchSize [] := by
  refine ⟨h.compiled, .empty _ h.blank.entries h.blank.weights,
    ?_, by simp, by simp, by simp [ownedBy,
    gather], by simp [ownedBy, gather], h.forwardSteps, h.maxStep⟩
  constructor <;> simp [h.blank.weights, usesOf, gather]

/-- The nodes that a selection finds. -/
theorem mem_of_select {names : List String} {accept : Node α → Bool} {what : Selection}
    {nodes : List (Node α)} (hs : n.select names accept what = .ok nodes) {a : Node α}
    (ha : a ∈ nodes) : (∃ p : Nat, n.graph.nodes[p]? = some a) ∧ accept a = true := by
  unfold select at hs
  split at hs
  · cases hs
    obtain ⟨hmem, hacc⟩ := List.mem_filter.mp ha
    obtain ⟨p, -, hp⟩ := List.mem_filterMap.mp hmem
    exact ⟨⟨p, hp⟩, hacc⟩
  · obtain ⟨name, -, hname⟩ := except_mapM_mem_result hs ha
    split at hname
    · next b hb =>
      split at hname
      · next hacc =>
        cases hname
        exact ⟨List.getElem?_of_mem (List.mem_of_find?_eq_some hb), hacc⟩
      · cases hname
    · cases hname

theorem prepared_of_prepareAll {inputNames labelNames : List String} {u : Unit} (h : Drawn n)
    (hp : prepareAll inputNames labelNames n = .ok u n') :
    Registered n'.graph n'.store n'.batchSize n'.graph.order ∧ Faces n' := by
  obtain ⟨_, _, hget, h₁⟩ := Action.bind_eq_ok_iff.mp hp
  cases hget
  obtain ⟨_, n₁, hall, h₂⟩ := Action.bind_eq_ok_iff.mp h₁
  obtain ⟨inputs, _, hread, h₃⟩ := Action.bind_eq_ok_iff.mp h₂
  obtain ⟨hinputs, rfl⟩ := Action.read_eq_ok_iff.mp hread
  obtain ⟨labels, _, hread, h₄⟩ := Action.bind_eq_ok_iff.mp h₃
  obtain ⟨hlabels, rfl⟩ := Action.read_eq_ok_iff.mp hread
  cases h₄
  obtain ⟨hreg, hset⟩ := Action.forM_prefix (fun done n₁ =>
    Registered n₁.graph n₁.store n₁.batchSize done ∧ Settling n.graph n₁.graph) hall
    ⟨registered_nil h, .refl _⟩ fun done p rest n₁ n₂ u hsplit hd hstep => by
      obtain ⟨hreg, hset⟩ := hd
      obtain ⟨hreg', hset'⟩ := registered_step hreg (by rw [hset.order]; exact hsplit) hstep
      obtain ⟨_, _, _, _, _, _, _, _, -, -, -, -, -, -, -, rfl⟩ := stages_of_prepareNode hstep
      exact ⟨hreg', hset.trans hset'⟩
  refine ⟨by rw [← hset.order] at hreg; exact hreg, ?_, ?_, ?_⟩
  · intro id hid
    obtain ⟨a, ha, hhead⟩ := List.mem_filterMap.mp hid
    obtain ⟨⟨p, hp⟩, hsource⟩ := mem_of_select hinputs ha
    obtain ⟨y, hy, rfl⟩ := Option.map_eq_some_iff.mp hhead
    exact ⟨p, a, y, hp, hsource, List.mem_of_head? hy, rfl⟩
  · intro id hid
    obtain ⟨a, ha, hlabel⟩ := List.mem_filterMap.mp hid
    obtain ⟨⟨p, hp⟩, -⟩ := mem_of_select hlabels ha
    exact ⟨p, a, hp, hlabel⟩
  · intro id hid
    obtain ⟨a, ha, hid⟩ := List.mem_flatMap.mp hid
    obtain ⟨hmem, hterminal⟩ := List.mem_filter.mp ha
    obtain ⟨p, -, hp⟩ := List.mem_filterMap.mp hmem
    obtain ⟨y, hy, rfl⟩ := List.mem_map.mp hid
    exact ⟨p, a, y, hp, hterminal, hy, rfl⟩

/-- The stages of a preparation that ends well. -/
theorem prepareAll_of_prepare {inputNames labelNames : List String} {u : Unit}
    (hp : prepare inputNames labelNames n = .ok u n') :
    ∃ n₁, prepareAll inputNames labelNames n = .ok ⟨⟩ n₁ ∧ n' = { n₁ with isPrepared := true } := by
  unfold prepare at hp
  obtain ⟨_, _, hget, h₁⟩ := Action.bind_eq_ok_iff.mp hp
  cases hget
  obtain ⟨-, h₂⟩ := Action.guard_eq_ok_iff.mp h₁
  obtain ⟨_, _, hget, h₃⟩ := Action.bind_eq_ok_iff.mp h₂
  cases hget
  obtain ⟨-, h₄⟩ := Action.guard_eq_ok_iff.mp h₃
  obtain ⟨_, n₁, htry, h₅⟩ := Action.bind_eq_ok_iff.mp h₄
  cases h₅
  refine ⟨n₁, ?_, rfl⟩
  cases hall : prepareAll inputNames labelNames n with
  | ok u₁ n₂ =>
    rw [Action.tryCatch_of_ok hall] at htry
    exact htry
  | error e n₂ =>
    rw [Action.tryCatch_of_error hall] at htry
    cases htry

/-- A compiled network all of whose nodes can be finalized can be prepared. -/
theorem prepare_of_prepareAll {inputNames labelNames : List String} {u : Unit} {n₁ : Network α}
    (hclosed : n.isCompiled = true) (hunprepared : n.isPrepared = false)
    (hall : prepareAll inputNames labelNames n = .ok u n₁) :
    prepare inputNames labelNames n = .ok ⟨⟩ { n₁ with isPrepared := true } := by
  unfold prepare
  rw [Action.bind_of_ok (Action.get_apply _)]
  dsimp only
  rw [if_neg (by rw [hclosed]; simp), Action.bind_of_ok (Action.get_apply _),
    if_neg (by rw [hunprepared]; simp), Action.bind_of_ok (Action.tryCatch_of_ok hall)]
  rfl

theorem prepared_of_prepare {inputNames labelNames : List String} {u : Unit} (h : Drawn n)
    (hp : prepare inputNames labelNames n = .ok u n') : Prepared asks n' := by
  obtain ⟨n₁, hall, rfl⟩ := prepareAll_of_prepare hp
  have hu := keeps_unsettled_prepareAll inputNames labelNames n (unsettled_refl h)
  rw [Action.after_of_ok hall] at hu
  obtain ⟨hreg, hfaces⟩ := prepared_of_prepareAll h hall
  have hmode : n₁.store.mode = none := hu.requested.1.mode.trans h.blank.mode
  refine ⟨hu.closed, rfl, hu.batch ▸ h.batch, hreg, ⟨hfaces.inputs, hfaces.labels, hfaces.outputs⟩,
    ⟨fun mode hm => ?_, fun _ => ?_⟩, ⟨fun k r v hs => ?_, fun r v hl => ?_, fun hw => ?_⟩,
    hu.requested.2.asked, fun mode hm => ?_⟩
  · rw [show n₁.store.mode = some mode from hm] at hmode
    cases hmode
  · exact ⟨hu.requested.1.slots.trans h.blank.slots, hu.requested.1.slotOf.trans h.blank.slotOf⟩
  · rw [hu.requested.1.slots, h.blank.slots] at hs
    cases hs
  · rw [hu.requested.1.persistent, h.blank.persistent] at hl
    cases hl
  · rw [hu.requested.1.hasWeights, h.blank.hasWeights] at hw
    cases hw
  · rw [show n₁.store.mode = some mode from hm] at hmode
    cases hmode

/-- A preparation that fails leaves a network as it was compiled. -/
theorem fails_drawn_prepare (inputNames labelNames : List String) :
    Action.Fails (Drawn (α := α)) (prepare inputNames labelNames) := by
  unfold prepare
  refine Action.Fails.bind Action.keeps_get fun _ => Action.Fails.guard ?_
  refine Action.Fails.bind Action.keeps_get fun _ => Action.Fails.guard ?_
  refine Action.Fails.bind_modify (f := fun _ (n : Network α) => { n with isPrepared := true }) ?_
  intro n e n' h hr
  cases hall : prepareAll inputNames labelNames n with
  | ok u₁ n₂ =>
    rw [Action.tryCatch_of_ok hall] at hr
    cases hr
  | error e n₂ =>
    rw [Action.tryCatch_of_error hall] at hr
    cases hr
    have hu := keeps_unsettled_prepareAll inputNames labelNames n (unsettled_refl h)
    rw [Action.after_of_error hall] at hu
    exact hu.drawn h.compiled h.forwardSteps h.maxStep h.batch

end Network

end LayerGraph
