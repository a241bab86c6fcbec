import LayerGraph.Proofs.GradientDescent
import LayerGraph.Proofs.Layer.Runs
import LayerGraph.Proofs.Network.Sound
import LayerGraph.Single

/-!
# Networks that run

A network that is reached, prepared, filled and allocated runs: no forward run fails, and none
backward if tensors are allocated for training and the rule for the weights changes no shape.
Preparing is a sound check of shapes.
-/

namespace LayerGraph.Network

open LayerGraph.Action

variable {α τ : Type} {n : Network α} {asks : (Shape → List Shape) → Prop} {mode : RunMode}

structure Ready (asks : (Shape → List Shape) → Prop) (mode : RunMode) (n : Network α) : Prop where
  prepared : Prepared asks n
  allocated : n.store.mode = some mode
  filled : n.store.hasWeights = true

theorem Prepared.ready (h : Prepared asks n) (hr : checkReady n = .ok ()) :
    ∃ mode, n.store.mode = some mode ∧ Ready asks mode n := by
  unfold checkReady at hr
  rw [h.closed, h.prepared] at hr
  simp only [Bool.not_true, Bool.false_eq_true, if_false] at hr
  split at hr
  · cases hr
  · next hboth =>
    simp only [Bool.or_eq_true, Bool.not_eq_true', not_or, Bool.not_eq_false] at hboth
    obtain ⟨mode, hmode⟩ := Option.isSome_iff_exists.mp hboth.1
    exact ⟨mode, hmode, h, hmode, hboth.2⟩

namespace Ready

variable (h : Ready asks mode n)
include h

theorem checkReady : checkReady n = .ok () := by
  unfold Network.checkReady Store.hasTensors
  rw [h.prepared.closed, h.prepared.prepared, h.allocated, h.filled]
  rfl

theorem placed : n.store.Placed mode := h.prepared.allocated.placed mode h.allocated

section Node

variable {p : Nat} {a : Node α} (ha : n.graph.nodes[p]? = some a)
include ha

theorem holds : a.Holds n.store n.graph.size :=
  h.prepared.registered.holds p
    (mem_order_of_node h.prepared.registered.compiled.ordered.perm ha) a ha

theorem forward_lt : a.schedule.forward < n.store.forwardSteps := by
  have hr := h.prepared.registered
  rw [hr.compiled.schedule p a ha, scheduleOf_forward, hr.forwardSteps]
  exact place_lt hr.compiled.ordered.perm ha

omit ha in
theorem buffered_of_external {id : TensorRef} {width : Nat} (hpos : 0 < n.store.forwardSteps)
    (he : n.store.IsExternal id) (hw : n.store.HasWidth id width) :
    n.store.Buffered id ⟨n.batchSize, width⟩ := by
  have hr := h.prepared.registered.registry
  obtain ⟨e, he, hs, hrole⟩ := he
  refine Store.buffered_of_hasWidth hr h.placed hw (t := 0) ?_ (.inr hpos)
  exact Store.mem_stepsOf_iff.mpr ⟨e, Store.backing_of_source_eq_none he hs,
    (hr.external _ e he hs hrole).1⟩

omit ha in
theorem buffered_of_hasWeight {w : WeightRef} {shape : Shape} (hw : n.store.HasWeight w shape) :
    ∃ r, n.store.weights[w]? = some r ∧ n.store.Buffered r.value shape := by
  have hr := h.prepared.registered.registry
  obtain ⟨r, e, hw, he, -, rfl⟩ := hw
  obtain ⟨e', he', hrole⟩ := hr.value w r hw
  rw [he] at he'
  cases he'
  exact ⟨r, hw, Store.buffered_of_kept hr he (by rw [hrole]; rfl) h.filled⟩

theorem equipped : Equipped n.store n.batchSize a.tensors := by
  have hr := h.prepared.registered
  have hold := h.holds ha
  have hlt := h.forward_lt ha
  have hpos : 0 < n.store.forwardSteps := Nat.lt_of_le_of_lt (Nat.zero_le _) hlt
  refine ⟨fun x hx width hw => ?_, fun y hy width hw => ?_, fun l hl width hw => ?_,
    fun w shape hw => h.buffered_of_hasWeight hw⟩
  · exact Store.buffered_of_hasWidth hr.registry h.placed hw
      (hold.reads x hx _ (List.mem_cons_self ..)) (.inr hlt)
  · have ho := hold.outputs y hy
    cases hs : a.isSource with
    | true => exact h.buffered_of_external hpos (ho.source hs) hw
    | false =>
      exact Store.buffered_of_hasWidth hr.registry h.placed hw
        (ho.writes hs a.schedule.forward (by simp [outputSteps])) (.inr hlt)
  · exact h.buffered_of_external hpos (hold.label l hl) hw

end Node

end Ready

section Train

variable (h : Ready asks .train n) {p : Nat} {a : Node α} (ha : n.graph.nodes[p]? = some a)
include h

theorem Ready.buffered_gradient {w : WeightRef} {shape : Shape} {r : WeightRecord} {g : TensorRef}
    (hw : n.store.HasWeight w shape) (hr : n.store.weights[w]? = some r)
    (hg : r.gradient = some g) : n.store.Buffered g shape := by
  have hreg := h.prepared.registered
  obtain ⟨e, e', he, hrole, he', hshape⟩ := hreg.registry.gradient w r g hr hg
  have huses : usesOf n.graph n.graph.order w ≠ [] :=
    (hreg.collected.gradient w r hr).mp (by rw [hg]; rfl)
  obtain ⟨t, ht⟩ := List.exists_mem_of_ne_nil _ huses
  have hused := (hreg.collected.used w r g t hr hg ht).1
  have hb := Store.buffered_of_used hreg.registry h.placed
    (Store.backing_of_source_eq_none he (hreg.registry.source_eq_none he (by rw [hrole]; rfl)))
    (by rw [hrole]; rfl) hused (.inl rfl)
  obtain ⟨r', e₀, hr', he₀, -, rfl⟩ := hw
  rw [hr] at hr'
  cases hr'
  rw [he'] at he₀
  cases he₀
  exact hshape ▸ hb

include ha

theorem Ready.equippedBack (hpart : a.participates = true) :
    EquippedBack n.store n.batchSize a.tensors := by
  have hreg := h.prepared.registered
  have hold := h.holds ha
  obtain ⟨turn, hturn⟩ := (exists_turn_iff hreg.compiled.ordered.perm ha).mp hpart
  have hback : a.schedule.backward = some turn := by rw [hreg.compiled.schedule p a ha, hturn]
  refine ⟨h.equipped ha, fun x hx d hd width hw => ?_, fun y hy d hd width hw => ?_,
    fun w shape r g hw hr hg => h.buffered_gradient hw hr hg⟩
  · refine Store.buffered_of_hasWidth hreg.registry h.placed hw
      (hold.returns x hx d turn.derivativeStep hd ?_) (.inl rfl)
    rw [Schedule.derivativeStep, hback]
    rfl
  · refine Store.buffered_of_hasWidth hreg.registry h.placed hw
      ((hold.outputs y hy).taken d hd turn.gradientStep ?_) (.inl rfl)
    rw [Schedule.returnSteps, hback]
    simp

/-- A rule that changes no shape can be applied to the weights of a node. -/
theorem Ready.returns_applyComplete [Scalar α] {rule : WeightState α → Action τ (WeightState α)}
    (hrule : Store.KeepsShapes asks rule) :
    Returns (fun s : τ × Store α => n.store.Held s.2) (applyComplete a rule) fun _ => True := by
  have hreg := h.prepared.registered
  unfold applyComplete
  cases a.schedule.gradientStep with
  | none => exact returns_pure trivial
  | some step =>
    refine returns_foldlM (fun applied w hw _ => ?_) trivial
    obtain ⟨shape, hshape⟩ := (h.holds ha).fits.weight hw
    obtain ⟨r, hr, hvalue⟩ := h.buffered_of_hasWeight hshape
    refine (returns_read (Q := fun _ => True) fun s hs => ?_).bind fun last _ => ?_
    · refine ⟨(r.trainable && r.gradient.isSome) && decide (r.gradientSteps.max? = some step), ?_,
        trivial⟩
      unfold Store.trains Store.isLastGradientStep
      rw [hs.weight hr]
      rfl
    · cases last with
      | false => exact returns_pure trivial
      | true =>
        refine (Store.returns_revise hr (fun g hg => h.buffered_gradient hshape hr hg) hvalue
          (fun id hid => ?_) hrule).bind fun _ _ => returns_pure trivial
        obtain ⟨shapes, e, e', hasks, he, he', hmem⟩ := h.prepared.asked w r id hr hid
        obtain ⟨e₁, he₁, hrole⟩ := hreg.registry.state w r id hr hid
        rw [he] at he₁
        cases he₁
        obtain ⟨r', e₂, hr', he₂, -, rfl⟩ := hshape
        rw [hr] at hr'
        cases hr'
        rw [he'] at he₂
        cases he₂
        exact ⟨e.shape, Store.buffered_of_kept hreg.registry he (by rw [hrole]; rfl) h.filled,
          shapes, hasks, hmem⟩

end Train

section Run

variable [Scalar α]

/-- A ready network whose nodes are those of `g`, but for the losses that they have found. -/
def Runs (asks : (Shape → List Shape) → Prop) (mode : RunMode) (g : NodeGraph (Node α))
    (n : Network α) : Prop :=
  Ready asks mode n ∧ n.graph.nodes.map Node.core = g.nodes.map Node.core

omit [Scalar α] in
theorem Runs.held {g : NodeGraph (Node α)} (h : Runs asks mode g n) {n' : Network α}
    (hp : Prepared asks n') (hs : n.store.Held n'.store)
    (hg : n'.graph.nodes.map Node.core = n.graph.nodes.map Node.core) : Runs asks mode g n' :=
  ⟨⟨hp, hs.1.mode.trans h.1.allocated, hs.1.hasWeights.trans h.1.filled⟩, hg.trans h.2⟩

variable {g : NodeGraph (Node α)} {p : Nat} {b : Node α} (hb : g.nodes[p]? = some b)

include hb in
omit [Scalar α] in
theorem Runs.node (h : Runs asks mode g n) : ∃ a, n.graph.nodes[p]? = some a ∧ a.core = b.core := by
  obtain ⟨a, ha, heq⟩ := getElem?_of_map_eq h.2.symm hb
  exact ⟨a, ha, heq⟩

include hb in
/-- A hook that ends well on the node that it runs for. -/
theorem returns_runHook {hook : Layer α → Hook α Unit}
    (hkeep : ∀ layer : Layer α, layer.Confined → ∀ Q, Store.Writable Q → Hook.Keeps Q (hook layer))
    (hhook : ∀ n a, Ready asks mode n → n.graph.nodes[p]? = some a → a.core = b.core →
      Hook.Returns n.store a.view (hook a.layer) fun _ => True) :
    Returns (Runs asks mode g) (runHook p hook) fun _ => True := by
  intro n h
  obtain ⟨a, ha, hcore⟩ := h.node hb
  obtain ⟨u, s, hs, hheld, -⟩ := hhook n a h.1 ha hcore ⟨n.store, a.loss, n.notes⟩
    (.refl h.1.prepared.loaded)
  have hread : Action.read (fun n : Network α => n.node p) n = .ok a n :=
    read_of_ok (node_eq_ok_iff.mpr ha)
  have hrun : runHook p hook n = .ok u (n.keep p s) := (bind_of_ok hread).trans (focus_of_ok hs)
  refine ⟨u, n.keep p s, hrun, h.held ?_ hheld ?_, trivial⟩
  · have hkept : Prepared asks _ := (steady_prepared asks).keeps_runHook p hkeep n h.1.prepared
    rwa [after_of_ok hrun] at hkept
  · exact map_modify_eq (f := Node.core) (fun _ => by rfl) _ _

omit [Scalar α] in
theorem Runs.mem (h : Runs asks mode g n) (hp : p ∈ n.graph.order) : ∃ b, g.nodes[p]? = some b := by
  have hlt := (mem_order_iff h.1.prepared.registered.compiled.ordered.perm).mp hp
  have hlen : n.graph.nodes.length = g.nodes.length := by simpa using congrArg List.length h.2
  exact ⟨_, List.getElem?_eq_getElem (hlen ▸ hlt)⟩

/-- The outputs of a ready network can be read. -/
theorem Ready.exists_outputTensors (h : Ready asks mode n) :
    ∃ outputs, outputTensors n = .ok outputs := by
  refine except_mapM_exists fun id hid => ?_
  obtain ⟨p, a, y, ha, -, hy, rfl⟩ := h.prepared.faces.outputs id hid
  obtain ⟨width, hwidth⟩ := (h.holds ha).fits.output hy
  obtain ⟨v, hv, -⟩ := (Store.Held.refl h.prepared.loaded).get
    ((h.equipped ha).output y hy _ hwidth.value)
  exact ⟨v, hv⟩

theorem Ready.exists_forward (h : Ready asks mode n) {training : Bool}
    (hmode : training = false ∨ mode = .train) :
    ∃ outputs n', forward training n = .ok outputs n' ∧ Ready asks mode n' := by
  have hstart : Runs asks mode n.graph n := ⟨h, rfl⟩
  have hguard : ¬ (training = true ∧ n.mode = .inference) := by
    rintro ⟨ht, hm⟩
    rcases hmode with hmode | rfl
    · rw [hmode] at ht
      cases ht
    · rw [h.prepared.mode _ h.allocated] at hm
      cases hm
  have hrun : Returns (Runs asks mode n.graph) (do
      n.graph.order.forM fun id => runHook id (Layer.forward · training)
      Action.read outputTensors) fun _ => True := by
    refine (returns_forM fun p hp => ?_).bind fun _ _ => returns_read fun n hn => ?_
    · obtain ⟨b, hb⟩ := hstart.mem hp
      exact returns_runHook hb (fun layer hlayer Q hQ => hlayer.forward Q hQ training)
        fun n a hn ha _ => Layer.returns_forward (hn.holds ha).fits (hn.equipped ha) training
    · obtain ⟨outputs, hout⟩ := hn.1.exists_outputTensors
      exact ⟨outputs, hout, trivial⟩
  obtain ⟨outputs, n', hout, hn', -⟩ := hrun n hstart
  refine ⟨outputs, n', ?_, hn'.1⟩
  unfold forward
  rw [bind_of_ok (read_of_ok h.checkReady), bind_of_ok (get_apply n), if_neg hguard]
  exact hout

section Hooks

variable (hb : g.nodes[p]? = some b) (hpart : b.participates = true)
include hb hpart

theorem returns_collect : Returns (Runs asks .train g) (runHook p Layer.collectGradients) fun _ =>
    True :=
  returns_runHook hb (fun _ hlayer => hlayer.collectGradients) fun _ a hn ha hcore =>
    Layer.returns_collectGradients a.view (hn.holds ha).fits
      (hn.equippedBack ha ((part_of_core hcore).1.trans hpart))

theorem returns_passBack : Returns (Runs asks .train g) (runHook p Layer.passBack) fun _ => True :=
  returns_runHook hb (fun _ hlayer => hlayer.passBack) fun _ a hn ha hcore =>
    Layer.returns_passBack a.view (hn.holds ha).fits
      (hn.equippedBack ha ((part_of_core hcore).1.trans hpart))

end Hooks

/-- A backward pass of a ready network comes to all of its nodes in reverse order. -/
theorem Ready.backward_apply (h : Ready asks .train n) (visit : Node α → Action (τ × Store α) Unit)
    (own : τ) :
    backward visit (own, n) = n.graph.order.reverse.forM (backwardNode visit) (own, n) := by
  have hread : Action.read (fun s : τ × Network α => Network.checkReady s.2) (own, n) =
      .ok () (own, n) := read_of_ok h.checkReady
  unfold backward
  rw [bind_of_ok hread, bind_of_ok (get_apply (own, n)),
    if_neg (not_not.mpr (h.prepared.mode _ h.allocated))]
  exact bind_of_ok (get_apply (own, n))

section Backward

variable {visit : Node α → Action (τ × Store α) Unit}
  (hkeep : ∀ node Q, Store.Writable Q → Keeps (fun s : τ × Store α => Q s.2) (visit node))
  (hvisit : ∀ (n : Network α) (p : Nat) (a : Node α), Ready asks .train n →
    n.graph.nodes[p]? = some a →
    Returns (fun s : τ × Store α => n.store.Held s.2) (visit a) fun _ => True)
include hkeep hvisit

theorem returns_backwardNode (hb : g.nodes[p]? = some b) :
    Returns (fun s : τ × Network α => Runs asks .train g s.2) (backwardNode visit p) fun _ =>
      True := by
  have hread : Returns (fun s : τ × Network α => Runs asks .train g s.2)
      (Action.read fun s : τ × Network α => s.2.node p) fun a => a.core = b.core := by
    refine returns_read fun s hs => ?_
    obtain ⟨a, ha, hcore⟩ := hs.node hb
    exact ⟨a, node_eq_ok_iff.mpr ha, hcore⟩
  have hlast : Returns (fun s : τ × Network α => Runs asks .train g s.2) (do
      let node ← Action.read (·.2.node p)
      onOwnStore (visit node)) fun _ => True := by
    rintro ⟨own, n⟩ hs
    obtain ⟨a, ha, -⟩ := hs.node hb
    obtain ⟨u, ⟨own', s⟩, hvisited, hheld, -⟩ :=
      hvisit n p a hs.1 ha (own, n.store) (.refl hs.1.prepared.loaded)
    have hread : Action.read (fun s : τ × Network α => s.2.node p) (own, n) = .ok a (own, n) :=
      read_of_ok (node_eq_ok_iff.mpr ha)
    have hown : onOwnStore (visit a) (own, n) = .ok u (own', { n with store := s }) :=
      Action.focus_eq_ok_iff.mpr ⟨(own', s), hvisited, rfl⟩
    refine ⟨u, _, (bind_of_ok hread).trans hown, hs.held (n := n) ?_ hheld rfl, trivial⟩
    have hkept : Prepared asks _ :=
      (steady_prepared asks).keeps_onOwnStore (hkeep a) (own, n) hs.1.prepared
    rwa [after_of_ok hown] at hkept
  refine hread.bind fun a hcore => ?_
  cases hpart : a.participates with
  | false => exact returns_pure trivial
  | true =>
    have hpart : b.participates = true := (part_of_core hcore).1.symm.trans hpart
    have hhook : ∀ {hook : Layer α → Hook α Unit},
        Returns (Runs asks .train g) (runHook p hook) (fun _ => True) →
        Returns (fun s : τ × Network α => Runs asks .train g s.2) (onNetwork (runHook p hook))
          fun _ => True :=
      fun hhook => hhook.focus (fun _ h => h) fun _ _ _ h => h
    have hcollect := hhook (returns_collect hb hpart)
    have hpass := hhook (returns_passBack hb hpart)
    have hthen : Returns (fun s : τ × Network α => Runs asks .train g s.2) (do
        if a.passesDerivatives then onNetwork (runHook p Layer.passBack)
        let node ← Action.read (·.2.node p)
        onOwnStore (visit node)) fun _ => True := by
      cases a.passesDerivatives with
      | true => exact hpass.bind fun _ _ => hlast
      | false => exact hlast
    cases a.collectsGradients with
    | true => exact hcollect.bind fun _ _ => hthen
    | false => exact hthen

theorem Ready.exists_backward (h : Ready asks .train n) (own : τ) :
    ∃ own' n', backward visit (own, n) = .ok () (own', n') ∧ Ready asks .train n' := by
  have hstart : Runs asks .train n.graph n := ⟨h, rfl⟩
  have hrun : Returns (fun s : τ × Network α => Runs asks .train n.graph s.2)
      (n.graph.order.reverse.forM (backwardNode visit)) fun _ => True := by
    refine returns_forM fun p hp => ?_
    obtain ⟨b, hb⟩ := hstart.mem (List.mem_reverse.mp hp)
    exact returns_backwardNode hkeep hvisit hb
  obtain ⟨⟨⟩, ⟨own', n'⟩, hback, hn', -⟩ := hrun (own, n) hstart
  exact ⟨own', n', (h.backward_apply visit own).trans hback, hn'.1⟩

end Backward

omit [Scalar α] in
theorem Sound.ready (h : Sound asks n) (hready : Network.checkReady n = .ok ()) :
    ∃ mode, n.store.mode = some mode ∧ Ready asks mode n := by
  have hprepared : Prepared asks n := by
    refine h.cases.resolve_left fun hbare => ?_
    obtain ⟨e, he⟩ := hbare.checkReady
    rw [hready] at he
    cases he
  exact hprepared.ready hready

theorem Reached.ready (h : Reached asks n) (hready : Network.checkReady n = .ok ()) :
    ∃ mode, n.store.mode = some mode ∧ Ready asks mode n :=
  (sound_of_reached h).ready hready

/-- Preparing is a sound check of shapes. A network that is prepared, filled and allocated, whatever
it took to get there and whatever it has been fed, runs forward without a fault, and backward too if
it is allocated for training, under every rule that changes no shape and so under gradient descent.
Whatever it has written is of the shape of its tensor. -/
theorem runs_of_reached {ρ : Type} [Rate ρ α] (h : Reached asks n)
    (hready : checkReady n = .ok ()) :
    (∀ training : Bool, training = false ∨ n.store.mode = some .train →
      ∃ outputs n', forward training n = .ok outputs n' ∧ n'.store.Loaded) ∧
    (n.store.mode = some .train →
      (∀ (τ : Type) (own : τ) (rule : String → WeightState α → Action τ (WeightState α)),
        (∀ name, Store.KeepsShapes asks (rule name)) →
        ∃ own' n', backward (fun node => do let _ ← applyComplete node (rule node.name)) (own, n) =
          .ok () (own', n') ∧ n'.store.Loaded) ∧
      ((∀ shapes, asks shapes → ∃ asking : GradientDescent ρ, shapes = asking.stateShapes) →
        ∀ descent : GradientDescent ρ,
        ∃ n', backward (fun node => do
            let _ ← applyComplete node fun u => Action.read fun _ => descent.apply u) ((), n) =
          .ok () ((), n') ∧ n'.store.Loaded)) := by
  obtain ⟨mode, hmode, hr⟩ := h.ready hready
  refine ⟨fun training ht => ?_, fun htrain => ?_⟩
  · obtain ⟨outputs, n', hrun, hr'⟩ := hr.exists_forward (ht.imp_right fun ht => by
      rw [hmode] at ht
      exact Option.some.inj ht)
    exact ⟨outputs, n', hrun, hr'.prepared.loaded⟩
  · obtain rfl : mode = .train := Option.some.inj (hmode.symm.trans htrain)
    have hback : ∀ (τ : Type) (own : τ) (rule : String → WeightState α → Action τ (WeightState α)),
        (∀ name, Store.KeepsShapes asks (rule name)) →
        ∃ own' n', backward (fun node => do let _ ← applyComplete node (rule node.name)) (own, n) =
          .ok () (own', n') ∧ n'.store.Loaded := by
      intro τ own rule hrule
      obtain ⟨own', n', hrun, hr'⟩ := hr.exists_backward
        (fun node Q hQ => keeps_applyComplete_visit hQ node (rule node.name))
        (fun n p a hn ha => (hn.returns_applyComplete ha (hrule a.name)).bind fun _ _ =>
          returns_pure trivial) own
      exact ⟨own', n', hrun, hr'.prepared.loaded⟩
    refine ⟨hback, fun hasks descent => ?_⟩
    obtain ⟨⟨⟩, n', hrun⟩ :=
      hback Unit () _ fun _ => GradientDescent.keepsShapes_apply hasks descent
    exact ⟨n', hrun⟩

end Run

/-- A layer with weights behind a graph input, prepared, filled and allocated for training. -/
def readied : Network Float32 :=
  let drafted := (add (.ofLayer (.fullyConnected 1 .zeros .zeros) "y" [⟨"x", 0⟩])).after
    ((add (.ofLayer (.input 2) "x" [])).after (ofSettings ⟨2, true, none, []⟩))
  (allocate .train).after (fillWeights.after ((prepare [] []).after ((compile none).after drafted)))

theorem reached_readied :
    Reached (fun shapes => ∃ asking : GradientDescent Float, shapes = asking.stateShapes) readied :=
  .allocate _ (.fillWeights (.prepare _ _ (.compile _ (.add _ (Node.isPlain_ofLayer rfl _ _)
    (.add _ (Node.isPlain_ofLayer rfl _ _) (.settings _))))))

theorem readied_ready : checkReady readied = .ok () ∧ readied.store.mode = some .train := by cbv

theorem readied_runs : (∃ outputs n', forward true readied = .ok outputs n') ∧
    ∀ descent : GradientDescent Float, ∃ n', backward (fun node => do
        let _ ← applyComplete node fun u => Action.read fun _ => descent.apply u) ((), readied) =
      .ok () ((), n') := by
  obtain ⟨hforward, hbackward⟩ := runs_of_reached (ρ := Float) reached_readied readied_ready.1
  obtain ⟨-, hdescent⟩ := hbackward readied_ready.2
  obtain ⟨outputs, n', hrun, -⟩ := hforward true (.inr readied_ready.2)
  refine ⟨⟨outputs, n', hrun⟩, fun descent => ?_⟩
  obtain ⟨n', hrun, -⟩ := hdescent (fun _ h => h) descent
  exact ⟨n', hrun⟩

end LayerGraph.Network
