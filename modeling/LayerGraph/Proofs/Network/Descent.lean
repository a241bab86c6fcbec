import LayerGraph.Proofs.Network.Optimized
import LayerGraph.Proofs.Network.Survey
import LayerGraph.Proofs.Tensor.Entries

/-!
# Gradient descent without buffers

Mini-batch gradient descent as it is written down without any buffer: the loss and the gradients of
a batch are functions of the weights, and a step moves every weight that is trained against its
gradient. A network in training takes just these steps, although it replaces weights while it is
still passing derivatives back.
-/

namespace LayerGraph

open Network

variable {ρ α : Type} [Rate ρ α] [Scalar α]

/-- What is held of weights: of each its value and its optimizer state. -/
abbrev Holding (α : Type) := WeightRef → Except Error (Tensor α × List (Tensor α))

omit [Scalar α] in
@[simp] theorem renewed_self (state : List (Tensor α)) : renewed state state = state := by
  induction state with
  | nil => rfl
  | cons v state ih => exact congrArg (v :: ·) ih

namespace GradientDescent

variable {descent : GradientDescent ρ} {u new : WeightState α}

/-- A weight `w` moves to `w - g * rate`. With momentum it moves to `w - v' * rate` with its new
velocity `v' = v * momentum + g`. -/
def moved (descent : GradientDescent ρ) (gradient : Tensor α) (held : Tensor α × List (Tensor α)) :
    Except Error (Tensor α × List (Tensor α)) :=
  let against (step : Tensor α) : Tensor α :=
    .ofFn held.1.shape fun i j => held.1.get i j - step.get i j * Rate.narrow descent.learningRate
  if Rate.isPositive descent.momentum then
    match held.2 with
    | [] => .error (.resource .missingState)
    | velocity :: rest =>
      let next : Tensor α := .ofFn held.1.shape fun i j =>
        velocity.get i j * Rate.narrow descent.momentum + gradient.get i j
      .ok (against next, next :: rest)
  else .ok (against gradient, held.2)

/-- Where the steps have the shapes of the weights, the difference is taken entry by entry. -/
theorem eq_of_sub {value step value' : Tensor α} {c : α} (hshape : step.shape = value.shape)
    (h : value.sub (step.scale c) = .ok value') :
    value' = .ofFn value.shape fun i j => value.get i j - step.get i j * c := by
  have heq : value.sub (step.scale c) = _ := Tensor.zipWith_of_shape (· - ·) hshape.symm
  rw [heq] at h
  rw [← Except.ok.inj h]
  refine Tensor.ofFn_congr fun i j hi hj => ?_
  rw [Tensor.get_scale c step (hshape ▸ hi) (hshape ▸ hj)]

/-- What gradient descent makes of a weight, unless it changes a shape. -/
theorem moved_of_apply (hgradient : u.gradient.shape = u.value.shape)
    (hvelocity : Rate.isPositive descent.momentum = true → u.state ≠ [])
    (h : descent.apply u = .ok new) (hsame : u.SameShapes new) :
    descent.moved u.gradient (u.value, u.state) = .ok (new.value, renewed u.state new.state) := by
  obtain ⟨name, value, gradient, state⟩ := u
  obtain ⟨hvalue, hstates⟩ := hsame
  obtain ⟨⟨step, state'⟩, hstep, h⟩ := except_bind_eq_ok_iff.mp h
  obtain ⟨value', hsub, h⟩ := except_bind_eq_ok_iff.mp h
  cases h
  dsimp only at hgradient hvelocity hvalue hstates hsub ⊢
  unfold GradientDescent.step at hstep
  dsimp only at hstep
  unfold moved
  dsimp only
  cases hpositive : Rate.isPositive descent.momentum with
  | false =>
    rw [if_neg Bool.false_ne_true]
    rw [hpositive] at hstep
    have hplain : step = gradient ∧ state' = state := by
      cases state <;> cases hstep <;> exact ⟨rfl, rfl⟩
    obtain ⟨rfl, rfl⟩ := hplain
    rw [renewed_self, ← eq_of_sub hgradient hsub]
  | true =>
    rw [if_pos rfl]
    cases state with
    | nil => exact absurd rfl (hvelocity hpositive)
    | cons velocity rest =>
      dsimp only at hstep ⊢
      rw [hpositive, if_pos rfl] at hstep
      obtain ⟨_, hadd, hstep⟩ := except_bind_eq_ok_iff.mp hstep
      cases hstep
      -- Velocities are of the shapes of their weights, as otherwise one of the two would have
      -- changed its shape.
      have hnext : step.shape = velocity.shape := hstates (velocity, step) (by simp)
      have hjoin := Tensor.shape_of_zipWith hadd
      have hjoin' := Tensor.shape_of_zipWith hsub
      rw [Tensor.shape_scale] at hjoin hjoin'
      rw [hnext, hgradient] at hjoin
      rw [hnext, hvalue] at hjoin'
      have hvelocity : velocity.shape = value.shape := Shape.eq_of_join hjoin hjoin'
      have heq : (velocity.scale (Rate.narrow descent.momentum)).add gradient = _ :=
        Tensor.zipWith_of_shape (· + ·) (hvelocity.trans hgradient.symm)
      have hnew : step = .ofFn value.shape fun i j =>
          velocity.get i j * Rate.narrow descent.momentum + gradient.get i j := by
        rw [heq] at hadd
        rw [← Except.ok.inj hadd, Tensor.shape_scale, hvelocity]
        refine Tensor.ofFn_congr fun i j hi hj => ?_
        rw [Tensor.get_scale _ velocity (hvelocity ▸ hi) (hvelocity ▸ hj)]
      rw [← hnew, ← eq_of_sub (hnext.trans hvelocity) hsub]
      exact congrArg (fun rest => Except.ok (value', step :: rest)) (renewed_self rest).symm

end GradientDescent

namespace Network

/-- What a forward run starts from if a batch is fed to it and these weights are held. -/
def fedWith (n : Network α) (x y : Tensor α) (held : Holding α) : Reader α :=
  (n.fedReader [x] [y]).reweighted fun w => do return (← held w).1

/-- The loss of a batch at the weights that are held, and what the nodes give to gradients there. -/
def lossAndGradients (n : Network α) (x y : Tensor α) (held : Holding α) :
    Except Error (α × (WeightRef → List (Tensor α))) := do
  let r ← dataflow n.graph (fun _ r => r) (n.fedWith x y held)
  return (Scalar.sum (← lossesIn n.graph r).reduceOption, ← backflow n.graph r)

/-- Every weight that is trained is moved against its gradient. -/
def descended (g : NodeGraph (Node α)) (descent : GradientDescent ρ)
    (given : WeightRef → List (Tensor α)) (held : Holding α) : Holding α := fun w =>
  if trainers g w = [] then held w else do descent.moved (← gradientOf given w) (← held w)

/-- One step of gradient descent on one batch: all gradients are those at the weights before it. -/
def descentStep (n : Network α) (descent : GradientDescent ρ) (x y : Tensor α) :
    Action (Holding α) α := do
  let (loss, given) ← Action.read (n.lossAndGradients x y)
  modify (descended n.graph descent given)
  return loss

/-- One pass over all batches that can be filled, and the mean of the losses. -/
def descentEpoch (n : Network α) (descent : GradientDescent ρ) (inputs targets : List (List α))
    (batch inputWidth targetWidth : Nat) : Action (Holding α) α := do
  let batches := inputs.length / batch
  let total ← (List.range batches).foldlM (fun total b => do
    let loss ← n.descentStep descent (.ofRows inputWidth (batchRows inputs batch b))
      (.ofRows targetWidth (batchRows targets batch b))
    return total + loss) 0
  return total / Scalar.ofNat batches

/-- Mini-batch gradient descent. Its results are the mean losses of the epochs. -/
def miniBatchDescent (n : Network α) (descent : GradientDescent ρ) (inputs targets : List (List α))
    (epochs batch inputWidth targetWidth : Nat) : Action (Holding α) (List α) :=
  (List.range epochs).mapM fun _ => n.descentEpoch descent inputs targets batch
    inputWidth targetWidth

variable {n m m' : Network α} {asks : (Shape → List Shape) → Prop} {descent : GradientDescent ρ}
  {x y : Tensor α}

/-- A network in training beside what is held of its weights. -/
structure Holds (asks : (Shape → List Shape) → Prop) (n m : Network α) (held : Holding α) :
    Prop where
  ready : Ready asks .train m
  framed : Framed n m
  held : m.weightHeld = held

omit [Rate ρ α] in
theorem Framed.sameTasks (h : Framed n m) : SameTasks n.graph m.graph :=
  ⟨h.order, task_of_core h.nodes⟩

omit [Rate ρ α] in
theorem Framed.trans (h : Framed n m) (h' : Framed m m') : Framed n m' :=
  ⟨h'.order.trans h.order, h'.nodes.trans h.nodes, h'.inputs.trans h.inputs,
    h'.labels.trans h.labels,
    h'.outputs.trans h.outputs, h'.batchSize.trans h.batchSize, h.layout.trans h'.layout,
    h'.confined⟩

omit [Rate ρ α] in
theorem weightHeld_of_sameKept {batch : Nat} (hreg : Store.Registry batch m.store)
    (hl : m.store.SameLayout m'.store) (hkept : m.store.SameKept m'.store) :
    m'.weightHeld = m.weightHeld := by
  funext w
  unfold weightHeld
  rw [show m'.store.weight w = m.store.weight w from hl.weight w]
  cases hr : m.store.weight w with
  | error e => rfl
  | ok r =>
    have hget : ∀ id, id = r.value ∨ id ∈ r.optimizerState → m'.store.get id = m.store.get id := by
      intro id hid
      obtain ⟨e, he, hk⟩ := (hreg.isKept (Store.weight_eq_ok_iff.mp hr) hid).backing
      exact hkept id e he hk
    simp only [except_ok_bind]
    rw [hget _ (.inl rfl), except_mapM_congr fun id hid => hget id (.inr hid)]

omit [Rate ρ α] in
/-- What is fed to a network while it is trained is fed to it as it was, with the weights that are
held by then. -/
theorem Holds.fedReader {held : Holding α} (h : Holds asks n m held) :
    m.fedReader [x] [y] = n.fedWith x y held := by
  obtain ⟨seen, hseen⟩ := h.ready.exists_statesSeen
  have hstates := (statesSeen_eq_ok_iff.mp hseen).2
  have hweight : m.store.reader.weight = fun w =>
      (do return (← held w).1 : Except Error (Tensor α)) := by
    funext w
    rw [← h.held, weightHeld_of_reader hstates]
    cases m.store.reader.weight w <;> rfl
  unfold fedWith Network.fedReader feeds
  rw [h.framed.inputs, h.framed.labels, ← Reader.setAll_reweighted, hweight,
    show m.store.shape = n.store.shape from Store.shape_of_sameLayout h.framed.layout]
  rfl

section Step

variable (hsource : (n.graph.nodes.filter (·.isSource)).length = 1)
  (hloss : (n.graph.nodes.filter (·.isLoss)).length = 1) (hunmixed : Unmixed n.graph)
  (hapart : n.store.StatesApart)
  (hvelocity : Rate.isPositive descent.momentum = true →
    ∀ (w : WeightRef) (r : WeightRecord), n.store.weights[w]? = some r → trainers n.graph w ≠ [] →
    r.optimizerState ≠ [])

omit [Scalar α] in
theorem length_filter_of_tasks {g g' : NodeGraph (Node α)} (h : SameTasks g g')
    {accept : Node α → Bool} (haccept : ∀ a b : Node α, b.layer = a.layer → accept b = accept a) :
    (g'.nodes.filter accept).length = (g.nodes.filter accept).length := by
  have hfilter := filter_of_tasks h.tasks fun a b htask => haccept a b (layer_of_task htask).1
  simpa using congrArg List.length hfilter

include hsource hloss in
omit [Rate ρ α] in
/-- Where there is one graph input and one loss, what a batch is fed to is everything. -/
theorem Holds.feedsAll {held : Holding α} (h : Holds asks n m held) {u : Unit}
    (hrun : feed [x] [y] m = .ok u m') : FeedsAll m ∧ [y].length = m.labels.length := by
  obtain ⟨-, hinputs, hlabels, -⟩ := feed_eq_ok_iff.mp hrun
  have hlabels := hlabels (List.cons_ne_nil _ _)
  have htasks := h.framed.sameTasks
  refine ⟨h.ready.prepared.feedsAll ?_ ?_ ?_ ?_, hlabels⟩
  · rw [length_filter_of_tasks htasks
      fun a b hlayer => by rw [Node.isSource, Node.isSource, hlayer], hsource]
  · rw [length_filter_of_tasks htasks fun a b hlayer => by rw [Node.isLoss, Node.isLoss, hlayer],
      hloss]
  · exact List.ne_nil_of_length_pos (hinputs ▸ Nat.one_pos)
  · exact List.ne_nil_of_length_pos (hlabels ▸ Nat.one_pos)

include hsource hloss in
omit [Rate ρ α] in
/-- A forward run in training finds the loss of the batch and leaves everything that gradients are
computed from. -/
theorem Holds.forward {held : Holding α} (h : Holds asks n m held) {m₁ m₂ : Network α} {u : Unit}
    {outputs : List (Tensor α)} (hfeed : feed [x] [y] m = .ok u m₁)
    (hforward : forward true m₁ = .ok outputs m₂) :
    Holds asks n m₂ held ∧ ∃ r, dataflow n.graph (fun _ r => r) (n.fedWith x y held) = .ok r ∧
      lossesIn n.graph r = .ok (m₂.losses.map some) ∧
      m₂.store.Agrees (NeededBackward m₂.graph m₂.graph.size) r := by
  obtain ⟨hfeeds, hlabels⟩ := h.feedsAll hsource hloss hfeed
  have hreg := h.ready.prepared.registered.registry
  obtain ⟨s, rfl, hl, hkept, hready₁, hagrees₁⟩ := h.ready.fed hfeeds hlabels hfeed
  obtain ⟨_, _, r, hrun, hready₂, hframed₂, hkept₂, hdata, -, hlosses, hagrees₂⟩ :=
    hready₁.exists_flow hagrees₁ (.inr rfl)
  cases hforward.symm.trans hrun
  have hframed₁ : Framed n { m with store := s } :=
    { h.framed with layout := h.framed.layout.trans hl }
  have htasks₂ := hframed₂.sameTasks
  refine ⟨⟨hready₂, hframed₁.trans hframed₂, ?_⟩, r, ?_, ?_, ?_⟩
  · have hheld₁ : Network.weightHeld { m with store := s } = m.weightHeld :=
      weightHeld_of_sameKept hreg hl hkept
    rw [weightHeld_of_sameKept hready₁.prepared.registered.registry hframed₂.layout hkept₂,
      hheld₁, h.held]
  · rw [← h.fedReader, ← dataflow_of_tasks h.framed.sameTasks]
    exact hdata
  · rw [← lossesIn_of_tasks h.framed.sameTasks]
    exact hlosses
  · rw [htasks₂.size]
    exact (hagrees₂ rfl).mono fun id hid => htasks₂.neededBackward hid

include hunmixed hapart hvelocity in
/-- A backward pass in training moves every weight that is trained against its gradient at the
weights before it. -/
theorem Holds.backward {held : Holding α} (h : Holds asks n m held) {r : Reader α}
    (hagrees : m.store.Agrees (NeededBackward m.graph m.graph.size) r) {u : Unit}
    (hrun : Network.backward (fun node => do
      let _ ← applyComplete node fun update =>
          (Action.read fun _ => descent.apply update : Action Unit _)) ((), m) = .ok u ((), m')) :
    ∃ given, backflow n.graph r = .ok given ∧
      Holds asks n m' (descended n.graph descent given held) := by
  have htasks := h.framed.sameTasks
  have hapart' : m.store.StatesApart := by
    unfold Store.StatesApart
    rw [h.framed.layout.weights]
    exact hapart
  obtain ⟨seen, hseen⟩ := h.ready.exists_statesSeen
  have hstates := (statesSeen_eq_ok_iff.mp hseen).2
  obtain ⟨hready', hframed', given, record, hgiven, hreplays, hreplaces⟩ :=
    h.ready.backward_replaces (fun _ update => Action.read fun _ => descent.apply update) hapart'
      (.inl (hunmixed.of_tasks htasks)) hagrees hstates hrun
  obtain ⟨given', hgiven', hshapes⟩ := h.ready.exists_backflow hapart' hagrees hstates
  obtain rfl : given = given' := Except.ok.inj (hgiven.symm.trans hgiven')
  refine ⟨given, by rw [← backflow_of_tasks htasks, hgiven], hready', h.framed.trans hframed',
    funext fun w => ?_⟩
  have htrained := hreplaces.trained w
  have hshape := hshapes w
  rw [trainers_of_tasks htasks] at htrained hshape
  unfold descended
  by_cases hnone : trainers n.graph w = []
  · rw [if_pos hnone, hreplaces.rest w fun hmem => htrained.mp hmem hnone, h.held]
  · rw [if_neg hnone]
    obtain ⟨p, hp, rfl⟩ := List.mem_map.mp (htrained.mpr hnone)
    obtain ⟨-, hheld, hgradient⟩ := hreplaces.handed p hp
    obtain ⟨hsame, hheld'⟩ := hreplaces.replaced p hp
    obtain ⟨_, _, _, hrule⟩ := hreplays.exists_rule hp
    obtain ⟨hrule, -⟩ := Action.read_eq_ok_iff.mp hrule
    obtain ⟨value, gradient, hvalue, hgradient', hshape⟩ := hshape hnone
    rw [hheld] at hvalue
    obtain rfl : p.2.1.value = value := congrArg Prod.fst (Except.ok.inj hvalue)
    rw [hgradient] at hgradient'
    obtain rfl : p.2.1.gradient = gradient := Except.ok.inj hgradient'
    obtain ⟨record', hrecord, -, hstate⟩ := weightHeld_eq_ok_iff.mp hheld
    have hstored : Rate.isPositive descent.momentum = true → p.2.1.state ≠ [] := by
      intro hpositive hempty
      have hlength := except_mapM_length hstate
      rw [hempty] at hlength
      exact hvelocity hpositive p.1 record' (h.framed.layout.weights ▸ hrecord) hnone
        (List.eq_nil_of_length_eq_zero hlength.symm)
    rw [hheld', hgradient, ← h.held, hheld]
    exact (GradientDescent.moved_of_apply hshape hstored hrule hsame).symm

include hsource hloss hunmixed hapart hvelocity

/-- A step of training is a step of gradient descent. -/
theorem follows_trainStep :
    Action.Follows (Holds asks n) (trainStep descent x y) (n.descentStep descent x y) Eq := by
  intro m held loss m' h hrun
  obtain ⟨_, m₁, hfeed, hrun⟩ := Action.bind_eq_ok_iff.mp hrun
  obtain ⟨outputs, m₂, hforward, hrun⟩ := Action.bind_eq_ok_iff.mp hrun
  obtain ⟨_, _, hget, hrun⟩ := Action.bind_eq_ok_iff.mp hrun
  cases hget
  obtain ⟨⟨_, _⟩, m₃, hback, hrun⟩ := Action.bind_eq_ok_iff.mp hrun
  cases hrun
  obtain ⟨h₂, r, hdata, hlosses, hagrees⟩ := h.forward hsource hloss hfeed hforward
  obtain ⟨given, hgiven, h₃⟩ :=
    h₂.backward hunmixed hapart hvelocity hagrees (Action.carrying_eq_ok_iff.mp hback)
  refine ⟨m₂.loss, _, ?_, h₃, rfl⟩
  have hread : n.lossAndGradients x y held = .ok (m₂.loss, given) := by
    unfold lossAndGradients
    have hfound : (m₂.losses.map some).reduceOption = m₂.losses := by simp [List.reduceOption]
    rw [hdata, except_ok_bind, hlosses, except_ok_bind, hgiven, hfound]
    rfl
  unfold descentStep
  rw [Action.bind_of_ok (Action.read_of_ok hread)]
  rfl

omit hsource hloss hunmixed hapart hvelocity in
omit [Rate ρ α] in
theorem batchTensor_eq_ok {rows : List (List α)} {width : Nat} {t : Tensor α}
    (h : batchTensor rows width = .ok t) : t = .ofRows width rows := by
  unfold batchTensor at h
  split at h
  · cases h
  · exact (Except.ok.inj h).symm

theorem follows_trainEpoch (inputs targets : List (List α)) (batch inputWidth targetWidth : Nat) :
    Action.Follows (Holds asks n) (trainEpoch descent inputs targets batch inputWidth targetWidth)
      (n.descentEpoch descent inputs targets batch inputWidth targetWidth) Eq := by
  refine (Action.follows_foldlM (fun total b _ => ?_) 0).bind fun total _ htotal =>
    Action.follows_pure (congrArg (· / _) htotal)
  intro m held total' m' h hrun
  obtain ⟨x, _, hread, hrun⟩ := Action.bind_eq_ok_iff.mp hrun
  obtain ⟨hx, rfl⟩ := Action.read_eq_ok_iff.mp hread
  obtain ⟨y, _, hread, hrun⟩ := Action.bind_eq_ok_iff.mp hrun
  obtain ⟨hy, rfl⟩ := Action.read_eq_ok_iff.mp hread
  obtain rfl := batchTensor_eq_ok hx
  obtain rfl := batchTensor_eq_ok hy
  exact ((follows_trainStep hsource hloss hunmixed hapart hvelocity).bind fun loss _ hloss =>
    Action.follows_pure (congrArg (total + ·) hloss)) _ held total' m' h hrun

/-- Any number of epochs. -/
theorem follows_epochs (inputs targets : List (List α))
    (epochs batch inputWidth targetWidth : Nat) : Action.Follows (Holds asks n)
      ((List.range epochs).mapM fun _ => trainEpoch descent inputs targets batch
        inputWidth targetWidth) (n.miniBatchDescent descent inputs targets epochs batch inputWidth
          targetWidth) Eq := by
  have hepochs : Action.Follows (Holds asks n)
      ((List.range epochs).mapM fun _ => trainEpoch descent inputs targets batch
        inputWidth targetWidth) (((List.range epochs).map id).mapM fun _ =>
        n.descentEpoch descent inputs targets batch inputWidth targetWidth) Eq :=
    Action.follows_mapM id fun _ _ =>
      follows_trainEpoch hsource hloss hunmixed hapart hvelocity inputs targets batch
        inputWidth targetWidth
  rwa [List.map_id] at hepochs

end Step

end Network

end LayerGraph
