import LayerGraph.Network.Compile
import LayerGraph.Network.Growth
import LayerGraph.Network.Prepare
import LayerGraph.Proofs.Network.Sound
import LayerGraph.Training

/-!
# Calls

A network changes by what is called on it. Training is a sequence of calls, so what these keep is
kept by training.
-/

namespace LayerGraph.Network

variable {α : Type}

/-- What can be called, and what the network is afterwards, whether the call ends well or fails.
Writing single tensors is all that hooks and visitors do to a store in the middle of a run, so a
call that is under way has reached what shorter calls and single writes reach. -/
inductive Call [Scalar α] : Network α → Network α → Prop where
  | add {n : Network α} (node : Node α) (confined : node.layer.Confined) : Call n
      ((add node).after n)
  | extend {n : Network α} (nodes : List (Node α)) (fragment : String) (confined : ∀ node ∈ nodes,
      node.layer.Confined) : Call n ((extend nodes fragment).after n)
  | compile {n : Network α} (loss : Option String) : Call n ((compile loss).after n)
  | prepare {n : Network α} (inputs labels : List String) : Call n ((prepare inputs labels).after n)
  | allocate {n : Network α} (mode : RunMode) : Call n ((allocate mode).after n)
  | fillWeights {n : Network α} : Call n (fillWeights.after n)
  | releaseTensors {n : Network α} (weightsToo : Bool) : Call n (releaseTensors weightsToo n)
  | releaseWeights {n : Network α} : Call n (releaseWeights n)
  | setOptimize {n : Network α} (enable : Bool) : Call n (setOptimize enable n)
  | requestStates {n : Network α} (shapes : Shape → List Shape) : Call n
      ((requestStates shapes).after n)
  | rebatch {n : Network α} (batch : Nat) : Call n ((rebatch batch).after n)
  | write {n : Network α} (id : TensorRef) (value : Tensor α) : Call n
      ((onStore (Store.write id value)).after n)
  | feed {n : Network α} (inputs labels : List (Tensor α)) : Call n ((feed inputs labels).after n)
  | forward {n : Network α} (training : Bool) : Call n ((forward training).after n)
  | backward {n : Network α} {τ : Type} (own : τ) (visit : Node α → Action (τ × Store α) Unit)
      (confined : ∀ node Q, Store.Writable Q → Action.Keeps (fun s : τ × Store α => Q s.2)
        (visit node)) : Call n ((backward visit).after (own, n)).2
  | applyGradients {n : Network α} {τ : Type} (own : τ) (name : String) (rule : WeightState α →
      Action τ (WeightState α)) : Call n ((applyGradients name rule).after (own, n)).2
  | train {n : Network α} {ρ : Type} [Rate ρ α] (inputs targets : List (List α))
      (plan : TrainingPlan ρ) : Call n ((train inputs targets plan).after n)
  | takeNotes {n : Network α} : Call n (takeNotes.after n)

section Confined

variable [Scalar α]

theorem confined_of_layer (a b : Node α) (h : b.layer = a.layer) (hc : a.layer.Confined) :
    b.layer.Confined := h ▸ hc

theorem inherited_confined : Lowering.Inherited fun a : Node α => a.layer.Confined where
  same a b hl _ _ h := confined_of_layer a b hl h
  made _ _ _ h _ := Layer.confined_of_isShipped h
  fused _ _ _ := Layer.confined_of_isShipped rfl

theorem confined_modifyNode {g : NodeGraph (Node α)} {f : Node α → Node α}
    (hf : ∀ a, (f a).layer = a.layer) (h : ∀ a ∈ g.nodes, a.layer.Confined) (p : NodeRef) :
    ∀ a ∈ (g.modifyNode p f).nodes, a.layer.Confined :=
  Lowering.all_of_map_eq (f := (·.layer)) (fun a b heq => confined_of_layer a b heq.symm)
    (map_modify_eq hf g.nodes p) h

end Confined

section Prepare

variable {P : Network α → Prop} {inputs labels : List String}

theorem keeps_prepareNode_of {p : NodeRef}
    (hsettled : ∀ use, Action.Keeps P (modifyNode p fun a => { a with bufferUse := use }))
    (hregister : ∀ a use owner size wires declared,
      Action.Keeps P (onStore (register a use owner size wires declared)))
    (hheld : ∀ is os tensors, Action.Keeps P (modifyNode p
      fun a => { a with inputShapes := is, outputShapes := os, tensors := tensors })) :
    Action.Keeps P (prepareNode p) := by
  refine Action.keeps_get.bind fun n => (Action.keeps_read _).bind fun a =>
    (Action.keeps_read _).bind fun owner => ?_
  refine (Action.keeps_read _).bind fun wires => (Action.keeps_read _).bind fun shapes => ?_
  refine (Action.keeps_read _).bind fun declared => (hsettled _).bind fun _ => ?_
  exact (hregister a _ owner _ wires declared).bind fun tensors => hheld _ _ _

theorem keeps_prepareAll_of (hnode : ∀ p, Action.Keeps P (prepareNode p))
    (hfaces : ∀ n is ls os, P n → P { n with inputs := is, labels := ls, outputs := os }) :
    Action.Keeps P (prepareAll inputs labels) := by
  refine Action.keeps_get.bind fun n => (Action.keeps_forM fun p _ => hnode p).bind fun _ => ?_
  refine (Action.keeps_read _).bind fun _ => (Action.keeps_read _).bind fun _ => ?_
  exact Action.keeps_modify fun n h => hfaces n _ _ _ h

/-- Where preparing fails half-way, the store is emptied. -/
theorem keeps_prepare_of (hall : Action.Keeps P (prepareAll inputs labels))
    (hreset : ∀ n, P n → P { n with store := n.store.reset })
    (hprepared : ∀ n, P n → P { n with isPrepared := true }) :
    Action.Keeps P (prepare inputs labels) := by
  refine Action.keeps_get.bind fun _ => Action.Keeps.guard (Action.keeps_get.bind
    fun _ => Action.Keeps.guard ?_)
  refine (hall.tryCatch fun e => ?_).bind fun _ => Action.keeps_modify hprepared
  exact (Action.keeps_modify hreset).bind fun _ => Action.keeps_throw e

end Prepare

section Memory

/-! What is done to memory comes down to an operation of the store, on a network that is
prepared. -/

variable {P : Network α → Prop}

theorem keeps_allocate_of {mode : RunMode}
    (hstore : ∀ n, P n → n.isPrepared = true →
      P { n with store := (Store.allocate mode).after n.store })
    (hmode : ∀ n, P n → P { n with mode := mode }) : Action.Keeps P (allocate mode) := by
  intro n h
  cases hp : n.isPrepared with
  | false =>
    rw [after_allocate_of_unprepared mode hp]
    exact h
  | true =>
    have hs := hstore n h hp
    rw [after_allocate_of_prepared mode hp]
    cases hr : Store.allocate mode n.store with
    | ok u s =>
      rw [Action.after_of_ok hr] at hs
      exact hmode _ hs
    | error e s =>
      rw [Action.after_of_error hr] at hs
      exact hs

theorem keeps_fillWeights_of [Scalar α]
    (hstore : ∀ n, P n → n.isPrepared = true →
      P { n with store := (Store.fillWeights n.store.maxStep).after n.store }) :
    Action.Keeps P fillWeights := by
  intro n h
  cases hp : n.isPrepared with
  | false =>
    rw [after_fillWeights_of_unprepared hp]
    exact h
  | true =>
    rw [after_fillWeights_of_prepared hp]
    exact hstore n h hp

theorem keeps_requestStates_of {shapes : Shape → List Shape}
    (hstore : ∀ n, P n → n.isPrepared = true → n.store.hasWeights = false →
      P { n with store := (Store.requestStates shapes).after n.store }) :
    Action.Keeps P (requestStates shapes) := by
  intro n h
  unfold requestStates
  rw [Action.after_get_bind]
  cases hp : n.isPrepared with
  | false =>
    rw [Action.after_guard_of_pos (by rfl)]
    exact h
  | true =>
    rw [if_neg (by simp), Action.after_get_bind]
    cases hw : n.store.hasWeights with
    | true =>
      rw [Action.after_guard_of_pos (by rfl)]
      exact h
    | false =>
      rw [if_neg (by simp), after_onStore]
      exact hstore n h hp hw

theorem keeps_rebatch_of {batch : Nat} (hbatch : ∀ n, P n → P { n with batchSize := batch })
    (hstore : ∀ n, P n → n.isPrepared = true →
      P { n with store := (Store.rebatch batch).after n.store })
    (hnodes : ∀ n, P n →
      P { n with graph := { n.graph with nodes := n.graph.nodes.map (Node.rebatch batch) } }) :
    Action.Keeps P (rebatch batch) := by
  unfold rebatch
  refine Action.Keeps.guard (Action.keeps_get.bind fun _ => Action.Keeps.guard ?_)
  refine (Action.keeps_modify hbatch).bind fun _ => ?_
  intro n h
  rw [Action.after_get_bind]
  cases hp : n.isPrepared with
  | false => exact h
  | true =>
    refine Action.after_bind (P := P) ?_ fun _ => Action.keeps_modify hnodes
    rw [after_onStore]
    exact hstore n h hp

end Memory

/-- On the way to training a network is rebatched, state is asked for by gradient descent alone, and
it is filled and allocated. -/
theorem keeps_readyToTrain [Scalar α] {ρ : Type} [Rate ρ α] {P : Network α → Prop}
    {descent : GradientDescent ρ} (hfilled : Action.Keeps P fillWeights)
    (hallocated : Action.Keeps P (allocate .train))
    (hreleased : ∀ n, P n → P (releaseTensors false n))
    (hrebatched : ∀ batch, Action.Keeps P (rebatch batch))
    (hrequested : Action.Keeps P (requestStates descent.stateShapes)) (batch : Nat) :
    Action.Keeps P (readyToTrain descent batch) := by
  have hlast : Action.Keeps P (do
      fillWeights
      allocate .train) := hfilled.bind fun _ => hallocated
  have hstates : Action.Keeps P (do
      if !(← get).store.hasWeights then requestStates descent.stateShapes
      else if ← Action.read (·.store.lacksState descent.stateShapes)
        then throw (.resource .missingState)
      fillWeights
      allocate .train) := by
    refine Action.keeps_get.bind fun n => ?_
    split
    · exact hrequested.bind fun _ => hlast
    · refine (Action.keeps_read _).bind fun lacks => ?_
      cases lacks with
      | true => exact (Action.keeps_throw _).bind fun _ => hlast
      | false => exact hlast
  refine Action.keeps_get.bind fun n => ?_
  split
  · exact (Action.keeps_modify fun n h => hreleased n h).bind fun _ => (hrebatched batch).bind
      fun _ => hstates
  · exact hstates

/-- A property of networks that running keeps, and what is done to memory on the way to training. -/
structure Enduring [Scalar α] (P : Network α → Prop) : Prop extends Steady P where
  allocated : ∀ mode, Action.Keeps P (allocate mode)
  filled : Action.Keeps P fillWeights
  released : ∀ n, P n → P (releaseTensors false n)
  requested : ∀ shapes, Action.Keeps P (requestStates shapes)
  rebatched : ∀ batch, Action.Keeps P (rebatch batch)

namespace Enduring

variable [Scalar α] {P : Network α → Prop} (hP : Enduring P) {ρ : Type} [Rate ρ α]
include hP

theorem keeps_readyToTrain (descent : GradientDescent ρ) (batch : Nat) :
    Action.Keeps P (readyToTrain descent batch) :=
  Network.keeps_readyToTrain hP.filled (hP.allocated .train) hP.released hP.rebatched
    (hP.requested _) batch

theorem keeps_trainStep (descent : GradientDescent ρ) (x y : Tensor α) :
    Action.Keeps P (trainStep descent x y) := by
  refine (hP.toSteady.keeps_feed [x] [y]).bind fun _ => (hP.toSteady.keeps_forward true).bind
    fun _ => ?_
  refine Action.keeps_get.bind fun n => (Action.Keeps.carrying ?_).bind fun _ => Action.keeps_pure _
  exact hP.toSteady.keeps_backward fun node Q hQ => keeps_applyComplete_visit hQ node _

theorem keeps_train (inputs targets : List (List α)) (plan : TrainingPlan ρ) :
    Action.Keeps P (train inputs targets plan) := by
  have hepoch : ∀ descent : GradientDescent ρ, ∀ batch inputWidth targetWidth,
      Action.Keeps P (trainEpoch descent inputs targets batch inputWidth targetWidth) := by
    intro descent batch inputWidth targetWidth
    refine Action.Keeps.bind ?_ fun _ => Action.keeps_pure _
    refine Action.keeps_foldlM (fun total b _ => ?_) 0
    exact (Action.keeps_read _).bind fun x => (Action.keeps_read _).bind fun y =>
      (hP.keeps_trainStep descent x y).bind fun _ => Action.keeps_pure _
  unfold train
  refine Action.Keeps.guard (Action.keeps_get.bind fun n => Action.Keeps.guard ?_)
  refine (hP.keeps_readyToTrain _ _).bind fun _ => (Action.keeps_read _).bind fun shapes => ?_
  split
  · exact Action.keeps_mapM fun _ _ => hepoch _ _ _ _
  · exact Action.keeps_throw _

/-- What a call does to a network, if what is not done on the way to training keeps the property
too. -/
theorem keeps_call {n n' : Network α} (h : P n) (hc : Call n n')
    (hadd : ∀ node, node.layer.Confined → n' = (add node).after n → P n')
    (hextend : ∀ nodes fragment, (∀ node ∈ nodes, node.layer.Confined) →
      n' = (extend nodes fragment).after n → P n') (hcompile : ∀ loss, P ((compile loss).after n))
    (hprepare : ∀ inputs labels, P ((prepare inputs labels).after n))
    (hall : P (Network.releaseTensors true n)) (hweights : P (Network.releaseWeights n))
    (hoptimize : ∀ enable, P (Network.setOptimize enable n)) (hnotes : P { n with notes := [] }) :
    P n' := by
  cases hc with
  | add node confined => exact hadd node confined rfl
  | extend nodes fragment confined => exact hextend nodes fragment confined rfl
  | compile loss => exact hcompile loss
  | prepare inputs labels => exact hprepare inputs labels
  | allocate mode => exact hP.allocated mode n h
  | fillWeights => exact hP.filled n h
  | releaseTensors weightsToo =>
    cases weightsToo with
    | false => exact hP.released n h
    | true => exact hall
  | releaseWeights => exact hweights
  | setOptimize enable => exact hoptimize enable
  | requestStates shapes => exact hP.requested shapes n h
  | rebatch batch => exact hP.rebatched batch n h
  | write id value =>
    exact hP.toSteady.keeps_onStore (fun _ hQ => Store.keeps_write hQ id value) n h
  | feed inputs labels => exact hP.toSteady.keeps_feed inputs labels n h
  | forward training => exact hP.toSteady.keeps_forward training n h
  | backward own visit confined => exact hP.toSteady.keeps_backward confined (own, n) h
  | applyGradients own name rule => exact hP.toSteady.keeps_applyGradients name rule (own, n) h
  | train inputs targets plan => exact hP.keeps_train inputs targets plan n h
  | takeNotes => exact hnotes

/-- What a call does to a prepared network. -/
theorem of_call {n n' : Network α} (hclosed : n.isCompiled = true) (hprepared : n.isPrepared = true)
    (h : P n) (hc : Call n n') (hall : P (Network.releaseTensors true n))
    (hweights : P (Network.releaseWeights n))
    (hoptimize : ∀ enable, P (Network.setOptimize enable n)) (hnotes : P { n with notes := [] }) :
    P n' := by
  refine hP.keeps_call h hc (fun node _ heq => ?_) (fun nodes fragment _ heq => ?_) (fun loss => ?_)
    (fun inputs labels => ?_) hall hweights hoptimize hnotes
  · rw [heq, after_add_of_closed node hclosed]
    exact h
  · rw [heq, after_extend_of_closed nodes fragment hclosed]
    exact h
  · rw [after_compile_of_closed loss hclosed]
    exact h
  · rw [after_prepare_of_prepared inputs labels hprepared]
    exact h

end Enduring

end LayerGraph.Network
