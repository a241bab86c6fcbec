import LayerGraph.Proofs.Network.Calls
import LayerGraph.Proofs.Network.Lowered
import LayerGraph.Proofs.Network.Sound
import LayerGraph.Proofs.Store.Budget

/-!
# No network exceeds its limit

Whatever is called, in whichever order and whether it ends well or fails, what a network holds comes
to no more than what is planned and filled, and that to no more than the limit the network was made
with.
-/

namespace LayerGraph.Network

variable {α τ : Type} {n n' : Network α} {limit : Nat}

/-- A network that keeps to its limit, whose layers do no more to a store than to write to it. -/
structure Thrifty [Scalar α] (limit : Nat) (n : Network α) : Prop where
  budgeted : n.store.Budgeted limit
  vacant : n.isPrepared = false → n.store.hasWeights = false ∧ n.store.mode = none
  confined : ∀ a ∈ n.graph.nodes, a.layer.Confined

namespace Thrifty

variable [Scalar α]

theorem ofSettings {settings : NetworkSettings} (hl : settings.memoryLimit = some limit) :
    Thrifty limit (ofSettings settings : Network α) where
  budgeted := Store.budgeted_empty settings.optimizeMemory hl
  vacant _ := ⟨rfl, rfl⟩
  confined a ha := by cases ha

theorem withStore (h : Thrifty limit n) {s : Store α} (hs : s.Budgeted limit)
    (hv : n.isPrepared = false → s.hasWeights = false ∧ s.mode = none) :
    Thrifty limit { n with store := s } :=
  ⟨hs, hv, h.confined⟩

theorem steady : Steady (Thrifty (α := α) limit) where
  write n id v s h hs := by
    refine h.withStore (h.budgeted.of_set hs) fun hu => ?_
    obtain ⟨-, -, -, ⟨-, -, rfl⟩ | ⟨-, -, -, rfl⟩⟩ := Store.set_eq_ok hs
    · exact h.vacant hu
    · exact h.vacant hu
  keep n p loss notes h := by
    exact ⟨h.budgeted, h.vacant, confined_modifyNode (fun _ => by rfl) h.confined p⟩
  confined n h := h.confined

theorem drafting : Drafting (fun a : Node α => a.layer.Confined) (Thrifty limit) where
  nodes _ h := h.confined
  redrawn _ _ _ h hg := ⟨h.budgeted, h.vacant, hg⟩
  bounded _ _ _ h := h.withStore (h.budgeted.setBounds _ _) h.vacant

section Prepare

/-- Whatever a network that is not prepared registers, its limit is kept to. -/
theorem keeps_prepareNode (p : NodeRef) :
    Action.Keeps (fun n : Network α => Thrifty limit n ∧ n.isPrepared = false) (prepareNode p) := by
  have hmodify : ∀ f : Node α → Node α, (∀ a, (f a).layer = a.layer) →
      Action.Keeps (fun n : Network α => Thrifty limit n ∧ n.isPrepared = false) (modifyNode p f) :=
        fun f hf =>
    Action.keeps_modify fun n h =>
      ⟨⟨h.1.budgeted, h.1.vacant, confined_modifyNode hf h.1.confined p⟩, h.2⟩
  refine keeps_prepareNode_of (fun _ => hmodify _ fun _ => rfl)
    (fun a use owner size wires declared => ?_) fun _ _ _ =>
    hmodify _ fun _ => rfl
  refine (keeps_register (Store.tabular_vacant : Store.Tabular (Store.Vacant limit)) a use wires
    owner size declared).focus ?_ ?_
  · exact fun n h => ⟨h.1.budgeted, h.1.vacant h.2⟩
  · exact fun n s h hs => ⟨h.1.withStore hs.1 fun _ => hs.2, h.2⟩

theorem keeps_prepareAll (inputs labels : List String) :
    Action.Keeps (fun n : Network α => Thrifty limit n ∧ n.isPrepared = false)
      (prepareAll inputs labels) :=
  keeps_prepareAll_of keeps_prepareNode fun _ _ _ _ h =>
    ⟨⟨h.1.budgeted, h.1.vacant, h.1.confined⟩, h.2⟩

theorem keeps_prepare (inputs labels : List String) :
    Action.Keeps (Thrifty (α := α) limit) (prepare inputs labels) := by
  intro n h
  cases hp : n.isPrepared with
  | true =>
    rw [after_prepare_of_prepared inputs labels hp]
    exact h
  | false =>
    cases hc : n.isCompiled with
    | false =>
      rw [after_prepare_of_open inputs labels hc]
      exact h
    | true =>
      unfold prepare
      rw [Action.after_get_bind]
      dsimp only
      rw [if_neg (by rw [hc]; simp), Action.after_get_bind, if_neg (by rw [hp]; simp)]
      refine Action.after_bind (P := Thrifty limit) ?_ fun _ => Action.keeps_modify fun n h => ?_
      · refine ((keeps_prepareAll inputs labels).tryCatch fun e => ?_) n ⟨h, hp⟩ |>.1
        refine (Action.keeps_modify fun n h => ⟨?_, h.2⟩).bind fun _ => Action.keeps_throw e
        exact h.1.withStore h.1.budgeted.reset fun _ => ⟨rfl, rfl⟩
      · exact ⟨h.budgeted, nofun, h.confined⟩

end Prepare

section Memory

theorem keeps_allocate (mode : RunMode) :
    Action.Keeps (Thrifty (α := α) limit) (allocate mode) := by
  refine keeps_allocate_of (fun n h hp => ?_) fun n h => ⟨h.budgeted, h.vacant, h.confined⟩
  exact h.withStore (Store.keeps_budgeted_allocate mode n.store h.budgeted) fun hu =>
    (Bool.false_ne_true (hu.symm.trans hp)).elim

theorem keeps_fillWeights : Action.Keeps (Thrifty (α := α) limit) fillWeights := by
  refine keeps_fillWeights_of fun n h hp => ?_
  exact h.withStore (Store.keeps_budgeted_fillWeights _ n.store h.budgeted) fun hu =>
    (Bool.false_ne_true (hu.symm.trans hp)).elim

theorem releaseWeights (h : Thrifty limit n) : Thrifty limit (releaseWeights n) :=
  ⟨h.budgeted.releaseWeights, fun hu => ⟨rfl, (h.vacant hu).2⟩, h.confined⟩

theorem releaseTensors (weightsToo : Bool) (h : Thrifty limit n) :
    Thrifty limit (releaseTensors weightsToo n) := by
  have htensors : Thrifty limit (Network.releaseTensors false n) :=
    ⟨h.budgeted.releaseTensors, fun hu => ⟨(h.vacant hu).1, rfl⟩, h.confined⟩
  cases weightsToo with
  | false => exact htensors
  | true => exact htensors.releaseWeights

theorem setOptimize (enable : Bool) (h : Thrifty limit n) : Thrifty limit (setOptimize enable n) :=
  ⟨{ h.budgeted with toGrounded := ⟨h.budgeted.rooted, h.budgeted.fixed⟩ }, h.vacant, h.confined⟩

theorem keeps_requestStates (shapes : Shape → List Shape) :
    Action.Keeps (Thrifty (α := α) limit) (requestStates shapes) := by
  refine keeps_requestStates_of fun n h hp hw => ?_
  obtain ⟨hs, -⟩ := Store.keeps_budgeted_requestStates shapes n.store ⟨h.budgeted, hw⟩
  exact h.withStore hs fun hu => (Bool.false_ne_true (hu.symm.trans hp)).elim

theorem keeps_rebatch (batch : Nat) : Action.Keeps (Thrifty (α := α) limit) (rebatch batch) := by
  refine keeps_rebatch_of (fun n h => ⟨h.budgeted, h.vacant, h.confined⟩) (fun n h hp => ?_)
    fun n h => ?_
  · refine h.withStore ?_ fun hu => (Bool.false_ne_true (hu.symm.trans hp)).elim
    cases hr : Store.rebatch batch n.store with
    | ok u s =>
      rw [Action.after_of_ok hr]
      exact Store.budgeted_of_rebatch h.budgeted hr
    | error e s =>
      have := Action.fails_update _ (P := Store.Budgeted limit) n.store e s h.budgeted hr
      rw [Action.after_of_error hr]
      exact this
  · refine ⟨h.budgeted, h.vacant, ?_⟩
    exact Lowering.all_of_map_eq (f := (·.layer)) (fun _ _ heq ha => heq ▸ ha)
      (by rw [List.map_map]; rfl) h.confined

end Memory

theorem enduring : Enduring (Thrifty (α := α) limit) where
  toSteady := steady
  allocated := keeps_allocate
  filled := keeps_fillWeights
  released _ h := h.releaseTensors false
  requested := keeps_requestStates
  rebatched := keeps_rebatch

/-- Every call keeps a network to its limit. -/
theorem call (h : Thrifty limit n) (hc : Call n n') : Thrifty limit n' := by
  refine enduring.keeps_call h hc (fun node hn heq => heq ▸ ?_)
    (fun nodes fragment hn heq => heq ▸ ?_) (fun loss => ?_)
    (fun inputs labels => keeps_prepare inputs labels n h) (h.releaseTensors true)
      h.releaseWeights h.setOptimize ⟨h.budgeted, h.vacant, h.confined⟩
  · exact drafting.keeps_add (fun a b hl _ => confined_of_layer a b hl) hn n h
  · exact drafting.keeps_extend (fun a b hl _ => confined_of_layer a b hl) fragment hn n h
  · exact drafting.keeps_compile inherited_confined confined_of_layer
      (fun _ h => ⟨h.budgeted, h.vacant, h.confined⟩) loss n h

end Thrifty

/-- Whatever has been called on a network that is made with a limit, what it holds comes to no more
than what is planned and what is filled, and these come to no more than the limit. -/
theorem held_le_limit [Scalar α] {settings : NetworkSettings}
    (hl : settings.memoryLimit = some limit)
    (h : Relation.ReflTransGen Call (ofSettings settings) n) :
    n.store.heldElements ≤ n.store.slotElements + n.store.filledElements ∧
      n.store.slotElements + n.store.filledElements ≤ limit := by
  have hthrifty : Thrifty limit n := by
    induction h with
    | refl => exact .ofSettings hl
    | tail _ hc ih => exact ih.call hc
  exact ⟨hthrifty.budgeted.held_le, hthrifty.budgeted.within⟩

/-- A layer of one unit on an input of two, with a limit that leaves no element to spare. -/
def tight : Network Float32 :=
  (add (.ofLayer (.fullyConnected 1 .zeros .zeros) "y" [⟨"x", 0⟩])).after
    ((add (.ofLayer (.input 2) "x" [])).after (ofSettings ⟨2, true, some 12, []⟩))

/-- What compiling makes of it. -/
def tightCompiled : Network Float32 :=
  { (ofSettings ⟨2, true, some 12, []⟩ : Network Float32) with
    graph := ⟨[
      { Node.ofLayer (.input 2) "x" [] with outputs := [[⟨"y", 0⟩]] },
      { Node.ofLayer (.fullyConnected 1 .zeros .zeros) "y" [⟨"x", 0⟩] with
        schedule := .bothWays 1 0 2, collectsGradients := true }], [0, 1]⟩
    store := (Store.empty true (some 12)).setBounds 2 3
    isCompiled := true }

theorem compile_tight : compile none tight = .ok () tightCompiled := by cbv

/-- What it comes to once it is prepared, filled and allocated for training. -/
def capped : Network Float32 :=
  (allocate .train).after (fillWeights.after ((prepare [] []).after tightCompiled))

theorem called_capped : Relation.ReflTransGen Call (ofSettings ⟨2, true, some 12, []⟩) capped := by
  have hdraft : Relation.ReflTransGen Call (ofSettings ⟨2, true, some 12, []⟩) tight :=
    .tail (.single (.add _ (Layer.confined_of_isShipped rfl)))
      (.add _ (Layer.confined_of_isShipped rfl))
  have hcompile : Call tight ((compile none).after tight) := .compile none
  rw [Action.after_of_ok compile_tight] at hcompile
  exact .tail (.tail (.tail (hdraft.tail hcompile) (.prepare [] [])) .fillWeights)
    (.allocate .train)

theorem capped_held_le_limit : capped.store.hasTensors = true ∧
    capped.store.heldElements ≤ capped.store.slotElements + capped.store.filledElements ∧
    capped.store.slotElements + capped.store.filledElements ≤ 12 :=
  ⟨by cbv, held_le_limit rfl called_capped⟩

end LayerGraph.Network
