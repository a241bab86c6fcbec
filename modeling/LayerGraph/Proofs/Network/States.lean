import LayerGraph.Proofs.Network.Budget
import LayerGraph.Proofs.Network.Timeline
import LayerGraph.Proofs.Store.States

/-!
# What training finds after a request for optimizer state

Training asks for optimizer state as long as the weights are not filled, and checks for it
afterwards. A request leaves a check that fails only where a weight had some state before, and less
than is asked for.
-/

namespace LayerGraph.Network

open Store (Valued)

variable {α : Type} {n n' : Network α}

section Register

variable (node : Node α) (use : BufferUse) (inputs : List Wire)

theorem keeps_valued_register (owner : String) (size : Nat) (declared : Declaration α) :
    Action.Keeps Valued (register node use owner size inputs declared) := by
  have hQ := Store.tensorialAt_valued (α := α)
  have hnode := punctual_true node size
  refine (keeps_registerReads hQ hnode inputs).bind fun _ => Action.keeps_get.bind fun _ => ?_
  refine (Action.keeps_mapM fun output _ => keeps_registerOutput hQ hnode use inputs
    (by simp) output).bind fun _ => ?_
  refine (Action.keeps_mapM fun decl _ => Store.keeps_valued_useWeight _ _ _ _ _ _).bind fun _ => ?_
  refine (Action.keeps_mapM fun decl _ => keeps_registerScratch hQ hnode decl).bind fun _ => ?_
  exact (keeps_registerLabel hQ _).bind fun _ => Action.keeps_pure _

end Register

/-- A network whose weights have their values among the tensors, and whose layers do no more to a
store than to write to it. -/
structure Weighted [Scalar α] (n : Network α) : Prop where
  valued : n.store.Valued
  confined : ∀ a ∈ n.graph.nodes, a.layer.Confined

namespace Weighted

variable [Scalar α]

theorem ofSettings (settings : NetworkSettings) : Weighted (ofSettings settings : Network α) where
  valued r hr := by cases hr
  confined a ha := by cases ha

theorem withStore (h : Weighted n) {s : Store α} (hs : s.Valued) : Weighted { n with store := s } :=
  ⟨hs, h.confined⟩

theorem keeps_onStore {β : Type} {p : Action (Store α) β} (hp : Action.Keeps Valued p) :
    Action.Keeps Weighted (onStore p) :=
  hp.focus (fun _ h => h.valued) fun _ _ h hs => h.withStore hs

theorem steady : Steady (Weighted (α := α)) where
  write n id v s h hs := by
    refine h.withStore ?_
    obtain ⟨-, -, -, ⟨-, -, rfl⟩ | ⟨-, -, -, rfl⟩⟩ := Store.set_eq_ok hs
    · exact h.valued
    · exact h.valued
  keep n p loss notes h := ⟨h.valued, confined_modifyNode (fun _ => by rfl) h.confined p⟩
  confined n h := h.confined

theorem drafting : Drafting (fun a : Node α => a.layer.Confined) Weighted where
  nodes _ h := h.confined
  redrawn _ _ _ h hg := ⟨h.valued, hg⟩
  bounded _ _ _ h := h.withStore h.valued

theorem keeps_prepareNode (p : NodeRef) : Action.Keeps (Weighted (α := α)) (prepareNode p) := by
  have hmodify : ∀ f : Node α → Node α, (∀ a, (f a).layer = a.layer) →
      Action.Keeps Weighted (modifyNode p f) :=
    fun f hf => Action.keeps_modify fun n h => ⟨h.valued, confined_modifyNode hf h.confined p⟩
  refine keeps_prepareNode_of (fun _ => ?_) (fun a use owner size wires declared => ?_)
    fun _ _ _ => ?_
  · exact hmodify _ fun _ => rfl
  · exact keeps_onStore (keeps_valued_register a use wires owner size declared)
  · exact hmodify _ fun _ => rfl

theorem keeps_prepare (inputs labels : List String) :
    Action.Keeps (Weighted (α := α)) (prepare inputs labels) := by
  refine keeps_prepare_of (keeps_prepareAll_of keeps_prepareNode fun n _ _ _ h => ?_)
    (fun n h => ?_) fun n h => ?_
  · exact ⟨h.valued, h.confined⟩
  · exact h.withStore nofun
  · exact ⟨h.valued, h.confined⟩

theorem keeps_allocate (mode : RunMode) : Action.Keeps (Weighted (α := α)) (allocate mode) := by
  refine keeps_allocate_of (fun n h _ => h.withStore ?_) fun n h => ⟨h.valued, h.confined⟩
  have hsame := Store.sameTables_allocate mode n.store
  exact h.valued.mono (by rw [hsame.entries]) (by rw [hsame.weights])

theorem keeps_fillWeights : Action.Keeps (Weighted (α := α)) fillWeights := by
  refine keeps_fillWeights_of fun n h _ => h.withStore ?_
  rcases Store.after_fillWeights n.store.maxStep n.store with heq | ⟨-, hr⟩
  · rw [heq]
    exact h.valued
  · rw [Action.after_of_ok hr]
    exact h.valued.mono (by simp [Store.filled]) rfl

theorem keeps_requestStates (shapes : Shape → List Shape) :
    Action.Keeps (Weighted (α := α)) (requestStates shapes) :=
  keeps_requestStates_of fun n h _ _ =>
    h.withStore (Store.keeps_valued_requestStates shapes n.store h.valued)

theorem keeps_rebatch (batch : Nat) : Action.Keeps (Weighted (α := α)) (rebatch batch) := by
  refine keeps_rebatch_of (fun n h => ⟨h.valued, h.confined⟩) (fun n h _ => ?_) fun n h =>
    ⟨h.valued, ?_⟩
  · exact h.withStore (Store.keeps_valued_rebatch batch n.store h.valued)
  · exact Lowering.all_of_map_eq (f := (·.layer)) (fun _ _ heq ha => heq ▸ ha)
      (by rw [List.map_map]; rfl) h.confined

theorem enduring : Enduring (Weighted (α := α)) where
  toSteady := steady
  allocated := keeps_allocate
  filled := keeps_fillWeights
  released _ h := h.withStore h.valued
  requested := keeps_requestStates
  rebatched := keeps_rebatch

/-- Every call leaves the weights their values. -/
theorem call (h : Weighted n) (hc : Call n n') : Weighted n' := by
  refine enduring.keeps_call h hc (fun node hn heq => heq ▸ ?_)
    (fun nodes fragment hn heq => heq ▸ ?_) (fun loss => ?_)
    (fun inputs labels => keeps_prepare inputs labels n h) ⟨h.valued, h.confined⟩
      ⟨h.valued, h.confined⟩ (fun _ => ⟨h.valued, h.confined⟩) ⟨h.valued, h.confined⟩
  · exact drafting.keeps_add (fun a b hl _ => confined_of_layer a b hl) hn n h
  · exact drafting.keeps_extend (fun a b hl _ => confined_of_layer a b hl) fragment hn n h
  · exact drafting.keeps_compile inherited_confined confined_of_layer
      (fun _ h => ⟨h.valued, h.confined⟩) loss n h

theorem of_calls {settings : NetworkSettings}
    (h : Relation.ReflTransGen Call (Network.ofSettings settings) n) : Weighted n := by
  induction h with
  | refl => exact .ofSettings settings
  | tail _ hc ih => exact ih.call hc

end Weighted

/-- Optimizer state can be asked of a network that is prepared and not filled. -/
theorem requestStates_eq_ok_iff {shapes : Shape → List Shape} {u : Unit} :
    requestStates shapes n = .ok u n' ↔ n.isPrepared = true ∧ n.store.hasWeights = false ∧
      ∃ s, Store.requestStates shapes n.store = .ok u s ∧ n' = { n with store := s } := by
  constructor
  · intro h
    obtain ⟨_, _, hget, h⟩ := Action.bind_eq_ok_iff.mp h
    cases hget
    obtain ⟨hprepared, h⟩ := Action.guard_eq_ok_iff.mp h
    obtain ⟨_, _, hget, h⟩ := Action.bind_eq_ok_iff.mp h
    cases hget
    obtain ⟨hempty, h⟩ := Action.guard_eq_ok_iff.mp h
    obtain ⟨s, hs, rfl⟩ := Action.focus_eq_ok_iff.mp h
    exact ⟨by simpa using hprepared, by simpa using hempty, s, hs, rfl⟩
  · rintro ⟨hprepared, hempty, s, hs, rfl⟩
    refine Action.bind_eq_ok_iff.mpr ⟨n, n, rfl, Action.guard_eq_ok_iff.mpr
      ⟨by simp [hprepared], ?_⟩⟩
    refine Action.bind_eq_ok_iff.mpr ⟨n, n, rfl, Action.guard_eq_ok_iff.mpr ⟨by simp [hempty], ?_⟩⟩
    exact Action.focus_of_ok hs

/-- After a request that ends well, whatever has been called before it, some weight still lacks
state exactly if it was trained and had some before, but less than is asked for. The same request
once more registers nothing. -/
theorem lacksState_of_requestStates [Scalar α] {settings : NetworkSettings}
    (hcalls : Relation.ReflTransGen Call (ofSettings settings) n) {shapes : Shape → List Shape}
    (h : requestStates shapes n = .ok () n') :
    (∃ lacks, n'.store.lacksState shapes = .ok lacks ∧
      (lacks = true ↔ ∃ r, n.store.Lacking shapes r ∧ r.optimizerState ≠ [])) ∧
    requestStates shapes n' = .ok () n' := by
  have hvalued := (Weighted.of_calls hcalls).valued
  obtain ⟨hprepared, hempty, s, hs, rfl⟩ := requestStates_eq_ok_iff.mp h
  have hgranted := Store.granted_of_requestStates hvalued hs
  obtain ⟨lacks, hlacks, hiff⟩ := Store.lacksState_of_valued (hgranted.valued hvalued) shapes
  refine ⟨⟨lacks, hlacks, hiff.trans (hgranted.lacking_iff hvalued)⟩, ?_⟩
  refine requestStates_eq_ok_iff.mpr ⟨hprepared, ?_, s, hgranted.requestStates hvalued, rfl⟩
  have hsame := Store.sameBuffers_requestStates n.store shapes
  rw [Action.after_of_ok hs] at hsame
  exact hsame.hasWeights.trans hempty

/-- Two tensors of optimizer state for each weight. -/
def twoStates (shape : Shape) : List Shape := [shape, shape]

/-- A prepared layer of which one tensor of optimizer state has been asked for each weight. -/
def granted : Network Float32 :=
  (requestStates fun shape => [shape]).after ((prepare [] []).after tightCompiled)

theorem called_granted :
    Relation.ReflTransGen Call (ofSettings ⟨2, true, some 12, []⟩) granted := by
  have hdraft : Relation.ReflTransGen Call (ofSettings ⟨2, true, some 12, []⟩) tight :=
    .tail (.single (.add _ (Layer.confined_of_isShipped rfl)))
      (.add _ (Layer.confined_of_isShipped rfl))
  have hcompile : Call tight ((compile none).after tight) := .compile none
  rw [Action.after_of_ok compile_tight] at hcompile
  exact .tail (.tail (hdraft.tail hcompile) (.prepare [] [])) (.requestStates _)

/-- What it comes to once two tensors are asked for. -/
def grantedAgain : Network Float32 := (requestStates twoStates).after granted

theorem request_granted : requestStates twoStates granted = .ok () grantedAgain :=
  Action.eq_ok_of_endsWell (by decide +kernel)

theorem granted_lacksState : requestStates twoStates granted = .ok () grantedAgain ∧
    (∃ lacks, grantedAgain.store.lacksState twoStates = .ok lacks ∧
      (lacks = true ↔ ∃ r, granted.store.Lacking twoStates r ∧ r.optimizerState ≠ [])) ∧
    requestStates twoStates grantedAgain = .ok () grantedAgain :=
  ⟨request_granted, lacksState_of_requestStates called_granted request_granted⟩

/-- The weights that have one tensor are passed over, so they lack the second. -/
theorem granted_still_lacks : granted.isPrepared = true ∧ granted.store.hasWeights = false ∧
    requestStates twoStates granted = .ok () grantedAgain ∧
    grantedAgain.store.lacksState twoStates = .ok true := by
  have hvalued := (Weighted.of_calls (called_granted.tail (.requestStates twoStates))).valued
  obtain ⟨lacks, hlacks, hiff⟩ := Store.lacksState_of_valued hvalued twoStates
  obtain rfl : lacks = true := hiff.mpr (by decide +kernel)
  exact ⟨by decide +kernel, by decide +kernel, request_granted, hlacks⟩

end LayerGraph.Network
