import LayerGraph.Proofs.Network.Lifecycle
import LayerGraph.Proofs.Network.Pass
import LayerGraph.Proofs.Store.Tables
import Mathlib.Data.Nat.Basic
import Mathlib.Order.Basic

/-!
# The timeline of an iteration

The places of the nodes and their turns in the backward pass make one timeline, on which every step
is taken by one node for one purpose and no step is left out. Whatever is called, no tensor is
registered for a step beyond its end.
-/

namespace LayerGraph

variable {α : Type}

section Ranks

/-- The members of a list that are selected are numbered in their order. -/
theorem filterMap_idxOf?_filter {l : List Nat} (hl : l.Nodup) (c : Nat → Bool) :
    l.filterMap ((l.filter c).idxOf? ·) = List.range (l.filter c).length := by
  have hsome : ∀ {B : List Nat}, B.Nodup → B.map (B.idxOf? ·) = (List.range B.length).map some :=
    fun {B} hB => by
    refine List.ext_getElem (by simp) fun i hi _ => ?_
    have hi : i < B.length := by simpa using hi
    rw [List.getElem_map, List.getElem_map, List.getElem_range]
    refine List.idxOf?_eq_some_iff.mpr ⟨hi, rfl, fun j hj heq => ?_⟩
    exact Nat.ne_of_lt hj (hB.getElem_inj_iff.mp heq)
  have hnone : ∀ p ∈ l, (if c p = true then (l.filter c).idxOf? p else none) =
      (l.filter c).idxOf? p := by
    intro p hp
    split
    · rfl
    · next hc => exact (List.idxOf?_eq_none_iff.mpr fun hmem => hc (List.mem_filter.mp hmem).2).symm
  calc l.filterMap ((l.filter c).idxOf? ·)
      = (l.filter c).filterMap ((l.filter c).idxOf? ·) := by
        rw [List.filterMap_filter]
        exact (List.filterMap_congr hnone).symm
    _ = ((l.filter c).map ((l.filter c).idxOf? ·)).filterMap id := by rw [List.filterMap_map]; rfl
    _ = List.range (l.filter c).length := by
        rw [hsome (hl.filter c), List.filterMap_map]
        simp

/-- Two steps for each turn leave no step out. -/
theorem flatMap_turns (n m : Nat) :
    (List.range m).flatMap (fun b => [n + 2 * b, n + 2 * b + 1]) = (List.range (2 * m)).map
      (n + ·) := by
  induction m with
  | zero => rfl
  | succ m ih =>
    rw [List.range_succ, List.flatMap_append, ih, Nat.mul_succ, List.range_succ, List.range_succ]
    simp [Nat.add_assoc]

end Ranks

/-- The steps that a node takes. -/
def Schedule.steps (schedule : Schedule) : List Nat := schedule.forward :: schedule.returnSteps

namespace Network

variable {g : NodeGraph (Node α)}

section Nodes

variable (hp : g.order.Perm (List.range g.size))
include hp

theorem sortedNodes_perm : g.sortedNodes.Perm g.nodes := by
  refine (hp.filterMap (g.nodes[·]?)).trans (List.Perm.of_eq ?_)
  have hmap : (List.range g.size).map (g.nodes[·]?) = g.nodes.map some :=
    List.ext_getElem (by simp [NodeGraph.size]) fun i hi _ => by
      rw [List.getElem_map, List.getElem_range, List.getElem_map]
      exact List.getElem?_eq_getElem _
  calc (List.range g.size).filterMap (g.nodes[·]?)
      = ((List.range g.size).map (g.nodes[·]?)).filterMap id := by rw [List.filterMap_map]; rfl
    _ = g.nodes := by rw [hmap, List.filterMap_map]; simp

theorem map_sortedNodes {β : Type} {f : Node α → β} {F : NodeRef → β}
    (hf : ∀ (p : Nat) (a : Node α), g.nodes[p]? = some a → f a = F p) :
    g.sortedNodes.map f = g.order.map F := by
  unfold NodeGraph.sortedNodes
  rw [List.map_filterMap, ← List.filterMap_eq_map]
  refine List.filterMap_congr fun p hmem => ?_
  have hlt := (mem_order_iff hp).mp hmem
  have ha : g.nodes[p]? = some g.nodes[p] := List.getElem?_eq_getElem hlt
  rw [ha]
  exact congrArg some (hf p _ ha)

theorem map_place : g.order.map (place g) = List.range g.size := by
  rw [← length_order hp]
  exact List.ext_getElem (by simp) fun i hi _ => by simp [place_getElem hp]

theorem length_backwardIds : (backwardIds g).length = g.nodes.countP (·.participates) := by
  unfold backwardIds
  rw [← List.countP_eq_length_filter, List.countP_reverse, ← (sortedNodes_perm hp).countP_eq]
  exact List.countP_filterMap.symm

theorem filterMap_backwardRank : (g.order.map (scheduleOf g)).filterMap (·.backwardRank) =
    (List.range (backwardIds g).length).reverse := by
  have hrank : ∀ p, (scheduleOf g p).backwardRank = (backwardIds g).idxOf? p := by
    intro p
    unfold scheduleOf
    split
    · next heq => exact heq.symm
    · next heq => exact heq.symm
  rw [List.filterMap_map, ← List.reverse_reverse g.order, List.filterMap_reverse, List.reverse_inj]
  calc g.order.reverse.filterMap ((·.backwardRank) ∘ scheduleOf g)
      = g.order.reverse.filterMap ((backwardIds g).idxOf? ·) :=
        List.filterMap_congr fun p _ => hrank p
    _ = List.range (backwardIds g).length :=
      filterMap_idxOf?_filter (List.nodup_reverse.mpr (nodup_order hp)) _

/-- The forward steps come first, and then two steps for each turn. -/
theorem steps_perm (hpos : 0 < g.size) :
    ((g.order.map (scheduleOf g)).flatMap (·.steps)).Perm (List.range (lastStep g + 1)) := by
  have hlast : lastStep g + 1 = g.size + 2 * (backwardIds g).length := by
    unfold lastStep
    split
    · next hnone => simp [List.isEmpty_iff.mp hnone, Nat.sub_add_cancel hpos]
    · omega
  have hforward : (g.order.map (scheduleOf g)).map (·.forward) = List.range g.size := by
    rw [List.map_map, ← map_place hp]
    exact List.map_congr_left fun p _ => scheduleOf_forward g p
  have hreturns : ∀ s ∈ g.order.map (scheduleOf g), s.returnSteps =
      s.backwardRank.toList.flatMap fun b => [g.size + 2 * b, g.size + 2 * b + 1] := by
    intro s hs
    obtain ⟨p, -, rfl⟩ := List.mem_map.mp hs
    unfold scheduleOf
    split <;> rfl
  have hturns : (g.order.map (scheduleOf g)).flatMap (·.returnSteps) =
      (List.range (backwardIds g).length).reverse.flatMap fun b =>
        [g.size + 2 * b, g.size + 2 * b + 1] := by
    rw [← filterMap_backwardRank hp, List.filterMap_eq_flatMap_toList, List.flatMap_assoc]
    exact List.flatMap_congr hreturns
  refine (List.flatMap_append_perm _ (fun s : Schedule => [s.forward])
    Schedule.returnSteps).symm.trans ?_
  rw [← List.map_eq_flatMap, hforward, hturns, hlast, List.range_add, ← flatMap_turns]
  exact ((List.reverse_perm _).flatMap_right _).append_left _

end Nodes

/-- How an iteration that ends at the step `last` is laid out. In sorted order the nodes run forward
one after the other, and those that take part in the backward pass have the turns down to the first
one. -/
structure Timeline (g : NodeGraph (Node α)) (last : Nat) : Prop where
  sorted : g.sortedNodes.Perm g.nodes
  forward : g.sortedNodes.map (·.schedule.forward) = List.range g.size
  participants : ∀ a ∈ g.nodes, a.schedule.backwardRank.isSome = a.participates
  backward : g.sortedNodes.filterMap (·.schedule.backwardRank) =
    (List.range (g.nodes.countP (·.participates))).reverse
  gradientStep : ∀ a ∈ g.nodes, a.schedule.gradientStep = a.schedule.backwardRank.map
    (g.size + 2 * ·)
  derivativeStep : ∀ a ∈ g.nodes, a.schedule.derivativeStep = a.schedule.backwardRank.map
    (g.size + 2 * · + 1)
  steps : (g.nodes.flatMap (·.schedule.steps)).Perm (List.range (last + 1))

theorem gradientStep_of_scheduled (h : Scheduled g) {a : Node α} (ha : a ∈ g.nodes)
    {t : BackwardTurn} (ht : a.schedule.backward = some t) : t.gradientStep =
      g.size + 2 * t.rank := by
  obtain ⟨p, hp⟩ := List.getElem?_of_mem ha
  rw [h.schedule p a hp] at ht
  obtain ⟨rank, -, rfl⟩ := turn_eq ht
  rfl

theorem timeline_of_scheduled (h : Scheduled g) (hpos : 0 < g.size) : Timeline g (lastStep g) where
  sorted := sortedNodes_perm h.ordered.perm
  forward := by
    rw [map_sortedNodes h.ordered.perm fun p a ha => by rw [h.schedule p a ha, scheduleOf_forward]]
    exact map_place h.ordered.perm
  participants a ha := by
    obtain ⟨p, hp⟩ := List.getElem?_of_mem ha
    rw [Bool.eq_iff_iff, exists_turn_iff h.ordered.perm hp, ← h.schedule p a hp,
      Schedule.backwardRank, Option.isSome_map, Option.isSome_iff_exists]
  backward := by
    rw [← length_backwardIds h.ordered.perm, ← filterMap_backwardRank h.ordered.perm,
      ← map_sortedNodes h.ordered.perm h.schedule, List.filterMap_map]
    rfl
  gradientStep a ha := by
    rw [Schedule.gradientStep, Schedule.backwardRank, Option.map_map]
    exact Option.map_congr fun t ht => gradientStep_of_scheduled h ha ht
  derivativeStep a ha := by
    rw [Schedule.derivativeStep, Schedule.backwardRank, Option.map_map]
    exact Option.map_congr fun t ht => congrArg (· + 1) (gradientStep_of_scheduled h ha ht)
  steps := by
    have hperm := (sortedNodes_perm h.ordered.perm).flatMap_right (·.schedule.steps)
    refine hperm.symm.trans (List.Perm.trans (List.Perm.of_eq ?_) (steps_perm h.ordered.perm hpos))
    rw [← map_sortedNodes h.ordered.perm h.schedule, List.flatMap_map]

/-- What a node does takes place within an iteration. -/
theorem punctual_of_scheduled (h : Scheduled g) {p : Nat} {a : Node α} (ha : g.nodes[p]? = some a) :
    Punctual (· ≤ lastStep g) a g.size where
  forward := by
    rw [h.schedule p a ha, scheduleOf_forward]
    exact forward_le_lastStep h.ordered.perm ha
  returns t ht := by
    rw [h.schedule p a ha, Schedule.returnSteps] at ht
    cases hturn : (scheduleOf g p).backward with
    | none =>
      rw [hturn] at ht
      cases ht
    | some turn =>
      rw [hturn] at ht
      have hle := derivativeStep_le hturn
      simp only [BackwardTurn.derivativeStep, List.mem_cons, List.not_mem_nil, or_false] at ht
      omega
  last := by
    unfold lastStep
    split <;> omega

end Network

namespace Store

/-- No tensor and no weight is registered for a step beyond the last one. -/
structure Within (s : Store α) : Prop where
  entries : ∀ e ∈ s.entries, ∀ t ∈ e.steps, t ≤ s.maxStep
  weights : ∀ r ∈ s.weights, ∀ t ∈ r.gradientSteps, t ≤ s.maxStep

/-- The tensors and weights of a store, and the end of an iteration, which allocating and writing
leave alone. -/
structure SameTables (s s' : Store α) : Prop where
  entries : s'.entries = s.entries
  weights : s'.weights = s.weights
  maxStep : s'.maxStep = s.maxStep

theorem within_of_empty {s : Store α} (he : s.entries = []) (hw : s.weights = []) : s.Within := by
  refine ⟨fun e hm => ?_, fun r hm => ?_⟩
  · rw [he] at hm
    cases hm
  · rw [hw] at hm
    cases hm

theorem tabularAt_within (last : Nat) :
    TabularAt (· ≤ last) fun s : Store α => s.maxStep = last ∧ s.Within where
  added s e _ hsteps h := by
    refine ⟨h.1, fun e' he' t ht => ?_, h.2.weights⟩
    rcases List.mem_append.mp he' with he' | he'
    · exact h.2.entries e' he' t ht
    · obtain rfl := List.mem_singleton.mp he'
      exact (hsteps t ht).trans_eq h.1.symm
  timed s id steps hsteps h := by
    refine ⟨h.1, fun e he t ht => ?_, h.2.weights⟩
    obtain ⟨i, hi⟩ := List.getElem?_of_mem he
    rw [List.getElem?_modify] at hi
    obtain ⟨e₀, he₀, rfl⟩ := Option.map_eq_some_iff.mp hi
    have hold := h.2.entries e₀ (List.mem_of_getElem? he₀)
    split at ht
    · rcases hsteps e₀ t ht with ht | ht
      · exact hold t ht
      · exact ht.trans_eq h.1.symm
    · exact hold t ht
  weights s weights hsteps h := by
    refine ⟨h.1, h.2.entries, fun r hr t ht => ?_⟩
    rcases (hsteps r hr).2 t ht with ⟨r₀, hr₀, ht⟩ | ht
    · exact h.2.weights r₀ hr₀ t ht
    · exact ht.trans_eq h.1.symm
  ends s h := ⟨Nat.zero_le _, Nat.le_of_eq h.1⟩

theorem Within.of_sameTables {s s' : Store α} (h : s.Within) (hs : SameTables s s') :
    s'.Within := by
  refine ⟨?_, ?_⟩
  · rw [hs.entries, hs.maxStep]
    exact h.entries
  · rw [hs.weights, hs.maxStep]
    exact h.weights

theorem sameTables_allocate (mode : RunMode) (s : Store α) :
    SameTables s ((allocate mode).after s) :=
  keeps_allocate_of_slots (fun _ _ _ _ _ h => ⟨h.entries, h.weights, h.maxStep⟩) mode s
    ⟨rfl, rfl, rfl⟩

variable {last : Nat}

/-- Tensors may be replaced by ones with steps within the iteration. -/
theorem Within.map {s : Store α} (h : s.Within) {f : TensorRecord α → TensorRecord α}
    (hf : ∀ e, ∀ t ∈ (f e).steps, t ∈ e.steps ∨ t ≤ s.maxStep) :
    Within { s with entries := s.entries.map f } := by
  refine ⟨fun e he t ht => ?_, h.weights⟩
  obtain ⟨e₀, he₀, rfl⟩ := List.mem_map.mp he
  exact (hf e₀ t ht).elim (h.entries e₀ he₀ t) id

theorem keeps_within_fillWeights [Scalar α] (last : Nat) :
    Action.Keeps (fun s : Store α => s.maxStep = last ∧ s.Within) (fillWeights last) := by
  rintro s ⟨rfl, h⟩
  rcases after_fillWeights s.maxStep s with heq | ⟨-, hr⟩
  · rw [heq]
    exact ⟨rfl, h⟩
  rw [Action.after_of_ok hr]
  refine ⟨rfl, Within.map (s := { s with persistent := _, hasWeights := true }) ⟨h.entries,
      h.weights⟩ fun e t ht => ?_⟩
  unfold TensorRecord.lasting at ht
  split at ht
  · refine (List.mem_append.mp ht).imp_right fun ht => ?_
    obtain rfl := List.mem_singleton.mp ht
    exact Nat.le_refl _
  · exact .inl ht

theorem keeps_within_rebatch (last batch : Nat) :
    Action.Keeps (fun s : Store α => s.maxStep = last ∧ s.Within) (rebatch batch) := by
  refine Action.keeps_update fun s s' h hr => ?_
  split at hr
  · cases hr
  · cases hr
    refine ⟨h.1, h.2.map fun e t ht => .inl ?_⟩
    split at ht <;> exact ht

theorem keeps_within_requestStates (last : Nat) (shapes : Shape → List Shape) :
    Action.Keeps (fun s : Store α => s.maxStep = last ∧ s.Within) (requestStates shapes) := by
  have hQ := tabularAt_within (α := α) last
  refine keeps_requestStates_of_added (fun s w e he hsteps _ h => ?_) shapes
  have hadded := hQ.added s e he.requested (by simp [hsteps, h.1]) h
  refine ⟨h.1, hadded.2.entries, fun r hr => ?_⟩
  obtain ⟨r₀, hr₀, heq⟩ :=
    exists_of_map_eq (map_modify_eq (f := (·.gradientSteps)) (fun _ => by rfl) s.weights w).symm
    (List.mem_map_of_mem hr)
  exact heq ▸ h.2.weights r₀ hr₀

end Store

namespace Network

variable {n n' : Network α}

/-- A network whose iterations have a timeline from the time it is compiled, and for which nothing
is registered before that. -/
structure Timely [Scalar α] (n : Network α) : Prop where
  confined : ∀ a ∈ n.graph.nodes, a.layer.Confined
  within : n.store.Within
  unbound : n.isCompiled = false → n.isPrepared = false ∧ n.store.entries = [] ∧
    n.store.weights = []
  scheduled : n.isCompiled = true → Scheduled n.graph ∧ 0 < n.graph.size ∧
    n.store.maxStep = lastStep n.graph

/-- An open network of which nothing is registered. -/
structure Unbound [Scalar α] (n : Network α) : Prop where
  open_ : n.isCompiled = false
  unprepared : n.isPrepared = false
  entries : n.store.entries = []
  weights : n.store.weights = []
  confined : ∀ a ∈ n.graph.nodes, a.layer.Confined

namespace Timely

variable [Scalar α]

theorem ofSettings (settings : NetworkSettings) : Timely (ofSettings settings : Network α) where
  confined a ha := by cases ha
  within := Store.within_of_empty rfl rfl
  unbound _ := ⟨rfl, rfl, rfl⟩
  scheduled := nofun

theorem sameTables (h : Timely n) {s : Store α} (hs : n.store.SameTables s) :
    Timely { n with store := s } where
  confined := h.confined
  within := h.within.of_sameTables hs
  unbound hopen := by
    rw [hs.entries, hs.weights]
    exact h.unbound hopen
  scheduled hclosed := by
    rw [hs.maxStep]
    exact h.scheduled hclosed

theorem withStore (h : Timely n) (hc : n.isCompiled = true) {s : Store α}
    (hs : s.maxStep = n.store.maxStep ∧ s.Within) : Timely { n with store := s } where
  confined := h.confined
  within := hs.2
  unbound hopen := by
    rw [hc] at hopen
    cases hopen
  scheduled hclosed := by
    rw [hs.1]
    exact h.scheduled hclosed

theorem closed_of_prepared (h : Timely n) (hp : n.isPrepared = true) : n.isCompiled = true := by
  cases hc : n.isCompiled with
  | true => rfl
  | false =>
    rw [(h.unbound hc).1] at hp
    cases hp

theorem withGraph (h : Timely n) {g : NodeGraph (Node α)} (ho : g.order = n.graph.order)
    (hd : g.nodes.map design = n.graph.nodes.map design) {notes : List (Note α)} :
    Timely { n with notes := notes, graph := g } where
  confined a ha := by
    obtain ⟨b, hb, heq⟩ := exists_of_map_eq hd.symm (List.mem_map_of_mem ha)
    simp only [design, Prod.mk.injEq] at heq
    exact confined_of_layer b a heq.2.1.symm (h.confined b hb)
  within := h.within
  unbound := h.unbound
  scheduled hclosed := by
    obtain ⟨hscheduled, hpos, hlast⟩ := h.scheduled hclosed
    have hsize : g.size = n.graph.size := by simpa [NodeGraph.size] using congrArg List.length hd
    exact ⟨hscheduled.of_design ho hd, hsize ▸ hpos, hlast.trans (lastStep_of_design ho hd).symm⟩

theorem steady : Steady (Timely (α := α)) where
  write n id v s h hs := by
    refine h.sameTables ?_
    obtain ⟨-, -, -, ⟨-, -, rfl⟩ | ⟨-, -, -, rfl⟩⟩ := Store.set_eq_ok hs
    · exact ⟨rfl, rfl, rfl⟩
    · exact ⟨rfl, rfl, rfl⟩
  keep n p loss notes h := by
    refine h.withGraph (g := n.graph.modifyNode p fun node => { node with loss := loss }) rfl ?_
    exact map_modify_eq (fun _ => by rfl) _ _
  confined n h := h.confined

theorem keeps_allocate (mode : RunMode) : Action.Keeps (Timely (α := α)) (allocate mode) := by
  refine keeps_allocate_of (fun n h _ => ?_) fun n h =>
    ⟨h.confined, h.within, h.unbound, h.scheduled⟩
  exact h.sameTables (Store.sameTables_allocate mode n.store)

theorem keeps_fillWeights : Action.Keeps (Timely (α := α)) fillWeights := by
  refine keeps_fillWeights_of fun n h hp => ?_
  exact h.withStore (h.closed_of_prepared hp)
    (Store.keeps_within_fillWeights _ n.store ⟨rfl, h.within⟩)

theorem keeps_requestStates (shapes : Shape → List Shape) :
    Action.Keeps (Timely (α := α)) (requestStates shapes) := by
  refine keeps_requestStates_of fun n h hp _ => ?_
  exact h.withStore (h.closed_of_prepared hp) (Store.keeps_within_requestStates _ shapes n.store
    ⟨rfl, h.within⟩)

theorem keeps_rebatch (batch : Nat) : Action.Keeps (Timely (α := α)) (rebatch batch) := by
  refine keeps_rebatch_of (fun n h => ⟨h.confined, h.within, h.unbound, h.scheduled⟩)
    (fun n h hp => ?_) fun n h => ?_
  · exact h.withStore (h.closed_of_prepared hp) (Store.keeps_within_rebatch _ batch n.store
      ⟨rfl, h.within⟩)
  · exact h.withGraph (g := { n.graph with nodes := n.graph.nodes.map (Node.rebatch batch) }) rfl
      (List.map_map ..)

theorem releaseTensors (weightsToo : Bool) (h : Timely n) :
    Timely (releaseTensors weightsToo n) := by
  cases weightsToo with
  | false => exact h.sameTables (s := n.store.releaseTensors) ⟨rfl, rfl, rfl⟩
  | true => exact h.sameTables (s := n.store.releaseTensors.releaseWeights) ⟨rfl, rfl, rfl⟩

theorem releaseWeights (h : Timely n) : Timely (releaseWeights n) :=
  h.sameTables (s := n.store.releaseWeights) ⟨rfl, rfl, rfl⟩

theorem enduring : Enduring (Timely (α := α)) where
  toSteady := steady
  allocated := keeps_allocate
  filled := keeps_fillWeights
  released _ h := h.releaseTensors false
  requested := keeps_requestStates
  rebatched := keeps_rebatch

section Growth

theorem ofUnbound (h : Unbound n) : Timely n where
  confined := h.confined
  within := Store.within_of_empty h.entries h.weights
  unbound _ := ⟨h.unprepared, h.entries, h.weights⟩
  scheduled hclosed := by
    rw [h.open_] at hclosed
    cases hclosed

theorem unbound_or_closed (h : Timely n) : Unbound n ∨ n.isCompiled = true := by
  cases hc : n.isCompiled with
  | false =>
    obtain ⟨hp, he, hw⟩ := h.unbound hc
    exact .inl ⟨hc, hp, he, hw, h.confined⟩
  | true => exact .inr rfl

theorem drafting_unbound : Drafting (fun a : Node α => a.layer.Confined) Unbound where
  nodes _ h := h.confined
  redrawn _ _ _ h hg := ⟨h.open_, h.unprepared, h.entries, h.weights, hg⟩
  bounded _ _ _ h := ⟨h.open_, h.unprepared, h.entries, h.weights, h.confined⟩

theorem drafting_confined : Drafting (fun a : Node α => a.layer.Confined) fun n =>
    ∀ a ∈ n.graph.nodes, a.layer.Confined :=
  ⟨fun _ h => h, fun _ _ _ _ hg => hg, fun _ _ _ h => h⟩

theorem compiled (loss : Option String) (h : Timely n) : Timely ((compile loss).after n) := by
  rcases h.unbound_or_closed with ho | hc
  · cases hr : compile loss n with
    | error e n' =>
      rw [Action.after_of_error hr]
      exact ofUnbound (drafting_unbound.fails_compile inherited_confined loss n e n' ho hr)
    | ok u n' =>
      have hconf := drafting_confined.keeps_compile inherited_confined confined_of_layer
        (fun _ h => h) loss n h.confined
      rw [Action.after_of_ok hr] at hconf ⊢
      obtain ⟨hclosed, -, hscheduled, hpos, hstore⟩ := scheduled_of_compile hr
      refine ⟨hconf, ?_, fun hopen => ?_, fun _ => ⟨hscheduled, hpos, by rw [hstore]; rfl⟩⟩
      · rw [hstore]
        exact Store.within_of_empty ho.entries ho.weights
      · rw [hclosed] at hopen
        cases hopen
  · rw [after_compile_of_closed loss hc]
    exact h

theorem called_add {node : Node α} (hn : node.layer.Confined) (h : Timely n) :
    Timely ((add node).after n) := by
  rcases h.unbound_or_closed with ho | hc
  · exact ofUnbound (drafting_unbound.keeps_add (fun a b hl _ => confined_of_layer a b hl) hn n ho)
  · rw [after_add_of_closed node hc]
    exact h

theorem called_extend {nodes : List (Node α)} (fragment : String)
    (hn : ∀ node ∈ nodes, node.layer.Confined) (h : Timely n) :
    Timely ((extend nodes fragment).after n) := by
  rcases h.unbound_or_closed with ho | hc
  · exact ofUnbound (drafting_unbound.keeps_extend (fun a b hl _ => confined_of_layer a b hl)
      fragment hn n ho)
  · rw [after_extend_of_closed nodes fragment hc]
    exact h

end Growth

section Prepare

variable {last : Nat}

/-- A compiled network whose iterations end at the step `last`. -/
structure Ends (last : Nat) (n : Network α) : Prop where
  timely : Timely n
  closed : n.isCompiled = true
  ends : n.store.maxStep = last

theorem Ends.modifyNode (h : Ends last n) (p : NodeRef) {f : Node α → Node α}
    (hf : ∀ a, design (f a) = design a) : Ends last { n with graph := n.graph.modifyNode p f } :=
  ⟨h.timely.withGraph (g := n.graph.modifyNode p f) rfl (map_modify_eq hf _ _), h.closed, h.ends⟩

/-- Whatever a node registers, it is used within the iteration. -/
theorem keeps_ends_prepareNode (p : NodeRef) :
    Action.Keeps (Ends (α := α) last) (prepareNode p) := by
  intro n h
  unfold prepareNode
  rw [Action.after_get_bind]
  refine Action.after_read_bind h fun a ha => ?_
  have ha := node_eq_ok_iff.mp ha
  obtain ⟨hscheduled, -, hlast⟩ := h.timely.scheduled h.closed
  have hpunctual : Punctual (· ≤ last) a n.graph.size := by
    have := punctual_of_scheduled hscheduled ha
    rwa [← hlast, h.ends] at this
  refine Action.after_read_bind h fun owner _ => Action.after_read_bind h fun inputs _ => ?_
  refine Action.after_read_bind h fun inputShapes _ => Action.after_read_bind h fun declared _ => ?_
  dsimp only
  refine Action.Keeps.bind (Action.keeps_modify fun m hm => hm.modifyNode p fun _ => rfl)
    (fun _ => ?_) n h
  refine Action.Keeps.bind ?_ fun tensors => Action.keeps_modify fun m hm =>
    hm.modifyNode p fun _ => rfl
  refine (keeps_register_at (Store.tabularAt_within last) hpunctual _ inputs owner declared).focus
    (fun m hm => ⟨hm.ends, hm.timely.within⟩) fun m s hm hs => ⟨?_, hm.closed, hs.1⟩
  exact hm.timely.withStore hm.closed ⟨hs.1.trans hm.ends.symm, hs.2⟩

theorem keeps_ends_prepareAll (inputs labels : List String) :
    Action.Keeps (Ends (α := α) last) (prepareAll inputs labels) := by
  refine keeps_prepareAll_of keeps_ends_prepareNode fun n _ _ _ h => ⟨?_, h.closed, h.ends⟩
  exact ⟨h.timely.confined, h.timely.within, h.timely.unbound, h.timely.scheduled⟩

theorem prepared (inputs labels : List String) (h : Timely n) :
    Timely ((prepare inputs labels).after n) := by
  cases hc : n.isCompiled with
  | false =>
    rw [after_prepare_of_open inputs labels hc]
    exact h
  | true =>
    have hkeeps : Action.Keeps (Ends (α := α) n.store.maxStep) (prepare inputs labels) := by
      refine keeps_prepare_of (keeps_ends_prepareAll inputs labels)
        (fun m hm => ⟨?_, hm.closed, hm.ends⟩) fun m hm => ?_
      · exact hm.timely.withStore hm.closed (s := m.store.reset) ⟨rfl,
          Store.within_of_empty rfl rfl⟩
      · refine ⟨⟨hm.timely.confined, hm.timely.within, fun hopen => ?_, hm.timely.scheduled⟩,
          hm.closed, hm.ends⟩
        exact absurd (hopen.symm.trans hm.closed) Bool.false_ne_true
    exact (hkeeps n ⟨h, hc, rfl⟩).timely

end Prepare

/-- Every call leaves a network timely. -/
theorem call (h : Timely n) (hc : Call n n') : Timely n' := by
  refine enduring.keeps_call h hc (fun node hn heq => heq ▸ called_add hn h)
    (fun nodes fragment hn heq => heq ▸ called_extend fragment hn h) (fun loss => compiled loss h)
    (fun inputs labels => prepared inputs labels h) (h.releaseTensors true) h.releaseWeights
      (fun enable => ?_) ⟨h.confined, h.within, h.unbound, h.scheduled⟩
  exact ⟨h.confined, ⟨h.within.entries, h.within.weights⟩, h.unbound, h.scheduled⟩

end Timely

theorem calls_of_leads [Scalar α] (h : Leads n n') : Relation.ReflTransGen Call n n' :=
  Relation.ReflTransGen.mono (fun _ _ h => h.1) _ _ h

/-- Whatever has been called, once a network is compiled its nodes have a timeline that ends at the
last step of the store, and no tensor, gradient or weight is registered for a step beyond that. -/
theorem timeline_of_calls [Scalar α] {settings : NetworkSettings}
    (h : Relation.ReflTransGen Call (ofSettings settings) n) :
    (n.isCompiled = true → Timeline n.graph n.store.maxStep) ∧ n.store.Within := by
  have htimely : Timely n := by
    induction h with
    | refl => exact .ofSettings settings
    | tail _ hc ih => exact ih.call hc
  refine ⟨fun hc => ?_, htimely.within⟩
  obtain ⟨hscheduled, hpos, hlast⟩ := htimely.scheduled hc
  rw [hlast]
  exact timeline_of_scheduled hscheduled hpos

/-- Four nodes run forward, and three of them backward. -/
theorem relaying_timeline : Timeline relaying.graph 9 ∧ relaying.store.Within := by
  obtain ⟨settings, hleads⟩ := leads_of_reached reached_relaying
  obtain ⟨mode, -, hr⟩ := reached_relaying.ready relaying_ready.1
  obtain ⟨htimeline, hwithin⟩ := timeline_of_calls (calls_of_leads hleads)
  have htimeline := htimeline hr.prepared.closed
  have hlast : relaying.store.maxStep = 9 := by decide +kernel
  rw [hlast] at htimeline
  exact ⟨htimeline, hwithin⟩

end Network

end LayerGraph
