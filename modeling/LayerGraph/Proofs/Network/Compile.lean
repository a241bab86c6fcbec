import Mathlib
import LayerGraph.Proofs.Network.Compiled
import LayerGraph.Network.Growth
import LayerGraph.Proofs.NodeGraph.Sorted

/-!
# Compiling a draft

A network that is not compiled yet is a draft: its nodes are plain and its store is blank. Compiling
turns a draft into a drawn network or leaves a draft. Its nodes are marked in one pass over the
sorted order, but what they are told is a matter of paths: a node takes part in the backward pass if
it trains, or if a path leads to it from a node that does.

Mathlib is imported whole for the modules that build on this one: they compile concrete networks by
`cbv`, which takes the equations of library functions from wherever they have been derived.
-/

namespace LayerGraph

variable {α : Type}

/-- Nothing is registered, filled or allocated. -/
structure Store.IsBlank (s : Store α) : Prop where
  entries : s.entries = []
  weights : s.weights = []
  persistent : s.persistent = []
  slots : s.slots = []
  slotOf : s.slotOf = []
  mode : s.mode = none
  hasWeights : s.hasWeights = false

theorem Store.isBlank_empty (optimize : Bool) (limit : Option Nat) :
    (Store.empty optimize limit : Store α).IsBlank := ⟨rfl, rfl, rfl, rfl, rfl, rfl, rfl⟩

theorem Store.isBlank_reset (s : Store α) : s.reset.IsBlank := ⟨rfl, rfl, rfl, rfl, rfl, rfl, rfl⟩

theorem Store.IsBlank.setBounds {s : Store α} (h : s.IsBlank) (forwardSteps maxStep : Nat) :
    (s.setBounds forwardSteps maxStep).IsBlank :=
  ⟨h.entries, h.weights, h.persistent, h.slots, h.slotOf, h.mode, h.hasWeights⟩

namespace Network

structure Draft (n : Network α) : Prop where
  open_ : n.isCompiled = false
  unprepared : n.isPrepared = false
  plain : Lowering.AllPlain n.graph.nodes
  blank : n.store.IsBlank
  batch : 0 < n.batchSize

/-- A compiled network of which nothing is registered yet. -/
structure Drawn (n : Network α) : Prop where
  closed : n.isCompiled = true
  unprepared : n.isPrepared = false
  compiled : Compiled n.graph
  blank : n.store.IsBlank
  forwardSteps : n.store.forwardSteps = n.graph.size
  maxStep : n.store.maxStep = lastStep n.graph
  batch : 0 < n.batchSize

variable {n n' : Network α}

theorem draft_ofSettings (settings : NetworkSettings) : Draft (ofSettings settings : Network α) :=
  ⟨rfl, rfl, by simp [Lowering.AllPlain, ofSettings, NodeGraph.empty], Store.isBlank_empty _ _,
    Nat.lt_of_lt_of_le Nat.zero_lt_one (Nat.le_max_right _ _)⟩

theorem Draft.withGraph (h : Draft n) {g : NodeGraph (Node α)} (hg : Lowering.AllPlain g.nodes) :
    Draft { n with graph := g } := ⟨h.open_, h.unprepared, hg, h.blank, h.batch⟩

section Graph

variable {P : Node α → Prop}

theorem keeps_all_add {node : Node α} (hn : P node) :
    Action.Keeps (fun g : NodeGraph (Node α) => ∀ a ∈ g.nodes, P a) (NodeGraph.add node) := by
  intro g hg
  unfold Action.after
  cases h : NodeGraph.add node g with
  | ok id g' =>
    obtain ⟨rfl, -⟩ := NodeGraph.add_eq_ok h
    exact Lowering.all_append hg (Lowering.all_cons hn (by simp))
  | error e g' =>
    obtain rfl := NodeGraph.add_eq_error h
    exact hg

theorem keeps_all_replace {nodes : List (Node α)} (hn : ∀ a ∈ nodes, P a) :
    Action.Keeps (fun g : NodeGraph (Node α) => ∀ a ∈ g.nodes, P a) (NodeGraph.replace nodes) := by
  intro g _
  have hk : Action.Keeps (fun g : NodeGraph (Node α) => ∀ a ∈ g.nodes, P a)
      (nodes.forM fun node => do let _ ← NodeGraph.add node) :=
    Action.keeps_forM fun node hm => (keeps_all_add (hn node hm)).bind fun _ =>
      Action.keeps_pure _
  exact hk _ (by simp [NodeGraph.empty])

theorem keeps_all_sort : Action.Keeps (fun g : NodeGraph (Node α) => ∀ a ∈ g.nodes,
    P a) NodeGraph.sort := by
  refine Action.keeps_update fun g g' hg h => ?_
  obtain ⟨order, -, h⟩ := except_bind_eq_ok_iff.mp h
  cases h
  exact hg

variable (hsame : ∀ a b : Node α, b.layer = a.layer → b.bufferUse = a.bufferUse →
    b.sharedFrom.isSome = a.sharedFrom.isSome → P a → P b)
include hsame

theorem keeps_all_markBackward :
    Action.Keeps (fun g : NodeGraph (Node α) => ∀ a ∈ g.nodes, P a)
      (Action.update markBackward) := by
  refine Action.keeps_update fun g g' hg h => ?_
  refine Lowering.all_of_map_eq (f := unmarked) (fun a b heq => ?_) (nodes_of_markBackward h) hg
  have hl : (unmarked a).layer = (unmarked b).layer := congrArg Node.layer heq
  have hu : (unmarked a).bufferUse = (unmarked b).bufferUse := congrArg Node.bufferUse heq
  have hs : (unmarked a).sharedFrom.isSome = (unmarked b).sharedFrom.isSome :=
    congrArg (fun c => Option.isSome (Node.sharedFrom c)) heq
  exact hsame a b hl.symm hu.symm hs.symm

theorem keeps_all_scheduleAll :
    Action.Keeps (fun g : NodeGraph (Node α) => ∀ a ∈ g.nodes, P a) (modify scheduleAll) := by
  refine Action.keeps_modify fun g hg => ?_
  refine Lowering.all_of_map_eq (f := fun a => (a.layer, a.bufferUse, a.sharedFrom.isSome))
    (fun a b heq => ?_) (map_scheduleAll (fun _ _ => rfl) g) hg
  simp only [Prod.mk.injEq] at heq
  exact hsame a b heq.1.symm heq.2.1.symm heq.2.2.symm

end Graph

variable [Zero α]

theorem lowerNodes_apply (loss : Option String) (n : Network α) : (lowerNodes loss) n =
    (match Lowering.lower loss n.fusionRules n.graph.nodes with
      | .ok _ nodes => onGraph (NodeGraph.replace nodes)
      | .error e nodes => do
        onGraph (NodeGraph.replace nodes)
        throw e : Action (Network α) Unit) { n with graph := NodeGraph.empty } := rfl

/-- The nodes that get in are those that lowering ends with, and their names are distinct. -/
theorem lowered_of_lowerNodes {loss : Option String} {u : Unit} (h : lowerNodes loss n = .ok u n') :
    ∃ u', Lowering.lower loss n.fusionRules n.graph.nodes = .ok u' n'.graph.nodes ∧
      (n'.graph.nodes.map (·.name)).Nodup ∧ n' = { n with graph := n'.graph } := by
  rw [lowerNodes_apply] at h
  cases hl : Lowering.lower loss n.fusionRules n.graph.nodes with
  | ok u' nodes =>
    rw [hl] at h
    obtain ⟨g, hg, rfl⟩ := Action.focus_eq_ok_iff.mp h
    have hnodes := NodeGraph.nodes_of_replace hg
    have hd : g.Distinct := by
      have := NodeGraph.distinct_after_replace nodes (NodeGraph.empty : NodeGraph (Node α))
      rwa [Action.after_of_ok hg] at this
    exact ⟨u', by rw [hnodes], hd, rfl⟩
  | error e nodes =>
    rw [hl] at h
    obtain ⟨_, _, _, h⟩ := Action.bind_eq_ok_iff.mp h
    cases h

theorem wired_of_lowerNodes {loss : Option String} {u : Unit} (h : lowerNodes loss n = .ok u n') :
    Wired n'.graph := by
  obtain ⟨u', hl, hd, -⟩ := lowered_of_lowerNodes h
  obtain ⟨hr, hlist, hs⟩ := Lowering.lower_spec hl hd
  exact wired_of_separated hd hr hlist hs

omit [Zero α] in
theorem nodes_of_sort {g g' : NodeGraph (Node α)} {u : Unit}
    (h : NodeGraph.sort g = .ok u g') : g'.nodes = g.nodes ∧
    g'.order.Perm (List.range g'.size) := by
  obtain ⟨order, rfl, hp⟩ := NodeGraph.sort_eq_ok h
  exact ⟨rfl, hp⟩

/-- The stages of a compilation that ends well: the lowered graph, the graph with its design, and
the graph in which the nodes have decided how they use their buffers. -/
theorem stages_of_compile {loss : Option String} {u : Unit} (hc : compile loss n = .ok u n') :
    ∃ (u₁ u₂ : Unit) (n₁ n₂ : Network α) (g₂ g₃ g₄ : NodeGraph (Node α)),
      lowerNodes loss n = .ok u₁ n₁ ∧ NodeGraph.sort n₁.graph = .ok u₂ g₂ ∧
      checkOrder { n₁ with graph := g₂ } = .ok () ∧ markBackward g₂ = .ok g₃ ∧
      (if n₁.optimizeMemory then decideAll (scheduleAll g₃) else .ok (scheduleAll g₃)) = .ok g₄ ∧
      n₂ = { n₁ with graph := g₄, isCompiled := true } ∧
      n' = { n₂ with
        store := n₁.store.setBounds (scheduleAll g₃).size (lastStep (scheduleAll g₃)) } := by
  unfold compile at hc
  obtain ⟨_, _, hget, hc₁⟩ := Action.bind_eq_ok_iff.mp hc
  cases hget
  obtain ⟨-, hc₂⟩ := Action.guard_eq_ok_iff.mp hc₁
  obtain ⟨_, _, hget, hc₃⟩ := Action.bind_eq_ok_iff.mp hc₂
  cases hget
  obtain ⟨-, hc₄⟩ := Action.guard_eq_ok_iff.mp hc₃
  obtain ⟨u₁, n₁, hlower, hc₅⟩ := Action.bind_eq_ok_iff.mp hc₄
  obtain ⟨_, _, hread, hc₆⟩ := Action.bind_eq_ok_iff.mp hc₅
  obtain ⟨-, rfl⟩ := Action.read_eq_ok_iff.mp hread
  obtain ⟨_, _, hfocus, hc₇⟩ := Action.bind_eq_ok_iff.mp hc₆
  obtain ⟨g₂, hsort, rfl⟩ := Action.focus_eq_ok_iff.mp hfocus
  obtain ⟨_, _, hread, hc₈⟩ := Action.bind_eq_ok_iff.mp hc₇
  obtain ⟨hcheck, rfl⟩ := Action.read_eq_ok_iff.mp hread
  obtain ⟨_, _, hfocus, hc₉⟩ := Action.bind_eq_ok_iff.mp hc₈
  obtain ⟨g₃, hupdate, rfl⟩ := Action.focus_eq_ok_iff.mp hfocus
  have hmark := Action.update_eq_ok_iff.mp hupdate
  obtain ⟨_, _, hfocus, hc₁₀⟩ := Action.bind_eq_ok_iff.mp hc₉
  obtain ⟨_, hmodify, rfl⟩ := Action.focus_eq_ok_iff.mp hfocus
  cases hmodify
  obtain ⟨_, _, hbounds, hc₁₁⟩ := Action.bind_eq_ok_iff.mp hc₁₀
  cases hbounds
  obtain ⟨_, _, hget, hc₁₂⟩ := Action.bind_eq_ok_iff.mp hc₁₁
  cases hget
  dsimp only at hc₁₂
  split at hc₁₂
  · next hopt =>
    obtain ⟨_, _, hfocus, hc₁₃⟩ := Action.bind_eq_ok_iff.mp hc₁₂
    obtain ⟨g₄, hupdate, rfl⟩ := Action.focus_eq_ok_iff.mp hfocus
    cases hc₁₃
    refine ⟨_, _, _, _, g₂, g₃, g₄, hlower, hsort, hcheck, hmark, ?_, rfl, rfl⟩
    rw [if_pos hopt]
    exact Action.update_eq_ok_iff.mp hupdate
  · next hopt =>
    cases hc₁₂
    refine ⟨_, _, _, _, g₂, g₃, scheduleAll g₃, hlower, hsort, hcheck, hmark, ?_, rfl, rfl⟩
    rw [if_neg hopt]

omit [Zero α] in
/-- The order that is checked starts with a graph input. -/
theorem size_pos_of_checkOrder {u : Unit} (h : checkOrder n = .ok u) : 0 < n.graph.size := by
  unfold checkOrder at h
  dsimp only at h
  split at h
  · cases h
  obtain ⟨_, -, h⟩ := except_bind_eq_ok_iff.mp h
  split at h
  · next first hfirst =>
    obtain ⟨p, -, hp⟩ := Option.bind_eq_some_iff.mp hfirst
    exact Nat.lt_of_le_of_lt (Nat.zero_le p) (List.getElem?_eq_some_iff.mp hp).1
  · cases h

/-- Whatever its layers are, a compiled graph is scheduled, and the store knows how long an
iteration takes. -/
theorem scheduled_of_compile {loss : Option String} {u : Unit} (hc : compile loss n = .ok u n') :
    n'.isCompiled = true ∧ n'.isPrepared = n.isPrepared ∧ Scheduled n'.graph ∧ 0 < n'.graph.size ∧
      n'.store = n.store.setBounds n'.graph.size (lastStep n'.graph) := by
  obtain ⟨u₁, u₂, n₁, n₂, g₂, g₃, g₄, hlower, hsort, hcheck, hmark, hdecide, rfl, rfl⟩ :=
    stages_of_compile hc
  obtain ⟨-, -, -, hn₁⟩ := lowered_of_lowerNodes hlower
  obtain ⟨hnodes, hperm⟩ := nodes_of_sort hsort
  have hwired : Wired g₂ := (wired_of_lowerNodes hlower).of_wires (by rw [hnodes])
  have hordered : Ordered g₂ := ordered_of_checkOrder (n := { n₁ with graph := g₂ }) hperm hcheck
  obtain ⟨hdesign, horder⟩ : g₄.nodes.map design = (scheduleAll g₃).nodes.map design ∧
      g₄.order = (scheduleAll g₃).order := by
    split at hdecide
    · exact ⟨map_decideAll (fun _ _ => rfl) hdecide, order_decideAll hdecide⟩
    · cases hdecide
      exact ⟨rfl, rfl⟩
  have hsize : g₄.size = (scheduleAll g₃).size := by
    simpa [NodeGraph.size] using congrArg List.length hdesign
  have hpos : 0 < (scheduleAll g₃).size := by
    have hlen := congrArg List.length (layers_of_markBackward hmark)
    rw [List.length_map, List.length_map] at hlen
    exact Nat.lt_of_lt_of_eq (size_pos_of_checkOrder (n := { n₁ with graph := g₂ }) hcheck)
      hlen.symm
  refine ⟨rfl, by rw [hn₁], (scheduled_scheduleAll hwired hordered hmark).of_design horder hdesign,
    hsize ▸ hpos, ?_⟩
  change n₁.store.setBounds _ _ = _
  rw [hsize, lastStep_of_design horder hdesign, hn₁]

/-- A property of networks that asks of a graph what it asks of each node, and nothing of the bounds
of a store. -/
structure Drafting (ok : Node α → Prop) (P : Network α → Prop) : Prop where
  nodes : ∀ n, P n → ∀ a ∈ n.graph.nodes, ok a
  redrawn : ∀ n g aliases, P n → (∀ a ∈ g.nodes, ok a) → P { n with graph := g, aliases := aliases }
  bounded : ∀ n forwardSteps maxStep, P n →
    P { n with store := n.store.setBounds forwardSteps maxStep }

namespace Drafting

variable {ok : Node α → Prop} {P : Network α → Prop} (hP : Drafting ok P)
include hP

omit [Zero α] in
theorem keeps_onGraph {β : Type} {p : Action (NodeGraph (Node α)) β}
    (hp : Action.Keeps (fun g => ∀ a ∈ g.nodes, ok a) p) : Action.Keeps P (onGraph p) :=
  hp.focus hP.nodes fun n g h hg => hP.redrawn n g n.aliases h hg

section Growth

variable (hsame : ∀ a b : Node α, b.layer = a.layer → b.bufferUse = a.bufferUse → ok a → ok b)
include hsame

omit [Zero α] in
theorem keeps_add {node : Node α} (h : ok node) : Action.Keeps P (add node) := by
  refine Action.keeps_get.bind fun n => Action.Keeps.guard ?_
  refine (hP.keeps_onGraph (keeps_all_add ?_)).bind fun _ => Action.keeps_pure _
  refine hsame node _ ?_ ?_ h <;>
  · unfold resolveAliases nameNode
    split <;> rfl

omit [Zero α] in
theorem keeps_extend {nodes : List (Node α)} (fragment : String) (h : ∀ node ∈ nodes, ok node) :
    Action.Keeps P (extend nodes fragment) := by
  refine Action.keeps_get.bind fun n => Action.Keeps.guard (Action.Keeps.guard ?_)
  cases n.graph.nodes.getLast? with
  | none => exact Action.keeps_throw _
  | some last =>
    have halias : ∀ f : Network α → List (String × String),
        Action.Keeps P (modify fun n => { n with aliases := f n }) := fun f =>
      Action.keeps_modify fun n hn => hP.redrawn n n.graph (f n) hn (hP.nodes n hn)
    refine Action.Keeps.bind ?_ fun _ => (halias _).bind fun _ => ?_
    · refine Action.keeps_forM fun node hm => hP.keeps_add hsame ?_
      exact hsame node _ rfl rfl (h node (List.mem_filter.mp hm).1)
    · split
      · exact halias _
      · exact Action.keeps_pure _

end Growth

section Compile

variable (hin : Lowering.Inherited ok)
include hin

theorem keeps_lowerNodes (loss : Option String) : Action.Keeps P (lowerNodes loss) := by
  intro n h
  have hlower := hin.keeps_lower loss n.fusionRules n.graph.nodes (hP.nodes n h)
  have hempty : P { n with graph := NodeGraph.empty } :=
    hP.redrawn n _ n.aliases h (by simp [NodeGraph.empty])
  unfold Action.after at hlower ⊢
  rw [lowerNodes_apply]
  cases hl : Lowering.lower loss n.fusionRules n.graph.nodes with
  | ok u nodes =>
    rw [hl] at hlower
    exact hP.keeps_onGraph (keeps_all_replace hlower) _ hempty
  | error e nodes =>
    rw [hl] at hlower
    exact ((hP.keeps_onGraph (keeps_all_replace hlower)).bind fun _ => Action.keeps_throw e)
      _ hempty

/-- Whatever compiling fails at, the network is closed by its last step alone. -/
theorem fails_compile (loss : Option String) : Action.Fails P (compile loss) := by
  unfold compile
  refine Action.Fails.bind Action.keeps_get fun _ => Action.Fails.guard ?_
  refine Action.Fails.bind Action.keeps_get fun _ => Action.Fails.guard ?_
  refine Action.Fails.bind (hP.keeps_lowerNodes hin loss) fun _ => ?_
  refine Action.Fails.bind (Action.keeps_read _) fun _ => ?_
  refine Action.Fails.bind (hP.keeps_onGraph keeps_all_sort) fun _ => ?_
  refine Action.Fails.bind (Action.keeps_read _) fun _ => ?_
  refine Action.Fails.bind (hP.keeps_onGraph (keeps_all_markBackward hin.same)) fun _ => ?_
  refine Action.Fails.bind (hP.keeps_onGraph (keeps_all_scheduleAll hin.same)) fun _ => ?_
  refine Action.Fails.bind (Action.keeps_modify fun n h => hP.bounded n _ _ h) fun _ => ?_
  refine Action.Fails.bind Action.keeps_get fun _ => ?_
  dsimp only
  split
  · refine Action.Fails.bind_modify (f := fun _ (n : Network α) => { n with isCompiled := true }) ?_
    exact (Action.fails_update decideAll (P := fun g => ∀ a ∈ g.nodes, ok a)).focus hP.nodes
      fun n g h hg => hP.redrawn n g n.aliases h hg
  · exact Action.fails_modify _

theorem keeps_compile (hlayer : ∀ a b : Node α, b.layer = a.layer → ok a → ok b)
    (hclosed : ∀ n, P n → P { n with isCompiled := true }) (loss : Option String) :
    Action.Keeps P (compile loss) := by
  intro n h
  cases hr : compile loss n with
  | error e n' =>
    rw [Action.after_of_error hr]
    exact hP.fails_compile hin loss n e n' h hr
  | ok u n' =>
    rw [Action.after_of_ok hr]
    obtain ⟨u₁, u₂, n₁, n₂, g₂, g₃, g₄, hlower, hsort, -, hmark, hdecide, rfl, rfl⟩ :=
      stages_of_compile hr
    have h₁ : P n₁ := by
      have := hP.keeps_lowerNodes hin loss n h
      rwa [Action.after_of_ok hlower] at this
    have hlayers : g₄.nodes.map (·.layer) = n₁.graph.nodes.map (·.layer) := by
      rw [← (nodes_of_sort hsort).1, ← layers_of_markBackward hmark]
      split at hdecide
      · exact map_decideAll (fun _ _ => rfl) hdecide
      · cases hdecide
        rfl
    have h₄ := Lowering.all_of_map_eq (f := (·.layer)) (fun a b heq => hlayer a b heq.symm) hlayers
      (hP.nodes n₁ h₁)
    exact hclosed _ (hP.bounded _ _ _ (hP.redrawn n₁ g₄ n₁.aliases h₁ h₄))

end Compile

end Drafting

omit [Zero α] in
theorem drafting_draft : Drafting (Node.IsPlain (α := α)) Draft where
  nodes _ h := h.plain
  redrawn _ _ _ h hg := ⟨h.open_, h.unprepared, hg, h.blank, h.batch⟩
  bounded _ _ _ h := ⟨h.open_, h.unprepared, h.plain, h.blank.setBounds _ _, h.batch⟩

/-- What compiling a draft makes of it. -/
theorem drawn_of_compile {loss : Option String} {u : Unit} (h : Draft n)
    (hc : compile loss n = .ok u n') : Drawn n' := by
  obtain ⟨u₁, u₂, n₁, n₂, g₂, g₃, g₄, hlower, hsort, hcheck, hmark, hdecide, rfl, rfl⟩ :=
    stages_of_compile hc
  have h₁ : Draft n₁ := by
    have := drafting_draft.keeps_lowerNodes Lowering.inherited_isPlain loss n h
    rwa [Action.after_of_ok hlower] at this
  obtain ⟨hnodes, hperm⟩ := nodes_of_sort hsort
  have hsame : g₂.nodes.map wires = n₁.graph.nodes.map wires := by rw [hnodes]
  have hwired : Wired g₂ := (wired_of_lowerNodes hlower).of_wires hsame
  have hordered : Ordered g₂ := ordered_of_checkOrder (n := { n₁ with graph := g₂ }) hperm hcheck
  have hshipped : ∀ (p : Nat) (a : Node α), g₂.nodes[p]? = some a → a.layer.isShipped = true := by
    intro p a ha
    rw [hnodes] at ha
    exact (h₁.plain a (List.mem_of_getElem? ha)).1
  have hdesigned := designed_scheduleAll hwired hordered hshipped hmark
  have hown : ∀ (p : Nat) (a : Node α), (scheduleAll g₃).nodes[p]? = some a →
      a.bufferUse = .own := by
    intro p a ha
    rw [getElem?_scheduleAll] at ha
    obtain ⟨b, hb, rfl⟩ := Option.map_eq_some_iff.mp ha
    obtain ⟨m, hm, rfl⟩ := marked_markBackward hordered hmark
    obtain ⟨c, hc, heq⟩ := getElem?_of_map_eq hm.nodes hb
    have huse : (unmarked c).bufferUse = (unmarked b).bufferUse := congrArg Node.bufferUse heq
    rw [hnodes] at hc
    have hplain := (h₁.plain c (List.mem_of_getElem? hc)).2
    exact (show c.bufferUse = b.bufferUse from huse) ▸ hplain
  obtain ⟨hcompiled, hdesign, horder⟩ : Compiled g₄ ∧
      g₄.nodes.map design = (scheduleAll g₃).nodes.map design ∧
      g₄.order = (scheduleAll g₃).order := by
    split at hdecide
    · obtain ⟨hcomp, hd, ho⟩ := compiled_of_decideAll hdesigned hown hdecide
      exact ⟨hcomp, hd, ho⟩
    · cases hdecide
      exact ⟨compiled_of_own hdesigned hown, rfl, rfl⟩
  have hsize : g₄.size = (scheduleAll g₃).size := by
    simpa [NodeGraph.size] using congrArg List.length hdesign
  refine ⟨rfl, h₁.unprepared, hcompiled, h₁.blank.setBounds _ _, hsize.symm, ?_, h₁.batch⟩
  exact (lastStep_of_design horder hdesign).symm

/-- A compilation that fails leaves a draft. -/
theorem fails_draft_compile (loss : Option String) : Action.Fails (Draft (α := α)) (compile loss) :=
  drafting_draft.fails_compile Lowering.inherited_isPlain loss

end Network

section Participation

open Relation

variable {g : NodeGraph (Node α)} {p q : NodeRef} {a : Node α}

theorem feeds_iff_readsSlot : g.Feeds q p ↔ ∃ i k, ReadsSlot g p i q k := by
  constructor
  · rintro ⟨node, conn, hn, hc, hq⟩
    obtain ⟨i, hi⟩ := List.getElem?_of_mem hc
    exact ⟨i, conn.index, node, conn, hn, hi, hq, rfl⟩
  · rintro ⟨i, k, node, conn, hn, hi, hq, -⟩
    exact ⟨node, conn, hn, List.mem_of_getElem? hi, hq⟩

/-- The nodes know which of them take part, which collect gradients, and which pass derivatives
back. -/
structure Participation (g : NodeGraph (Node α)) : Prop where
  participates : ∀ p a, g.nodes[p]? = some a → (a.participates = true ↔
    ∃ q b, g.nodes[q]? = some b ∧ b.trains = true ∧ ReflTransGen g.Feeds q p)
  collects : ∀ (p : Nat) (a : Node α), g.nodes[p]? = some a →
    (a.collectsGradients = true ↔ a.trains = true)
  passes : ∀ p a, g.nodes[p]? = some a → (a.passesDerivatives = true ↔
    ∃ q b, g.Feeds q p ∧ g.nodes[q]? = some b ∧ b.participates = true)

namespace Scheduled

variable (h : Scheduled g)
include h

theorem passes_iff (ha : g.nodes[p]? = some a) : a.passesDerivatives = true ↔
    ∃ q b, g.Feeds q p ∧ g.nodes[q]? = some b ∧ b.participates = true := by
  rw [h.passes p a ha]
  refine ⟨fun ⟨i, q, k, b, hr, hb⟩ => ⟨q, b, feeds_iff_readsSlot.mpr ⟨i, k, hr⟩, hb⟩, ?_⟩
  rintro ⟨q, b, hf, hb⟩
  obtain ⟨i, k, hr⟩ := feeds_iff_readsSlot.mp hf
  exact ⟨i, q, k, b, hr, hb⟩

theorem participates_iff (ha : g.nodes[p]? = some a) : a.participates = true ↔
    a.trains = true ∨ ∃ q b, g.Feeds q p ∧ g.nodes[q]? = some b ∧ b.participates = true := by
  rw [Node.participates, Bool.or_eq_true, h.passes_iff ha, h.collects p a ha, or_comm]

/-- Producers stand before their readers, so the paths to a node are those that the pass has
seen. -/
theorem exists_path_of_participates (ha : g.nodes[p]? = some a) (hpart : a.participates = true) :
    ∃ q b, g.nodes[q]? = some b ∧ b.trains = true ∧ ReflTransGen g.Feeds q p := by
  induction hplace : place g p using Nat.strongRecOn generalizing p a with
  | ind i ih =>
    rcases (h.participates_iff ha).mp hpart with htrains | ⟨q, b, hf, hb, hq⟩
    · exact ⟨p, a, ha, htrains, .refl⟩
    · obtain ⟨i, k, hr⟩ := feeds_iff_readsSlot.mp hf
      have hlt := h.ordered.before p i q k hr
      obtain ⟨q₀, b₀, hb₀, htrains, hpath⟩ := ih (place g q) (by omega) hb hq rfl
      exact ⟨q₀, b₀, hb₀, htrains, hpath.tail hf⟩

theorem participates_of_path {b : Node α} (hb : g.nodes[q]? = some b) (htrains : b.trains = true)
    (hpath : ReflTransGen g.Feeds q p) (ha : g.nodes[p]? = some a) : a.participates = true := by
  induction hpath generalizing a with
  | refl =>
    rw [hb] at ha
    cases ha
    exact (h.participates_iff hb).mpr (.inl htrains)
  | tail _ hf ih =>
    obtain ⟨i, k, hr⟩ := feeds_iff_readsSlot.mp hf
    obtain ⟨c, hc⟩ := hr.producer h.wired.distinct
    exact (h.participates_iff ha).mpr (.inr ⟨_, c, hf, hc, ih hc⟩)

theorem participation : Participation g where
  participates p a ha := ⟨h.exists_path_of_participates ha, fun ⟨_, _, hb, htrains, hpath⟩ =>
    h.participates_of_path hb htrains hpath ha⟩
  collects p a ha := by rw [h.collects p a ha]
  passes _ _ ha := h.passes_iff ha

end Scheduled

end Participation

end LayerGraph
