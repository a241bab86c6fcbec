import LayerGraph.Proofs.Network.Compile
import LayerGraph.Proofs.Network.Sortable
import LayerGraph.Single

/-!
# Which graphs compile

A graph without losses compiles exactly if its connections close no cycle, its inputs reach every
node, no slot is left out and no generated name has been given. Where compiling fails the network
stays open, with the store that it had.
-/

namespace LayerGraph.Network

open Relation

variable {α : Type} [Zero α] {n n₁ n' : Network α}

/-- What compiling does once the nodes are lowered. -/
def settle : Action (Network α) Unit := do
  Action.read checkCompilable
  onGraph NodeGraph.sort
  Action.read checkOrder
  onGraph (Action.update markBackward)
  onGraph (modify scheduleAll)
  modify fun n => { n with store := n.store.setBounds n.graph.size (lastStep n.graph) }
  if (← get).optimizeMemory then
    onGraph (Action.update decideAll)
  modify fun n => { n with isCompiled := true }

theorem compile_apply (loss : Option String) (hopen : n.isCompiled = false)
    (hne : n.graph.nodes ≠ []) :
    compile loss n = (do lowerNodes loss; settle : Action (Network α) Unit) n := by
  unfold compile
  rw [Action.bind_of_ok (Action.get_apply n), hopen]
  simp only [Bool.false_eq_true, if_false]
  rw [Action.bind_of_ok (Action.get_apply n)]
  have hempty : n.graph.isEmpty = false := by simpa [NodeGraph.isEmpty] using hne
  rw [hempty]
  rfl

theorem lowerNodes_of_lower {loss : Option String} {nodes : List (Node α)}
    (h : Lowering.lower loss n.fusionRules n.graph.nodes = .ok () nodes)
    (hd : (nodes.map (·.name)).Nodup) (hne : ∀ a ∈ nodes, a.name ≠ "") :
    lowerNodes loss n = .ok () { n with graph := ⟨nodes, []⟩ } := by
  rw [lowerNodes_apply, h]
  exact Action.focus_of_ok (NodeGraph.replace_of_nodup hd hne _)

section Settle

omit [Zero α]

theorem onGraph_of_ok {β : Type} {p : Action (NodeGraph (Node α)) β} {b : β}
    {g : NodeGraph (Node α)} (h : p n.graph = .ok b g) :
    onGraph p n = .ok b { n with graph := g } := Action.focus_of_ok h

/-- An open graph can be compiled if it has a graph input and a terminal; what it lacks first is
reported. -/
theorem checkCompilable_eq (hne : n.graph.nodes ≠ []) : checkCompilable n =
    if ∃ a ∈ n.graph.nodes, a.isSource = true then
      if ∃ a ∈ n.graph.nodes, a.isTerminal = true then .ok ()
      else .error (.misconfigured .noOutputLayer)
    else .error (.misconfigured .noInputLayer) := by
  have hempty : n.graph.isEmpty = false := by simpa [NodeGraph.isEmpty] using hne
  unfold checkCompilable
  rw [hempty, if_neg Bool.false_ne_true]
  by_cases hs : ∃ a ∈ n.graph.nodes, a.isSource = true
  · rw [if_pos hs, List.any_eq_true.mpr hs, Bool.not_true, if_neg Bool.false_ne_true]
    by_cases ht : ∃ a ∈ n.graph.nodes, a.isTerminal = true
    · rw [if_pos ht, List.any_eq_true.mpr ht, Bool.not_true, if_neg Bool.false_ne_true]
    · rw [if_neg ht, Bool.eq_false_iff.mpr fun h => ht (List.any_eq_true.mp h),
        Bool.not_false, if_pos rfl]
  · rw [if_neg hs, Bool.eq_false_iff.mpr fun h => hs (List.any_eq_true.mp h),
      Bool.not_false, if_pos rfl]

theorem sort_of_sortedOrder {g : NodeGraph (Node α)} {order : List NodeRef}
    (h : g.sortedOrder = .ok order) : NodeGraph.sort g = .ok () { g with order := order } := by
  refine Action.update_of_ok ?_
  rw [h]
  rfl

/-- A graph that can be sorted, with an input and a terminal, is settled. -/
theorem exists_settle {order : List NodeRef} (hne : n.graph.nodes ≠ [])
    (hcheck : checkCompilable n = .ok ()) (hs : n.graph.sortedOrder = .ok order)
    (hr : n.graph.Resolved) : ∃ n', settle n = .ok () n' := by
  obtain ⟨g, hg⟩ : ∃ g, g = ({ n.graph with order := order } : NodeGraph (Node α)) := ⟨_, rfl⟩
  -- The order is not part of what a graph is sorted by.
  have hs' : g.sortedOrder = .ok g.order := by rw [hg]; exact hs
  have hr' : g.Resolved := by rw [hg]; exact hr
  have hne' : g.nodes ≠ [] := by rw [hg]; exact hne
  have hlt : ∀ p ∈ g.order, p < g.size :=
    fun p hp => (mem_order_iff (NodeGraph.sortedOrder_perm hs')).mp hp
  obtain ⟨g₁, hmark, hwires, horder⟩ := exists_markBackward hr' hlt
  have hwires' : (scheduleAll g₁).nodes.map wires = g.nodes.map wires :=
    (map_scheduleAll (fun _ _ => rfl) g₁).trans hwires
  have horder' : (scheduleAll g₁).order = g.order := horder
  obtain ⟨g₂, hdecide⟩ := exists_decideAll (resolved_of_wires hwires' hr')
    fun p hp => size_of_wires hwires' ▸ hlt p (horder' ▸ hp)
  unfold settle
  rw [Action.bind_of_ok (Action.read_of_ok hcheck),
    Action.bind_of_ok (onGraph_of_ok (sort_of_sortedOrder hs)), ← hg,
    Action.bind_of_ok (Action.read_of_ok (checkOrder_of_sorted hs' rfl hr' hne')),
    Action.bind_of_ok (onGraph_of_ok (Action.update_of_ok hmark)),
    Action.bind_of_ok (onGraph_of_ok (Action.modify_apply _ _)),
    Action.bind_of_ok (Action.modify_apply _ _), Action.bind_of_ok (Action.get_apply _)]
  dsimp only
  split
  · rw [Action.bind_of_ok (onGraph_of_ok (Action.update_of_ok hdecide))]
    exact ⟨_, rfl⟩
  · exact ⟨_, rfl⟩

end Settle

section Open

omit [Zero α] in
theorem drafting_open : Drafting (fun _ : Node α => True) fun n => n.isCompiled = false :=
  ⟨fun _ _ _ _ => trivial, fun _ _ _ h _ => h, fun _ _ _ h => h⟩

/-- Until its last step compiling leaves the network open. -/
theorem fails_open_compile (loss : Option String) :
    Action.Fails (fun n : Network α => n.isCompiled = false) (compile loss) :=
  drafting_open.fails_compile ⟨fun _ _ _ _ _ _ => trivial, fun _ _ _ _ _ => trivial,
    fun _ _ _ => trivial⟩ loss

end Open

section Verdict

variable (hopen : n.isCompiled = false) (hne : n.graph.nodes ≠ []) (hd : n.graph.Distinct)
  (hnames : ∀ a ∈ n.graph.nodes, a.name ≠ "") (hloss : ∀ a ∈ n.graph.nodes, a.isLoss = false)
  (hr : Lowering.Resolved n.graph.nodes)

omit [Zero α] in
theorem exists_isTerminal_iff {nodes : List (Node α)} (hl : ∀ a ∈ nodes, Lowering.Listed nodes a) :
    (∃ a ∈ nodes, a.isTerminal = true) ↔ Lowering.HasTerminal nodes := by
  have hunread : ∀ a ∈ nodes, a.isTerminal = true ↔ ∀ q, ¬ Lowering.Feeds nodes a.name q :=
    fun a ha =>
    Lowering.isTerminal_iff (hl a ha).lt_iff
  constructor
  · rintro ⟨a, ha, hterminal⟩
    exact ⟨a.name, List.mem_map_of_mem ha, (hunread a ha).mp hterminal⟩
  · rintro ⟨_, hname, hnone⟩
    obtain ⟨a, ha, rfl⟩ := List.mem_map.mp hname
    exact ⟨a, ha, (hunread a ha).mpr hnone⟩

/-- Lowered nodes without a cycle that are all reached can be settled. -/
theorem exists_settle_of_lower {loss : Option String} {nodes before : List (Node α)} {u : Unit}
    {rules : List FusionRule} (hl : Lowering.lower loss rules before = .ok u nodes)
    (hnodup : (nodes.map (·.name)).Nodup) (hne : nodes ≠ []) (hacyclic : Lowering.Acyclic nodes)
    (hreach : Lowering.Reachable nodes) :
    ∃ n', settle { n with graph := ⟨nodes, []⟩ } = .ok () n' := by
  obtain ⟨hr, hlisted, -⟩ := Lowering.lower_spec hl hnodup
  have hd : (⟨nodes, []⟩ : NodeGraph (Node α)).Distinct := hnodup
  obtain ⟨order, hs⟩ := (exists_sortedOrder_iff (g := ⟨nodes, []⟩) hd hr).mpr ⟨hacyclic, hreach⟩
  refine exists_settle hne ?_ hs (resolved_of_names hr)
  rw [checkCompilable_eq hne, if_pos, if_pos]
  · obtain ⟨a, ha, hunread⟩ := exists_last (g := ⟨nodes, order⟩) hs hd hne
    exact (exists_isTerminal_iff hlisted).mpr
      ⟨a.name, List.mem_map_of_mem ha, fun q ⟨i, k, hread⟩ => hunread ⟨q, i⟩ k hread⟩
  · obtain ⟨a, ha⟩ := List.exists_mem_of_ne_nil _ hne
    obtain ⟨s, ⟨b, hb, hsource, -⟩, -⟩ := hreach a.name (List.mem_map_of_mem ha)
    exact ⟨b, hb, hsource⟩

include hopen hne hd hnames hloss hr

/-- Nodes that can be lowered are, and what follows is to settle them. -/
theorem compile_of_lowerable (hlow : Lowering.Lowerable n.graph.nodes) :
    ∃ nodes, Lowering.lower none n.fusionRules n.graph.nodes = .ok () nodes ∧
      (nodes.map (·.name)).Nodup ∧ nodes ≠ [] ∧
      compile none n = settle { n with graph := ⟨nodes, []⟩ } := by
  obtain ⟨nodes, hlower, hnodup⟩ := (Lowering.exists_lower_iff hr hd n.fusionRules hloss).mpr hlow
  have hnames' := Lowering.ne_empty_of_lower hloss hlower hnodup hnames
  refine ⟨nodes, hlower, hnodup, ?_, ?_⟩
  · rintro rfl
    obtain ⟨a, ha⟩ := List.exists_mem_of_ne_nil _ hne
    have hmem := Lowering.newName_mem_lower hloss hlower hnodup (List.mem_map_of_mem ha)
    cases hmem
  · rw [compile_apply none hopen hne, Action.bind_of_ok (lowerNodes_of_lower hlower hnodup hnames')]

omit hopen hne hnames in
theorem valid_of_compile {u : Unit} (h : compile none n = .ok u n') :
    Lowering.Acyclic (Lowering.wireDefaults n.graph.nodes) ∧
      Lowering.Reachable (Lowering.wireDefaults n.graph.nodes) ∧
      Lowering.Lowerable n.graph.nodes := by
  obtain ⟨u₁, u₂, n₁, n₂, g₂, g₃, g₄, hlower, hsort, -⟩ := stages_of_compile h
  obtain ⟨u', hl, hnodup, -⟩ := lowered_of_lowerNodes hlower
  obtain ⟨order, hs, -⟩ := except_bind_eq_ok_iff.mp (Action.update_eq_ok_iff.mp hsort)
  obtain ⟨hacyclic, hreach⟩ :=
    (exists_sortedOrder_iff hnodup (Lowering.lower_spec hl hnodup).1).mp ⟨order, hs⟩
  exact ⟨(Lowering.acyclic_lower_iff hr hloss hl hnodup).mp hacyclic,
    (Lowering.reachable_lower_iff hr hloss hl hnodup).mp hreach,
    (Lowering.exists_lower_iff hr hd n.fusionRules hloss).mp ⟨_, hl, hnodup⟩⟩

theorem exists_compile (hacyclic : Lowering.Acyclic (Lowering.wireDefaults n.graph.nodes))
    (hreach : Lowering.Reachable (Lowering.wireDefaults n.graph.nodes))
    (hlow : Lowering.Lowerable n.graph.nodes) : ∃ n', compile none n = .ok () n' := by
  obtain ⟨nodes, hl, hnodup, hne', hcompile⟩ :=
    compile_of_lowerable hopen hne hd hnames hloss hr hlow
  have hacyclic' := (Lowering.acyclic_lower_iff hr hloss hl hnodup).mpr hacyclic
  have hreach' := (Lowering.reachable_lower_iff hr hloss hl hnodup).mpr hreach
  rw [hcompile]
  exact exists_settle_of_lower hl hnodup hne' hacyclic' hreach'

/-- A graph without losses compiles exactly if its connections, with the default ones, close no
cycle and reach every node from a graph input, no slot is left out and no generated name has been
given. If it does not, the network stays open. -/
theorem exists_compile_iff :
    ((∃ n', compile none n = .ok () n') ↔
      Lowering.Acyclic (Lowering.wireDefaults n.graph.nodes) ∧
      Lowering.Reachable (Lowering.wireDefaults n.graph.nodes) ∧
      Lowering.Lowerable n.graph.nodes) ∧
    ∀ e n', compile none n = .error e n' → n'.isCompiled = false := by
  refine ⟨⟨?_, ?_⟩, fun e n' h => fails_open_compile none n e n' hopen h⟩
  · rintro ⟨n', h⟩
    exact valid_of_compile hd hloss hr h
  · rintro ⟨hacyclic, hreach, hlow⟩
    exact exists_compile hopen hne hd hnames hloss hr hacyclic hreach hlow

end Verdict

/-- Two nodes read a graph input of a reserved name, one of them by default, and a third sums them
up. -/
def fork : Network Float32 :=
  { ofSettings ⟨1, true, none, []⟩ with
    graph := ⟨[.ofLayer (.input 1) "input" [],
      { Node.ofLayer .identity "a" [] with activation := .relu },
      .ofLayer .identity "b" [⟨"input", 0⟩], .ofLayer .addition "sum" [⟨"a", 0⟩, ⟨"b", 0⟩]], []⟩ }

theorem fork_acyclic : Lowering.Acyclic (Lowering.wireDefaults fork.graph.nodes) :=
  Lowering.acyclic_of_rank (fun name => if name = "input" then 0 else if name = "sum" then 2 else 1)
    (by decide)

theorem fork_reachable : Lowering.Reachable (Lowering.wireDefaults fork.graph.nodes) := by
  have ha : Lowering.Feeds (Lowering.wireDefaults fork.graph.nodes) "input" "a" := ⟨0, 0, by decide⟩
  have hb : Lowering.Feeds (Lowering.wireDefaults fork.graph.nodes) "input" "b" := ⟨0, 0, by decide⟩
  have hsum : Lowering.Feeds (Lowering.wireDefaults fork.graph.nodes) "a" "sum" := ⟨0, 0, by decide⟩
  have hnames : ∀ name ∈ (Lowering.wireDefaults fork.graph.nodes).map (·.name),
      name = "input" ∨ name = "a" ∨ name = "b" ∨ name = "sum" := by decide
  intro name hname
  refine ⟨"input", by decide, ?_⟩
  rcases hnames name hname with rfl | rfl | rfl | rfl
  · exact .refl
  · exact .single ha
  · exact .single hb
  · exact .tail (.single ha) hsum

theorem fork_lowerable : Lowering.Lowerable fork.graph.nodes :=
  Lowering.lowerable_of_no_slash (by decide)
    (Lowering.forall_reads_iff (P := fun _ c => c.index = 0).mpr (by decide))

theorem fork_accepted : ∃ n', compile none fork = .ok () n' :=
  (exists_compile_iff rfl (by decide) (by decide) (by decide) (by decide) (by decide)).1.mpr
    ⟨fork_acyclic, fork_reachable, fork_lowerable⟩

section Rejected

variable (hopen : n.isCompiled = false) (hne : n.graph.nodes ≠ []) (hd : n.graph.Distinct)
  (hnames : ∀ a ∈ n.graph.nodes, a.name ≠ "") (hloss : ∀ a ∈ n.graph.nodes, a.isLoss = false)
  (hr : Lowering.Resolved n.graph.nodes)
include hopen hne hd hnames hloss hr

section Lowerable

variable (hlow : Lowering.Lowerable n.graph.nodes)
include hlow

omit [Zero α] hopen hne hd hnames hloss hr hlow in
theorem exists_isSource_iff {nodes : List (Node α)} :
    (∃ a ∈ nodes, a.isSource = true) ↔ ∃ s, Lowering.IsInput nodes s :=
  ⟨fun ⟨a, ha, hs⟩ => ⟨a.name, a, ha, hs, rfl⟩, fun ⟨_, a, ha, hs, _⟩ => ⟨a, ha, hs⟩⟩

theorem compile_of_no_input (hin : ¬ ∃ s, Lowering.IsInput n.graph.nodes s) :
    ∃ n', compile none n = .error (.misconfigured .noInputLayer) n' ∧ n'.isCompiled = false ∧
      n'.store = n.store := by
  obtain ⟨nodes, hl, hnodup, hne', hcompile⟩ :=
    compile_of_lowerable hopen hne hd hnames hloss hr hlow
  refine ⟨{ n with graph := ⟨nodes, []⟩ }, ?_, hopen, rfl⟩
  have hsource : ¬ ∃ a ∈ nodes, a.isSource = true := by
    rwa [exists_isSource_iff, Lowering.exists_isInput_lower_iff hloss hl hnodup]
  rw [hcompile]
  exact Action.bind_of_error
    (Action.read_of_error ((checkCompilable_eq hne').trans (if_neg hsource)))

variable (hzero : ∀ r c, Lowering.Reads (Lowering.wireDefaults n.graph.nodes) r c → c.index = 0)
  (hin : ∃ s, Lowering.IsInput n.graph.nodes s)
include hzero hin

theorem compile_of_no_terminal
    (ht : ¬ Lowering.HasTerminal (Lowering.wireDefaults n.graph.nodes)) :
    ∃ n', compile none n = .error (.misconfigured .noOutputLayer) n' ∧ n'.isCompiled = false ∧
      n'.store = n.store := by
  obtain ⟨nodes, hl, hnodup, hne', hcompile⟩ :=
    compile_of_lowerable hopen hne hd hnames hloss hr hlow
  refine ⟨{ n with graph := ⟨nodes, []⟩ }, ?_, hopen, rfl⟩
  have hsource : ∃ a ∈ nodes, a.isSource = true := by
    rwa [exists_isSource_iff, Lowering.exists_isInput_lower_iff hloss hl hnodup]
  have hterminal : ¬ ∃ a ∈ nodes, a.isTerminal = true := by
    rwa [exists_isTerminal_iff (Lowering.lower_spec hl hnodup).2.1,
      Lowering.hasTerminal_lower_iff hr hloss hl hnodup hzero]
  rw [hcompile]
  exact Action.bind_of_error (Action.read_of_error
    ((checkCompilable_eq hne').trans ((if_pos hsource).trans (if_neg hterminal))))

theorem compile_of_cyclic (ht : Lowering.HasTerminal (Lowering.wireDefaults n.graph.nodes))
    (hcyclic : ¬ Lowering.Acyclic (Lowering.wireDefaults n.graph.nodes)) :
    ∃ node n', compile none n = .error (.cycle node) n' ∧ n'.isCompiled = false ∧
      n'.store = n.store := by
  obtain ⟨nodes, hl, hnodup, hne', hcompile⟩ :=
    compile_of_lowerable hopen hne hd hnames hloss hr hlow
  obtain ⟨hr₁, hlisted, -⟩ := Lowering.lower_spec hl hnodup
  have hsource : ∃ a ∈ nodes, a.isSource = true := by
    rwa [exists_isSource_iff, Lowering.exists_isInput_lower_iff hloss hl hnodup]
  have hterminal : ∃ a ∈ nodes, a.isTerminal = true := by
    rwa [exists_isTerminal_iff hlisted, Lowering.hasTerminal_lower_iff hr hloss hl hnodup hzero]
  have hd₁ : (⟨nodes, []⟩ : NodeGraph (Node α)).Distinct := hnodup
  rw [← Lowering.acyclic_lower_iff hr hloss hl hnodup,
    ← acyclic_iff_feeds (g := ⟨nodes, []⟩) hd₁ hr₁] at hcyclic
  simp only [not_forall, not_not] at hcyclic
  obtain ⟨p, hp⟩ := hcyclic
  obtain ⟨q, -, herror⟩ := NodeGraph.sortedOrder_of_cycle (resolved_of_names hr₁) hp
  refine ⟨(⟨nodes, []⟩ : NodeGraph (Node α)).nameOf q, { n with graph := ⟨nodes, []⟩ },
    ?_, hopen, rfl⟩
  rw [hcompile]
  refine (Action.bind_of_ok (Action.read_of_ok
    ((checkCompilable_eq hne').trans ((if_pos hsource).trans (if_pos hterminal))))).trans
    (Action.bind_of_error (Action.focus_of_error (Action.update_of_error ?_)))
  rw [herror]
  rfl

end Lowerable

/-- A graph whose connections close a cycle does not compile, and nothing is registered or
allocated. What it lacks of a graph input and a terminal is reported; if it lacks neither, the cycle
is. -/
theorem compile_of_cycle (hzero : ∀ r c, Lowering.Reads n.graph.nodes r c → c.index = 0)
    (hslash : ∀ a ∈ n.graph.nodes, '/' ∉ a.name.toList) {name : String}
    (hcycle : TransGen (Lowering.Feeds n.graph.nodes) name name) :
    ∃ e n', compile none n = .error e n' ∧ n'.isCompiled = false ∧ n'.store = n.store ∧
      ((¬ (∃ s, Lowering.IsInput n.graph.nodes s) ∧ e = .misconfigured .noInputLayer) ∨
        ((∃ s, Lowering.IsInput n.graph.nodes s) ∧
          ¬ Lowering.HasTerminal (Lowering.wireDefaults n.graph.nodes) ∧
          e = .misconfigured .noOutputLayer) ∨
        ((∃ s, Lowering.IsInput n.graph.nodes s) ∧
          Lowering.HasTerminal (Lowering.wireDefaults n.graph.nodes) ∧
          (∃ node, e = .cycle node) ∧ e.isStructural = true)) := by
  have hzero' : ∀ r c, Lowering.Reads (Lowering.wireDefaults n.graph.nodes) r c → c.index = 0 :=
    fun r c hread => (Lowering.reads_or_default hread).elim (hzero r c) (·.1)
  have hlow := Lowering.lowerable_of_no_slash hslash hzero'
  have hcyclic : ¬ Lowering.Acyclic (Lowering.wireDefaults n.graph.nodes) := by
    have hwired : ∀ p q, Lowering.Feeds n.graph.nodes p q →
        Lowering.Feeds (Lowering.wireDefaults n.graph.nodes) p q := fun p q ⟨i, k, hread⟩ =>
      ⟨i, k, Lowering.reads_wireDefaults hread⟩
    exact fun hno => hno name (TransGen.mono hwired _ _ hcycle)
  by_cases hin : ∃ s, Lowering.IsInput n.graph.nodes s
  · by_cases ht : Lowering.HasTerminal (Lowering.wireDefaults n.graph.nodes)
    · obtain ⟨node, n', h, hopen', hstore⟩ :=
        compile_of_cyclic hopen hne hd hnames hloss hr hlow hzero' hin ht hcyclic
      exact ⟨_, n', h, hopen', hstore, .inr (.inr ⟨hin, ht, ⟨node, rfl⟩, rfl⟩)⟩
    · obtain ⟨n', h, hopen', hstore⟩ :=
        compile_of_no_terminal hopen hne hd hnames hloss hr hlow hzero' hin ht
      exact ⟨_, n', h, hopen', hstore, .inr (.inl ⟨hin, ht, rfl⟩)⟩
  · obtain ⟨n', h, hopen', hstore⟩ := compile_of_no_input hopen hne hd hnames hloss hr hlow hin
    exact ⟨_, n', h, hopen', hstore, .inl ⟨hin, rfl⟩⟩

end Rejected

/-- Two nodes that read each other, with a graph input in front of them and a terminal behind. -/
def tangle : Network Float32 :=
  { ofSettings ⟨1, true, none, []⟩ with
    graph := ⟨[.ofLayer (.input 1) "x" [], .ofLayer .addition "a" [⟨"x", 0⟩, ⟨"b", 0⟩],
      .ofLayer .identity "b" [⟨"a", 0⟩], .ofLayer .identity "y" [⟨"b", 0⟩]], []⟩ }

theorem tangle_rejected : ∃ e n', compile none tangle = .error e n' ∧ e.isStructural = true := by
  have hcycle : TransGen (Lowering.Feeds tangle.graph.nodes) "a" "a" :=
    .tail (.single (show Lowering.Feeds _ "a" "b" from ⟨0, 0, by decide⟩)) ⟨1, 0, by decide⟩
  have hin : ∃ s, Lowering.IsInput tangle.graph.nodes s := ⟨"x", by decide⟩
  have ht : Lowering.HasTerminal (Lowering.wireDefaults tangle.graph.nodes) := by
    refine ⟨"y", by decide, fun q ⟨i, k, hread⟩ => ?_⟩
    exact absurd rfl (Lowering.forall_reads_iff (P := fun _ c => c.name ≠ "y").mpr
      (by decide) _ _ hread)
  obtain ⟨e, n', h, -, -, ⟨hno, -⟩ | ⟨-, hno, -⟩ | ⟨-, -, -, hstructural⟩⟩ :=
    compile_of_cycle (n := tangle) rfl (by decide) (by decide) (by decide) (by decide) (by decide)
      (Lowering.forall_reads_iff (P := fun _ c => c.index = 0).mpr (by decide)) (by decide) hcycle
  · exact absurd hin hno
  · exact absurd ht hno
  · exact ⟨e, n', h, hstructural⟩

/-- Two nodes that read each other, and nothing else. -/
def knot : Network Float32 :=
  { ofSettings ⟨1, true, none, []⟩ with
    graph := ⟨[.ofLayer .identity "a" [⟨"b", 0⟩], .ofLayer .identity "b" [⟨"a", 0⟩]], []⟩ }

/-- Its connections are as they should be but for the cycle, and the error is not a structural
one. -/
theorem knot_not_structural : knot.isCompiled = false ∧ (∀ a ∈ knot.graph.nodes, a.isLoss = false) ∧
    Lowering.Resolved knot.graph.nodes ∧
    (∀ r c, Lowering.Reads knot.graph.nodes r c → c.index = 0) ∧
    (∀ a ∈ knot.graph.nodes, '/' ∉ a.name.toList) ∧
    TransGen (Lowering.Feeds knot.graph.nodes) "a" "a" ∧
    ∃ e n', compile none knot = .error e n' ∧ e.isStructural = false := by
  have hzero : ∀ r c, Lowering.Reads knot.graph.nodes r c → c.index = 0 :=
    Lowering.forall_reads_iff (P := fun _ c => c.index = 0).mpr (by decide)
  have hwired : Lowering.wireDefaults knot.graph.nodes = knot.graph.nodes := rfl
  have hno : ¬ ∃ s, Lowering.IsInput knot.graph.nodes s := by
    rintro ⟨s, a, ha, hsource, -⟩
    exact absurd hsource ((by decide : ∀ a ∈ knot.graph.nodes, ¬ a.isSource = true) a ha)
  obtain ⟨n', h, -⟩ := compile_of_no_input (n := knot) rfl (by decide) (by decide)
    (by decide) (by decide) (by decide) (Lowering.lowerable_of_no_slash (by decide)
      (by rwa [hwired])) hno
  exact ⟨rfl, by decide, by decide, hzero, by decide,
    .tail (.single (show Lowering.Feeds _ "a" "b" from ⟨0, 0, by decide⟩)) ⟨0, 0, by decide⟩,
    _, n', h, rfl⟩

end LayerGraph.Network
