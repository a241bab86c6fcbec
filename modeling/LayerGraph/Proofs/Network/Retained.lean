import LayerGraph.Proofs.Lowering.Retained
import LayerGraph.Proofs.Network.Accepted
import LayerGraph.Proofs.Returns

/-!
# After a compilation that fails

Compiling does not go back when it fails: the nodes stay as the passes so far have left them. The
network is one that has not been compiled, with these nodes.
-/

namespace LayerGraph

namespace NodeGraph

variable {ν : Type} [Vertex ν]

/-- A node is refused only if it has no name or its name is taken. -/
theorem reports_replace {E : Error → Prop} {nodes : List ν}
    (hempty : (∃ node ∈ nodes, Vertex.name node = "") → E (.misconfigured .emptyName))
    (hdup : ∀ name, E (.duplicateName name)) :
    Action.Reports (fun _ => True) E (NodeGraph.replace nodes : Action (NodeGraph ν) Unit) := by
  have hkeep : ∀ {β : Type} (p : Action (NodeGraph ν) β), Action.Keeps (fun _ => True) p :=
    fun _ _ _ => trivial
  have hadd : ∀ node ∈ nodes,
      Action.Reports (fun _ => True) E
        (do let _ ← NodeGraph.add node : Action (NodeGraph ν) PUnit) := by
    intro node hnode
    refine Action.Reports.bind (fun g e g' _ h => ?_) (hkeep _) fun _ _ _ _ _ =>
      Action.reports_pure _
    unfold NodeGraph.add at h
    split at h
    · next hname =>
      cases h
      exact hempty ⟨node, hnode, hname⟩
    · split at h
      · cases h
        exact hdup _
      · cases h
  intro g e g' _ h
  exact Action.reports_forM hadd (fun _ _ => hkeep _) empty e g' trivial h

end NodeGraph

namespace Network

variable {α : Type} [Zero α] {n n' : Network α} {loss : Option String} {e : Error}

omit [Zero α] in
theorem replace_onGraph (nodes : List (Node α)) (hne : ∀ name ∈ nodes.map (·.name), name ≠ "")
    (n : Network α) :
    (∃ name n', onGraph (NodeGraph.replace nodes) n = .error (.duplicateName name) n') ∨
      (onGraph (NodeGraph.replace nodes) n = .ok () { n with graph := ⟨nodes, []⟩ } ∧
        (nodes.map (·.name)).Nodup) := by
  have hne' : ∀ a ∈ nodes, Vertex.name a ≠ "" := fun a ha => hne a.name (List.mem_map_of_mem ha)
  have hreports := NodeGraph.reports_replace (E := fun e => ∃ name, e = .duplicateName name)
    (fun ⟨a, ha, hname⟩ => absurd hname (hne' a ha)) fun name => ⟨name, rfl⟩
  cases h : NodeGraph.replace nodes n.graph with
  | error e g =>
    obtain ⟨name, rfl⟩ := hreports n.graph e g trivial h
    exact .inl ⟨name, _, Action.focus_of_error h⟩
  | ok u g =>
    have hd : (nodes.map (·.name)).Nodup := by
      have hd := NodeGraph.distinct_after_replace nodes n.graph
      rw [Action.after_of_ok h, NodeGraph.Distinct, NodeGraph.nodes_of_replace h] at hd
      exact hd
    exact .inr ⟨Action.focus_of_ok (NodeGraph.replace_of_nodup hd hne' n.graph), hd⟩

/-- Lowering puts back the nodes as they are where it stops, unless a name is given twice. -/
theorem lowerNodes_spec (hnames : ∀ a ∈ n.graph.nodes, a.name ≠ "") (loss : Option String) :
    (∃ name n', lowerNodes loss n = .error (.duplicateName name) n') ∨
      ((((Lowering.lower loss n.fusionRules).after n.graph.nodes).map (·.name)).Nodup ∧
        (lowerNodes loss).after n =
          { n with graph := ⟨(Lowering.lower loss n.fusionRules).after n.graph.nodes, []⟩ }) := by
  have hne : ∀ name ∈ ((Lowering.lower loss n.fusionRules).after n.graph.nodes).map (·.name),
      name ≠ "" := by
    refine Lowering.ne_empty_after_lower fun name hname => ?_
    obtain ⟨a, ha, rfl⟩ := List.mem_map.mp hname
    exact hnames a ha
  have hput := replace_onGraph _ hne { n with graph := NodeGraph.empty }
  unfold Action.after at hput ⊢
  rw [lowerNodes_apply]
  cases hl : Lowering.lower loss n.fusionRules n.graph.nodes with
  | ok u nodes =>
    rw [hl] at hput
    dsimp only at hput ⊢
    rcases hput with ⟨name, n', h⟩ | ⟨h, hd⟩
    · exact .inl ⟨name, n', h⟩
    · rw [h]
      exact .inr ⟨hd, rfl⟩
  | error e nodes =>
    rw [hl] at hput
    dsimp only at hput ⊢
    rcases hput with ⟨name, n', h⟩ | ⟨h, hd⟩
    · exact .inl ⟨name, n', Action.bind_of_error h⟩
    · rw [Action.bind_of_ok h]
      exact .inr ⟨hd, rfl⟩

theorem compile_of_empty (loss : Option String) (hopen : n.isCompiled = false)
    (hnil : n.graph.nodes = []) : compile loss n = .error .noLayers n := by
  have hempty : n.graph.isEmpty = true := by rw [NodeGraph.isEmpty, hnil]; rfl
  unfold compile
  rw [Action.bind_of_ok (Action.get_apply n), hopen]
  simp only [Bool.false_eq_true, if_false]
  rw [Action.bind_of_ok (Action.get_apply n), hempty, if_pos rfl]
  rfl

omit [Zero α] in
/-- What follows on lowering fails only before it changes anything: the network cannot be compiled
or not be sorted. -/
theorem settle_eq_error (hr : Lowering.Resolved n.graph.nodes) (h : settle n = .error e n') :
    n' = n ∧ (checkCompilable n = .error e ∨ n.graph.sortedOrder = .error e) := by
  cases hcheck : checkCompilable n with
  | error e₁ =>
    unfold settle at h
    rw [Action.bind_of_error (Action.read_of_error hcheck)] at h
    cases h
    exact ⟨rfl, .inl rfl⟩
  | ok u =>
    cases hs : n.graph.sortedOrder with
    | error e₁ =>
      have hsort : onGraph NodeGraph.sort n = .error e₁ n :=
        Action.focus_of_error (Action.update_of_error (by rw [hs]; rfl))
      unfold settle at h
      rw [Action.bind_of_ok (Action.read_of_ok hcheck), Action.bind_of_error hsort] at h
      cases h
      exact ⟨rfl, .inr rfl⟩
    | ok order =>
      have hne : n.graph.nodes ≠ [] := by
        intro hnil
        rw [checkCompilable, NodeGraph.isEmpty, hnil] at hcheck
        cases hcheck
      obtain ⟨n₁, hn₁⟩ := exists_settle hne hcheck hs (resolved_of_names hr)
      rw [hn₁] at h
      cases h

/-- A compilation that fails, for another reason than that a name is given twice, leaves a network
that has not been compiled and differs in its nodes only. They are the nodes with their default
inputs in the order in which they were added, each followed by its activation, under their new
names; a loss may have taken the place of the activation in front of it, and a loss and fan-out
nodes may have come in. -/
theorem retained_of_compile_error (hopen : n.isCompiled = false) (hd : n.graph.Distinct)
    (hnames : ∀ a ∈ n.graph.nodes, a.name ≠ "") (h : compile loss n = .error e n')
    (he : ∀ name, e ≠ .duplicateName name) :
    n' = { n with graph := n'.graph } ∧ (n.graph.order = [] → n'.graph.order = []) ∧
      n'.graph.Distinct ∧ ∃ more, Lowering.Appended (Lowering.expand n.graph.nodes) more ∧
        Aligned (Lowering.Remains n.fusionRules (Lowering.expand n.graph.nodes ++ more))
          (Lowering.FusedAway n.fusionRules (Lowering.expand n.graph.nodes ++ more))
          (fun b => Lowering.IsAppended (Lowering.expand n.graph.nodes) b ∨ Lowering.IsFanOut b)
          ((Lowering.wireDefaults n.graph.nodes).flatMap (Lowering.expanded n.graph.nodes))
          n'.graph.nodes := by
  by_cases hne : n.graph.nodes = []
  · rw [compile_of_empty loss hopen hne] at h
    cases h
    rw [hne]
    exact ⟨rfl, id, hd, [], .nothing, .nil⟩
  -- Whatever fails, the graph holds the nodes as lowering has left them.
  obtain ⟨hnodup, hn'⟩ : (((Lowering.lower loss n.fusionRules).after n.graph.nodes).map
      (·.name)).Nodup ∧
      n' = { n with graph := ⟨(Lowering.lower loss n.fusionRules).after n.graph.nodes, []⟩ } := by
    rw [compile_apply loss hopen hne] at h
    rcases lowerNodes_spec hnames loss with ⟨name, n₁, hlower⟩ | ⟨hnodup, hafter⟩
    · rw [Action.bind_of_error hlower] at h
      cases h
      exact absurd rfl (he name)
    · refine ⟨hnodup, ?_⟩
      cases hlower : lowerNodes loss n with
      | error e₁ n₁ =>
        rw [Action.bind_of_error hlower] at h
        cases h
        rwa [Action.after_of_error hlower] at hafter
      | ok u n₁ =>
        rw [Action.bind_of_ok hlower] at h
        obtain ⟨u', hl, hd₁, -⟩ := lowered_of_lowerNodes hlower
        rw [(settle_eq_error (Lowering.lower_spec hl hd₁).1 h).1]
        rwa [Action.after_of_ok hlower] at hafter
  obtain ⟨more, happended, haligned⟩ := Lowering.retained_after_lower hnodup
  rw [hn', ← Lowering.expand_eq hd]
  exact ⟨rfl, fun _ => rfl, hnodup, more, happended, haligned⟩

/-- A node reads one that is missing; the first has a reserved name. -/
def lacking : Network Float32 :=
  { ofSettings ⟨1, true, none, []⟩ with
    graph := ⟨[.ofLayer (.input 1) "input" [], .ofLayer .identity "b" [⟨"gone", 0⟩]], []⟩ }

/-- What compiling leaves of it. -/
def lackingAfter : Network Float32 :=
  { lacking with graph :=
    ⟨[.ofLayer (.input 1) "input0" [], .ofLayer .identity "b" [⟨"gone", 0⟩]], []⟩ }

theorem compile_lacking :
    compile none lacking = .error (.unknownInput "b" "gone") lackingAfter := by cbv

theorem lacking_retained : lackingAfter = { lacking with graph := lackingAfter.graph } ∧
    lackingAfter.graph.order = [] ∧ lackingAfter.graph.Distinct ∧
      ∃ more, Lowering.Appended (Lowering.expand lacking.graph.nodes) more ∧
        Aligned (Lowering.Remains [] (Lowering.expand lacking.graph.nodes ++ more))
          (Lowering.FusedAway [] (Lowering.expand lacking.graph.nodes ++ more))
          (fun b => Lowering.IsAppended (Lowering.expand lacking.graph.nodes) b ∨
            Lowering.IsFanOut b)
          ((Lowering.wireDefaults lacking.graph.nodes).flatMap
            (Lowering.expanded lacking.graph.nodes))
          lackingAfter.graph.nodes := by
  obtain ⟨hsame, horder, hd, hretained⟩ :=
    retained_of_compile_error (n := lacking) rfl (by decide) (by decide) compile_lacking
      fun _ h => by cases h
  exact ⟨hsame, horder rfl, hd, hretained⟩

/-- So the nodes are not what they were before. -/
theorem nodes_not_restored : ¬ ∀ (loss : Option String) (n n' : Network Float32) (e : Error),
    n.isCompiled = false → compile loss n = .error e n' →
      n'.graph.nodes.map (·.name) = n.graph.nodes.map (·.name) := by
  intro hall
  have hsame := hall none lacking lackingAfter _ rfl compile_lacking
  exact absurd hsame (by decide)

end Network

end LayerGraph
