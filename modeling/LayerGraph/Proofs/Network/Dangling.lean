import LayerGraph.Proofs.Lowering.Dangling
import LayerGraph.Proofs.Network.Accepted

/-!
# Dangling references are seen after lowering

Inputs are resolved among the lowered nodes. So compiling rejects a reference that names no node,
unless lowering has given the name that is missing.
-/

namespace LayerGraph.Network

variable {α : Type} [Zero α] {n n' : Network α} {loss : Option String} {u : Unit}

/-- A compilation that ends well finds a terminal among the lowered nodes. -/
theorem hasTerminal_of_compile (hne : n.graph.nodes ≠ []) (h : compile loss n = .ok u n') :
    ∃ u' nodes, Lowering.lower loss n.fusionRules n.graph.nodes = .ok u' nodes ∧
      (nodes.map (·.name)).Nodup ∧ Lowering.HasTerminal nodes := by
  have hopen : n.isCompiled = false := by
    by_contra hclosed
    rw [Bool.not_eq_false] at hclosed
    unfold compile at h
    rw [Action.bind_of_ok (Action.get_apply n), Action.guard_eq_ok_iff] at h
    exact h.1 hclosed
  rw [compile_apply loss hopen hne] at h
  obtain ⟨_, n₁, hlower, h⟩ := Action.bind_eq_ok_iff.mp h
  obtain ⟨_, _, hread, -⟩ := Action.bind_eq_ok_iff.mp h
  obtain ⟨hcheck, -⟩ := Action.read_eq_ok_iff.mp hread
  obtain ⟨u', hl, hd, -⟩ := lowered_of_lowerNodes hlower
  refine ⟨u', n₁.graph.nodes, hl, hd, ?_⟩
  have hne₁ : n₁.graph.nodes ≠ [] := by
    intro hnil
    rw [checkCompilable, show n₁.graph.isEmpty = true by rw [NodeGraph.isEmpty, hnil]; rfl,
      if_pos rfl] at hcheck
    cases hcheck
  rw [checkCompilable_eq hne₁] at hcheck
  rw [← exists_isTerminal_iff (Lowering.lower_spec hl hd).2.1]
  by_contra hnone
  rw [if_neg hnone] at hcheck
  split at hcheck
  · cases hcheck
  · cases hcheck

/-- What compiling accepts of inputs that name no node: those that name what a node of a reserved
name is renamed to, or the activation that is put behind a node. -/
theorem caught_of_compile (h : compile loss n = .ok u n') {a : Node α} (ha : a ∈ n.graph.nodes)
    {c : Connection} (hc : c ∈ a.inputs) (hname : c.name ∉ n.graph.nodes.map (·.name)) :
    (∃ p ∈ n.graph.nodes.map (·.name), p ∈ Lowering.reservedNames ∧
      c.name = Lowering.newName n.graph.nodes p) ∨
    ∃ p ∈ Lowering.splitting n.graph.nodes,
      c.name = Lowering.activationName (Lowering.newName n.graph.nodes p) := by
  obtain ⟨u', nodes, hl, hd, hterminal⟩ := hasTerminal_of_compile (List.ne_nil_of_mem ha) h
  exact Lowering.caught_of_lower hl hd hterminal ⟨a, ha, c, hc, rfl⟩ hname

/-- The second node names what the first is going to be renamed to. -/
def ahead : Network Float32 :=
  { ofSettings ⟨1, false, none, []⟩ with
    graph := ⟨[.ofLayer (.input 1) "input" [], .ofLayer .identity "b" [⟨"input0", 0⟩]], []⟩ }

/-- What compiling makes of it. -/
def aheadCompiled : Network Float32 :=
  { (ofSettings ⟨1, false, none, []⟩ : Network Float32) with
    graph := ⟨[
      { Node.ofLayer (.input 1) "input0" [] with outputs := [[⟨"b", 0⟩]] },
      { Node.ofLayer .identity "b" [⟨"input0", 0⟩] with schedule := .oneWay 1 }], [0, 1]⟩
    store := (Store.empty false none).setBounds 2 1
    isCompiled := true }

theorem compile_ahead : compile none ahead = .ok () aheadCompiled := by cbv

theorem ahead_caught : "input0" ∉ ahead.graph.nodes.map (·.name) ∧
    ∃ p ∈ ahead.graph.nodes.map (·.name), p ∈ Lowering.reservedNames ∧
      "input0" = Lowering.newName ahead.graph.nodes p := by
  have hname : "input0" ∉ ahead.graph.nodes.map (·.name) := by decide
  have hcaught := caught_of_compile compile_ahead (a := .ofLayer .identity "b" [⟨"input0", 0⟩])
    (List.mem_cons_of_mem _ (List.mem_singleton_self _)) (c := ⟨"input0", 0⟩)
      (List.mem_singleton_self _) hname
  refine ⟨hname, hcaught.resolve_right ?_⟩
  rintro ⟨p, hp, -⟩
  cases hp

/-- So not every dangling reference is rejected. -/
theorem dangling_accepted : ¬ ∀ (loss : Option String) (n : Network Float32), n.isCompiled = false →
    (∃ a ∈ n.graph.nodes, ∃ c ∈ a.inputs, c.name ∉ n.graph.nodes.map (·.name)) →
    ∃ e n', compile loss n = .error e n' := by
  intro hall
  obtain ⟨e, n', h⟩ := hall none ahead rfl (by decide)
  rw [compile_ahead] at h
  cases h

end LayerGraph.Network
