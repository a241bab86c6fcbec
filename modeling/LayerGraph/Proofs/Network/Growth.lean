import LayerGraph.Network.Growth
import LayerGraph.Proofs.Lowering.Renaming
import LayerGraph.Proofs.NodeGraph.Names
import LayerGraph.Single

/-!
# Growth

Adding a node to an open network is refused only if its name is taken. A fragment is added node by
node, so a fragment that is refused for a name leaves those of its members that come before that
name, and no name yet stands for the fragment. What is refused before the first member leaves the
network as it is.
-/

namespace LayerGraph.Network

variable {α : Type} {n n' : Network α} {node : Node α} {nodes : List (Node α)}
  {fragment : String} {e : Error}

/-- The node as a network takes it in: under a name, and with what the names of its inputs stand
for. -/
def adopted (n : Network α) (node : Node α) : Node α := n.resolveAliases (n.nameNode node)

/-- The network with one more node. -/
def grownBy (n : Network α) (node : Node α) : Network α :=
  { n with graph := ⟨n.graph.nodes ++ [n.adopted node], []⟩ }

/-- The network with more nodes, each taken in after those before it. -/
def grown (n : Network α) (nodes : List (Node α)) : Network α := nodes.foldl grownBy n

/-- The members of a fragment that are added behind the node `attach`, as they are grafted there. -/
def grafts (nodes : List (Node α)) (fragment attach : String) : List (Node α) :=
  (nodes.filter (!·.isSource)).map
    (graft fragment attach ((nodes.filter (·.isSource)).map (·.name)) (nodes.map (·.name)))

theorem adopted_name_of_ne (h : node.name ≠ "") : (n.adopted node).name = node.name := by
  simp [adopted, resolveAliases, nameNode, h]

/-- A name that is made up is never the empty one, and never one that is taken. -/
theorem adopted_name_of_eq (h : node.name = "") :
    (n.adopted node).name ≠ "" ∧ (n.adopted node).name ∉ n.graph.nodes.map (·.name) := by
  have hname : (n.adopted node).name = freshName node.layer.typeName
      (n.graph.nodes.map (·.name)) := by
    simp [adopted, resolveAliases, nameNode, h]
  rw [hname]
  refine ⟨fun hempty => ?_, freshName_not_mem _ _⟩
  obtain ⟨j, hj⟩ := exists_freshName_eq node.layer.typeName (n.graph.nodes.map (·.name))
  rw [hempty] at hj
  exact Nat.repr_ne_empty (String.append_eq_empty_iff.mp hj.symm).2

theorem adopted_name_ne_empty : (n.adopted node).name ≠ "" := by
  by_cases h : node.name = ""
  · exact (adopted_name_of_eq h).1
  · rwa [adopted_name_of_ne h]

@[simp] theorem grownBy_isCompiled : (n.grownBy node).isCompiled = n.isCompiled := rfl

@[simp] theorem grownBy_aliases : (n.grownBy node).aliases = n.aliases := rfl

@[simp] theorem grown_nil : n.grown [] = n := rfl

@[simp] theorem grown_cons : n.grown (node :: nodes) = (n.grownBy node).grown nodes := rfl

theorem grown_aliases (n : Network α) (nodes : List (Node α)) :
    (n.grown nodes).aliases = n.aliases := by
  induction nodes generalizing n with
  | nil => rfl
  | cons node nodes ih => rw [grown_cons, ih, grownBy_aliases]

/-- The nodes that were there keep their places. -/
theorem prefix_grown (n : Network α) (nodes : List (Node α)) :
    n.graph.nodes <+: (n.grown nodes).graph.nodes := by
  induction nodes generalizing n with
  | nil => exact List.prefix_rfl
  | cons node nodes ih => exact (List.prefix_append _ _).trans (ih (n.grownBy node))

/-- Adding to an open network is refused exactly if the node's name is taken, and then changes
nothing. -/
theorem add_apply (hn : n.isCompiled = false) : add node n =
    if (n.adopted node).name ∈ n.graph.nodes.map (·.name)
      then .error (.duplicateName (n.adopted node).name) n
    else .ok () (n.grownBy node) := by
  have hcontains : n.graph.contains (Vertex.name (n.adopted node)) = true ↔
      (n.adopted node).name ∈ n.graph.nodes.map (·.name) :=
    NodeGraph.contains_eq_true_iff.trans List.mem_map.symm
  have hname : ¬ Vertex.name (n.adopted node) = "" := adopted_name_ne_empty
  unfold add
  rw [Action.bind_of_ok (Action.get_apply n)]
  dsimp only
  rw [if_neg (by simp [hn])]
  split
  · next htaken =>
    have hadd : NodeGraph.add (n.adopted node) n.graph =
        .error (.duplicateName (n.adopted node).name) n.graph := by
      unfold NodeGraph.add
      rw [if_neg hname, if_pos (hcontains.mpr htaken)]
      rfl
    exact Action.bind_of_error (Action.focus_of_error hadd)
  · next hfresh =>
    have hadd : NodeGraph.add (n.adopted node) n.graph =
        .ok n.graph.size ⟨n.graph.nodes ++ [n.adopted node], []⟩ := by
      unfold NodeGraph.add
      rw [if_neg hname, if_neg fun h => hfresh (hcontains.mp h)]
    exact Action.bind_of_ok (Action.focus_of_ok hadd)

/-- Nodes are added up to the first whose name is taken. -/
theorem forM_add (hn : n.isCompiled = false) : nodes.forM add n = .ok ⟨⟩ (n.grown nodes) ∨
    ∃ before node rest, nodes = before ++ node :: rest ∧
      nodes.forM add n = .error (.duplicateName node.name) (n.grown before) ∧
      node.name ∈ (n.grown before).graph.nodes.map (·.name) := by
  induction nodes generalizing n with
  | nil => exact .inl rfl
  | cons node nodes ih =>
    simp only [List.forM_eq_forM, List.forM_cons] at ih ⊢
    by_cases htaken : (n.adopted node).name ∈ n.graph.nodes.map (·.name)
    · -- A made up name is not taken, so the node has come with its name.
      have hname : (n.adopted node).name = node.name :=
        adopted_name_of_ne fun hempty => (adopted_name_of_eq hempty).2 htaken
      have hadd : add node n = _ := add_apply hn
      rw [if_pos htaken] at hadd
      rw [Action.bind_of_error hadd]
      rw [hname] at htaken ⊢
      exact .inr ⟨[], node, nodes, rfl, rfl, htaken⟩
    · have hadd : add node n = _ := add_apply hn
      rw [if_neg htaken] at hadd
      rw [Action.bind_of_ok hadd]
      rcases ih (n := n.grownBy node) hn with hall | ⟨before, refused, rest, rfl, hfails, hknown⟩
      · exact .inl hall
      · exact .inr ⟨node :: before, refused, rest, rfl, hfails, hknown⟩

/-- What a fragment that is refused leaves behind. -/
theorem extend_eq_error (hn : n.isCompiled = false) (h : extend nodes fragment n = .error e n') :
    n'.aliases = n.aliases ∧ n.graph.nodes <+: n'.graph.nodes ∧
      (((n.aliases.lookup fragment).isSome ∧ e = .misconfigured (.fragmentNameUsed fragment) ∧
          n' = n) ∨
        (n.graph.nodes = [] ∧ e = .misconfigured .nothingToExtend ∧ n' = n) ∨
        ∃ last before node rest, n.graph.nodes.getLast? = some last ∧
          grafts nodes fragment last.name = before ++ node :: rest ∧
          n' = n.grown before ∧ e = .duplicateName node.name ∧
          node.name ∈ n'.graph.nodes.map (·.name)) := by
  unfold extend at h
  rw [Action.bind_of_ok (Action.get_apply n)] at h
  dsimp only at h
  rw [if_neg (by simp [hn])] at h
  split at h
  · next hused =>
    cases h
    exact ⟨rfl, List.prefix_rfl, .inl ⟨hused, rfl, rfl⟩⟩
  cases hlast : n.graph.nodes.getLast? with
  | none =>
    rw [hlast] at h
    cases h
    exact ⟨rfl, List.prefix_rfl, .inr (.inl ⟨List.getLast?_eq_none_iff.mp hlast, rfl, rfl⟩)⟩
  | some last =>
    rw [hlast] at h
    dsimp only at h
    have hloop : ((nodes.filter (!·.isSource)).forM fun node => add (graft fragment last.name
        ((nodes.filter (·.isSource)).map (·.name)) (nodes.map (·.name)) node)) =
          (grafts nodes fragment last.name).forM add := List.forM_map.symm
    rw [hloop] at h
    have hgrown := @forM_add _ _ (grafts nodes fragment last.name) hn
    rcases hgrown with hall | ⟨before, node, rest, hsplit, hfails, hknown⟩
    · -- Nothing that comes after the last member can fail.
      rw [Action.bind_of_ok hall, Action.bind_of_ok (Action.modify_apply _ _)] at h
      split at h <;> cases h
    · rw [Action.bind_of_error hfails] at h
      cases h
      exact ⟨grown_aliases n before, prefix_grown n before,
        .inr (.inr ⟨last, before, node, rest, rfl, hsplit, rfl, rfl, hknown⟩)⟩

/-- A graph with an input only. -/
def stem : Network Float32 :=
  { ofSettings ⟨1, true, none, []⟩ with graph := ⟨[.ofLayer (.input 1) "x" []], []⟩ }

/-- Two members of one name. -/
def stutter : List (Node Float32) := [.ofLayer .identity "a" [], .ofLayer .identity "a" []]

/-- The graph with the first of them. -/
def stemAfter : Network Float32 :=
  { stem with graph := ⟨[.ofLayer (.input 1) "x" [], .ofLayer .identity "pa" []], []⟩ }

theorem extend_stem : extend stutter "p" stem = .error (.duplicateName "pa") stemAfter := rfl

theorem stem_extend_eq_error : stemAfter.aliases = stem.aliases ∧
    stem.graph.nodes <+: stemAfter.graph.nodes ∧
    (((stem.aliases.lookup "p").isSome ∧
        Error.duplicateName "pa" = .misconfigured (.fragmentNameUsed "p") ∧ stemAfter = stem) ∨
      (stem.graph.nodes = [] ∧ Error.duplicateName "pa" = .misconfigured .nothingToExtend ∧
        stemAfter = stem) ∨
      ∃ last before node rest, stem.graph.nodes.getLast? = some last ∧
        grafts stutter "p" last.name = before ++ node :: rest ∧
        stemAfter = stem.grown before ∧ Error.duplicateName "pa" = .duplicateName node.name ∧
        node.name ∈ stemAfter.graph.nodes.map (·.name)) :=
  extend_eq_error rfl extend_stem

/-- So a fragment that is refused is not always withdrawn as a whole. -/
theorem members_not_withdrawn :
    ¬ ∀ (nodes : List (Node Float32)) (fragment : String) (n n' : Network Float32) (e : Error),
    n.isCompiled = false → extend nodes fragment n = .error e n' →
      n'.graph.nodes = n.graph.nodes ∧ n'.aliases = n.aliases := by
  intro hall
  have hsize := congrArg List.length (hall stutter "p" stem stemAfter _ rfl extend_stem).1
  exact absurd hsize (by decide)

end LayerGraph.Network
