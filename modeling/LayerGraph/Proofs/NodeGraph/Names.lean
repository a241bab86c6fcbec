import LayerGraph.NodeGraph.Basic
import LayerGraph.Proofs.Action
import LayerGraph.Proofs.Lists

/-!
# Look-up by name

In a graph whose names are distinct a name means one node, and its position is the only one at which
a node of that name stands.
-/

namespace LayerGraph.NodeGraph

variable {ν : Type} [Vertex ν] {g : NodeGraph ν}

/-- No name is given twice. -/
def Distinct (g : NodeGraph ν) : Prop := (g.nodes.map Vertex.name).Nodup

instance (g : NodeGraph ν) : Decidable g.Distinct :=
  inferInstanceAs (Decidable (g.nodes.map Vertex.name).Nodup)

theorem Distinct.eq_of_name (hg : g.Distinct) {i j : NodeRef} {a b : ν} (hi : g.nodes[i]? = some a)
    (hj : g.nodes[j]? = some b) (h : Vertex.name a = Vertex.name b) : i = j :=
  getElem?_inj_of_nodup_map hg hi hj h

theorem indexOf?_eq_some_iff (hg : g.Distinct) {name : String} {id : NodeRef} :
    g.indexOf? name = some id ↔ ∃ node, g.nodes[id]? = some node ∧ Vertex.name node = name := by
  unfold indexOf?
  constructor
  · intro h
    obtain ⟨hlt, hname, -⟩ := List.findIdx?_eq_some_iff_getElem.mp h
    exact ⟨g.nodes[id], by simp [hlt], by simpa using hname⟩
  · rintro ⟨node, hnode, hname⟩
    obtain ⟨hlt, rfl⟩ := List.getElem?_eq_some_iff.mp hnode
    refine List.findIdx?_eq_some_iff_getElem.mpr ⟨hlt, by simpa using hname, fun j hj => ?_⟩
    intro h
    have hother : g.nodes[j]? = some g.nodes[j] := by simp
    have hsame : Vertex.name g.nodes[j] = name := by simpa using h
    exact Nat.ne_of_lt hj (hg.eq_of_name hother hnode (hsame.trans hname.symm))

theorem find?_eq_some_iff (hg : g.Distinct) {name : String} {node : ν} :
    g.find? name = some node ↔ node ∈ g.nodes ∧ Vertex.name node = name := by
  unfold find?
  constructor
  · intro h
    exact ⟨List.mem_of_find?_eq_some h, by simpa using List.find?_some h⟩
  · rintro ⟨hmem, hname⟩
    cases h : g.nodes.find? (Vertex.name · == name) with
    | none => exact absurd hname (by simpa using List.find?_eq_none.mp h node hmem)
    | some other =>
      obtain ⟨i, hi⟩ := List.getElem?_of_mem hmem
      obtain ⟨j, hj⟩ := List.getElem?_of_mem (List.mem_of_find?_eq_some h)
      have hother : Vertex.name other = name := by simpa using List.find?_some h
      obtain rfl := hg.eq_of_name hi hj (hname.trans hother.symm)
      rw [hi] at hj
      exact hj.symm

theorem contains_eq_true_iff {name : String} :
    g.contains name = true ↔ ∃ node ∈ g.nodes, Vertex.name node = name := by
  simp [contains]

theorem add_eq_ok {node : ν} {g' : NodeGraph ν} {id : NodeRef}
    (h : NodeGraph.add node g = .ok id g') :
    g' = ⟨g.nodes ++ [node], []⟩ ∧ Vertex.name node ∉ g.nodes.map Vertex.name := by
  unfold NodeGraph.add at h
  split at h
  · cases h
  · split at h
    · cases h
    · next hfresh =>
      cases h
      exact ⟨rfl, by simpa [contains] using hfresh⟩

theorem add_eq_error {node : ν} {g' : NodeGraph ν} {e : Error}
    (h : NodeGraph.add node g = .error e g') : g' = g := by
  unfold NodeGraph.add at h
  split at h
  · cases h
    rfl
  · split at h
    · cases h
      rfl
    · cases h

theorem distinct_empty : (empty : NodeGraph ν).Distinct := List.nodup_nil

theorem keeps_distinct_add (node : ν) : Action.Keeps Distinct (NodeGraph.add node) := by
  intro g hg
  cases h : NodeGraph.add node g with
  | ok id g' =>
    obtain ⟨rfl, hfresh⟩ := add_eq_ok h
    rw [Action.after_of_ok h]
    simp only [Distinct, List.map_append, List.map_cons, List.map_nil]
    exact List.nodup_append.mpr ⟨hg, by simp, by simpa using hfresh⟩
  | error e g' =>
    rw [Action.after_of_error h, add_eq_error h]
    exact hg

/-- Whatever nodes are put in, those that get in have distinct names. -/
theorem distinct_after_replace (nodes : List ν) (g : NodeGraph ν) :
    ((NodeGraph.replace nodes).after g).Distinct := by
  have hk : Action.Keeps Distinct (nodes.forM fun node => do
      let _ ← NodeGraph.add (ν := ν) node) :=
    Action.keeps_forM fun node _ => (keeps_distinct_add node).bind fun _ => Action.keeps_pure _
  exact hk _ distinct_empty

theorem nodes_of_replace {nodes : List ν} {g g' : NodeGraph ν} {u : Unit}
    (h : NodeGraph.replace nodes g = .ok u g') : g'.nodes = nodes := by
  have hk : ∀ (nodes : List ν) (g g' : NodeGraph ν) (u : Unit),
      (nodes.forM fun node => do let _ ← NodeGraph.add (ν := ν) node) g = .ok u g' →
        g'.nodes = g.nodes ++ nodes := by
    intro nodes
    induction nodes with
    | nil =>
      intro g g' u h
      cases h
      simp
    | cons node nodes ih =>
      intro g g' u h
      simp only [List.forM_eq_forM, List.forM_cons] at ih h
      obtain ⟨_, g₁, hadd, h⟩ := Action.bind_eq_ok_iff.mp h
      obtain ⟨id, g₂, hadd, hg⟩ := Action.bind_eq_ok_iff.mp hadd
      cases hg
      obtain ⟨rfl, -⟩ := add_eq_ok hadd
      simpa using ih _ _ _ h
  simpa [NodeGraph.empty] using hk nodes empty g' u h

/-- Nodes whose names are distinct and not empty all get in. -/
theorem replace_of_nodup {nodes : List ν} (hd : (nodes.map Vertex.name).Nodup)
    (hn : ∀ node ∈ nodes, Vertex.name node ≠ "") (g : NodeGraph ν) :
    NodeGraph.replace nodes g = .ok () ⟨nodes, []⟩ := by
  have hk : ∀ rest done : List ν, done ++ rest = nodes →
      (rest.forM fun node => do let _ ← NodeGraph.add (ν := ν) node) ⟨done, []⟩ =
      .ok () ⟨nodes, []⟩ := by
    intro rest
    induction rest with
    | nil =>
      rintro done rfl
      rw [List.append_nil]
      rfl
    | cons node rest ih =>
      rintro done hsplit
      have hfresh : (⟨done, []⟩ : NodeGraph ν).contains (Vertex.name node) = false := by
        rw [← hsplit, List.map_append, List.nodup_append] at hd
        simp only [contains, List.any_eq_false, beq_iff_eq]
        exact fun other ho => hd.2.2 _ (List.mem_map_of_mem ho) _ (by simp)
      have hadd : NodeGraph.add node ⟨done, []⟩ = .ok done.length ⟨done ++ [node], []⟩ := by
        rw [NodeGraph.add, if_neg (hn node (by simp [← hsplit])), hfresh]
        rfl
      have hrest := ih (done ++ [node]) (by simp [hsplit])
      simp only [List.forM_eq_forM, List.forM_cons] at hrest ⊢
      have hstep : (do let _ ← NodeGraph.add node : Action (NodeGraph ν) PUnit) ⟨done, []⟩ =
          .ok ⟨⟩ ⟨done ++ [node], []⟩ := by
        rw [Action.bind_of_ok hadd]
        rfl
      exact (Action.bind_of_ok hstep).trans hrest
  exact hk nodes [] rfl

end LayerGraph.NodeGraph
