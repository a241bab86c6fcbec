import LayerGraph.Node
import LayerGraph.NodeGraph.Indexed
import LayerGraph.Proofs.NodeGraph.Names
import LayerGraph.Proofs.NodeGraph.Order
import LayerGraph.Single

/-!
# Nodes, table and order agree

Whatever is done with a graph, and whether it is refused or not, its table has the names of its
nodes with their positions and no others, so that no name is given twice, and its order lists either
all nodes once or none. A look-up in the table is then a look-up among the nodes, and each operation
does what it does without a table.
-/

namespace LayerGraph

namespace NameTable

variable {name other : String} {id : NodeRef} {table : NameTable}

theorem lookup_remove : (table.remove name).lookup other = if other = name then none
    else table.lookup other := by
  induction table with
  | nil => simp [remove]
  | cons entry table ih =>
    obtain ⟨key, position⟩ := entry
    unfold remove at ih ⊢
    rw [List.filter_cons]
    by_cases hkey : key = name
    · subst hkey
      rw [if_neg (by simp), ih]
      split
      · rfl
      · next hne => rw [List.lookup_cons, beq_eq_false_iff_ne.mpr hne]
    · rw [if_pos (by simpa using hkey), List.lookup_cons, List.lookup_cons]
      by_cases hother : other = key
      · subst hother
        simp [hkey]
      · rw [beq_eq_false_iff_ne.mpr hother, ih]

theorem lookup_insert : (table.insert name id).lookup other = if other = name then some id
    else table.lookup other := by
  rw [insert, List.lookup_cons]
  by_cases hname : other = name
  · rw [if_pos hname, beq_iff_eq.mpr hname]
  · rw [if_neg hname, beq_eq_false_iff_ne.mpr hname, lookup_remove, if_neg hname]

end NameTable

/-- A node that is renamed has its new name. -/
class LawfulVertex (ν : Type) [Vertex ν] : Prop where
  name_rename : ∀ (name : String) (node : ν), Vertex.name (Vertex.rename name node) = name

instance {α : Type} : LawfulVertex (Node α) := ⟨fun _ _ => rfl⟩

namespace IndexedGraph

variable {ν : Type} [Vertex ν]

/-- The table has the positions of the nodes by their names, and the order is one of all nodes or
none. -/
structure Sound (g : IndexedGraph ν) : Prop where
  indexed : ∀ name id, g.indexOf? name = some id ↔ ∃ node, g.nodes[id]? = some node ∧
    Vertex.name node = name
  ordered : g.order = [] ∨ g.order.Perm (List.range g.size)

/-- An edit of a node that leaves its name alone. -/
structure Edit (ν : Type) [Vertex ν] where
  apply : ν → ν
  name_apply : ∀ node, Vertex.name (apply node) = Vertex.name node

/-- What can be done with a graph. -/
inductive Call (ν : Type) [Vertex ν] where
  | add (node : ν)
  | rename (id : NodeRef) (name : String)
  | take
  | replace (nodes : List ν)
  | sort
  | revise (name : String) (edit : Edit ν)

def Call.run : Call ν → Action (IndexedGraph ν) Unit
  | .add node => do let _ ← IndexedGraph.add node
  | .rename id name => IndexedGraph.rename id name
  | .take => do let _ ← IndexedGraph.take
  | .replace nodes => IndexedGraph.replace nodes
  | .sort => IndexedGraph.sort
  | .revise name edit => do let _ ← editNamed name edit.apply

/-- The graph that is left after some calls, of which any may have been refused. -/
def perform (calls : List (Call ν)) : IndexedGraph ν :=
  calls.foldl (fun g call => call.run.after g) empty

section Sound

variable {g : IndexedGraph ν}

theorem Sound.lt (h : g.Sound) {name : String} {id : NodeRef} (hid : g.indexOf? name = some id) :
    id < g.size := by
  obtain ⟨node, hnode, -⟩ := (h.indexed name id).mp hid
  exact (List.getElem?_eq_some_iff.mp hnode).1

theorem Sound.indexOf?_eq (h : g.Sound) {id : NodeRef} {node : ν}
    (hnode : g.nodes[id]? = some node) :
    g.indexOf? (Vertex.name node) = some id := (h.indexed _ _).mpr ⟨node, hnode, rfl⟩

/-- A table can hold one position only, so no two nodes have the same name. -/
theorem Sound.distinct (h : g.Sound) : (g.nodes.map Vertex.name).Nodup := by
  rw [List.nodup_iff_getElem?_ne_getElem?]
  intro i j hij hj heq
  rw [List.length_map] at hj
  have hi : i < g.nodes.length := Nat.lt_trans hij hj
  rw [List.getElem?_map, List.getElem?_map, List.getElem?_eq_getElem hi,
    List.getElem?_eq_getElem hj, Option.map_some, Option.map_some, Option.some.injEq] at heq
  have hat := h.indexOf?_eq (List.getElem?_eq_getElem hi)
  rw [heq, h.indexOf?_eq (List.getElem?_eq_getElem hj), Option.some.injEq] at hat
  exact Nat.lt_irrefl _ (hat ▸ hij)

theorem sound_empty : (empty : IndexedGraph ν).Sound :=
  ⟨fun name id => by simp [empty, indexOf?], .inl rfl⟩

theorem Sound.push (h : g.Sound) {node : ν} (hnew : g.indexOf? (Vertex.name node) = none) :
    (g.push node).Sound := by
  refine ⟨fun name id => ?_, .inl rfl⟩
  change (g.index.insert (Vertex.name node) g.size).lookup name = some id ↔
    ∃ found, (g.nodes ++ [node])[id]? = some found ∧ Vertex.name found = name
  have hold := h.indexed name id
  rw [NameTable.lookup_insert]
  rcases Nat.lt_trichotomy id g.size with hlt | rfl | hgt
  · rw [List.getElem?_append_left hlt, ← hold]
    split
    · next hname =>
      subst hname
      rw [hnew]
      exact ⟨fun hid => absurd (Option.some.inj hid) (Nat.ne_of_gt hlt), nofun⟩
    · rfl
  · rw [show (g.nodes ++ [node])[g.size]? = some node from List.getElem?_concat_length]
    simp only [Option.some.injEq, exists_eq_left']
    split
    · next hname => exact iff_of_true rfl hname.symm
    · next hname =>
      exact iff_of_false (fun hid => absurd (h.lt hid) (Nat.lt_irrefl _)) (Ne.symm hname)
  · have hnone : (g.nodes ++ [node])[id]? = none := List.getElem?_eq_none (by
      rw [List.length_append]
      exact hgt)
    rw [hnone]
    refine iff_of_false (fun hid => ?_) nofun
    split at hid
    · exact absurd (Option.some.inj hid) (Nat.ne_of_lt hgt)
    · exact absurd (h.lt hid) (Nat.lt_asymm hgt)

theorem Sound.renameAt [LawfulVertex ν] (h : g.Sound) {id : NodeRef} {node : ν} {name : String}
    (hnode : g.nodes[id]? = some node) (hnew : g.indexOf? name = none) :
    (g.renameAt id node name).Sound := by
  refine ⟨fun other position => ?_, h.ordered.imp_right
    fun h => by simpa [size, IndexedGraph.renameAt] using h⟩
  change ((g.index.remove (Vertex.name node)).insert name id).lookup other = some position ↔
    ∃ found, (g.nodes.modify id (Vertex.rename name))[position]? = some found ∧
    Vertex.name found = other
  have hold := h.indexed other position
  rw [NameTable.lookup_insert, NameTable.lookup_remove, List.getElem?_modify]
  by_cases hpos : id = position
  · subst hpos
    simp only [hnode, ↓reduceIte, Option.map_eq_map, Option.map_some, Option.some.injEq,
      exists_eq_left', LawfulVertex.name_rename]
    by_cases hother : other = name
    · exact iff_of_true (if_pos hother) hother.symm
    · refine iff_of_false (fun hid => ?_) (Ne.symm hother)
      rw [if_neg hother] at hid
      split at hid
      · cases hid
      · next hne =>
        obtain ⟨found, hfound, hname⟩ := hold.mp hid
        rw [hnode] at hfound
        cases hfound
        exact hne hname.symm
  · simp only [if_neg hpos, id_map']
    rw [← hold]
    by_cases hother : other = name
    · rw [if_pos hother, hother, hnew]
      exact iff_of_false (fun hid => hpos (Option.some.inj hid)) nofun
    rw [if_neg hother]
    split
    · next hold' =>
      rw [hold', h.indexOf?_eq hnode]
      exact iff_of_false nofun fun hid => hpos (Option.some.inj hid)
    · rfl

theorem keeps_sound_add (node : ν) : Action.Keeps Sound (add node) := by
  intro g hg
  unfold Action.after add
  by_cases hempty : Vertex.name node = ""
  · rw [if_pos hempty]
    exact hg
  rw [if_neg hempty]
  by_cases hnew : g.contains (Vertex.name node) = true
  · rw [if_pos hnew]
    exact hg
  · rw [if_neg hnew]
    exact hg.push (by simpa [contains] using hnew)

theorem keeps_sound_replace (nodes : List ν) : Action.Keeps Sound (replace nodes) := by
  intro g _
  have hk : Action.Keeps Sound (nodes.forM fun node => do let _ ← add (ν := ν) node) :=
    Action.keeps_forM fun node _ => (keeps_sound_add node).bind fun _ => Action.keeps_pure _
  exact hk _ sound_empty

theorem keeps_sound_rename [LawfulVertex ν] (id : NodeRef) (name : String) :
    Action.Keeps Sound (rename (ν := ν) id name) := by
  intro g hg
  unfold Action.after rename
  by_cases hnew : g.contains name = true
  · rw [if_pos hnew]
    exact hg
  rw [if_neg hnew]
  cases hnode : g.nodes[id]? with
  | none => exact hg
  | some node => exact hg.renameAt hnode (by simpa [contains] using hnew)

theorem keeps_sound_sort : Action.Keeps Sound (sort (ν := ν)) := by
  refine Action.keeps_update fun g g' hg h => ?_
  obtain ⟨order, horder, h⟩ := except_bind_eq_ok_iff.mp h
  cases h
  refine ⟨hg.indexed, .inr ?_⟩
  unfold sortedOrder at horder
  obtain ⟨table, -, horder⟩ := except_bind_eq_ok_iff.mp horder
  dsimp only at horder
  split at horder
  · cases horder
  · next found hfound =>
    split at horder
    · cases horder
    · cases horder
      exact Traversal.order_perm hfound

theorem keeps_sound_editNamed (name : String) (edit : Edit ν) :
    Action.Keeps Sound (editNamed (ν := ν) name edit.apply) := by
  intro g hg
  unfold Action.after editNamed
  cases g.indexOf? name with
  | none => exact hg
  | some id =>
    refine ⟨fun other position => ?_, hg.ordered.imp_right fun h => by simpa [size] using h⟩
    change g.indexOf? other = some position ↔ _
    rw [hg.indexed, List.getElem?_modify]
    cases g.nodes[position]? with
    | none => simp
    | some node =>
      simp only [Option.map_eq_map, Option.map_some, Option.some.injEq, exists_eq_left']
      split
      · rw [edit.name_apply]
      · rfl

/-- Every call keeps nodes, table and order in agreement, whether it is refused or not. -/
theorem keeps_sound_run [LawfulVertex ν] (call : Call ν) : Action.Keeps Sound call.run := by
  cases call with
  | add node => exact (keeps_sound_add node).bind fun _ => Action.keeps_pure _
  | rename id name => exact keeps_sound_rename id name
  | take => exact Action.Keeps.bind (fun _ _ => sound_empty) fun _ => Action.keeps_pure _
  | replace nodes => exact keeps_sound_replace nodes
  | sort => exact keeps_sound_sort
  | revise name edit => exact (keeps_sound_editNamed name edit).bind fun _ => Action.keeps_pure _

theorem sound_perform [LawfulVertex ν] (calls : List (Call ν)) : (perform calls).Sound := by
  have hall : ∀ (calls : List (Call ν)) (g : IndexedGraph ν), g.Sound →
      (calls.foldl (fun g call => call.run.after g) g).Sound := by
    intro calls
    induction calls with
    | nil => exact fun g hg => hg
    | cons call calls ih => exact fun g hg => ih _ (keeps_sound_run call g hg)
  exact hall calls empty sound_empty

end Sound

section Plain

variable {g : IndexedGraph ν}

theorem Sound.indexOf?_plain (h : g.Sound) (name : String) :
    g.plain.indexOf? name = g.indexOf? name :=
  Option.ext fun id => (NodeGraph.indexOf?_eq_some_iff (g := g.plain) h.distinct).trans
    (h.indexed name id).symm

theorem Sound.contains_plain (h : g.Sound) (name : String) :
    g.plain.contains name = g.contains name := by
  have hfound : g.plain.contains name = (g.plain.indexOf? name).isSome := by
    rw [NodeGraph.indexOf?, List.findIdx?_isSome, NodeGraph.contains]
  rw [hfound, h.indexOf?_plain, contains]

theorem Sound.sortedOrder_plain (h : g.Sound) : g.plain.sortedOrder = g.sortedOrder := by
  have hproducers : g.plain.producersOf = g.producersOf := by
    funext node
    unfold NodeGraph.producersOf producersOf
    refine congrArg ((Vertex.inputs node).mapM ·) (funext fun conn => ?_)
    cases hfound : g.indexOf? conn.name <;> simp [h.indexOf?_plain, hfound]
  unfold NodeGraph.sortedOrder sortedOrder NodeGraph.readers
  rw [hproducers]
  change (g.nodes.mapM g.producersOf >>= _) >>= _ = _
  cases g.nodes.mapM g.producersOf <;> rfl

/-- An outcome but for the table. -/
def forget {β : Type} : EStateM.Result Error (IndexedGraph ν) β →
    EStateM.Result Error (NodeGraph ν) β
  | .ok b g => .ok b g.plain
  | .error e g => .error e g.plain

/-- The same call of a graph that has no table. -/
def Call.runPlain : Call ν → Action (NodeGraph ν) Unit
  | .add node => do let _ ← NodeGraph.add node
  | .rename id name => NodeGraph.rename id name
  | .take => do let _ ← NodeGraph.take
  | .replace nodes => NodeGraph.replace nodes
  | .sort => NodeGraph.sort
  | .revise name edit => modify fun g =>
    match g.indexOf? name with
    | some id => g.modifyNode id edit.apply
    | none => g

/-- Only nodes that are there are renamed. -/
def Call.Valid (g : IndexedGraph ν) : Call ν → Prop
  | .rename id _ => id < g.size
  | _ => True

omit [Vertex ν] in
theorem forget_bind {β γ : Type} {p : Action (IndexedGraph ν) β} {q : Action (NodeGraph ν) β}
    {f : β → Action (IndexedGraph ν) γ} {f' : β → Action (NodeGraph ν) γ}
    (h : forget (p g) = q g.plain) (hf : ∀ b, forget (f b (p.after g)) = f' b (p.after g).plain) :
    forget ((p >>= f) g) = (q >>= f') g.plain := by
  cases hp : p g with
  | ok b g' =>
    rw [hp] at h
    rw [Action.bind_of_ok hp, Action.bind_of_ok h.symm]
    rw [Action.after_of_ok hp] at hf
    exact hf b
  | error e g' =>
    rw [hp] at h
    rw [Action.bind_of_error hp, Action.bind_of_error h.symm]
    rfl

theorem Sound.forget_add (h : g.Sound) (node : ν) :
    forget (add node g) = NodeGraph.add node g.plain := by
  rw [add, NodeGraph.add, h.contains_plain]
  split
  · rfl
  split <;> rfl

theorem Sound.forget_rename (h : g.Sound) {id : NodeRef} (hid : id < g.size) (name : String) :
    forget (rename id name g) = NodeGraph.rename id name g.plain := by
  rw [rename, NodeGraph.rename, h.contains_plain, List.getElem?_eq_getElem hid]
  split <;> rfl

theorem forget_replace (nodes : List ν) :
    forget (replace nodes g) = NodeGraph.replace nodes g.plain := by
  have hall : ∀ (nodes : List ν) (g : IndexedGraph ν), g.Sound →
      forget ((nodes.forM fun node => do let _ ← add node : Action (IndexedGraph ν) PUnit) g) =
        (nodes.forM fun node => do let _ ← NodeGraph.add node : Action (NodeGraph ν) PUnit)
          g.plain := by
    intro nodes
    induction nodes with
    | nil => exact fun g _ => rfl
    | cons node nodes ih =>
      intro g hg
      simp only [List.forM_eq_forM, List.forM_cons] at ih ⊢
      exact forget_bind (forget_bind (hg.forget_add node) fun _ => rfl) fun _ =>
        ih _ (((keeps_sound_add node).bind fun _ => Action.keeps_pure _) g hg)
  exact hall nodes empty sound_empty

theorem Sound.forget_sort (h : g.Sound) : forget (sort g) = NodeGraph.sort g.plain := by
  unfold sort NodeGraph.sort Action.update
  dsimp only
  rw [h.sortedOrder_plain]
  cases g.sortedOrder <;> rfl

/-- A table changes nothing but the way in which names are looked up. -/
theorem Sound.forget_run (h : g.Sound) {call : Call ν} (hc : call.Valid g) :
    forget (call.run g) = call.runPlain g.plain := by
  cases call with
  | add node => exact forget_bind (h.forget_add node) fun _ => rfl
  | rename id name => exact h.forget_rename hc name
  | take => rfl
  | replace nodes => exact forget_replace nodes
  | sort => exact h.forget_sort
  | revise name edit =>
    change forget ((editNamed name edit.apply >>= fun _ => pure ⟨⟩) g) =
      (modify _ : Action (NodeGraph ν) PUnit) g.plain
    rw [Action.modify_apply, h.indexOf?_plain]
    cases hid : g.indexOf? name with
    | none =>
      have hnone : editNamed name edit.apply g = .ok false g := by rw [editNamed, hid]
      rw [Action.bind_of_ok hnone]
      rfl
    | some id =>
      have hsome : editNamed name edit.apply g =
          .ok true { g with nodes := g.nodes.modify id edit.apply } := by
        rw [editNamed, hid]
      rw [Action.bind_of_ok hsome]
      rfl

end Plain

/-- After any calls, refused or not, no name is given twice, a name is found exactly where its node
stands, and the order is empty or lists every node once. -/
theorem agrees_of_calls [LawfulVertex ν] (calls : List (Call ν)) :
    ((perform calls).nodes.map Vertex.name).Nodup ∧
      (∀ name id, (perform calls).indexOf? name = some id ↔
        ∃ node, (perform calls).nodes[id]? = some node ∧ Vertex.name node = name) ∧
      ((perform calls).order = [] ∨
        (perform calls).order.Perm (List.range (perform calls).size)) := by
  have h := sound_perform calls
  exact ⟨h.distinct, h.indexed, h.ordered⟩

/-- Calls of which two are refused, and one is refused half-way: the second node has the name of the
first. -/
def crossed : List (Call (Node Float32)) :=
  [.add (.ofLayer (.input 1) "a" []), .add (.ofLayer .identity "b" [⟨"a", 0⟩]), .sort,
    .rename 0 "b", .rename 0 "c",
    .sort, .revise "b" ⟨fun a => { a with inputs := [⟨"c", 0⟩] }, fun _ => rfl⟩,
    .replace [.ofLayer (.input 1) "x" [], .ofLayer .identity "x" [⟨"x", 0⟩],
      .ofLayer .identity "y" [⟨"x", 0⟩]]]

theorem crossed_agrees : (perform crossed).nodes.map Vertex.name = ["x"] ∧
    ((perform crossed).nodes.map Vertex.name).Nodup ∧
    (∀ name id, (perform crossed).indexOf? name = some id ↔
      ∃ node, (perform crossed).nodes[id]? = some node ∧ Vertex.name node = name) ∧
    ((perform crossed).order = [] ∨
      (perform crossed).order.Perm (List.range (perform crossed).size)) :=
  ⟨rfl, agrees_of_calls crossed⟩

end IndexedGraph

end LayerGraph
