import LayerGraph.Proofs.Lists
import LayerGraph.Proofs.Network.Growth

/-!
# What names stand for

A fragment that is attached takes names: its own, for its last member, and those of its inputs
behind its own, for the node that it is attached to. Names of connections are looked up among the
names taken so far, also those of a fragment that have just been put behind its name, and nobody
looks whether they name a node. So a connection keeps the name it has exactly if no fragment has
taken it, and names another node of the network otherwise.
-/

namespace LayerGraph.Network

variable {α : Type} {n n' : Network α} {node : Node α} {nodes : List (Node α)}
  {settings : NetworkSettings}

/-- A fragment as it has been attached. -/
structure Fragment where
  name : String
  /-- The names of its inputs. -/
  inputs : List String
  /-- The node it is attached to. -/
  attach : String
  /-- The name of the last member, if it has members other than inputs. -/
  last : Option String
deriving DecidableEq

namespace Fragment

/-- What a name stands for since the fragment has been attached, if the fragment takes that name. -/
def meaning? (f : Fragment) (name : String) : Option String :=
  if f.last.isSome ∧ name = f.name then f.last
  else if name ∈ f.inputs.map (f.name ++ ·) then some f.attach
  else none

/-- The table of the names a fragment takes. -/
def aliases (f : Fragment) : List (String × String) :=
  (f.last.map (f.name, ·)).toList ++ f.inputs.map fun x => (f.name ++ x, f.attach)

theorem lookup_map_const {keys : List String} {value name : String} :
    (keys.map (·, value)).lookup name = if name ∈ keys then some value else none := by
  induction keys with
  | nil => rfl
  | cons key keys ih =>
    rw [List.map_cons, List.lookup_cons, ih]
    by_cases h : name = key
    · simp [h]
    · simp [h, beq_false_of_ne h]

theorem lookup_aliases (f : Fragment) (name : String) :
    f.aliases.lookup name = f.meaning? name := by
  have hinputs : (f.inputs.map fun x => (f.name ++ x, f.attach)) = (f.inputs.map (f.name ++ ·)).map
      (·, f.attach) := by
    rw [List.map_map]
    rfl
  unfold aliases meaning?
  rw [List.lookup_append, hinputs, lookup_map_const]
  cases f.last with
  | none => simp
  | some last =>
    by_cases h : name = f.name
    · simp [h]
    · simp [h, List.lookup_cons, beq_false_of_ne h]

theorem lookup_flatMap_aliases (fragments : List Fragment) (name : String) :
    (fragments.flatMap aliases).lookup name = fragments.findSome? (·.meaning? name) := by
  induction fragments with
  | nil => rfl
  | cons f fragments ih =>
    rw [List.flatMap_cons, List.lookup_append, lookup_aliases, ih, List.findSome?_cons]
    cases f.meaning? name <;> rfl

/-- A name stands for the last member or for the node that the fragment is attached to. -/
theorem meaning?_eq_some {f : Fragment} {name target : String} (h : f.meaning? name = some target) :
    f.last = some target ∨ target = f.attach := by
  unfold meaning? at h
  split at h
  · exact .inl h
  · split at h
    · exact .inr (Option.some.inj h).symm
    · cases h

end Fragment

section Extend

/-- The names of the inputs among the members. -/
def inputNames (nodes : List (Node α)) : List String := (nodes.filter (·.isSource)).map (·.name)

/-- The fragment as the network `n` has taken it in when it became `n'`. -/
def attached (n n' : Network α) (nodes : List (Node α)) (fragment : String) : Fragment where
  name := fragment
  inputs := inputNames nodes
  attach := (n.graph.nodes.getLast?.map (·.name)).getD ""
  last := if nodes.all (·.isSource) then none else n'.graph.nodes.getLast?.map (·.name)

theorem add_eq_ok {u : Unit} (h : add node n = .ok u n') : n' = n.grownBy node := by
  cases hn : n.isCompiled with
  | true =>
    unfold add at h
    rw [Action.bind_of_ok (Action.get_apply n)] at h
    dsimp only at h
    rw [if_pos hn] at h
    cases h
  | false =>
    rw [add_apply hn] at h
    split at h
    · cases h
    · cases h
      rfl

/-- A fragment that is attached adds all its members, and the names it takes to those taken
before. -/
theorem extend_eq_ok {fragment : String} {u : Unit} (h : extend nodes fragment n = .ok u n') :
    ∃ last, n.graph.nodes.getLast? = some last ∧
      n'.graph = (n.grown (grafts nodes fragment last.name)).graph ∧
      n'.aliases = (attached n n' nodes fragment).aliases ++ n.aliases := by
  unfold extend at h
  rw [Action.bind_of_ok (Action.get_apply n)] at h
  obtain ⟨hopen, h⟩ := Action.guard_eq_ok_iff.mp h
  obtain ⟨-, h⟩ := Action.guard_eq_ok_iff.mp h
  cases hlast : n.graph.nodes.getLast? with
  | none =>
    rw [hlast] at h
    cases h
  | some last =>
    rw [hlast] at h
    dsimp only at h
    have hloop : ((nodes.filter (!·.isSource)).forM fun node => add (graft fragment last.name
        ((nodes.filter (·.isSource)).map (·.name)) (nodes.map (·.name)) node)) =
          (grafts nodes fragment last.name).forM add := List.forM_map.symm
    rw [hloop] at h
    obtain ⟨_, m, hall, h⟩ := Action.bind_eq_ok_iff.mp h
    have hgrown := @forM_add _ _ (grafts nodes fragment last.name) (by simpa using hopen)
    rcases hgrown with hok | ⟨_, _, _, -, hfails, -⟩
    · rw [hok] at hall
      cases hall
      rw [Action.bind_of_ok (Action.modify_apply _ _)] at h
      refine ⟨last, rfl, ?_⟩
      have hkept : ((nodes.filter (!·.isSource)).isEmpty = true) ↔
          nodes.all (·.isSource) = true := by
        simp [List.isEmpty_iff, List.filter_eq_nil_iff]
      split at h
      · next hsome =>
        cases h
        have hall : nodes.all (·.isSource) = false := by simpa [hkept] using hsome
        refine ⟨rfl, ?_⟩
        simp [attached, Fragment.aliases, hall, hlast, inputNames, grown_aliases, Function.comp_def]
      · next hnone =>
        cases h
        have hall : nodes.all (·.isSource) = true := by simpa [hkept] using hnone
        refine ⟨rfl, ?_⟩
        simp [attached, Fragment.aliases, hall, hlast, inputNames, grown_aliases]
    · rw [hfails] at hall
      cases hall

theorem adopted_inputs (n : Network α) (node : Node α) :
    (n.adopted node).inputs = (n.resolveAliases node).inputs := by
  unfold adopted nameNode
  split <;> rfl

/-- The nodes that are added one after the other: their inputs are looked up, and names that are
given are kept. -/
theorem exists_grown (n : Network α) (nodes : List (Node α)) : ∃ copies,
    (n.grown nodes).graph.nodes = n.graph.nodes ++ copies ∧ List.Forall₂ (fun node copy =>
      (node.name ≠ "" → copy.name = node.name) ∧ copy.inputs = (n.resolveAliases node).inputs)
        nodes copies := by
  induction nodes generalizing n with
  | nil => exact ⟨[], (List.append_nil _).symm, .nil⟩
  | cons node nodes ih =>
    obtain ⟨copies, hnodes, hcopies⟩ := ih (n.grownBy node)
    exact ⟨n.adopted node :: copies, hnodes.trans (List.append_assoc _ [_] copies),
      .cons ⟨adopted_name_of_ne, adopted_inputs n node⟩ hcopies⟩

end Extend

/-- The networks that are assembled by adding nodes and attaching the fragments, the last one
first. -/
inductive Assembled (settings : NetworkSettings) : List Fragment → Network α → Prop where
  | start : Assembled settings [] (ofSettings settings)
  | add {fragments : List Fragment} {n n' : Network α} (node : Node α)
      (before : Assembled settings fragments n) (ok : Network.add node n = .ok () n') : Assembled
        settings fragments n'
  | extend {fragments : List Fragment} {n n' : Network α} (nodes : List (Node α))
      (fragment : String) (before : Assembled settings fragments n)
        (ok : Network.extend nodes fragment n = .ok () n') :
      Assembled settings (attached n n' nodes fragment :: fragments) n'

/-- What becomes of a connection: it keeps its name if no fragment has taken that, and otherwise
names the node that the name stands for since the last fragment that has taken it. -/
structure Stored (fragments : List Fragment) (n : Network α) (given stored : Connection) :
    Prop where
  index : stored.index = given.index
  kept : (∀ f ∈ fragments, f.meaning? given.name = none) → stored.name = given.name
  taken : ∀ later f earlier target, fragments = later ++ f :: earlier →
    (∀ g ∈ later, g.meaning? given.name = none) →
    f.meaning? given.name = some target → stored.name = target ∧ ∃ a ∈ n.graph.nodes,
    a.name = target

namespace Assembled

variable {fragments : List Fragment}

theorem aliases_eq (h : Assembled settings fragments n) :
    n.aliases = fragments.flatMap Fragment.aliases := by
  induction h with
  | start => rfl
  | add node before ok ih => rw [add_eq_ok ok, grownBy_aliases, ih]
  | extend nodes fragment before ok ih =>
    obtain ⟨last, -, -, haliases⟩ := extend_eq_ok ok
    rw [haliases, List.flatMap_cons, ih]

theorem meaning_eq (h : Assembled settings fragments n) (name : String) :
    meaning n.aliases name = (fragments.findSome? (·.meaning? name)).getD name := by
  rw [meaning, h.aliases_eq, Fragment.lookup_flatMap_aliases]

/-- Whatever a name stands for is a node. -/
theorem exists_node (h : Assembled settings fragments n) {f : Fragment} (hf : f ∈ fragments)
    {target : String} (ht : f.last = some target ∨ target = f.attach) : ∃ a ∈ n.graph.nodes,
      a.name = target := by
  induction h with
  | start => cases hf
  | add node before ok ih =>
    obtain ⟨a, ha, hname⟩ := ih hf
    rw [add_eq_ok ok]
    exact ⟨a, List.mem_append_left _ ha, hname⟩
  | @extend fragments n n' nodes fragment before ok ih =>
    obtain ⟨last, hlast, hgraph, -⟩ := extend_eq_ok ok
    have hsub : ∀ a ∈ n.graph.nodes, a ∈ n'.graph.nodes := fun a ha => by
      rw [hgraph]
      exact (prefix_grown n _).subset ha
    rcases List.mem_cons.mp hf with rfl | hf
    · rcases ht with ht | rfl
      · unfold attached at ht
        dsimp only at ht
        split at ht
        · cases ht
        · obtain ⟨a, ha, hname⟩ := Option.map_eq_some_iff.mp ht
          exact ⟨a, List.mem_of_getLast? ha, hname⟩
      · refine ⟨last, hsub last (List.mem_of_getLast? hlast), ?_⟩
        simp [attached, hlast]
    · obtain ⟨a, ha, hname⟩ := ih hf
      exact ⟨a, hsub a ha, hname⟩

/-- What a network makes of a connection that it takes in. -/
theorem stored (h : Assembled settings fragments n) (conn : Connection) :
    Stored fragments n conn { conn with name := meaning n.aliases conn.name } := by
  refine ⟨rfl, fun hnone => ?_, fun later f earlier target hsplit hlater hf => ?_⟩
  · dsimp only
    rw [h.meaning_eq, List.findSome?_eq_none_iff.mpr hnone]
    rfl
  · subst hsplit
    have hmem : f ∈ later ++ f :: earlier := by simp
    refine ⟨?_, h.exists_node hmem (Fragment.meaning?_eq_some hf)⟩
    dsimp only
    rw [h.meaning_eq, List.findSome?_append, List.findSome?_eq_none_iff.mpr hlater,
      List.findSome?_cons, hf]
    rfl

theorem stored_inputs (h : Assembled settings fragments n) (node : Node α) :
    List.Forall₂ (Stored fragments n) node.inputs (n.resolveAliases node).inputs :=
  List.forall₂_map_right_iff.mpr (List.forall₂_same.mpr fun conn _ => h.stored conn)

end Assembled

/-- In a network that has been assembled by adding nodes and attaching fragments, a node that is
added keeps its connections but for the names that fragments have taken. The same holds for the
members of one more fragment, once what reads an input of the fragment reads the last node instead,
and the names of all others are put behind the fragment's name. -/
theorem stored_of_assembled {fragments : List Fragment} (h : Assembled settings fragments n) :
    (∀ node n', add node n = .ok () n' → ∃ a, n'.graph.nodes = n.graph.nodes ++ [a] ∧
      (node.name ≠ "" → a.name = node.name) ∧
      List.Forall₂ (Stored fragments n) node.inputs a.inputs) ∧
    ∀ nodes fragment n', extend nodes fragment n = .ok () n' → ∃ last copies,
      n.graph.nodes.getLast? = some last ∧ n'.graph.nodes = n.graph.nodes ++ copies ∧
      List.Forall₂ (fun member copy => (member.name ≠ "" → copy.name = fragment ++ member.name) ∧
        List.Forall₂ (fun conn => Stored fragments n
          ⟨if conn.name ∈ inputNames nodes then last.name else fragment ++ conn.name, conn.index⟩)
          member.inputs copy.inputs) (nodes.filter (!·.isSource)) copies := by
  refine ⟨fun node n' hadd => ?_, fun nodes fragment n' hextend => ?_⟩
  · rw [add_eq_ok hadd]
    exact ⟨n.adopted node, rfl, adopted_name_of_ne, adopted_inputs n node ▸ h.stored_inputs node⟩
  · obtain ⟨last, hlast, hgraph, -⟩ := extend_eq_ok hextend
    obtain ⟨copies, hnodes, hcopies⟩ := exists_grown n (grafts nodes fragment last.name)
    refine ⟨last, copies, hlast, by rw [hgraph, hnodes], ?_⟩
    refine (List.forall₂_map_left_iff.mp hcopies).imp fun member copy ⟨hname, hinputs⟩ =>
      ⟨fun hgiven => ?_, ?_⟩
    · have hgraft : (graft fragment last.name (inputNames nodes) (nodes.map (·.name)) member).name =
          fragment ++ member.name :=
        if_neg hgiven
      refine (hname ?_).trans hgraft
      exact fun hempty => hgiven (String.append_eq_empty_iff.mp (hgraft.symm.trans hempty)).2
    · rw [hinputs]
      exact List.forall₂_map_left_iff.mp
        (h.stored_inputs (graft fragment last.name (inputNames nodes) (nodes.map (·.name)) member))

section Crowded

/-- A fragment of one member behind an input. -/
def copying (a b : String) : List (Node Float32) :=
  [.ofLayer (.input 1) a [], .ofLayer .identity b [⟨a, 0⟩]]

/-- The fragment as it is attached to `x`. -/
def crowding : Fragment := ⟨"pq", ["a"], "x", some "pqb"⟩

/-- A node has a name that a fragment has taken before. -/
def crowded : Network Float32 :=
  { ofSettings ⟨1, true, none, []⟩ with
    graph := ⟨[.ofLayer (.input 1) "x" [], .ofLayer .identity "pqb" [⟨"x", 0⟩],
        .ofLayer .identity "pq" [⟨"x", 0⟩]], []⟩
    aliases := [("pq", "pqb"), ("pqa", "x")] }

/-- The network before that node is added. -/
def uncrowded : Network Float32 :=
  { crowded with graph := ⟨[.ofLayer (.input 1) "x" [], .ofLayer .identity "pqb" [⟨"x", 0⟩]], []⟩ }

theorem attached_crowding : attached stem uncrowded (copying "a" "b") "pq" = crowding := rfl

theorem assembled_crowded : Assembled ⟨1, true, none, []⟩ [crowding] crowded := by
  have hx : Assembled ⟨1, true, none, []⟩ [] stem :=
    .add (.ofLayer (.input 1) "x" []) .start rfl
  have hpq : Assembled ⟨1, true, none, []⟩ [attached stem uncrowded (copying "a" "b") "pq"]
      uncrowded :=
    .extend (copying "a" "b") "pq" hx rfl
  rw [attached_crowding] at hpq
  exact .add (.ofLayer .identity "pq" [⟨"x", 0⟩]) hpq rfl

/-- What adding a reader of `pq` makes of it. -/
def crowdedRead : Network Float32 :=
  { crowded with graph := ⟨crowded.graph.nodes ++ [.ofLayer .identity "y" [⟨"pqb", 0⟩]], []⟩ }

theorem add_crowded : add (.ofLayer .identity "y" [⟨"pq", 0⟩]) crowded =
    .ok () crowdedRead := rfl

/-- A fragment with a member `qa` that is read, to be put behind the name `p`. -/
def chained : List (Node Float32) :=
  [.ofLayer (.input 1) "i" [], .ofLayer .identity "qa" [⟨"i", 0⟩],
    .ofLayer .identity "r" [⟨"qa", 0⟩]]

/-- The copies of its members. -/
def chainedCopies : List (Node Float32) :=
  [.ofLayer .identity "pqa" [⟨"pqb", 0⟩], .ofLayer .identity "pr" [⟨"x", 0⟩]]

/-- What attaching that fragment makes of it. -/
def crowdedExtended : Network Float32 :=
  { crowded with
    graph := ⟨crowded.graph.nodes ++ chainedCopies, []⟩
    aliases := [("p", "pr"), ("pi", "pq")] ++ crowded.aliases }

theorem extend_crowded : extend chained "p" crowded = .ok () crowdedExtended := rfl

theorem crowded_stored : (∃ a, crowdedRead.graph.nodes = crowded.graph.nodes ++ [a] ∧
      ("y" ≠ "" → a.name = "y") ∧ List.Forall₂ (Stored [crowding] crowded) [⟨"pq", 0⟩] a.inputs) ∧
    ∃ last copies, crowded.graph.nodes.getLast? = some last ∧
      crowdedExtended.graph.nodes = crowded.graph.nodes ++ copies ∧
      List.Forall₂ (fun member copy => (member.name ≠ "" → copy.name = "p" ++ member.name) ∧
        List.Forall₂ (fun conn => Stored [crowding] crowded
          ⟨if conn.name ∈ inputNames chained then last.name else "p" ++ conn.name, conn.index⟩)
          member.inputs copy.inputs) (chained.filter (!·.isSource)) copies :=
  ⟨(stored_of_assembled assembled_crowded).1 _ crowdedRead add_crowded,
    (stored_of_assembled assembled_crowded).2 chained "p" crowdedExtended extend_crowded⟩

/-- So a name that a fragment has taken hides the node of that name, from nodes that are added and
from members of another fragment. -/
theorem crowded_hides : Assembled ⟨1, true, none, []⟩ [crowding] crowded ∧
    (∃ a ∈ crowded.graph.nodes, a.name = "pq") ∧
    add (.ofLayer .identity "y" [⟨"pq", 0⟩]) crowded = .ok () crowdedRead ∧
    (crowdedRead.graph.nodes.getLast?.map fun a => (a.name, a.inputs)) = some ("y", [⟨"pqb", 0⟩]) ∧
    extend chained "p" crowded = .ok () crowdedExtended ∧
    (∃ a ∈ crowdedExtended.graph.nodes, a.name = "p" ++ "qa") ∧
    (crowdedExtended.graph.nodes.getLast?.map fun a => (a.name, a.inputs)) =
      some ("p" ++ "r", [⟨"x", 0⟩]) :=
  ⟨assembled_crowded, by decide, add_crowded, by decide, extend_crowded, by decide, by decide⟩

end Crowded

end LayerGraph.Network
