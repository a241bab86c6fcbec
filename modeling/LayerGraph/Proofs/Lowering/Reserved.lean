import LayerGraph.Proofs.Lowering.Renaming
import LayerGraph.Single

/-!
# Names that are forced

A node whose name is reserved gets the first numbered name that no node has. The others keep their
names, and every reference that named a node names the same node afterwards, whatever numbered names
are there already.
-/

namespace LayerGraph

/-- A fresh name depends on which numbered names are taken, and on nothing else. -/
theorem freshFrom_congr {base : String} {taken taken' : List String} {i : Nat}
    (h : ∀ j, i ≤ j → (base ++ toString j ∈ taken ↔ base ++ toString j ∈ taken')) :
    freshFrom base taken i = freshFrom base taken' i := by
  induction taken, i using freshFrom.induct base generalizing taken' with
  | case1 taken i hmem ih =>
    rw [freshFrom, if_pos hmem]
    conv_rhs => rw [freshFrom, if_pos ((h i (Nat.le_refl i)).mp hmem)]
    refine ih fun j hj => ?_
    have hne : base ++ toString j ≠ base ++ toString i := fun heq => by
      have := toString_nat_injective ((String.append_right_inj _).mp heq)
      omega
    rw [List.mem_erase_of_ne hne, List.mem_erase_of_ne hne]
    exact h j (by omega)
  | case2 taken i hmem =>
    rw [freshFrom, if_neg hmem]
    conv_rhs => rw [freshFrom, if_neg fun hm => hmem ((h i (Nat.le_refl i)).mpr hm)]

theorem freshName_congr {base : String} {taken taken' : List String}
    (h : ∀ x, x ∈ taken ↔ x ∈ taken') :
    freshName base taken = freshName base taken' := freshFrom_congr fun _ _ => h _

/-- The search for a fresh name takes the first number whose name is free, after as many steps as
there are names at most. -/
theorem freshFrom_first (base : String) (taken : List String) (i : Nat) :
    ∃ j, i ≤ j ∧ j ≤ i + taken.length ∧ freshFrom base taken i = base ++ toString j ∧
      ∀ k, i ≤ k → k < j → base ++ toString k ∈ taken := by
  fun_induction freshFrom base taken i with
  | case1 taken i hmem ih =>
    obtain ⟨j, hij, hbound, heq, hbefore⟩ := ih
    rw [List.length_erase_of_mem hmem] at hbound
    have hpos := List.length_pos_of_mem hmem
    refine ⟨j, by omega, by omega, heq, fun k hik hkj => ?_⟩
    obtain rfl | hlt := Nat.eq_or_lt_of_le hik
    · exact hmem
    · exact List.mem_of_mem_erase (hbefore k hlt hkj)
  | case2 taken i => exact ⟨i, Nat.le_refl i, by omega, rfl, fun k hik hki => absurd hki (by omega)⟩

namespace Lowering

variable {α : Type} {nodes : List (Node α)}

section Renaming

variable {names names' : List String}

/-- What comes before a reserved name is no other reserved name. -/
theorem eq_of_reserved {a b s t : String} (ha : a ∈ reservedNames) (hb : b ∈ reservedNames)
    (h : a ++ s = b ++ t) : a = b := by
  have hlists := congrArg String.toList h
  rw [String.toList_append, String.toList_append] at hlists
  simp only [reservedNames, List.mem_cons, List.not_mem_nil, or_false] at ha hb
  rcases ha with rfl | rfl | rfl <;> rcases hb with rfl | rfl | rfl <;>
    first | rfl | exact absurd (List.cons.inj hlists).1 (by decide)

/-- Each reserved name gets the name that is fresh among the given ones. -/
theorem renamings_eq (hd : names.Nodup) :
    renamings names = (names.filter (· ∈ reservedNames)).map fun name =>
    (name, freshName name names) := by
  -- The new names of others do not stand in the way, as they start with another letter.
  have hstep : ∀ rest done : List String, (done ++ rest).Nodup →
      (∀ name ∈ done ++ rest, name ∈ reservedNames) →
      rest.foldl (fun pairs name => pairs ++ [(name, freshName name (names ++ pairs.map (·.2)))])
          (done.map fun name => (name, freshName name names)) =
        (done ++ rest).map fun name => (name, freshName name names) := by
    intro rest
    induction rest with
    | nil => exact fun done _ _ => by rw [List.append_nil]; rfl
    | cons name rest ih =>
      intro done hnodup hreserved
      have hfresh : freshName name (names ++ (done.map fun name => (name, freshName name names)).map
          (·.2)) = freshName name names := by
        refine freshFrom_congr fun j _ => ?_
        rw [List.mem_append, or_iff_left]
        rw [List.map_map, List.mem_map]
        rintro ⟨other, hother, heq⟩
        obtain ⟨k, hk⟩ := exists_freshName_eq other names
        have hsame : other = name :=
          eq_of_reserved (hreserved _ (by simp [hother])) (hreserved _ (by simp))
          (hk.symm.trans heq)
        exact (List.nodup_append.mp hnodup).2.2 other hother name List.mem_cons_self hsame
      have hcons : done ++ name :: rest = (done ++ [name]) ++ rest := by simp
      rw [List.foldl_cons, hfresh, hcons, ← ih (done ++ [name]) (hcons ▸ hnodup)
        (hcons ▸ hreserved), List.map_append]
      rfl
  exact hstep _ [] (hd.filter _) fun name hn => by simpa using (List.mem_filter.mp hn).2

theorem renamed_renamings (hd : names.Nodup) (name : String) : renamed (renamings names) name =
    if name ∈ names ∧ name ∈ reservedNames then freshName name names else name := by
  rw [renamed, renamings_eq hd]
  have hmem : name ∈ names.filter (· ∈ reservedNames) ↔ name ∈ names ∧
      name ∈ reservedNames := by simp
  split
  · next h => rw [List.lookup_graph _ (hmem.mpr h), Option.getD_some]
  · next h =>
    have hnone : ((names.filter (· ∈ reservedNames)).map
        fun name => (name, freshName name names)).lookup name = none := by
      refine List.lookup_eq_none_iff.mpr fun p hp => ?_
      obtain ⟨other, hother, rfl⟩ := List.mem_map.mp hp
      have hne : name ≠ other := fun heq => h (hmem.mp (heq ▸ hother))
      simpa using hne
    rw [hnone, Option.getD_none]

/-- A name with a number behind it is not reserved. -/
theorem numbered_not_reserved {base : String} (hbase : base ∈ reservedNames) (j : Nat) :
    base ++ toString j ∉ reservedNames := by
  intro hmem
  have hsame : base = base ++ toString j :=
    eq_of_reserved hbase hmem (String.append_empty (s := base ++ toString j)).symm
  have hempty : toString j = "" :=
    (String.append_right_inj base).mp (hsame.symm.trans String.append_empty.symm)
  have hdigits : Nat.toDigits 10 j = [] :=
    (Nat.toList_repr (n := j)).symm.trans (congrArg String.toList hempty)
  exact Nat.toDigits_ne_nil hdigits

end Renaming

/-- The node at this position has the name. -/
def Stands (nodes : List (Node α)) (name : String) (i : Nat) : Prop :=
  ∃ a, nodes[i]? = some a ∧ a.name = name

/-- A reference and the one that takes its place: what is named before is named afterwards, and what
names nothing stays. -/
structure Refers (before after : List (Node α)) (name name' : String) : Prop where
  stands : ∀ i, Stands before name i → Stands after name' i
  kept : (∀ i, ¬ Stands before name i) → name' = name

/-- The name of a node afterwards: the same, or the first one with a number behind it that no node
has. -/
structure Relabels (names : List String) (old new : String) : Prop where
  kept : old ∉ reservedNames → new = old
  forced : old ∈ reservedNames →
    ∃ j ≤ names.length, new = old ++ toString j ∧ new ∉ names ∧ ∀ i < j, old ++ toString i ∈ names

/-- A node under its name of afterwards; it refers to what it has referred to. -/
structure Relabeled (before after : List (Node α)) (a b : Node α) : Prop where
  name : Relabels (before.map (·.name)) a.name b.name
  inputs : List.Forall₂ (fun c c' => c'.index = c.index ∧ Refers before after c.name c'.name)
    a.inputs b.inputs
  sharedFrom : Option.Rel (Refers before after) a.sharedFrom b.sharedFrom
  rest : b = { a with name := b.name, inputs := b.inputs, sharedFrom := b.sharedFrom }

theorem Relabels.not_reserved {names : List String} {old new : String}
    (h : Relabels names old new) : new ∉ reservedNames := by
  by_cases hres : old ∈ reservedNames
  · obtain ⟨j, -, rfl, -⟩ := h.forced hres
    exact numbered_not_reserved hres j
  · rwa [h.kept hres]

section Relabel

variable (hd : (nodes.map (·.name)).Nodup)
include hd

theorem refers_renamed (name : String) :
    Refers nodes (renameReserved nodes) name (renamed (renamings (nodes.map (·.name))) name) := by
  constructor
  · rintro i ⟨a, ha, rfl⟩
    exact ⟨_, by rw [renameReserved, List.getElem?_map, ha]; rfl, rfl⟩
  · intro hnone
    rw [renamed_renamings hd, if_neg]
    rintro ⟨hmem, -⟩
    obtain ⟨a, ha, hname⟩ := List.mem_map.mp hmem
    obtain ⟨i, hi⟩ := List.getElem?_of_mem ha
    exact hnone i ⟨a, hi, hname⟩

theorem relabels_renamed {name : String} (hname : name ∈ nodes.map (·.name)) :
    Relabels (nodes.map (·.name)) name (renamed (renamings (nodes.map (·.name))) name) := by
  rw [renamed_renamings hd]
  constructor
  · exact fun hres => if_neg fun h => hres h.2
  · intro hres
    rw [if_pos ⟨hname, hres⟩]
    obtain ⟨j, -, hbound, heq, hbefore⟩ := freshFrom_first name (nodes.map (·.name)) 0
    exact ⟨j, by omega, heq, freshName_not_mem name _, fun i hi => hbefore i (Nat.zero_le i) hi⟩

theorem relabeled_applyRenaming {a : Node α} (ha : a ∈ nodes) :
    Relabeled nodes (renameReserved nodes) a (applyRenaming (renamings (nodes.map (·.name))) a)
      where
  name := relabels_renamed hd (List.mem_map_of_mem ha)
  inputs := List.forall₂_map_right_iff.mpr (List.forall₂_same.mpr
    fun c _ => ⟨rfl, refers_renamed hd c.name⟩)
  sharedFrom := by
    change Option.Rel _ a.sharedFrom (a.sharedFrom.map _)
    cases a.sharedFrom with
    | none => exact .none
    | some owner => exact .some (refers_renamed hd owner)
  rest := rfl

/-- Forcing names takes nodes to nodes, one by one and in their order: names are distinct and none
is reserved, and what a reference means does not change. -/
theorem relabeled_of_renameReserved : ((renameReserved nodes).map (·.name)).Nodup ∧
    (∀ b ∈ renameReserved nodes, b.name ∉ reservedNames) ∧
    List.Forall₂ (Relabeled nodes (renameReserved nodes)) nodes (renameReserved nodes) := by
  have hall : List.Forall₂ (Relabeled nodes (renameReserved nodes)) nodes (renameReserved nodes) :=
    List.forall₂_map_right_iff.mpr (List.forall₂_same.mpr fun a ha => relabeled_applyRenaming hd ha)
  refine ⟨?_, fun b hb => ?_, hall⟩
  · rw [renameReserved, names_applyRenaming]
    exact nodup_map_renamed (isRenaming_renamings _) hd
  · obtain ⟨a, -, hab⟩ := exists_mem_of_forall₂ hall.flip hb
    exact hab.name.not_reserved

end Relabel

/-- An input of a reserved name whose first two numbered names are taken, and a node that shares the
weights of another one and bears a reserved name itself. -/
def crowded : List (Node Float32) := [
  .ofLayer (.input 1) "input" [],
  { Node.ofLayer (.fullyConnected 1 .zeros .zeros) "output" [⟨"input", 0⟩] with
    sharedFrom := some "input1" },
  .ofLayer .identity "input0" [⟨"output", 0⟩],
  .ofLayer (.fullyConnected 1 .zeros .zeros) "input1" [⟨"input0", 0⟩]]

theorem crowded_relabeled : (crowded.map (·.name)).Nodup ∧
    (renameReserved crowded).map (·.name) = ["input2", "output0", "input0", "input1"] ∧
    ((renameReserved crowded).map (·.name)).Nodup ∧
    (∀ b ∈ renameReserved crowded, b.name ∉ reservedNames) ∧
    List.Forall₂ (Relabeled crowded (renameReserved crowded)) crowded (renameReserved crowded) :=
  have hd : (crowded.map (·.name)).Nodup := by decide
  have hnames : (renameReserved crowded).map (·.name) = ["input2", "output0", "input0",
      "input1"] := by with_unfolding_all rfl
  ⟨hd, hnames, relabeled_of_renameReserved hd⟩

end Lowering

end LayerGraph
