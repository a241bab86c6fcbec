import LayerGraph.Proofs.Lowering.Renaming
import LayerGraph.Proofs.Lowering.Separate

/-!
# Activations as nodes

Behind each node whose activation is a property a node is put that reads slot 0 of it, and whoever
has read slot 0 reads slot 0 of the new node. This is done for one node after the other; as long as
the new names are new, it is the same as doing it for all of them at once.
-/

namespace LayerGraph.Lowering

variable {α : Type} {nodes : List (Node α)}

/-- The names of the nodes whose activations become nodes. -/
def splitting (nodes : List (Node α)) : List String := (nodes.filter splits).map (·.name)

theorem mem_splitting {p : String} :
    p ∈ splitting nodes ↔ ∃ a ∈ nodes, splits a = true ∧ a.name = p := by
  simp [splitting, and_assoc]

theorem splitting_subset : splitting nodes ⊆ nodes.map (·.name) := by
  intro p hp
  obtain ⟨a, ha, -, rfl⟩ := mem_splitting.mp hp
  exact List.mem_map_of_mem ha

/-- What a connection becomes when all activations are split at once. -/
def redirectAll (names : List String) (c : Connection) : Connection :=
  if c.index = 0 ∧ c.name ∈ names then ⟨activationName c.name, 0⟩ else c

theorem redirectAll_redirect {p : String} {names : List String} (h : activationName p ∉ names)
    (c : Connection) : redirectAll names (redirect p c) = redirectAll (p :: names) c := by
  obtain ⟨name, index⟩ := c
  by_cases hi : index = 0
  · subst hi
    by_cases hn : name = p
    · subst hn
      simp [redirectAll, redirect, h]
    · simp [redirectAll, redirect, hn]
  · simp [redirectAll, redirect, hi]

theorem redirectAll_of_not_mem {names : List String} {c : Connection} (h : c.name ∉ names) :
    redirectAll names c = c := if_neg fun hc => h hc.2

/-- The node once its activation is a node of its own. -/
def settled (a : Node α) : Node α := if splits a then { a with activation := .none } else a

variable [Zero α]

section SplitFrom

omit [Zero α] in
theorem splits_redirectNode (p : String) (a : Node α) : splits (redirectNode p a) = splits a := rfl

omit [Zero α] in
theorem filter_splits_redirect (p : String) (nodes : List (Node α)) :
    (nodes.map (redirectNode p)).filter splits = (nodes.filter splits).map (redirectNode p) := by
  rw [List.filter_map]
  rfl

omit [Zero α] in
theorem splitting_redirect (p : String) (nodes : List (Node α)) :
    splitting (nodes.map (redirectNode p)) = splitting nodes := by
  rw [splitting, filter_splits_redirect, List.map_map]
  rfl

omit [Zero α] in
theorem bare_settled_redirect (p : String) (a : Node α) :
    bare (settled (redirectNode p a)) = bare (settled a) := by
  unfold settled
  rw [splits_redirectNode]
  split
  · rfl
  · rfl

/-- What is added are activations, one for each node whose activation is split. -/
theorem perm_splitFrom (before rest : List (Node α)) :
    ((splitFrom before rest).map bare).Perm (before.map bare ++
      (rest.map (bare ∘ settled) ++ (rest.filter splits).map (bare ∘ activationNode))) := by
  induction hlen : rest.length generalizing before rest with
  | zero =>
    rw [List.length_eq_zero_iff.mp hlen, splitFrom]
    simp
  | succ length ih =>
    obtain ⟨a, rest, rfl⟩ := List.exists_cons_of_length_eq_add_one hlen
    rw [splitFrom]
    split
    · next hs =>
      refine (ih _ _ (by simpa using hlen)).trans ?_
      have hbefore : (before.map (redirectNode a.name)).map bare = before.map bare := by
        rw [List.map_map]
        rfl
      have hrest : (rest.map (redirectNode a.name)).map (bare ∘ settled) =
          rest.map (bare ∘ settled) := by
        rw [List.map_map]
        exact List.map_congr_left fun b _ => bare_settled_redirect a.name b
      have hnew : ((rest.filter splits).map (redirectNode a.name)).map (bare ∘ activationNode) =
          (rest.filter splits).map (bare ∘ activationNode) := by
        rw [List.map_map]
        rfl
      have ha : bare (settled a) = bare { redirectNode a.name a with activation := .none } := by
        rw [settled, if_pos hs]
        rfl
      rw [filter_splits_redirect, hnew, hrest, List.map_append, hbefore, List.append_assoc,
        List.filter_cons_of_pos hs]
      refine .append_left _ ?_
      simp only [List.map_cons, List.map_nil, List.cons_append, List.nil_append,
        Function.comp_apply, ha]
      exact (List.perm_middle.symm).cons _
    · next hs =>
      refine (ih _ _ (by simpa using hlen)).trans ?_
      have ha : bare (settled a) = bare a := by rw [settled, if_neg hs]
      rw [List.filter_cons_of_neg hs, List.map_append, List.append_assoc]
      simp [ha]

theorem names_splitFrom (before rest : List (Node α)) :
    ((splitFrom before rest).map (·.name)).Perm (before.map (·.name) ++
      (rest.map (·.name) ++ (splitting rest).map activationName)) := by
  have hname : ((·.name) : Node α → String) ∘ bare ∘ settled = (·.name) := by
    funext a
    simp only [Function.comp_apply, settled]
    split
    · rfl
    · rfl
  have h := (perm_splitFrom before rest).map (·.name)
  simp only [List.map_append, List.map_map, hname] at h
  rw [splitting, List.map_map]
  exact h

/-- What one split makes of the connections. -/
theorem reads_splitStep_iff {before rest : List (Node α)} {a : Node α} {r c : Connection} :
    Reads ((before.map (redirectNode a.name) ++
        [{ redirectNode a.name a with activation := .none }, activationNode a]) ++
        rest.map (redirectNode a.name)) r c ↔
      (∃ c₀, Reads (before ++ a :: rest) r c₀ ∧ redirect a.name c₀ = c) ∨
        (r = ⟨activationName a.name, 0⟩ ∧ c = ⟨a.name, 0⟩) := by
  have hmap : ∀ xs : List (Node α), Reads (xs.map (redirectNode a.name)) r c ↔
      ∃ c₀, Reads xs r c₀ ∧ redirect a.name c₀ = c := fun xs =>
    reads_map_iff (f := redirectNode a.name) (fun _ => rfl) fun _ => rfl
  have hnode : Reads [{ redirectNode a.name a with activation := .none }] r c ↔
      Reads ([a].map (redirectNode a.name)) r c := by
    rw [List.map_singleton, reads_singleton_iff, reads_singleton_iff]
  have hnew : Reads [activationNode a] r c ↔ r = ⟨activationName a.name, 0⟩ ∧ c = ⟨a.name, 0⟩ :=
    reads_ofLayer_iff
  rw [← List.singleton_append, reads_append_iff, reads_append_iff, reads_append_iff,
    hnode, hnew, ← hmap, ← List.singleton_append (l := rest), List.map_append, List.map_append,
    reads_append_iff, reads_append_iff]
  simp only [or_comm, or_left_comm]

theorem reads_splitFrom_iff {before rest : List (Node α)}
    (hd : ((splitFrom before rest).map (·.name)).Nodup) {r c : Connection} :
    Reads (splitFrom before rest) r c ↔
      (∃ c₀, Reads (before ++ rest) r c₀ ∧ redirectAll (splitting rest) c₀ = c) ∨
        ∃ p ∈ splitting rest, r = ⟨activationName p, 0⟩ ∧ c = ⟨p, 0⟩ := by
  induction hlen : rest.length generalizing before rest with
  | zero =>
    rw [List.length_eq_zero_iff.mp hlen, splitFrom]
    simp [splitting, redirectAll]
  | succ length ih =>
    obtain ⟨a, rest, rfl⟩ := List.exists_cons_of_length_eq_add_one hlen
    have hnames := (names_splitFrom before (a :: rest)).nodup_iff.mp hd
    rw [splitFrom] at hd ⊢
    split
    · next hs =>
      rw [if_pos hs] at hd
      have hsplitting : splitting (a :: rest) = a.name :: splitting rest := by simp [splitting, hs]
      -- The two names of the node are not among those of the nodes that are still to be split.
      obtain ⟨hself, hact⟩ : a.name ∉ splitting rest ∧ activationName a.name ∉ splitting rest := by
        have hd := (List.nodup_append.mp hnames).2.1
        rw [hsplitting, List.nodup_append] at hd
        obtain ⟨hd, -, hdisj⟩ := hd
        refine ⟨fun hm => (List.nodup_cons.mp hd).1 (splitting_subset hm), fun hm => ?_⟩
        exact hdisj _ (List.mem_cons_of_mem _ (splitting_subset hm)) _ (by simp) rfl
      rw [ih hd (by simpa using hlen), splitting_redirect, hsplitting]
      simp only [reads_splitStep_iff]
      constructor
      · rintro (⟨c₁, ⟨c₀, hr, rfl⟩ | ⟨rfl, rfl⟩, rfl⟩ | ⟨p, hp, h⟩)
        · exact .inl ⟨c₀, hr, (redirectAll_redirect hact c₀).symm⟩
        · exact .inr ⟨a.name, by simp, rfl, redirectAll_of_not_mem hself⟩
        · exact .inr ⟨p, by simp [hp], h⟩
      · rintro (⟨c₀, hr, rfl⟩ | ⟨p, hp, h⟩)
        · exact .inl ⟨_, .inl ⟨c₀, hr, rfl⟩, redirectAll_redirect hact c₀⟩
        · rcases List.mem_cons.mp hp with rfl | hp
          · exact .inl ⟨⟨a.name, 0⟩, .inr ⟨h.1, rfl⟩, by rw [h.2, redirectAll_of_not_mem hself]⟩
          · exact .inr ⟨p, hp, h⟩
    · next hs =>
      rw [if_neg hs] at hd
      have hsplitting : splitting (a :: rest) = splitting rest := by simp [splitting, hs]
      rw [ih hd (by simpa using hlen), hsplitting, List.append_assoc, List.singleton_append]

end SplitFrom

/-- What splitting the activations makes of the names, the layers and the connections. -/
theorem perm_splitActivations (nodes : List (Node α)) : ((splitActivations nodes).map bare).Perm
      (nodes.map (bare ∘ settled) ++ (nodes.filter splits).map (bare ∘ activationNode)) := by
  simpa [splitActivations] using perm_splitFrom [] nodes

theorem names_splitActivations (nodes : List (Node α)) :
    ((splitActivations nodes).map (·.name)).Perm
      (nodes.map (·.name) ++ (splitting nodes).map activationName) := by
  simpa [splitActivations] using names_splitFrom [] nodes

theorem reads_splitActivations_iff (hd : ((splitActivations nodes).map (·.name)).Nodup)
    {r c : Connection} : Reads (splitActivations nodes) r c ↔
      (∃ c₀, Reads nodes r c₀ ∧ redirectAll (splitting nodes) c₀ = c) ∨
        ∃ p ∈ splitting nodes, r = ⟨activationName p, 0⟩ ∧ c = ⟨p, 0⟩ :=
  reads_splitFrom_iff hd

end LayerGraph.Lowering
