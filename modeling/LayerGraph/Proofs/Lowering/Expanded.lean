import LayerGraph.Lowering.Basic
import LayerGraph.Proofs.Lowering.Losses
import LayerGraph.Proofs.Lowering.Split

/-!
# Expanded nodes

The first three passes need nothing but the nodes: reserved names are renamed, missing inputs wired
and activations split. Each connection that is left to the user or filled in by default becomes one
connection, from the renamed node to the node that stands for what it names.
-/

namespace LayerGraph.Lowering

variable {α : Type} {nodes nodes' : List (Node α)}

/-- The name a node has after reserved names are renamed. -/
def newName (nodes : List (Node α)) (name : String) : String :=
  renamed (renamings (nodes.map (·.name))) name

/-- What stands for a slot: slot 0 of the activation behind it if there is one, else the slot
itself. -/
def target (nodes : List (Node α)) (c : Connection) : Connection :=
  if c.index = 0 ∧ c.name ∈ splitting nodes then ⟨activationName (newName nodes c.name), 0⟩
  else ⟨newName nodes c.name, c.index⟩

theorem newName_injOn {a b : String} (ha : a ∈ nodes.map (·.name)) (hb : b ∈ nodes.map (·.name))
    (h : newName nodes a = newName nodes b) : a = b :=
  renamed_injOn (isRenaming_renamings _) ha hb h

theorem newName_of_not_reserved {name : String} (h : name ∉ reservedNames) :
    newName nodes name = name := renamed_of_not_reserved (isRenaming_renamings _) h

theorem newName_ne_empty {name : String} (h : name ≠ "") : newName nodes name ≠ "" :=
  renamed_ne_empty (isRenaming_renamings _) h

theorem splits_applyRenaming (pairs : List (String × String)) (a : Node α) :
    splits (applyRenaming pairs a) = splits a := rfl

theorem splitting_map_applyRenaming (pairs : List (String × String)) (nodes : List (Node α)) :
    splitting (nodes.map (applyRenaming pairs)) = (splitting nodes).map (renamed pairs) := by
  simp only [splitting, List.filter_map, List.map_map]
  rfl

theorem splitting_wireDefaults (nodes : List (Node α)) :
    splitting (wireDefaults nodes) = splitting nodes := by
  have h := wireDefaults_map (f := fun a : Node α => (a.name, splits a)) (fun _ _ => rfl) nodes
  have hsplit : ∀ nodes : List (Node α), splitting nodes =
      ((nodes.map fun a => (a.name, splits a)).filter (·.2)).map (·.1) := fun nodes => by
    rw [List.filter_map, List.map_map]
    rfl
  rw [hsplit, h, hsplit]

theorem mem_wireAfter {previous : String} {a : Node α} (h : a ∈ wireAfter previous nodes) :
    a ∈ nodes ∨ ∃ b ∈ nodes, ∃ name, (name = previous ∨ name ∈ nodes.map (·.name)) ∧
      a = { b with inputs := [⟨name, 0⟩] } := by
  induction nodes generalizing previous with
  | nil => cases h
  | cons b nodes ih =>
    rcases List.mem_cons.mp h with h | h
    · split at h
      · exact .inr ⟨b, by simp, previous, .inl rfl, h⟩
      · exact .inl (by simp [h])
    · rcases ih h with h | ⟨b', hb', name, hname, heq⟩
      · exact .inl (by simp [h])
      · refine .inr ⟨b', by simp [hb'], name, .inr ?_, heq⟩
        rcases hname with rfl | hname
        · simp
        · simp [hname]

/-- What is not given is filled in by the first slot of a node. -/
theorem reads_or_default {r c : Connection} (h : Reads (wireDefaults nodes) r c) :
    Reads nodes r c ∨ c.index = 0 ∧ c.name ∈ nodes.map (·.name) := by
  obtain ⟨a, ha, hname, hc⟩ := h
  have hmem : a ∈ nodes ∨ ∃ b ∈ nodes, ∃ name ∈ nodes.map (·.name),
      a = { b with inputs := [⟨name, 0⟩] } := by
    cases nodes with
    | nil => cases ha
    | cons first nodes =>
      rcases List.mem_cons.mp ha with rfl | ha
      · exact .inl (by simp)
      · rcases mem_wireAfter ha with ha | ⟨b, hb, name, hn, heq⟩
        · exact .inl (by simp [ha])
        · exact .inr ⟨b, by simp [hb], name, by simpa using hn, heq⟩
  rcases hmem with ha | ⟨b, -, name, hn, rfl⟩
  · exact .inl ⟨a, ha, hname, hc⟩
  · have hc := List.mem_singleton.mp (List.mem_of_getElem? hc)
    rw [hc]
    exact .inr ⟨rfl, hn⟩

theorem resolved_wireDefaults (h : Resolved nodes) : Resolved (wireDefaults nodes) := by
  intro r c hr
  rw [wireDefaults_names]
  exact (reads_or_default hr).elim (h r c) (·.2)

theorem names_wireDefaults_renameReserved (nodes : List (Node α)) :
    (wireDefaults (renameReserved nodes)).map (·.name) = (nodes.map (·.name)).map
      (newName nodes) := by
  rw [wireDefaults_renameReserved, names_applyRenaming, wireDefaults_names]
  rfl

variable [Zero α]

/-- The nodes after the passes that need nothing but the nodes. -/
def expand (nodes : List (Node α)) : List (Node α) :=
  splitActivations (wireDefaults (renameReserved nodes))

theorem names_expand (nodes : List (Node α)) : ((expand nodes).map (·.name)).Perm
      ((nodes.map (·.name)).map (newName nodes) ++
      (splitting nodes).map fun p => activationName (newName nodes p)) := by
  have h := names_splitActivations (wireDefaults (renameReserved nodes))
  rw [names_wireDefaults_renameReserved, splitting_wireDefaults, renameReserved,
    splitting_map_applyRenaming, List.map_map (l := splitting nodes)] at h
  exact h

omit [Zero α] in
theorem redirectAll_renamed (h : Resolved nodes) {r c : Connection}
    (hc : Reads (wireDefaults nodes) r c) :
    redirectAll ((splitting nodes).map (newName nodes))
      (renameConnection (renamings (nodes.map (·.name))) c) = target nodes c := by
  have hname : c.name ∈ nodes.map (·.name) :=
    wireDefaults_names nodes ▸ resolved_wireDefaults h r c hc
  have hmem : newName nodes c.name ∈ (splitting nodes).map (newName nodes) ↔
      c.name ∈ splitting nodes := by
    constructor
    · intro hm
      obtain ⟨p, hp, heq⟩ := List.mem_map.mp hm
      exact newName_injOn (splitting_subset hp) hname heq ▸ hp
    · exact List.mem_map_of_mem
  exact if_congr (and_congr_right fun _ => hmem) rfl rfl

theorem reads_expand_iff (h : Resolved nodes) (hd : ((expand nodes).map (·.name)).Nodup)
    {r d : Connection} : Reads (expand nodes) r d ↔
      (∃ r' c, Reads (wireDefaults nodes) r' c ∧ ⟨newName nodes r'.name, r'.index⟩ = r ∧
        target nodes c = d) ∨
      ∃ p ∈ splitting nodes, r = ⟨activationName (newName nodes p), 0⟩ ∧
      d = ⟨newName nodes p, 0⟩ := by
  have hsplitting : splitting (wireDefaults (renameReserved nodes)) =
      (splitting nodes).map (newName nodes) := by
    rw [wireDefaults_renameReserved, splitting_map_applyRenaming, splitting_wireDefaults]
    rfl
  rw [expand, reads_splitActivations_iff hd, hsplitting, wireDefaults_renameReserved]
  simp only [reads_applyRenaming_iff]
  constructor
  · rintro (⟨_, ⟨r', c, hr, rfl, rfl⟩, rfl⟩ | ⟨_, hp, rfl, rfl⟩)
    · exact .inl ⟨r', c, hr, rfl, (redirectAll_renamed h hr).symm⟩
    · obtain ⟨p, hmem, rfl⟩ := List.mem_map.mp hp
      exact .inr ⟨p, hmem, rfl, rfl⟩
  · rintro (⟨r', c, hr, rfl, rfl⟩ | ⟨p, hp, rfl, rfl⟩)
    · exact .inl ⟨_, ⟨r', c, hr, rfl, rfl⟩, redirectAll_renamed h hr⟩
    · exact .inr ⟨_, List.mem_map.mpr ⟨p, hp, rfl⟩, rfl, rfl⟩

/-- An input of a node that was there before. -/
theorem reads_expand_newName_iff (h : Resolved nodes) (hd : ((expand nodes).map (·.name)).Nodup)
    {name : String} (hn : name ∈ nodes.map (·.name)) {i : Nat} {d : Connection} :
    Reads (expand nodes) ⟨newName nodes name, i⟩ d ↔
      ∃ c, Reads (wireDefaults nodes) ⟨name, i⟩ c ∧ target nodes c = d := by
  rw [reads_expand_iff h hd]
  constructor
  · rintro (⟨r, c, hr, heq, hc⟩ | ⟨p, hp, heq, -⟩)
    · obtain ⟨hname, rfl⟩ := Connection.mk.inj heq
      have hmem := hr.reader
      rw [wireDefaults_names] at hmem
      obtain rfl := newName_injOn hmem hn hname
      exact ⟨c, hr, hc⟩
    · have hdisj := (List.nodup_append.mp ((names_expand nodes).nodup_iff.mp hd)).2.2
      exact absurd (Connection.mk.inj heq).1
        (hdisj _ (List.mem_map_of_mem hn) _ (List.mem_map_of_mem hp))
  · rintro ⟨c, hr, hc⟩
    exact .inl ⟨⟨name, i⟩, c, hr, rfl, hc⟩

/-- The only input of an activation that has become a node. -/
theorem reads_expand_activation_iff (h : Resolved nodes) (hd : ((expand nodes).map (·.name)).Nodup)
    {p : String} (hp : p ∈ splitting nodes) {i : Nat} {d : Connection} :
    Reads (expand nodes) ⟨activationName (newName nodes p), i⟩ d ↔ i = 0 ∧
    d = ⟨newName nodes p, 0⟩ := by
  have hself : Reads (expand nodes) ⟨activationName (newName nodes p), 0⟩ ⟨newName nodes p, 0⟩ :=
    (reads_expand_iff h hd).mpr (.inr ⟨p, hp, rfl, rfl⟩)
  constructor
  · intro hr
    rcases (reads_expand_iff h hd).mp hr with ⟨r, c, hr', heq, -⟩ | ⟨q, -, heq, -⟩
    · have hdisj := (List.nodup_append.mp ((names_expand nodes).nodup_iff.mp hd)).2.2
      have hmem := hr'.reader
      rw [wireDefaults_names] at hmem
      exact absurd (Connection.mk.inj heq).1
        (hdisj _ (List.mem_map_of_mem hmem) _ (List.mem_map_of_mem hp))
    · obtain ⟨-, rfl⟩ := Connection.mk.inj heq
      exact ⟨rfl, hr.unique hd hself⟩
  · rintro ⟨rfl, rfl⟩
    exact hself

/-- Behind a node whose activation has become a node, the activation alone reads slot 0. -/
theorem reads_expand_split_iff (h : Resolved nodes) (hd : ((expand nodes).map (·.name)).Nodup)
    {p : String} (hp : p ∈ splitting nodes) {r : Connection} :
    Reads (expand nodes) r ⟨newName nodes p, 0⟩ ↔ r = ⟨activationName (newName nodes p), 0⟩ := by
  have hdisj := (List.nodup_append.mp ((names_expand nodes).nodup_iff.mp hd)).2.2
  have hpn := splitting_subset hp
  constructor
  · intro hr
    rcases (reads_expand_iff h hd).mp hr with ⟨r', c, hc, rfl, htarget⟩ | ⟨q, hq, rfl, heq⟩
    · unfold target at htarget
      split at htarget
      · next hsplit =>
        exact absurd (Connection.mk.inj htarget).1.symm
          (hdisj _ (List.mem_map_of_mem hpn) _ (List.mem_map_of_mem hsplit.2))
      · next hsplit =>
        obtain ⟨hname, hindex⟩ := Connection.mk.inj htarget
        have hcn := wireDefaults_names nodes ▸ resolved_wireDefaults h _ _ hc
        exact absurd ⟨hindex, newName_injOn hcn hpn hname ▸ hp⟩ hsplit
    · rw [(Connection.mk.inj heq).1]
  · rintro rfl
    exact (reads_expand_activation_iff h hd hp).mpr ⟨rfl, rfl⟩

theorem resolved_expand (h : Resolved nodes) (hd : ((expand nodes).map (·.name)).Nodup) :
    Resolved (expand nodes) := by
  intro r d hr
  refine (names_expand nodes).mem_iff.mpr (List.mem_append.mpr ?_)
  rcases (reads_expand_iff h hd).mp hr with ⟨r', c, hc, -, rfl⟩ | ⟨p, hp, -, rfl⟩
  · have hname := wireDefaults_names nodes ▸ resolved_wireDefaults h _ _ hc
    unfold target
    split
    · next hs => exact .inr (List.mem_map.mpr ⟨c.name, hs.2, rfl⟩)
    · exact .inl (List.mem_map_of_mem hname)
  · exact .inl (List.mem_map_of_mem (splitting_subset hp))

/-- The stages of a lowering that ends well. -/
theorem stages_of_lower {loss : Option String} {rules : List FusionRule} {u : Unit}
    (h : lower loss rules nodes = .ok u nodes') :
    ∃ nodes₁ nodes₂ nodes₃ : List (Node α), ∃ u₁ u₂ : Unit,
      addLoss loss (expand nodes) = .ok nodes₁ ∧ fuse rules nodes₁ = .ok u₁ nodes₂ ∧
      setOutputs nodes₂ = .ok nodes₃ ∧ separateReaders nodes₃ = .ok u₂ nodes' := by
  unfold lower at h
  obtain ⟨_, _, hmod, h⟩ := Action.bind_eq_ok_iff.mp h
  cases hmod
  obtain ⟨_, _, hmod, h⟩ := Action.bind_eq_ok_iff.mp h
  cases hmod
  obtain ⟨_, _, hmod, h⟩ := Action.bind_eq_ok_iff.mp h
  cases hmod
  obtain ⟨_, nodes₁, hadd, h⟩ := Action.bind_eq_ok_iff.mp h
  obtain ⟨u₁, nodes₂, hfuse, h⟩ := Action.bind_eq_ok_iff.mp h
  obtain ⟨_, nodes₃, hset, h⟩ := Action.bind_eq_ok_iff.mp h
  exact ⟨nodes₁, nodes₂, nodes₃, u₁, _, Action.update_eq_ok_iff.mp hadd, hfuse,
    Action.update_eq_ok_iff.mp hset, h⟩

end LayerGraph.Lowering
