import LayerGraph.Proofs.Lowering.Fusion
import LayerGraph.Proofs.Lowering.Subdivision

/-!
# Dangling references

An input that names no node can be caught by a name that lowering gives before inputs are resolved:
the new name of a reserved one, or that of an activation. The name of a loss and that of a fan-out
node catch nothing.
-/

namespace LayerGraph.Lowering

variable {α : Type} {nodes nodes' : List (Node α)} {name : String}

section Renaming

theorem map_fst_renamings (names : List String) :
    (renamings names).map (·.1) = names.filter (· ∈ reservedNames) := by
  have hstep : ∀ (rest : List String) (pairs : List (String × String)),
      (rest.foldl (fun pairs name => pairs ++ [(name, freshName name (names ++ pairs.map (·.2)))])
        pairs).map (·.1) = pairs.map (·.1) ++ rest := by
    intro rest
    induction rest with
    | nil => simp
    | cons name rest ih =>
      intro pairs
      rw [List.foldl_cons, ih]
      simp
  exact (hstep _ []).trans (List.nil_append _)

/-- Only names that are given are renamed. -/
theorem newName_of_not_mem (h : name ∉ nodes.map (·.name)) : newName nodes name = name := by
  rcases renamed_eq_or (renamings (nodes.map (·.name))) name with ⟨pair, hpair, rfl, -⟩ | heq
  · have hmem : pair.1 ∈ (renamings (nodes.map (·.name))).map (·.1) := List.mem_map_of_mem hpair
    rw [map_fst_renamings] at hmem
    exact absurd (List.mem_filter.mp hmem).1 h
  · exact heq

end Renaming

section Expand

variable [Zero α]

/-- Splitting activations leaves an input alone that names none of the nodes to be split. -/
theorem mentions_splitFrom {before rest : List (Node α)} (h : Mentions (before ++ rest) name)
    (hname : name ∉ rest.map (·.name)) : Mentions (splitFrom before rest) name := by
  induction hlen : rest.length generalizing before rest with
  | zero =>
    obtain rfl := List.length_eq_zero_iff.mp hlen
    rw [splitFrom]
    rwa [List.append_nil] at h
  | succ length ih =>
    obtain ⟨a, rest, rfl⟩ := List.exists_cons_of_length_eq_add_one hlen
    rw [List.map_cons, List.mem_cons, not_or] at hname
    rw [splitFrom]
    split
    · refine ih ?_ ?_ (by simpa using hlen)
      · obtain ⟨r, c, hread, hc⟩ := mentions_iff_reads.mp h
        refine mentions_iff_reads.mpr ⟨r, c, reads_splitStep_iff.mpr (.inl ⟨c, hread, ?_⟩), hc⟩
        exact if_neg fun hcond => hname.1 (hc.symm.trans hcond.2)
      · rw [List.map_map]
        exact hname.2
    · refine ih ?_ hname.2 (by simpa using hlen)
      rwa [List.append_assoc, List.singleton_append]

/-- An input that names no node is left as it is unless it names what a node is renamed to. -/
theorem mentions_expand (h : Mentions nodes name) (hname : name ∉ nodes.map (·.name))
    (hnew : name ∉ (nodes.map (·.name)).map (newName nodes)) : Mentions (expand nodes) name := by
  obtain ⟨r, c, hread, rfl⟩ := mentions_iff_reads.mp h
  have hwired : Mentions (wireDefaults (renameReserved nodes)) c.name := by
    rw [wireDefaults_renameReserved]
    refine mentions_iff_reads.mpr ⟨_, _, reads_applyRenaming_iff.mpr ⟨r, c,
        reads_wireDefaults hread, rfl, rfl⟩, ?_⟩
    exact newName_of_not_mem hname
  rw [← List.nil_append (wireDefaults _)] at hwired
  apply mentions_splitFrom hwired
  rwa [names_wireDefaults_renameReserved]

variable {rules : List FusionRule} {loss : Option String} {u : Unit}

/-- An input that names no node of the expanded ones is caught by the name of a loss at most, and if
it is, no terminal is left. -/
theorem not_hasTerminal_of_lower (h : lower loss rules nodes = .ok u nodes')
    (hd : (nodes'.map (·.name)).Nodup) (hmentions : Mentions (expand nodes) name)
    (hname : name ∉ (expand nodes).map (·.name)) : ¬ HasTerminal nodes' := by
  obtain ⟨n₁, n₂, n₃, u₁, u₂, hadd, hfuse, hset, hsep⟩ := stages_of_lower h
  have hd₃ := hd.sublist (names_sublist_separateReaders hsep)
  have hd₂ : (n₂.map (·.name)).Nodup := setOutputs_names hset ▸ hd₃
  have hr₃ := resolved_setOutputs hset hd₂
  -- What is left dangling makes the inputs unresolved.
  have hcaught : Mentions n₁ name → name ∈ n₁.map (·.name) := by
    intro hm
    by_contra hn
    obtain ⟨hm, hn⟩ := mentions_of_fuse hfuse hm hn
    obtain ⟨r, c, hread, rfl⟩ := mentions_iff_reads.mp hm
    exact hn (setOutputs_names hset ▸ hr₃ r c ((reads_setOutputs_iff hset).mpr hread))
  rcases addLoss_eq_ok hadd with rfl | ⟨kind, terminal, hloss, only, rfl⟩
  · exact absurd (hcaught hmentions) hname
  · have hlast := hcaught (hmentions.append_left _)
    rw [List.map_append, List.mem_append] at hlast
    obtain rfl := List.mem_singleton.mp (hlast.resolve_left hname)
    have hall := mentions_of_fuse_concat hloss only rfl rfl hmentions hfuse
    have hl₃ := fun a (ha : a ∈ n₃) => listed_setOutputs hset hd₂ ha
    rw [(separated_of_ok hr₃ hl₃ hsep hd).hasTerminal_iff hr₃ hl₃]
    rintro ⟨x, hx, hunread⟩
    rw [setOutputs_names hset] at hx
    obtain ⟨r, c, hread, rfl⟩ := mentions_iff_reads.mp (hall x hx)
    exact hunread r.name (feeds_of_reads ((reads_setOutputs_iff hset).mpr hread))

/-- If lowering succeeds and leaves a terminal, a dangling reference has been caught by the new name
of a reserved one or by that of an activation. -/
theorem caught_of_lower (h : lower loss rules nodes = .ok u nodes')
    (hd : (nodes'.map (·.name)).Nodup) (hterminal : HasTerminal nodes')
    (hmentions : Mentions nodes name) (hname : name ∉ nodes.map (·.name)) :
    (∃ p ∈ nodes.map (·.name), p ∈ reservedNames ∧ name = newName nodes p) ∨
      ∃ p ∈ splitting nodes, name = activationName (newName nodes p) := by
  by_contra hfree
  rw [not_or] at hfree
  have hnew : name ∉ (nodes.map (·.name)).map (newName nodes) := by
    intro hmem
    obtain ⟨p, hp, rfl⟩ := List.mem_map.mp hmem
    by_cases hreserved : p ∈ reservedNames
    · exact hfree.1 ⟨p, hp, hreserved, rfl⟩
    · rw [newName_of_not_reserved hreserved] at hname
      exact hname hp
  refine not_hasTerminal_of_lower h hd (mentions_expand hmentions hname hnew) ?_ hterminal
  rw [(names_expand nodes).mem_iff, List.mem_append, not_or]
  refine ⟨hnew, fun hmem => ?_⟩
  obtain ⟨p, hp, rfl⟩ := List.mem_map.mp hmem
  exact hfree.2 ⟨p, hp, rfl⟩

end Expand

end LayerGraph.Lowering
