import LayerGraph.Lowering.Names
import LayerGraph.Lowering.Wiring
import LayerGraph.Proofs.Lowering.Readers

/-!
# Reserved names and default wiring

Renaming the reserved names gives different nodes different names again, and a connection still
means the node that it has meant. Default wiring speaks of positions only, so it does not matter
whether nodes are renamed before or after it.
-/

namespace LayerGraph

theorem toString_nat_injective : Function.Injective (toString : Nat → String) := by
  intro i j h
  have hdigits : Nat.toDigits 10 i = Nat.toDigits 10 j := by
    rw [← Nat.toList_repr, ← Nat.toList_repr]
    exact congrArg String.toList h
  rw [← Nat.ofDigitChars_toDigits (b := 10) (n := i) (by decide) (by decide), hdigits,
    Nat.ofDigitChars_toDigits (by decide) (by decide)]

theorem freshFrom_spec (base : String) (taken : List String) (i : Nat) :
    freshFrom base taken i ∉ taken ∧ ∃ j, i ≤ j ∧ freshFrom base taken i = base ++ toString j := by
  fun_induction freshFrom base taken i with
  | case1 taken i hmem ih =>
    obtain ⟨hfresh, j, hij, heq⟩ := ih
    refine ⟨fun hm => hfresh ((List.mem_erase_of_ne fun h => ?_).mpr hm), j, by omega, heq⟩
    -- A later candidate has another number.
    rw [heq] at h
    have hnumber := toString_nat_injective ((String.append_right_inj base).mp h)
    omega
  | case2 taken i hnot => exact ⟨hnot, i, Nat.le_refl i, rfl⟩

theorem freshName_not_mem (base : String) (taken : List String) : freshName base taken ∉ taken :=
  (freshFrom_spec base taken 0).1

theorem exists_freshName_eq (base : String) (taken : List String) :
    ∃ j : Nat, freshName base taken = base ++ toString j := by
  obtain ⟨-, j, -, heq⟩ := freshFrom_spec base taken 0
  exact ⟨j, heq⟩

namespace Lowering

variable {α : Type} {nodes : List (Node α)}

/-- The new names are reserved names with a number behind them; they are new, and different from
each other. -/
structure IsRenaming (names : List String) (pairs : List (String × String)) : Prop where
  reserved : ∀ pair ∈ pairs, pair.1 ∈ reservedNames
  fresh : ∀ pair ∈ pairs, pair.2 ∉ names
  nodup : (pairs.map (·.2)).Nodup
  numbered : ∀ pair ∈ pairs, ∃ j : Nat, pair.2 = pair.1 ++ toString j

theorem isRenaming_renamings (names : List String) : IsRenaming names (renamings names) := by
  have hstep : ∀ (rest : List String) (pairs : List (String × String)),
      (∀ name ∈ rest, name ∈ reservedNames) → IsRenaming names pairs →
      IsRenaming names (rest.foldl
        (fun pairs name => pairs ++ [(name, freshName name (names ++ pairs.map (·.2)))])
          pairs) := by
    intro rest
    induction rest with
    | nil => exact fun _ _ h => h
    | cons name rest ih =>
      intro pairs hres h
      have hname := hres name (by simp)
      have hnew := freshName_not_mem name (names ++ pairs.map (·.2))
      rw [List.mem_append, not_or] at hnew
      refine ih _ (fun other ho => hres other (by simp [ho])) ⟨?_, ?_, ?_, ?_⟩
      · intro pair hp
        rcases List.mem_append.mp hp with hp | hp
        · exact h.reserved pair hp
        · rwa [List.mem_singleton.mp hp]
      · intro pair hp
        rcases List.mem_append.mp hp with hp | hp
        · exact h.fresh pair hp
        · rw [List.mem_singleton.mp hp]
          exact hnew.1
      · rw [List.map_append]
        refine List.nodup_append.mpr ⟨h.nodup, by simp, fun a ha b hb heq => hnew.2 ?_⟩
        have hb : b = freshName name (names ++ pairs.map (·.2)) := List.mem_singleton.mp hb
        rwa [heq, hb] at ha
      · intro pair hp
        rcases List.mem_append.mp hp with hp | hp
        · exact h.numbered pair hp
        · rw [List.mem_singleton.mp hp]
          exact exists_freshName_eq name _
  refine hstep _ [] (fun name hn => by simpa using (List.mem_filter.mp hn).2) ⟨?_, ?_, ?_, ?_⟩
  all_goals simp

section Renamed

variable {names : List String} {pairs : List (String × String)} (h : IsRenaming names pairs)

theorem renamed_eq_or (pairs : List (String × String)) (name : String) :
    (∃ pair ∈ pairs, pair.1 = name ∧ renamed pairs name = pair.2) ∨ renamed pairs name = name := by
  unfold renamed
  cases hl : pairs.lookup name with
  | none => exact .inr rfl
  | some new =>
    obtain ⟨l₁, l₂, rfl, -⟩ := List.lookup_eq_some_iff.mp hl
    exact .inl ⟨(name, new), by simp, rfl, rfl⟩

include h

theorem renamed_of_not_reserved {name : String} (hn : name ∉ reservedNames) :
    renamed pairs name = name := by
  rcases renamed_eq_or pairs name with ⟨pair, hp, rfl, -⟩ | heq
  · exact absurd (h.reserved pair hp) hn
  · exact heq

theorem renamed_injOn {a b : String} (ha : a ∈ names) (hb : b ∈ names)
    (heq : renamed pairs a = renamed pairs b) : a = b := by
  rcases renamed_eq_or pairs a with ⟨p, hp, rfl, hpa⟩ | hpa
  · rcases renamed_eq_or pairs b with ⟨q, hq, rfl, hqb⟩ | hqb
    · rw [hpa, hqb] at heq
      rw [List.inj_on_of_nodup_map h.nodup hp hq heq]
    · rw [hpa, hqb] at heq
      exact absurd (heq.symm ▸ hb) (h.fresh p hp)
  · rcases renamed_eq_or pairs b with ⟨q, hq, rfl, hqb⟩ | hqb
    · rw [hpa, hqb] at heq
      exact absurd (heq ▸ ha) (h.fresh q hq)
    · rwa [hpa, hqb] at heq

theorem nodup_map_renamed (hn : names.Nodup) : (names.map (renamed pairs)).Nodup :=
  hn.map_on fun _ ha _ hb heq => renamed_injOn h ha hb heq

theorem renamed_ne_empty {name : String} (hn : name ≠ "") : renamed pairs name ≠ "" := by
  rcases renamed_eq_or pairs name with ⟨pair, hp, rfl, heq⟩ | heq
  · obtain ⟨j, hj⟩ := h.numbered pair hp
    rw [heq, hj]
    exact fun hempty => hn (String.append_eq_empty_iff.mp hempty).1
  · rwa [heq]

/-- A new name has no characters but those of the old one and digits. -/
theorem mem_toList_renamed {name : String} {c : Char} (hc : c ∈ (renamed pairs name).toList) :
    c ∈ name.toList ∨ c.isDigit = true := by
  rcases renamed_eq_or pairs name with ⟨pair, hp, rfl, heq⟩ | heq
  · obtain ⟨j, hj⟩ := h.numbered pair hp
    rw [heq, hj, String.toList_append, List.mem_append] at hc
    refine hc.imp id fun hc => ?_
    rw [show (toString j).toList = Nat.toDigits 10 j from Nat.toList_repr] at hc
    exact Nat.isDigit_of_mem_toDigits (by decide) (by decide) hc
  · exact .inl (heq ▸ hc)

end Renamed

theorem names_applyRenaming (pairs : List (String × String)) :
    (nodes.map (applyRenaming pairs)).map (·.name) = (nodes.map (·.name)).map (renamed pairs) := by
  rw [List.map_map, List.map_map]
  rfl

theorem reads_applyRenaming_iff {pairs : List (String × String)} {r c : Connection} :
    Reads (nodes.map (applyRenaming pairs)) r c ↔
      ∃ r' c', Reads nodes r' c' ∧ renameConnection pairs r' = r ∧
      renameConnection pairs c' = c := by
  constructor
  · rintro ⟨a, ha, hname, hc⟩
    obtain ⟨b, hb, rfl⟩ := List.mem_map.mp ha
    simp only [applyRenaming, List.getElem?_map] at hname hc
    obtain ⟨c', hc', rfl⟩ := Option.map_eq_some_iff.mp hc
    refine ⟨⟨b.name, r.index⟩, c', ⟨b, hb, rfl, hc'⟩, ?_, rfl⟩
    rw [renameConnection, hname]
  · rintro ⟨r', c', ⟨b, hb, hname, hc'⟩, rfl, rfl⟩
    refine ⟨applyRenaming pairs b, List.mem_map_of_mem hb, ?_, ?_⟩
    · simp [applyRenaming, renameConnection, hname]
    · simp [applyRenaming, renameConnection, hc']

theorem wireAfter_map_applyRenaming (pairs : List (String × String)) (previous : String)
    (nodes : List (Node α)) : wireAfter (renamed pairs previous) (nodes.map (applyRenaming pairs)) =
      (wireAfter previous nodes).map (applyRenaming pairs) := by
  induction nodes generalizing previous with
  | nil => rfl
  | cons a nodes ih =>
    rw [List.map_cons, wireAfter, wireAfter, List.map_cons]
    congr 1
    · have hcond : ((applyRenaming pairs a).inputs.isEmpty && !(applyRenaming pairs a).isSource) =
          (a.inputs.isEmpty && !a.isSource) := by
        simp [applyRenaming, Node.isSource]
      rw [hcond]
      split
      · rfl
      · rfl
    · exact ih a.name

/-- A default connection is renamed with the node that it names. -/
theorem wireDefaults_renameReserved (nodes : List (Node α)) :
    wireDefaults (renameReserved nodes) =
      (wireDefaults nodes).map (applyRenaming (renamings (nodes.map (·.name)))) := by
  cases nodes with
  | nil => rfl
  | cons a nodes =>
    rw [renameReserved, List.map_cons, wireDefaults, wireDefaults, List.map_cons]
    congr 1
    exact wireAfter_map_applyRenaming _ a.name nodes

theorem wireAfter_map {β : Type} {f : Node α → β}
    (hf : ∀ node inputs, f { node with inputs := inputs } = f node) (previous : String)
    (nodes : List (Node α)) : (wireAfter previous nodes).map f = nodes.map f := by
  induction nodes generalizing previous with
  | nil => rfl
  | cons a nodes ih =>
    rw [wireAfter, List.map_cons, List.map_cons, ih]
    congr 1
    split
    · exact hf a _
    · rfl

/-- Default wiring leaves the rest of all nodes as it is. -/
theorem wireDefaults_map {β : Type} {f : Node α → β}
    (hf : ∀ node inputs, f { node with inputs := inputs } = f node) (nodes : List (Node α)) :
    (wireDefaults nodes).map f = nodes.map f := by
  cases nodes with
  | nil => rfl
  | cons a nodes => rw [wireDefaults, List.map_cons, List.map_cons, wireAfter_map hf]

theorem wireDefaults_names (nodes : List (Node α)) :
    (wireDefaults nodes).map (·.name) = nodes.map (·.name) :=
  wireDefaults_map (fun _ _ => rfl) nodes

theorem reads_wireAfter {r c : Connection} (previous : String) (h : Reads nodes r c) :
    Reads (wireAfter previous nodes) r c := by
  induction nodes generalizing previous with
  | nil => exact h
  | cons a nodes ih =>
    obtain ⟨b, hb, hname, hc⟩ := h
    rcases List.mem_cons.mp hb with rfl | hb
    · refine ⟨b, ?_, hname, hc⟩
      have hne : b.inputs.isEmpty = false := by
        cases hi : b.inputs with
        | nil => simp [hi] at hc
        | cons => rfl
      simp [wireAfter, hne]
    · obtain ⟨b', hb', h'⟩ := ih a.name ⟨b, hb, hname, hc⟩
      exact ⟨b', List.mem_cons_of_mem _ hb', h'⟩

/-- Connections that are given are kept. -/
theorem reads_wireDefaults {r c : Connection} (h : Reads nodes r c) :
    Reads (wireDefaults nodes) r c := by
  cases nodes with
  | nil => exact h
  | cons a nodes =>
    obtain ⟨b, hb, hname, hc⟩ := h
    rcases List.mem_cons.mp hb with rfl | hb
    · exact ⟨b, List.mem_cons_self .., hname, hc⟩
    · obtain ⟨b', hb', h'⟩ := reads_wireAfter a.name ⟨b, hb, hname, hc⟩
      exact ⟨b', List.mem_cons_of_mem _ hb', h'⟩

end Lowering

end LayerGraph
