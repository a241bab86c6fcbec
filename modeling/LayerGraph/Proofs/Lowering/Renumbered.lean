import LayerGraph.Proofs.Lowering.Permuted

/-!
# Slots of fan-out nodes in any order

The readers of a fan-out node take its slots in the order in which they were added. Where that order
is another one, the slots have other numbers, and that is all.
-/

namespace LayerGraph.Lowering

variable {α : Type} {nodes nodes' : List (Node α)}

/-- The same nodes in some order, whose inputs read the same nodes. Multiout nodes may have their
slots numbered otherwise. -/
structure Renumbered (nodes nodes' : List (Node α)) (σ : String → Equiv.Perm Nat) : Prop where
  perm : (nodes'.map bare).Perm (nodes.map bare)
  fixed : ∀ name, σ name = .refl Nat ∨ ∃ a ∈ nodes, a.name = name ∧ a.layer = .multiout
  reads : ∀ r c, Reads nodes r c ↔ Reads nodes' r ⟨c.name, σ c.name c.index⟩

theorem name_of_bare {a b : Node α} (h : bare b = bare a) : b.name = a.name :=
  show (bare b).name = (bare a).name by rw [h]

theorem layer_of_bare {a b : Node α} (h : bare b = bare a) : b.layer = a.layer :=
  show (bare b).layer = (bare a).layer by rw [h]

namespace Renumbered

variable {σ : String → Equiv.Perm Nat} (h : Renumbered nodes nodes' σ)
include h

theorem exists_bare {a : Node α} (ha : a ∈ nodes) : ∃ b ∈ nodes', bare b = bare a :=
  List.mem_map.mp (h.perm.mem_iff.mpr (List.mem_map_of_mem ha))

theorem symm : Renumbered nodes' nodes fun name => (σ name).symm := by
  refine ⟨h.perm.symm, fun name => (h.fixed name).imp (fun hone => by rw [hone, Equiv.refl_symm])
    ?_, fun r c => ?_⟩
  · rintro ⟨a, ha, rfl, hlayer⟩
    obtain ⟨b, hb, hbare⟩ := h.exists_bare ha
    exact ⟨b, hb, name_of_bare hbare, (layer_of_bare hbare).trans hlayer⟩
  · rw [h.reads, Equiv.apply_symm_apply]

theorem perm_names : (nodes'.map (·.name)).Perm (nodes.map (·.name)) := by
  have hnames := h.perm.map Node.name
  rwa [List.map_map, List.map_map] at hnames

end Renumbered

/-- Nodes of distinct names that list who reads them. -/
structure Tabulated (nodes : List (Node α)) : Prop where
  distinct : (nodes.map (·.name)).Nodup
  resolved : Resolved nodes
  listed : ∀ a ∈ nodes, Listed nodes a

theorem tabulated_of_setOutputs (hd : (nodes.map (·.name)).Nodup)
    (h : setOutputs nodes = .ok nodes') : Tabulated nodes' :=
  ⟨setOutputs_names h ▸ hd, resolved_setOutputs h hd, fun _ ha => listed_setOutputs h hd ha⟩

section Relisted

variable (h : Tabulated nodes) (h' : Tabulated nodes')
  (hreads : ∀ r c, Reads nodes' r c ↔ Reads nodes r c)
include h h' hreads

theorem fanned_perm : (fanned (slotTable nodes')).Perm (fanned (slotTable nodes)) := by
  have hnodup : ∀ {nodes : List (Node α)}, Tabulated nodes → (fanned (slotTable nodes)).Nodup :=
    fun h =>
    (nodup_slotTable h.distinct).sublist (List.filter_sublist.map _)
  refine (List.perm_ext_iff_of_nodup (hnodup h') (hnodup h)).mpr fun s => ?_
  rw [mem_fanned_slotTable h'.resolved h'.listed, mem_fanned_slotTable h.resolved h.listed]
  simp only [SingleRead, hreads]

/-- The readers that two tables list for a slot differ by their order. -/
theorem exists_positions_of_slot (s : Connection) : ∃ τ : Equiv.Perm Nat, ∀ readers readers',
    (s, readers) ∈ slotTable nodes → (s, readers') ∈ slotTable nodes' → ∀ j : Nat,
      readers'[τ j]? = readers[j]? := by
  by_cases hboth : ∃ readers readers', (s, readers) ∈ slotTable nodes ∧
    (s, readers') ∈ slotTable nodes'
  · obtain ⟨readers, readers', hs, hs'⟩ := hboth
    have ht := tabled_slotTable h.distinct h.listed
    have ht' := tabled_slotTable h'.distinct h'.listed
    have hperm : readers.Perm readers' :=
      (List.perm_ext_iff_of_nodup (ht.nodup s _ hs) (ht'.nodup s _ hs')).mpr fun r => by
      rw [ht.mem_iff s _ hs, ht'.mem_iff s _ hs', hreads]
    obtain ⟨τ, hτ⟩ := exists_positions hperm
    refine ⟨τ, fun rs rs' hrs hrs' => ?_⟩
    obtain rfl : readers = rs :=
      (Prod.mk.inj (List.inj_on_of_nodup_map ht.slots_nodup hs hrs rfl)).2
    obtain rfl : readers' = rs' :=
      (Prod.mk.inj (List.inj_on_of_nodup_map ht'.slots_nodup hs' hrs' rfl)).2
    exact hτ
  · exact ⟨.refl Nat, fun readers readers' hs hs' => absurd ⟨readers, readers', hs, hs'⟩ hboth⟩

/-- Each fan-out node has its slots renumbered as its readers are listed, and no other node has. -/
theorem exists_renumbering : ∃ σ : String → Equiv.Perm Nat,
    (∀ name, name ∉ (fanned (slotTable nodes)).map fanOutOf → σ name = .refl Nat) ∧
    ∀ s readers readers', (s, readers) ∈ slotTable nodes → (s, readers') ∈ slotTable nodes' →
      1 < readers.length → ∀ j : Nat, readers'[σ (fanOutOf s) j]? = readers[j]? := by
  choose τ hτ using exists_positions_of_slot h h' hreads
  classical
  refine ⟨fun name => if hname : ∃ s ∈ fanned (slotTable nodes), fanOutOf s = name
    then τ hname.choose else .refl Nat,
    fun name hname => dif_neg fun hex => hname (List.mem_map.mpr hex),
      fun s readers readers' hs hs' hmany j => ?_⟩
  have hex : ∃ s' ∈ fanned (slotTable nodes), fanOutOf s' = fanOutOf s :=
    ⟨s, mem_fanned.mpr ⟨readers, hs, hmany⟩, rfl⟩
  have hsame : hex.choose = s := fanOutOf_injective hex.choose_spec.2
  dsimp only
  rw [dif_pos hex, hsame]
  exact hτ s readers readers' hs hs' j

/-- Where the slots of fan-out nodes are renumbered as their readers are listed, inputs follow. -/
theorem Rerouted.renumber {σ : String → Equiv.Perm Nat}
    (hfresh : ∀ s ∈ fanned (slotTable nodes), fanOutOf s ∉ nodes.map (·.name))
    (hone : ∀ name, name ∉ (fanned (slotTable nodes)).map fanOutOf → σ name = .refl Nat)
    (hslot : ∀ s readers readers', (s, readers) ∈ slotTable nodes →
      (s, readers') ∈ slotTable nodes' → 1 < readers.length →
      ∀ j : Nat, readers'[σ (fanOutOf s) j]? = readers[j]?) {r c : Connection}
    (hc : Rerouted (slotTable nodes) nodes r c) :
    Rerouted (slotTable nodes') nodes' r ⟨c.name, σ c.name c.index⟩ := by
  have hfanned := fanned_perm h h' hreads
  have hkept : ∀ name ∈ nodes.map (·.name), σ name = .refl Nat :=
    fun name hname => hone name fun hmem => by
    obtain ⟨s, hs, rfl⟩ := List.mem_map.mp hmem
    exact hfresh s hs hname
  cases hc with
  | kept reads alone =>
    rw [hkept _ (h.resolved _ _ reads)]
    exact .kept ((hreads _ _).mpr reads) fun hmem => alone (hfanned.mem_iff.mp hmem)
  | @sent s r readers j slot many reader =>
    obtain ⟨readers', slot', many'⟩ :=
      mem_fanned.mp (hfanned.mem_iff.mpr (mem_fanned.mpr ⟨readers, slot, many⟩))
    exact .sent slot' many' ((hslot s readers readers' slot slot' many j).trans reader)
  | fan slot =>
    obtain ⟨readers, slot', -⟩ := mem_fanned.mp slot
    rw [hkept _ ((tabled_slotTable h.distinct h.listed).named _ _ slot')]
    exact .fan (hfanned.mem_iff.mpr slot)

variable [Zero α]

/-- Separating the readers of the same nodes in another order makes the same nodes, with renumbered
slots. -/
theorem exists_renumbered_of_separate (hperm : (nodes'.map bare).Perm (nodes.map bare)) {u : Unit}
    {lowered : List (Node α)} (hsep : separateReaders nodes = .ok u lowered)
    (hd : (lowered.map (·.name)).Nodup) :
    ∃ lowered' σ, separateReaders nodes' = .ok () lowered' ∧ (lowered'.map (·.name)).Nodup ∧
    Renumbered lowered lowered' σ := by
  have hfanned := fanned_perm h h' hreads
  have hseparated := separated_of_ok h.resolved h.listed hsep hd
  have hnames : ∀ xs : List (Node α), (xs.map bare).map (·.name) = xs.map (·.name) := fun xs => by
    rw [List.map_map]
    rfl
  have hwhole : ((nodes'.map bare) ++ (fanned (slotTable nodes')).map
      fun s => bare (fanOutNode s)).Perm ((nodes.map bare) ++ (fanned (slotTable nodes)).map
        fun s => bare (fanOutNode s)) := hperm.append (hfanned.map _)
  have hd' : ((insertFanOut nodes').map (·.name)).Nodup := by
    have hsplits := (splits_insertFanOut nodes').perm
    rw [← hnames, ((hsplits.trans hwhole).trans hseparated.perm.symm |>.map _).nodup_iff, hnames]
    exact hd
  obtain ⟨lowered', hsep', hnames'⟩ := exists_separateReaders h'.resolved h'.listed hd'
  have hseparated' := separated_of_ok h'.resolved h'.listed hsep' (hnames' ▸ hd')
  obtain ⟨σ, hone, hslot⟩ := exists_renumbering h h' hreads
  refine ⟨lowered', σ, hsep', hnames' ▸ hd',
    (hseparated'.perm.trans hwhole).trans hseparated.perm.symm, fun name => ?_, fun r c => ?_⟩
  · by_cases hname : name ∈ (fanned (slotTable nodes)).map fanOutOf
    · obtain ⟨s, hs, rfl⟩ := List.mem_map.mp hname
      obtain ⟨a, ha, hbare⟩ := List.mem_map.mp (hseparated.perm.mem_iff.mpr
        (List.mem_append_right _ (List.mem_map_of_mem hs)))
      exact .inr ⟨a, ha, name_of_bare hbare, layer_of_bare hbare⟩
    · exact .inl (hone name hname)
  · rw [hseparated.reads_iff, hseparated'.reads_iff]
    refine ⟨Rerouted.renumber h h' hreads hseparated.fresh hone hslot, fun hc => ?_⟩
    have hone' : ∀ name, name ∉ (fanned (slotTable nodes')).map fanOutOf →
        (σ name).symm = Equiv.refl ℕ := fun name hname => by
      rw [hone name fun hmem => hname ((hfanned.map fanOutOf).mem_iff.mpr hmem), Equiv.refl_symm]
    have hback := Rerouted.renumber (σ := fun name => (σ name).symm) h' h
      (fun r c => (hreads r c).symm) hseparated'.fresh hone'
      (fun s readers' readers hs' hs hmany j => ?_) hc
    · simpa using hback
    · have hcard : readers.length = readers'.length := ((List.perm_ext_iff_of_nodup
        ((tabled_slotTable h.distinct h.listed).nodup s _ hs)
          ((tabled_slotTable h'.distinct h'.listed).nodup s _ hs')).mpr
        fun r => by rw [(tabled_slotTable h.distinct h.listed).mem_iff s _ hs,
          (tabled_slotTable h'.distinct h'.listed).mem_iff s _ hs', hreads]).length_eq
      rw [← hslot s readers readers' hs hs' (hcard ▸ hmany), Equiv.apply_symm_apply]

end Relisted

variable [Zero α] {loss : Option String} {rules : List FusionRule} {lowered : List (Node α)}
  {u : Unit}

theorem lower_of_stages {n₁ n₂ n₃ : List (Node α)} (hadd : addLoss loss (expand nodes) = .ok n₁)
    (hfuse : fuse rules n₁ = .ok () n₂) (hset : setOutputs n₂ = .ok n₃)
    (hsep : separateReaders n₃ = .ok () lowered) : lower loss rules nodes = .ok () lowered := by
  have hstart : lower loss rules nodes = (do
      Action.update (addLoss loss)
      fuse rules
      Action.update setOutputs
      separateReaders : Action (List (Node α)) Unit) (expand nodes) := rfl
  rw [hstart, Action.bind_of_ok (Action.update_of_ok hadd), Action.bind_of_ok hfuse,
    Action.bind_of_ok (Action.update_of_ok hset), hsep]

/-- Nodes whose wiring is explicit can be lowered in any order or in none, and lowering makes the
same of them but for the numbers of slots behind fan-out nodes. -/
theorem exists_renumbered_of_lower (h : Explicit nodes) (hp : nodes'.Perm nodes)
    (hl : lower loss rules nodes = .ok u lowered) (hd : (lowered.map (·.name)).Nodup) :
    ∃ lowered' σ, lower loss rules nodes' = .ok () lowered' ∧
      (lowered'.map (·.name)).Nodup ∧ Renumbered lowered lowered' σ := by
  obtain ⟨n₁, n₂, n₃, u₁, u₂, hadd, hfuse, hset, hsep⟩ := stages_of_lower hl
  obtain ⟨n₁', hadd', hp₁⟩ := addLoss_perm (h.expand_perm hp) hadd
  obtain ⟨hd₁, hshipped⟩ : (n₁.map (·.name)).Nodup ∧ ∀ a ∈ n₁, a.layer.isShipped = true := by
    rcases addLoss_eq_ok hadd with rfl | ⟨kind, terminal, -, -, rfl⟩
    · exact ⟨h.nodup_expand, h.shipped_expand⟩
    · refine ⟨?_, fun a ha => (List.mem_append.mp ha).elim (h.shipped_expand a) fun ha => by
        rw [List.mem_singleton.mp ha]
        rfl⟩
      rw [List.map_append]
      refine List.nodup_append.mpr ⟨h.nodup_expand, List.nodup_singleton _, fun x hx y hy heq => ?_⟩
      rw [heq, List.mem_singleton.mp hy] at hx
      exact freshName_not_mem _ _ hx
  have hu : Unambiguous n₁ := fun a ha => by
    have hs := hshipped a ha
    cases hlayer : a.layer with
    | custom layer => rw [hlayer] at hs; cases hs
    | loss kind => exact .inl rfl
    | input | fullyConnected | activation | addition | multiout | identity => exact .inr rfl
  obtain ⟨n₂', hfuse', hp₂⟩ := fuse_perm hd₁ hu hp₁ hfuse
  have hd₂ : (n₂.map (·.name)).Nodup := by
    have hd₃ := hd.sublist (names_sublist_separateReaders hsep)
    exact setOutputs_names hset ▸ hd₃
  have hd₂' : (n₂'.map (·.name)).Nodup := (hp₂.map (·.name)).nodup_iff.mpr hd₂
  obtain ⟨hresolved, hdense⟩ := (exists_setOutputs_iff hd₂).mp ⟨n₃, hset⟩
  obtain ⟨n₃', hset'⟩ := (exists_setOutputs_iff hd₂').mpr ⟨fun r c hread =>
    (hp₂.map (·.name)).mem_iff.mpr (hresolved r c ((reads_perm hp₂).mp hread)), fun a ha => by
      have := hdense a (hp₂.mem_iff.mp ha)
      simpa only [Dense, reads_perm hp₂] using this⟩
  have hreads : ∀ r c, Reads n₃' r c ↔ Reads n₃ r c := fun r c => by
    rw [reads_setOutputs_iff hset', reads_setOutputs_iff hset, reads_perm hp₂]
  obtain ⟨lowered', σ, hsep', hd', hrenumbered⟩ :=
    exists_renumbered_of_separate (tabulated_of_setOutputs hd₂ hset)
    (tabulated_of_setOutputs hd₂' hset') hreads (by
      rw [setOutputs_map hset' fun _ _ => rfl, setOutputs_map hset fun _ _ => rfl]
      exact hp₂.map bare) hsep hd
  exact ⟨lowered', σ, lower_of_stages hadd' hfuse' hset' hsep', hd', hrenumbered⟩

end LayerGraph.Lowering
