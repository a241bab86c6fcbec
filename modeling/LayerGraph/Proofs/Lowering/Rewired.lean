import LayerGraph.Proofs.Lowering.Expanded

/-!
# The wiring that lowering keeps

Without fusion, lowering adds activations, fan-out nodes and at most one loss. Whoever follows an
input of an original node up through the fan-out nodes comes to the slot the input has named, or to
the activation that stands for it.
-/

namespace LayerGraph.Lowering

variable {α : Type} {nodes nodes' : List (Node α)} {fans : List Connection}

/-- An input followed up through the fan-out nodes behind the slots in `fans` ends at a slot. -/
inductive Leads (nodes : List (Node α)) (fans : List Connection) :
    Connection → Connection → Prop where
  | ends {r c : Connection} (reads : Reads nodes r c) (stops : c.name ∉ fans.map fanOutOf) :
      Leads nodes fans r c
  | passes {r c : Connection} {fan : String} {j : Nat} (reads : Reads nodes r ⟨fan, j⟩)
      (through : fan ∈ fans.map fanOutOf) (up : Leads nodes fans ⟨fan, 0⟩ c) : Leads nodes fans r c

/-- What a node is, apart from its wiring and from what is decided about it later. -/
def ident (a : Node α) : String × Layer α × Bool × Option String :=
  (a.name, a.layer, a.trainable, a.sharedFrom)

variable [Zero α]

namespace Separated

variable (h : Separated nodes nodes') (hr : Resolved nodes) (hl : ∀ a ∈ nodes, Listed nodes a)
  (hd : (nodes'.map (·.name)).Nodup)
include h hr hl hd

omit hl hd in
theorem fanOutOf_ne {s c : Connection} (hs : s ∈ fanned (slotTable nodes)) {r : Connection}
    (hread : Reads nodes r c) : r.name ≠ fanOutOf s ∧ c.name ≠ fanOutOf s :=
  ⟨fun heq => h.fresh s hs (heq ▸ hread.reader), fun heq => h.fresh s hs (heq ▸ hr r c hread)⟩

omit h hr hd [Zero α] in
theorem reads_of_mem_slotTable {s r : Connection} {readers : List Connection} {j : Nat}
    (hs : (s, readers) ∈ slotTable nodes) (hj : readers[j]? = some r) : Reads nodes r s := by
  obtain ⟨a, ha, hname, hk⟩ := mem_slotTable.mp hs
  have hread := ((hl a ha).mem_iff _ _ hk r).mp (List.mem_of_getElem? hj)
  rwa [hname] at hread

/-- The only input of a fan-out node. -/
theorem reads_fanOut_iff {s : Connection} (hs : s ∈ fanned (slotTable nodes)) {i : Nat}
    {c : Connection} : Reads nodes' ⟨fanOutOf s, i⟩ c ↔ i = 0 ∧ c = s := by
  have hself : Reads nodes' ⟨fanOutOf s, 0⟩ s := (h.reads_iff _ _).mpr (.fan hs)
  constructor
  · intro hread
    generalize hrd : (⟨fanOutOf s, i⟩ : Connection) = r at hread
    rcases (h.reads_iff _ _).mp hread with ⟨hk, -⟩ | ⟨hs', hm, hj⟩ | ⟨hs'⟩
    · exact absurd (congrArg Connection.name hrd).symm (h.fanOutOf_ne hr hs hk).1
    · exact absurd (congrArg Connection.name hrd).symm
        (h.fanOutOf_ne hr hs (reads_of_mem_slotTable hl hs' hj)).1
    · obtain ⟨hname, rfl⟩ := Connection.mk.inj hrd
      exact ⟨rfl, hread.unique hd (hname ▸ hself)⟩
  · rintro ⟨rfl, rfl⟩
    exact hself

/-- An input of a node that was there before leads to the slot that it has read then. -/
theorem leads_iff {r c : Connection} (hname : r.name ∈ nodes.map (·.name)) :
    Leads nodes' (fanned (slotTable nodes)) r c ↔ Reads nodes r c := by
  have hfan := fun {s} => h.reads_fanOut_iff hr hl hd (s := s)
  have hnot : ∀ {s : Connection}, s.name ∈ nodes.map (·.name) →
      s.name ∉ (fanned (slotTable nodes)).map fanOutOf := by
    intro s hs hmem
    obtain ⟨s', hs', heq⟩ := List.mem_map.mp hmem
    exact h.fresh s' hs' (heq ▸ hs)
  constructor
  · rintro (⟨hread, hstops⟩ | ⟨hread, hthrough, hup⟩)
    · rcases (h.reads_iff _ _).mp hread with ⟨hk, -⟩ | ⟨hs, hm, -⟩ | ⟨hs⟩
      · exact hk
      · exact absurd (List.mem_map_of_mem (mem_fanned.mpr ⟨_, hs, hm⟩)) hstops
      · exact absurd hname (h.fresh _ hs)
    · rename_i fan j
      generalize hc : (⟨fan, j⟩ : Connection) = d at hread
      rcases (h.reads_iff _ _).mp hread with ⟨hk, -⟩ | ⟨hs, hm, hj⟩ | ⟨hs⟩
      · obtain ⟨s, hs, heq⟩ := List.mem_map.mp hthrough
        exact absurd (by rw [← hc]; exact heq.symm) (h.fanOutOf_ne hr hs hk).2
      · obtain ⟨rfl, rfl⟩ := Connection.mk.inj hc
        have hk := reads_of_mem_slotTable hl hs hj
        have hfanned := mem_fanned.mpr ⟨_, hs, hm⟩
        rcases hup with ⟨hup, -⟩ | ⟨hup, hthrough', -⟩
        · rw [((hfan hfanned).mp hup).2]
          exact hk
        · have heq := ((hfan hfanned).mp hup).2
          exact absurd (heq ▸ hthrough') (hnot (hr _ _ hk))
      · exact absurd hname (h.fresh _ hs)
  · intro hk
    by_cases hs : c ∈ fanned (slotTable nodes)
    · obtain ⟨readers, hmem, hm⟩ := mem_fanned.mp hs
      obtain ⟨a, ha, han, hout⟩ := mem_slotTable.mp hmem
      obtain ⟨j, hj⟩ := List.getElem?_of_mem (((hl a ha).mem_iff _ _ hout r).mpr (han ▸ hk))
      refine .passes ((h.reads_iff _ _).mpr (.sent hmem hm hj)) (List.mem_map_of_mem hs) ?_
      exact .ends ((hfan hs).mpr ⟨rfl, rfl⟩) (hnot (hr _ _ hk))
    · exact .ends ((h.reads_iff _ _).mpr (.kept hk hs)) (hnot (hr _ _ hk))

omit hd in
/-- A node that has read only slots that nobody else reads still reads them. -/
theorem reads_iff_of_single {r : Connection} (hname : r.name ∈ nodes.map (·.name))
    (hsingle : ∀ s, Reads nodes r s → SingleRead nodes s) {c : Connection} :
    Reads nodes' r c ↔ Reads nodes r c := by
  constructor
  · intro hread
    rcases (h.reads_iff _ _).mp hread with ⟨hk, -⟩ | ⟨hs, hm, hj⟩ | ⟨hs⟩
    · exact hk
    · have hfanned := (mem_fanned_slotTable hr hl).mp (mem_fanned.mpr ⟨_, hs, hm⟩)
      exact absurd (hsingle _ (reads_of_mem_slotTable hl hs hj)) hfanned
    · exact absurd hname (h.fresh _ hs)
  · intro hk
    exact (h.reads_iff _ _).mpr
      (.kept hk fun hs => (mem_fanned_slotTable hr hl).mp hs (hsingle c hk))

section Loss

variable {base : List (Node α)} {loss terminal : String}
  (hreads : ∀ r c, Reads nodes r c ↔ Reads base r c ∨ r = ⟨loss, 0⟩ ∧ c = ⟨terminal, 0⟩)
  (hnames : nodes.map (·.name) = base.map (·.name) ++ [loss]) (hfresh : loss ∉ base.map (·.name))
  (honly : terminals base = [terminal])
include hreads hnames hfresh honly

omit h hr hl hd hnames hfresh [Zero α] in
/-- The terminal that a loss is appended to is read by the loss alone. -/
theorem reads_terminal {r : Connection} {k : Nat} (hread : Reads nodes r ⟨terminal, k⟩) :
    r = ⟨loss, 0⟩ := by
  rcases (hreads _ _).mp hread with hread | ⟨hr, -⟩
  · exact absurd rfl ((mem_terminals_iff.mp (honly ▸ List.mem_singleton_self terminal)).2 _ _ hread)
  · exact hr

omit hd in
/-- The terminal that a loss is appended to is the only node that nobody but the loss reads. -/
theorem eq_terminal_iff {name : String} (hname : name ∈ nodes'.map (·.name)) (hne : name ≠ loss) :
    name = terminal ↔ ∀ r k, Reads nodes' r ⟨name, k⟩ → r.name = loss := by
  have hterminal := fun {r k} => reads_terminal hreads honly (r := r) (k := k)
  have hsingle : ∀ k, (⟨terminal, k⟩ : Connection) ∉ fanned (slotTable nodes) := fun k hs =>
    (mem_fanned_slotTable hr hl).mp hs fun r r' h₁ h₂ => (hterminal h₁).trans (hterminal h₂).symm
  have hbase : ∀ {r c}, Reads base r c → r.name ≠ loss := fun hread heq =>
    hfresh (heq ▸ hread.reader)
  constructor
  · rintro rfl r k hread
    generalize hc : (⟨name, k⟩ : Connection) = c at hread
    rcases (h.reads_iff _ _).mp hread with ⟨hk, -⟩ | ⟨hs, hm, -⟩ | ⟨hs⟩
    · subst hc
      rw [hterminal hk]
    · -- The terminal was there before the fan-out nodes.
      have hmem : name ∈ base.map (·.name) :=
        (mem_terminals_iff.mp (honly ▸ List.mem_singleton_self name)).1
      refine absurd ?_ (h.fresh _ (mem_fanned.mpr ⟨_, hs, hm⟩))
      rw [hnames, ← (Connection.mk.inj hc).1]
      exact List.mem_append_left _ hmem
    · exact absurd (hc ▸ hs) (hsingle k)
  · intro hread
    by_contra hnt
    have hmem : name ∈ nodes.map (·.name) ++ (fanned (slotTable nodes)).map fanOutOf := by
      have hp := h.perm.map (·.name)
      simp only [List.map_append, List.map_map] at hp
      exact hp.mem_iff.mp (by simpa [bare] using hname)
    rcases List.mem_append.mp hmem with hmem | hmem
    · obtain ⟨r, c, hrc, rfl⟩ : ∃ r c, Reads base r c ∧ c.name = name := by
        rw [hnames, List.mem_append, List.mem_singleton, or_iff_left hne] at hmem
        by_contra hnone
        refine hnt
          (List.mem_singleton.mp (honly ▸ mem_terminals_iff.mpr ⟨hmem, fun r c hrc heq => ?_⟩))
        exact hnone ⟨r, c, hrc, heq⟩
      by_cases hs : c ∈ fanned (slotTable nodes)
      · have heq : fanOutOf c = loss := hread _ c.index ((h.reads_iff _ _).mpr (.fan hs))
        exact h.fresh c hs (by simp [hnames, heq])
      · exact hbase hrc
          (hread _ c.index ((h.reads_iff _ _).mpr (.kept ((hreads _ _).mpr (.inl hrc)) hs)))
    · obtain ⟨s, hs, rfl⟩ := List.mem_map.mp hmem
      obtain ⟨readers, htable, hm⟩ := mem_fanned.mp hs
      have hj : readers[0]? = some readers[0] := List.getElem?_eq_getElem _
      rcases (hreads _ _).mp (reads_of_mem_slotTable hl htable hj) with hk | ⟨-, rfl⟩
      · exact hbase hk (hread _ 0 ((h.reads_iff _ _).mpr (.sent htable hm hj)))
      · exact hsingle 0 hs

end Loss

end Separated

/-- What lowering without fusion makes of the nodes: `fans` are the slots behind which a fan-out
node is put, and `losses` are the losses that are appended. -/
structure Rewired (nodes lowered : List (Node α)) (fans : List Connection)
    (losses : List (Node α)) : Prop where
  distinct : (lowered.map (·.name)).Nodup
  /-- Every node is kept under its name, or its new name, and what is added are activations, fan-out
  nodes and losses. -/
  members : (lowered.map ident).Perm
    (nodes.map (ident ∘ applyRenaming (renamings (nodes.map (·.name)))) ++
      ((nodes.filter splits).map
        (ident ∘ activationNode ∘ applyRenaming (renamings (nodes.map (·.name)))) ++
      (losses.map ident ++ fans.map (ident ∘ fanOutNode))))
  /-- Only reserved names are changed. -/
  renamed : ∀ name, newName nodes name ≠ name → name ∈ reservedNames
  renaming_injOn : ∀ a ∈ nodes, ∀ b ∈ nodes, newName nodes a.name = newName nodes b.name →
    a.name = b.name
  /-- Followed up through the fan-out nodes, an input leads to what stands for the slot it has
  named. -/
  leads : ∀ a ∈ nodes, ∀ i d, Leads lowered fans ⟨newName nodes a.name, i⟩ d ↔
    ∃ c, Reads (wireDefaults nodes) ⟨a.name, i⟩ c ∧ target nodes c = d
  activation : ∀ p ∈ splitting nodes, ∀ i c,
    Reads lowered ⟨activationName (newName nodes p), i⟩ c ↔ i = 0 ∧ c = ⟨newName nodes p, 0⟩
  fanOut : ∀ s ∈ fans, ∀ i c, Reads lowered ⟨fanOutOf s, i⟩ c ↔ i = 0 ∧ c = s
  /-- At most one loss is appended. It reads the terminal, the only node that nobody but the loss
  reads. -/
  loss : losses = [] ∨ ∃ kind name terminal,
    losses = [.ofLayer (.loss kind) name [⟨terminal, 0⟩]] ∧
    (∀ i c, Reads lowered ⟨name, i⟩ c ↔ i = 0 ∧ c = ⟨terminal, 0⟩) ∧
    ∀ a ∈ lowered, a.name ≠ name →
      (a.name = terminal ↔ ∀ r k, Reads lowered r ⟨a.name, k⟩ → r.name = name)
  resolved : Resolved lowered
  /-- Each slot of a node has one reader, unless nobody reads the node. -/
  separate : ∀ a ∈ lowered, (∀ r k, ¬ Reads lowered r ⟨a.name, k⟩) ∨
    ∀ k < a.outputCount, ∃! r, Reads lowered r ⟨a.name, k⟩
  /-- The outputs list who reads, slot by slot. -/
  inverse : ∀ a ∈ lowered, ∀ k r,
    (∃ readers, a.outputs[k]? = some readers ∧ r ∈ readers) ↔ Reads lowered r ⟨a.name, k⟩

section Outputs

omit [Zero α]

theorem Listed.separate {a : Node α} (h : Listed nodes a) (hs : ∀ c, SingleRead nodes c) :
    (∀ r k, ¬ Reads nodes r ⟨a.name, k⟩) ∨ ∀ k < a.outputCount, ∃! r,
      Reads nodes r ⟨a.name, k⟩ := by
  by_cases hnone : a.outputs = []
  · refine .inl fun r k hread => ?_
    have hlt := (h.lt_iff k).mpr ⟨r, hread⟩
    rw [hnone] at hlt
    exact absurd hlt (Nat.not_lt_zero k)
  · refine .inr fun k hk => ?_
    have hpos := List.length_pos_iff.mpr hnone
    obtain ⟨r, hread⟩ := (h.lt_iff k).mp (by rw [Node.outputCount] at hk; omega)
    exact ⟨r, hread, fun r' hread' => hs _ _ _ hread' hread⟩

theorem Listed.inverse {a : Node α} (h : Listed nodes a) (k : Nat) (r : Connection) :
    (∃ readers, a.outputs[k]? = some readers ∧ r ∈ readers) ↔ Reads nodes r ⟨a.name, k⟩ := by
  constructor
  · rintro ⟨readers, hk, hr⟩
    exact (h.mem_iff k readers hk r).mp hr
  · intro hread
    have hlt := (h.lt_iff k).mpr ⟨r, hread⟩
    exact ⟨a.outputs[k], by simp [hlt], (h.mem_iff k _ (by simp [hlt]) r).mpr hread⟩

end Outputs

theorem perm_ident_expand (nodes : List (Node α)) : ((expand nodes).map ident).Perm
      (nodes.map (ident ∘ applyRenaming (renamings (nodes.map (·.name)))) ++
      (nodes.filter splits).map
        (ident ∘ activationNode ∘ applyRenaming (renamings (nodes.map (·.name))))) := by
  have h := (perm_splitActivations (wireDefaults (renameReserved nodes))).map ident
  have hsettled : ident ∘ bare ∘ settled = (ident : Node α → _) := by
    funext a
    simp only [Function.comp_apply, settled]
    split
    · rfl
    · rfl
  have hwired := wireDefaults_map (f := ident) (fun _ _ => rfl) (renameReserved nodes)
  have hsplit : ((wireDefaults (renameReserved nodes)).filter splits).map (ident ∘ activationNode) =
      ((renameReserved nodes).filter splits).map (ident ∘ activationNode) := by
    have hw := wireDefaults_map (f := fun a : Node α => (splits a, ident (activationNode a)))
      (fun _ _ => rfl) (renameReserved nodes)
    have hfilter : ∀ nodes : List (Node α), (nodes.filter splits).map (ident ∘ activationNode) =
        ((nodes.map fun a => (splits a, ident (activationNode a))).filter (·.1)).map (·.2) :=
          fun nodes => by
      rw [List.filter_map, List.map_map]
      rfl
    rw [hfilter, hw, hfilter]
  simp only [List.map_append, List.map_map, hsettled] at h
  rw [hwired] at h
  refine h.trans ?_
  have hnew : (ident ∘ bare ∘ activationNode : Node α → _) = ident ∘ activationNode := rfl
  rw [hnew, hsplit, renameReserved, List.filter_map, List.map_map, List.map_map]
  rfl

theorem rewired_of_lower {loss : Option String} {u : Unit} (hr : Resolved nodes)
    (hd : (nodes'.map (·.name)).Nodup) (h : lower loss [] nodes = .ok u nodes') :
    ∃ fans losses, Rewired nodes nodes' fans losses := by
  obtain ⟨n₁, n₂, n₃, u₁, u₂, hadd, hfuse, hset, hsep⟩ := stages_of_lower h
  obtain rfl := nodes_of_fuse_nil hfuse
  obtain ⟨losses, rfl, happ⟩ := appended_of_addLoss hadd
  have hd₃ := hd.sublist (names_sublist_separateReaders hsep)
  have hnames₃ := setOutputs_names hset
  have hd₂ : ((expand nodes ++ losses).map (·.name)).Nodup := hnames₃ ▸ hd₃
  rw [List.map_append] at hnames₃
  have hd₁ : ((expand nodes).map (·.name)).Nodup :=
    (List.nodup_append.mp (hnames₃ ▸ hd₃)).1
  have hr₃ := resolved_setOutputs hset hd₂
  have hl₃ := fun a (ha : a ∈ n₃) => listed_setOutputs hset hd₂ ha
  have hs := separated_of_ok hr₃ hl₃ hsep hd
  have hreads : ∀ r c, Reads n₃ r c ↔ Reads (expand nodes) r c ∨ Reads losses r c := fun r c => by
    rw [reads_setOutputs_iff hset, reads_append_iff]
  -- What is appended does not read for the others.
  have hold : ∀ {r c}, r.name ∈ (expand nodes).map (·.name) →
      (Reads n₃ r c ↔ Reads (expand nodes) r c) := by
    intro r c hname
    rw [hreads]
    refine or_iff_left fun hread => ?_
    exact (List.nodup_append.mp (hnames₃ ▸ hd₃)).2.2 _ hname _ hread.reader rfl
  have hmem : ∀ {name}, name ∈ (expand nodes).map (·.name) → name ∈ n₃.map (·.name) := fun hn => by
    rw [hnames₃]
    exact List.mem_append_left _ hn
  have hnode : ∀ {name}, name ∈ nodes.map (·.name) →
      newName nodes name ∈ (expand nodes).map (·.name) := fun hn =>
    (names_expand nodes).mem_iff.mpr (List.mem_append_left _ (List.mem_map_of_mem hn))
  have hact : ∀ {p}, p ∈ splitting nodes →
      activationName (newName nodes p) ∈ (expand nodes).map (·.name) := fun hp =>
    (names_expand nodes).mem_iff.mpr (List.mem_append_right _ (List.mem_map.mpr ⟨_, hp, rfl⟩))
  refine ⟨fanned (slotTable n₃), losses, hd, ?_, fun name hne => ?_, fun a ha b hb => ?_,
    fun a ha i d => ?_, fun p hp i c => ?_, fun s hf i c => hs.reads_fanOut_iff hr₃ hl₃ hd hf, ?_,
    hs.resolved, fun a ha => (hs.listed a ha).separate hs.single,
    fun a ha k r => (hs.listed a ha).inverse k r⟩
  · have hp := hs.perm.map ident
    have hbare : (ident ∘ bare : Node α → _) = ident := rfl
    have h₃ := setOutputs_map hset (f := ident) fun _ _ => rfl
    simp only [List.map_append, List.map_map, hbare, h₃] at hp
    refine hp.trans ?_
    refine (((perm_ident_expand nodes).append_right _).append_right _).trans ?_
    simp only [List.append_assoc]
    rfl
  · by_contra hnot
    exact hne (newName_of_not_reserved hnot)
  · exact newName_injOn (List.mem_map_of_mem ha) (List.mem_map_of_mem hb)
  · have hn := List.mem_map_of_mem (f := fun a : Node α => a.name) ha
    rw [hs.leads_iff hr₃ hl₃ hd (hmem (hnode hn)), hold (hnode hn),
      reads_expand_newName_iff hr hd₁ hn]
  · rw [hs.reads_iff_of_single hr₃ hl₃ (hmem (hact hp)), hold (hact hp),
      reads_expand_activation_iff hr hd₁ hp]
    intro s hread
    obtain ⟨-, rfl⟩ := (reads_expand_activation_iff hr hd₁ hp).mp ((hold (hact hp)).mp hread)
    have hone : ∀ {r}, Reads n₃ r ⟨newName nodes p, 0⟩ →
        r = ⟨activationName (newName nodes p), 0⟩ := by
      intro r hread
      rcases (hreads _ _).mp hread with hread | hread
      · exact (reads_expand_split_iff hr hd₁ hp).mp hread
      · exact absurd rfl (happ.unread hread ((reads_expand_split_iff hr hd₁ hp).mpr rfl))
    exact fun r r' h₁ h₂ => (hone h₁).trans (hone h₂).symm
  · cases happ with
    | nothing => exact .inl rfl
    | @loss kind name terminal fresh only =>
      simp only [reads_ofLayer_iff] at hreads
      have hinput : ∀ {i s}, Reads n₃ ⟨name, i⟩ s ↔ i = 0 ∧ s = ⟨terminal, 0⟩ := by
        intro i s
        rw [hreads, or_iff_right fun hread => fresh hread.reader, Connection.mk.injEq,
          and_iff_right rfl]
      refine .inr ⟨kind, name, terminal, rfl, fun i c => ?_, fun a ha hne => ?_⟩
      · rw [hs.reads_iff_of_single hr₃ hl₃ (by simp [hnames₃, Node.ofLayer]), hinput]
        intro s hread
        obtain ⟨-, rfl⟩ := hinput.mp hread
        exact fun r r' h₁ h₂ =>
          (Separated.reads_terminal hreads only h₁).trans
            (Separated.reads_terminal hreads only h₂).symm
      · exact hs.eq_terminal_iff hr₃ hl₃ hreads hnames₃ fresh only (List.mem_map_of_mem ha) hne

end LayerGraph.Lowering
