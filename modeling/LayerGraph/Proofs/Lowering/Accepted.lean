import LayerGraph.Proofs.Lowering.Generated
import LayerGraph.Proofs.Lowering.Rewired

/-!
# Which nodes can be lowered

Without losses two things can be wrong with nodes whose connections name nodes: a name that is
generated may have been given, and a slot that nobody reads may stand before one that somebody
reads.
-/

namespace LayerGraph.Lowering

variable {α : Type} {nodes nodes' : List (Node α)}

/-- A slot of a node that is read, also if only by the activation behind the node. -/
def Uses (nodes : List (Node α)) (name : String) (k : Nat) : Prop :=
  (∃ r, Reads (wireDefaults nodes) r ⟨name, k⟩) ∨ k = 0 ∧ name ∈ splitting nodes

/-- No name that is generated has been given, and the slots that are used are the first ones. -/
structure Lowerable (nodes : List (Node α)) : Prop where
  fresh : ∀ name, Generated nodes name → name ∉ (nodes.map (·.name)).map (newName nodes)
  dense : ∀ a ∈ nodes, ∀ k, Uses nodes a.name k → ∀ j < k, Uses nodes a.name j

/-- Names without a slash are none that are generated. -/
theorem not_generated_of_no_slash (h : ∀ a ∈ nodes, '/' ∉ a.name.toList) {name : String}
    (hg : Generated nodes name) : name ∉ (nodes.map (·.name)).map (newName nodes) := by
  intro hmem
  obtain ⟨_, hold, rfl⟩ := List.mem_map.mp hmem
  obtain ⟨a, ha, rfl⟩ := List.mem_map.mp hold
  have hslash : '/' ∉ (newName nodes a.name).toList := fun hc =>
    (mem_toList_renamed (isRenaming_renamings _) hc).elim (h a ha) (by decide)
  generalize newName nodes a.name = new at hg hslash
  cases hg with
  | activation =>
    rw [toList_activationName] at hslash
    exact hslash (by simp)
  | fanOut =>
    rw [fanOutOf, toList_fanOutName] at hslash
    exact hslash (by simp)

/-- Where only first slots are read, none is left out. -/
theorem lowerable_of_no_slash (hslash : ∀ a ∈ nodes, '/' ∉ a.name.toList)
    (hzero : ∀ r c, Reads (wireDefaults nodes) r c → c.index = 0) : Lowerable nodes := by
  refine ⟨fun name hg => not_generated_of_no_slash hslash hg, fun a _ k huse j hj => ?_⟩
  have hk : k = 0 := by
    rcases huse with ⟨r, hread⟩ | ⟨hk, -⟩
    · exact hzero _ _ hread
    · exact hk
  omega

variable [Zero α]

section Separate

variable (hr : Resolved nodes) (hl : ∀ a ∈ nodes, Listed nodes a)
  (hd : ((insertFanOut nodes).map (·.name)).Nodup)
include hr hl hd

/-- Fan-out nodes leave no slot out. -/
theorem dense_insertFanOut {a : Node α} (ha : a ∈ insertFanOut nodes) :
    Dense (insertFanOut nodes) a.name := by
  have hsplits := splits_insertFanOut nodes
  have hd₀ : (nodes.map (·.name)).Nodup := hd.sublist hsplits.names_sublist
  have hreads := fun {r c} => hsplits.reads_iff hd (tabled_slotTable hd₀ hl) (r := r) (c := c)
  have hfresh : ∀ {s}, s ∈ fanned (slotTable nodes) → fanOutOf s ∉ nodes.map (·.name) := fun hs =>
    hsplits.fanOutOf_not_mem hd hs
  have hname :=
    hsplits.names_perm.mem_iff.mp (List.mem_map_of_mem (f := fun a : Node α => a.name) ha)
  rcases List.mem_append.mp hname with hname | hname
  · have hslot : ∀ k, (∃ r, Reads (insertFanOut nodes) r ⟨a.name, k⟩) ↔ ∃ r,
        Reads nodes r ⟨a.name, k⟩ := by
      intro k
      simp only [hreads]
      generalize hc : (⟨a.name, k⟩ : Connection) = c
      constructor
      · rintro ⟨r, ⟨hread, -⟩ | ⟨hs, hm, -⟩ | ⟨hs⟩⟩
        · exact ⟨r, hread⟩
        · refine absurd hname ?_
          rw [(Connection.mk.inj hc).1]
          exact hfresh (mem_fanned.mpr ⟨_, hs, hm⟩)
        · obtain ⟨readers, hs', hm⟩ := mem_fanned.mp hs
          exact ⟨readers[0], Separated.reads_of_mem_slotTable hl hs' (List.getElem?_eq_getElem _)⟩
      · rintro ⟨r, hread⟩
        by_cases hs : c ∈ fanned (slotTable nodes)
        · exact ⟨_, .fan hs⟩
        · exact ⟨r, .kept hread hs⟩
    obtain ⟨b, hb, hbn⟩ := List.mem_map.mp hname
    have hdense := (hl b hb).dense
    rw [hbn] at hdense
    simpa only [Dense, hslot] using hdense
  · obtain ⟨s, hs, hsn⟩ := List.mem_map.mp hname
    rw [← hsn]
    rintro k ⟨r, hread⟩ j hj
    simp only [hreads] at hread ⊢
    generalize hc : (⟨fanOutOf s, k⟩ : Connection) = c at hread
    rcases hread with ⟨hread, -⟩ | ⟨hs', hm, hk⟩ | ⟨hs'⟩
    · exact absurd (hr _ _ hread) (by rw [← hc]; exact hfresh hs)
    · obtain ⟨hsn', rfl⟩ := Connection.mk.inj hc
      have hlt := (List.getElem?_eq_some_iff.mp hk).1
      rw [hsn']
      exact ⟨_, .sent hs' hm (List.getElem?_eq_getElem (Nat.lt_trans hj hlt))⟩
    · obtain ⟨readers, htable, -⟩ := mem_fanned.mp hs'
      refine absurd ((tabled_slotTable hd₀ hl).named _ _ htable) ?_
      rw [← hc]
      exact hfresh hs

theorem resolved_insertFanOut : Resolved (insertFanOut nodes) := by
  have hsplits := splits_insertFanOut nodes
  have hd₀ : (nodes.map (·.name)).Nodup := hd.sublist hsplits.names_sublist
  intro r c hread
  refine hsplits.names_perm.mem_iff.mpr (List.mem_append.mpr ?_)
  rcases (hsplits.reads_iff hd (tabled_slotTable hd₀ hl)).mp hread with ⟨hk, -⟩ | ⟨hs, hm, -⟩ | ⟨hs⟩
  · exact .inl (hr r c hk)
  · exact .inr (List.mem_map_of_mem (mem_fanned.mpr ⟨_, hs, hm⟩))
  · obtain ⟨readers, htable, -⟩ := mem_fanned.mp hs
    exact .inl ((tabled_slotTable hd₀ hl).named _ _ htable)

theorem exists_separateReaders : ∃ nodes', separateReaders nodes = .ok () nodes' ∧
    nodes'.map (·.name) = (insertFanOut nodes).map (·.name) := by
  have hstep : separateReaders nodes = (if (insertFanOut nodes).length ≠ nodes.length then
      Action.update setOutputs else pure () : Action (List (Node α)) Unit) (insertFanOut nodes) :=
        rfl
  rw [hstep]
  split
  · obtain ⟨nodes', h⟩ := (exists_setOutputs_iff hd).mpr
      ⟨resolved_insertFanOut hr hl hd, fun a ha => dense_insertFanOut hr hl hd ha⟩
    exact ⟨nodes', Action.update_of_ok h, setOutputs_names h⟩
  · exact ⟨_, rfl, rfl⟩

end Separate

section Expand

variable (hr : Resolved nodes)

theorem isLoss_expand (hloss : ∀ a ∈ nodes, a.isLoss = false) :
    ∀ a ∈ expand nodes, a.isLoss = false := by
  intro a ha
  have hmem := (perm_ident_expand nodes).mem_iff.mp (List.mem_map_of_mem (f := ident) ha)
  have hlayer : ∀ {b : Node α}, ident b = ident a → a.isLoss = b.isLoss := fun h => by
    simp only [ident, Prod.mk.injEq] at h
    rw [Node.isLoss, Node.isLoss, h.2.1]
  rcases List.mem_append.mp hmem with hmem | hmem
  · obtain ⟨b, hb, heq⟩ := List.mem_map.mp hmem
    exact (hlayer heq).trans (hloss b hb)
  · obtain ⟨b, -, heq⟩ := List.mem_map.mp hmem
    exact hlayer heq

theorem lower_none_apply (rules : List FusionRule) (hloss : ∀ a ∈ nodes, a.isLoss = false) :
    lower none rules nodes =
      ((do Action.update setOutputs; separateReaders) : Action (List (Node α)) Unit)
      (expand nodes) := by
  have hstep : lower none rules nodes =
      ((do fuse rules; Action.update setOutputs; separateReaders) : Action (List (Node α)) Unit)
        (expand nodes) := rfl
  rw [hstep, Action.bind_of_ok (fuse_of_no_loss rules (isLoss_expand hloss))]

variable (hn : (nodes.map (·.name)).Nodup)
include hr hn

theorem uses_iff (hd : ((expand nodes).map (·.name)).Nodup) {name : String}
    (hname : name ∈ nodes.map (·.name)) {k : Nat} :
    (∃ r, Reads (expand nodes) r ⟨newName nodes name, k⟩) ↔ Uses nodes name k := by
  by_cases hs : k = 0 ∧ name ∈ splitting nodes
  · obtain ⟨rfl, hs⟩ := hs
    exact iff_of_true ⟨_, (reads_expand_split_iff hr hd hs).mpr rfl⟩ (.inr ⟨rfl, hs⟩)
  · have htarget : (⟨newName nodes name, k⟩ : Connection) = target nodes ⟨name, k⟩ := by
      rw [target, if_neg hs]
    rw [htarget, Uses, or_iff_left hs]
    simp only [reads_expand_target_iff hr hd hn (c := ⟨name, k⟩) hname]
    exact ⟨fun ⟨_, r, hread, _⟩ => ⟨r, hread⟩, fun ⟨r, hread⟩ => ⟨_, r, hread, rfl⟩⟩

theorem dense_expand_iff (hd : ((expand nodes).map (·.name)).Nodup) :
    (∀ a ∈ expand nodes, Dense (expand nodes) a.name) ↔
      ∀ a ∈ nodes, ∀ k, Uses nodes a.name k → ∀ j < k, Uses nodes a.name j := by
  have huses := fun {name} (h : name ∈ nodes.map (·.name)) {k} => uses_iff hr hn hd h (k := k)
  constructor
  · intro h a ha
    have hname := List.mem_map_of_mem (f := fun a : Node α => a.name) ha
    obtain ⟨b, hb, hbn⟩ := List.mem_map.mp ((names_expand nodes).mem_iff.mpr
      (List.mem_append_left _ (List.mem_map_of_mem hname)))
    have hdense := h b hb
    rw [hbn] at hdense
    simpa only [Dense, huses hname] using hdense
  · intro h b hb
    have hmem :=
      (names_expand nodes).mem_iff.mp (List.mem_map_of_mem (f := fun a : Node α => a.name) hb)
    rcases List.mem_append.mp hmem with hmem | hmem
    · obtain ⟨name, hname, hbn⟩ := List.mem_map.mp hmem
      obtain ⟨a, ha, rfl⟩ := List.mem_map.mp hname
      rw [← hbn]
      simpa only [Dense, huses hname] using h a ha
    · -- Only slot 0 of an activation is read.
      obtain ⟨p, hp, hbn⟩ := List.mem_map.mp hmem
      rw [← hbn]
      rintro k ⟨r, hread⟩ j hj
      have hk : k = 0 := by
        rcases (reads_expand_iff hr hd).mp hread with ⟨r', c, hread, -, htarget⟩ | ⟨q, hq, -, heq⟩
        · unfold target at htarget
          split at htarget
          · exact (Connection.mk.inj htarget).2.symm
          · have hc := wireDefaults_names nodes ▸ resolved_wireDefaults hr _ _ hread
            refine absurd ?_ ((nodup_expand_iff hn).mp hd p hp)
            rw [← (Connection.mk.inj htarget).1]
            exact List.mem_map_of_mem hc
        · exact (Connection.mk.inj heq).2
      omega

/-- Nodes without losses can be lowered, to nodes of distinct names, exactly if nothing is wrong
with their names and slots. -/
theorem exists_lower_iff (rules : List FusionRule) (hloss : ∀ a ∈ nodes, a.isLoss = false) :
    (∃ nodes', lower none rules nodes = .ok () nodes' ∧ (nodes'.map (·.name)).Nodup) ↔
      Lowerable nodes := by
  rw [lower_none_apply rules hloss]
  constructor
  · rintro ⟨nodes', h, hd⟩
    obtain ⟨_, n₁, hset, hsep⟩ := Action.bind_eq_ok_iff.mp h
    have hset := Action.update_eq_ok_iff.mp hset
    have hd₁ := hd.sublist (names_sublist_separateReaders hsep)
    have hd₀ : ((expand nodes).map (·.name)).Nodup := setOutputs_names hset ▸ hd₁
    have hr₁ := resolved_setOutputs hset hd₀
    have hl₁ := fun a (ha : a ∈ n₁) => listed_setOutputs hset hd₀ ha
    refine ⟨fun name hg => ?_, (dense_expand_iff hr hn hd₀).mp
      ((exists_setOutputs_iff hd₀).mp ⟨_, hset⟩).2⟩
    cases hg with
    | activation hp => exact (nodup_expand_iff hn).mp hd₀ _ hp
    | @fanOut s hmany =>
      have hfanned : target nodes s ∈ fanned (slotTable n₁) := by
        rw [mem_fanned_slotTable hr₁ hl₁]
        simp only [SingleRead, reads_setOutputs_iff hset]
        exact (not_single_expand_iff hr hd₀ hn).mpr ⟨s, rfl, hmany⟩
      have hfresh := (separated_of_ok hr₁ hl₁ hsep hd).fresh _ hfanned
      rw [setOutputs_names hset] at hfresh
      exact fun hmem => hfresh ((names_expand nodes).mem_iff.mpr (List.mem_append_left _ hmem))
  · rintro ⟨hfresh, hdense⟩
    have hd₀ := (nodup_expand_iff hn).mpr fun p hp => hfresh _ (.activation hp)
    obtain ⟨n₁, hset⟩ := (exists_setOutputs_iff hd₀).mpr
      ⟨resolved_expand hr hd₀, (dense_expand_iff hr hn hd₀).mpr hdense⟩
    have hr₁ := resolved_setOutputs hset hd₀
    have hl₁ := fun a (ha : a ∈ n₁) => listed_setOutputs hset hd₀ ha
    have hd₁ : (n₁.map (·.name)).Nodup := setOutputs_names hset ▸ hd₀
    have hd : ((insertFanOut n₁).map (·.name)).Nodup := by
      rw [(splits_insertFanOut n₁).names_perm.nodup_iff, List.nodup_append]
      refine ⟨hd₁, ?_, fun name hname fan hfan heq => ?_⟩
      · exact ((nodup_slotTable hd₁).sublist (List.filter_sublist.map _)).map fanOutOf_injective
      · obtain ⟨s, hs, rfl⟩ := List.mem_map.mp hfan
        rw [mem_fanned_slotTable hr₁ hl₁] at hs
        simp only [SingleRead, reads_setOutputs_iff hset] at hs
        obtain ⟨c, rfl, hmany⟩ := (not_single_expand_iff hr hd₀ hn).mp hs
        rw [setOutputs_names hset, (names_expand nodes).mem_iff, List.mem_append] at hname
        rcases hname with hname | hname
        · exact hfresh _ (.fanOut hmany) (heq ▸ hname)
        · obtain ⟨p, -, hp⟩ := List.mem_map.mp hname
          exact fanOutOf_ne_activationName _ _ (heq.symm.trans hp.symm)
    obtain ⟨nodes', hsep, hnames⟩ := exists_separateReaders hr₁ hl₁ hd
    exact ⟨nodes', by rw [Action.bind_of_ok (Action.update_of_ok hset), hsep], hnames ▸ hd⟩

end Expand

end LayerGraph.Lowering
