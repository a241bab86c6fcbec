import LayerGraph.Proofs.Lowering.Losses

/-!
# Fusion

A loss is fused with the activation in front of it: the activation goes, and the loss, now of the
fused kind, reads what the activation has read. No name comes in, and nothing but the activation
loses a reader.
-/

namespace LayerGraph.Lowering

variable {α : Type} {rules : List FusionRule} {nodes nodes' : List (Node α)} {name : String}

/-- Some input names a node of this name, whether there is one or not. -/
def Mentions (nodes : List (Node α)) (name : String) : Prop :=
  ∃ a ∈ nodes, ∃ c ∈ a.inputs, c.name = name

instance (nodes : List (Node α)) (name : String) : Decidable (Mentions nodes name) :=
  inferInstanceAs (Decidable (∃ a ∈ nodes, ∃ c ∈ a.inputs, c.name = name))

theorem mentions_iff_reads : Mentions nodes name ↔ ∃ r c, Reads nodes r c ∧ c.name = name := by
  constructor
  · rintro ⟨a, ha, c, hc, hname⟩
    obtain ⟨i, hi⟩ := List.getElem?_of_mem hc
    exact ⟨⟨a.name, i⟩, c, ⟨a, ha, rfl, hi⟩, hname⟩
  · rintro ⟨r, c, ⟨a, ha, -, hc⟩, hname⟩
    exact ⟨a, ha, c, List.mem_of_getElem? hc, hname⟩

theorem mem_terminals_iff_mentions : name ∈ terminals nodes ↔
    name ∈ nodes.map (·.name) ∧ ¬ Mentions nodes name := by
  rw [mem_terminals_iff, mentions_iff_reads]
  simp only [not_exists, not_and]

theorem Mentions.append_left (h : Mentions nodes name) (more : List (Node α)) :
    Mentions (nodes ++ more) name := by
  obtain ⟨a, ha, h⟩ := h
  exact ⟨a, List.mem_append_left more ha, h⟩

/-- What is found where the loss `node` is fused with the activation `a` at position `p`. -/
structure Fuses (rules : List FusionRule) (nodes : List (Node α)) (node a : Node α)
    (kind fused : Loss) (p : Nat) (source : Connection) : Prop where
  producer : nodes[p]? = some a
  ruled : ∃ rule ∈ rules, a.layer.activation? = some rule.activation ∧ rule.loss = kind ∧
    rule.fused = fused
  reader : ∃ slot, node.inputs = [⟨a.name, slot⟩]
  source : a.inputs = [source]
  once : readCount nodes a.name = 1

theorem fuses_of_fusion? {node : Node α} {kind : Loss} {fusion : Fusion nodes.length}
    (h : fusion? rules nodes node kind = some fusion) :
    Fuses rules nodes node nodes[fusion.producer] kind fusion.fused fusion.producer
      fusion.source := by
  unfold fusion? at h
  split at h
  · next input hinputs =>
    simp only [Option.bind_eq_bind, Option.bind_eq_some_iff] at h
    obtain ⟨p, hfind, f, hf, rule, hrule, h⟩ := h
    have hname : nodes[p].name = input.name := by
      simpa using (List.findFinIdx?_eq_some_iff.mp hfind).1
    have hfit := List.find?_some hrule
    rw [decide_eq_true_eq] at hfit
    split at h
    · next source hsource =>
      split at h
      · next honce =>
        cases h
        refine ⟨List.getElem?_eq_getElem _,
          ⟨rule, List.mem_of_find?_eq_some hrule, ?_, hfit.2, rfl⟩, ⟨input.index, ?_⟩, hsource, ?_⟩
        · rw [hfit.1]
          exact hf
        · rw [hinputs, hname]
        · rw [hname]
          exact honce
      · cases h
    · cases h
  · cases h

/-- The loss that stands for itself and the activation in front of it. -/
def fusedNode (node : Node α) (fused : Loss) (source : Connection) : Node α :=
  { node with layer := .loss fused, inputs := [source] }

theorem fuseAt_eq_or (rules : List FusionRule) (nodes : List (Node α)) (i : Nat) (node : Node α)
    (kind : Loss) : fuseAt rules nodes i node kind = (nodes, i) ∨
    ∃ a fused p source, Fuses rules nodes node a kind fused p source ∧
      fuseAt rules nodes i node kind = ((nodes.set i (fusedNode node fused source)).eraseIdx p,
        if p < i then i - 1 else i) := by
  unfold fuseAt
  split
  · exact .inl rfl
  · next fusion h => exact .inr ⟨_, _, _, _, fuses_of_fusion? h, rfl⟩

section Dangling

variable {i : Nat} {node : Node α} {kind : Loss}

/-- Fusing brings in no name. -/
theorem mem_of_mem_fuseAt (hnode : node ∈ nodes)
    (h : name ∈ (fuseAt rules nodes i node kind).1.map (·.name)) : name ∈ nodes.map (·.name) := by
  rcases fuseAt_eq_or rules nodes i node kind with heq | ⟨_, fused, p, source, -, heq⟩
  · rwa [heq] at h
  · rw [heq] at h
    obtain ⟨a, ha, rfl⟩ := List.mem_map.mp h
    rcases List.mem_or_eq_of_mem_set (List.mem_of_mem_eraseIdx ha) with ha | rfl
    · exact List.mem_map_of_mem ha
    · exact List.mem_map.mpr ⟨node, hnode, rfl⟩

/-- An input that names no node stays: the loss that is fused has named the activation. -/
theorem mentions_fuseAt (hi : nodes[i]? = some node)
    (h : Mentions nodes name) (hname : name ∉ nodes.map (·.name)) :
    Mentions (fuseAt rules nodes i node kind).1 name := by
  rcases fuseAt_eq_or rules nodes i node kind with heq | ⟨b, fused, p, source, hf, heq⟩
  · rwa [heq]
  obtain ⟨a, ha, c, hc, hcname⟩ := h
  obtain ⟨j, hj⟩ := List.getElem?_of_mem ha
  rw [heq]
  by_cases hji : j = i
  · -- The loss reads nothing but the activation, which has a name.
    rw [hji, hi, Option.some.injEq] at hj
    obtain ⟨slot, hinputs⟩ := hf.reader
    rw [← hj, hinputs, List.mem_singleton] at hc
    refine absurd ?_ hname
    rw [← hcname, hc]
    exact List.mem_map_of_mem (List.mem_of_getElem? hf.producer)
  by_cases hjp : j = p
  · refine ⟨fusedNode node fused source, ?_, source, List.mem_singleton_self _, ?_⟩
    · refine List.mem_eraseIdx_iff_getElem?.mpr ⟨i, fun hip => hji (hjp.trans hip.symm), ?_⟩
      rw [List.getElem?_set_self (List.getElem?_eq_some_iff.mp hi).1]
    · rw [hjp, hf.producer, Option.some.injEq] at hj
      rw [← hj, hf.source, List.mem_singleton] at hc
      rw [← hcname, hc]
  · refine ⟨a, ?_, c, hc, hcname⟩
    refine List.mem_eraseIdx_iff_getElem?.mpr ⟨j, hjp, ?_⟩
    rw [List.getElem?_set_ne (Ne.symm hji)]
    exact hj

/-- Fusing lets no input that names no node get by. -/
theorem mentions_of_fuse {u : Unit} (h : fuse rules nodes = .ok u nodes')
    (hmentions : Mentions nodes name) (hname : name ∉ nodes.map (·.name)) : Mentions nodes' name ∧
    name ∉ nodes'.map (·.name) := by
  have hstep : ∀ {i : Nat} {nodes : List (Node α)} (hi : i < nodes.length) {kind : Loss},
      Mentions nodes name → name ∉ nodes.map (·.name) →
        Mentions (fuseAt rules nodes i nodes[i] kind).1 name ∧
        name ∉ (fuseAt rules nodes i nodes[i] kind).1.map (·.name) := fun hi _ hm hn =>
    ⟨mentions_fuseAt (List.getElem?_eq_getElem hi) hm hn,
      fun hmem => hn (mem_of_mem_fuseAt (List.getElem_mem hi) hmem)⟩
  unfold fuse at h
  generalize 0 = i at h
  fun_induction fuseFrom rules i nodes with
  | case1 i nodes hi hloss ih => exact ih hmentions hname h
  | case2 => cases h
  | case3 i nodes hi kind hloss fused hf hcross ih =>
    obtain ⟨hm, hn⟩ := hstep hi hmentions hname
    exact ih hm hn h
  | case4 i nodes hi kind hloss fused hf =>
    cases h
    exact hstep hi hmentions hname
  | case5 => cases h; exact ⟨hmentions, hname⟩

end Dangling

section Appended

variable {l : Node α} {kind : Loss} {u : Unit}

theorem last_of_loss {xs : List (Node α)} {i last : Nat} {k : Loss} (hlast : xs[last]? = some l)
    (hl : l.layer.loss? = some kind)
    (hother : ∀ i < last, ∀ a, xs[i]? = some a → a.layer.loss? = none) (hi : i < xs.length)
    (hle : i ≤ last) (hk : xs[i].layer.loss? = some k) : i = last ∧ xs[i] = l ∧ k = kind := by
  have hxs := List.getElem?_eq_getElem hi
  rcases Nat.lt_or_eq_of_le hle with hlt | rfl
  · rw [hother i hlt _ hxs] at hk
    cases hk
  · rw [hlast, Option.some.injEq] at hxs
    rw [← hxs, hl] at hk
    exact ⟨rfl, hxs.symm, (Option.some.inj hk).symm⟩

/-- If the only loss is the last node, it alone is fused. -/
theorem fuse_concat (hloss : ∀ a ∈ nodes, a.isLoss = false) (hl : l.layer.loss? = some kind)
    (h : fuse rules (nodes ++ [l]) = .ok u nodes') :
    nodes' = (fuseAt rules (nodes ++ [l]) nodes.length l kind).1 := by
  unfold fuse at h
  have hlast : (nodes ++ [l])[nodes.length]? = some l := List.getElem?_concat_length
  have hlen : (nodes ++ [l]).length = nodes.length + 1 := List.length_append
  have hother : ∀ i < nodes.length, ∀ a, (nodes ++ [l])[i]? = some a → a.layer.loss? = none := by
    intro i hi a ha
    rw [List.getElem?_append_left hi] at ha
    exact Option.isNone_iff_eq_none.mp (Option.isSome_eq_false_iff.mp
      (hloss a (List.mem_of_getElem? ha)))
  have hle : 0 ≤ nodes.length := Nat.zero_le _
  generalize 0 = i at h hle
  generalize nodes ++ [l] = xs at *
  -- The search comes to the end of the list without having met a loss.
  have hend : ∀ {i : Nat} {ys : List (Node α)}, ys.length ≤ i →
      fuseFrom rules i ys = .ok () ys := by
    intro i ys hi
    rw [fuseFrom, dif_neg (Nat.not_lt.mpr hi)]
  fun_induction fuseFrom rules i xs with
  | case1 i xs hi hnone ih =>
    refine ih ?_ hlast hlen hother h
    rcases Nat.lt_or_eq_of_le hle with hlt | rfl
    · exact hlt
    · rw [List.getElem?_eq_getElem hi, Option.some.injEq] at hlast
      rw [hlast, hl] at hnone
      cases hnone
  | case2 => cases h
  | case3 i xs hi k hk fused hf hcross ih =>
    obtain ⟨rfl, hx, rfl⟩ := last_of_loss hlast hl hother hi hle hk
    have hrest : fused.1.length - fused.2 ≤ xs.length - nodes.length :=
      remaining_fuseAt rules xs _ _ k
    rw [hend (by omega)] at h
    cases h
    rw [← hx]
  | case4 i xs hi k hk fused hf =>
    obtain ⟨rfl, hx, rfl⟩ := last_of_loss hlast hl hother hi hle hk
    cases h
    rw [← hx]
  | case5 i xs hi => omega

/-- Nodes that nobody reads are as many terminals, also if they share a name. -/
theorem length_le_terminals {some : List (Node α)} (hsub : some.Sublist nodes)
    (h : ∀ a ∈ some, a.name ∈ terminals nodes) : some.length ≤ (terminals nodes).length := by
  have hfilter : (some.map (·.name)).Sublist (terminals nodes) := by
    have hall : (some.map (·.name)).filter (fun name => !(connections nodes).any (·.name == name)) =
        some.map (·.name) := by
      refine List.filter_eq_self.mpr fun name hname => ?_
      obtain ⟨a, ha, rfl⟩ := List.mem_map.mp hname
      exact (List.mem_filter.mp (h a ha)).2
    rw [← hall]
    exact (hsub.map _).filter _
  simpa using hfilter.length_le

/-- A loss that stands for itself and for the only terminal leaves no terminal, if the loss is
read. -/
theorem mentions_of_fused {before behind : List (Node α)} {a l : Node α} {fused : Loss}
    {source : Connection} (only : terminals (before ++ a :: behind) = [a.name])
    (hsource : a.inputs = [source]) (hl : Mentions (before ++ a :: behind) l.name) :
    ∀ x ∈ (before ++ behind ++ [fusedNode l fused source]).map (·.name),
      Mentions (before ++ behind ++ [fusedNode l fused source]) x := by
  have hkept : ∀ x, Mentions (before ++ a :: behind) x →
      Mentions (before ++ behind ++ [fusedNode l fused source]) x := by
    rintro x ⟨b, hb, c, hc, hname⟩
    rcases List.mem_append.mp hb with hb | hb
    · exact ⟨b, List.mem_append_left _ (List.mem_append_left _ hb), c, hc, hname⟩
    · rcases List.mem_cons.mp hb with rfl | hb
      · rw [hsource] at hc
        exact ⟨_, List.mem_append_right _ (List.mem_singleton_self _), c, hc, hname⟩
      · exact ⟨b, List.mem_append_left _ (List.mem_append_right _ hb), c, hc, hname⟩
  have hread : ∀ b ∈ before ++ behind, Mentions (before ++ a :: behind) b.name := by
    intro b hb
    by_contra hunread
    have hbt : b.name ∈ terminals (before ++ a :: behind) := by
      refine mem_terminals_iff_mentions.mpr ⟨List.mem_map_of_mem ?_, hunread⟩
      simp only [List.mem_append, List.mem_cons] at hb ⊢
      tauto
    have hat : a.name ∈ terminals (before ++ a :: behind) := by
      rw [only]
      exact List.mem_singleton_self _
    have hpair : ∀ c d : Node α, c.name ∈ terminals (before ++ a :: behind) →
        d.name ∈ terminals (before ++ a :: behind) → ¬ [c, d].Sublist (before ++ a :: behind) := by
      intro c d hc hd hsub
      have hle := length_le_terminals hsub (by simp [hc, hd])
      rw [only] at hle
      exact absurd hle (Nat.not_succ_le_self 1)
    rcases List.mem_append.mp hb with hb | hb
    · refine hpair b a hbt hat ((List.singleton_sublist.mpr hb).append ?_)
      exact List.singleton_sublist.mpr (List.mem_cons_self ..)
    · refine hpair a b hat hbt ((List.nil_sublist before).append ?_)
      exact (List.singleton_sublist.mpr hb).cons_cons a
  intro x hx
  rw [List.map_append, List.mem_append] at hx
  rcases hx with hx | hx
  · obtain ⟨b, hb, rfl⟩ := List.mem_map.mp hx
    exact hkept _ (hread b hb)
  · obtain rfl : x = l.name := List.mem_singleton.mp hx
    exact hkept _ hl

/-- Where the loss that is appended is read, everything is read, and it still is once the loss is
fused. -/
theorem mentions_of_fuse_concat {l : Node α} {kind : Loss} {terminal : String}
    (hloss : ∀ a ∈ nodes, a.isLoss = false) (only : terminals nodes = [terminal])
    (hl : l.layer = .loss kind) (hinputs : l.inputs = [⟨terminal, 0⟩])
    (hread : Mentions nodes l.name) (h : fuse rules (nodes ++ [l]) = .ok u nodes') :
    ∀ x ∈ nodes'.map (·.name), Mentions nodes' x := by
  rw [fuse_concat hloss (by rw [hl]; rfl) h]
  rcases fuseAt_eq_or rules (nodes ++ [l]) nodes.length l kind with heq | ⟨a,
    fused, p, source, hf, heq⟩
  · rw [heq]
    intro x hx
    rw [List.map_append, List.mem_append] at hx
    rcases hx with hx | hx
    · by_cases hterminal : x ∈ terminals nodes
      · rw [only, List.mem_singleton] at hterminal
        exact ⟨l, List.mem_append_right _ (List.mem_singleton_self _),
          ⟨terminal, 0⟩, by simp [hinputs], hterminal.symm⟩
      · rw [mem_terminals_iff_mentions, not_and, not_not] at hterminal
        exact (hterminal hx).append_left _
    · obtain rfl : x = l.name := List.mem_singleton.mp hx
      exact hread.append_left _
  · -- The activation is the terminal.
    obtain ⟨slot, hreader⟩ := hf.reader
    obtain ⟨rfl, -⟩ := Connection.mk.inj (List.singleton_inj.mp (hinputs.symm.trans hreader))
    have hp := hf.producer
    have hlt : p < nodes.length := by
      by_contra hge
      obtain ⟨rule, -, hrule, -⟩ := hf.ruled
      rw [List.getElem?_append_right (Nat.le_of_not_lt hge), List.getElem?_singleton] at hp
      split at hp
      · rw [← Option.some.inj hp, hl] at hrule
        cases hrule
      · cases hp
    rw [List.getElem?_append_left hlt] at hp
    obtain ⟨before, behind, rfl, rfl⟩ := exists_append_cons_of_getElem? hp
    have hresult : ((before ++ a :: behind ++ [l]).set (before ++ a :: behind).length
        (fusedNode l fused source)).eraseIdx before.length = before ++ behind ++
        [fusedNode l fused source] := by
      rw [List.set_append_right _ _ (Nat.le_refl _), Nat.sub_self, List.append_assoc,
        List.eraseIdx_append_of_length_le (Nat.le_refl _), Nat.sub_self]
      simp
    rw [heq, hresult]
    exact mentions_of_fused only hf.source hread

end Appended

end LayerGraph.Lowering
