import LayerGraph.Proofs.Lowering.Expanded

/-!
# Lowered nodes

Lowering makes no layer of its own kind: what it adds are activations, losses and fan-out nodes.
When it succeeds, every input names a node, the outputs list all reads and no slot is read twice.
-/

namespace LayerGraph

variable {α : Type}

/-- A layer whose hooks are those of the library. -/
def Layer.isShipped : Layer α → Bool
  | .custom _ => false
  | _ => true

/-- A node as it is before the network is compiled: nothing is decided about its buffer. -/
def Node.IsPlain (node : Node α) : Prop := node.layer.isShipped = true ∧ node.bufferUse = .own

theorem Node.isPlain_ofLayer [Zero α] {layer : Layer α} (h : layer.isShipped = true)
    (name : String) (inputs : List Connection) : (Node.ofLayer layer name inputs).IsPlain :=
  ⟨h, rfl⟩

namespace Lowering

def AllPlain (nodes : List (Node α)) : Prop := ∀ node ∈ nodes, node.IsPlain

/-- A property of nodes that depends on the layer, the use of the buffer and on whether weights are
shared alone, and that every node has which lowering makes. -/
structure Inherited [Zero α] (P : Node α → Prop) : Prop where
  same : ∀ a b : Node α, b.layer = a.layer → b.bufferUse = a.bufferUse →
    b.sharedFrom.isSome = a.sharedFrom.isSome → P a → P b
  made : ∀ layer name inputs, layer.isShipped = true → layer.isTrained = false →
    P (Node.ofLayer layer name inputs)
  fused : ∀ (a : Node α) kind, P a → P { a with layer := .loss kind }

theorem inherited_isPlain [Zero α] : Inherited (Node.IsPlain (α := α)) where
  same a b hl hu _ h := ⟨by rw [hl]; exact h.1, hu.trans h.2⟩
  made _ name inputs h _ := Node.isPlain_ofLayer h name inputs
  fused _ _ h := ⟨rfl, h.2⟩

variable {nodes : List (Node α)} {P : Node α → Prop}

theorem all_append {more : List (Node α)} (h : ∀ a ∈ nodes, P a) (hm : ∀ a ∈ more, P a) :
    ∀ a ∈ nodes ++ more, P a := fun a ha => (List.mem_append.mp ha).elim (h a) (hm a)

theorem all_cons {node : Node α} (hn : P node) (h : ∀ a ∈ nodes, P a) : ∀ a ∈ node :: nodes, P a :=
  List.forall_mem_cons.mpr ⟨hn, h⟩

theorem all_of_map_eq {β : Type} {f : Node α → β} {nodes' : List (Node α)}
    (hf : ∀ a b, f a = f b → P a → P b) (h : nodes'.map f = nodes.map f) (hn : ∀ a ∈ nodes, P a) :
    ∀ a ∈ nodes', P a := by
  intro a ha
  obtain ⟨b, hb, heq⟩ := List.mem_map.mp (h ▸ List.mem_map_of_mem ha)
  exact hf b a heq (hn b hb)

namespace Inherited

variable [Zero α] (hP : Inherited P)
include hP

theorem map {f : Node α → Node α}
    (hf : ∀ a, (f a).layer = a.layer ∧ (f a).bufferUse = a.bufferUse ∧ (f a).sharedFrom.isSome =
      a.sharedFrom.isSome) (h : ∀ a ∈ nodes, P a) : ∀ a ∈ nodes.map f, P a := by
  intro a ha
  obtain ⟨b, hb, rfl⟩ := List.mem_map.mp ha
  exact hP.same b _ (hf b).1 (hf b).2.1 (hf b).2.2 (h b hb)

theorem renameReserved (h : ∀ a ∈ nodes, P a) : ∀ a ∈ renameReserved nodes, P a :=
  hP.map (fun _ => ⟨rfl, rfl, Option.isSome_map ..⟩) h

theorem wireAfter (previous : String) (h : ∀ a ∈ nodes, P a) :
    ∀ a ∈ wireAfter previous nodes, P a := by
  induction nodes generalizing previous with
  | nil => exact h
  | cons node rest ih =>
    refine all_cons ?_ (ih node.name fun a ha => h a (by simp [ha]))
    have hn := h node (by simp)
    split
    · exact hP.same node _ rfl rfl rfl hn
    · exact hn

theorem wireDefaults (h : ∀ a ∈ nodes, P a) : ∀ a ∈ wireDefaults nodes, P a := by
  cases nodes with
  | nil => exact h
  | cons first rest =>
    exact all_cons (h first (by simp)) (hP.wireAfter _ fun a ha => h a (by simp [ha]))

theorem splitFrom {before rest : List (Node α)} (hb : ∀ a ∈ before, P a) (hr : ∀ a ∈ rest, P a) :
    ∀ a ∈ splitFrom before rest, P a := by
  induction hlen : rest.length generalizing before rest with
  | zero =>
    rw [List.length_eq_zero_iff.mp hlen, Lowering.splitFrom]
    exact hb
  | succ length ih =>
    obtain ⟨node, rest, rfl⟩ := List.exists_cons_of_length_eq_add_one hlen
    have hn := hr node (by simp)
    have hrest : ∀ a ∈ rest, P a := fun a ha => hr a (by simp [ha])
    rw [Lowering.splitFrom]
    split
    · have hredirect : ∀ {more : List (Node α)}, (∀ a ∈ more, P a) →
          ∀ a ∈ more.map (redirectNode node.name), P a :=
            fun h => hP.map (fun _ => ⟨rfl, rfl, rfl⟩) h
      refine ih (all_append (hredirect hb) ?_) (hredirect hrest) (by simpa using hlen)
      exact all_cons (hP.same node _ rfl rfl rfl hn) (all_cons (hP.made _ _ _ rfl rfl) (by simp))
    · exact ih (all_append hb (all_cons hn (by simp))) hrest (by simpa using hlen)

theorem addLoss {loss : Option String} {nodes' : List (Node α)} (h : ∀ a ∈ nodes, P a)
    (hl : addLoss loss nodes = .ok nodes') : ∀ a ∈ nodes', P a := by
  obtain ⟨more, rfl, hmore⟩ := appended_of_addLoss hl
  cases hmore with
  | nothing => simpa using h
  | loss _ _ => exact all_append h (all_cons (hP.made _ _ _ rfl rfl) (by simp))

theorem fuseAt (rules : List FusionRule) {i : Nat} {node : Node α} (kind : Loss)
    (h : ∀ a ∈ nodes, P a) (hn : P node) : ∀ a ∈ (fuseAt rules nodes i node kind).1, P a := by
  unfold Lowering.fuseAt
  split
  · exact h
  · next fusion _ =>
    intro a ha
    rcases List.mem_or_eq_of_mem_set (List.mem_of_mem_eraseIdx ha) with ha | rfl
    · exact h a ha
    · exact hP.same { node with layer := .loss fusion.fused } _ rfl rfl rfl
        (hP.fused node fusion.fused hn)

theorem keeps_fuse (rules : List FusionRule) :
    Action.Keeps (fun nodes : List (Node α) => ∀ a ∈ nodes, P a) (fuse rules) := by
  intro nodes h
  change ∀ a ∈ Action.after (fuseFrom rules 0) nodes, P a
  generalize 0 = i
  unfold Action.after
  fun_induction fuseFrom rules i nodes with
  | case1 i nodes hi hloss ih => exact ih h
  | case2 i nodes hi kind hloss fused hf hcross =>
    exact hP.fuseAt rules kind h (h _ (List.getElem_mem hi))
  | case3 i nodes hi kind hloss fused hf hcross ih =>
    exact ih (hP.fuseAt rules kind h (h _ (List.getElem_mem hi)))
  | case4 i nodes hi kind hloss fused hf =>
    exact hP.fuseAt rules kind h (h _ (List.getElem_mem hi))
  | case5 i nodes hi => exact h

theorem setOutputs {nodes' : List (Node α)} (h : ∀ a ∈ nodes, P a)
    (hs : setOutputs nodes = .ok nodes') : ∀ a ∈ nodes', P a := by
  intro a ha
  obtain ⟨node, hn, heq⟩ := setOutputs_mem hs ha
  rw [heq]
  exact hP.same node _ rfl rfl rfl (h node hn)

theorem insertFanOut (h : ∀ a ∈ nodes, P a) : ∀ a ∈ insertFanOut nodes, P a := by
  intro a ha
  have hmem := (splits_insertFanOut nodes).perm.mem_iff.mp (List.mem_map_of_mem ha)
  have hbare : P (bare a) := by
    rcases List.mem_append.mp hmem with hmem | hmem
    · obtain ⟨b, hb, heq⟩ := List.mem_map.mp hmem
      rw [← heq]
      exact hP.same b _ rfl rfl rfl (h b hb)
    · obtain ⟨s, -, heq⟩ := List.mem_map.mp hmem
      rw [← heq]
      exact hP.same _ _ rfl rfl rfl (hP.made _ _ _ rfl rfl)
  exact hP.same (bare a) a rfl rfl rfl hbare

theorem keeps_separateReaders : Action.Keeps (fun nodes : List (Node α) => ∀ a ∈ nodes,
    P a) separateReaders := by
  refine Action.keeps_get.bind fun _ => ?_
  refine Action.Keeps.bind (Action.keeps_modify fun nodes h => ?_) fun _ => ?_
  · exact hP.insertFanOut h
  · refine Action.keeps_get.bind fun _ => ?_
    split
    · exact Action.keeps_update fun nodes nodes' h hs => hP.setOutputs h hs
    · exact Action.keeps_pure _

theorem keeps_lower (loss : Option String) (rules : List FusionRule) :
    Action.Keeps (fun nodes : List (Node α) => ∀ a ∈ nodes, P a) (lower loss rules) := by
  refine Action.Keeps.bind (Action.keeps_modify fun _ h => hP.renameReserved h) fun _ => ?_
  refine Action.Keeps.bind (Action.keeps_modify fun _ h => hP.wireDefaults h) fun _ => ?_
  refine Action.Keeps.bind (Action.keeps_modify fun _ h => hP.splitFrom (by simp) h) fun _ => ?_
  refine Action.Keeps.bind (Action.keeps_update fun _ _ h hl => hP.addLoss h hl) fun _ => ?_
  refine (hP.keeps_fuse rules).bind fun _ => ?_
  refine Action.Keeps.bind (Action.keeps_update fun _ _ h hs => hP.setOutputs h hs) fun _ => ?_
  exact hP.keeps_separateReaders

end Inherited

variable [Zero α]

theorem lower_spec {loss : Option String} {rules : List FusionRule} {nodes' : List (Node α)}
    {u : Unit} (h : lower loss rules nodes = .ok u nodes') (hd : (nodes'.map (·.name)).Nodup) :
    Resolved nodes' ∧ (∀ a ∈ nodes', Listed nodes' a) ∧ ∀ c, SingleRead nodes' c := by
  obtain ⟨n₃, n₄, n₅, u₁, u₂, hadd, hfuse, hs, h⟩ := stages_of_lower h
  have hd₅ := hd.sublist (names_sublist_separateReaders h)
  have hd₄ : (n₄.map (·.name)).Nodup := setOutputs_names hs ▸ hd₅
  have hsep :=
    separated_of_ok (resolved_setOutputs hs hd₄) (fun a ha => listed_setOutputs hs hd₄ ha) h hd
  exact ⟨hsep.resolved, hsep.listed, hsep.single⟩

end Lowering

end LayerGraph
