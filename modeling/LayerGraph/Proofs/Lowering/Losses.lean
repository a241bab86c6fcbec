import LayerGraph.Lowering.Losses
import LayerGraph.Proofs.Lowering.Renaming

/-!
# Losses

At most one loss is appended, and it reads the only node that nobody has read. Without rules, or
without losses, nothing is fused.
-/

namespace LayerGraph.Lowering

variable {α : Type} {nodes nodes' : List (Node α)}

theorem mem_terminals_iff {t : String} : t ∈ terminals nodes ↔
    t ∈ nodes.map (·.name) ∧ ∀ r c, Reads nodes r c → c.name ≠ t := by
  simp only [terminals, List.mem_filter, Bool.not_eq_true', List.any_eq_false,
    beq_iff_eq, connections, List.mem_flatMap, Reads]
  refine and_congr_right fun _ => ⟨?_, ?_⟩
  · rintro h r c ⟨a, ha, -, hc⟩
    exact h c ⟨a, ha, List.mem_of_getElem? hc⟩
  · rintro h c ⟨a, ha, hc⟩
    obtain ⟨j, hj⟩ := List.getElem?_of_mem hc
    exact h ⟨a.name, j⟩ c ⟨a, ha, rfl, hj⟩

variable [Zero α]

/-- What is appended to the nodes: nothing, or a loss of a new name that reads the only terminal. -/
inductive Appended (nodes : List (Node α)) : List (Node α) → Prop where
  | nothing : Appended nodes []
  | loss {kind : Loss} {name terminal : String} (fresh : name ∉ nodes.map (·.name))
      (only : terminals nodes = [terminal]) :
      Appended nodes [.ofLayer (.loss kind) name [⟨terminal, 0⟩]]

/-- What is appended reads a node that nobody has read. -/
theorem Appended.unread {more : List (Node α)} (h : Appended nodes more) {r c r' c' : Connection}
    (hread : Reads more r c) (hread' : Reads nodes r' c') : c'.name ≠ c.name := by
  cases h with
  | nothing => obtain ⟨_, ha, -⟩ := hread; cases ha
  | loss _ only =>
    obtain ⟨-, rfl⟩ := reads_ofLayer_iff.mp hread
    exact (mem_terminals_iff.mp (only ▸ List.mem_singleton_self _)).2 r' c' hread'

/-- A loss is appended to nodes without losses that have one terminal. -/
theorem addLoss_eq_ok {loss : Option String} (h : addLoss loss nodes = .ok nodes') :
    nodes' = nodes ∨ ∃ kind : Loss, ∃ terminal, (∀ a ∈ nodes, a.isLoss = false) ∧
      terminals nodes = [terminal] ∧
      nodes' = nodes ++ [.ofLayer (.loss kind) (freshName kind.name (nodes.map (·.name)))
        [⟨terminal, 0⟩]] := by
  unfold addLoss at h
  split at h
  · cases h
    exact .inl rfl
  · split at h
    · cases h
      exact .inl rfl
    · unfold appendLoss at h
      split at h
      · cases h
      · next kind _ =>
        split at h
        · cases h
        · next hnone =>
          split at h
          · next terminal hterminal =>
            cases h
            exact .inr ⟨kind, terminal, fun a ha => by simpa using List.find?_eq_none.mp hnone a ha,
              hterminal, rfl⟩
          · cases h

theorem appended_of_addLoss {loss : Option String} (h : addLoss loss nodes = .ok nodes') :
    ∃ more, nodes' = nodes ++ more ∧ Appended nodes more := by
  rcases addLoss_eq_ok h with rfl | ⟨kind, terminal, -, honly, rfl⟩
  · exact ⟨[], by simp, .nothing⟩
  · exact ⟨_, rfl, .loss (freshName_not_mem _ _) honly⟩

section Fuse

omit [Zero α]

theorem fuseAt_nil (i : Nat) (node : Node α) (kind : Loss) :
    fuseAt [] nodes i node kind = (nodes, i) := by
  have hnone : fusion? [] nodes node kind = none := by
    simp only [fusion?, List.find?_nil]
    split
    · simp
    · rfl
  rw [fuseAt, hnone]

/-- Without rules the nodes stay as they are. -/
theorem nodes_of_fuse_nil {u : Unit} (h : fuse [] nodes = .ok u nodes') : nodes' = nodes := by
  unfold fuse at h
  generalize 0 = i at h
  fun_induction fuseFrom [] i nodes with
  | case1 i nodes hi hloss ih => exact ih h
  | case2 => cases h
  | case3 i nodes hi kind hloss fused hf hcross ih =>
    rw [ih h]
    exact congrArg Prod.fst (fuseAt_nil i nodes[i] kind)
  | case4 i nodes hi kind hloss fused hf =>
    cases h
    exact congrArg Prod.fst (fuseAt_nil i nodes[i] kind)
  | case5 => cases h; rfl

/-- Without losses there is nothing to fuse. -/
theorem fuse_of_no_loss (rules : List FusionRule) (h : ∀ a ∈ nodes, a.isLoss = false) :
    fuse rules nodes = .ok () nodes := by
  unfold fuse
  generalize 0 = i
  have hnone : ∀ (i : Nat) (hi : i < nodes.length), nodes[i].layer.loss? = none := fun i hi => by
    simpa [Node.isLoss] using h _ (List.getElem_mem hi)
  fun_induction fuseFrom rules i nodes with
  | case1 i nodes hi hloss ih => exact ih h hnone
  | case2 i nodes hi kind hloss => rw [hnone i hi] at hloss; cases hloss
  | case3 i nodes hi kind hloss => rw [hnone i hi] at hloss; cases hloss
  | case4 i nodes hi kind hloss => rw [hnone i hi] at hloss; cases hloss
  | case5 => rfl

end Fuse

end LayerGraph.Lowering
