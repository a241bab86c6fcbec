import LayerGraph.Proofs.Lowering.Renumbered
import LayerGraph.Proofs.Network.Lowered

/-!
# Compiling in any order

Nodes whose wiring is explicit compile in any order or in none. The graphs that they compile to
mirror each other: one is the other with its nodes in another order, and with other numbers for the
slots of some multiout nodes.
-/

namespace LayerGraph

open Relation

variable {α : Type}

namespace Lowering

variable {nodes nodes' : List (Node α)} {σ : String → Equiv.Perm Nat}
  (h : Renumbered nodes nodes' σ)
include h

theorem Renumbered.feeds_iff {p q : String} : Feeds nodes' p q ↔ Feeds nodes p q := by
  constructor <;> rintro ⟨i, k, hread⟩
  · exact ⟨i, _, (h.symm.reads _ _).mp hread⟩
  · exact ⟨i, _, (h.reads _ _).mp hread⟩

theorem Renumbered.acyclic (hacyclic : Acyclic nodes) : Acyclic nodes' := fun name hcycle =>
  hacyclic name (TransGen.mono (fun _ _ => h.feeds_iff.mp) _ _ hcycle)

theorem Renumbered.isInput {name : String} (hinput : IsInput nodes name) : IsInput nodes' name := by
  obtain ⟨a, ha, hsource, rfl⟩ := hinput
  obtain ⟨b, hb, hbare⟩ := h.exists_bare ha
  exact ⟨b, hb, by rw [Node.isSource, layer_of_bare hbare]; exact hsource, name_of_bare hbare⟩

theorem Renumbered.reachable (hreach : Reachable nodes) : Reachable nodes' := by
  intro name hname
  obtain ⟨s, hs, hpath⟩ := hreach name (h.perm_names.mem_iff.mp hname)
  exact ⟨s, h.isInput hs, ReflTransGen.mono (fun _ _ => h.feeds_iff.mpr) _ _ hpath⟩

end Lowering

/-- Two graphs of the same nodes, whose orders `π` takes to each other. An input reads the same node
in both, and the same slot but for the slots of some multiout nodes, which `σ` renumbers. -/
structure Counterparts (g g' : NodeGraph (Node α)) (π : Equiv.Perm Nat) (σ : Nat → Equiv.Perm Nat) :
    Prop where
  node : ∀ p, (g'.nodes[π p]?).map Lowering.ident = (g.nodes[p]?).map Lowering.ident
  fixed : ∀ q, σ q = .refl Nat ∨ ∃ a, g.nodes[q]? = some a ∧ a.layer = .multiout
  reads : ∀ p i q k, ReadsSlot g p i q k ↔ ReadsSlot g' (π p) i (π q) (σ q k)

namespace Counterparts

variable {g g' : NodeGraph (Node α)} {π : Equiv.Perm Nat} {σ : Nat → Equiv.Perm Nat}
  (h : Counterparts g g' π σ)
include h

section Node

variable {p : Nat} {a b : Node α}

theorem exists_node (ha : g.nodes[p]? = some a) : ∃ b, g'.nodes[π p]? = some b ∧ Lowering.ident b =
    Lowering.ident a := by
  have hnode := h.node p
  rw [ha] at hnode
  exact Option.map_eq_some_iff.mp hnode

theorem ident_eq (ha : g.nodes[p]? = some a) (hb : g'.nodes[π p]? = some b) :
    Lowering.ident b = Lowering.ident a := by
  obtain ⟨c, hc, hident⟩ := h.exists_node ha
  rwa [← Option.some.inj (hb.symm.trans hc)] at hident

theorem name_eq (ha : g.nodes[p]? = some a) (hb : g'.nodes[π p]? = some b) : b.name = a.name :=
  congrArg (·.1) (h.ident_eq ha hb)

theorem layer_eq (ha : g.nodes[p]? = some a) (hb : g'.nodes[π p]? = some b) : b.layer = a.layer :=
  congrArg (·.2.1) (h.ident_eq ha hb)

theorem trains_eq (ha : g.nodes[p]? = some a) (hb : g'.nodes[π p]? = some b) :
    b.trains = a.trains := by
  have htrainable : b.trainable = a.trainable := congrArg (·.2.2.1) (h.ident_eq ha hb)
  rw [Node.trains, Node.trains, htrainable, h.layer_eq ha hb]

theorem sharedFrom_eq (ha : g.nodes[p]? = some a) (hb : g'.nodes[π p]? = some b) :
    b.sharedFrom = a.sharedFrom :=
  congrArg (·.2.2.2) (h.ident_eq ha hb)

theorem symm : Counterparts g' g π.symm fun q => (σ (π.symm q)).symm := by
  refine ⟨fun p => ?_, fun q => ?_, fun p i q k => ?_⟩
  · rw [← h.node, Equiv.apply_symm_apply]
  · refine (h.fixed (π.symm q)).imp (fun hone => by rw [hone, Equiv.refl_symm]) ?_
    rintro ⟨a, ha, hlayer⟩
    obtain ⟨b, hb, -⟩ := h.exists_node ha
    refine ⟨b, by rwa [Equiv.apply_symm_apply] at hb, (h.layer_eq ha hb).trans hlayer⟩
  · rw [h.reads, Equiv.apply_symm_apply, Equiv.apply_symm_apply, Equiv.apply_symm_apply]

end Node

theorem perm_map {β : Type} {f f' : Node α → β}
    (hf : ∀ (p : Nat) (a b : Node α), g.nodes[p]? = some a → g'.nodes[π p]? = some b → f' b = f a) :
    (g'.nodes.map f').Perm (g.nodes.map f) := by
  refine perm_of_positions π fun p => ?_
  rw [List.getElem?_map, List.getElem?_map]
  have hnode := h.node p
  cases ha : g.nodes[p]? with
  | none =>
    rw [ha] at hnode
    rw [Option.map_eq_none_iff.mp hnode]
    rfl
  | some a =>
    obtain ⟨b, hb, -⟩ := h.exists_node ha
    rw [hb]
    exact congrArg some (hf p a b ha hb)

/-- A node of the mirror image is the counterpart of one. -/
theorem exists_counterpart {q : Nat} {b : Node α} (hb : g'.nodes[q]? = some b) :
    ∃ p a, π p = q ∧ g.nodes[p]? = some a := by
  obtain ⟨a, ha, -⟩ := h.symm.exists_node hb
  exact ⟨_, a, π.apply_symm_apply q, ha⟩

/-- What is true of all nodes of a graph is true of all nodes of its mirror image. -/
theorem forall_iff {P P' : Node α → Prop}
    (hP : ∀ (p : Nat) (a b : Node α), g.nodes[p]? = some a → g'.nodes[π p]? = some b →
      (P a ↔ P' b)) :
    (∀ a ∈ g.nodes, P a) ↔ ∀ b ∈ g'.nodes, P' b := by
  constructor
  · intro hall b hb
    obtain ⟨q, hq⟩ := List.getElem?_of_mem hb
    obtain ⟨p, a, rfl, ha⟩ := h.exists_counterpart hq
    exact (hP p a b ha hq).mp (hall a (List.mem_of_getElem? ha))
  · intro hall a ha
    obtain ⟨p, hp⟩ := List.getElem?_of_mem ha
    obtain ⟨b, hb, -⟩ := h.exists_node hp
    exact (hP p a b hp hb).mpr (hall b (List.mem_of_getElem? hb))

section Wired

variable (hw : Wired g) (hw' : Wired g') {p : Nat} {a b : Node α} (ha : g.nodes[p]? = some a)
  (hb : g'.nodes[π p]? = some b)
include ha hb

include hw hw' in
theorem length_outputs : b.outputs.length = a.outputs.length := by
  refine (eq_of_lt_iff (σ p) fun k => ?_).symm
  rw [hw.lt_iff p a k ha, hw'.lt_iff (π p) b _ hb]
  constructor
  · rintro ⟨r, i, hread⟩
    exact ⟨_, i, (h.reads ..).mp hread⟩
  · rintro ⟨r, i, hread⟩
    refine ⟨π.symm r, i, (h.reads ..).mpr ?_⟩
    rwa [Equiv.apply_symm_apply]

include hw hw' in
theorem isTerminal_eq : b.isTerminal = a.isTerminal := by
  rw [Node.isTerminal, Node.isTerminal, Bool.eq_iff_iff, List.isEmpty_iff_length_eq_zero,
    List.isEmpty_iff_length_eq_zero, h.length_outputs hw hw' ha hb]

include hw hw' in
theorem length_inputs : b.inputs.length = a.inputs.length := by
  have hle : ∀ {g g' : NodeGraph (Node α)} {π σ p} {a b : Node α}, Counterparts g g' π σ → Wired g →
      g.nodes[p]? = some a → g'.nodes[π p]? = some b → a.inputs.length ≤ b.inputs.length := by
    intro g g' π σ p a b h hw ha hb
    by_contra hlt
    obtain ⟨q, k, hread⟩ :=
      hw.resolved p a b.inputs.length _ ha (List.getElem?_eq_getElem (by omega))
    obtain ⟨b', c, hb', hc, -⟩ := (h.reads ..).mp hread
    obtain rfl := Option.some.inj (hb.symm.trans hb')
    exact Nat.lt_irrefl _ (List.getElem?_eq_some_iff.mp hc).1
  exact Nat.le_antisymm (hle h.symm hw' hb (by rwa [Equiv.symm_apply_apply])) (hle h hw ha hb)

end Wired

section Part

variable (hs : Scheduled g) (hs' : Scheduled g') {p : Nat} {a b : Node α}
  (ha : g.nodes[p]? = some a) (hb : g'.nodes[π p]? = some b)
include hs hs' ha hb

omit hs' hb in
/-- Taking part is a matter of who trains and who reads whom. -/
theorem participates_of_participates (hs' : Scheduled g') (hb : g'.nodes[π p]? = some b)
    (hpart : a.participates = true) : b.participates = true := by
  induction hplace : place g p using Nat.strongRecOn generalizing p a b with
  | ind i ih =>
    refine (hs'.participates_iff hb).mpr (((hs.participates_iff ha).mp hpart).imp
      (fun htrains => ?_) ?_)
    · rw [h.trains_eq ha hb, htrains]
    · rintro ⟨q, c, hfeeds, hc, hpart⟩
      obtain ⟨j, k, hread⟩ := feeds_iff_readsSlot.mp hfeeds
      obtain ⟨d, hd, -⟩ := h.exists_node hc
      exact ⟨π q, d, feeds_iff_readsSlot.mpr ⟨j, _, (h.reads ..).mp hread⟩, hd,
        ih (place g q) (hplace ▸ hs.ordered.before _ _ _ _ hread) hc hd hpart rfl⟩

theorem participates_eq : b.participates = a.participates := by
  rw [Bool.eq_iff_iff]
  exact ⟨h.symm.participates_of_participates hs' hb hs (by rwa [Equiv.symm_apply_apply]),
    h.participates_of_participates hs ha hs' hb⟩

theorem passesDerivatives_eq : b.passesDerivatives = a.passesDerivatives := by
  have himp : ∀ {g g' : NodeGraph (Node α)} {π σ p} {a b : Node α}, Counterparts g g' π σ →
      Scheduled g → Scheduled g' →
      g.nodes[p]? = some a → g'.nodes[π p]? = some b → a.passesDerivatives = true →
      b.passesDerivatives = true := by
    intro g g' π σ p a b h hs hs' ha hb hpasses
    obtain ⟨i, q, k, c, hread, hc, hpart⟩ := (hs.passes p a ha).mp hpasses
    obtain ⟨d, hd, -⟩ := h.exists_node hc
    exact (hs'.passes _ b hb).mpr ⟨i, π q, _, d, (h.reads ..).mp hread, hd,
      h.participates_of_participates hs hc hs' hd hpart⟩
  rw [Bool.eq_iff_iff]
  exact ⟨himp h.symm hs' hs hb (by rwa [Equiv.symm_apply_apply]), himp h hs hs' ha hb⟩

end Part

end Counterparts

/-- Renumbered nodes make graphs that mirror each other. -/
theorem exists_mirrors {nodes nodes' : List (Node α)} {τ : String → Equiv.Perm Nat}
    (h : Lowering.Renumbered nodes nodes' τ) (hd : (nodes.map (·.name)).Nodup)
    {g g' : NodeGraph (Node α)} (hw : g.nodes.map wires = nodes.map wires)
    (hw' : g'.nodes.map wires = nodes'.map wires)
    (hi : g.nodes.map Lowering.ident = nodes.map Lowering.ident)
    (hi' : g'.nodes.map Lowering.ident = nodes'.map Lowering.ident) : ∃ π σ,
      Counterparts g g' π σ := by
  have hd' : (nodes'.map (·.name)).Nodup := h.perm_names.nodup_iff.mpr hd
  obtain ⟨π, hπ⟩ := exists_positions h.perm.symm
  have hbare : ∀ {p : Nat} {a b : Node α}, nodes[p]? = some a → nodes'[π p]? = some b →
      Lowering.bare b = Lowering.bare a := by
    intro p a b ha hb
    have hp := hπ p
    rw [List.getElem?_map, List.getElem?_map, ha, hb] at hp
    exact Option.some.inj hp
  have hmirror : ∀ {p : Nat} {a : Node α}, nodes[p]? = some a → ∃ b, nodes'[π p]? = some b ∧
      Lowering.bare b = Lowering.bare a := by
    intro p a ha
    have hp := hπ p
    rw [List.getElem?_map, List.getElem?_map, ha] at hp
    exact Option.map_eq_some_iff.mp hp
  have hback : ∀ {p : Nat} {b : Node α}, nodes'[π p]? = some b → ∃ a, nodes[p]? = some a := by
    intro p b hb
    have hp := hπ p
    rw [List.getElem?_map, List.getElem?_map, hb] at hp
    obtain ⟨a, ha, -⟩ := Option.map_eq_some_iff.mp hp.symm
    exact ⟨a, ha⟩
  have hident : ∀ {a b : Node α}, Lowering.bare b = Lowering.bare a → Lowering.ident b =
      Lowering.ident a := fun heq =>
    show Lowering.ident (Lowering.bare _) = Lowering.ident (Lowering.bare _) by rw [heq]
  have hwire : ∀ {nodes : List (Node α)} {g : NodeGraph (Node α)},
      g.nodes.map wires = nodes.map wires → ∀ {p i q k},
      ReadsSlot g p i q k ↔ ReadsSlot ⟨nodes, []⟩ p i q k := fun hw =>
    readsSlot_iff_of_wires (g := ⟨_, []⟩) hw
  -- What reads and what is read are nodes.
  have hends : ∀ {nodes : List (Node α)}, (nodes.map (·.name)).Nodup → ∀ {p i q k},
      ReadsSlot ⟨nodes, []⟩ p i q k →
      ∃ a b, nodes[p]? = some a ∧ nodes[q]? = some b := by
    intro nodes hd p i q k hread
    have hg : (⟨nodes, []⟩ : NodeGraph (Node α)).Distinct := hd
    obtain ⟨b, hb⟩ := hread.producer hg
    obtain ⟨a, -, ha, -⟩ := hread
    exact ⟨a, b, ha, hb⟩
  classical
  refine ⟨π, fun q => (nodes[q]?).elim (.refl Nat) fun a => τ a.name, fun p => ?_, fun q => ?_,
    fun p i q k => ?_⟩
  · rw [← List.getElem?_map, ← List.getElem?_map, hi, hi', List.getElem?_map, List.getElem?_map]
    cases ha : nodes[p]? with
    | none =>
      cases hb : nodes'[π p]? with
      | none => rfl
      | some b =>
        obtain ⟨a, ha'⟩ := hback hb
        rw [ha] at ha'
        cases ha'
    | some a =>
      obtain ⟨b, hb, heq⟩ := hmirror ha
      rw [hb, Option.map_some, Option.map_some, hident heq]
  · cases ha : nodes[q]? with
    | none => exact .inl rfl
    | some a =>
      refine (h.fixed a.name).imp id ?_
      rintro ⟨a', ha', hname, hlayer⟩
      obtain rfl := Lowering.node_eq_of_name hd ha' (List.mem_of_getElem? ha) hname
      have hq : (nodes.map Lowering.ident)[q]? = some (Lowering.ident a') := by
        rw [List.getElem?_map, ha]; rfl
      rw [← hi, List.getElem?_map] at hq
      obtain ⟨c, hc, heq⟩ := Option.map_eq_some_iff.mp hq
      exact ⟨c, hc, (congrArg (·.2.1) heq).trans hlayer⟩
  · rw [hwire hw, hwire hw']
    constructor
    · intro hread
      obtain ⟨a, b, ha, hb⟩ := hends hd hread
      obtain ⟨a', ha', hbarea⟩ := hmirror ha
      obtain ⟨b', hb', hbareb⟩ := hmirror hb
      rw [hb, Option.elim_some, readsSlot_iff_reads [] hd' ha' hb', Lowering.name_of_bare hbarea,
        Lowering.name_of_bare hbareb]
      exact (h.reads _ _).mp ((readsSlot_iff_reads [] hd ha hb).mp hread)
    · intro hread
      obtain ⟨a', b', ha', hb'⟩ := hends hd' hread
      obtain ⟨a, ha⟩ := hback ha'
      obtain ⟨b, hb⟩ := hback hb'
      rw [hb, Option.elim_some, readsSlot_iff_reads [] hd' ha' hb',
        Lowering.name_of_bare (hbare ha ha'), Lowering.name_of_bare (hbare hb hb')] at hread
      exact (readsSlot_iff_reads [] hd ha hb).mpr ((h.reads _ _).mpr hread)

namespace Network

variable [Zero α] {n n' n₁ : Network α} {loss : Option String} {u : Unit}

omit [Zero α] in
/-- Nodes without a name do not get in. -/
theorem names_after_replace (nodes : List (Node α)) (g : NodeGraph (Node α)) :
    ∀ a ∈ ((NodeGraph.replace nodes).after g).nodes, a.name ≠ "" := by
  have hadd : ∀ node : Node α, Action.Keeps (fun g : NodeGraph (Node α) => ∀ a ∈ g.nodes,
      a.name ≠ "") (NodeGraph.add node) := by
    intro node g hg
    unfold Action.after NodeGraph.add
    split
    · next h =>
      split at h
      · cases h
      · next hne =>
        split at h
        · cases h
        · cases h
          exact Lowering.all_append hg (Lowering.all_cons hne (by simp))
    · next h =>
      split at h
      · cases h
        exact hg
      · split at h
        · cases h
          exact hg
        · cases h
  have hall : Action.Keeps (fun g : NodeGraph (Node α) => ∀ a ∈ g.nodes, a.name ≠ "")
      (nodes.forM fun node => do let _ ← NodeGraph.add (ν := Node α) node) :=
    Action.keeps_forM fun node _ => (hadd node).bind fun _ => Action.keeps_pure _
  exact hall _ (by simp [NodeGraph.empty])

theorem names_of_lowerNodes (h : lowerNodes loss n = .ok u n₁) :
    ∀ a ∈ n₁.graph.nodes, a.name ≠ "" := by
  rw [lowerNodes_apply] at h
  cases hl : Lowering.lower loss n.fusionRules n.graph.nodes with
  | ok u' nodes =>
    rw [hl] at h
    obtain ⟨g, hg, rfl⟩ := Action.focus_eq_ok_iff.mp h
    have hnames := names_after_replace nodes NodeGraph.empty
    rwa [Action.after_of_ok hg] at hnames
  | error e nodes =>
    rw [hl] at h
    obtain ⟨_, _, _, h⟩ := Action.bind_eq_ok_iff.mp h
    cases h

/-- A draft whose wiring is explicit compiles with its nodes in any order if it does in one, and to
a graph that mirrors the other. -/
theorem exists_mirrored_compile (hopen : n'.isCompiled = false)
    (hrules : n'.fusionRules = n.fusionRules) (hexplicit : Lowering.Explicit n.graph.nodes)
    (hperm : n'.graph.nodes.Perm n.graph.nodes) (hcompile : compile loss n = .ok u n₁) : ∃ n₁',
      compile loss n' = .ok () n₁' := by
  obtain ⟨_, _, m, _, g₂, _, _, hlower, hsort, -⟩ := stages_of_compile hcompile
  obtain ⟨u', hl, hd, -⟩ := lowered_of_lowerNodes hlower
  obtain ⟨order, hs, -⟩ := except_bind_eq_ok_iff.mp (Action.update_eq_ok_iff.mp hsort)
  obtain ⟨hacyclic, hreach⟩ :=
    (exists_sortedOrder_iff hd (Lowering.lower_spec hl hd).1).mp ⟨order, hs⟩
  obtain ⟨lowered', σ, hl', hd', hren⟩ := Lowering.exists_renumbered_of_lower hexplicit hperm hl hd
  have hsize : n.graph.nodes ≠ [] ∧ m.graph.nodes ≠ [] := by
    have hpos := (scheduled_of_compile hcompile).2.2.2.1
    obtain ⟨_, nodes, hl₁, -, hw, -⟩ := nodes_of_compile hcompile
    obtain rfl : nodes = m.graph.nodes := by
      rw [hl] at hl₁
      cases hl₁
      rfl
    refine ⟨fun hnil => ?_, fun hnil => ?_⟩
    · unfold compile at hcompile
      obtain ⟨_, _, hget, hcompile⟩ := Action.bind_eq_ok_iff.mp hcompile
      cases hget
      obtain ⟨-, hcompile⟩ := Action.guard_eq_ok_iff.mp hcompile
      obtain ⟨_, _, hget, hcompile⟩ := Action.bind_eq_ok_iff.mp hcompile
      cases hget
      obtain ⟨hne, -⟩ := Action.guard_eq_ok_iff.mp hcompile
      exact hne (by rw [NodeGraph.isEmpty, hnil]; rfl)
    · have hlength := congrArg List.length hw
      rw [hnil, List.length_map] at hlength
      rw [NodeGraph.size, hlength] at hpos
      exact Nat.lt_irrefl 0 hpos
  have hne' : n'.graph.nodes ≠ [] :=
    fun hnil => hsize.1 (by rw [hnil] at hperm; exact hperm.nil_eq.symm)
  have hne₁ : lowered' ≠ [] := fun hnil => hsize.2 (by
    have hnames := hren.perm_names
    rw [hnil] at hnames
    exact List.map_eq_nil_iff.mp hnames.nil_eq.symm)
  have hnames : ∀ a ∈ lowered', a.name ≠ "" := fun a ha => by
    obtain ⟨b, hb, hbare⟩ := hren.symm.exists_bare ha
    exact Lowering.name_of_bare hbare ▸ names_of_lowerNodes hlower b hb
  rw [compile_apply loss hopen hne',
    Action.bind_of_ok (lowerNodes_of_lower (hrules ▸ hl') hd' hnames)]
  exact exists_settle_of_lower hl' hd' hne₁ (hren.acyclic hacyclic) (hren.reachable hreach)

theorem exists_mirrors_of_compile {n₁' : Network α} {u' : Unit}
    (hrules : n'.fusionRules = n.fusionRules) (hexplicit : Lowering.Explicit n.graph.nodes)
    (hperm : n'.graph.nodes.Perm n.graph.nodes) (hcompile : compile loss n = .ok u n₁)
    (hcompile' : compile loss n' = .ok u' n₁') : ∃ π σ, Counterparts n₁.graph n₁'.graph π σ := by
  obtain ⟨_, lowered, hl, hd, hw, hi⟩ := nodes_of_compile hcompile
  obtain ⟨_, lowered', hl', hd', hw', hi'⟩ := nodes_of_compile hcompile'
  obtain ⟨_, σ, hl'', -, hren⟩ := Lowering.exists_renumbered_of_lower hexplicit hperm hl hd
  rw [hrules, hl''] at hl'
  cases hl'
  exact exists_mirrors hren hd hw hw' hi hi'

end Network

end LayerGraph
