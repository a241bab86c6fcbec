import LayerGraph.Proofs.Lowering.Basic
import LayerGraph.Proofs.Lowering.Fused
import LayerGraph.Proofs.Lowering.Retained
import LayerGraph.Proofs.Lowering.Subdivision
import Mathlib.Tactic.FinCases

/-!
# Slots behind the first

An input that names a later slot of a node is not sent on to an activation, so lowering leaves it to
somebody: to the node that has had it, to the loss that stands for that node, or to a fan-out node.
Only fusing can strike an input, and what it strikes is the input of a loss whose activation nobody
else reads. Which slot of the activation that input has named is lost with it.
-/

namespace LayerGraph.Lowering

variable {α : Type} {rules : List FusionRule} {nodes left : List (Node α)} {a b l p : Node α}
  {c s : Connection} {struck : List Connection}

theorem mem_connections_iff : c ∈ connections nodes ↔ ∃ r, Reads nodes r c := by
  unfold connections
  rw [List.mem_flatMap]
  constructor
  · rintro ⟨a, ha, hc⟩
    obtain ⟨i, hi⟩ := List.getElem?_of_mem hc
    exact ⟨⟨a.name, i⟩, a, ha, rfl, hi⟩
  · rintro ⟨r, a, ha, -, hc⟩
    exact ⟨a, ha, List.mem_of_getElem? hc⟩

section Struck

/-- The input of a loss that reads nothing else, from an activation that nobody else names, where
some rule is for the two. -/
structure Strikable (rules : List FusionRule) (nodes : List (Node α)) (s : Connection) : Prop where
  once : readCount nodes s.name = 1
  ruled : ∃ rule ∈ rules, (∃ l ∈ nodes, l.inputs = [s] ∧ l.layer.loss? = some rule.loss) ∧
    ∃ p ∈ nodes, p.name = s.name ∧ p.layer.activation? = some rule.activation

/-- Fusing has struck these inputs and left all others, whoever has them now. -/
structure Strikes (rules : List FusionRule) (nodes left : List (Node α))
    (struck : List Connection) : Prop where
  perm : (connections nodes).Perm (struck ++ connections left)
  strikable : ∀ s ∈ struck, Strikable rules nodes s
  gone : ∀ s ∈ struck, readCount left s.name = 0

theorem connections_perm_eraseIdx {i : Nat} (h : nodes[i]? = some a) :
    (connections nodes).Perm (a.inputs ++ connections (nodes.eraseIdx i)) := by
  obtain ⟨before, behind, rfl, rfl⟩ := exists_append_cons_of_getElem? h
  rw [eraseIdx_append_cons]
  unfold connections
  rw [List.flatMap_append, List.flatMap_cons, List.flatMap_append]
  exact List.perm_append_comm_assoc _ _ _

theorem eraseIdx_set_self (nodes : List (Node α)) (i : Nat) (a : Node α) :
    (nodes.set i a).eraseIdx i = nodes.eraseIdx i := by
  induction nodes generalizing i with
  | nil => rfl
  | cons b nodes ih =>
    cases i with
    | zero => rfl
    | succ i => exact congrArg (b :: ·) (ih i)

/-- What a loss has read goes; what its activation has read it takes over. -/
theorem connections_perm_fuse {i j : Nat} {fused : Loss} {source : Connection}
    (hl : nodes[i]? = some l) (hp : nodes[j]? = some p) (hinput : l.inputs = [s])
    (hsource : p.inputs = [source]) :
    (connections nodes).Perm
      (s :: connections ((nodes.set i (fusedNode l fused source)).eraseIdx j)) := by
  have hloss : (connections nodes).Perm (s :: connections (nodes.eraseIdx i)) := by
    have h := connections_perm_eraseIdx hl
    rwa [hinput] at h
  by_cases hij : i = j
  · subst hij
    rwa [eraseIdx_set_self]
  · have hset : (nodes.set i (fusedNode l fused source))[i]? = some (fusedNode l fused source) :=
      List.getElem?_set_self (List.getElem?_eq_some_iff.mp hl).1
    have hkept : (nodes.set i (fusedNode l fused source))[j]? = some p := by
      rw [List.getElem?_set_ne hij, hp]
    have hself := connections_perm_eraseIdx hset
    have hother := connections_perm_eraseIdx hkept
    rw [eraseIdx_set_self] at hself
    rw [hsource] at hother
    exact hloss.trans ((hself.symm.trans hother).cons_inv.cons s)

theorem readCount_of_perm (h : (connections nodes).Perm (struck ++ connections left)) (x : String) :
    readCount nodes x = struck.countP (·.name == x) + readCount left x := by
  unfold readCount
  rw [h.countP_eq, List.countP_append]

/-- The next loss: nothing is struck, or its only input. -/
theorem Strikes.next {done rest : List (Node α)} {kind : Loss}
    (hprogress : Progress rules nodes done (l :: rest)) (hkind : l.layer.loss? = some kind)
    (h : Strikes rules nodes (done ++ l :: rest) struck) :
    ∃ struck', Strikes rules nodes (fuseAt rules (done ++ l :: rest) done.length l kind).1
      struck' := by
  rcases fuseAt_eq_or rules (done ++ l :: rest) done.length l kind with heq | ⟨p,
    fused, j, source, hf, heq⟩
  · rw [heq]
    exact ⟨struck, h⟩
  obtain ⟨rule, hrule, hactivation, rfl, rfl⟩ := hf.ruled
  obtain ⟨slot, hinput⟩ := hf.reader
  have hl : (done ++ l :: rest)[done.length]? = some l := by simp
  have hperm : (connections (done ++ l :: rest)).Perm (⟨p.name, slot⟩ ::
      connections (((done ++ l :: rest).set done.length (fusedNode l rule.fused source)).eraseIdx
        j)) :=
    connections_perm_fuse hl hf.producer hinput hf.source
  rw [heq]
  dsimp only
  generalize ((done ++ l :: rest).set done.length (fusedNode l rule.fused source)).eraseIdx j =
    left at hperm ⊢
  have hcount : ∀ x, readCount (done ++ l :: rest) x = [(⟨p.name, slot⟩ : Connection)].countP
      (·.name == x) + readCount left x :=
    readCount_of_perm hperm
  -- What has been struck before has no reader any more, so it is not what this loss reads.
  have hnew : struck.countP (·.name == p.name) = 0 := by
    rw [List.countP_eq_zero]
    intro t ht hname
    have hgone := h.gone t ht
    rw [beq_iff_eq.mp hname, hf.once] at hgone
    cases hgone
  have hone : readCount left p.name = 0 := by
    have := hcount p.name
    simp only [List.countP_singleton, beq_self_eq_true, if_true, hf.once] at this
    omega
  refine ⟨struck ++ [⟨p.name, slot⟩], ?_, ?_, ?_⟩
  · rw [List.append_assoc]
    exact h.perm.trans (hperm.append_left struck)
  · intro s hs
    rcases List.mem_append.mp hs with hs | hs
    · exact h.strikable s hs
    · rw [List.mem_singleton.mp hs]
      refine ⟨?_, rule, hrule, ⟨l, hprogress.mem_of_rest (List.mem_cons_self ..), hinput, hkind⟩,
        p, ?_, rfl, hactivation⟩
      · rw [readCount_of_perm h.perm, hnew, Nat.zero_add]
        exact hf.once
      · exact hprogress.mem_of_activation (List.mem_of_getElem? hf.producer) hactivation
  · intro s hs
    rcases List.mem_append.mp hs with hs | hs
    · have := hcount s.name
      rw [h.gone s hs] at this
      omega
    · rw [List.mem_singleton.mp hs]
      exact hone

/-- All that fusing strikes. -/
theorem exists_strikes {u : Unit} (h : fuse rules nodes = .ok u left) :
    ∃ struck, Strikes rules nodes left struck := by
  have hstart : ∃ struck, Strikes rules nodes nodes struck := ⟨[], .refl _, by simp, by simp⟩
  obtain ⟨done, rest, heq, -, hstrikes⟩ :=
    exists_progress_after_fuse (P := fun left => ∃ struck, Strikes rules nodes left struck) hstart
      fun hprogress hkind ⟨struck, hstrikes⟩ => hstrikes.next hprogress hkind
  rw [Action.after_of_ok h] at heq
  rwa [heq]

/-- Where an input is the only one to name a node, whoever names that node is the one that has
it. -/
theorem eq_of_readCount_eq_one {x : String} (h : readCount nodes x = 1) (ha : a ∈ nodes)
    (hb : b ∈ nodes) {d : Connection} (hc : c ∈ a.inputs) (hd : d ∈ b.inputs) (hcx : c.name = x)
    (hdx : d.name = x) : a = b := by
  have hpos : ∀ {e : Node α} {t : Connection}, t ∈ e.inputs → t.name = x →
      0 < e.inputs.countP (·.name == x) := fun ht hx =>
    List.countP_pos_iff.mpr ⟨_, ht, by simp [hx]⟩
  have hmany : ∀ {xs : List (Node α)}, b ∈ xs → 0 < readCount xs x := by
    intro xs hb
    obtain ⟨before, behind, rfl⟩ := List.append_of_mem hb
    have := hpos hd hdx
    rw [readCount_append, readCount_cons]
    omega
  obtain ⟨before, behind, rfl⟩ := List.append_of_mem ha
  have ha := hpos hc hcx
  rw [readCount_append, readCount_cons] at h
  rcases List.mem_append.mp hb with hb | hb
  · have := hmany hb
    omega
  · rcases List.mem_cons.mp hb with rfl | hb
    · rfl
    · have := hmany hb
      omega

end Struck

section Given

theorem mem_wireAfter_of_given {previous : String} (ha : a ∈ nodes) (h : a.inputs ≠ []) :
    a ∈ wireAfter previous nodes := by
  induction nodes generalizing previous with
  | nil => cases ha
  | cons b nodes ih =>
    rw [wireAfter]
    rcases List.mem_cons.mp ha with rfl | ha
    · rw [if_neg (by simp [h])]
      exact List.mem_cons_self ..
    · exact List.mem_cons_of_mem _ (ih ha)

/-- A node that is given inputs is left with them. -/
theorem mem_wireDefaults_of_given (ha : a ∈ nodes) (h : a.inputs ≠ []) :
    a ∈ wireDefaults nodes := by
  cases nodes with
  | nil => cases ha
  | cons b nodes =>
    rcases List.mem_cons.mp ha with rfl | ha
    · exact List.mem_cons_self ..
    · exact List.mem_cons_of_mem _ (mem_wireAfter_of_given ha h)

/-- Default wiring gives a node inputs and leaves the rest of it. -/
theorem exists_of_mem_wireDefaults (h : a ∈ wireDefaults nodes) : ∃ b ∈ nodes, ∃ inputs,
    a = { b with inputs := inputs } := by
  have hmap := wireDefaults_map (f := fun a : Node α => { a with inputs := [] })
    (fun _ _ => rfl) nodes
  obtain ⟨b, hb, heq⟩ := List.mem_map.mp (hmap ▸ List.mem_map_of_mem h)
  refine ⟨b, hb, a.inputs, ?_⟩
  cases a
  cases b
  cases heq
  rfl

/-- What names a later slot is not sent on. -/
theorem redirects_of_index {names : List String} (h : c.index ≠ 0) : redirects names c = c := by
  induction names with
  | nil => rfl
  | cons p names ih =>
    rw [redirects, List.foldl_cons, redirect, if_neg fun hc => h hc.1]
    exact ih

theorem carry_of_index (h : c.index ≠ 0) : carry nodes c = ⟨newName nodes c.name, c.index⟩ :=
  redirects_of_index h

/-- What names a node without an activation to split off is not sent on either. -/
theorem carry_of_not_splitting (hp : c.name ∈ nodes.map (·.name)) (h : c.name ∉ splitting nodes) :
    carry nodes c = ⟨newName nodes c.name, c.index⟩ := by
  refine redirects_of_not_mem fun hmem => h ?_
  obtain ⟨q, hq, heq⟩ := List.mem_map.mp hmem
  exact newName_injOn (splitting_subset hq) hp heq ▸ hq

variable [Zero α]

omit [Zero α] in
@[simp] theorem carried_layer (nodes : List (Node α)) (a : Node α) :
    (carried nodes a).layer = a.layer := by
  unfold carried settled
  split <;> rfl

theorem carried_mem_expand (hd : (nodes.map (·.name)).Nodup) (ha : a ∈ wireDefaults nodes) :
    carried nodes a ∈ expand nodes := by
  rw [expand_eq hd]
  exact List.mem_flatMap.mpr ⟨a, ha, List.mem_cons_self ..⟩

theorem mem_expand (hd : (nodes.map (·.name)).Nodup) (hb : b ∈ expand nodes) :
    ∃ a ∈ wireDefaults nodes,
    b = carried nodes a ∨ splits a = true ∧ b = activationBehind nodes a := by
  rw [expand_eq hd] at hb
  obtain ⟨a, ha, hb⟩ := List.mem_flatMap.mp hb
  refine ⟨a, ha, ?_⟩
  rcases List.mem_cons.mp hb with rfl | hb
  · exact .inl rfl
  · split at hb
    · next hs => exact .inr ⟨hs, List.mem_singleton.mp hb⟩
    · cases hb

end Given

section Swallowed

/-- There is a node of the name that a connection names, once all is named anew, that is this
activation: the node itself, or an activation that is put behind another node under the name this
one has. -/
inductive ActsAs (nodes : List (Node α)) (name : String) (f : Activation) : Prop where
  | node {p : Node α} (there : p ∈ nodes) (named : p.name = name) (layer : p.layer = .activation f)
  | behind {q : Node α} (there : q ∈ nodes) (splits : splits q = true)
      (activation : q.activation = f) (named : activationName (newName nodes q.name) =
        newName nodes name)

/-- The connection is the only input of a cross entropy `a`, and leads from a softmax or sigmoid to
which `a` alone is connected: the two become one loss, which reads what the activation has read. -/
structure Swallowed (nodes : List (Node α)) (a : Node α) (c : Connection) : Prop where
  loss : a.layer = .loss .cross
  alone : a.inputs = [c]
  activation : ActsAs nodes c.name .softmax ∨ ActsAs nodes c.name .sigmoid
  once : ∀ b ∈ nodes, ∀ d ∈ b.inputs, d.name = c.name → (d.index ≠ 0 ∨ c.name ∉ splitting nodes) →
    b = a

/-- The default rules are for a cross entropy behind a softmax or a sigmoid. -/
theorem of_mem_defaults {rule : FusionRule} (h : rule ∈ FusionRule.defaults) :
    rule.loss = .cross ∧ (rule.activation = .softmax ∨ rule.activation = .sigmoid) := by
  fin_cases h
  · exact ⟨rfl, .inl rfl⟩
  · exact ⟨rfl, .inr rfl⟩

theorem layer_eq_of_activation? {layer : Layer α} {f : Activation} (hs : layer.isShipped = true)
    (h : layer.activation? = some f) : layer = .activation f := by
  cases layer <;> simp_all [Layer.activation?, Layer.isShipped]

theorem layer_eq_of_loss? {layer : Layer α} {kind : Loss} (hs : layer.isShipped = true)
    (h : layer.loss? = some kind) : layer = .loss kind := by
  cases layer <;> simp_all [Layer.loss?, Layer.isShipped]

variable [Zero α] {more : List (Node α)}

/-- An activation among the nodes that are fused, seen from the nodes that were given. -/
theorem actsAs_of_mem {f : Activation} (hd : (nodes.map (·.name)).Nodup)
    (hs : ∀ a ∈ nodes, a.layer.isShipped = true) (hmore : Appended (expand nodes) more)
    {name : String} (hname : name ∈ nodes.map (·.name)) (hb : b ∈ expand nodes ++ more)
    (hbn : b.name = newName nodes name) (hf : b.layer.activation? = some f) :
    ActsAs nodes name f := by
  rcases List.mem_append.mp hb with hb | hb
  · obtain ⟨y, hy, hb⟩ := mem_expand hd hb
    obtain ⟨q, hq, inputs, rfl⟩ := exists_of_mem_wireDefaults hy
    rcases hb with rfl | ⟨hsplit, rfl⟩
    · rw [carried_layer] at hf
      exact .node hq (newName_injOn (List.mem_map_of_mem hq) hname hbn)
        (layer_eq_of_activation? (hs q hq) hf)
    · exact .behind hq hsplit (Option.some.inj hf) hbn
  · cases hmore with
    | nothing => cases hb
    | loss =>
      rw [List.mem_singleton.mp hb] at hf
      cases hf

/-- Of the nodes that are fused, those under a node's new name are that node or no fan-out. -/
theorem layer_ne_multiout_of_mem (hd : (nodes.map (·.name)).Nodup)
    (hmore : Appended (expand nodes) more) (hp : p ∈ nodes) (hlayer : p.layer ≠ .multiout)
    (hb : b ∈ expand nodes ++ more) (hbn : b.name = newName nodes p.name) :
    b.layer ≠ .multiout := by
  rcases List.mem_append.mp hb with hb | hb
  · obtain ⟨y, hy, hb⟩ := mem_expand hd hb
    obtain ⟨q, hq, inputs, rfl⟩ := exists_of_mem_wireDefaults hy
    rcases hb with rfl | ⟨-, rfl⟩
    · obtain rfl := node_eq_of_name hd hq hp (newName_injOn (List.mem_map_of_mem hq)
        (List.mem_map_of_mem hp) hbn)
      rwa [carried_layer]
    · exact nofun
  · cases hmore with
    | nothing => cases hb
    | loss =>
      rw [List.mem_singleton.mp hb]
      exact nofun

/-- An input that could be struck, seen from the node that was given it. -/
theorem swallowed_of_strikable (hd : (nodes.map (·.name)).Nodup)
    (hs : ∀ a ∈ nodes, a.layer.isShipped = true) (hmore : Appended (expand nodes) more)
    (ha : a ∈ nodes) (hc : c ∈ a.inputs) (hname : c.name ∈ nodes.map (·.name)) (hk : c.index ≠ 0)
    (h : Strikable FusionRule.defaults (expand nodes ++ more) ⟨newName nodes c.name, c.index⟩) :
    Swallowed nodes a c := by
  have hthere : ∀ {b : Node α}, b ∈ nodes → b.inputs ≠ [] → carried nodes b ∈ expand nodes ++
      more := fun hb hne =>
    List.mem_append_left _ (carried_mem_expand hd (mem_wireDefaults_of_given hb hne))
  have hinput : (⟨newName nodes c.name, c.index⟩ : Connection) ∈ (carried nodes a).inputs :=
    carry_of_index hk ▸ List.mem_map_of_mem hc
  have hunique :=
    fun {b d} (hb : b ∈ expand nodes ++ more) (hd : d ∈ b.inputs)
      (hdn : d.name = newName nodes c.name) =>
    eq_of_readCount_eq_one h.once hb (hthere ha (List.ne_nil_of_mem hc)) hd hinput hdn rfl
  obtain ⟨rule, hrule, ⟨l, hl, hlinputs, hloss⟩, p, hp, hpn, hactivation⟩ := h.ruled
  obtain ⟨hcross, hkinds⟩ := of_mem_defaults hrule
  -- The loss that could be fused is the node itself.
  obtain rfl := hunique hl (hlinputs ▸ List.mem_singleton_self _) rfl
  rw [hcross, carried_layer] at hloss
  have hacts : ActsAs nodes c.name rule.activation :=
    actsAs_of_mem hd hs hmore hname hp hpn hactivation
  refine ⟨layer_eq_of_loss? (hs a ha) hloss, ?_, ?_, ?_⟩
  · obtain ⟨d, hinputs⟩ :=
      List.length_eq_one_iff.mp ((List.length_map _).symm.trans (congrArg List.length hlinputs))
    rw [hinputs] at hc ⊢
    rw [List.mem_singleton.mp hc]
  · rcases hkinds with hkind | hkind
    · exact .inl (hkind ▸ hacts)
    · exact .inr (hkind ▸ hacts)
  · intro b hb d hdb hdn hdk
    have hcarry : carry nodes d = ⟨newName nodes d.name, d.index⟩ := by
      rcases hdk with hdk | hdk
      · exact carry_of_index hdk
      · exact carry_of_not_splitting (hdn ▸ hname) (hdn ▸ hdk)
    have hsame := hunique (hthere hb (List.ne_nil_of_mem hdb)) (List.mem_map_of_mem hdb)
      (by rw [hcarry, hdn])
    exact node_eq_of_name hd hb ha
      (newName_injOn (List.mem_map_of_mem hb) (List.mem_map_of_mem ha) (congrArg Node.name hsame))

/-- Lowering leaves every input that names a later slot to some reader of that slot, or else has
swallowed it. -/
theorem reads_or_swallowed_of_lower {loss : Option String} {nodes' : List (Node α)} {u : Unit}
    (hd : (nodes.map (·.name)).Nodup) (hs : ∀ a ∈ nodes, a.layer.isShipped = true)
    (h : lower loss FusionRule.defaults nodes = .ok u nodes') (hd' : (nodes'.map (·.name)).Nodup)
    (ha : a ∈ nodes) (hc : c ∈ a.inputs) (hp : p ∈ nodes) (hname : p.name = c.name)
    (hlayer : p.layer ≠ .multiout) (hk : c.index ≠ 0) :
    (∃ r, ∃ b ∈ nodes', Reads nodes' r ⟨b.name, c.index⟩ ∧ b.layer ≠ .multiout) ∨
    Swallowed nodes a c := by
  obtain ⟨n₁, n₂, n₃, u₁, u₂, hadd, hfuse, hset, hsep⟩ := stages_of_lower h
  obtain ⟨more, rfl, hmore⟩ := appended_of_addLoss hadd
  have hd₃ := hd'.sublist (names_sublist_separateReaders hsep)
  have hd₂ : (n₂.map (·.name)).Nodup := setOutputs_names hset ▸ hd₃
  have hr₃ := resolved_setOutputs hset hd₂
  have hseparated := separated_of_ok hr₃ (fun a ha => listed_setOutputs hset hd₂ ha) hsep hd'
  have hthere : (⟨newName nodes c.name, c.index⟩ : Connection) ∈ connections
      (expand nodes ++ more) := by
    refine List.mem_flatMap.mpr ⟨carried nodes a, ?_, carry_of_index hk ▸ List.mem_map_of_mem hc⟩
    exact List.mem_append_left _
      (carried_mem_expand hd (mem_wireDefaults_of_given ha (List.ne_nil_of_mem hc)))
  obtain ⟨struck, hstrikes⟩ := exists_strikes hfuse
  rcases List.mem_append.mp (hstrikes.perm.mem_iff.mp hthere) with hstruck | hleft
  · exact .inr (swallowed_of_strikable hd hs hmore ha hc (hname ▸ List.mem_map_of_mem hp) hk
      (hstrikes.strikable _ hstruck))
  · obtain ⟨r, hread⟩ := mem_connections_iff.mp hleft
    have hread₃ := (reads_setOutputs_iff hset).mpr hread
    -- The node under the new name is one of those that were fused.
    obtain ⟨b₂, hb₂, hbn⟩ := List.mem_map.mp (setOutputs_names hset ▸ hr₃ _ _ hread₃)
    have haligned := aligned_fuse FusionRule.defaults (expand nodes ++ more)
    rw [Action.after_of_ok hfuse] at haligned
    obtain ⟨b₁, hb₁, hcondensed⟩ := (haligned.exists_left hb₂).resolve_right not_false
    have hlayer₂ : b₂.layer ≠ .multiout := by
      cases hcondensed with
      | same => exact layer_ne_multiout_of_mem hd hmore hp hlayer hb₁ (hname ▸ hbn)
      | fused => exact nofun
    have hident : ident b₂ ∈ nodes'.map ident := by
      refine hseparated.perm_ident.mem_iff.mpr (List.mem_append_left _ ?_)
      rw [setOutputs_map hset (f := ident) fun _ _ => rfl]
      exact List.mem_map_of_mem hb₂
    obtain ⟨b, hb, heq⟩ := List.mem_map.mp hident
    simp only [ident, Prod.mk.injEq] at heq
    obtain ⟨r', hread'⟩ : ∃ r', Reads nodes' r' ⟨newName nodes c.name, c.index⟩ := by
      by_cases hfan : (⟨newName nodes c.name, c.index⟩ : Connection) ∈ fanned (slotTable n₃)
      · exact ⟨_, (hseparated.reads_iff _ _).mpr (.fan hfan)⟩
      · exact ⟨r, (hseparated.reads_iff _ _).mpr (.kept hread₃ hfan)⟩
    refine .inl ⟨r', b, hb, ?_, heq.2.1 ▸ hlayer₂⟩
    rwa [heq.1, hbn]

end Swallowed

end LayerGraph.Lowering
