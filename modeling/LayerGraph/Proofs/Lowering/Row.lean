import LayerGraph.Proofs.Lowering.Fused
import LayerGraph.Proofs.Lowering.Slots

/-!
# Nodes in a row

Where every node reads the first slot of the one before it and nothing else, every pass of lowering
keeps the nodes in a row. No slot has two readers, so no fan-out comes in.
-/

namespace LayerGraph.Lowering

open Relation

variable {α : Type} {nodes nodes' xs ys done : List (Node α)} {a l p : Node α}
  {c c' d : List Connection} {rules : List FusionRule} {kind fused : Loss} {source : Connection}

/-- Nodes in a row: the first has the inputs `c`, each of the others reads slot 0 of the one before
it, and whoever came next would have the inputs `c'`. -/
inductive Row : List Connection → List (Node α) → List Connection → Prop where
  | nil (c : List Connection) : Row c [] c
  | cons {c c' : List Connection} {a : Node α} {rest : List (Node α)} (inputs : a.inputs = c)
      (behind : Row [⟨a.name, 0⟩] rest c') : Row c (a :: rest) c'

theorem row_append_iff : Row c (xs ++ ys) c' ↔ ∃ d, Row c xs d ∧ Row d ys c' := by
  induction xs generalizing c with
  | nil =>
    refine ⟨fun h => ⟨c, .nil c, h⟩, ?_⟩
    rintro ⟨_, ⟨⟩, h⟩
    exact h
  | cons a xs ih =>
    rw [List.cons_append]
    constructor
    · rintro (_ | ⟨hinputs, h⟩)
      obtain ⟨d, hxs, hys⟩ := ih.mp h
      exact ⟨d, .cons hinputs hxs, hys⟩
    · rintro ⟨d, _ | ⟨hinputs, hxs⟩, hys⟩
      exact .cons hinputs (ih.mpr ⟨d, hxs, hys⟩)

theorem row_concat_iff : Row c (xs ++ [a]) c' ↔ Row c xs a.inputs ∧ c' = [⟨a.name, 0⟩] := by
  rw [row_append_iff]
  constructor
  · rintro ⟨d, h, _ | ⟨rfl, ⟨⟩⟩⟩
    exact ⟨h, rfl⟩
  · rintro ⟨h, rfl⟩
    exact ⟨_, h, .cons rfl (.nil _)⟩

theorem Row.congr (h : Row c xs c')
    (hsame : ys.map (fun a => (a.name, a.inputs)) = xs.map fun a => (a.name, a.inputs)) :
    Row c ys c' := by
  induction h generalizing ys with
  | nil c =>
    obtain rfl := List.map_eq_nil_iff.mp hsame
    exact .nil c
  | cons hinputs _ ih =>
    obtain ⟨b, ys, rfl, hb, hys⟩ := List.map_eq_cons_iff.mp hsame
    obtain ⟨hname, hinputs'⟩ := Prod.mk.inj hb
    exact .cons (hinputs'.trans hinputs) (hname ▸ ih hys)

/-- What is read in a row, one behind the other. -/
theorem Row.connections_append (h : Row c nodes c') : connections nodes ++ c' = c ++ nodes.map
    fun a => ⟨a.name, 0⟩ := by
  induction h with
  | nil c => simp [connections]
  | @cons c c' a rest hinputs _ ih =>
    rw [connections, List.flatMap_cons, List.append_assoc, hinputs,
      List.map_cons, ← List.singleton_append, ← ih]
    rfl

/-- Behind a node, every node has one input. -/
theorem Row.inputs_eq {name : String} (h : Row [⟨name, 0⟩] xs c') :
    ∀ a ∈ xs, ∃ name, a.inputs = [⟨name, 0⟩] := by
  induction xs generalizing name with
  | nil => simp
  | cons a xs ih =>
    obtain - | ⟨hinputs, hrest⟩ := h
    exact List.forall_mem_cons.mpr ⟨⟨name, hinputs⟩, ih hrest⟩

theorem Row.mem_end (h : Row [] nodes c') {x : Connection} (hx : x ∈ c') :
    ∃ a ∈ nodes, x = ⟨a.name, 0⟩ := by
  have hmem := List.mem_append_right (connections nodes) hx
  rw [h.connections_append, List.nil_append] at hmem
  obtain ⟨a, ha, rfl⟩ := List.mem_map.mp hmem
  exact ⟨a, ha, rfl⟩

section Wired

variable (h : Row [] nodes c')
include h

theorem Row.mem_connections {x : Connection} (hx : x ∈ connections nodes) :
    ∃ a ∈ nodes, x = ⟨a.name, 0⟩ := by
  have hmem := List.mem_append_left c' hx
  rw [h.connections_append, List.nil_append] at hmem
  obtain ⟨a, ha, rfl⟩ := List.mem_map.mp hmem
  exact ⟨a, ha, rfl⟩

theorem Row.resolved : Resolved nodes := fun r x hread => by
  obtain ⟨a, ha, rfl⟩ := h.mem_connections (mem_connections_iff.mpr ⟨r, hread⟩)
  exact List.mem_map_of_mem ha

theorem Row.dense (name : String) : Dense nodes name := by
  rintro k ⟨r, hread⟩ j hj
  obtain ⟨a, -, heq⟩ := h.mem_connections (mem_connections_iff.mpr ⟨r, hread⟩)
  obtain ⟨-, rfl⟩ := Connection.mk.inj heq
  exact absurd hj (Nat.not_lt_zero j)

variable (hd : (nodes.map (·.name)).Nodup)
include hd

theorem Row.nodup_connections : (connections nodes ++ c').Nodup := by
  rw [h.connections_append, List.nil_append]
  have hname : nodes.map (fun a => (⟨a.name, 0⟩ : Connection)) = (nodes.map (·.name)).map
      fun name => ⟨name, 0⟩ := by
    rw [List.map_map]
    rfl
  rw [hname]
  exact hd.map fun _ _ heq => (Connection.mk.inj heq).1

/-- No slot is read twice. -/
theorem Row.single (s : Connection) : SingleRead nodes s := by
  have hnodup : (connections nodes).Nodup := (List.nodup_append.mp (h.nodup_connections hd)).1
  rintro ⟨_, i⟩ ⟨_, j⟩ ⟨a, ha, rfl, hi⟩ ⟨b, hb, rfl, hj⟩
  obtain rfl : a = b := eq_of_mem_of_nodup_flatMap hnodup ha hb (List.mem_of_getElem? hi)
    (List.mem_of_getElem? hj)
  have hinputs : a.inputs.Nodup := (List.nodup_flatMap.mp hnodup).1 a ha
  obtain rfl : i = j := (List.getElem?_inj (List.getElem?_eq_some_iff.mp hi).1 hinputs).mp
    (hi.trans hj.symm)
  rfl

/-- What is read stands before its reader. -/
theorem Row.acyclic : Acyclic nodes := by
  refine acyclic_of_rank (fun name => (nodes.map (·.name)).idxOf name) fun a ha x hx => ?_
  obtain ⟨before, behind, rfl⟩ := List.append_of_mem ha
  obtain ⟨_, hbefore, _ | ⟨rfl, -⟩⟩ := row_append_iff.mp h
  obtain ⟨b, hb, rfl⟩ := hbefore.mem_end hx
  rw [List.map_append, List.nodup_append] at hd
  have hread : b.name ∈ before.map (·.name) := List.mem_map_of_mem hb
  have hself : a.name ∉ before.map (·.name) := fun hmem => hd.2.2 _ hmem a.name (by simp) rfl
  rw [List.map_append, List.idxOf_append_of_mem hread, List.idxOf_append_of_notMem hself]
  exact Nat.lt_add_right _ (List.idxOf_lt_length_of_mem hread)

/-- The last node of a row is the only one that nobody reads. -/
theorem Row.terminals (hlast : nodes = xs ++ [l]) : terminals nodes = [l.name] := by
  subst hlast
  obtain ⟨hbefore, rfl⟩ := row_concat_iff.mp h
  have hall := h.connections_append
  rw [List.nil_append, List.map_append, List.map_singleton, List.append_cancel_right_eq] at hall
  have hread : ∀ name, ((connections (xs ++ [l])).any (·.name == name) = true ↔
      name ∈ xs.map (·.name)) := by
    intro name
    simp [hall]
  rw [List.map_append, List.nodup_append] at hd
  have hunread : (connections (xs ++ [l])).any (·.name == l.name) = false :=
    Bool.eq_false_iff.mpr fun hany => hd.2.2 _ ((hread _).mp hany) l.name (by simp) rfl
  rw [Lowering.terminals, List.map_append, List.filter_append, List.filter_eq_nil_iff.mpr,
    List.nil_append, List.map_singleton]
  · exact List.filter_eq_self.mpr fun name hname => by
      rw [List.mem_singleton.mp hname, hunread]; rfl
  · intro name hname hnot
    rw [(hread name).mpr hname] at hnot
    cases hnot

end Wired

/-- From the first node of a row all are reached. -/
theorem Row.reached {s name : String} (h : Row [⟨name, 0⟩] xs c') (hsub : xs ⊆ nodes)
    (hname : ReflTransGen (Feeds nodes) s name) : ∀ a ∈ xs,
      ReflTransGen (Feeds nodes) s a.name := by
  induction xs generalizing name with
  | nil => simp
  | cons a xs ih =>
    obtain - | ⟨hinputs, hrest⟩ := h
    have ha : ReflTransGen (Feeds nodes) s a.name :=
      hname.tail ⟨0, 0, a, hsub (List.mem_cons_self ..), rfl, by rw [hinputs]; rfl⟩
    rw [List.forall_mem_cons]
    exact ⟨ha, ih hrest (fun b hb => hsub (List.mem_cons_of_mem a hb)) ha⟩

theorem Row.reachable {rest : List (Node α)} (h : Row c (a :: rest) c')
    (hsource : a.isSource = true) : Reachable (a :: rest) := by
  obtain - | ⟨-, hrest⟩ := h
  have hself : IsInput (a :: rest) a.name := ⟨a, List.mem_cons_self .., hsource, rfl⟩
  intro name hname
  obtain ⟨b, hb, rfl⟩ := List.mem_map.mp hname
  refine ⟨a.name, hself, ?_⟩
  rcases List.mem_cons.mp hb with rfl | hb
  · exact .refl
  · exact hrest.reached (fun _ => List.mem_cons_of_mem a) .refl b hb

section Wiring

theorem row_wireAfter (previous : String) (h : ∀ a ∈ nodes, a.inputs = [] ∧ a.isSource = false) :
    ∃ c', Row [⟨previous, 0⟩] (wireAfter previous nodes) c' := by
  induction nodes generalizing previous with
  | nil => exact ⟨_, .nil _⟩
  | cons a nodes ih =>
    obtain ⟨hinputs, hsource⟩ := h a (by simp)
    obtain ⟨c', hrow⟩ := ih a.name fun b hb => h b (by simp [hb])
    refine ⟨c', ?_⟩
    rw [wireAfter, if_pos (by simp [hinputs, hsource])]
    exact .cons rfl hrow

/-- Default wiring puts nodes in a row. -/
theorem row_wireDefaults (ha : a.inputs = [])
    (h : ∀ b ∈ nodes, b.inputs = [] ∧ b.isSource = false) :
    ∃ c', Row [] (wireDefaults (a :: nodes)) c' := by
  obtain ⟨c', hrow⟩ := row_wireAfter a.name h
  exact ⟨c', .cons ha hrow⟩

end Wiring

section Expand

/-- What reads slot 0 of a node reads slot 0 of its activation if it has one to split off. -/
theorem carry_first (hd : (nodes.map (·.name)).Nodup)
    (hfresh : ∀ p ∈ splitting nodes,
      activationName (newName nodes p) ∉ (nodes.map (·.name)).map (newName nodes))
    (ha : a ∈ nodes) :
    carry nodes ⟨a.name, 0⟩ =
      ⟨if splits a then activationName (newName nodes a.name) else newName nodes a.name, 0⟩ := by
  have hname : a.name ∈ nodes.map (·.name) := List.mem_map_of_mem ha
  split
  · next hs =>
    have hsplit : a.name ∈ splitting nodes := mem_splitting.mpr ⟨a, ha, hs, rfl⟩
    have hnone : ∀ p ∈ (splitting nodes).map (newName nodes),
        activationName p ∉ (splitting nodes).map (newName nodes) := by
      intro p hp hmem
      obtain ⟨q, hq, rfl⟩ := List.mem_map.mp hp
      exact hfresh q hq (List.map_subset _ splitting_subset hmem)
    rw [carry, redirects_eq_redirectAll hnone, redirectAll,
      if_pos ⟨rfl, List.mem_map_of_mem hsplit⟩]
    rfl
  · next hs =>
    refine carry_of_not_splitting hname fun hsplit => hs ?_
    obtain ⟨b, hb, hbs, hbn⟩ := mem_splitting.mp hsplit
    rwa [← node_eq_of_name hd hb ha hbn]

variable [Zero α]

theorem row_flatMap_expanded (hcarry : ∀ a ∈ xs, carry nodes ⟨a.name, 0⟩ =
      ⟨if splits a then activationName (newName nodes a.name) else newName nodes a.name, 0⟩)
    (h : Row c xs c') :
    Row (c.map (carry nodes)) (xs.flatMap (expanded nodes)) (c'.map (carry nodes)) := by
  induction h with
  | nil c => exact .nil _
  | @cons c c' a rest hinputs _ ih =>
    have hrest := ih fun b hb => hcarry b (List.mem_cons_of_mem a hb)
    rw [List.map_singleton, hcarry a (List.mem_cons_self ..)] at hrest
    rw [List.flatMap_cons, expanded, List.cons_append]
    refine .cons (by rw [← hinputs]; rfl) ?_
    by_cases hs : splits a = true
    · rw [if_pos hs] at hrest ⊢
      exact .cons rfl hrest
    · rw [if_neg hs] at hrest ⊢
      exact hrest

/-- Nodes in a row are in a row with their activations too. -/
theorem row_expand (hd : (nodes.map (·.name)).Nodup)
    (hfresh : ∀ p ∈ splitting nodes,
      activationName (newName nodes p) ∉ (nodes.map (·.name)).map (newName nodes))
    (h : Row [] (wireDefaults nodes) c') : ∃ d, Row [] (expand nodes) d := by
  refine ⟨c'.map (carry nodes), ?_⟩
  rw [expand_eq hd]
  refine row_flatMap_expanded (fun a ha => ?_) h
  obtain ⟨b, hb, heq⟩ :=
    List.mem_map.mp (wireDefaults_map (f := fun a : Node α => (a.name, splits a))
      (fun _ _ => rfl) nodes ▸
    List.mem_map_of_mem (f := fun a : Node α => (a.name, splits a)) ha)
  obtain ⟨hname, hsplits⟩ := Prod.mk.inj heq
  rw [← hname, ← hsplits]
  exact carry_first hd hfresh hb

/-- A layer, and behind it the activation that its node splits off. -/
def spread (a : Node α) : List (Layer α) :=
  a.layer :: if splits a then [.activation a.activation] else []

theorem layers_expand (hd : (nodes.map (·.name)).Nodup) :
    (expand nodes).map (·.layer) = nodes.flatMap spread := by
  rw [expand_eq hd, List.map_flatMap]
  have hspread : ∀ a : Node α, (expanded nodes a).map (·.layer) = spread a := by
    intro a
    rw [expanded, List.map_cons, carried_layer, spread]
    split <;> rfl
  simp only [hspread]
  have hsame := congrArg List.flatten (wireDefaults_map (f := fun a : Node α => spread a)
    (fun _ _ => rfl) nodes)
  rwa [← List.flatMap_def, ← List.flatMap_def] at hsame

end Expand

section Fuse

variable (hloss : ∀ a ∈ done, a.isLoss = false) (hl : l.layer.loss? = some kind)
include hloss hl

omit hl in
/-- Fusing comes to the first loss. -/
theorem fuse_reaches (rules : List FusionRule) :
    fuse rules (done ++ [l]) = fuseFrom rules done.length (done ++ [l]) := by
  have hstep : ∀ behind before : List (Node α), done = before ++ behind →
      fuseFrom rules before.length (done ++ [l]) = fuseFrom rules done.length (done ++ [l]) := by
    intro behind
    induction behind with
    | nil =>
      rintro before rfl
      rw [List.append_nil]
    | cons a behind ih =>
      intro before hdone
      have hnone : a.layer.loss? = none := by simpa [Node.isLoss] using hloss a (by simp [hdone])
      have hnext := ih (before ++ [a]) (by rw [hdone, List.append_assoc]; rfl)
      have hsplit : done ++ [l] = before ++ a :: (behind ++ [l]) := by
        rw [hdone, List.append_assoc]; rfl
      rw [← hnext, hsplit, fuseFrom_of_not_loss hnone, List.length_append]
      rfl
  exact hstep done [] rfl

/-- The only loss, if it stands at the end and is not fused. -/
theorem fuse_of_none (h : partner? rules (done ++ [l]) l = none) : fuse rules (done ++ [l]) =
    if kind = .cross then .error (.misconfigured (.unfusedLoss l.name)) (done ++ [l])
      else .ok () (done ++ [l]) := by
  rw [fuse_reaches hloss, fuseFrom_of_loss hl (fuseAt_of_none hl h), hl]
  simp only [Option.some.injEq]
  rw [fuseFrom_end (by simp)]

/-- The only loss, if it stands at the end and is fused with the node before it. -/
theorem fuse_of_some (hd : ((done ++ [p] ++ [l]).map (·.name)).Nodup) (hp : p.isLoss = false)
    (hfused : fused ≠ .cross)
    (h : partner? rules (done ++ [p] ++ [l]) l = some (p, fused, source)) :
    fuse rules (done ++ [p] ++ [l]) = .ok () (done ++ [fusedNode l fused source]) := by
  have hne : p.name ≠ l.name := by
    rw [List.map_append, List.nodup_append] at hd
    exact hd.2.2 _ (by simp) _ (by simp)
  have hleft : without [p.name] (done ++ [p]) = done := by
    rw [without_append, without_eq_self fun a ha hname => ?_]
    · simp [without]
    · rw [List.map_append, List.map_append, List.append_assoc, List.nodup_append] at hd
      exact hd.2.2 _ (List.mem_map_of_mem ha) p.name (by simp) (List.mem_singleton.mp hname)
  have hat := fuseAt_of_some hd hl hne h
  rw [hleft] at hat
  rw [fuse_reaches (all_append hloss (by simpa using hp)), fuseFrom_of_loss hl hat,
    if_neg (by simpa [fusedNode, Layer.loss?])]
  exact fuseFrom_end (by simp [without])

end Fuse

/-- The loss at the end of a row is fused with the node before it exactly if a rule is for the
two. -/
theorem Row.partner?_eq (h : Row [] (done ++ [p] ++ [l]) c')
    (hd : ((done ++ [p] ++ [l]).map (·.name)).Nodup) (hl : l.layer.loss? = some kind)
    (hsource : p.inputs = [source]) : partner? rules (done ++ [p] ++ [l]) l =
      (p.layer.activation?.bind fun f => rules.find? fun rule => rule.activation = f ∧
        rule.loss = kind).map fun rule => (p, rule.fused, source) := by
  obtain ⟨hfront, rfl⟩ := row_concat_iff.mp h
  obtain ⟨-, hinputs⟩ := row_concat_iff.mp hfront
  have hp : p ∈ done ++ [p] ++ [l] := by simp
  have honce : readCount (done ++ [p] ++ [l]) p.name = 1 := by
    have hall := h.connections_append
    rw [List.nil_append, List.map_append, List.map_singleton, List.append_cancel_right_eq] at hall
    rw [readCount, hall, List.countP_map, List.map_append, List.nodup_append] at *
    have hcount : (done ++ [p]).countP ((fun x : Connection => x.name == p.name) ∘
        fun a => ⟨a.name, 0⟩) = ((done ++ [p]).map (·.name)).count p.name := by
      rw [List.count, List.countP_map]
      rfl
    rw [hcount]
    exact List.count_eq_one_of_mem hd.1 (by simp)
  refine Option.ext fun x => ?_
  obtain ⟨a, fused, s⟩ := x
  rw [partner?_eq_some_iff hd, Option.map_eq_some_iff]
  constructor
  · rintro ⟨ha, ⟨slot, hreader⟩, hs, -, kind', f, rule, hkind, hf, hrule, rfl⟩
    have hname : p.name = a.name := by
      rw [hinputs, List.cons.injEq] at hreader
      exact (Connection.mk.inj hreader.1).1
    obtain rfl := node_eq_of_name hd hp ha hname
    rw [hsource, List.cons.injEq] at hs
    rw [hl] at hkind
    cases hkind
    exact ⟨rule, by rw [hf]; exact hrule, by rw [hs.1]⟩
  · rintro ⟨rule, hrule, heq⟩
    obtain ⟨rfl, rfl, rfl⟩ : p = a ∧ rule.fused = fused ∧ source = s := by simpa using heq
    obtain ⟨f, hf, hrule⟩ := Option.bind_eq_some_iff.mp hrule
    exact ⟨hp, ⟨0, hinputs⟩, hsource, honce, kind, f, rule, hl, hf, hrule, rfl⟩

section Append

variable [Zero α]

/-- To nodes in a row a loss can be appended, unless there is one. -/
theorem Row.addLoss_eq (h : Row [] (xs ++ [a]) c') (hd : ((xs ++ [a]).map (·.name)).Nodup)
    (hloss : ∀ b ∈ xs ++ [a], b.isLoss = false) {text : String} (hne : text ≠ "") :
    addLoss (some text) (xs ++ [a]) = match Loss.ofName? text with
      | none => .error (.misconfigured (.unknownLoss text))
      | some kind =>
        .ok (xs ++ [a] ++
          [.ofLayer (.loss kind) (freshName kind.name ((xs ++ [a]).map (·.name))) c']) := by
  have hfind : (xs ++ [a]).find? (·.isLoss) = none :=
    List.find?_eq_none.mpr fun b hb => by simp [hloss b hb]
  rw [addLoss, if_neg hne, appendLoss]
  cases Loss.ofName? text with
  | none => simp only
  | some kind => simp only [hfind, h.terminals hd rfl, (row_concat_iff.mp h).2]

/-- Nodes in a row get their outputs, and nothing else. -/
theorem Row.exists_outputs (h : Row [] nodes c') (hd : (nodes.map (·.name)).Nodup) : ∃ nodes',
    (do Action.update setOutputs; separateReaders : Action (List (Node α)) Unit) nodes =
      .ok () nodes' ∧ setOutputs nodes = .ok nodes' := by
  obtain ⟨nodes', hset⟩ := (exists_setOutputs_iff hd).mpr ⟨h.resolved, fun a _ => h.dense a.name⟩
  refine ⟨nodes', ?_, hset⟩
  have hd' : (nodes'.map (·.name)).Nodup := setOutputs_names hset ▸ hd
  have hlisted := fun a (ha : a ∈ nodes') => listed_setOutputs hset hd ha
  have hresolved := resolved_setOutputs hset hd
  have hnone : fanned (slotTable nodes') = [] := by
    refine List.eq_nil_iff_forall_not_mem.mpr fun s hs =>
      (mem_fanned_slotTable hresolved hlisted).mp hs ?_
    intro r r' hr hr'
    exact h.single hd s r r' ((reads_setOutputs_iff hset).mp hr)
      ((reads_setOutputs_iff hset).mp hr')
  have hsplits := splits_insertFanOut nodes'
  have hsame : insertFanOut nodes' = nodes' := by
    refine hsplits.eq_of_length ?_
    have := hsplits.names_perm.length_eq
    rwa [hnone, List.map_nil, List.append_nil, List.length_map, List.length_map] at this
  have hstep : separateReaders nodes' = (if (insertFanOut nodes').length ≠ nodes'.length then
      Action.update setOutputs else pure () : Action (List (Node α)) Unit) (insertFanOut nodes') :=
        rfl
  rw [Action.bind_of_ok (Action.update_of_ok hset), hstep, hsame, if_neg (not_not.mpr rfl)]
  rfl

end Append

end LayerGraph.Lowering
