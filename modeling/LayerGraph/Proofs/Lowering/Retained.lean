import LayerGraph.Proofs.Alignment
import LayerGraph.Proofs.Lowering.Fusion
import LayerGraph.Proofs.Lowering.Generated

/-!
# What lowering retains

Wherever lowering stops, the nodes that it was given are still there and in their order, each with
its layer and under its new name, but for activations that have been fused into a loss. What has
come in are activations, a loss and fan-out nodes.
-/

namespace LayerGraph.Lowering

variable {α : Type} {nodes nodes' : List (Node α)} {rules : List FusionRule}

section Expand

/-- The redirections of several splits, one after the other. -/
def redirects (names : List String) (c : Connection) : Connection :=
  names.foldl (fun c p => redirect p c) c

theorem redirects_of_not_mem {names : List String} {c : Connection} (h : c.name ∉ names) :
    redirects names c = c := by
  induction names with
  | nil => rfl
  | cons p names ih =>
    rw [List.mem_cons, not_or] at h
    rw [redirects, List.foldl_cons, redirect, if_neg fun hc => h.1 hc.2]
    exact ih h.2

/-- Where no activation has a name that is split as well, redirecting one after the other redirects
all at once. -/
theorem redirects_eq_redirectAll {names : List String} (h : ∀ p ∈ names, activationName p ∉ names)
    (c : Connection) : redirects names c = redirectAll names c := by
  induction names generalizing c with
  | nil => exact (redirectAll_of_not_mem (List.not_mem_nil)).symm
  | cons p names ih =>
    have hp : activationName p ∉ names :=
      fun hm => h p (List.mem_cons_self ..) (List.mem_cons_of_mem p hm)
    rw [redirects, List.foldl_cons, ← redirectAll_redirect hp]
    exact ih (fun q hq hm => h q (List.mem_cons_of_mem p hq) (List.mem_cons_of_mem p hm)) _

def redirectEach (names : List String) (a : Node α) : Node α :=
  { a with inputs := a.inputs.map (redirects names) }

variable [Zero α]

/-- A node without its activation, and the activation. -/
def splitInto (names : List String) (a : Node α) : List (Node α) :=
  settled (redirectEach names a) :: if splits a then [activationNode a] else []

theorem splitFrom_eq (before : List (Node α)) {rest : List (Node α)}
    (hd : (rest.map (·.name)).Nodup) : splitFrom before rest =
      before.map (redirectEach (splitting rest)) ++ rest.flatMap (splitInto (splitting rest)) := by
  have hnil : ∀ a : Node α, redirectEach [] a = a := fun a => by
    rw [redirectEach, show redirects [] = id from rfl, List.map_id]
  have hcons : ∀ (p : String) (names : List String) (a : Node α),
      redirectEach names (redirectNode p a) = redirectEach (p :: names) a := fun p names a => by
    rw [redirectEach, redirectNode, redirectEach, List.map_map]
    rfl
  induction hlen : rest.length generalizing before rest with
  | zero =>
    obtain rfl := List.length_eq_zero_iff.mp hlen
    rw [splitFrom, show splitting ([] : List (Node α)) = [] from rfl, List.flatMap_nil,
      List.append_nil]
    exact (List.map_id'' hnil before).symm
  | succ length ih =>
    obtain ⟨a, rest, rfl⟩ := List.exists_cons_of_length_eq_add_one hlen
    obtain ⟨hfresh, hd⟩ := List.nodup_cons.mp (List.map_cons .. ▸ hd)
    have hlen : rest.length = length := by simpa using hlen
    rw [splitFrom]
    split
    · next hs =>
      have hsplitting : splitting (a :: rest) = a.name :: splitting rest := by simp [splitting, hs]
      have hself : a.name ∉ splitting rest := fun hm => hfresh (splitting_subset hm)
      rw [ih _ (by simpa [redirectNode, Function.comp_def] using hd) (by simpa using hlen),
        splitting_redirect, hsplitting]
      have hnode : redirectEach (splitting rest)
          { redirectNode a.name a with activation := .none } =
          settled (redirectEach (a.name :: splitting rest) a) := by
        rw [settled, if_pos (by exact hs), ← hcons]
        rfl
      have hact : redirectEach (splitting rest) (activationNode a) = activationNode a := by
        have hinputs : (activationNode a).inputs.map (redirects (splitting rest)) =
            (activationNode a).inputs :=
          congrArg (fun c => [c]) (redirects_of_not_mem hself)
        rw [redirectEach, hinputs]
      have hrest : (rest.map (redirectNode a.name)).flatMap (splitInto (splitting rest)) =
          rest.flatMap (splitInto (a.name :: splitting rest)) := by
        rw [List.flatMap_map]
        refine List.flatMap_congr fun b _ => ?_
        rw [splitInto, hcons]
        rfl
      rw [List.map_append, List.map_map, List.map_cons, List.map_cons, List.map_nil,
        hnode, hact, hrest, List.flatMap_cons, splitInto, if_pos hs, List.append_assoc]
      congr 1
      exact List.map_congr_left fun b _ => hcons a.name _ b
    · next hs =>
      have hsplitting : splitting (a :: rest) = splitting rest := by simp [splitting, hs]
      rw [ih _ hd hlen, hsplitting, List.map_append, List.append_assoc, List.flatMap_cons,
        splitInto, if_neg hs, settled, if_neg (by exact hs)]
      rfl

/-- What a connection becomes: it is renamed, and then sent on to the activations. -/
def carry (nodes : List (Node α)) (c : Connection) : Connection :=
  redirects ((splitting nodes).map (newName nodes))
    (renameConnection (renamings (nodes.map (·.name))) c)

/-- What a node becomes: its activation is taken off, and all names are the new ones. -/
def carried (nodes : List (Node α)) (a : Node α) : Node α :=
  { settled a with
    name := newName nodes a.name
    inputs := a.inputs.map (carry nodes)
    sharedFrom := a.sharedFrom.map (newName nodes) }

/-- The activation that is put behind a node. -/
def activationBehind (nodes : List (Node α)) (a : Node α) : Node α :=
  .ofLayer (.activation a.activation) (activationName (newName nodes a.name))
    [⟨newName nodes a.name, 0⟩]

/-- A node and, if it has one to split off, its activation. -/
def expanded (nodes : List (Node α)) (a : Node α) : List (Node α) :=
  carried nodes a :: if splits a then [activationBehind nodes a] else []

/-- The expanded nodes are the nodes in their order, with their default inputs, each followed by its
activation. -/
theorem expand_eq (hd : (nodes.map (·.name)).Nodup) :
    expand nodes = (wireDefaults nodes).flatMap (expanded nodes) := by
  have hd' : (((wireDefaults nodes).map (applyRenaming (renamings (nodes.map (·.name))))).map
      (·.name)).Nodup := by
    rw [names_applyRenaming, wireDefaults_names]
    exact nodup_map_renamed (isRenaming_renamings _) hd
  rw [expand, wireDefaults_renameReserved, splitActivations, splitFrom_eq [] hd', List.map_nil,
    List.nil_append, splitting_map_applyRenaming, splitting_wireDefaults, List.flatMap_map]
  refine List.flatMap_congr fun a _ => ?_
  rw [splitInto, expanded, splits_applyRenaming]
  congr 1
  have hinputs : (a.inputs.map (renameConnection (renamings (nodes.map (·.name))))).map
      (redirects ((splitting nodes).map (newName nodes))) = a.inputs.map (carry nodes) :=
        List.map_map
  unfold carried settled
  rw [show splits (redirectEach _ (applyRenaming _ a)) = splits a from rfl, ← hinputs]
  split
  · rfl
  · rfl

end Expand

section Fuse

/-- What fusing makes of a node: a loss in front of which an activation has stood stands for
both. -/
inductive Condensed (rules : List FusionRule) (nodes : List (Node α)) (a : Node α) :
    Node α → Prop where
  | same : Condensed rules nodes a a
  | fused {p : Node α} {rule : FusionRule} {slot : Nat} {c : Connection} (there : p ∈ nodes)
      (ruled : rule ∈ rules) (activation : p.layer.activation? = some rule.activation)
        (loss : a.layer.loss? = some rule.loss) (reads : a.inputs = [⟨p.name, slot⟩])
          (source : p.inputs = [c]) : Condensed rules nodes a (fusedNode a rule.fused c)

/-- An activation for which, together with the loss behind it, there is a rule. -/
def FusedAway (rules : List FusionRule) (nodes : List (Node α)) (p : Node α) : Prop :=
  ∃ rule ∈ rules, p.layer.activation? = some rule.activation ∧
    ∃ l ∈ nodes, l.layer.loss? = some rule.loss ∧ ∃ slot, l.inputs = [⟨p.name, slot⟩]

theorem Condensed.eq_of_activation {a b : Node α} {f : Activation} (h : Condensed rules nodes a b)
    (hb : b.layer.activation? = some f) : b = a := by
  cases h with
  | same => rfl
  | fused => cases hb

/-- The search has come past the nodes in `done`; those in `rest` it has not touched but for
activations that are fused. -/
def Progress (rules : List FusionRule) (nodes done rest : List (Node α)) : Prop :=
  ∃ old new, nodes = old ++ new ∧ Aligned (Condensed rules nodes) (FusedAway rules nodes)
    (fun _ => False) old done ∧
    Aligned Eq (FusedAway rules nodes) (fun _ => False) new rest

namespace Progress

variable {done rest before behind : List (Node α)} {a l : Node α}

theorem start (rules : List FusionRule) (nodes : List (Node α)) : Progress rules nodes [] nodes :=
  ⟨[], nodes, rfl, .nil, .refl (fun _ => rfl) nodes⟩

theorem aligned (h : Progress rules nodes done rest) :
    Aligned (Condensed rules nodes) (FusedAway rules nodes) (fun _ => False) nodes
      (done ++ rest) := by
  obtain ⟨old, new, hsplit, hold, hnew⟩ := h
  have hnew' : Aligned (Condensed rules nodes) (FusedAway rules nodes) (fun _ => False) new rest :=
    hnew.mono (fun _ _ _ _ heq => heq ▸ .same) (fun _ _ h => h) fun _ _ h => h
  have hall := hold.append hnew'
  rwa [← hsplit] at hall

theorem mem_of_rest (h : Progress rules nodes done rest) (ha : a ∈ rest) : a ∈ nodes := by
  obtain ⟨old, new, rfl, -, hnew⟩ := h
  obtain ⟨x, hx, rfl⟩ := (hnew.exists_left ha).resolve_right not_false
  exact List.mem_append_right old hx

theorem mem_of_activation (h : Progress rules nodes done rest) (ha : a ∈ done ++ rest)
    {f : Activation} (hf : a.layer.activation? = some f) : a ∈ nodes := by
  obtain ⟨x, hx, hsame⟩ := (h.aligned.exists_left ha).resolve_right not_false
  rw [hsame.eq_of_activation hf]
  exact hx

/-- The next node becomes what fusing may make of it. -/
theorem next {b : Node α} (h : Progress rules nodes done (a :: rest))
    (hb : Condensed rules nodes a b) : Progress rules nodes (done ++ [b]) rest := by
  obtain ⟨old, new, hsplit, hold, hnew⟩ := h
  obtain ⟨front, back, rfl, hfront, ⟨x, rest', rfl, rfl, hrest⟩ | ⟨hfalse, -⟩⟩ := hnew.cons_right
  · refine ⟨old ++ (front ++ [x]), rest', by simpa using hsplit, hold.append ?_, hrest⟩
    exact (Aligned.all_gone hfront).append (.kept hb .nil)
  · exact hfalse.elim

theorem remove_done (h : Progress rules nodes (before ++ a :: behind) rest) {f : Activation}
    (hf : a.layer.activation? = some f) (ha : FusedAway rules nodes a) :
    Progress rules nodes (before ++ behind) rest := by
  obtain ⟨old, new, hsplit, hold, hnew⟩ := h
  exact ⟨old, new, hsplit, hold.remove not_false fun x hx => hx.eq_of_activation hf ▸ ha, hnew⟩

theorem remove_rest (h : Progress rules nodes done (before ++ a :: behind))
    (ha : FusedAway rules nodes a) : Progress rules nodes done (before ++ behind) := by
  obtain ⟨old, new, hsplit, hold, hnew⟩ := h
  exact ⟨old, new, hsplit, hold, hnew.remove not_false fun x hx => hx ▸ ha⟩

/-- Fusing the next loss leaves the search where it goes on. -/
theorem fuse_next {kind : Loss} (h : Progress rules nodes done (l :: rest))
    (hl : l.layer.loss? = some kind) :
    ∃ done' rest', (fuseAt rules (done ++ l :: rest) done.length l kind).1 = done' ++ rest' ∧
      rest'.length ≤ rest.length ∧ Progress rules nodes done' rest' ∧
      (done'.length = (fuseAt rules (done ++ l :: rest) done.length l kind).2 + 1 ∨
        (done' ++ rest').length ≤ (fuseAt rules (done ++ l :: rest) done.length l kind).2) := by
  rcases fuseAt_eq_or rules (done ++ l :: rest) done.length l kind with heq | ⟨a,
    fused, p, source, hf, heq⟩
  · rw [heq]
    exact ⟨done ++ [l], rest, by simp, Nat.le_refl _, h.next .same, .inl (by simp)⟩
  obtain ⟨rule, hrule, hact, rfl, rfl⟩ := hf.ruled
  obtain ⟨slot, hreader⟩ := hf.reader
  have hp := hf.producer
  have hmem := h.mem_of_rest (List.mem_cons_self ..)
  have ha : a ∈ nodes := h.mem_of_activation (List.mem_of_getElem? hp) hact
  have haway : FusedAway rules nodes a := ⟨rule, hrule, hact, l, hmem, hl, slot, hreader⟩
  have hcondensed : Condensed rules nodes l (fusedNode l rule.fused source) :=
    .fused ha hrule hact hl hreader hf.source
  rw [heq, List.set_append_right _ _ (Nat.le_refl _), Nat.sub_self, List.set_cons_zero]
  rcases Nat.lt_trichotomy p done.length with hlt | rfl | hgt
  · rw [List.getElem?_append_left hlt] at hp
    obtain ⟨before, behind, rfl, rfl⟩ := exists_append_cons_of_getElem? hp
    refine ⟨before ++ behind ++ [fusedNode l rule.fused source], rest, ?_, Nat.le_refl _,
      (h.remove_done hact haway).next hcondensed, .inl ?_⟩
    · rw [List.append_assoc, List.cons_append, eraseIdx_append_cons]
      simp
    · rw [if_pos hlt]
      simp
      omega
  · rw [List.getElem?_append_right (Nat.le_refl _), Nat.sub_self, List.getElem?_cons_zero,
      Option.some.injEq] at hp
    subst hp
    rw [if_neg (Nat.lt_irrefl _), eraseIdx_append_cons]
    change Progress rules nodes done ([] ++ l :: rest) at h
    have hrest : Progress rules nodes done rest := h.remove_rest haway
    cases rest with
    | nil => exact ⟨done, [], rfl, Nat.le_refl _, hrest, .inr (by simp)⟩
    | cons b rest => exact ⟨done ++ [b], rest, by simp, by simp, hrest.next .same, .inl (by simp)⟩
  · rw [List.getElem?_append_right (Nat.le_of_lt hgt), show p - done.length =
      (p - done.length - 1) + 1 by omega, List.getElem?_cons_succ] at hp
    obtain ⟨before, behind, rfl, hlen⟩ := exists_append_cons_of_getElem? hp
    refine ⟨done ++ [fusedNode l rule.fused source], before ++ behind, ?_, by simp,
      (h.next hcondensed).remove_rest haway, .inl ?_⟩
    · have hsplit : done ++ fusedNode l rule.fused source :: (before ++ a :: behind) =
          (done ++ fusedNode l rule.fused source :: before) ++ a :: behind := by simp
      rw [hsplit, show p = (done ++ fusedNode l rule.fused source :: before).length by simp; omega,
        eraseIdx_append_cons]
      simp
    · rw [if_neg (Nat.not_lt.mpr (Nat.le_of_lt hgt))]
      simp

end Progress

/-- Where fusing stops, seen from one node. -/
theorem after_fuseFrom_cons (rules : List FusionRule) (done rest : List (Node α)) (l : Node α) :
    (l.layer.loss? = none ∧ Action.after (fuseFrom rules done.length) (done ++ l :: rest) =
      Action.after (fuseFrom rules (done.length + 1)) (done ++ l :: rest)) ∨
    ∃ kind, l.layer.loss? = some kind ∧
      (Action.after (fuseFrom rules done.length) (done ++ l :: rest) =
          (fuseAt rules (done ++ l :: rest) done.length l kind).1 ∨
        (fuseAt rules (done ++ l :: rest) done.length l kind).2 <
            (fuseAt rules (done ++ l :: rest) done.length l kind).1.length ∧
          Action.after (fuseFrom rules done.length) (done ++ l :: rest) =
            Action.after
              (fuseFrom rules ((fuseAt rules (done ++ l :: rest) done.length l kind).2 + 1))
              (fuseAt rules (done ++ l :: rest) done.length l kind).1) := by
  have hi : done.length < (done ++ l :: rest).length := by simp
  have hget : (done ++ l :: rest)[done.length] = l := by simp
  unfold Action.after
  rw [fuseFrom, dif_pos hi]
  cases hloss : l.layer.loss? with
  | none =>
    simp only [hget, hloss, and_self, true_or]
  | some kind =>
    refine .inr ⟨kind, rfl, ?_⟩
    simp only [hget, hloss]
    by_cases hf : (fuseAt rules (done ++ l :: rest) done.length l kind).2 <
        (fuseAt rules (done ++ l :: rest) done.length l kind).1.length
    · rw [dif_pos hf]
      by_cases hcross : (fuseAt rules (done ++ l :: rest) done.length l kind).1[
          (fuseAt rules (done ++ l :: rest) done.length l kind).2].layer.loss? = some .cross
      · rw [if_pos hcross]
        exact .inl rfl
      · rw [if_neg hcross]
        exact .inr ⟨hf, rfl⟩
    · rw [dif_neg hf]
      exact .inl rfl

/-- What each fusing of a loss keeps still holds wherever fusing stops. -/
theorem exists_progress_after_fuse {P : List (Node α) → Prop} (hstart : P nodes)
    (hstep : ∀ {done rest : List (Node α)} {l : Node α} {kind : Loss},
      Progress rules nodes done (l :: rest) → l.layer.loss? = some kind → P (done ++ l :: rest) →
      P (fuseAt rules (done ++ l :: rest) done.length l kind).1) :
    ∃ done rest, (fuse rules).after nodes = done ++ rest ∧ Progress rules nodes done rest ∧
    P (done ++ rest) := by
  have hend : ∀ {done rest : List (Node α)} {i : Nat}, Progress rules nodes done rest →
      P (done ++ rest) → (done ++ rest).length ≤ i → ∃ done' rest',
        Action.after (fuseFrom rules i) (done ++ rest) = done' ++ rest' ∧
        Progress rules nodes done' rest' ∧ P (done' ++ rest') := by
    intro done rest i h hP hi
    refine ⟨done, rest, ?_, h, hP⟩
    unfold Action.after
    rw [fuseFrom, dif_neg (Nat.not_lt.mpr hi)]
  have hall : ∀ (length : Nat) (done rest : List (Node α)), rest.length ≤ length →
      Progress rules nodes done rest →
      P (done ++ rest) → ∃ done' rest',
        Action.after (fuseFrom rules done.length) (done ++ rest) = done' ++ rest' ∧
        Progress rules nodes done' rest' ∧ P (done' ++ rest') := by
    intro length
    induction length with
    | zero =>
      intro done rest hlen h hP
      obtain rfl := List.length_eq_zero_iff.mp (Nat.le_zero.mp hlen)
      exact hend h hP (by simp)
    | succ length ih =>
      intro done rest hlen h hP
      cases rest with
      | nil => exact hend h hP (by simp)
      | cons l rest =>
        rcases after_fuseFrom_cons rules done rest l with ⟨-, heq⟩ | ⟨kind, hloss, hafter⟩
        · rw [heq]
          have hnext := ih (done ++ [l]) rest (Nat.le_of_succ_le_succ hlen) (h.next .same)
            (by simpa using hP)
          simpa using hnext
        · have hP' := hstep h hloss hP
          obtain ⟨done', rest', hsplit, hlen', hprogress, hindex⟩ := h.fuse_next hloss
          rw [hsplit] at hP'
          rcases hafter with heq | ⟨hlt, heq⟩
          · rw [heq, hsplit]
            exact ⟨done', rest', rfl, hprogress, hP'⟩
          · rw [heq, hsplit]
            rcases hindex with hdone | hpast
            · rw [← hdone]
              exact ih done' rest' (Nat.le_trans hlen' (Nat.le_of_succ_le_succ hlen)) hprogress hP'
            · rw [hsplit] at hlt
              exact absurd hlt (Nat.not_lt.mpr hpast)
  exact hall _ [] nodes (Nat.le_refl _) (.start rules nodes) hstart

/-- Wherever fusing stops, activations have gone and losses stand for them. -/
theorem aligned_fuse (rules : List FusionRule) (nodes : List (Node α)) :
    Aligned (Condensed rules nodes) (FusedAway rules nodes) (fun _ => False) nodes
      ((fuse rules).after nodes) := by
  obtain ⟨done, rest, heq, hprogress, -⟩ :=
    exists_progress_after_fuse (P := fun _ : List (Node α) => True) trivial fun _ _ _ => trivial
  rw [heq]
  exact hprogress.aligned

end Fuse

section FanOut

/-- A node with as many inputs as before, whatever they read. -/
def SameBut (a b : Node α) : Prop :=
  b = { a with inputs := b.inputs } ∧ b.inputs.length = a.inputs.length

theorem SameBut.refl (a : Node α) : SameBut a a := ⟨rfl, rfl⟩

theorem SameBut.trans {a b c : Node α} (h : SameBut a b) (h' : SameBut b c) : SameBut a c := by
  obtain ⟨hb, hlen⟩ := h
  obtain ⟨hc, hlen'⟩ := h'
  refine ⟨?_, hlen'.trans hlen⟩
  rw [hc, hb]

/-- A connection and what it may be replaced by: a slot of the fan-out node behind what it reads. -/
inductive Behind (c : Connection) : Connection → Prop where
  | same : Behind c c
  | slot (j : Nat) : Behind c ⟨fanOutOf c, j⟩

/-- A node that is the same but for who reads it, and for fan-out nodes in front of it. -/
def Rewires (a b : Node α) : Prop :=
  b = { a with inputs := b.inputs, outputs := b.outputs } ∧ List.Forall₂ Behind a.inputs b.inputs

theorem aligned_setInputs (sends : List (Connection × Connection)) (nodes : List (Node α)) :
    Aligned SameBut (fun _ => False) (fun _ => False) nodes (setInputs sends nodes) := by
  induction sends generalizing nodes with
  | nil => exact .refl SameBut.refl nodes
  | cons send sends ih =>
    have hstep : Aligned SameBut (fun _ => False) (fun _ => False) nodes
        (setInput send.1 send.2 nodes) := by
      unfold setInput
      split
      · exact .modify SameBut.refl (fun a => ⟨rfl, List.length_set⟩) nodes _
      · exact .refl SameBut.refl nodes
    exact hstep.trans (ih _) (fun _ _ _ => SameBut.trans) (fun _ h => h) (fun _ _ _ h => h)
      (fun _ _ h _ => h) fun _ h => h

/-- A fan-out node for one of the slots. -/
def FansOut (slots : List Connection) (b : Node α) : Prop :=
  ∃ s ∈ slots, b.name = fanOutOf s ∧ b.layer = .multiout ∧ b.inputs.length = 1

theorem FansOut.sameBut {slots : List Connection} {a b : Node α} (h : FansOut slots a)
    (hb : SameBut a b) : FansOut slots b := by
  obtain ⟨s, hs, hname, hlayer, hlen⟩ := h
  refine ⟨s, hs, ?_, ?_, hb.2.trans hlen⟩
  · rw [hb.1]
    exact hname
  · rw [hb.1]
    exact hlayer

variable [Zero α]

/-- Separating the readers leaves all nodes where they are and puts fan-out nodes between them. -/
theorem Splits.aligned {slots : List (Connection × List Connection)}
    (h : Splits slots nodes nodes') :
    Aligned SameBut (fun _ => False) (FansOut (fanned slots)) nodes nodes' := by
  induction h with
  | done nodes => exact .refl SameBut.refl nodes
  | @keep s readers slots nodes nodes' few _ ih =>
    rwa [show fanned ((s, readers) :: slots) = fanned slots by simp [fanned, few]]
  | @split s readers slots nodes nodes' position many _ _ ih =>
    rw [show fanned ((s, readers) :: slots) = s :: fanned slots by simp [fanned, many]]
    have hfan : FansOut (s :: fanned slots) (fanOutNode s : Node α) :=
      ⟨s, List.mem_cons_self .., rfl, rfl, rfl⟩
    have hset := aligned_setInputs (sends (fanOutName s.name s.index) readers) nodes
    have hinsert : Aligned SameBut (fun _ => False) (FansOut (s :: fanned slots))
        (setInputs (sends (fanOutName s.name s.index) readers) nodes)
        (splitSlot s.name s.index readers position nodes) := .insertIdx SameBut.refl hfan _ _
    have hslot : Aligned SameBut (fun _ => False) (FansOut (s :: fanned slots)) nodes
        (splitSlot s.name s.index readers position nodes) :=
      hset.trans hinsert (fun _ _ _ => SameBut.trans) (fun _ h => h) (fun _ _ _ h => h)
        (fun _ _ h _ => h.elim) fun _ h => h
    refine hslot.trans ih (fun _ _ _ => SameBut.trans) (fun _ h => h) (fun _ _ _ h => h)
      (fun _ _ => FansOut.sameBut) ?_
    rintro z ⟨s', hs', h⟩
    exact ⟨s', List.mem_cons_of_mem s hs', h⟩

/-- A fan-out node and the slot it is behind. -/
def IsFanOut (b : Node α) : Prop := ∃ s, b.name = fanOutOf s ∧ b.layer = .multiout ∧ b.inputs = [s]

/-- Once the readers are separated, an input reads what it has read or a slot of the fan-out node
behind it. -/
theorem aligned_insertFanOut (hd : ((insertFanOut nodes).map (·.name)).Nodup)
    (hl : ∀ a ∈ nodes, Listed nodes a) :
    Aligned Rewires (fun _ => False) IsFanOut nodes (insertFanOut nodes) := by
  have hsplits := splits_insertFanOut nodes
  have hd₀ : (nodes.map (·.name)).Nodup := hd.sublist hsplits.names_sublist
  have ht := tabled_slotTable hd₀ hl
  have hreads := fun {r c} => hsplits.reads_iff hd ht (r := r) (c := c)
  refine hsplits.aligned.mono (fun a ha b hb hab => ?_) (fun _ _ h => h) fun b hb hfan => ?_
  · have hname : b.name = a.name := by rw [hab.1]
    refine ⟨hab.1.trans ?_, List.forall₂_iff_get.mpr ⟨hab.2.symm, fun j hj hj' => ?_⟩⟩
    · rw [show b.outputs = a.outputs by rw [hab.1]]
    · have hread : Reads nodes ⟨a.name, j⟩ (a.inputs.get ⟨j, hj⟩) :=
        ⟨a, ha, rfl, List.getElem?_eq_getElem hj⟩
      have hread' : Reads (insertFanOut nodes) ⟨a.name, j⟩ (b.inputs.get ⟨j, hj'⟩) :=
        ⟨b, hb, hname, List.getElem?_eq_getElem hj'⟩
      generalize b.inputs.get ⟨j, hj'⟩ = d at hread'
      generalize hr : (⟨a.name, j⟩ : Connection) = r at hread hread'
      rcases hreads.mp hread' with ⟨hkept, -⟩ | ⟨hs, -, hreader⟩ | ⟨hs⟩
      · rw [hread.unique hd₀ hkept]
        exact .same
      · have hread'' := (ht.mem_iff _ _ hs _).mp (List.mem_of_getElem? hreader)
        rw [hread.unique hd₀ hread'']
        exact .slot _
      · refine absurd ?_ (hsplits.fanOutOf_not_mem hd hs)
        rw [← (Connection.mk.inj hr).1]
        exact List.mem_map_of_mem ha
  · obtain ⟨s, hs, hname, hlayer, hlen⟩ := hfan
    obtain ⟨c, hc⟩ := List.length_eq_one_iff.mp hlen
    refine ⟨s, hname, hlayer, ?_⟩
    have hread : Reads (insertFanOut nodes) ⟨fanOutOf s, 0⟩ c := ⟨b, hb, hname, by rw [hc]; rfl⟩
    rw [hc, hread.unique hd (hreads.mpr (.fan hs))]

omit [Zero α] in
theorem Rewires.refl (a : Node α) : Rewires a a := ⟨rfl, List.forall₂_same.mpr fun _ _ => .same⟩

omit [Zero α] in
/-- Finding the readers changes nothing else. -/
theorem aligned_setOutputs {M : Node α → Prop} (h : setOutputs nodes = .ok nodes') :
    Aligned (fun a b => b = { a with outputs := b.outputs }) (fun _ => False) M nodes nodes' := by
  have hmap : nodes'.map (fun a => { a with outputs := [] }) = nodes.map fun a =>
      { a with outputs := [] } :=
    setOutputs_map h fun _ _ => rfl
  clear h
  induction nodes generalizing nodes' with
  | nil =>
    rw [List.map_nil, List.map_eq_nil_iff] at hmap
    rw [hmap]
    exact .nil
  | cons a nodes ih =>
    obtain ⟨b, rest, rfl, hb, hrest⟩ := List.map_eq_cons_iff.mp hmap
    refine .kept ?_ (ih hrest)
    cases a
    cases b
    cases hb
    rfl

/-- Where separating the readers stops. -/
theorem after_separateReaders (nodes : List (Node α)) :
    separateReaders.after nodes = insertFanOut nodes ∨
    setOutputs (insertFanOut nodes) = .ok (separateReaders.after nodes) := by
  unfold separateReaders
  rw [Action.after_get_bind, Action.after_modify_bind, Action.after_get_bind]
  split
  · cases hset : setOutputs (insertFanOut nodes) with
    | ok n₅ => exact .inr (by rw [Action.after_of_ok (Action.update_of_ok hset)])
    | error e => exact .inl (Action.after_of_error (Action.update_of_error hset))
  · exact .inl rfl

theorem names_after_separateReaders (nodes : List (Node α)) :
    (separateReaders.after nodes).map (·.name) = (insertFanOut nodes).map (·.name) := by
  rcases after_separateReaders nodes with heq | hset
  · rw [heq]
  · exact setOutputs_names hset

/-- Wherever separating the readers stops, there are fan-out nodes between the nodes. -/
theorem aligned_separateReaders {n₂ n₃ : List (Node α)} (hset : setOutputs n₂ = .ok n₃)
    (hd : ((separateReaders.after n₃).map (·.name)).Nodup) :
    Aligned Rewires (fun _ => False) IsFanOut n₂ (separateReaders.after n₃) := by
  have hd₄ : ((insertFanOut n₃).map (·.name)).Nodup := names_after_separateReaders n₃ ▸ hd
  have hd₃ : (n₃.map (·.name)).Nodup := hd₄.sublist (splits_insertFanOut n₃).names_sublist
  have hd₂ : (n₂.map (·.name)).Nodup := setOutputs_names hset ▸ hd₃
  have hfan := aligned_insertFanOut hd₄ fun a ha => listed_setOutputs hset hd₂ ha
  have hfront : Aligned Rewires (fun _ => False) IsFanOut n₂ (insertFanOut n₃) := by
    refine (aligned_setOutputs (M := fun _ => False) hset).trans hfan ?_ (fun _ h => h)
      (fun _ _ _ h => h) (fun _ _ h _ => h.elim) fun _ h => h
    rintro a b c hab ⟨hbc, hinputs⟩
    refine ⟨?_, ?_⟩
    · rw [hbc, hab]
    · rw [hab] at hinputs
      exact hinputs
  rcases after_separateReaders n₃ with heq | hset'
  · rwa [heq]
  · refine hfront.trans (aligned_setOutputs (M := fun _ => False) hset') ?_ (fun _ h => h)
      (fun _ _ _ h => h) ?_ fun _ h => h.elim
    · rintro a b c ⟨hab, hinputs⟩ hbc
      refine ⟨?_, ?_⟩
      · rw [hbc, hab]
      · rw [hbc]
        exact hinputs
    · rintro b c ⟨s, hname, hlayer, hinputs⟩ hbc
      refine ⟨s, ?_, ?_, ?_⟩
      · rw [hbc]
        exact hname
      · rw [hbc]
        exact hlayer
      · rw [hbc]
        exact hinputs

end FanOut

section Lower

variable [Zero α] {loss : Option String}

/-- A loss of a new name. -/
def IsAppended (nodes : List (Node α)) (b : Node α) : Prop :=
  (∃ kind, b.layer = .loss kind) ∧ b.name ∉ nodes.map (·.name)

/-- What lowering has left of an expanded node wherever it has stopped. -/
def Remains (rules : List FusionRule) (nodes : List (Node α)) (a b : Node α) : Prop :=
  ∃ c, Condensed rules nodes a c ∧ Rewires c b

/-- Where lowering stops. -/
theorem after_lower (loss : Option String) (rules : List FusionRule) (nodes : List (Node α)) :
    (lower loss rules).after nodes = expand nodes ∨ ∃ n₁, addLoss loss (expand nodes) = .ok n₁ ∧
      ((lower loss rules).after nodes = (fuse rules).after n₁ ∨
        ∃ n₃, setOutputs ((fuse rules).after n₁) = .ok n₃ ∧ (lower loss rules).after nodes =
          separateReaders.after n₃) := by
  unfold lower
  rw [Action.after_modify_bind, Action.after_modify_bind, Action.after_modify_bind]
  rw [show splitActivations (wireDefaults (renameReserved nodes)) = expand nodes from rfl]
  cases hadd : addLoss loss (expand nodes) with
  | error e =>
    exact .inl (Action.after_of_error (Action.bind_of_error (Action.update_of_error hadd)))
  | ok n₁ =>
    refine .inr ⟨n₁, rfl, ?_⟩
    rw [Action.after_bind_of_ok (Action.update_of_ok hadd)]
    cases hfuse : fuse rules n₁ with
    | error e n₂ =>
      left
      rw [Action.after_of_error hfuse, Action.after_of_error (Action.bind_of_error hfuse)]
    | ok u n₂ =>
      rw [Action.after_bind_of_ok hfuse, Action.after_of_ok hfuse]
      cases hset : setOutputs n₂ with
      | error e =>
        exact .inl (Action.after_of_error (Action.bind_of_error (Action.update_of_error hset)))
      | ok n₃ => exact .inr ⟨n₃, rfl, Action.after_bind_of_ok (Action.update_of_ok hset)⟩

/-- The expanded nodes are retained wherever lowering stops, if no name is given twice. -/
theorem retained_after_lower (hd : (((lower loss rules).after nodes).map (·.name)).Nodup) :
    ∃ more, Appended (expand nodes) more ∧
      Aligned (Remains rules (expand nodes ++ more)) (FusedAway rules (expand nodes ++ more))
        (fun b => IsAppended (expand nodes) b ∨ IsFanOut b) (expand nodes)
        ((lower loss rules).after nodes) := by
  rcases after_lower loss rules nodes with hafter | ⟨n₁, hadd, hafter⟩
  · rw [hafter]
    exact ⟨[], .nothing, .refl (fun a => ⟨a, .same, .refl a⟩) _⟩
  obtain ⟨more, rfl, happended⟩ := appended_of_addLoss hadd
  refine ⟨more, happended, ?_⟩
  have hadded : Aligned Eq (FusedAway rules (expand nodes ++ more)) (IsAppended (expand nodes))
      (expand nodes) (expand nodes ++ more) := by
    have hmore : Aligned Eq (FusedAway rules (expand nodes ++ more))
        (IsAppended (expand nodes)) [] more := by
      refine .all_made ?_
      cases happended with
      | nothing => simp
      | loss fresh _ => exact List.forall_mem_singleton.mpr ⟨⟨_, rfl⟩, fresh⟩
    have hall := (Aligned.refl (fun _ => rfl) (expand nodes)).append hmore
    rwa [List.append_nil] at hall
  have hfused : Aligned (Condensed rules (expand nodes ++ more))
      (FusedAway rules (expand nodes ++ more)) (IsAppended (expand nodes)) (expand nodes)
        ((fuse rules).after (expand nodes ++ more)) := by
    refine hadded.trans (aligned_fuse rules _) (fun a b c hab hbc => hab ▸ hbc) (fun _ h => h)
      (fun a b hab hb => hab ▸ hb) ?_ fun _ h => h.elim
    rintro b c ⟨hkind, fresh⟩ hbc
    cases hbc with
    | same => exact ⟨hkind, fresh⟩
    | fused => exact ⟨⟨_, rfl⟩, fresh⟩
  rcases hafter with hafter | ⟨n₃, hset, hafter⟩
  · rw [hafter]
    exact hfused.mono (fun _ _ b _ h => ⟨b, h, .refl b⟩) (fun _ _ h => h) fun _ _ h => .inl h
  · rw [hafter] at hd ⊢
    refine hfused.trans (aligned_separateReaders hset hd) (fun a b c hab hbc => ⟨b, hab, hbc⟩)
      (fun _ h => h) (fun _ _ _ h => h.elim) ?_ fun _ h => .inr h
    rintro b c ⟨⟨kind, hkind⟩, fresh⟩ ⟨hbc, -⟩
    refine .inl ⟨⟨kind, ?_⟩, ?_⟩
    · rw [hbc]
      exact hkind
    · rw [hbc]
      exact fresh

/-- Wherever lowering stops, no name is empty if none was. -/
theorem ne_empty_after_lower (hne : ∀ name ∈ nodes.map (·.name), name ≠ "") :
    ∀ name ∈ ((lower loss rules).after nodes).map (·.name), name ≠ "" := by
  have hexpand : ∀ name ∈ (expand nodes).map (·.name), name ≠ "" := by
    intro name hname
    rcases List.mem_append.mp ((names_expand nodes).mem_iff.mp hname) with hname | hname
    · obtain ⟨p, hp, rfl⟩ := List.mem_map.mp hname
      exact newName_ne_empty (hne p hp)
    · obtain ⟨p, -, rfl⟩ := List.mem_map.mp hname
      exact activationName_ne_empty _
  rcases after_lower loss rules nodes with hafter | ⟨n₁, hadd, hafter⟩
  · rwa [hafter]
  have hadded : ∀ name ∈ n₁.map (·.name), name ≠ "" := by
    rcases addLoss_eq_ok hadd with rfl | ⟨kind, terminal, -, -, rfl⟩
    · exact hexpand
    · intro name hname
      rw [List.map_append, List.mem_append] at hname
      rcases hname with hname | hname
      · exact hexpand name hname
      · obtain ⟨j, hj⟩ := exists_freshName_eq kind.name ((expand nodes).map (·.name))
        rw [List.mem_singleton.mp hname, Node.ofLayer, hj, ne_eq, String.append_eq_empty_iff,
          not_and_or]
        exact .inl (by cases kind <;> decide)
  have hfused : ∀ name ∈ ((fuse rules).after n₁).map (·.name), name ≠ "" := by
    intro name hname
    obtain ⟨b, hb, rfl⟩ := List.mem_map.mp hname
    obtain ⟨a, ha, hab⟩ := ((aligned_fuse rules n₁).exists_left hb).resolve_right not_false
    have hsame : b.name = a.name := by
      cases hab with
      | same => rfl
      | fused => rfl
    rw [hsame]
    exact hadded a.name (List.mem_map_of_mem ha)
  rcases hafter with hafter | ⟨n₃, hset, hafter⟩
  · rwa [hafter]
  · rw [hafter, names_after_separateReaders]
    intro name hname
    rcases List.mem_append.mp ((splits_insertFanOut n₃).names_perm.mem_iff.mp
      hname) with hname | hname
    · rw [setOutputs_names hset] at hname
      exact hfused name hname
    · obtain ⟨s, -, rfl⟩ := List.mem_map.mp hname
      exact fanOutOf_ne_empty s

end Lower

end LayerGraph.Lowering
