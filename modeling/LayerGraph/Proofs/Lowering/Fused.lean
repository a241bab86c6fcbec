import LayerGraph.Proofs.Lowering.Fusion
import LayerGraph.Single

/-!
# What is fused

Fusing goes through the nodes once, and what it fuses it removes from the list it goes through.
Still everything can be told from the nodes as they are before: which losses are fused, with which
activation and into which kind. For as a loss takes over what its activation reads, no other node
gains or loses a reader, and as an activation that is fused has one reader only, no two losses are
after the same one.
-/

namespace LayerGraph.Lowering

variable {α : Type} {rules : List FusionRule} {nodes nodes' old new : List (Node α)}
  {l a : Node α} {fused : Loss} {source : Connection} {name : String}

/-- The loss `l` reads nothing but the activation `a`, which has a single input and no other reader,
and the first rule that is for the two makes the kind `fused` of them. -/
structure Fusable (rules : List FusionRule) (nodes : List (Node α)) (l a : Node α) (fused : Loss)
    (source : Connection) : Prop where
  there : a ∈ nodes
  reader : ∃ slot, l.inputs = [⟨a.name, slot⟩]
  source : a.inputs = [source]
  once : readCount nodes a.name = 1
  ruled : ∃ kind f rule, l.layer.loss? = some kind ∧ a.layer.activation? = some f ∧
    rules.find? (fun rule => rule.activation = f ∧ rule.loss = kind) = some rule ∧
    rule.fused = fused

/-- The activation that a loss is fused with, the kind that stands for both, and what the activation
reads. -/
def partner? (rules : List FusionRule) (nodes : List (Node α)) (l : Node α) :
    Option (Node α × Loss × Connection) :=
  l.layer.loss?.bind fun kind =>
    (fusion? rules nodes l kind).map fun fusion => (nodes.get fusion.producer,
      fusion.fused, fusion.source)

theorem partner?_of_not_loss (h : l.layer.loss? = none) : partner? rules nodes l = none := by
  rw [partner?, h, Option.bind_none]

theorem fusion?_eq_some_iff {kind : Loss} {fusion : Fusion nodes.length} :
    fusion? rules nodes l kind = some fusion ↔
    ∃ input f rule, l.inputs = [input] ∧
      nodes.findFinIdx? (·.name == input.name) = some fusion.producer ∧
      (nodes.get fusion.producer).layer.activation? = some f ∧
      rules.find? (fun rule => rule.activation = f ∧ rule.loss = kind) = some rule ∧
      (nodes.get fusion.producer).inputs = [fusion.source] ∧ readCount nodes input.name = 1 ∧
      rule.fused = fusion.fused := by
  unfold fusion?
  constructor
  · intro h
    split at h
    · next input hinputs =>
      simp only [Option.bind_eq_bind, Option.bind_eq_some_iff] at h
      obtain ⟨p, hfind, f, hf, rule, hrule, h⟩ := h
      split at h
      · next source hsource =>
        split at h
        · next honce =>
          cases h
          exact ⟨input, f, rule, hinputs, hfind, hf, hrule, hsource, honce, rfl⟩
        · cases h
      · cases h
    · cases h
  · rintro ⟨input, f, rule, hinputs, hfind, hf, hrule, hsource, honce, hfused⟩
    rw [List.get_eq_getElem] at hf hsource
    simp only [hinputs, hfind, Option.bind_eq_bind, Option.bind_some, Fin.getElem_fin,
      hf, hrule, hsource, honce, if_true, hfused]

theorem partner?_eq_some_iff (hd : (nodes.map (·.name)).Nodup) :
    partner? rules nodes l = some (a, fused, source) ↔ Fusable rules nodes l a fused source := by
  unfold partner?
  rw [Option.bind_eq_some_iff]
  constructor
  · rintro ⟨kind, hkind, h⟩
    obtain ⟨fusion, hfusion, h⟩ := Option.map_eq_some_iff.mp h
    obtain ⟨rfl, rfl, rfl⟩ : nodes[fusion.producer] = a ∧ fusion.fused = fused ∧
        fusion.source = source := by
      simpa using h
    obtain ⟨input, f, rule, hinputs, hfind, hf, hrule, hsource, honce, hfused⟩ :=
      fusion?_eq_some_iff.mp hfusion
    have hname : nodes[fusion.producer].name = input.name := by
      simpa using (List.findFinIdx?_eq_some_iff.mp hfind).1
    exact ⟨List.getElem_mem _, ⟨input.index, by rw [hinputs, hname]⟩, hsource, by rw [hname, honce],
      kind, f, rule, hkind, hf, hrule, hfused⟩
  · rintro ⟨hthere, ⟨slot, hreader⟩, hsource, honce, kind, f, rule, hkind, hf, hrule, rfl⟩
    obtain ⟨p, hp, rfl⟩ := List.getElem_of_mem hthere
    have hfind : nodes.findFinIdx? (·.name == nodes[p].name) = some ⟨p, hp⟩ := by
      refine List.findFinIdx?_eq_some_iff.mpr ⟨by simp, fun j hj => ?_⟩
      intro h
      have hsame : nodes[j].name = nodes[p].name := by simpa using h
      have hjp : j.val = p := getElem?_inj_of_nodup_map hd (List.getElem?_eq_getElem j.isLt)
        (List.getElem?_eq_getElem hp) hsame
      exact absurd hjp (Nat.ne_of_lt hj)
    refine ⟨kind, hkind, Option.map_eq_some_iff.mpr ⟨⟨⟨p, hp⟩, rule.fused, source⟩, ?_, rfl⟩⟩
    exact fusion?_eq_some_iff.mpr ⟨_, f, rule, hreader, hfind, hf, hrule, hsource, honce, rfl⟩

/-- What becomes of a node that is not removed. -/
def condense (rules : List FusionRule) (nodes : List (Node α)) (l : Node α) : Node α :=
  match partner? rules nodes l with
  | none => l
  | some (_, fused, source) => fusedNode l fused source

/-- The names of the activations with which these losses are fused. -/
def absorbed (rules : List FusionRule) (nodes losses : List (Node α)) : List String :=
  losses.filterMap fun l => (partner? rules nodes l).map (·.1.name)

/-- What is left if the nodes of these names are removed. -/
def without (names : List String) (nodes : List (Node α)) : List (Node α) :=
  nodes.filter (·.name ∉ names)

/-- What is left of the nodes in `old` when fusing has come past them. -/
def finished (rules : List FusionRule) (nodes old : List (Node α)) : List (Node α) :=
  (without (absorbed rules nodes old) old).map (condense rules nodes)

/-- The nodes when fusing has come past those in `old`, and those in `new` are still to come. -/
def halfway (rules : List FusionRule) (nodes old new : List (Node α)) : List (Node α) :=
  finished rules nodes old ++ without (absorbed rules nodes old) new

section Names

@[simp] theorem condense_name (l : Node α) : (condense rules nodes l).name = l.name := by
  unfold condense
  split <;> rfl

theorem condense_of_none (h : partner? rules nodes l = none) :
    condense rules nodes l = l := by rw [condense, h]

theorem condense_of_some (h : partner? rules nodes l = some (a, fused, source)) :
    condense rules nodes l = fusedNode l fused source := by rw [condense, h]

theorem absorbed_concat_of_none (h : partner? rules nodes l = none) :
    absorbed rules nodes (old ++ [l]) = absorbed rules nodes old := by
  simp [absorbed, h]

theorem absorbed_concat_of_some (h : partner? rules nodes l = some (a, fused, source)) :
    absorbed rules nodes (old ++ [l]) = absorbed rules nodes old ++ [a.name] := by
  simp [absorbed, h]

theorem without_append (names : List String) (xs ys : List (Node α)) :
    without names (xs ++ ys) = without names xs ++ without names ys := List.filter_append ..

theorem without_eq_self {names : List String} {xs : List (Node α)} (h : ∀ x ∈ xs, x.name ∉ names) :
    without names xs = xs :=
  List.filter_eq_self.mpr fun x hx => by simpa using h x hx

theorem without_names_append (names more : List String) (xs : List (Node α)) :
    without (names ++ more) xs = without more (without names xs) := by
  unfold without
  rw [List.filter_filter]
  exact List.filter_congr fun x _ => by simp [Bool.and_comm]

theorem without_map_condense (names : List String) (xs : List (Node α)) :
    without names (xs.map (condense rules nodes)) = (without names xs).map
      (condense rules nodes) := by
  unfold without
  rw [List.filter_map]
  exact congrArg _ (List.filter_congr fun x _ => by simp)

theorem names_halfway (old new : List (Node α)) : (halfway rules nodes old new).map (·.name) =
    (without (absorbed rules nodes old) (old ++ new)).map (·.name) := by
  unfold halfway finished
  rw [without_append, List.map_append, List.map_append, List.map_map]
  exact congrArg (· ++ _) (List.map_congr_left fun x _ => condense_name x)

theorem nodup_halfway (hd : ((old ++ new).map (·.name)).Nodup) :
    ((halfway rules nodes old new).map (·.name)).Nodup := by
  rw [names_halfway]
  exact hd.sublist (List.filter_sublist.map _)

end Names

section Step

variable {done rest : List (Node α)} {kind : Loss}

theorem eraseIdx_eq_without {xs : List (Node α)} {p : Nat} (hd : (xs.map (·.name)).Nodup)
    (hp : xs[p]? = some a) : xs.eraseIdx p = without [a.name] xs := by
  obtain ⟨before, behind, rfl, rfl⟩ := exists_append_cons_of_getElem? hp
  rw [List.map_append, List.map_cons, List.nodup_middle, List.nodup_cons] at hd
  have hother : ∀ x ∈ before ++ behind, x.name ∉ [a.name] := by
    intro x hx hname
    rw [List.mem_singleton] at hname
    rw [← List.map_append, ← hname] at hd
    exact hd.1 (List.mem_map_of_mem hx)
  rw [eraseIdx_append_cons, without_append, ← without_eq_self hother, without_append]
  simp [without]

theorem fuseAt_of_none (hl : l.layer.loss? = some kind)
    (h : partner? rules (done ++ l :: rest) l = none) :
    fuseAt rules (done ++ l :: rest) done.length l kind = (done ++ l :: rest, done.length) := by
  rw [partner?, hl, Option.bind_some, Option.map_eq_none_iff] at h
  rw [fuseAt, h]

theorem fuseAt_of_some (hd : ((done ++ l :: rest).map (·.name)).Nodup)
    (hl : l.layer.loss? = some kind) (hne : a.name ≠ l.name)
    (h : partner? rules (done ++ l :: rest) l = some (a, fused, source)) :
    fuseAt rules (done ++ l :: rest) done.length l kind =
      (without [a.name] done ++ fusedNode l fused source :: without [a.name] rest,
        (without [a.name] done).length) := by
  rw [partner?, hl, Option.bind_some, Option.map_eq_some_iff] at h
  obtain ⟨⟨p, fused₁, source₁⟩, hfusion, h⟩ := h
  obtain ⟨hp, rfl, rfl⟩ : (done ++ l :: rest)[p] = a ∧ fused = fused₁ ∧ source = source₁ := by
    simpa [eq_comm] using h
  replace hp : (done ++ l :: rest)[p.val]? = some a :=
    (List.getElem?_eq_getElem p.isLt).trans (congrArg some hp)
  have hset : (done ++ l :: rest).set done.length (fusedNode l fused source) = done ++
      fusedNode l fused source :: rest := by
    simp
  have hd' : ((done ++ fusedNode l fused source :: rest).map (·.name)).Nodup := by
    simpa [fusedNode] using hd
  have hpi : p.val ≠ done.length := by
    intro heq
    rw [heq, List.getElem?_append_right (Nat.le_refl _), Nat.sub_self, List.getElem?_cons_zero,
      Option.some.injEq] at hp
    exact hne (congrArg Node.name hp.symm)
  have hp' : (done ++ fusedNode l fused source :: rest)[p.val]? = some a := by
    rw [← hset, List.getElem?_set_ne (Ne.symm hpi), hp]
  have hkept : without [a.name] (fusedNode l fused source :: rest) = fusedNode l fused source ::
      without [a.name] rest := by
    simp [without, fusedNode, hne.symm]
  have hindex : (if p.val < done.length then done.length - 1 else done.length) =
      (without [a.name] done).length := by
    split
    · next hlt =>
      rw [List.getElem?_append_left hlt] at hp
      have hdone : (done.map (·.name)).Nodup := by
        rw [List.map_append] at hd
        exact hd.of_append_left
      rw [← eraseIdx_eq_without hdone hp, List.length_eraseIdx, if_pos hlt]
    · next hge =>
      rw [without_eq_self fun x hx hname => ?_]
      obtain ⟨j, hj, rfl⟩ := List.getElem_of_mem hx
      have hjx : (done ++ l :: rest)[j]? = some done[j] := by
        rw [List.getElem?_append_left hj, List.getElem?_eq_getElem hj]
      have hjp := getElem?_inj_of_nodup_map hd hjx hp (List.mem_singleton.mp hname)
      omega
  rw [fuseAt, hfusion]
  dsimp only
  rw [← hindex, ← hkept, ← without_append, ← eraseIdx_eq_without hd' hp', ← hset]
  rfl

theorem fuseFrom_end {i : Nat} (h : nodes.length ≤ i) : fuseFrom rules i nodes = .ok () nodes := by
  rw [fuseFrom, dif_neg (Nat.not_lt.mpr h)]

theorem fuseFrom_of_not_loss (hl : l.layer.loss? = none) :
    fuseFrom rules done.length (done ++ l :: rest) = fuseFrom rules (done.length + 1)
      (done ++ l :: rest) := by
  have hi : done.length < (done ++ l :: rest).length := by simp
  have hget : (done ++ l :: rest)[done.length] = l := by simp
  rw [fuseFrom, dif_pos hi]
  simp only [hget, hl]

theorem fuseFrom_of_loss (hl : l.layer.loss? = some kind) {done' rest' : List (Node α)} {b : Node α}
    (h : fuseAt rules (done ++ l :: rest) done.length l kind =
      (done' ++ b :: rest', done'.length)) : fuseFrom rules done.length (done ++ l :: rest) =
      if b.layer.loss? = some .cross then .error (.misconfigured (.unfusedLoss b.name))
      (done' ++ b :: rest')
      else fuseFrom rules (done'.length + 1) (done' ++ b :: rest') := by
  have hi : done.length < (done ++ l :: rest).length := by simp
  have hget : (done ++ l :: rest)[done.length] = l := by simp
  have hi' : done'.length < (done' ++ b :: rest').length := by simp
  have hget' : (done' ++ b :: rest')[done'.length] = b := by simp
  rw [fuseFrom, dif_pos hi]
  simp only [hget, hl, h, hi', dif_pos, hget']

end Step

section Counts

theorem readCount_append (xs ys : List (Node α)) (x : String) :
    readCount (xs ++ ys) x = readCount xs x + readCount ys x := by
  simp [readCount, connections]

theorem readCount_cons (b : Node α) (xs : List (Node α)) (x : String) :
    readCount (b :: xs) x = b.inputs.countP (·.name == x) + readCount xs x := by
  simp [readCount, connections]

theorem readCount_pos {xs : List (Node α)} {b : Node α} {x : String} (hb : b ∈ xs) {slot : Nat}
    (h : b.inputs = [⟨x, slot⟩]) : 0 < readCount xs x := by
  obtain ⟨before, behind, rfl⟩ := List.append_of_mem hb
  have hone : [(⟨x, slot⟩ : Connection)].countP (·.name == x) = 1 := by simp
  rw [readCount_append, readCount_cons, h, hone]
  omega

theorem mentions_iff_readCount : Mentions nodes name ↔ readCount nodes name ≠ 0 := by
  unfold Mentions readCount connections
  simp only [ne_eq, List.countP_eq_zero, List.mem_flatMap, not_forall]
  constructor
  · rintro ⟨b, hb, c, hc, h⟩
    exact ⟨c, ⟨b, hb, hc⟩, by simp [h]⟩
  · rintro ⟨c, ⟨b, hb, hc⟩, h⟩
    exact ⟨b, hb, c, hc, by simpa using h⟩

theorem readCount_without {xs : List (Node α)} (hd : (xs.map (·.name)).Nodup)
    (ha : a ∈ xs) (x : String) :
    readCount xs x = readCount (without [a.name] xs) x + a.inputs.countP (·.name == x) := by
  obtain ⟨p, hp⟩ := List.getElem?_of_mem ha
  rw [← eraseIdx_eq_without hd hp]
  obtain ⟨before, behind, rfl, rfl⟩ := exists_append_cons_of_getElem? hp
  rw [eraseIdx_append_cons, readCount_append, readCount_append, readCount_cons]
  omega

/-- Fusing takes one reader from the activation, and leaves all other nodes as many as they have. -/
theorem readCount_fused {done rest : List (Node α)} (hd : ((done ++ l :: rest).map (·.name)).Nodup)
    (hne : a.name ≠ l.name) (h : Fusable rules (done ++ l :: rest) l a fused source) (x : String) :
    readCount (without [a.name] done ++ fusedNode l fused source :: without [a.name] rest) x +
      (if a.name = x then 1 else 0) = readCount (done ++ l :: rest) x := by
  obtain ⟨slot, hreader⟩ := h.reader
  have hd' : ((done ++ fusedNode l fused source :: rest).map (·.name)).Nodup := by
    simpa [fusedNode] using hd
  have hkept : without [a.name] (fusedNode l fused source :: rest) = fusedNode l fused source ::
      without [a.name] rest := by
    simp [without, fusedNode, hne.symm]
  have ha : a ∈ done ++ fusedNode l fused source :: rest := by
    have hal : a ≠ l := fun heq => hne (congrArg Node.name heq)
    have := h.there
    simp only [List.mem_append, List.mem_cons, hal, false_or] at this ⊢
    tauto
  have hcount := readCount_without hd' ha x
  rw [without_append, hkept, h.source, readCount_append done, readCount_cons] at hcount
  have hone : l.inputs.countP (·.name == x) = if a.name = x then 1 else 0 := by
    simp [hreader, List.countP_cons]
  have hsame : (fusedNode l fused source).inputs = [source] := rfl
  rw [hsame] at hcount
  rw [readCount_append done, readCount_cons, hone]
  omega

end Counts

section Halfway

/-- No node answers both for an activation and for a loss. -/
def Unambiguous (nodes : List (Node α)) : Prop :=
  ∀ a ∈ nodes, a.layer.activation? = none ∨ a.layer.loss? = none

instance (nodes : List (Node α)) : Decidable (Unambiguous nodes) :=
  inferInstanceAs (Decidable (∀ a ∈ nodes, a.layer.activation? = none ∨ a.layer.loss? = none))

/-- What has been fused has no reader any more, and all else has the readers it had. -/
structure Counted (rules : List FusionRule) (nodes old new : List (Node α)) : Prop where
  gone : ∀ x ∈ absorbed rules nodes old, readCount (halfway rules nodes old new) x = 0
  same : ∀ x ∉ absorbed rules nodes old, readCount (halfway rules nodes old new) x =
    readCount nodes x

/-- Fusing ends well if no node that is still to come ends as a cross entropy, and otherwise
complains about one that does. -/
def Settles (rules : List FusionRule) (nodes new : List (Node α))
    (result : EStateM.Result Error (List (Node α)) Unit) : Prop :=
  (result = .ok () (halfway rules nodes nodes []) ∧ Counted rules nodes nodes [] ∧
    ∀ l ∈ new, (condense rules nodes l).layer.loss? ≠ some .cross) ∨
  ∃ l ∈ new, (condense rules nodes l).layer.loss? = some .cross ∧ ∃ left,
    result = .error (.misconfigured (.unfusedLoss l.name)) left

theorem Settles.cons {result : EStateM.Result Error (List (Node α)) Unit}
    (h : Settles rules nodes new result) (hl : (condense rules nodes l).layer.loss? ≠ some .cross) :
    Settles rules nodes (l :: new) result := by
  rcases h with ⟨hr, hc, hall⟩ | ⟨k, hk, h⟩
  · exact .inl ⟨hr, hc, List.forall_mem_cons.mpr ⟨hl, hall⟩⟩
  · exact .inr ⟨k, List.mem_cons_of_mem l hk, h⟩

theorem Fusable.activation_ne_none (h : Fusable rules nodes l a fused source) :
    a.layer.activation? ≠ none := by
  obtain ⟨_, f, _, _, hf, _⟩ := h.ruled
  simp [hf]

/-- A node that is not removed and not fused stays as it is. -/
theorem finished_concat_of_none (h : partner? rules nodes l = none)
    (hl : l.name ∉ absorbed rules nodes old) :
    finished rules nodes (old ++ [l]) = finished rules nodes old ++ [l] := by
  unfold finished
  rw [absorbed_concat_of_none h, without_append, List.map_append]
  simp [without, hl, condense_of_none h]

theorem finished_concat_of_gone (h : partner? rules nodes l = none)
    (hl : l.name ∈ absorbed rules nodes old) :
    finished rules nodes (old ++ [l]) = finished rules nodes old := by
  unfold finished
  rw [absorbed_concat_of_none h, without_append, List.map_append]
  simp [without, hl]

theorem finished_concat_of_some (h : partner? rules nodes l = some (a, fused, source))
    (hne : a.name ≠ l.name) (hl : l.name ∉ absorbed rules nodes old) :
    finished rules nodes (old ++ [l]) = without [a.name] (finished rules nodes old) ++
      [fusedNode l fused source] := by
  unfold finished
  rw [absorbed_concat_of_some h, without_names_append, without_append, without_append,
    List.map_append, without_map_condense]
  have hkept : without [a.name] (without (absorbed rules nodes old) [l]) = [l] := by
    simp [without, hl, hne.symm]
  rw [hkept, List.map_singleton, condense_of_some h]

theorem halfway_cons (h : l.name ∉ absorbed rules nodes old) : halfway rules nodes old (l :: new) =
    finished rules nodes old ++ l :: without (absorbed rules nodes old) new := by
  simp [halfway, without, h]

/-- A node that is not fused only moves from one part to the other. -/
theorem halfway_concat_of_none (h : partner? rules nodes l = none) :
    halfway rules nodes (old ++ [l]) new = halfway rules nodes old (l :: new) := by
  unfold halfway
  by_cases hl : l.name ∈ absorbed rules nodes old
  · rw [finished_concat_of_gone h hl, absorbed_concat_of_none h]
    simp [without, hl]
  · rw [finished_concat_of_none h hl, absorbed_concat_of_none h]
    simp [without, hl]

theorem halfway_concat_of_some (h : partner? rules nodes l = some (a, fused, source))
    (hne : a.name ≠ l.name) (hl : l.name ∉ absorbed rules nodes old) :
    halfway rules nodes (old ++ [l]) new = without [a.name] (finished rules nodes old) ++
        fusedNode l fused source :: without [a.name] (without (absorbed rules nodes old) new) := by
  rw [halfway, finished_concat_of_some h hne hl, absorbed_concat_of_some h, without_names_append,
    List.append_assoc, List.singleton_append]

theorem Counted.concat_of_none (hc : Counted rules nodes old (l :: new))
    (h : partner? rules nodes l = none) : Counted rules nodes (old ++ [l]) new := by
  obtain ⟨hgone, hsame⟩ := hc
  rw [← absorbed_concat_of_none h, ← halfway_concat_of_none h] at hgone hsame
  exact ⟨hgone, hsame⟩

section Distinct

variable (hd : (nodes.map (·.name)).Nodup)
include hd

theorem mem_absorbed_iff {losses : List (Node α)} {x : String} : x ∈ absorbed rules nodes losses ↔
    ∃ l ∈ losses, ∃ a fused source, Fusable rules nodes l a fused source ∧ a.name = x := by
  unfold absorbed
  rw [List.mem_filterMap]
  constructor
  · rintro ⟨l, hl, h⟩
    obtain ⟨⟨a, fused, source⟩, hpartner, rfl⟩ := Option.map_eq_some_iff.mp h
    exact ⟨l, hl, a, fused, source, (partner?_eq_some_iff hd).mp hpartner, rfl⟩
  · rintro ⟨l, hl, a, fused, source, hf, rfl⟩
    exact ⟨l, hl, Option.map_eq_some_iff.mpr ⟨(a, fused, source), (partner?_eq_some_iff hd).mpr hf,
        rfl⟩⟩

/-- A node that is still to be fused with has not been fused with another loss. -/
theorem not_mem_absorbed (hsplit : nodes = old ++ l :: new)
    (h : Fusable rules nodes l a fused source) : a.name ∉ absorbed rules nodes old := by
  intro hmem
  obtain ⟨l', hl', b, _, _, hb, hname⟩ := (mem_absorbed_iff hd).mp hmem
  obtain ⟨slot, hreader⟩ := h.reader
  obtain ⟨slot', hreader'⟩ := hb.reader
  have honce := h.once
  have hearlier : 0 < readCount old a.name := readCount_pos hl' (hname ▸ hreader')
  have hlater : 0 < readCount (l :: new) a.name := readCount_pos (List.mem_cons_self ..) hreader
  rw [hsplit, readCount_append] at honce
  omega

theorem Counted.concat_of_some (hsplit : nodes = old ++ l :: new)
    (hc : Counted rules nodes old (l :: new))
    (h : partner? rules (halfway rules nodes old (l :: new)) l = some (a, fused, source))
    (h' : partner? rules nodes l = some (a, fused, source)) (hne : a.name ≠ l.name)
    (hl : l.name ∉ absorbed rules nodes old) : Counted rules nodes (old ++ [l]) new := by
  have hd' : ((halfway rules nodes old (l :: new)).map (·.name)).Nodup :=
    nodup_halfway (hsplit ▸ hd)
  have hf := (partner?_eq_some_iff hd').mp h
  have hkept := not_mem_absorbed hd hsplit ((partner?_eq_some_iff hd).mp h')
  have hcount : ∀ x, readCount (halfway rules nodes (old ++ [l]) new) x +
      (if a.name = x then 1 else 0) = readCount (halfway rules nodes old (l :: new)) x := by
    intro x
    rw [halfway_concat_of_some h' hne hl]
    rw [halfway_cons hl] at hd' hf ⊢
    exact readCount_fused hd' hne hf x
  constructor
  · intro x hx
    rw [absorbed_concat_of_some h', List.mem_append, List.mem_singleton] at hx
    have := hcount x
    rcases hx with hx | rfl
    · rw [hc.gone x hx] at this
      omega
    · rw [hf.once, if_pos rfl] at this
      omega
  · intro x hx
    rw [absorbed_concat_of_some h', List.mem_append, List.mem_singleton, not_or] at hx
    have := hcount x
    rw [hc.same x hx.1, if_neg (Ne.symm hx.2)] at this
    exact this

end Distinct

section Unambiguous

variable (hu : Unambiguous nodes)
include hu

theorem mem_halfway_of_activation (hsplit : nodes = old ++ new) (ha : a.layer.activation? ≠ none) :
    a ∈ halfway rules nodes old new ↔ a ∈ nodes ∧ a.name ∉ absorbed rules nodes old := by
  unfold halfway finished without
  simp only [List.mem_append, List.mem_map, List.mem_filter, decide_eq_true_eq]
  constructor
  · rintro (⟨b, ⟨hb, hkept⟩, rfl⟩ | ⟨ha, hkept⟩)
    · cases hpartner : partner? rules nodes b with
      | none =>
        rw [condense_of_none hpartner]
        exact ⟨hsplit ▸ List.mem_append_left _ hb, hkept⟩
      | some partner =>
        obtain ⟨_, fused, source⟩ := partner
        rw [condense_of_some hpartner] at ha
        exact absurd rfl ha
    · exact ⟨hsplit ▸ List.mem_append_right _ ha, hkept⟩
  · rintro ⟨hmem, hkept⟩
    rcases List.mem_append.mp (hsplit ▸ hmem) with hold | hnew
    · exact .inl ⟨a, ⟨hold, hkept⟩,
        condense_of_none (partner?_of_not_loss ((hu a hmem).resolve_left ha))⟩
    · exact .inr ⟨hnew, hkept⟩

variable (hd : (nodes.map (·.name)).Nodup)
include hd

/-- The loss that comes next is fused as it would be at the start. -/
theorem partner?_halfway (hsplit : nodes = old ++ l :: new)
    (hc : Counted rules nodes old (l :: new)) :
    partner? rules (halfway rules nodes old (l :: new)) l = partner? rules nodes l := by
  have hd' : ((halfway rules nodes old (l :: new)).map (·.name)).Nodup :=
    nodup_halfway (hsplit ▸ hd)
  refine Option.ext fun ⟨a, fused, source⟩ => ?_
  rw [partner?_eq_some_iff hd', partner?_eq_some_iff hd]
  constructor
  · intro h
    obtain ⟨hmem, hkept⟩ := (mem_halfway_of_activation hu hsplit h.activation_ne_none).mp h.there
    exact ⟨hmem, h.reader, h.source, (hc.same _ hkept).symm.trans h.once, h.ruled⟩
  · intro h
    have hkept := not_mem_absorbed hd hsplit h
    exact ⟨(mem_halfway_of_activation hu hsplit h.activation_ne_none).mpr ⟨h.there, hkept⟩,
      h.reader, h.source, (hc.same _ hkept).trans h.once, h.ruled⟩

/-- Of two nodes of one name, one is not an activation and the other not a loss. -/
theorem Fusable.name_ne (hl : l ∈ nodes) {k : Node α} (h : Fusable rules nodes k a fused source)
    (hloss : l.layer.loss? ≠ none) : a.name ≠ l.name := by
  intro hname
  obtain ⟨p, hp⟩ := List.getElem?_of_mem h.there
  obtain ⟨i, hi⟩ := List.getElem?_of_mem hl
  obtain rfl := getElem?_inj_of_nodup_map hd hp hi hname
  obtain rfl := Option.some.inj (hp.symm.trans hi)
  exact (hu a hl).elim h.activation_ne_none hloss

/-- What is fused with is not a loss. -/
theorem loss_eq_none_of_mem_absorbed {losses : List (Node α)} (hl : l ∈ nodes)
    (h : l.name ∈ absorbed rules nodes losses) : l.layer.loss? = none := by
  obtain ⟨k, -, a, _, _, hf, hname⟩ := (mem_absorbed_iff hd).mp h
  by_contra hloss
  exact hf.name_ne hu hd hl hloss hname

/-- Fusing the rest of the nodes, seen from any point on the way. -/
theorem settles_fuseFrom (hsplit : nodes = old ++ new) (hc : Counted rules nodes old new) :
    Settles rules nodes new (fuseFrom rules (finished rules nodes old).length
      (halfway rules nodes old new)) := by
  induction new generalizing old with
  | nil =>
    obtain rfl : nodes = old := by rw [hsplit, List.append_nil]
    exact .inl ⟨fuseFrom_end (by simp [halfway, without]), hc, fun _ h => absurd h List.not_mem_nil⟩
  | cons l new ih =>
    have hl : l ∈ nodes := hsplit ▸ List.mem_append_right _ (List.mem_cons_self ..)
    have hsplit' : nodes = (old ++ [l]) ++ new := by
      rw [hsplit, List.append_assoc, List.singleton_append]
    by_cases hgone : l.name ∈ absorbed rules nodes old
    · -- The node has been removed already.
      have hloss := loss_eq_none_of_mem_absorbed hu hd hl hgone
      have hnone : partner? rules nodes l = none := partner?_of_not_loss hloss
      have hrest := ih hsplit' (hc.concat_of_none hnone)
      rw [halfway_concat_of_none hnone, finished_concat_of_gone hnone hgone] at hrest
      exact hrest.cons (by simp [condense_of_none hnone, hloss])
    cases hloss : l.layer.loss? with
    | none =>
      have hnone : partner? rules nodes l = none := partner?_of_not_loss hloss
      have hrest := ih hsplit' (hc.concat_of_none hnone)
      rw [halfway_concat_of_none hnone, finished_concat_of_none hnone hgone, halfway_cons hgone,
        List.length_append, List.length_singleton, ← fuseFrom_of_not_loss hloss, ← halfway_cons
          hgone] at hrest
      exact hrest.cons (by simp [condense_of_none hnone, hloss])
    | some kind =>
      have hthere := partner?_halfway hu hd hsplit hc
      have hd' : ((halfway rules nodes old (l :: new)).map (·.name)).Nodup :=
        nodup_halfway (hsplit ▸ hd)
      cases hp : partner? rules nodes l with
      | none =>
        rw [halfway_cons hgone, hp] at hthere
        have hrest := ih hsplit' (hc.concat_of_none hp)
        rw [halfway_concat_of_none hp, finished_concat_of_none hp hgone, List.length_append,
          List.length_singleton] at hrest
        rw [halfway_cons hgone] at hrest ⊢
        rw [fuseFrom_of_loss hloss (fuseAt_of_none hloss hthere)]
        split
        · next hcross =>
          exact .inr ⟨l, List.mem_cons_self .., by rwa [condense_of_none hp], _, rfl⟩
        · next hfine => exact hrest.cons (by rwa [condense_of_none hp])
      | some partner =>
        obtain ⟨a, fused, source⟩ := partner
        have hne : a.name ≠ l.name :=
          ((partner?_eq_some_iff hd).mp hp).name_ne hu hd hl (by simp [hloss])
        have hrest := ih hsplit' (hc.concat_of_some hd hsplit (hthere.trans hp) hp hne hgone)
        rw [halfway_concat_of_some hp hne hgone, finished_concat_of_some hp hne hgone,
          List.length_append, List.length_singleton] at hrest
        rw [halfway_cons hgone] at hthere hd' ⊢
        rw [fuseFrom_of_loss hloss (fuseAt_of_some hd' hloss hne (hthere.trans hp))]
        split
        · next hcross =>
          exact .inr ⟨l, List.mem_cons_self .., by rwa [condense_of_some hp], _, rfl⟩
        · next hfine => exact hrest.cons (by rwa [condense_of_some hp])

theorem settles_fuse : Settles rules nodes nodes (fuse rules nodes) := by
  have hstart : halfway rules nodes [] nodes = nodes := by
    simp [halfway, finished, absorbed, without]
  have hc : Counted rules nodes [] nodes := by
    constructor
    · exact fun x hx => absurd hx List.not_mem_nil
    · intro x _
      rw [hstart]
  have h := settles_fuseFrom hu hd rfl hc
  rwa [hstart] at h

end Unambiguous

end Halfway

section Exactly

/-- The activation `a` is fused with the loss behind it. -/
def FusesAway (rules : List FusionRule) (nodes : List (Node α)) (a : Node α) : Prop :=
  ∃ l ∈ nodes, ∃ fused source, Fusable rules nodes l a fused source

/-- A loss that is fusable takes the fused kind and reads what its activation has read; every other
node stays as it is. -/
def Becomes (rules : List FusionRule) (nodes : List (Node α)) (l b : Node α) : Prop :=
  (∃ a fused source, Fusable rules nodes l a fused source ∧ b = fusedNode l fused source) ∨
    (¬ ∃ a fused source, Fusable rules nodes l a fused source) ∧ b = l

variable (hd : (nodes.map (·.name)).Nodup)
include hd

theorem becomes_iff {b : Node α} : Becomes rules nodes l b ↔ b = condense rules nodes l := by
  unfold Becomes
  cases h : partner? rules nodes l with
  | none =>
    have hnot : ¬ ∃ a fused source, Fusable rules nodes l a fused source := by
      rintro ⟨a, fused, source, hf⟩
      rw [(partner?_eq_some_iff hd).mpr hf] at h
      cases h
    rw [condense_of_none h]
    exact ⟨fun hb => hb.elim (fun ⟨a, fused, source, hf, _⟩ => absurd ⟨a, fused, source, hf⟩ hnot)
      (·.2), fun hb => .inr ⟨hnot, hb⟩⟩
  | some partner =>
    obtain ⟨a, fused, source⟩ := partner
    have hf := (partner?_eq_some_iff hd).mp h
    rw [condense_of_some h]
    refine ⟨?_, fun hb => .inl ⟨a, fused, source, hf, hb⟩⟩
    rintro (⟨a', fused', source', hf', rfl⟩ | ⟨hnot, -⟩)
    · rw [(partner?_eq_some_iff hd).mpr hf'] at h
      cases h
      rfl
    · exact absurd ⟨a, fused, source, hf⟩ hnot

theorem fusesAway_iff (ha : a ∈ nodes) : FusesAway rules nodes a ↔
    a.name ∈ absorbed rules nodes nodes := by
  rw [mem_absorbed_iff hd]
  constructor
  · rintro ⟨l, hl, fused, source, hf⟩
    exact ⟨l, hl, a, fused, source, hf, rfl⟩
  · rintro ⟨l, hl, b, fused, source, hf, hname⟩
    obtain ⟨p, hp⟩ := List.getElem?_of_mem hf.there
    obtain ⟨i, hi⟩ := List.getElem?_of_mem ha
    obtain rfl := getElem?_inj_of_nodup_map hd hp hi hname
    obtain rfl := Option.some.inj (hp.symm.trans hi)
    exact ⟨l, hl, fused, source, hf⟩

/-- Which pairs are fused, and whether that ends well, can be told from the nodes as they are
before. -/
theorem fuse_exactly (hu : Unambiguous nodes) :
    (∀ u nodes', fuse rules nodes = .ok u nodes' →
      (∃ kept, kept.Sublist nodes ∧ (∀ a ∈ nodes, a ∈ kept ↔ ¬ FusesAway rules nodes a) ∧
        List.Forall₂ (Becomes rules nodes) kept nodes') ∧
      (∀ a, FusesAway rules nodes a → a.layer.activation? ≠ none ∧ ¬ Mentions nodes' a.name) ∧
      ∀ b ∈ nodes', b.layer.loss? ≠ some .cross) ∧
    ((∃ e left, fuse rules nodes = .error e left) ↔
      ∃ l ∈ nodes, ∃ b, Becomes rules nodes l b ∧ b.layer.loss? = some .cross) := by
  have hsettles : Settles rules nodes nodes (fuse rules nodes) := settles_fuse hu hd
  constructor
  · intro u nodes' h
    rcases hsettles with ⟨hr, hc, hfine⟩ | ⟨_, _, _, left, hr⟩
    · have hresult : nodes' = finished rules nodes nodes := by
        rw [hr] at h
        cases h
        simp [halfway, without]
      have hgone : ∀ a ∈ nodes, a ∈ without (absorbed rules nodes nodes) nodes ↔
          ¬ FusesAway rules nodes a := by
        intro a ha
        rw [fusesAway_iff hd ha, without, List.mem_filter, decide_eq_true_eq, and_iff_right ha]
      refine ⟨⟨without (absorbed rules nodes nodes) nodes, List.filter_sublist, hgone, ?_⟩, ?_, ?_⟩
      · rw [hresult, finished, List.forall₂_map_right_iff, List.forall₂_same]
        exact fun l _ => (becomes_iff hd).mpr rfl
      · rintro a ⟨l, hl, fused, source, hf⟩
        have hmem : a.name ∈ absorbed rules nodes nodes :=
          (fusesAway_iff hd hf.there).mp ⟨l, hl, fused, source, hf⟩
        have hcount := hc.gone a.name hmem
        rw [halfway, ← hresult, without, List.filter_nil, List.append_nil] at hcount
        exact ⟨hf.activation_ne_none, fun hmentions => mentions_iff_readCount.mp hmentions hcount⟩
      · intro b hb
        rw [hresult, finished] at hb
        obtain ⟨l, hl, rfl⟩ := List.mem_map.mp hb
        exact hfine l (List.mem_of_mem_filter hl)
    · rw [hr] at h
      cases h
  · constructor
    · rintro ⟨e, left, h⟩
      rcases hsettles with ⟨hr, -⟩ | ⟨l, hl, hcross, -⟩
      · rw [hr] at h
        cases h
      · exact ⟨l, hl, _, (becomes_iff hd).mpr rfl, hcross⟩
    · rintro ⟨l, hl, b, hb, hcross⟩
      rcases hsettles with ⟨-, -, hfine⟩ | ⟨k, -, -, left, hr⟩
      · rw [(becomes_iff hd).mp hb] at hcross
        exact absurd hcross (hfine l hl)
      · exact ⟨_, left, hr⟩

end Exactly

/-- A softmax in front of a cross entropy, which stands first. -/
def classifier : List (Node Float32) :=
  [.ofLayer (.loss .cross) "l" [⟨"a", 0⟩], .ofLayer (.input 2) "x" [],
    .ofLayer (.activation .softmax) "a" [⟨"x", 0⟩]]

theorem classifier_fuse_exactly : (classifier.map (·.name)).Nodup ∧ Unambiguous classifier ∧
    (∀ u nodes', fuse FusionRule.defaults classifier = .ok u nodes' →
      (∃ kept, kept.Sublist classifier ∧
        (∀ a ∈ classifier, a ∈ kept ↔ ¬ FusesAway FusionRule.defaults classifier a) ∧
        List.Forall₂ (Becomes FusionRule.defaults classifier) kept nodes') ∧
      (∀ a, FusesAway FusionRule.defaults classifier a → a.layer.activation? ≠ none ∧
        ¬ Mentions nodes' a.name) ∧
      ∀ b ∈ nodes', b.layer.loss? ≠ some .cross) ∧
    ((∃ e left, fuse FusionRule.defaults classifier = .error e left) ↔
      ∃ l ∈ classifier, ∃ b, Becomes FusionRule.defaults classifier l b ∧
        b.layer.loss? = some .cross) :=
  ⟨by decide, by decide, fuse_exactly (by decide) (by decide)⟩

/-- A layer of a caller's own that answers both for a sigmoid and for a cross entropy. -/
def doubleLayer : CustomLayer Float32 where
  typeName := "double"
  isTrained := false
  isSource := false
  reuse := .none
  needsOutput := false
  activation := some .sigmoid
  loss := some .cross
  declare site := .ok (.outputs site.inputShapes)
  forward _ := pure ()
  collectGradients := pure ()
  passBack := pure ()

/-- A loss behind a node of that layer, which itself stands behind a softmax. -/
def doubled : List (Node Float32) :=
  [.ofLayer (.input 2) "x" [], .ofLayer (.activation .softmax) "a" [⟨"x", 0⟩],
    .ofLayer (.custom doubleLayer) "b" [⟨"a", 0⟩], .ofLayer (.loss .cross) "l" [⟨"b", 0⟩]]

theorem fuse_doubled : fuse FusionRule.defaults doubled = .error (.misconfigured (.unfusedLoss "l"))
      [.ofLayer (.input 2) "x" [], .ofLayer (.loss .crossSoftmax) "b" [⟨"x", 0⟩],
      .ofLayer (.loss .cross) "l" [⟨"b", 0⟩]] := by
  with_unfolding_all rfl

/-- A node that is fused as a loss is no activation any more for the loss behind it. -/
theorem doubled_refused : ¬ ∀ (rules : List FusionRule) (nodes : List (Node Float32)),
    (nodes.map (·.name)).Nodup → (∃ e left, fuse rules nodes = .error e left) →
      ∃ l ∈ nodes, ∃ b, Becomes rules nodes l b ∧ b.layer.loss? = some .cross := by
  intro hall
  have hd : (doubled.map (·.name)).Nodup := by decide
  obtain ⟨l, hl, b, hb, hcross⟩ := hall FusionRule.defaults doubled hd ⟨_, _, fuse_doubled⟩
  have hfine : ∀ l ∈ doubled, (condense FusionRule.defaults doubled l).layer.loss? ≠
      some .cross := by decide
  rw [(becomes_iff hd).mp hb] at hcross
  exact hfine l hl hcross

end LayerGraph.Lowering
