import LayerGraph.Lowering.Outputs
import LayerGraph.Proofs.Action
import LayerGraph.Proofs.Lists

/-!
# Who reads a slot

The outputs of a node list, slot by slot, exactly those that read it, and the slots that are listed
are those that somebody reads.
-/

namespace LayerGraph.Lowering

variable {α : Type} {nodes nodes' : List (Node α)}

/-- Input `reader.index` of the node `reader.name` is connected to `source`. -/
def Reads (nodes : List (Node α)) (reader source : Connection) : Prop :=
  ∃ node ∈ nodes, node.name = reader.name ∧ node.inputs[reader.index]? = some source

instance (nodes : List (Node α)) (reader source : Connection) :
    Decidable (Reads nodes reader source) :=
  inferInstanceAs (Decidable (∃ node ∈ nodes, node.name = reader.name ∧
    node.inputs[reader.index]? = some source))

/-- What holds of every entry of the inputs holds of every connection. -/
theorem forall_reads_iff {P : String → Connection → Prop} :
    (∀ r c, Reads nodes r c → P r.name c) ↔ ∀ a ∈ nodes, ∀ c ∈ a.inputs, P a.name c := by
  constructor
  · intro h a ha c hc
    obtain ⟨i, hi⟩ := List.getElem?_of_mem hc
    exact h ⟨a.name, i⟩ c ⟨a, ha, rfl, hi⟩
  · rintro h r c ⟨a, ha, hname, hc⟩
    exact hname ▸ h a ha c (List.mem_of_getElem? hc)

theorem node_eq_of_name (hd : (nodes.map (·.name)).Nodup) {a b : Node α} (ha : a ∈ nodes)
    (hb : b ∈ nodes) (h : a.name = b.name) : a = b :=
  List.inj_on_of_nodup_map hd ha hb h

/-- An input has one source. -/
theorem Reads.unique (hd : (nodes.map (·.name)).Nodup) {r c c' : Connection}
    (h : Reads nodes r c) (h' : Reads nodes r c') : c = c' := by
  obtain ⟨a, ha, hname, hc⟩ := h
  obtain ⟨b, hb, hname', hc'⟩ := h'
  obtain rfl := node_eq_of_name hd ha hb (hname.trans hname'.symm)
  rw [hc] at hc'
  exact Option.some.inj hc'

theorem Reads.reader {r c : Connection} (h : Reads nodes r c) : r.name ∈ nodes.map (·.name) := by
  obtain ⟨a, ha, hname, -⟩ := h
  exact List.mem_map.mpr ⟨a, ha, hname⟩

theorem reads_append_iff {more : List (Node α)} {r c : Connection} :
    Reads (nodes ++ more) r c ↔ Reads nodes r c ∨ Reads more r c := by
  simp only [Reads, List.mem_append, or_and_right, exists_or]

theorem reads_singleton_iff {a : Node α} {r c : Connection} :
    Reads [a] r c ↔ a.name = r.name ∧ a.inputs[r.index]? = some c := by
  simp [Reads]

theorem reads_ofLayer_iff [Zero α] {layer : Layer α} {name : String} {s r c : Connection} :
    Reads [.ofLayer layer name [s]] r c ↔ r = ⟨name, 0⟩ ∧ c = s := by
  obtain ⟨rn, ri⟩ := r
  rw [reads_singleton_iff]
  simp only [Node.ofLayer, List.getElem?_singleton, Connection.mk.injEq]
  constructor
  · rintro ⟨rfl, h⟩
    split at h
    · next hi => exact ⟨⟨rfl, hi⟩, (Option.some.inj h).symm⟩
    · cases h
  · rintro ⟨⟨rfl, rfl⟩, rfl⟩
    simp

/-- An edit that keeps all names and treats all inputs alike. -/
theorem reads_map_iff {f : Node α → Node α} {g : Connection → Connection}
    (hn : ∀ a, (f a).name = a.name) (hi : ∀ a, (f a).inputs = a.inputs.map g) {r c : Connection} :
    Reads (nodes.map f) r c ↔ ∃ c₀, Reads nodes r c₀ ∧ g c₀ = c := by
  constructor
  · rintro ⟨a, ha, hname, hc⟩
    obtain ⟨b, hb, rfl⟩ := List.mem_map.mp ha
    rw [hi, List.getElem?_map] at hc
    obtain ⟨c₀, hc₀, rfl⟩ := Option.map_eq_some_iff.mp hc
    exact ⟨c₀, ⟨b, hb, hn b ▸ hname, hc₀⟩, rfl⟩
  · rintro ⟨c₀, ⟨b, hb, hname, hc₀⟩, rfl⟩
    exact ⟨f b, List.mem_map_of_mem hb, (hn b).trans hname, by simp [hi, hc₀]⟩

theorem leastUnreadFrom_spec (slots : List Nat) (k : Nat) :
    k ≤ leastUnreadFrom slots k ∧ leastUnreadFrom slots k ∉ slots ∧
      ∀ j, k ≤ j → j < leastUnreadFrom slots k → j ∈ slots := by
  fun_induction leastUnreadFrom slots k with
  | case1 slots k hk ih =>
    obtain ⟨hle, hnot, hall⟩ := ih
    refine ⟨by omega, fun hm => hnot ((List.mem_erase_of_ne (by omega)).mpr hm), fun j hj hlt => ?_⟩
    by_cases hjk : j = k
    · exact hjk ▸ hk
    · exact List.mem_of_mem_erase (hall j (by omega) hlt)
  | case2 slots k hk => exact ⟨Nat.le_refl _, hk, fun j hj hlt => by omega⟩

section Resolve

variable (hd : (nodes.map (·.name)).Nodup)
include hd

theorem resolve?_eq_some_iff {name : String} {id : Nat} :
    resolve? nodes name = some id ↔ ∃ node, nodes[id]? = some node ∧ node.name = name := by
  unfold resolve?
  constructor
  · intro h
    obtain ⟨p, hp, rfl⟩ := Option.map_eq_some_iff.mp h
    have hmem : p ∈ nodes.zipIdx := by simpa using List.mem_of_find?_eq_some hp
    exact ⟨p.1, List.mem_zipIdx_iff_getElem?.mp hmem, by simpa using List.find?_some hp⟩
  · rintro ⟨node, hnode, rfl⟩
    have hmem : (node, id) ∈ nodes.zipIdx.reverse := by
      simpa using List.mem_zipIdx_iff_getElem?.mpr hnode
    cases h : nodes.zipIdx.reverse.find? (fun p => p.1.name == node.name) with
    | none =>
      have := List.find?_eq_none.mp h _ hmem
      simp at this
    | some p =>
      have hp : nodes[p.2]? = some p.1 :=
        List.mem_zipIdx_iff_getElem?.mp (by simpa using List.mem_of_find?_eq_some h)
      have hname : p.1.name = node.name := by simpa using List.find?_some h
      simp [getElem?_inj_of_nodup_map hd hp hnode hname]

theorem mem_allReads {reads : List SlotRead} (h : allReads nodes = .ok reads) {p s : Nat}
    {r : Connection} : (⟨p, s, r⟩ : SlotRead) ∈ reads ↔
      ∃ producer, nodes[p]? = some producer ∧ Reads nodes r ⟨producer.name, s⟩ := by
  obtain ⟨table, htable, hr⟩ := except_bind_eq_ok_iff.mp h
  cases hr
  have hrow : ∀ (node : Node α) (row : List SlotRead), readsOf nodes node = .ok row →
      ((⟨p, s, r⟩ : SlotRead) ∈ row ↔ r.name = node.name ∧
        ∃ conn, node.inputs[r.index]? = some conn ∧
        resolve? nodes conn.name = some p ∧ conn.index = s) := by
    intro node row hrow
    constructor
    · intro hmem
      obtain ⟨⟨conn, position⟩, hx, hf⟩ := except_mapM_mem_result hrow hmem
      dsimp only at hf
      split at hf
      · next producer hres =>
        cases hf
        exact ⟨rfl, conn, List.mem_zipIdx_iff_getElem?.mp hx, hres, rfl⟩
      · cases hf
    · rintro ⟨hname, conn, hconn, hres, hs⟩
      have hmem : (conn, r.index) ∈ node.inputs.zipIdx := List.mem_zipIdx_iff_getElem?.mpr hconn
      obtain ⟨y, hy, hf⟩ := except_mapM_mem hrow hmem
      dsimp only at hf
      rw [hres] at hf
      cases hf
      rw [← hname, hs] at hy
      exact hy
  simp only [List.mem_flatten]
  constructor
  · rintro ⟨row, hmem, hr⟩
    obtain ⟨node, hnode, hf⟩ := except_mapM_mem_result htable hmem
    obtain ⟨hname, conn, hconn, hres, hs⟩ := (hrow node row hf).mp hr
    obtain ⟨producer, hp, hpn⟩ := (resolve?_eq_some_iff hd).mp hres
    exact ⟨producer, hp, node, hnode, hname.symm, by rw [hconn, hpn, ← hs]⟩
  · rintro ⟨producer, hp, node, hnode, hname, hconn⟩
    obtain ⟨row, hmem, hf⟩ := except_mapM_mem htable hnode
    exact ⟨row, hmem, (hrow node row hf).mpr ⟨hname.symm, _, hconn,
      (resolve?_eq_some_iff hd).mpr ⟨producer, hp, rfl⟩, rfl⟩⟩

theorem mem_slotsRead {reads : List SlotRead} (h : allReads nodes = .ok reads) {i s : Nat}
    {node : Node α} (hi : nodes[i]? = some node) :
    s ∈ slotsRead reads i ↔ ∃ r, Reads nodes r ⟨node.name, s⟩ := by
  have hmem : ∀ r, (⟨i, s, r⟩ : SlotRead) ∈ reads ↔ Reads nodes r ⟨node.name, s⟩ := by
    intro r
    rw [mem_allReads hd h]
    exact ⟨fun ⟨p, hp, hr⟩ => by rw [hi] at hp; cases hp; exact hr, fun hr => ⟨node, hi, hr⟩⟩
  simp only [← hmem, slotsRead, List.mem_map, List.mem_filter, decide_eq_true_eq]
  constructor
  · rintro ⟨⟨p, s', r⟩, ⟨hr, rfl⟩, rfl⟩
    exact ⟨r, hr⟩
  · rintro ⟨r, hr⟩
    exact ⟨⟨i, s, r⟩, ⟨hr, rfl⟩, rfl⟩

/-- No input is listed twice. -/
theorem nodup_allReads {reads : List SlotRead} (h : allReads nodes = .ok reads) : reads.Nodup := by
  obtain ⟨table, htable, hr⟩ := except_bind_eq_ok_iff.mp h
  cases hr
  have hentry : ∀ (node : Node α) (row : List SlotRead), readsOf nodes node = .ok row →
      ∀ (i : Nat) (r : SlotRead), row[i]? = some r → r.reader = ⟨node.name, i⟩ := by
    intro node row hrow i r hi
    obtain ⟨⟨conn, position⟩, hx, hf⟩ := except_mapM_getElem?_result hrow hi
    obtain ⟨-, rfl⟩ : node.inputs[i]? = some conn ∧ i = position := by simpa using hx
    dsimp only at hf
    split at hf
    · cases hf
      rfl
    · cases hf
  refine List.nodup_flatten.mpr ⟨fun row hrow => ?_, ?_⟩
  · obtain ⟨node, -, hf⟩ := except_mapM_mem_result htable hrow
    refine List.nodup_iff_getElem?_ne_getElem?.mpr fun i j hij hj heq => ?_
    obtain ⟨r, hr⟩ : ∃ r, row[j]? = some r := ⟨row[j], by simp [hj]⟩
    have hi := hentry node row hf i r (heq.trans hr)
    rw [hentry node row hf j r hr] at hi
    cases hi
    exact Nat.lt_irrefl _ hij
  · refine List.pairwise_iff_getElem.mpr fun i j hi hj hij r hri hrj => ?_
    obtain ⟨a, ha, hfa⟩ := except_mapM_getElem?_result htable (List.getElem?_eq_getElem hi)
    obtain ⟨b, hb, hfb⟩ := except_mapM_getElem?_result htable (List.getElem?_eq_getElem hj)
    obtain ⟨k, hk⟩ := List.getElem?_of_mem hri
    obtain ⟨l, hl⟩ := List.getElem?_of_mem hrj
    have hname : a.name = b.name := by
      have hka := hentry a _ hfa k r hk
      rw [hentry b _ hfb l r hl] at hka
      exact (Connection.mk.inj hka).1.symm
    have := getElem?_inj_of_nodup_map hd ha hb hname
    omega

end Resolve

/-- The outputs of a node list exactly those that read it. -/
structure Listed (nodes : List (Node α)) (node : Node α) : Prop where
  mem_iff : ∀ k readers, node.outputs[k]? = some readers →
    ∀ r, r ∈ readers ↔ Reads nodes r ⟨node.name, k⟩
  nodup : ∀ (k : Nat) (readers : List Connection), node.outputs[k]? = some readers → readers.Nodup
  lt_iff : ∀ k, k < node.outputs.length ↔ ∃ r, Reads nodes r ⟨node.name, k⟩

/-- Every input names a node. -/
def Resolved (nodes : List (Node α)) : Prop :=
  ∀ r c, Reads nodes r c → c.name ∈ nodes.map (·.name)

instance (nodes : List (Node α)) : Decidable (Resolved nodes) :=
  decidable_of_iff _ (forall_reads_iff (P := fun _ c => c.name ∈ nodes.map (·.name))).symm

/-- The slots of a node that are read are the first ones. -/
def Dense (nodes : List (Node α)) (name : String) : Prop :=
  ∀ k, (∃ r, Reads nodes r ⟨name, k⟩) → ∀ j < k, ∃ r, Reads nodes r ⟨name, j⟩

section SetOutputs

variable (h : setOutputs nodes = .ok nodes')
include h

theorem setOutputs_getElem? {i : Nat} {node : Node α} (hi : nodes[i]? = some node) :
    ∃ outputs, nodes'[i]? = some { node with outputs := outputs } := by
  obtain ⟨reads, -, h⟩ := except_bind_eq_ok_iff.mp h
  have hmem : nodes.zipIdx[i]? = some (node, i) := by simp [hi]
  obtain ⟨node', hi', hf⟩ := except_mapM_getElem? h hmem
  obtain ⟨outputs, -, hf⟩ := except_bind_eq_ok_iff.mp hf
  cases hf
  exact ⟨outputs, hi'⟩

theorem setOutputs_mem {node' : Node α} (hm : node' ∈ nodes') :
    ∃ node ∈ nodes, node' = { node with outputs := node'.outputs } := by
  obtain ⟨reads, -, h⟩ := except_bind_eq_ok_iff.mp h
  obtain ⟨⟨node, i⟩, hx, hf⟩ := except_mapM_mem_result h hm
  obtain ⟨outputs, -, hf⟩ := except_bind_eq_ok_iff.mp hf
  cases hf
  exact ⟨node, List.mem_of_getElem? (List.mem_zipIdx_iff_getElem?.mp hx), rfl⟩

theorem setOutputs_map {β : Type} {f : Node α → β}
    (hf : ∀ node outputs, f { node with outputs := outputs } = f node) :
    nodes'.map f = nodes.map f := by
  obtain ⟨reads, -, h'⟩ := except_bind_eq_ok_iff.mp h
  have hlen : nodes'.length = nodes.length := by simpa using except_mapM_length h'
  refine List.ext_getElem? fun i => ?_
  rw [List.getElem?_map, List.getElem?_map]
  cases hi : nodes[i]? with
  | some node =>
    obtain ⟨outputs, hi'⟩ := setOutputs_getElem? h hi
    simp [hi', hf]
  | none =>
    have : nodes'[i]? = none := by
      rw [List.getElem?_eq_none_iff] at hi ⊢
      omega
    simp [this]

theorem setOutputs_names : nodes'.map (·.name) = nodes.map (·.name) :=
  setOutputs_map h fun _ _ => rfl

theorem reads_setOutputs_iff {r c : Connection} : Reads nodes' r c ↔ Reads nodes r c := by
  constructor
  · rintro ⟨node', hm, hname, hc⟩
    obtain ⟨node, hnode, heq⟩ := setOutputs_mem h hm
    rw [heq] at hname hc
    exact ⟨node, hnode, hname, hc⟩
  · rintro ⟨node, hm, hname, hc⟩
    obtain ⟨i, hi⟩ := List.getElem?_of_mem hm
    obtain ⟨outputs, hi'⟩ := setOutputs_getElem? h hi
    exact ⟨_, List.mem_of_getElem? hi', hname, hc⟩

theorem resolved_setOutputs (hd : (nodes.map (·.name)).Nodup) : Resolved nodes' := by
  intro r c hr
  obtain ⟨node, hm, hname, hc⟩ := (reads_setOutputs_iff h).mp hr
  obtain ⟨reads, hreads, -⟩ := except_bind_eq_ok_iff.mp h
  obtain ⟨table, htable, -⟩ := except_bind_eq_ok_iff.mp hreads
  obtain ⟨row, -, hrow⟩ := except_mapM_mem htable hm
  have hmem : (c, r.index) ∈ node.inputs.zipIdx := List.mem_zipIdx_iff_getElem?.mpr hc
  obtain ⟨y, -, hf⟩ := except_mapM_mem hrow hmem
  dsimp only at hf
  split at hf
  · next p hp =>
    obtain ⟨producer, hp, hpn⟩ := (resolve?_eq_some_iff hd).mp hp
    rw [setOutputs_names h, ← hpn]
    exact List.mem_map.mpr ⟨producer, List.mem_of_getElem? hp, rfl⟩
  · cases hf

theorem listed_setOutputs (hd : (nodes.map (·.name)).Nodup) {node' : Node α} (hm : node' ∈ nodes') :
    Listed nodes' node' := by
  have hreadsOf := fun {r c} => reads_setOutputs_iff h (r := r) (c := c)
  obtain ⟨reads, hreads, h⟩ := except_bind_eq_ok_iff.mp h
  obtain ⟨⟨node, i⟩, hx, hf⟩ := except_mapM_mem_result h hm
  have hi : nodes[i]? = some node := List.mem_zipIdx_iff_getElem?.mp hx
  obtain ⟨outputs, ho, hf⟩ := except_bind_eq_ok_iff.mp hf
  cases hf
  have hmem : ∀ s r, (⟨i, s, r⟩ : SlotRead) ∈ reads ↔ Reads nodes r ⟨node.name, s⟩ := by
    intro s r
    rw [mem_allReads hd hreads]
    exact ⟨fun ⟨p, hp, hr⟩ => by rw [hi] at hp; cases hp; exact hr, fun hr => ⟨node, hi, hr⟩⟩
  unfold outputsOf at ho
  dsimp only at ho
  split at ho
  · cases ho
  next hbound =>
  cases ho
  obtain ⟨-, hnot, hall⟩ := leastUnreadFrom_spec (slotsRead reads i) 0
  have hslot := fun s => mem_slotsRead hd hreads hi (s := s)
  have hrow : ∀ (k : Nat) (readers : List Connection),
      ((List.range (leastUnreadFrom (slotsRead reads i) 0)).map (slotReaders reads i))[k]? =
        some readers → slotReaders reads i k = readers := by
    intro k readers hk
    obtain ⟨_, rfl⟩ := List.getElem?_eq_some_iff.mp hk
    simp
  constructor
  · intro k readers hk r
    obtain rfl := hrow k readers hk
    rw [hreadsOf, ← hmem]
    simp only [slotReaders, List.mem_map, List.mem_filter, decide_eq_true_eq]
    constructor
    · rintro ⟨⟨p, s, r⟩, ⟨hr, rfl, rfl⟩, rfl⟩
      exact hr
    · intro hr
      exact ⟨⟨i, k, r⟩, ⟨hr, rfl, rfl⟩, rfl⟩
  · intro k readers hk
    obtain rfl := hrow k readers hk
    refine List.Nodup.map_on ?_ ((nodup_allReads hd hreads).filter _)
    rintro ⟨p, s, r⟩ hr ⟨p', s', r'⟩ hr' heq
    obtain ⟨-, rfl, rfl⟩ := by simpa using hr
    obtain ⟨-, rfl, rfl⟩ := by simpa using hr'
    exact congrArg _ heq
  · intro k
    simp only [hreadsOf, List.length_map, List.length_range, ← hslot]
    constructor
    · exact fun hk => hall k (Nat.zero_le _) hk
    · intro hk
      simp only [List.any_eq_true, decide_eq_true_eq, not_exists, not_and, Nat.not_lt] at hbound
      rcases Nat.lt_or_eq_of_le (hbound k hk) with hlt | heq
      · exact hlt
      · exact absurd (heq ▸ hk) hnot

end SetOutputs

theorem Listed.dense {a : Node α} (h : Listed nodes a) : Dense nodes a.name := fun k hk j hj =>
  (h.lt_iff j).mp (Nat.lt_trans hj ((h.lt_iff k).mpr hk))

/-- The outputs can be listed exactly if all inputs name nodes and no slot is left out. -/
theorem exists_setOutputs_iff (hd : (nodes.map (·.name)).Nodup) :
    (∃ nodes', setOutputs nodes = .ok nodes') ↔ Resolved nodes ∧ ∀ a ∈ nodes,
      Dense nodes a.name := by
  constructor
  · rintro ⟨nodes', h⟩
    have hreads := fun {r c} => reads_setOutputs_iff h (r := r) (c := c)
    refine ⟨fun r c hr => ?_, fun a ha => ?_⟩
    · rw [← setOutputs_names h]
      exact resolved_setOutputs h hd r c (hreads.mpr hr)
    · obtain ⟨i, hi⟩ := List.getElem?_of_mem ha
      obtain ⟨outputs, hi'⟩ := setOutputs_getElem? h hi
      have hdense := (listed_setOutputs h hd (List.mem_of_getElem? hi')).dense
      simp only [Dense, hreads] at hdense
      exact hdense
  · rintro ⟨hr, hdense⟩
    obtain ⟨table, htable⟩ : ∃ table, nodes.mapM (readsOf nodes) = .ok table := by
      refine except_mapM_exists fun a ha => except_mapM_exists fun slot hslot => ?_
      obtain ⟨b, hb, hname⟩ := List.mem_map.mp
        (hr ⟨a.name, slot.2⟩ slot.1 ⟨a, ha, rfl, List.mem_zipIdx_iff_getElem?.mp hslot⟩)
      obtain ⟨p, hp⟩ := List.getElem?_of_mem hb
      dsimp only
      rw [(resolve?_eq_some_iff hd).mpr ⟨b, hp, hname⟩]
      exact ⟨_, rfl⟩
    have hreads : allReads nodes = .ok table.flatten := by
      rw [allReads, htable, except_ok_bind, except_pure]
    rw [setOutputs, hreads, except_ok_bind]
    refine except_mapM_exists fun x hx => ?_
    have hi : nodes[x.2]? = some x.1 := List.mem_zipIdx_iff_getElem?.mp hx
    obtain ⟨-, hnot, -⟩ := leastUnreadFrom_spec (slotsRead table.flatten x.2) 0
    have hfew : (slotsRead table.flatten x.2).any
        (leastUnreadFrom (slotsRead table.flatten x.2) 0 < ·) = false := by
      rw [List.any_eq_false]
      intro s hs hlt
      refine hnot ((mem_slotsRead hd hreads hi).mpr ?_)
      exact hdense _ (List.mem_of_getElem? hi) s ((mem_slotsRead hd hreads hi).mp hs) _
        (by simpa using hlt)
    simp only [outputsOf, hfew, Bool.false_eq_true, if_false, except_ok_bind, except_pure]
    exact ⟨_, rfl⟩

end LayerGraph.Lowering
