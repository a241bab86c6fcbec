import LayerGraph.Proofs.Lowering.Accepted
import Mathlib.Logic.Relation

/-!
# Paths through what is added

What lowering adds stands on edges of the graph: behind one node, and in front of some of those that
have read from it. Such nodes make paths longer and no more, so they close no cycle and cut nothing
off.
-/

namespace LayerGraph

open Relation

section Subdivides

variable {β γ : Type} {R : β → β → Prop} {R' : γ → γ → Prop} {f : β → γ} {old : β → Prop}
  {behind : γ → β → Prop}

/-- `R'` is `R` with nodes put on some of the edges that leave a node. -/
structure Subdivides (R : β → β → Prop) (R' : γ → γ → Prop) (f : β → γ) (old : β → Prop)
    (behind : γ → β → Prop) : Prop where
  ends : ∀ p q, R p q → old p ∧ old q
  inj : ∀ p q, old p → old q → f p = f q → p = q
  new : ∀ y p, behind y p → old p ∧ ∀ q, old q → f q ≠ y
  unique : ∀ y p q, behind y p → behind y q → p = q
  step : ∀ x y, R' x y → (∃ p q, x = f p ∧ y = f q ∧ R p q) ∨ (∃ p, x = f p ∧ behind y p) ∨
    ∃ p q, behind x p ∧ y = f q ∧ R p q
  edge : ∀ p q, R p q → R' (f p) (f q) ∨ ∃ y, behind y p ∧ R' y (f q)
  enter : ∀ y p, behind y p → R' (f p) y

/-- A node is an old one or stands behind it. -/
def Stems (f : β → γ) (old : β → Prop) (behind : γ → β → Prop) (y : γ) (p : β) : Prop :=
  (old p ∧ y = f p) ∨ behind y p

namespace Subdivides

variable (h : Subdivides R R' f old behind)
include h

theorem stems_unique {y : γ} {p q : β} (hp : Stems f old behind y p) (hq : Stems f old behind y q) :
    p = q := by
  rcases hp with ⟨hp, rfl⟩ | hp
  · rcases hq with ⟨hq, heq⟩ | hq
    · exact h.inj p q hp hq heq
    · exact absurd rfl ((h.new _ q hq).2 p hp)
  · rcases hq with ⟨hq, rfl⟩ | hq
    · exact absurd rfl ((h.new _ p hp).2 q hq)
    · exact h.unique y p q hp hq

/-- A step is a step between old nodes, or goes from an old node to one behind it. -/
theorem stems_step {x y : γ} (hxy : R' x y) {p : β} (hp : Stems f old behind x p) :
    ∃ q, Stems f old behind y q ∧ (R p q ∨ (q = p ∧ x = f p ∧ behind y p)) := by
  rcases h.step x y hxy with ⟨p', q, rfl, rfl, hR⟩ | ⟨p', rfl, hy⟩ | ⟨p', q, hx, rfl, hR⟩
  · obtain rfl := h.stems_unique hp (.inl ⟨(h.ends _ _ hR).1, rfl⟩)
    exact ⟨q, .inl ⟨(h.ends _ _ hR).2, rfl⟩, .inl hR⟩
  · obtain rfl := h.stems_unique hp (.inl ⟨(h.new _ _ hy).1, rfl⟩)
    exact ⟨p, .inr hy, .inr ⟨rfl, rfl, hy⟩⟩
  · obtain rfl := h.stems_unique hp (.inr hx)
    exact ⟨q, .inl ⟨(h.ends _ _ hR).2, rfl⟩, .inl hR⟩

theorem stems_source {x y : γ} (hxy : R' x y) : ∃ p, Stems f old behind x p := by
  rcases h.step x y hxy with ⟨p, q, rfl, -, hR⟩ | ⟨p, rfl, hy⟩ | ⟨p, q, hx, -, -⟩
  · exact ⟨p, .inl ⟨(h.ends _ _ hR).1, rfl⟩⟩
  · exact ⟨p, .inl ⟨(h.new _ _ hy).1, rfl⟩⟩
  · exact ⟨p, .inr hx⟩

theorem path {p q : β} (hpq : R p q) : TransGen R' (f p) (f q) := by
  rcases h.edge p q hpq with hR | ⟨y, hy, hR⟩
  · exact .single hR
  · exact .tail (.single (h.enter y p hy)) hR

theorem stems_path {x y : γ} (hxy : TransGen R' x y) {p : β} (hp : Stems f old behind x p) :
    ∃ q, Stems f old behind y q ∧ (TransGen R p q ∨ (q = p ∧ x = f p ∧ behind y p)) := by
  induction hxy with
  | single hstep =>
    obtain ⟨q, hq, hR | hnew⟩ := h.stems_step hstep hp
    · exact ⟨q, hq, .inl (.single hR)⟩
    · exact ⟨q, hq, .inr hnew⟩
  | tail _ hstep ih =>
    obtain ⟨q, hq, hpq⟩ := ih
    obtain ⟨q', hq', hR | ⟨rfl, hb, hnew⟩⟩ := h.stems_step hstep hq
    · rcases hpq with hpq | ⟨rfl, -, -⟩
      · exact ⟨q', hq', .inl (hpq.tail hR)⟩
      · exact ⟨q', hq', .inl (.single hR)⟩
    · rcases hpq with hpq | ⟨rfl, -, hnew'⟩
      · exact ⟨q', hq', .inl hpq⟩
      · -- Nothing stands behind a node that is not old.
        exact absurd hb.symm ((h.new _ _ hnew').2 q' (h.new _ _ hnew).1)

theorem acyclic_iff : (∀ x, ¬ TransGen R' x x) ↔ ∀ p, ¬ TransGen R p p := by
  constructor
  · exact fun hno p hp => hno (f p) (TransGen.lift' f (fun _ _ => h.path) _ _ hp)
  · intro hno x hx
    obtain ⟨y, hxy, -⟩ := TransGen.head'_iff.mp hx
    obtain ⟨p, hp⟩ := h.stems_source hxy
    obtain ⟨q, hq, hpq⟩ := h.stems_path hx hp
    obtain rfl := h.stems_unique hp hq
    rcases hpq with hpq | ⟨-, hxp, hnew⟩
    · exact hno p hpq
    · exact (h.new x p hnew).2 p (h.new x p hnew).1 hxp.symm

theorem reaches_iff {s p : β} {y : γ} (hs : old s) (hp : Stems f old behind y p) :
    ReflTransGen R' (f s) y ↔ ReflTransGen R s p := by
  constructor
  · intro hsy
    rcases reflTransGen_iff_eq_or_transGen.mp hsy with rfl | hsy
    · rw [h.stems_unique hp (.inl ⟨hs, rfl⟩)]
    · obtain ⟨q, hq, hsq⟩ := h.stems_path hsy (.inl ⟨hs, rfl⟩)
      obtain rfl := h.stems_unique hp hq
      rcases hsq with hsq | ⟨rfl, -, -⟩
      · exact hsq.to_reflTransGen
      · exact .refl
  · intro hsp
    have hold : ReflTransGen R' (f s) (f p) :=
      ReflTransGen.lift' f (fun _ _ hR => (h.path hR).to_reflTransGen) _ _ hsp
    rcases hp with ⟨-, rfl⟩ | hp
    · exact hold
    · exact hold.tail (h.enter y p hp)

/-- All nodes are reached if the old ones are. -/
theorem all_reached_iff (inputs : β → Prop) {inputs' nodes' : γ → Prop}
    (hnodes : ∀ y, nodes' y ↔ ∃ p, Stems f old behind y p)
    (hinputs : ∀ y, inputs' y ↔ ∃ s, inputs s ∧ f s = y) (hold : ∀ s, inputs s → old s) :
    (∀ y, nodes' y → ∃ s, inputs' s ∧ ReflTransGen R' s y) ↔
      ∀ p, old p → ∃ s, inputs s ∧ ReflTransGen R s p := by
  constructor
  · intro hall p hp
    have hstems : Stems f old behind (f p) p := .inl ⟨hp, rfl⟩
    obtain ⟨x, hx, hpath⟩ := hall (f p) ((hnodes _).mpr ⟨p, hstems⟩)
    obtain ⟨s, hs, rfl⟩ := (hinputs x).mp hx
    exact ⟨s, hs, (h.reaches_iff (hold s hs) hstems).mp hpath⟩
  · intro hall y hy
    obtain ⟨p, hp⟩ := (hnodes y).mp hy
    have hop : old p := hp.elim (·.1) fun hnew => (h.new y p hnew).1
    obtain ⟨s, hs, hpath⟩ := hall p hop
    exact ⟨f s, (hinputs _).mpr ⟨s, hs, rfl⟩, (h.reaches_iff (hold s hs) hp).mpr hpath⟩

/-- If what stands behind a node that is read is itself read, then there is an unread node exactly
if there is an old one. -/
theorem exists_unread_iff {nodes' : γ → Prop} (hnodes : ∀ y, nodes' y ↔ ∃ p, Stems f old behind y p)
    (hread : ∀ y p q, behind y p → R p q → ∃ z, R' y z) :
    (∃ y, nodes' y ∧ ∀ z, ¬ R' y z) ↔ ∃ p, old p ∧ ∀ q, ¬ R p q := by
  constructor
  · rintro ⟨y, hy, hunread⟩
    obtain ⟨p, ⟨hp, rfl⟩ | hnew⟩ := (hnodes y).mp hy
    · refine ⟨p, hp, fun q hpq => ?_⟩
      obtain ⟨z, hz, -⟩ := TransGen.head'_iff.mp (h.path hpq)
      exact hunread z hz
    · refine ⟨p, (h.new y p hnew).1, fun q hpq => ?_⟩
      obtain ⟨z, hz⟩ := hread y p q hnew hpq
      exact hunread z hz
  · rintro ⟨p, hp, hunread⟩
    by_cases hnew : ∃ y, behind y p
    · obtain ⟨y, hy⟩ := hnew
      refine ⟨y, (hnodes y).mpr ⟨p, .inr hy⟩, fun z hz => ?_⟩
      obtain ⟨q, -, hpq | ⟨-, heq, -⟩⟩ := h.stems_step hz (.inr hy)
      · exact hunread q hpq
      · exact (h.new y p hy).2 p hp heq.symm
    · refine ⟨f p, (hnodes _).mpr ⟨p, .inl ⟨hp, rfl⟩⟩, fun z hz => ?_⟩
      obtain ⟨q, -, hpq | ⟨-, -, hy⟩⟩ := h.stems_step hz (.inl ⟨hp, rfl⟩)
      · exact hunread q hpq
      · exact hnew ⟨z, hy⟩

end Subdivides

end Subdivides

namespace Lowering

variable {α : Type} {nodes nodes' : List (Node α)}

/-- The node `q` has an input from the node `p`. -/
def Feeds (nodes : List (Node α)) (p q : String) : Prop := ∃ i k, Reads nodes ⟨q, i⟩ ⟨p, k⟩

theorem feeds_of_reads {r c : Connection} (h : Reads nodes r c) : Feeds nodes c.name r.name :=
  ⟨r.index, c.index, h⟩

/-- A node of this name is a graph input. -/
def IsInput (nodes : List (Node α)) (name : String) : Prop :=
  ∃ a ∈ nodes, a.isSource = true ∧ a.name = name

def Acyclic (nodes : List (Node α)) : Prop := ∀ name, ¬ TransGen (Feeds nodes) name name

/-- Where every node ranks above what it reads, there is no cycle. -/
theorem acyclic_of_rank (rank : String → Nat)
    (h : ∀ a ∈ nodes, ∀ c ∈ a.inputs, rank c.name < rank a.name) : Acyclic nodes := by
  have hedge : ∀ p q, Feeds nodes p q → rank p < rank q := fun p q ⟨i, k, hread⟩ =>
    forall_reads_iff (P := fun reader c => rank c.name < rank reader).mpr h _ _ hread
  have hpath : ∀ p q, TransGen (Feeds nodes) p q → rank p < rank q := by
    intro p q hpq
    induction hpq with
    | single h => exact hedge _ _ h
    | tail _ h ih => exact Nat.lt_trans ih (hedge _ _ h)
  exact fun name hcycle => Nat.lt_irrefl _ (hpath _ _ hcycle)

/-- Every node is reached from a graph input. -/
def Reachable (nodes : List (Node α)) : Prop :=
  ∀ name ∈ nodes.map (·.name), ∃ s, IsInput nodes s ∧ ReflTransGen (Feeds nodes) s name

instance (nodes : List (Node α)) (name : String) : Decidable (IsInput nodes name) :=
  inferInstanceAs (Decidable (∃ a ∈ nodes, a.isSource = true ∧ a.name = name))

theorem IsInput.mem {name : String} (h : IsInput nodes name) : name ∈ nodes.map (·.name) := by
  obtain ⟨a, ha, -, rfl⟩ := h
  exact List.mem_map_of_mem ha

theorem isInput_iff_ident {name : String} : IsInput nodes name ↔
    ∃ i ∈ nodes.map ident, i.2.1.isSource = true ∧ i.1 = name := by
  constructor
  · rintro ⟨a, ha, hs, hname⟩
    exact ⟨ident a, List.mem_map_of_mem ha, hs, hname⟩
  · rintro ⟨i, hi, hs, hname⟩
    obtain ⟨a, ha, rfl⟩ := List.mem_map.mp hi
    exact ⟨a, ha, hs, hname⟩

theorem isInput_wireDefaults_iff {name : String} :
    IsInput (wireDefaults nodes) name ↔ IsInput nodes name := by
  rw [isInput_iff_ident, isInput_iff_ident, wireDefaults_map fun _ _ => rfl]

variable [Zero α]

/-- No activation is a graph input. -/
theorem isInput_expand_iff {y : String} :
    IsInput (expand nodes) y ↔ ∃ s, IsInput nodes s ∧ newName nodes s = y := by
  rw [isInput_iff_ident]
  simp only [(perm_ident_expand nodes).mem_iff, List.mem_append]
  constructor
  · rintro ⟨i, hi | hi, hs, hname⟩
    · obtain ⟨a, ha, rfl⟩ := List.mem_map.mp hi
      exact ⟨a.name, ⟨a, ha, hs, rfl⟩, hname⟩
    · obtain ⟨a, ha, rfl⟩ := List.mem_map.mp hi
      cases hs
  · rintro ⟨_, ⟨a, ha, hs, rfl⟩, hname⟩
    exact ⟨_, .inl (List.mem_map.mpr ⟨a, ha, rfl⟩), hs, hname⟩

theorem Separated.perm_ident (h : Separated nodes nodes') : (nodes'.map ident).Perm
      (nodes.map ident ++ (fanned (slotTable nodes)).map (ident ∘ fanOutNode)) := by
  have hp := h.perm.map ident
  simp only [List.map_append, List.map_map] at hp
  exact hp

/-- No fan-out node is a graph input. -/
theorem Separated.isInput_iff (h : Separated nodes nodes') {y : String} :
    IsInput nodes' y ↔ IsInput nodes y := by
  rw [isInput_iff_ident, isInput_iff_ident]
  simp only [h.perm_ident.mem_iff, List.mem_append, or_and_right, exists_or]
  refine or_iff_left ?_
  rintro ⟨i, hi, hs, -⟩
  obtain ⟨s, -, rfl⟩ := List.mem_map.mp hi
  cases hs

/-- An activation stands behind the node whose property it was. -/
theorem subdivides_expand (hr : Resolved nodes) (hd : ((expand nodes).map (·.name)).Nodup) :
    Subdivides (Feeds (wireDefaults nodes)) (Feeds (expand nodes)) (newName nodes)
      (· ∈ nodes.map (·.name)) fun y p => p ∈ splitting nodes ∧ y = activationName
      (newName nodes p) := by
  have hdisj := (List.nodup_append.mp ((names_expand nodes).nodup_iff.mp hd)).2.2
  have hold : ∀ {r c}, Reads (wireDefaults nodes) r c →
      c.name ∈ nodes.map (·.name) ∧ r.name ∈ nodes.map (·.name) := fun hread =>
    wireDefaults_names nodes ▸ ⟨resolved_wireDefaults hr _ _ hread, hread.reader⟩
  refine ⟨fun p q ⟨i, k, hread⟩ => hold hread, fun p q hp hq => newName_injOn hp hq,
    fun y p ⟨hp, hy⟩ => ⟨splitting_subset hp, fun q hq heq => ?_⟩,
    fun y p q ⟨hp, hy⟩ ⟨hq, hy'⟩ => ?_, fun x y ⟨i, k, hread⟩ => ?_, fun p q ⟨i, k, hread⟩ => ?_,
    fun y p ⟨hp, hy⟩ => ?_⟩
  · exact hdisj _ (List.mem_map_of_mem hq) _ (List.mem_map.mpr ⟨p, hp, rfl⟩) (heq.trans hy)
  · exact newName_injOn (splitting_subset hp) (splitting_subset hq)
      (activationName_injective (hy.symm.trans hy'))
  · rcases (reads_expand_iff hr hd).mp hread with ⟨r, c, hrc, heq, htarget⟩ | ⟨p, hp, heq, hx⟩
    · have hy := (Connection.mk.inj heq).1.symm
      unfold target at htarget
      split at htarget
      · next hs =>
        exact .inr (.inr ⟨c.name, r.name, ⟨hs.2, (Connection.mk.inj htarget).1.symm⟩,
            hy, feeds_of_reads hrc⟩)
      · exact .inl ⟨c.name, r.name, (Connection.mk.inj htarget).1.symm, hy, feeds_of_reads hrc⟩
    · exact .inr (.inl ⟨p, (Connection.mk.inj hx).1, hp, (Connection.mk.inj heq).1⟩)
  · have hnew := (reads_expand_iff hr hd).mpr (.inl ⟨_, _, hread, rfl, rfl⟩)
    unfold target at hnew
    split at hnew
    · next hs => exact .inr ⟨_, ⟨hs.2, rfl⟩, i, 0, hnew⟩
    · exact .inl ⟨i, k, hnew⟩
  · rw [hy]
    exact ⟨0, 0, (reads_expand_iff hr hd).mpr (.inr ⟨p, hp, rfl, rfl⟩)⟩

/-- A fan-out node stands behind the node whose slot it reads. -/
theorem subdivides_separated (hr : Resolved nodes) (hl : ∀ a ∈ nodes, Listed nodes a)
    (h : Separated nodes nodes') :
    Subdivides (Feeds nodes) (Feeds nodes') id (· ∈ nodes.map (·.name))
      fun y p => ∃ s ∈ fanned (slotTable nodes), s.name = p ∧ y = fanOutOf s := by
  have hsource : ∀ s ∈ fanned (slotTable nodes), s.name ∈ nodes.map (·.name) := by
    intro s hs
    obtain ⟨readers, htable, -⟩ := mem_fanned.mp hs
    obtain ⟨a, ha, hname, -⟩ := mem_slotTable.mp htable
    exact List.mem_map.mpr ⟨a, ha, hname⟩
  refine ⟨fun p q ⟨i, k, hread⟩ => ⟨hr _ _ hread, hread.reader⟩, fun p q _ _ heq => heq, ?_, ?_,
    fun x y ⟨i, k, hread⟩ => ?_, fun p q ⟨i, k, hread⟩ => ?_, ?_⟩
  · rintro y p ⟨s, hs, rfl, rfl⟩
    exact ⟨hsource s hs, fun q hq heq => h.fresh s hs (heq ▸ hq)⟩
  · rintro y p q ⟨s, hs, rfl, rfl⟩ ⟨s', hs', rfl, heq⟩
    rw [fanOutOf_injective heq]
  · generalize hrd : (⟨y, i⟩ : Connection) = r at hread
    generalize hcd : (⟨x, k⟩ : Connection) = c at hread
    rcases (h.reads_iff r c).mp hread with ⟨hk, -⟩ | ⟨hs, hm, hj⟩ | ⟨hs⟩
    · subst hrd hcd
      exact .inl ⟨x, y, rfl, rfl, i, k, hk⟩
    · subst hrd
      refine .inr (.inr ⟨_, y, ⟨_, mem_fanned.mpr ⟨_, hs, hm⟩, rfl, (Connection.mk.inj hcd).1⟩,
          rfl, ?_⟩)
      exact feeds_of_reads (Separated.reads_of_mem_slotTable hl hs hj)
    · subst hcd
      exact .inr (.inl ⟨x, rfl, _, hs, rfl, (Connection.mk.inj hrd).1⟩)
  · by_cases hs : (⟨p, k⟩ : Connection) ∈ fanned (slotTable nodes)
    · obtain ⟨readers, htable, hm⟩ := mem_fanned.mp hs
      obtain ⟨a, ha, han, hout⟩ := mem_slotTable.mp htable
      obtain ⟨j, hj⟩ :=
        List.getElem?_of_mem (((hl a ha).mem_iff _ _ hout ⟨q, i⟩).mpr (by rwa [han]))
      exact .inr ⟨_, ⟨_, hs, rfl, rfl⟩, i, j, (h.reads_iff _ _).mpr (.sent htable hm hj)⟩
    · exact .inl ⟨i, k, (h.reads_iff _ _).mpr (.kept hread hs)⟩
  · rintro y p ⟨s, hs, rfl, rfl⟩
    exact ⟨0, s.index, (h.reads_iff _ _).mpr (.fan hs)⟩

/-- Each expanded node is an old one or the activation behind it. -/
theorem mem_names_expand_iff {y : String} : y ∈ (expand nodes).map (·.name) ↔
    ∃ p, Stems (newName nodes) (· ∈ nodes.map (·.name))
      (fun y p => p ∈ splitting nodes ∧ y = activationName (newName nodes p)) y p := by
  rw [(names_expand nodes).mem_iff, List.mem_append]
  constructor
  · rintro (h | h)
    · obtain ⟨p, hp, rfl⟩ := List.mem_map.mp h
      exact ⟨p, .inl ⟨hp, rfl⟩⟩
    · obtain ⟨p, hp, rfl⟩ := List.mem_map.mp h
      exact ⟨p, .inr ⟨hp, rfl⟩⟩
  · rintro ⟨p, ⟨hp, rfl⟩ | ⟨hp, rfl⟩⟩
    · exact .inl (List.mem_map_of_mem hp)
    · exact .inr (List.mem_map.mpr ⟨p, hp, rfl⟩)

/-- Each separated node is an old one or a fan-out node behind it. -/
theorem Separated.mem_names_iff (h : Separated nodes nodes') {y : String} :
    y ∈ nodes'.map (·.name) ↔ ∃ p, Stems id (· ∈ nodes.map (·.name))
      (fun y p => ∃ s ∈ fanned (slotTable nodes), s.name = p ∧ y = fanOutOf s) y p := by
  have hp := h.perm.map (·.name)
  simp only [List.map_append, List.map_map] at hp
  have hmem : y ∈ nodes'.map (·.name) ↔
      y ∈ nodes.map (·.name) ++ (fanned (slotTable nodes)).map fanOutOf := hp.mem_iff
  rw [hmem, List.mem_append]
  constructor
  · rintro (hy | hy)
    · exact ⟨y, .inl ⟨hy, rfl⟩⟩
    · obtain ⟨s, hs, rfl⟩ := List.mem_map.mp hy
      exact ⟨s.name, .inr ⟨s, hs, rfl, rfl⟩⟩
  · rintro ⟨p, ⟨hp, rfl⟩ | ⟨s, hs, -, rfl⟩⟩
    · exact .inl hp
    · exact .inr (List.mem_map_of_mem hs)

/-- Somebody reads each fan-out node. -/
theorem Separated.fanOut_read (h : Separated nodes nodes') {s : Connection}
    (hs : s ∈ fanned (slotTable nodes)) : ∃ z, Feeds nodes' (fanOutOf s) z := by
  obtain ⟨readers, htable, hm⟩ := mem_fanned.mp hs
  exact ⟨_, feeds_of_reads ((h.reads_iff readers[0] ⟨fanOutOf s, 0⟩).mpr
    (.sent htable hm (List.getElem?_eq_getElem _)))⟩

/-- There is a node that nobody reads. -/
def HasTerminal (nodes : List (Node α)) : Prop :=
  ∃ name, name ∈ nodes.map (·.name) ∧ ∀ q, ¬ Feeds nodes name q

omit [Zero α] in
/-- A node is a terminal if nobody reads it, provided that its slots are those that are read. -/
theorem isTerminal_iff {a : Node α}
    (h : ∀ k, k < a.outputs.length ↔ ∃ r, Reads nodes r ⟨a.name, k⟩) :
    a.isTerminal = true ↔ ∀ q, ¬ Feeds nodes a.name q := by
  rw [Node.isTerminal, List.isEmpty_iff, ← List.length_eq_zero_iff]
  constructor
  · rintro hzero q ⟨i, k, hread⟩
    have := (h k).mpr ⟨_, hread⟩
    omega
  · intro hnone
    by_contra hpos
    obtain ⟨r, hread⟩ := (h 0).mp (Nat.pos_of_ne_zero hpos)
    exact hnone r.name ⟨r.index, 0, hread⟩

/-- Separating the readers leaves a terminal exactly if there was one. -/
theorem Separated.hasTerminal_iff (h : Separated nodes nodes') (hr : Resolved nodes)
    (hl : ∀ a ∈ nodes, Listed nodes a) : HasTerminal nodes' ↔ HasTerminal nodes :=
  (subdivides_separated hr hl h).exists_unread_iff (fun _ => h.mem_names_iff) <| by
    rintro y p q ⟨s, hfanned, -, rfl⟩ -
    exact h.fanOut_read hfanned

section Lower

variable {rules : List FusionRule} {u : Unit} (hr : Resolved nodes)
  (hloss : ∀ a ∈ nodes, a.isLoss = false) (h : lower none rules nodes = .ok u nodes')
  (hd : (nodes'.map (·.name)).Nodup)
include hloss h hd

/-- The expanded nodes with their readers, and what separating makes of them. -/
theorem exists_separated : ∃ n₁ : List (Node α), ((expand nodes).map (·.name)).Nodup ∧
    n₁.map (·.name) = (expand nodes).map (·.name) ∧ Feeds n₁ = Feeds (expand nodes) ∧
    (∀ y, IsInput n₁ y ↔ IsInput (expand nodes) y) ∧ Resolved n₁ ∧ (∀ a ∈ n₁, Listed n₁ a) ∧
    Separated n₁ nodes' := by
  rw [lower_none_apply rules hloss] at h
  obtain ⟨_, n₁, hset, hsep⟩ := Action.bind_eq_ok_iff.mp h
  have hset := Action.update_eq_ok_iff.mp hset
  have hd₁ := hd.sublist (names_sublist_separateReaders hsep)
  have hnames₁ := setOutputs_names hset
  have hd₀ : ((expand nodes).map (·.name)).Nodup := hnames₁ ▸ hd₁
  have hr₁ := resolved_setOutputs hset hd₀
  have hl₁ := fun a (ha : a ∈ n₁) => listed_setOutputs hset hd₀ ha
  refine ⟨n₁, hd₀, hnames₁, ?_, fun y => ?_, hr₁, hl₁, separated_of_ok hr₁ hl₁ hsep hd⟩
  · funext p q
    simp only [Feeds, reads_setOutputs_iff hset]
  · rw [isInput_iff_ident, isInput_iff_ident, setOutputs_map hset fun _ _ => rfl]

theorem newName_mem_lower {name : String} (hname : name ∈ nodes.map (·.name)) :
    newName nodes name ∈ nodes'.map (·.name) := by
  obtain ⟨n₁, -, hnames₁, -, -, -, -, hs⟩ := exists_separated hloss h hd
  refine hs.mem_names_iff.mpr ⟨newName nodes name, .inl ⟨?_, rfl⟩⟩
  rw [hnames₁]
  exact mem_names_expand_iff.mpr ⟨name, .inl ⟨hname, rfl⟩⟩

/-- No name is lost to the empty one. -/
theorem ne_empty_of_lower (hne : ∀ a ∈ nodes, a.name ≠ "") : ∀ a ∈ nodes', a.name ≠ "" := by
  obtain ⟨n₁, -, hnames₁, -, -, -, -, hs⟩ := exists_separated hloss h hd
  intro a ha
  obtain ⟨p, ⟨hp, heq⟩ | ⟨s, -, -, heq⟩⟩ := hs.mem_names_iff.mp (List.mem_map_of_mem ha)
  · rw [hnames₁] at hp
    obtain ⟨q, ⟨hq, hpq⟩ | ⟨-, hpq⟩⟩ := mem_names_expand_iff.mp hp
    · obtain ⟨b, hb, rfl⟩ := List.mem_map.mp hq
      rw [heq, id, hpq]
      exact newName_ne_empty (hne b hb)
    · rw [heq, id, hpq]
      exact activationName_ne_empty _
  · rw [heq]
    exact fanOutOf_ne_empty s

include hr

/-- Lowering closes no cycle and opens none. -/
theorem acyclic_lower_iff : Acyclic nodes' ↔ Acyclic (wireDefaults nodes) := by
  obtain ⟨n₁, hd₀, -, hfeeds, -, hr₁, hl₁, hs⟩ := exists_separated hloss h hd
  rw [Acyclic, (subdivides_separated hr₁ hl₁ hs).acyclic_iff, hfeeds,
    (subdivides_expand hr hd₀).acyclic_iff]
  rfl

/-- Lowering cuts no node off from the graph inputs and connects none. -/
theorem reachable_lower_iff : Reachable nodes' ↔ Reachable (wireDefaults nodes) := by
  obtain ⟨n₁, hd₀, hnames₁, hfeeds, hinput, hr₁, hl₁, hs⟩ := exists_separated hloss h hd
  have hlast : Reachable nodes' ↔ Reachable n₁ :=
    (subdivides_separated hr₁ hl₁ hs).all_reached_iff (IsInput n₁) (fun y => hs.mem_names_iff)
      (fun y => hs.isInput_iff.trans ⟨fun h => ⟨y, h, rfl⟩, fun ⟨s, h, heq⟩ => heq ▸ h⟩)
        fun s hs => hs.mem
  have hmiddle : Reachable n₁ ↔ Reachable (expand nodes) := by
    simp only [Reachable, hfeeds, hinput, hnames₁]
  have hfirst : Reachable (expand nodes) ↔ Reachable (wireDefaults nodes) := by
    have hall := (subdivides_expand hr hd₀).all_reached_iff (IsInput (wireDefaults nodes))
      (fun y => mem_names_expand_iff)
        (fun y => by simp only [isInput_wireDefaults_iff]; exact isInput_expand_iff)
      fun s hs => wireDefaults_names nodes ▸ hs.mem
    rw [Reachable, hall, Reachable, wireDefaults_names]
  exact hlast.trans (hmiddle.trans hfirst)

omit hr in
theorem exists_isInput_lower_iff : (∃ y, IsInput nodes' y) ↔ ∃ s, IsInput nodes s := by
  obtain ⟨n₁, -, -, -, hinput, -, -, hs⟩ := exists_separated hloss h hd
  simp only [hs.isInput_iff, hinput, isInput_expand_iff]
  exact ⟨fun ⟨_, s, hs, _⟩ => ⟨s, hs⟩, fun ⟨s, hs⟩ => ⟨_, s, hs, rfl⟩⟩

/-- Where only first slots are read, lowering leaves a terminal exactly if there was one. -/
theorem hasTerminal_lower_iff (hzero : ∀ r c, Reads (wireDefaults nodes) r c → c.index = 0) :
    HasTerminal nodes' ↔ HasTerminal (wireDefaults nodes) := by
  obtain ⟨n₁, hd₀, hnames₁, hfeeds, -, hr₁, hl₁, hs⟩ := exists_separated hloss h hd
  have hmiddle : HasTerminal n₁ ↔ HasTerminal (expand nodes) := by
    simp only [HasTerminal, hfeeds, hnames₁]
  have hfirst : HasTerminal (expand nodes) ↔ HasTerminal (wireDefaults nodes) := by
    have hall := (subdivides_expand hr hd₀).exists_unread_iff (fun y => mem_names_expand_iff) <| by
      rintro y p q ⟨hp, rfl⟩ ⟨i, k, hread⟩
      obtain rfl : k = 0 := hzero _ _ hread
      have hnew := (reads_expand_iff hr hd₀).mpr (.inl ⟨_, _, hread, rfl, rfl⟩)
      rw [target, if_pos ⟨rfl, hp⟩] at hnew
      exact ⟨_, feeds_of_reads hnew⟩
    rw [HasTerminal, hall, HasTerminal, wireDefaults_names]
  exact (hs.hasTerminal_iff hr₁ hl₁).trans (hmiddle.trans hfirst)

end Lower

end Lowering

end LayerGraph
