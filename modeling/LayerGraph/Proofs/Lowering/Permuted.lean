import LayerGraph.Proofs.Lowering.Reserved
import LayerGraph.Proofs.Lowering.Slots
import Mathlib.Algebra.Group.End
import Mathlib.Data.Finset.Card

/-!
# Lowering in any order

Where the wiring is explicit, the order in which nodes are added decides nothing but the order of
what lowering makes of them and the numbers of the slots behind fan-out nodes.
-/

namespace LayerGraph

/-- Positions behind the first one, permuted. -/
def behindFirst (σ : Equiv.Perm Nat) : Equiv.Perm Nat where
  toFun
    | 0 => 0
    | i + 1 => σ i + 1
  invFun
    | 0 => 0
    | i + 1 => σ.symm i + 1
  left_inv i := by cases i <;> simp
  right_inv i := by cases i <;> simp

/-- Lists of the same elements differ by a permutation of the positions. -/
theorem exists_positions {β : Type} {xs ys : List β} (h : xs.Perm ys) : ∃ σ : Equiv.Perm Nat, ∀ i,
    ys[σ i]? = xs[i]? := by
  induction h with
  | nil => exact ⟨1, fun _ => rfl⟩
  | cons x _ ih =>
    obtain ⟨σ, hσ⟩ := ih
    refine ⟨behindFirst σ, fun i => ?_⟩
    cases i with
    | zero => rfl
    | succ i => exact hσ i
  | swap x y xs =>
    refine ⟨Equiv.swap 0 1, fun i => ?_⟩
    match i with
    | 0 => rw [Equiv.swap_apply_left]; rfl
    | 1 => rw [Equiv.swap_apply_right]; rfl
    | i + 2 => rw [Equiv.swap_apply_of_ne_of_ne (Nat.succ_ne_zero _) (by omega)]; rfl
  | trans _ _ ih ih' =>
    obtain ⟨σ, hσ⟩ := ih
    obtain ⟨τ, hτ⟩ := ih'
    exact ⟨τ * σ, fun i => (hτ (σ i)).trans (hσ i)⟩

theorem eq_of_lt_iff (τ : Equiv.Perm Nat) {m n : Nat} (h : ∀ k, k < m ↔ τ k < n) : m = n := by
  have hmap : (Finset.range m).map τ.toEmbedding = Finset.range n := by
    ext k
    simp only [Finset.mem_map_equiv, Finset.mem_range, h, Equiv.apply_symm_apply]
  simpa using congrArg Finset.card hmap

/-- Lists that differ by a permutation of the positions have the same elements. -/
theorem perm_of_positions {β : Type} {xs ys : List β} (σ : Equiv.Perm Nat)
    (h : ∀ i, ys[σ i]? = xs[i]?) : ys.Perm xs := by
  have hlt : ∀ i, i < xs.length ↔ σ i < ys.length := fun i => by
    rw [← not_iff_not, Nat.not_lt,
      Nat.not_lt, ← List.getElem?_eq_none_iff, ← List.getElem?_eq_none_iff, h]
  have hall : ∀ zs : List β, (List.range zs.length).filterMap (zs[·]?) = zs := by
    intro zs
    induction zs with
    | nil => rfl
    | cons z zs ih =>
      rw [List.length_cons, List.range_succ_eq_map, List.filterMap_cons, List.filterMap_map]
      exact congrArg (z :: ·) ih
  have hlength := eq_of_lt_iff σ hlt
  have hrange : (List.range xs.length).Perm ((List.range xs.length).map σ) := by
    refine (List.perm_ext_iff_of_nodup List.nodup_range (List.nodup_range.map σ.injective)).mpr
      fun i => ?_
    rw [List.mem_map, List.mem_range]
    constructor
    · exact fun hi =>
        ⟨σ.symm i, List.mem_range.mpr ((hlt _).mpr (by rwa [Equiv.apply_symm_apply, ← hlength])),
          σ.apply_symm_apply i⟩
    · rintro ⟨j, hj, rfl⟩
      exact hlength ▸ (hlt j).mp (List.mem_range.mp hj)
  have hys := hrange.filterMap (ys[·]?)
  rw [List.filterMap_map, show (ys[·]?) ∘ σ = (xs[·]?) from funext h, hall, hlength, hall] at hys
  exact hys

namespace Lowering

variable {α : Type} {nodes nodes' : List (Node α)}

/-- Nodes whose wiring does not depend on the order in which they were added: what is no graph input
says what it reads, and no name can be taken for a generated one. -/
structure Explicit (nodes : List (Node α)) : Prop where
  distinct : (nodes.map (·.name)).Nodup
  wired : ∀ a ∈ nodes, a.isSource = false → a.inputs ≠ []
  plain : ∀ a ∈ nodes, '/' ∉ a.name.toList
  shipped : ∀ a ∈ nodes, a.layer.isShipped = true

theorem Explicit.perm (h : Explicit nodes) (hp : nodes'.Perm nodes) : Explicit nodes' :=
  ⟨(hp.map _).nodup_iff.mpr h.distinct, fun a ha => h.wired a (hp.mem_iff.mp ha),
    fun a ha => h.plain a (hp.mem_iff.mp ha), fun a ha => h.shipped a (hp.mem_iff.mp ha)⟩

theorem newName_perm (hd : (nodes.map (·.name)).Nodup) (hp : nodes'.Perm nodes) :
    newName nodes' = newName nodes := by
  have hnames := hp.map (·.name)
  funext name
  rw [newName, newName, renamed_renamings hd, renamed_renamings (hnames.nodup_iff.mpr hd),
    freshName_congr fun _ => hnames.mem_iff]
  simp only [hnames.mem_iff]

section Expand

theorem wireAfter_of_wired (previous : String)
    (h : ∀ a ∈ nodes, a.isSource = false → a.inputs ≠ []) : wireAfter previous nodes = nodes := by
  induction nodes generalizing previous with
  | nil => rfl
  | cons a rest ih =>
    have hcond : (a.inputs.isEmpty && !a.isSource) = false := by
      cases hs : a.isSource with
      | true => simp
      | false => simpa using h a List.mem_cons_self hs
    rw [wireAfter, hcond, ih a.name fun b hb => h b (List.mem_cons_of_mem a hb)]
    rfl

theorem wireDefaults_of_wired (h : ∀ a ∈ nodes, a.isSource = false → a.inputs ≠ []) :
    wireDefaults nodes = nodes := by
  cases nodes with
  | nil => rfl
  | cons a rest =>
    rw [wireDefaults, wireAfter_of_wired a.name fun b hb => h b (List.mem_cons_of_mem a hb)]

theorem redirectAll_congr {names names' : List String} (h : ∀ x, x ∈ names ↔ x ∈ names')
    (c : Connection) : redirectAll names c = redirectAll names' c := by
  unfold redirectAll
  simp only [h]

theorem Explicit.carry_eq (h : Explicit nodes) (c : Connection) : carry nodes c =
    redirectAll ((splitting nodes).map (newName nodes)) ⟨newName nodes c.name, c.index⟩ := by
  refine redirects_eq_redirectAll (fun p hp hmem => ?_) _
  obtain ⟨q, hq, rfl⟩ := List.mem_map.mp hp
  refine not_generated_of_no_slash h.plain (.activation hq) ?_
  obtain ⟨q', hq', heq⟩ := List.mem_map.mp hmem
  exact heq ▸ List.mem_map_of_mem (splitting_subset hq')

variable [Zero α]

theorem Explicit.expanded_perm (h : Explicit nodes) (hp : nodes'.Perm nodes) :
    expanded nodes' = expanded nodes := by
  have hname := newName_perm h.distinct hp
  have hcarry : carry nodes' = carry nodes := by
    funext c
    rw [(h.perm hp).carry_eq, h.carry_eq, hname]
    exact redirectAll_congr
      (fun x => (((hp.filter splits).map (·.name)).map (newName nodes)).mem_iff) _
  funext a
  rw [expanded, expanded, carried, carried, activationBehind, activationBehind, hname, hcarry]

theorem Explicit.expand_perm (h : Explicit nodes) (hp : nodes'.Perm nodes) :
    (expand nodes').Perm (expand nodes) := by
  rw [expand_eq h.distinct, expand_eq (h.perm hp).distinct, wireDefaults_of_wired h.wired,
    wireDefaults_of_wired (h.perm hp).wired, h.expanded_perm hp]
  exact hp.flatMap_right _

theorem Explicit.nodup_expand (h : Explicit nodes) : ((expand nodes).map (·.name)).Nodup :=
  (nodup_expand_iff h.distinct).mpr fun _ hp => not_generated_of_no_slash h.plain (.activation hp)

theorem Explicit.shipped_expand (h : Explicit nodes) : ∀ a ∈ expand nodes,
    a.layer.isShipped = true := by
  intro b hb
  obtain ⟨a, ha, rfl | ⟨-, rfl⟩⟩ := mem_expand h.distinct hb
  · rw [carried_layer]
    rw [wireDefaults_of_wired h.wired] at ha
    exact h.shipped a ha
  · rfl

end Expand

section Loss

theorem connections_perm (hp : nodes'.Perm nodes) : (connections nodes').Perm (connections nodes) :=
  hp.flatMap_right _

theorem reads_perm (hp : nodes'.Perm nodes) {r c : Connection} :
    Reads nodes' r c ↔ Reads nodes r c := by
  unfold Reads
  simp only [hp.mem_iff]

theorem readCount_perm (hp : nodes'.Perm nodes) (name : String) :
    readCount nodes' name = readCount nodes name :=
  (connections_perm hp).countP_eq _

theorem terminals_perm (hp : nodes'.Perm nodes) : (terminals nodes').Perm (terminals nodes) := by
  have hany : ∀ name, (connections nodes').any (·.name == name) = (connections nodes).any
      (·.name == name) := fun name =>
    (connections_perm hp).any_eq
  unfold terminals
  simp only [hany]
  exact (hp.map _).filter _

variable [Zero α] {loss : Option String} {lowered : List (Node α)}

theorem addLoss_perm (hp : nodes'.Perm nodes) (h : addLoss loss nodes = .ok lowered) :
    ∃ lowered', addLoss loss nodes' = .ok lowered' ∧ lowered'.Perm lowered := by
  cases loss with
  | none =>
    cases h
    exact ⟨nodes', rfl, hp⟩
  | some text =>
    simp only [addLoss] at h ⊢
    split at h
    · next hempty =>
      cases h
      exact ⟨nodes', if_pos hempty, hp⟩
    · next hne =>
      rw [if_neg hne]
      unfold appendLoss at h ⊢
      cases hkind : Loss.ofName? text with
      | none =>
        rw [hkind] at h
        cases h
      | some kind =>
        rw [hkind] at h
        dsimp only at h ⊢
        split at h
        · cases h
        · next hfind =>
          have hfind' : nodes'.find? (·.isLoss) = none :=
            List.find?_eq_none.mpr fun a ha => List.find?_eq_none.mp hfind a (hp.mem_iff.mp ha)
          rw [hfind']
          dsimp only
          split at h
          · next terminal hterminal =>
            cases h
            have hone := terminals_perm hp
            rw [hterminal, List.perm_singleton] at hone
            rw [hone]
            refine ⟨_, rfl, ?_⟩
            rw [freshName_congr fun _ => (hp.map (·.name)).mem_iff]
            exact hp.append_right _
          · cases h

end Loss

section Fuse

variable {rules : List FusionRule} {left : List (Node α)} {u : Unit}

theorem Fusable.perm {l a : Node α} {fused : Loss} {source : Connection} (hp : nodes'.Perm nodes) :
    Fusable rules nodes' l a fused source ↔ Fusable rules nodes l a fused source := by
  constructor <;> rintro ⟨hthere, hreader, hsource, honce, hruled⟩
  · exact ⟨hp.mem_iff.mp hthere, hreader, hsource, readCount_perm hp _ ▸ honce, hruled⟩
  · exact ⟨hp.mem_iff.mpr hthere, hreader, hsource, (readCount_perm hp _).trans honce, hruled⟩

theorem partner?_perm (hd : (nodes.map (·.name)).Nodup) (hp : nodes'.Perm nodes) (l : Node α) :
    partner? rules nodes' l = partner? rules nodes l := by
  refine Option.ext fun ⟨a, fused, source⟩ => ?_
  rw [partner?_eq_some_iff hd, partner?_eq_some_iff ((hp.map (·.name)).nodup_iff.mpr hd),
    Fusable.perm hp]

theorem finished_perm (hd : (nodes.map (·.name)).Nodup) (hp : nodes'.Perm nodes) :
    (finished rules nodes' nodes').Perm (finished rules nodes nodes) := by
  have hcondense : condense rules nodes' = condense rules nodes := by
    funext l
    rw [condense, condense, partner?_perm hd hp]
  have habsorbed : (absorbed rules nodes' nodes').Perm (absorbed rules nodes nodes) := by
    unfold absorbed
    simp only [partner?_perm hd hp]
    exact hp.filterMap _
  have hwithout : without (absorbed rules nodes' nodes') nodes' =
      without (absorbed rules nodes nodes) nodes' := by
    unfold without
    simp only [habsorbed.mem_iff]
  rw [finished, finished, hcondense, hwithout]
  exact (hp.filter _).map _

theorem fuse_perm (hd : (nodes.map (·.name)).Nodup) (hu : Unambiguous nodes)
    (hp : nodes'.Perm nodes) (h : fuse rules nodes = .ok u left) : ∃ left',
      fuse rules nodes' = .ok () left' ∧ left'.Perm left := by
  have hd' : (nodes'.map (·.name)).Nodup := (hp.map (·.name)).nodup_iff.mpr hd
  have hu' : Unambiguous nodes' := fun a ha => hu a (hp.mem_iff.mp ha)
  have hwhole : ∀ nodes : List (Node α), halfway rules nodes nodes [] =
      finished rules nodes nodes := fun nodes => by
    simp [halfway, without]
  have hsettles : Settles rules nodes nodes (fuse rules nodes) := settles_fuse hu hd
  have hsettles' : Settles rules nodes' nodes' (fuse rules nodes') := settles_fuse hu' hd'
  obtain ⟨hleft, -, hfine⟩ | ⟨_, _, _, _, herror⟩ := hsettles
  · obtain rfl : finished rules nodes nodes = left := by
      rw [h, hwhole] at hleft
      cases hleft
      rfl
    obtain ⟨hleft', -⟩ | ⟨l, hl, hcross, -⟩ := hsettles'
    · exact ⟨_, hleft', (hwhole nodes').symm ▸ finished_perm hd hp⟩
    · rw [condense, partner?_perm hd hp] at hcross
      exact absurd hcross (hfine l (hp.mem_iff.mp hl))
  · rw [h] at herror
    cases herror

end Fuse

end Lowering

end LayerGraph
