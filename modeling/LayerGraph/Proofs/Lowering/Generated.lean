import LayerGraph.Proofs.Lowering.Expanded
import LayerGraph.Proofs.Lowering.Separate

/-!
# Generated names

Lowering names each activation and each fan-out node after the node that it is put behind. Names
made from different nodes or slots differ, so the only clash there can be is with a name that has
been given.
-/

namespace LayerGraph.Lowering

variable {α : Type} {nodes : List (Node α)}

section Text

theorem toList_fanOutName (name : String) (slot : Nat) : (fanOutName name slot).toList =
    name.toList ++ ("/generated_out_".toList ++ Nat.toDigits 10 slot) := by
  have h : fanOutName name slot = name ++ "/generated_out_" ++ toString slot := rfl
  rw [h, String.toList_append, String.toList_append, List.append_assoc]
  exact congrArg _ (congrArg _ Nat.toList_repr)

theorem toList_activationName (name : String) :
    (activationName name).toList = name.toList ++ "/activation_realized".toList := by
  rw [activationName, String.toList_append]

/-- The digits at the end of a text, last first. -/
def trailingDigits (text : String) : List Char := text.toList.reverse.takeWhile Char.isDigit

theorem trailingDigits_fanOutName (name : String) (slot : Nat) :
    trailingDigits (fanOutName name slot) = (Nat.toDigits 10 slot).reverse := by
  rw [trailingDigits, toList_fanOutName, List.reverse_append, List.reverse_append,
    List.append_assoc, List.takeWhile_append_of_pos fun c hc => ?_]
  · simp
  · exact Nat.isDigit_of_mem_toDigits (by decide) (by decide) (List.mem_reverse.mp hc)

theorem trailingDigits_activationName (name : String) :
    trailingDigits (activationName name) = [] := by
  rw [trailingDigits, toList_activationName, List.reverse_append]
  simp

theorem fanOutName_inj {p q : String} {j k : Nat} (h : fanOutName p j = fanOutName q k) :
    p = q ∧ j = k := by
  have hdigits := congrArg trailingDigits h
  rw [trailingDigits_fanOutName, trailingDigits_fanOutName, List.reverse_inj] at hdigits
  have hname := congrArg String.toList h
  rw [toList_fanOutName, toList_fanOutName, hdigits] at hname
  refine ⟨String.toList_inj.mp (List.append_cancel_right hname), ?_⟩
  rw [← Nat.ofDigitChars_toDigits (b := 10) (n := j) (by decide) (by decide), hdigits,
    Nat.ofDigitChars_toDigits (by decide) (by decide)]

theorem fanOutOf_injective : Function.Injective fanOutOf := by
  rintro ⟨p, j⟩ ⟨q, k⟩ h
  obtain ⟨rfl, rfl⟩ := fanOutName_inj h
  rfl

theorem activationName_injective : Function.Injective activationName := by
  intro p q h
  have hname := congrArg String.toList h
  rw [toList_activationName, toList_activationName] at hname
  exact String.toList_inj.mp (List.append_cancel_right hname)

theorem fanOutOf_ne_activationName (s : Connection) (p : String) :
    fanOutOf s ≠ activationName p := by
  intro h
  have hdigits := congrArg trailingDigits h
  rw [trailingDigits_activationName, fanOutOf, trailingDigits_fanOutName, List.reverse_eq_nil_iff]
    at hdigits
  exact Nat.toDigits_ne_nil hdigits

theorem activationName_ne_empty (p : String) : activationName p ≠ "" := by
  intro h
  have := congrArg String.toList h
  rw [toList_activationName] at this
  simp at this

theorem fanOutOf_ne_empty (s : Connection) : fanOutOf s ≠ "" := by
  intro h
  have := congrArg String.toList h
  rw [fanOutOf, toList_fanOutName] at this
  simp at this

end Text

/-- The names that lowering makes: one for each activation that becomes a node, and one for each
slot with several readers, or the activation that stands for it. -/
inductive Generated (nodes : List (Node α)) : String → Prop where
  | activation {p : String} (split : p ∈ splitting nodes) :
      Generated nodes (activationName (newName nodes p))
  | fanOut {s : Connection} (many : ¬ SingleRead (wireDefaults nodes) s) :
      Generated nodes (fanOutOf (target nodes s))

variable [Zero α]

section Expand

variable (hr : Resolved nodes)

omit [Zero α] in
theorem target_injOn
    (hact : ∀ p ∈ splitting nodes,
      activationName (newName nodes p) ∉ (nodes.map (·.name)).map (newName nodes))
    {c d : Connection} (hc : c.name ∈ nodes.map (·.name)) (hd : d.name ∈ nodes.map (·.name))
    (h : target nodes c = target nodes d) : c = d := by
  obtain ⟨p, j⟩ := c
  obtain ⟨q, k⟩ := d
  unfold target at h
  split at h
  · next hp =>
    split at h
    · next hq =>
      obtain ⟨rfl, -⟩ := hp
      obtain ⟨rfl, -⟩ := hq
      obtain rfl : p = q := newName_injOn hc hd (activationName_injective (Connection.mk.inj h).1)
      rfl
    · refine absurd ?_ (hact p hp.2)
      rw [(Connection.mk.inj h).1]
      exact List.mem_map_of_mem hd
  · split at h
    · next hq =>
      refine absurd ?_ (hact q hq.2)
      rw [← (Connection.mk.inj h).1]
      exact List.mem_map_of_mem hc
    · obtain ⟨hname, rfl⟩ := Connection.mk.inj h
      obtain rfl : p = q := newName_injOn hc hd hname
      rfl

/-- Expanded nodes have distinct names unless a name has been given that is generated. -/
theorem nodup_expand_iff (hn : (nodes.map (·.name)).Nodup) : ((expand nodes).map (·.name)).Nodup ↔
    ∀ p ∈ splitting nodes,
      activationName (newName nodes p) ∉ (nodes.map (·.name)).map (newName nodes) := by
  rw [(names_expand nodes).nodup_iff, List.nodup_append]
  have hold : ((nodes.map (·.name)).map (newName nodes)).Nodup :=
    nodup_map_renamed (isRenaming_renamings _) hn
  have hnew : ((splitting nodes).map fun p => activationName (newName nodes p)).Nodup := by
    refine List.Nodup.map_on (fun p hp q hq h => ?_) (hn.sublist (List.filter_sublist.map _))
    exact newName_injOn (splitting_subset hp) (splitting_subset hq) (activationName_injective h)
  constructor
  · rintro ⟨-, -, hdisj⟩ p hp hmem
    exact hdisj _ hmem _ (List.mem_map.mpr ⟨p, hp, rfl⟩) rfl
  · refine fun h => ⟨hold, hnew, fun a ha b hb heq => ?_⟩
    obtain ⟨p, hp, rfl⟩ := List.mem_map.mp hb
    exact h p hp (heq ▸ ha)

include hr

/-- The readers of what stands for a slot are those of the slot. -/
theorem reads_expand_target_iff (hd : ((expand nodes).map (·.name)).Nodup)
    (hn : (nodes.map (·.name)).Nodup) {r c : Connection} (hc : c.name ∈ nodes.map (·.name)) :
    Reads (expand nodes) r (target nodes c) ↔
      ∃ r', Reads (wireDefaults nodes) r' c ∧ ⟨newName nodes r'.name, r'.index⟩ = r := by
  have hact := (nodup_expand_iff hn).mp hd
  rw [reads_expand_iff hr hd]
  constructor
  · rintro (⟨r', c', hread, rfl, heq⟩ | ⟨p, hp, rfl, heq⟩)
    · have hc' := wireDefaults_names nodes ▸ resolved_wireDefaults hr _ _ hread
      obtain rfl := target_injOn hact hc' hc heq
      exact ⟨r', hread, rfl⟩
    · -- Slot 0 of a node whose activation is split stands for nothing.
      unfold target at heq
      split at heq
      · next hq =>
        refine absurd ?_ (hact c.name hq.2)
        rw [(Connection.mk.inj heq).1]
        exact List.mem_map_of_mem (splitting_subset hp)
      · next hq =>
        obtain ⟨hname, hindex⟩ := Connection.mk.inj heq
        exact absurd ⟨hindex, newName_injOn (splitting_subset hp) hc hname.symm ▸ hp⟩ hq
  · rintro ⟨r', hread, rfl⟩
    exact .inl ⟨r', c, hread, rfl, rfl⟩

/-- The slots with several readers stand for slots with several readers. -/
theorem not_single_expand_iff (hd : ((expand nodes).map (·.name)).Nodup)
    (hn : (nodes.map (·.name)).Nodup) {d : Connection} : ¬ SingleRead (expand nodes) d ↔
      ∃ c, target nodes c = d ∧ ¬ SingleRead (wireDefaults nodes) c := by
  have hnode : ∀ {r c}, Reads (wireDefaults nodes) r c →
      r.name ∈ nodes.map (·.name) ∧ c.name ∈ nodes.map (·.name) := fun hread =>
    wireDefaults_names nodes ▸ ⟨hread.reader, resolved_wireDefaults hr _ _ hread⟩
  simp only [SingleRead, not_forall]
  constructor
  · rintro ⟨r₁, r₂, h₁, h₂, hne⟩
    rcases (reads_expand_iff hr hd).mp h₁ with ⟨r, c, hread, -, rfl⟩ | ⟨p, hp, rfl, rfl⟩
    · have hc := (hnode hread).2
      obtain ⟨s₁, hs₁, rfl⟩ := (reads_expand_target_iff hr hd hn hc).mp h₁
      obtain ⟨s₂, hs₂, rfl⟩ := (reads_expand_target_iff hr hd hn hc).mp h₂
      exact ⟨c, rfl, s₁, s₂, hs₁, hs₂, fun heq => hne (by rw [heq])⟩
    · exact absurd ((reads_expand_split_iff hr hd hp).mp h₂).symm hne
  · rintro ⟨c, rfl, r₁, r₂, h₁, h₂, hne⟩
    refine ⟨_, _, (reads_expand_iff hr hd).mpr (.inl ⟨r₁, c, h₁, rfl, rfl⟩),
      (reads_expand_iff hr hd).mpr (.inl ⟨r₂, c, h₂, rfl, rfl⟩), fun heq => hne ?_⟩
    obtain ⟨hname, hindex⟩ := Connection.mk.inj heq
    have hname := newName_injOn (hnode h₁).1 (hnode h₂).1 hname
    cases r₁
    cases r₂
    simp_all

end Expand

end LayerGraph.Lowering
