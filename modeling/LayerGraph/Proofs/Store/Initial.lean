import LayerGraph.Proofs.Store.Request
import LayerGraph.Proofs.Store.Tables

/-!
# What weights start from

A weight is registered with the initializer of the node that asks for it first. Those that ask for
it later join it, and what they would start it from is not looked at.
-/

namespace LayerGraph.Store

variable {α : Type} {s s' : Store α} {claims : List (String × Initializer α)}

/-- The weights by their names. -/
def named (s : Store α) : List (String × TensorRef) := s.weights.map fun r => (r.name, r.value)

/-- The initializer of the weight of this name. -/
def initialOf (s : Store α) (name : String) : Option (Initializer α) :=
  (s.named.lookup name).bind ((s.entries.map (·.initializer))[·]?)

/-- The weights are those that have been claimed, each with the initializer that was claimed
first. -/
structure Starts (claims : List (String × Initializer α)) (s : Store α) : Prop where
  backed : ∀ r ∈ s.weights, r.value < s.entries.length
  initial : ∀ name, s.initialOf name = claims.lookup name

theorem starts_nil (hw : s.weights = []) : Starts [] s := by
  refine ⟨fun r hr => ?_, fun name => ?_⟩
  · rw [hw] at hr
    cases hr
  · rw [initialOf, named, hw]
    rfl

namespace Starts

variable (h : Starts claims s)
include h

theorem lt_of_lookup {name : String} {value : TensorRef}
    (hvalue : s.named.lookup name = some value) :
    value < (s.entries.map (·.initializer)).length := by
  obtain ⟨before, after, hsplit, -⟩ := List.lookup_eq_some_iff.mp hvalue
  obtain ⟨r, hr, heq⟩ := List.mem_map.mp (show (name, value) ∈ s.named by rw [hsplit]; simp)
  simp only [Prod.mk.injEq] at heq
  rw [List.length_map, ← heq.2]
  exact h.backed r hr

/-- More tensors change nothing, and neither does anything about a weight but its name and its
place. -/
theorem of_tables (hw : s'.named = s.named)
    (he : s.entries.map (·.initializer) <+: s'.entries.map (·.initializer)) : Starts claims s' := by
  have hlen : s.entries.length ≤ s'.entries.length := by simpa using he.length_le
  refine ⟨fun r hr => ?_, fun name => ?_⟩
  · obtain ⟨r₀, hr₀, heq⟩ := exists_of_map_eq hw.symm (List.mem_map_of_mem hr)
    simp only [Prod.mk.injEq] at heq
    exact heq.2 ▸ Nat.lt_of_lt_of_le (h.backed r₀ hr₀) hlen
  · rw [← h.initial name, initialOf, initialOf, hw]
    refine Option.bind_congr fun value hvalue => ?_
    obtain ⟨more, hmore⟩ := he
    rw [← hmore, List.getElem?_append_left (h.lt_of_lookup hvalue)]

theorem modify (w : WeightRef) (f : WeightRecord → WeightRecord)
    (hf : ∀ r, ((f r).name, (f r).value) = (r.name, r.value)) :
    Starts claims { s with weights := s.weights.modify w f } :=
  h.of_tables (map_modify_eq hf _ _) List.prefix_rfl

/-- A name that has a weight has been claimed. -/
theorem claimed {name : String} {w : WeightRef} (hw : s.findWeight? name = some w) :
    (claims.lookup name).isSome = true := by
  obtain ⟨hlt, hname, -⟩ := List.findIdx?_eq_some_iff_getElem.mp hw
  cases hvalue : s.named.lookup name with
  | none =>
    have hne := List.lookup_eq_none_iff.mp hvalue _ (List.mem_map_of_mem (List.getElem_mem hlt))
    rw [beq_iff_eq.mp hname] at hne
    simp at hne
  | some value =>
    rw [← h.initial name, initialOf, hvalue, Option.bind_some,
      List.getElem?_eq_getElem (h.lt_of_lookup hvalue)]
    rfl

end Starts

theorem tensorialAt_starts (claims : List (String × Initializer α)) :
    TensorialAt (fun _ => True) (Starts claims) where
  added s e _ _ h := h.of_tables rfl (by simp)
  timed s id steps _ h := by
    refine h.of_tables rfl ?_
    rewrite [map_modify_eq (f := (·.initializer)) (fun _ => by rfl) s.entries id]
    exact List.prefix_rfl
  ends _ _ := ⟨trivial, trivial⟩

/-- A name that has been claimed keeps its initializer. -/
theorem lookup_append_claimed {name : String} (hclaimed : (claims.lookup name).isSome = true)
    (init : Initializer α) (name' : String) : (claims ++ [(name, init)]).lookup name' =
      claims.lookup name' := by
  rw [List.lookup_append]
  by_cases hname : name' = name
  · obtain ⟨old, hold⟩ := Option.isSome_iff_exists.mp hclaimed
    rw [hname, hold]
    rfl
  · rw [List.lookup_cons, beq_false_of_ne hname]
    exact Option.or_none

/-- A claim adds what it names, unless that has been claimed before. -/
theorem starts_joinWeight {name : String} {shape : Shape} {init : Initializer α} {trainable : Bool}
    {w : WeightRef} (h : Starts claims s)
    (hjoin : joinWeight name shape init trainable s = .ok w s') :
    Starts (claims ++ [(name, init)]) s' := by
  obtain ⟨_, _, hget, h₀⟩ := Action.bind_eq_ok_iff.mp hjoin
  cases hget
  cases hw : s.findWeight? name with
  | some w' =>
    rw [hw] at h₀
    obtain ⟨r, _, hread, h₁⟩ := Action.bind_eq_ok_iff.mp h₀
    obtain ⟨-, rfl⟩ := Action.read_eq_ok_iff.mp hread
    obtain ⟨e, _, hread, h₂⟩ := Action.bind_eq_ok_iff.mp h₁
    obtain ⟨-, rfl⟩ := Action.read_eq_ok_iff.mp hread
    obtain ⟨-, h₃⟩ := Action.guard_eq_ok_iff.mp h₂
    obtain ⟨_, _, hmodify, h₄⟩ := Action.bind_eq_ok_iff.mp h₃
    cases hmodify
    cases h₄
    have hsame := h.modify w (fun e => { e with trainable := e.trainable || trainable }) fun _ =>
      rfl
    refine ⟨hsame.backed, fun name' => ?_⟩
    rw [lookup_append_claimed (h.claimed hw)]
    exact hsame.initial name'
  | none =>
    rw [hw] at h₀
    obtain ⟨value, _, hpush, h₁⟩ := Action.bind_eq_ok_iff.mp h₀
    obtain ⟨rfl, rfl⟩ := push_eq_ok hpush
    cases h₁
    refine ⟨fun r hr => ?_, fun name' => ?_⟩
    · rcases List.mem_append.mp hr with hr | hr
      · exact Nat.lt_of_lt_of_le (h.backed r hr) (by simp)
      · obtain rfl := List.mem_singleton.mp hr
        simp
    · have hnamed : ∀ r : WeightRecord, named { s with weights := s.weights ++ [r] } = s.named ++
          [(r.name, r.value)] :=
        fun r => List.map_append
      rw [List.lookup_append, ← h.initial name', initialOf, initialOf]
      change Option.bind ((named { s with weights := _ }).lookup name') _ = _
      rw [hnamed, List.lookup_append, List.map_append]
      cases hvalue : s.named.lookup name' with
      | some value =>
        have hlt := h.lt_of_lookup hvalue
        rw [Option.some_or, Option.bind_some, Option.bind_some, List.getElem?_append_left hlt,
          List.getElem?_eq_getElem hlt]
        rfl
      | none =>
        rw [Option.none_or, Option.bind_none, Option.none_or, List.lookup_cons, List.lookup_cons]
        cases name' == name with
        | true =>
          rw [← List.length_map (fun e : TensorRecord α => e.initializer)]
          exact List.getElem?_concat_length
        | false => rfl

theorem keeps_starts_gradientOf (w : WeightRef) (name : String) (shape : Shape) :
    Action.Keeps (Starts claims) (gradientOf w name shape) := by
  refine (Action.keeps_read _).bind fun weight => ?_
  cases weight.gradient with
  | some gradient => exact Action.keeps_pure _
  | none =>
    refine (keeps_push (tensorialAt_starts claims) rfl (fun h => by cases h) (by simp)).bind
      fun _ => ?_
    exact (Action.keeps_modify fun s h => h.modify w _ fun _ => rfl).bind fun _ =>
      Action.keeps_pure _

theorem starts_useWeight {name : String} {shape : Shape} {init : Initializer α} {trainable : Bool}
    {w : WeightRef} {forwardStep : Nat} {gradientStep : Option Nat} (h : Starts claims s)
    (huse : useWeight name shape init trainable forwardStep gradientStep s = .ok w s') :
    Starts (claims ++ [(name, init)]) s' := by
  obtain ⟨s₁, s₂, r, hjoin, -, rfl, htail⟩ := useWeight_eq_ok huse
  have hclaims := tensorialAt_starts (claims ++ [(name, init)])
  have h₁ := hclaims.timed s₁ r.value (fun e => e.steps ++ [forwardStep]) (by simp)
    (starts_joinWeight h hjoin)
  rcases htail with ⟨rfl, -⟩ | ⟨step, g, s₃, -, hgradient, rfl⟩
  · exact h₁
  · have h₂ := keeps_starts_gradientOf w name shape _ h₁
    rw [Action.after_of_ok hgradient] at h₂
    have h₃ := hclaims.timed s₃ g (fun e => e.steps ++ [step, step + 1]) (by simp) h₂
    exact h₃.modify w _ fun _ => rfl

end LayerGraph.Store
