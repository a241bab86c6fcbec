import LayerGraph.NodeGraph.Basic
import LayerGraph.Proofs.Action
import Mathlib.Data.List.Perm.Basic
import Mathlib.Data.List.Nodup

/-!
# The sorted order lists every node once

At any time each node is fresh, on the stack or finished, and in one of these only. A search that
ends has emptied the stack and met every start, so that what is finished is a permutation of all
nodes.
-/

namespace LayerGraph

namespace Traversal

variable {next : Nat → List Nat}

theorem explore_perm {fresh finished : List Nat} {stack : List (Nat × List Nat)} {p : Progress}
    (h : explore next fresh finished stack = .ok p) :
    (p.fresh ++ p.finished).Perm (fresh ++ finished ++ stack.map (·.1)) ∧ p.fresh ⊆ fresh := by
  fun_induction explore next fresh finished stack with
  | case1 fresh finished =>
    cases h
    exact ⟨by simp, List.Subset.refl _⟩
  | case2 fresh finished node stack ih =>
    obtain ⟨hp, hs⟩ := ih h
    refine ⟨hp.trans ?_, hs⟩
    simp only [List.map_cons, List.append_assoc, List.cons_append]
    exact (List.perm_middle.symm).append_left fresh
  | case3 fresh finished node child rest stack hc ih =>
    obtain ⟨hp, hs⟩ := ih h
    refine ⟨hp.trans ?_, fun x hx => List.erase_subset (hs hx)⟩
    simp only [List.map_cons]
    have hm : (fresh.erase child ++ finished ++ child :: node :: stack.map (·.1)).Perm
        (child :: fresh.erase child ++ finished ++ node :: stack.map (·.1)) := List.perm_middle
    refine hm.trans ?_
    exact (((List.perm_cons_erase hc).symm.append_right finished).append_right _)
  | case4 fresh finished node child rest stack hc hf ih =>
    obtain ⟨hp, hs⟩ := ih h
    exact ⟨by simpa using hp, hs⟩
  | case5 => cases h

theorem exploreFrom_perm {p q : Progress} {start : Nat} (hn : p.fresh.Nodup)
    (h : exploreFrom next p start = .ok q) :
    (q.fresh ++ q.finished).Perm (p.fresh ++ p.finished) ∧ q.fresh ⊆ p.fresh ∧ start ∉ q.fresh := by
  unfold exploreFrom at h
  split at h
  · next hm =>
    obtain ⟨hp, hs⟩ := explore_perm h
    refine ⟨hp.trans ?_, fun x hx => List.erase_subset (hs hx), fun hx => ?_⟩
    · have hm' : (p.fresh.erase start ++ p.finished ++ [start]).Perm
          (start :: p.fresh.erase start ++ p.finished) := List.perm_append_singleton _ _
      exact hm'.trans ((List.perm_cons_erase hm).symm.append_right _)
    · exact hn.not_mem_erase (hs hx)
  · next hm =>
    cases h
    exact ⟨.refl _, List.Subset.refl _, hm⟩

theorem foldlM_exploreFrom_perm {starts : List Nat} {p q : Progress}
    (hn : (p.fresh ++ p.finished).Nodup) (h : starts.foldlM (exploreFrom next) p = .ok q) :
    (q.fresh ++ q.finished).Perm (p.fresh ++ p.finished) ∧ q.fresh ⊆ p.fresh ∧
      ∀ start ∈ starts, start ∉ q.fresh := by
  induction starts generalizing p with
  | nil =>
    cases h
    exact ⟨.refl _, List.Subset.refl _, by simp⟩
  | cons start starts ih =>
    rw [List.foldlM_cons] at h
    obtain ⟨r, hr, h⟩ := except_bind_eq_ok_iff.mp h
    obtain ⟨hp, hs, hm⟩ := exploreFrom_perm (List.nodup_append.mp hn).1 hr
    obtain ⟨hp', hs', hm'⟩ := ih (hp.nodup_iff.mpr hn) h
    refine ⟨hp'.trans hp, fun x hx => hs (hs' hx), fun x hx => ?_⟩
    rcases List.mem_cons.mp hx with rfl | hx
    · exact fun h => hm (hs' h)
    · exact hm' x hx

theorem order_perm {n : Nat} {order : List Nat} (h : Traversal.order next n = .ok order) :
    order.Perm (List.range n) := by
  unfold Traversal.order at h
  obtain ⟨q, hq, h⟩ := except_bind_eq_ok_iff.mp h
  cases h
  obtain ⟨hp, hs, hm⟩ := foldlM_exploreFrom_perm (by simpa using List.nodup_range) hq
  have hempty : q.fresh = [] := by
    apply List.eq_nil_iff_forall_not_mem.mpr
    intro x hx
    exact hm x (by simpa using hs hx) hx
  simpa [hempty] using hp

end Traversal

namespace NodeGraph

variable {ν : Type} [Vertex ν]

theorem sortedOrder_perm {g : NodeGraph ν} {order : List NodeRef}
    (h : g.sortedOrder = .ok order) : order.Perm (List.range g.size) := by
  unfold sortedOrder at h
  obtain ⟨readers, _, h⟩ := except_bind_eq_ok_iff.mp h
  dsimp only at h
  split at h
  · cases h
  · next found hfound =>
    split at h
    · cases h
    · cases h
      exact Traversal.order_perm hfound

theorem sort_eq_ok {g g' : NodeGraph ν} {u : Unit} (h : NodeGraph.sort g = .ok u g') :
    ∃ order, g' = { g with order := order } ∧ order.Perm (List.range g.size) := by
  obtain ⟨order, ho, h⟩ := except_bind_eq_ok_iff.mp (Action.update_eq_ok_iff.mp h)
  cases h
  exact ⟨order, rfl, sortedOrder_perm ho⟩

end NodeGraph

end LayerGraph
