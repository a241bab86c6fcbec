import Mathlib.Data.List.Nodup
import Mathlib.Data.List.Forall2
import Mathlib.Data.List.Pairwise

/-!
# Lists

What the other modules need of lists that are edited at one position and of tables of pairs.
-/

namespace LayerGraph

variable {β γ : Type}

theorem map_modify_eq {f : β → γ} {g : β → β} (h : ∀ b, f (g b) = f b) (xs : List β) (i : Nat) :
    (xs.modify i g).map f = xs.map f := by
  refine List.ext_getElem? fun j => ?_
  rw [List.getElem?_map, List.getElem?_map, List.getElem?_modify]
  cases xs[j]? with
  | none => rfl
  | some b =>
    simp only [Option.map_eq_map, Option.map_some]
    split
    · rw [h]
    · rfl

theorem map_modify_comm {f : β → γ} {g : β → β} {k : γ → γ} (h : ∀ b, f (g b) = k (f b))
    (xs : List β) (i : Nat) : (xs.modify i g).map f = (xs.map f).modify i k := by
  refine List.ext_getElem? fun j => ?_
  rw [List.getElem?_map, List.getElem?_modify, List.getElem?_modify, List.getElem?_map]
  cases xs[j]? with
  | none => rfl
  | some b =>
    simp only [Option.map_eq_map, Option.map_some]
    split
    · rw [h]
    · rfl

theorem exists_of_map_eq {f : β → γ} {xs : List β} {ys : List γ} (h : xs.map f = ys)
    {y : γ} (hy : y ∈ ys) : ∃ x ∈ xs, f x = y := List.mem_map.mp (h ▸ hy)

theorem getElem?_of_map_eq {f : β → γ} {xs ys : List β} (h : ys.map f = xs.map f)
    {i : Nat} {y : β} (hy : ys[i]? = some y) : ∃ x, xs[i]? = some x ∧ f x = f y := by
  have hi : (xs.map f)[i]? = some (f y) := by rw [← h]; simp [hy]
  simpa using hi

theorem getElem?_inj_of_nodup_map {f : β → γ} {xs : List β} (hd : (xs.map f).Nodup) {i j : Nat}
    {a b : β} (hi : xs[i]? = some a) (hj : xs[j]? = some b) (h : f a = f b) : i = j := by
  have hi' : (xs.map f)[i]? = some (f a) := by simp [hi]
  have hj' : (xs.map f)[j]? = some (f a) := by simp [hj, h]
  have hlt : i < (xs.map f).length := (List.getElem?_eq_some_iff.mp hi').1
  exact (List.getElem?_inj hlt hd).mp (hi'.trans hj'.symm)

theorem exists_append_cons_of_getElem? {xs : List β} {i : Nat} {x : β} (h : xs[i]? = some x) :
    ∃ before behind, xs = before ++ x :: behind ∧ before.length = i := by
  obtain ⟨hlt, rfl⟩ := List.getElem?_eq_some_iff.mp h
  refine ⟨xs.take i, xs.drop (i + 1), ?_, List.length_take_of_le (Nat.le_of_lt hlt)⟩
  rw [List.getElem_cons_drop, List.take_append_drop]

theorem eraseIdx_append_cons (before behind : List β) (x : β) :
    (before ++ x :: behind).eraseIdx before.length = before ++ behind := by
  rw [List.eraseIdx_append_of_length_le (Nat.le_refl _), Nat.sub_self, List.eraseIdx_cons_zero]

theorem mem_of_lookup {pairs : List (Nat × β)} {i : Nat} {b : β} (h : pairs.lookup i = some b) :
    (i, b) ∈ pairs := by
  obtain ⟨l₁, l₂, rfl, _⟩ := List.lookup_eq_some_iff.mp h
  simp

theorem lookup_eq_some_iff_mem {pairs : List (Nat × β)} (hn : (pairs.map (·.1)).Nodup) {i : Nat}
    {b : β} : pairs.lookup i = some b ↔ (i, b) ∈ pairs := by
  refine ⟨mem_of_lookup, fun h => ?_⟩
  cases hl : pairs.lookup i with
  | none =>
    have := List.lookup_eq_none_iff.mp hl _ h
    simp at this
  | some c =>
    have := List.inj_on_of_nodup_map hn (mem_of_lookup hl) h rfl
    rw [(Prod.mk.inj this).2]

/-- What is left of a table says the same of the keys that are left in it, and nothing of the
others. -/
theorem lookup_filter (live : Nat → Bool) (pairs : List (Nat × β)) (i : Nat) :
    (pairs.filter (live ·.1)).lookup i = if live i then pairs.lookup i else none := by
  induction pairs with
  | nil => simp
  | cons p pairs ih =>
    obtain ⟨k, b⟩ := p
    have hcons : ((k, b) :: pairs).filter (live ·.1) =
        if live k then (k, b) :: pairs.filter (live ·.1) else pairs.filter (live ·.1) :=
          List.filter_cons
    by_cases hi : i = k
    · subst hi
      cases hlive : live i with
      | true => simp [hcons, hlive]
      | false =>
        rw [hcons, hlive, if_neg Bool.false_ne_true, if_neg Bool.false_ne_true, ih, hlive,
          if_neg Bool.false_ne_true]
    · have hne : (i == k) = false := by simpa using hi
      rw [hcons, List.lookup_cons, hne]
      split
      · rw [List.lookup_cons, hne, ih]
      · exact ih

/-- What is picked from a list under the positions of its elements has one entry for a position. -/
theorem nodup_map_fst_filterMap_zipIdx {f : β × Nat → Option (Nat × γ)}
    (hf : ∀ p q, f p = some q → q.1 = p.2) (xs : List β) :
    ((xs.zipIdx.filterMap f).map (·.1)).Nodup := by
  have hsub : ((xs.zipIdx.filterMap f).map (·.1)).Sublist (xs.zipIdx.map (·.2)) := by
    induction xs.zipIdx with
    | nil => exact List.Sublist.refl _
    | cons p rest ih =>
      rw [List.filterMap_cons]
      cases h : f p with
      | none => exact ih.trans (List.sublist_cons_self _ _)
      | some q =>
        rw [List.map_cons, List.map_cons, hf p q h]
        exact ih.cons_cons _
  refine hsub.nodup ?_
  rw [List.zipIdx_map_snd]
  exact List.nodup_range'

theorem getElem?_of_forall₂ {R : β → γ → Prop} {xs : List β} {ys : List γ}
    (h : List.Forall₂ R xs ys) {i : Nat} {x : β} (hx : xs[i]? = some x) :
    ∃ y, ys[i]? = some y ∧ R x y := by
  obtain ⟨hlt, rfl⟩ := List.getElem?_eq_some_iff.mp hx
  have hlt' : i < ys.length := h.length_eq ▸ hlt
  exact ⟨ys[i], by simp [hlt'], (List.forall₂_iff_get.mp h).2 i hlt hlt'⟩

theorem exists_mem_of_forall₂ {R : β → γ → Prop} {xs : List β} {ys : List γ}
    (h : List.Forall₂ R xs ys) {x : β} (hx : x ∈ xs) : ∃ y ∈ ys, R x y := by
  obtain ⟨i, hi⟩ := List.getElem?_of_mem hx
  obtain ⟨y, hy, hr⟩ := getElem?_of_forall₂ h hi
  exact ⟨y, List.mem_of_getElem? hy, hr⟩

/-- Results that are told apart by what they come from: exactly one of them comes from an element
that is there once. -/
theorem filter_of_forall₂ {R : β → γ → Prop} {q : γ → Bool} {x : β} {xs : List β} {ys : List γ}
    (h : List.Forall₂ R xs ys) (hq : ∀ x' y, R x' y → (q y = true ↔ x' = x)) :
    (x ∉ xs → ys.filter q = []) ∧ (x ∈ xs → xs.Nodup → ∃ y, R x y ∧ ys.filter q = [y]) := by
  induction h with
  | nil => exact ⟨fun _ => rfl, fun hmem => absurd hmem (by simp)⟩
  | @cons x' y xs ys hr _ ih =>
    obtain ⟨habsent, hpresent⟩ := ih
    by_cases heq : x' = x
    · subst heq
      refine ⟨fun hmem => absurd (List.mem_cons_self ..) hmem, fun _ hn => ⟨y, hr, ?_⟩⟩
      rw [List.filter_cons_of_pos ((hq x' y hr).mpr rfl), habsent (List.nodup_cons.mp hn).1]
    · have hneg : ¬ q y = true := fun hy => heq ((hq x' y hr).mp hy)
      rw [List.filter_cons_of_neg hneg]
      refine ⟨fun hmem => habsent fun hin => hmem (List.mem_cons_of_mem _ hin), fun hmem hn => ?_⟩
      exact hpresent ((List.mem_cons.mp hmem).resolve_left (Ne.symm heq)) (List.nodup_cons.mp hn).2

/-- An element of the parts that a list is put together from belongs to one part, if none is there
twice. -/
theorem eq_of_mem_of_nodup_flatMap {xs : List β} {f : β → List γ} (h : (xs.flatMap f).Nodup)
    {x y : β} (hx : x ∈ xs) (hy : y ∈ xs) {b : γ} (hbx : b ∈ f x) (hby : b ∈ f y) : x = y := by
  by_contra hne
  have : Std.Symm (Function.onFun List.Disjoint f) := ⟨fun _ _ hd _ hy hx => hd hx hy⟩
  exact (List.nodup_flatMap.mp h).2.forall hx hy hne hbx hby

theorem zip_filterMap_map {β γ δ : Type} {f : β → Option γ} (g : β → δ) {xs : List β}
    (h : ∀ x ∈ xs, (f x).isSome = true) :
    (xs.filterMap f).zip (xs.map g) = xs.filterMap fun x => (f x).map (·, g x) := by
  induction xs with
  | nil => rfl
  | cons x xs ih =>
    obtain ⟨y, hy⟩ := Option.isSome_iff_exists.mp (h x List.mem_cons_self)
    rw [List.filterMap_cons_some hy, List.filterMap_cons_some (b := (y, g x)) (by rw [hy]; rfl),
      List.map_cons, List.zip_cons_cons, ih fun x' hx => h x' (List.mem_cons_of_mem x hx)]

end LayerGraph
