import LayerGraph.Proofs.Network.Handover
import LayerGraph.Proofs.Store.Unshared

/-!
# Weights that are written back

A weight and its optimizer state are written back together. That ends well if nothing changes its
shape, and then every tensor that is written back holds what is written, and every other weight is
what it was.
-/

namespace LayerGraph

variable {α τ : Type}

theorem map_fst_zip_eq_take {β γ : Type} (xs : List β) (ys : List γ) :
    (xs.zip ys).map (·.1) = xs.take ys.length := by
  induction xs generalizing ys with
  | nil => simp
  | cons x xs ih => cases ys <;> simp [ih]

/-- An update that changes no shape, of the weight or of that state which it has. -/
def WeightState.SameShapes (old new : WeightState α) : Prop :=
  new.value.shape = old.value.shape ∧ ∀ p ∈ old.state.zip new.state, p.2.shape = p.1.shape

instance (old new : WeightState α) : Decidable (old.SameShapes new) := by
  unfold WeightState.SameShapes
  infer_instance

/-- The state of a weight once new state has been written to it, as far as there is some. -/
def renewed : List (Tensor α) → List (Tensor α) → List (Tensor α)
  | _ :: olds, new :: news => new :: renewed olds news
  | olds, [] => olds
  | [], _ => []

@[simp] theorem renewed_nil_left (news : List (Tensor α)) :
    renewed [] news = [] := by cases news <;> rfl

@[simp] theorem renewed_nil_right (olds : List (Tensor α)) :
    renewed olds [] = olds := by cases olds <;> rfl

namespace Store

variable {s s' : Store α} {batch : Nat} {mode : RunMode} {writes : List (TensorRef × Tensor α)}

/-- No two weights have optimizer state in common, and none has the same state twice. -/
def StatesApart (s : Store α) : Prop := (s.weights.flatMap (·.optimizerState)).Nodup

theorem StatesApart.nodup (h : s.StatesApart) {w : WeightRef} {r : WeightRecord}
    (hr : s.weights[w]? = some r) : r.optimizerState.Nodup :=
  (List.nodup_flatMap.mp h).1 r (List.mem_of_getElem? hr)

theorem StatesApart.disjoint (h : s.StatesApart) (hreg : Registry batch s) {v w : WeightRef}
    {r r' : WeightRecord} (hr : s.weights[v]? = some r) (hr' : s.weights[w]? = some r')
    (hne : v ≠ w) {id : TensorRef} (hid : id ∈ r.optimizerState) : id ∉ r'.optimizerState :=
  fun hid' => by
  have heq := eq_of_mem_of_nodup_flatMap h (List.mem_of_getElem? hr)
    (List.mem_of_getElem? hr') hid hid'
  exact hne (hreg.name_inj v w r r' hr hr' (congrArg _ heq))

/-- What a tensor that is kept has to be to take a value. -/
def IsKept (s : Store α) (id : TensorRef) : Prop :=
  ∃ e, s.entries[id]? = some e ∧ e.source = none ∧ e.role.isKept = true

theorem IsKept.backing {id : TensorRef} (h : s.IsKept id) : ∃ e, s.backing id = some e ∧
    e.role.isKept = true := by
  obtain ⟨e, he, hs, hk⟩ := h
  exact ⟨e, backing_of_source_eq_none he hs, hk⟩

theorem IsKept.buffered {id : TensorRef} (h : s.IsKept id) (hfilled : s.hasWeights = true) :
    ∃ shape, s.Buffered id shape := by
  obtain ⟨e, he, hk⟩ := h.backing
  exact ⟨e.shape, e, he, rfl, fun _ => hfilled, fun hno => by rw [hk] at hno; cases hno⟩

theorem IsKept.rootOf {id : TensorRef} (h : s.IsKept id) : s.rootOf id = id := by
  obtain ⟨e, he, hs, -⟩ := h
  exact rootOf_of_source_eq_none he hs

theorem SameLayout.isKept (hl : s.SameLayout s') {id : TensorRef} (h : s.IsKept id) :
    s'.IsKept id := by
  unfold IsKept
  rw [hl.entries]
  exact h

/-- Everything that belongs to a weight is kept. -/
theorem Registry.isKept (hreg : Registry batch s) {w : WeightRef} {r : WeightRecord}
    (hr : s.weights[w]? = some r) {id : TensorRef} (hid : id = r.value ∨ id ∈ r.optimizerState) :
    s.IsKept id := by
  rcases hid with rfl | hid
  · obtain ⟨e, he, hrole⟩ := hreg.value w r hr
    exact ⟨e, he, hreg.source_eq_none he (by rw [hrole]; rfl), by rw [hrole]; rfl⟩
  · obtain ⟨e, he, hrole⟩ := hreg.state w r id hr hid
    exact ⟨e, he, hreg.source_eq_none he (by rw [hrole]; rfl), by rw [hrole]; rfl⟩

theorem loaded_setAll (h : s.Loaded) (hset : s.setAll writes = .ok s') : s'.Loaded :=
  except_foldlM_upTo (fun _ s₁ => s₁.Loaded) hset h fun _ _ _ _ _ _ h hstep => loaded_of_set h hstep

/-- What has a buffer takes the values of its shape. -/
theorem setAll_iff (hb : ∀ p ∈ writes, ∃ shape, s.Buffered p.1 shape) :
    (∃ s', s.setAll writes = .ok s') ↔ ∀ p ∈ writes, s.shape p.1 = .ok p.2.shape := by
  induction writes generalizing s with
  | nil => exact ⟨fun _ => nofun, fun _ => ⟨s, rfl⟩⟩
  | cons p writes ih =>
    have hcons : s.setAll (p :: writes) = (do (← s.set p.1 p.2).setAll writes) := rfl
    have hrest : ∀ s₁, s.set p.1 p.2 = .ok s₁ →
        ((∃ s', s₁.setAll writes = .ok s') ↔ ∀ p ∈ writes, s.shape p.1 = .ok p.2.shape) := by
      intro s₁ hset
      have hl := sameLayout_of_set hset
      rw [ih fun q hq => (hb q (by simp [hq])).imp fun _ h => hl.buffered h]
      simp only [hl.shape]
    rw [hcons, List.forall_mem_cons]
    constructor
    · rintro ⟨s', h⟩
      obtain ⟨s₁, hset, h⟩ := except_bind_eq_ok_iff.mp h
      obtain ⟨e', he', hshape, -⟩ := set_eq_ok hset
      exact ⟨shape_eq_ok_iff.mpr ⟨e', he', hshape.symm⟩, (hrest s₁ hset).mp ⟨s', h⟩⟩
    · rintro ⟨hshape, h⟩
      obtain ⟨shape, hbuffer⟩ := hb p (by simp)
      obtain ⟨s₁, hset⟩ := exists_set_of_buffered (v := p.2) hbuffer (by
        obtain ⟨e, he, rfl, -⟩ := hbuffer
        obtain ⟨e', he', hshape⟩ := shape_eq_ok_iff.mp hshape
        rw [he] at he'
        cases he'
        exact hshape.symm)
      obtain ⟨s', h⟩ := (hrest s₁ hset).mpr h
      exact ⟨s', by rw [hset, except_ok_bind, h]⟩

variable [Scalar α]

/-- What is kept holds what has been written to it. -/
theorem get_of_setAll_mem (hp : s.Placed mode) (hset : s.setAll writes = .ok s')
    (hk : ∀ p ∈ writes, s.IsKept p.1) (hn : (writes.map (·.1)).Nodup) {p : TensorRef × Tensor α}
    (hmem : p ∈ writes) : s'.get p.1 = .ok p.2 := by
  obtain ⟨done, rest, rfl⟩ := List.append_of_mem hmem
  rw [setAll_append] at hset
  obtain ⟨s₁, hdone, hset⟩ := except_bind_eq_ok_iff.mp hset
  obtain ⟨s₂, hself, hrest⟩ := except_bind_eq_ok_iff.mp hset
  have hl₁ := sameLayout_setAll hdone
  have hl := hl₁.trans (sameLayout_of_set hself)
  have hkept := hl.isKept (hk p hmem)
  obtain ⟨e, he, -⟩ := hkept.backing
  have hentry : ∃ e, s₁.entries[p.1]? = some e := by
    obtain ⟨e, he, -⟩ := hl₁.isKept (hk p hmem)
    exact ⟨e, he⟩
  rw [get_of_setAll_kept hrest (fun q hq => (hl.isKept (hk q (by simp [hq]))).backing) he
    fun q hq => ?_, get_of_set_self hself rfl hentry fun k hk => (hl₁.placed hp).bound _ k hk]
  rw [hkept.rootOf, (hl.isKept (hk q (by simp [hq]))).rootOf]
  rw [List.map_append, List.map_cons] at hn
  have hnot := (List.nodup_cons.mp (List.nodup_append.mp hn).2.1).1
  exact fun heq => hnot (heq ▸ List.mem_map_of_mem hq)

/-- What is kept and not written to is what it was. -/
theorem get_of_setAll_not_mem (hset : s.setAll writes = .ok s') (hk : ∀ p ∈ writes, s.IsKept p.1)
    {id : TensorRef} (hid : s.IsKept id) (hnot : id ∉ writes.map (·.1)) : s'.get id = s.get id := by
  obtain ⟨e, he, -⟩ := hid.backing
  refine get_of_setAll_kept hset (fun p hp => (hk p hp).backing) he fun p hp heq => hnot ?_
  rw [hid.rootOf, (hk p hp).rootOf] at heq
  exact heq ▸ List.mem_map_of_mem hp

/-- Every weight has the state that `state` says. -/
def StatesAre (s : Store α) (state : WeightRef → List (Tensor α)) : Prop :=
  ∀ (w : WeightRef) (r : WeightRecord), s.weights[w]? = some r →
    r.optimizerState.mapM s.get = .ok (state w)

theorem StatesAre.of_sameKept {state : WeightRef → List (Tensor α)} (h : s.StatesAre state)
    (hreg : Registry batch s) (hl : s.SameLayout s') (hkept : s.SameKept s') :
    s'.StatesAre state := by
  intro w r hr
  rw [hl.weights] at hr
  refine (except_mapM_congr fun id hid => ?_).trans (h w r hr)
  obtain ⟨e, he, hk⟩ := (hreg.isKept hr (.inr hid)).backing
  exact hkept id e he hk

/-- New state in the place of the old. -/
theorem forall₂_renewed {ids : List TensorRef} {olds news : List (Tensor α)}
    (hold : List.Forall₂ (fun id v => s.get id = .ok v) ids olds)
    (hnew : ∀ p ∈ ids.zip news, s'.get p.1 = .ok p.2)
    (hrest : ∀ id ∈ ids.drop news.length, s'.get id = s.get id) :
    List.Forall₂ (fun id v => s'.get id = .ok v) ids (renewed olds news) := by
  induction news generalizing ids olds with
  | nil =>
    rw [renewed_nil_right]
    refine List.forall₂_iff_get.mpr ⟨hold.length_eq, fun i h h' => ?_⟩
    exact (hrest _ (List.get_mem ids ⟨i, h⟩)).trans ((List.forall₂_iff_get.mp hold).2 i h h')
  | cons new news ih =>
    cases hold with
    | nil => simp
    | cons hid hold =>
      exact .cons (hnew _ (List.mem_cons_self ..))
        (ih hold (fun p hp => hnew p (List.mem_cons_of_mem _ hp)) hrest)

section WriteBack

variable {w : WeightRef} {r : WeightRecord} {state : WeightRef → List (Tensor α)}
  {old new : WeightState α}

/-- What is written back. -/
def writesOf (r : WeightRecord) (new : WeightState α) : List (TensorRef × Tensor α) :=
  (r.value, new.value) :: r.optimizerState.zip new.state

omit [Scalar α] in
theorem writeBack_eq_ok_iff {u : Unit} : writeBack new r.value r.optimizerState s = .ok u s' ↔
    s.setAll (writesOf r new) = .ok s' := by
  unfold writeBack
  rw [Action.bind_eq_ok_iff, writesOf,
    show s.setAll ((r.value, new.value) :: r.optimizerState.zip new.state) =
    (do (← s.set r.value new.value).setAll (r.optimizerState.zip new.state)) from rfl,
    except_bind_eq_ok_iff]
  exact ⟨fun ⟨_, s₁, h, h'⟩ => ⟨s₁, Action.update_eq_ok_iff.mp h, forM_write_eq_ok_iff.mp h'⟩,
    fun ⟨s₁, h, h'⟩ => ⟨(), s₁, Action.update_of_ok h, forM_write_eq_ok_iff.mpr h'⟩⟩

variable (hreg : Registry batch s) (hr : s.weights[w]? = some r)
include hreg hr

omit [Scalar α] in
theorem isKept_writesOf {p : TensorRef × Tensor α} (hp : p ∈ writesOf r new) : s.IsKept p.1 := by
  refine hreg.isKept hr ?_
  rcases List.mem_cons.mp hp with rfl | hp
  · exact .inl rfl
  · exact .inr (List.of_mem_zip hp).1

omit [Scalar α] in
theorem nodup_writesOf (hapart : s.StatesApart) : ((writesOf r new).map (·.1)).Nodup := by
  refine List.nodup_cons.mpr ⟨fun hmem => ?_, ?_⟩
  · obtain ⟨p, hp, heq⟩ := List.mem_map.mp hmem
    obtain ⟨e, he, hrole⟩ := hreg.value w r hr
    obtain ⟨e', he', hrole'⟩ := hreg.state w r p.1 hr (List.of_mem_zip hp).1
    rw [heq, he] at he'
    cases he'
    rw [hrole] at hrole'
    cases hrole'
  · rw [map_fst_zip_eq_take]
    exact (hapart.nodup hr).sublist (List.take_sublist _ _)

/-- Writing back ends well if and only if nothing changes its shape. -/
theorem writeBack_iff (hloaded : s.Loaded) (hfilled : s.hasWeights = true)
    (hvalue : s.get r.value = .ok old.value)
    (hstate : r.optimizerState.mapM s.get = .ok old.state) :
    (∃ s', writeBack new r.value r.optimizerState s = .ok () s') ↔ old.SameShapes new := by
  have hshape : ∀ {id : TensorRef} {v : Tensor α}, id = r.value ∨ id ∈ r.optimizerState →
      s.get id = .ok v → ∀ sh, s.shape id = .ok sh ↔ sh = v.shape := by
    intro id v hid hv sh
    obtain ⟨e, he, hk⟩ := (hreg.isKept hr hid).backing
    rw [shape_of_get hloaded he hv, shape_eq_ok_iff]
    exact ⟨fun ⟨e', he', h⟩ => by rw [he] at he'; cases he'; exact h.symm, fun h => ⟨e, he, h.symm⟩⟩
  simp only [writeBack_eq_ok_iff]
  rw [setAll_iff fun p hp => (isKept_writesOf hreg hr hp).buffered hfilled, writesOf,
    List.forall_mem_cons, hshape (.inl rfl) hvalue]
  refine and_congr_right fun _ => ?_
  have hold := except_mapM_eq_ok_iff.mp hstate
  constructor
  · intro h p hp
    obtain ⟨i, hi⟩ := List.getElem?_of_mem hp
    obtain ⟨hv, hv'⟩ := List.getElem?_zip_eq_some.mp hi
    obtain ⟨id, hid, hget⟩ := getElem?_of_forall₂ hold.flip hv
    have hmem := List.mem_of_getElem? (List.getElem?_zip_eq_some (z := (id, p.2)) |>.mpr ⟨hid, hv'⟩)
    exact (hshape (.inr (List.mem_of_getElem? hid)) hget _).mp (h _ hmem)
  · intro h p hp
    obtain ⟨i, hi⟩ := List.getElem?_of_mem hp
    obtain ⟨hid, hv'⟩ := List.getElem?_zip_eq_some.mp hi
    obtain ⟨v, hv, hget⟩ := getElem?_of_forall₂ hold hid
    have hmem := List.mem_of_getElem? (List.getElem?_zip_eq_some (z := (v, p.2)) |>.mpr ⟨hv, hv'⟩)
    exact (hshape (.inr (List.mem_of_getElem? hid)) hget _).mpr (h _ hmem)

variable (hp : s.Placed mode) (hapart : s.StatesApart) (hset : s.setAll (writesOf r new) = .ok s')
include hp hapart hset

/-- The weights once one has been written back. -/
theorem weight_of_writesOf : s'.reader.weight = fun v => if v = w then .ok new.value
    else s.reader.weight v := by
  have hl := sameLayout_setAll hset
  have hk : ∀ p ∈ writesOf r new, s.IsKept p.1 := fun p hp => isKept_writesOf hreg hr hp
  funext v
  change (do s'.get (← s'.weight v).value) = if v = w then .ok new.value
    else (do s.get (← s.weight v).value)
  rw [hl.weight]
  split
  · next heq =>
    subst heq
    rw [weight_eq_ok_iff.mpr hr, except_ok_bind]
    exact get_of_setAll_mem hp hset hk (nodup_writesOf hreg hr hapart) (p := (r.value, new.value))
      (List.mem_cons_self ..)
  · next hne =>
    cases hv : s.weight v with
    | error e => rfl
    | ok r' =>
      have hr' := weight_eq_ok_iff.mp hv
      refine get_of_setAll_not_mem hset hk (hreg.isKept hr' (.inl rfl)) fun hmem => ?_
      obtain ⟨e, he, hrole⟩ := hreg.value v r' hr'
      rcases List.mem_cons.mp hmem with heq | hmem
      · exact hne (hreg.value_inj v w r' r hr' hr heq)
      · obtain ⟨p, hp, heq⟩ := List.mem_map.mp hmem
        obtain ⟨e', he', hrole'⟩ := hreg.state w r p.1 hr (List.of_mem_zip hp).1
        rw [heq, he] at he'
        cases he'
        rw [hrole] at hrole'
        cases hrole'

/-- The state of all weights once one has been written back. -/
theorem statesAre_of_writesOf (h : s.StatesAre state) :
    s'.StatesAre fun v => if v = w then renewed (state w) new.state else state v := by
  have hl := sameLayout_setAll hset
  have hk : ∀ p ∈ writesOf r new, s.IsKept p.1 := fun p hp => isKept_writesOf hreg hr hp
  have hvalue : ∀ {v : WeightRef} {r' : WeightRecord} {id : TensorRef}, s.weights[v]? = some r' →
      id ∈ r'.optimizerState → id ≠ r.value := by
    rintro v r' _ hr' hid rfl
    obtain ⟨e, he, hrole⟩ := hreg.value w r hr
    obtain ⟨e', he', hrole'⟩ := hreg.state v r' _ hr' hid
    rw [he] at he'
    cases he'
    rw [hrole] at hrole'
    cases hrole'
  intro v r' hr'
  rw [hl.weights] at hr'
  dsimp only
  split
  · next heq =>
    subst heq
    rw [hr] at hr'
    cases hr'
    refine except_mapM_eq_ok_iff.mpr (forall₂_renewed (except_mapM_eq_ok_iff.mp (h v r hr))
      (fun p hmem => ?_) fun id hid => ?_)
    · exact get_of_setAll_mem hp hset hk (nodup_writesOf hreg hr hapart)
        (List.mem_cons_of_mem _ hmem)
    · have hmem := List.mem_of_mem_drop hid
      refine get_of_setAll_not_mem hset hk (hreg.isKept hr (.inr hmem)) fun hwritten => ?_
      rcases List.mem_cons.mp hwritten with heq | hwritten
      · exact hvalue hr hmem heq
      · rw [map_fst_zip_eq_take] at hwritten
        have hn := hapart.nodup hr
        rw [← List.take_append_drop new.state.length r.optimizerState] at hn
        exact (List.nodup_append.mp hn).2.2 id hwritten id hid rfl
  · next hne =>
    refine (except_mapM_congr fun id hid => ?_).trans (h v r' hr')
    refine get_of_setAll_not_mem hset hk (hreg.isKept hr' (.inr hid)) fun hmem => ?_
    rcases List.mem_cons.mp hmem with heq | hmem
    · exact hvalue hr' hid heq
    · obtain ⟨p, hp, heq⟩ := List.mem_map.mp hmem
      exact hapart.disjoint hreg hr' hr hne hid (heq ▸ (List.of_mem_zip hp).1)

end WriteBack

end Store

end LayerGraph
