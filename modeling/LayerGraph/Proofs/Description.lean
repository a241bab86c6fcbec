import LayerGraph.Description.Reader
import LayerGraph.Description.Writer
import LayerGraph.Proofs.Json.Printed

/-!
# Descriptions are read as they were written

A description that has been read is written and read again as it was, unless one of its numbers
cannot be written.
-/

namespace LayerGraph

open Json

variable {α : Type}

/-- The numbers that stand in an initializer. -/
def Initializer.numbers : Initializer α → List α
  | constant x => [x]
  | uniform x y | normal x y => [x, y]
  | zeros | ones | xavierUniform => []

namespace LayerDescription

def numbers : LayerDescription α → List α
  | fullyConnected _ weight bias => weight.numbers ++ bias.numbers
  | _ => []

/-- The sizes are words. -/
def HasWords : LayerDescription α → Prop
  | input inputShape => inputShape < Nat.pow 2 64
  | fullyConnected unit _ _ => unit < Nat.pow 2 64
  | _ => True

end LayerDescription

def NetworkDescription.numbers (description : NetworkDescription α) : List α :=
  description.layers.flatMap (·.layer.numbers)

variable [NumberFormat α]

/-- What is written for a number is read as that number. -/
def ReadsBack (x : α) : Prop :=
  ∀ n, NumberFormat.write x = some n → n.reread.isBounded = true ∧
    NumberFormat.read n.reread = some x

section Scalar

variable {x : α}

theorem toScalar?_reread (h : ReadsBack x) : (Value.ofScalar x).reread.toScalar? =
    (NumberFormat.write x).map fun _ => x := by
  unfold Value.ofScalar Value.ofOption
  cases hw : NumberFormat.write x with
  | none =>
    rw [Value.reread]
    rfl
  | some n =>
    rw [Value.reread]
    exact (h n hw).2

theorem isSound_reread (h : ReadsBack x) (levels : Nat) :
    (Value.ofScalar x).reread.isSound levels = true := by
  unfold Value.ofScalar Value.ofOption
  cases hw : NumberFormat.write x with
  | none =>
    rw [Value.reread, Value.isSound]
  | some n =>
    rw [Value.reread, Value.isSound]
    exact (h n hw).1

end Scalar

namespace Initializer

variable {i i' : Initializer α}

theorem ofValue?_reread (h : ∀ x ∈ i.numbers, ReadsBack x) :
    ofValue? .member i.toValue.reread = some i' ↔
    (∀ x ∈ i.numbers, (NumberFormat.write x).isSome = true) ∧ i = i' := by
  cases i with
  | zeros | ones | xavierUniform =>
    rw [toValue, Value.reread]
    simp [ofValue?, ofEntry?, isEmptyFor, numbers]
  | constant x =>
    have hx := toScalar?_reread (h x (by simp [numbers]))
    rw [toValue, Value.reread, Value.rereadEntries_eq_map]
    simp only [List.map_cons, List.map_nil, ofValue?, ofEntry?, hx, numbers,
      List.mem_singleton, forall_eq]
    cases NumberFormat.write x <;> simp
  | uniform x y | normal x y =>
    have hx := toScalar?_reread (h x (by simp [numbers]))
    have hy := toScalar?_reread (h y (by simp [numbers]))
    rw [toValue, Value.reread, Value.rereadEntries_eq_map]
    simp only [List.map_cons, List.map_nil, ofValue?, ofEntry?, Value.reread,
      Value.rereadEntries_eq_map, parameters?,
      Value.required?, Value.fields, numbers, List.mem_cons, List.not_mem_nil, or_false,
      forall_eq_or_imp, forall_eq]
    cases hwx : NumberFormat.write x <;> cases hwy : NumberFormat.write y <;>
      simp [hx, hy, hwx, hwy]

theorem isSound_reread (h : ∀ x ∈ i.numbers, ReadsBack x) {levels : Nat} (hl : 2 ≤ levels) :
    i.toValue.reread.isSound levels = true := by
  obtain ⟨k, rfl⟩ : ∃ k, levels = k + 2 := ⟨levels - 2, by omega⟩
  cases i with
  | zeros | ones | xavierUniform => rw [toValue, Value.reread, Value.isSound]
  | constant x =>
    have hx := LayerGraph.isSound_reread (h x (by simp [numbers]))
    simp [toValue, Value.reread, Value.isSound, Value.haveSound, hx]
  | uniform x y | normal x y =>
    have hx := LayerGraph.isSound_reread (h x (by simp [numbers]))
    have hy := LayerGraph.isSound_reread (h y (by simp [numbers]))
    simp [toValue, Value.reread, Value.isSound, Value.haveSound, hx, hy]

end Initializer

section Fields

open Value

theorem fields_append (entries more : List (String × Value)) (key : String) :
    fields (entries ++ more) key = fields entries key ++ fields more key := by
  simp [fields]

theorem fields_cons (key key' : String) (v : Value) (more : List (String × Value)) :
    fields ((key, v) :: more) key' = if key = key' then v :: fields more key'
      else fields more key' := by
  by_cases heq : key = key' <;> simp [fields, heq]

theorem fields_nil (key : String) : fields [] key = [] := rfl

theorem withDefault_eq {β : Type} {read : Value → Option β} {default : β}
    {entries : List (String × Value)} {key : String} {v : Value} (h : fields entries key = [v]) :
    withDefault read default entries key = read v := by
  unfold withDefault optional?
  rw [h]
  rfl

end Fields

theorem toNat?_reread {k : Nat} (hk : k < Nat.pow 2 64) :
    (Value.ofNat k).reread.toNat? = some k := by
  rw [Value.ofNat, Value.reread, reread_ofNat]
  simp [Value.toNat?, Number.ofNat, hk]

theorem isSound_ofNat {k levels : Nat} (hk : k < Nat.pow 2 64) :
    (Value.ofNat k).reread.isSound levels = true := by
  rw [Value.ofNat, Value.reread, reread_ofNat, Value.isSound]
  simp [Number.isBounded, Number.isWord, Number.ofNat, hk]

theorem toOption?_reread (s : Option String) :
    (Value.ofOption .text s).reread.toOption? Value.toText? = some s := by
  cases s <;> simp [Value.ofOption, Value.reread, Value.toOption?, Value.toText?]

theorem mapM_toText?_reread (names : List String) :
    (do (← (Value.ofList .text names).reread.toList?).mapM Value.toText?) = some names := by
  rw [Value.ofList, Value.reread, Value.rereadItems_eq_map]
  show ((names.map Value.text).map Value.reread).mapM Value.toText? = some names
  induction names with
  | nil => rfl
  | cons name names ih =>
    rw [List.map_cons, List.map_cons, List.mapM_cons, ih, Value.reread]
    rfl

theorem haveSound_append (levels : Nat) (entries more : List (String × Value)) :
    Value.haveSound levels (entries ++ more) = (Value.haveSound levels entries &&
      Value.haveSound levels more) := by
  induction entries with
  | nil => rw [List.nil_append, Value.haveSound, Bool.true_and]
  | cons e entries ih => rw [List.cons_append, Value.haveSound, Value.haveSound, ih, Bool.and_assoc]

theorem areSound_map {β : Type} {f : β → Value} {levels : Nat} {xs : List β}
    (h : ∀ x ∈ xs, (f x).isSound levels = true) : Value.areSound levels (xs.map f) = true := by
  induction xs with
  | nil => rw [List.map_nil, Value.areSound]
  | cons x xs ih =>
    rw [List.map_cons, Value.areSound, h x List.mem_cons_self, Bool.true_and]
    exact ih fun y hy => h y (List.mem_cons_of_mem x hy)

theorem activation_ofValue? (f : Activation) :
    Activation.ofValue? (Value.text f.name).reread = some f := by
  cases f <;> rfl

namespace LayerDescription

variable {l l' : LayerDescription α}

/-- The keys of layers. -/
def keys : List String := ["type", "input_shape", "unit", "weight_initializer", "bias_initializer"]

/-- A layer is read from its entries, behind those of its node. -/
theorem ofEntries?_reread {entries : List (String × Value)}
    (hkeys : ∀ key ∈ keys, Value.fields entries key = []) (hw : l.HasWords)
    (h : ∀ x ∈ l.numbers, ReadsBack x) :
    ofEntries? true (entries ++ l.toEntries.map fun e => (e.1, e.2.reread)) = some l' ↔
      (∀ x ∈ l.numbers, (NumberFormat.write x).isSome = true) ∧ l = l' := by
  simp only [keys, List.forall_mem_cons, List.not_mem_nil, false_implies, implies_true, and_true]
    at hkeys
  obtain ⟨htype, hshape, hunit, hweight, hbias⟩ := hkeys
  cases l with
  | input k =>
    simp [ofEntries?, toEntries, typeName, typeName?, Value.reread, Value.required?,
      fields_append, fields_cons, fields_nil, htype, hshape, toNat?_reread hw, numbers]
  | fullyConnected unit weight bias =>
    have hwi : ∀ i, Initializer.ofValue? .member weight.toValue.reread = some i ↔ _ := fun i =>
      Initializer.ofValue?_reread fun x hx => h x (List.mem_append_left _ hx)
    have hbi : ∀ i, Initializer.ofValue? .member bias.toValue.reread = some i ↔ _ := fun i =>
      Initializer.ofValue?_reread fun x hx => h x (List.mem_append_right _ hx)
    simp only [toEntries, typeName, List.map_cons, List.map_nil]
    simp [ofEntries?, typeName?, Value.reread, Value.required?, Value.optional?, fields_append,
      fields_cons, fields_nil, htype, hunit, hweight, hbias, toNat?_reread hw, initializer?,
      Option.bind_eq_some_iff, hwi, hbi]
    rw [numbers, List.forall_mem_append, and_assoc]
  | loss kind =>
    cases kind <;> simp [ofEntries?, toEntries, typeName, typeName?, Value.reread, Value.required?,
      fields_append, fields_cons, fields_nil, htype, plain?, numbers, Loss.name, Loss.all]
  | activation | addition | multiout | identity =>
    simp [ofEntries?, toEntries, typeName, typeName?, Value.reread, Value.required?,
      fields_append, fields_cons, fields_nil, htype, plain?, numbers]

theorem haveSound_reread (hw : l.HasWords) (h : ∀ x ∈ l.numbers, ReadsBack x) {levels : Nat}
    (hl : 2 ≤ levels) :
    Value.haveSound levels (l.toEntries.map fun e => (e.1, e.2.reread)) = true := by
  cases l with
  | input k => simp [toEntries, Value.haveSound, Value.reread, Value.isSound, isSound_ofNat hw]
  | fullyConnected unit weight bias =>
    have hwi := Initializer.isSound_reread (fun x hx => h x (List.mem_append_left _ hx)) hl
    have hbi := Initializer.isSound_reread (fun x hx => h x (List.mem_append_right _ hx)) hl
    simp [toEntries, Value.haveSound, Value.reread, Value.isSound, isSound_ofNat hw, hwi, hbi]
  | loss | activation | addition | multiout | identity =>
    simp [toEntries, Value.haveSound, Value.reread, Value.isSound]

theorem fields_toEntries {f : String × Value → Value} {key : String} (h : key ∉ keys) :
    Value.fields (l.toEntries.map fun e => (e.1, f e)) key = [] := by
  simp only [keys, List.mem_cons, List.not_mem_nil, or_false, not_or] at h
  obtain ⟨htype, hshape, hunit, hweight, hbias⟩ := h
  cases l with
  | input => simp [toEntries, fields_cons, fields_nil, Ne.symm htype, Ne.symm hshape]
  | fullyConnected =>
    simp [toEntries, fields_cons, fields_nil, Ne.symm htype, Ne.symm hunit, Ne.symm hweight,
      Ne.symm hbias]
  | loss | activation | addition | multiout | identity =>
    simp [toEntries, fields_cons, fields_nil, Ne.symm htype]

/-- A layer that is read has words for sizes. -/
theorem hasWords_of_ofEntries? {entries : List (String × Value)}
    (h : ofEntries? true entries = some l) : l.HasWords := by
  have hword : ∀ {v : Value} {k : Nat}, v.toNat? = some k → k < Nat.pow 2 64 := by
    intro v k hk
    unfold Value.toNat? at hk
    split at hk
    · split at hk
      · next hn =>
        cases hk
        exact of_decide_eq_true (Bool.and_eq_true_iff.mp hn).2
      · cases hk
    · cases hk
  unfold ofEntries? at h
  simp only [Option.bind_eq_bind, Option.bind_eq_some_iff] at h
  obtain ⟨v, -, name, -, h⟩ := h
  split at h
  · obtain ⟨w, -, k, hk, h⟩ := by simpa only [Option.bind_eq_some_iff] using h
    cases h
    exact hword hk
  · obtain ⟨w, -, unit, hunit, _, -, weight, -, _, -, bias, -, h⟩ := by
      simpa only [Option.bind_eq_some_iff] using h
    cases h
    exact hword hunit
  · unfold plain? at h
    split at h
    · cases h
      trivial
    · cases h
      trivial
    · cases h
      trivial
    · cases h
      trivial
    · obtain ⟨kind, -, rfl⟩ := Option.map_eq_some_iff.mp h
      trivial

end LayerDescription

namespace NodeDescription

variable {d d' : NodeDescription α}

/-- The entries of a node without those of its layer. -/
def ownEntries (d : NodeDescription α) : List (String × Value) := [
  ("name", .ofOption .text d.name),
  ("inputs", .ofList .text d.inputs),
  ("activation", .text d.activation.name),
  ("trainable", .bool d.trainable),
  ("shared_from", .ofOption .text d.sharedFrom)]

theorem toValue_reread : d.toValue.reread =
    .object (d.ownEntries.map (fun e => (e.1, e.2.reread)) ++ d.layer.toEntries.map
      fun e => (e.1, e.2.reread)) := by
  rw [toValue, Value.reread, Value.rereadEntries_eq_map, ← List.map_append]
  rfl

/-- A key of the node's own has its value among all entries. -/
theorem fields_toValue (key : String) {v : Value} (hkey : key ∉ LayerDescription.keys)
    (hv : Value.fields (d.ownEntries.map fun e => (e.1, e.2.reread)) key = [v]) :
    Value.fields (d.ownEntries.map (fun e => (e.1, e.2.reread)) ++ d.layer.toEntries.map
      fun e => (e.1, e.2.reread)) key = [v] := by
  rw [fields_append, hv, LayerDescription.fields_toEntries hkey, List.append_nil]

theorem ofValue?_reread (hw : d.layer.HasWords) (h : ∀ x ∈ d.layer.numbers, ReadsBack x) :
    ofValue? d.toValue.reread = some d' ↔
    (∀ x ∈ d.layer.numbers, (NumberFormat.write x).isSome = true) ∧ d = d' := by
  have hown : ∀ key ∈ LayerDescription.keys,
      Value.fields (d.ownEntries.map fun e => (e.1, e.2.reread)) key = [] := by
    simp [LayerDescription.keys, ownEntries, fields_cons, fields_nil]
  have hinputs : (do (← (Value.ofList .text d.inputs).reread.toList?).mapM Value.toText?) =
      some d.inputs :=
    mapM_toText?_reread d.inputs
  have htrainable : (Value.bool d.trainable).reread.toBool? = some d.trainable := by
    rw [Value.reread]
    rfl
  rw [toValue_reread]
  unfold ofValue?
  dsimp only
  rw [withDefault_eq (fields_toValue "name" (by decide)
      (by simp [ownEntries, fields_cons, fields_nil]; rfl)),
    withDefault_eq (fields_toValue "inputs" (by decide)
      (by simp [ownEntries, fields_cons, fields_nil]; rfl)),
    withDefault_eq (fields_toValue "activation" (by decide)
      (by simp [ownEntries, fields_cons, fields_nil]; rfl)),
    withDefault_eq (fields_toValue "trainable" (by decide)
      (by simp [ownEntries, fields_cons, fields_nil]; rfl)),
    withDefault_eq (fields_toValue "shared_from" (by decide)
      (by simp [ownEntries, fields_cons, fields_nil]; rfl)),
    toOption?_reread, toOption?_reread, hinputs, activation_ofValue?, htrainable]
  simp only [Option.bind_eq_bind, Option.bind_some, Option.bind_eq_some_iff,
    LayerDescription.ofEntries?_reread hown hw h]
  constructor
  · rintro ⟨_, ⟨hwritten, rfl⟩, hd⟩
    exact ⟨hwritten, Option.some.inj hd⟩
  · rintro ⟨hwritten, rfl⟩
    exact ⟨d.layer, ⟨hwritten, rfl⟩, rfl⟩

theorem isSound_reread (hw : d.layer.HasWords) (h : ∀ x ∈ d.layer.numbers, ReadsBack x)
    {levels : Nat} (hl : 3 ≤ levels) : d.toValue.reread.isSound levels = true := by
  obtain ⟨k, rfl⟩ : ∃ k, levels = k + 3 := ⟨levels - 3, by omega⟩
  have htext : ∀ name : Option String, (Value.ofOption .text name).reread.isSound (k + 2) =
      true := by
    intro name
    cases name <;> simp [Value.ofOption, Value.reread, Value.isSound]
  have hinputs : (Value.ofList .text d.inputs).reread.isSound (k + 2) = true := by
    rw [Value.ofList, Value.reread, Value.rereadItems_eq_map, List.map_map, Value.isSound]
    exact areSound_map fun name _ => by rw [Function.comp_apply, Value.reread, Value.isSound]
  have hlayer := LayerDescription.haveSound_reread hw h (show 2 ≤ k + 2 by omega)
  rw [toValue_reread, Value.isSound, haveSound_append]
  simp [ownEntries, Value.haveSound, htext, hinputs, hlayer, Value.reread, Value.isSound]

theorem hasWords_of_ofValue? {v : Value} (h : ofValue? v = some d) : d.layer.HasWords := by
  unfold ofValue? at h
  split at h
  · simp only [Option.bind_eq_bind, Option.bind_eq_some_iff] at h
    obtain ⟨_, -, _, -, _, -, _, -, _, -, layer, hlayer, hd⟩ := h
    cases hd
    exact LayerDescription.hasWords_of_ofEntries? hlayer
  · cases h

end NodeDescription

theorem mem_of_mapM_eq_some {β γ : Type} {f : β → Option γ} {xs : List β} {ys : List γ}
    (h : xs.mapM f = some ys) {y : γ} (hy : y ∈ ys) : ∃ x ∈ xs, f x = some y := by
  induction xs generalizing ys with
  | nil =>
    cases h
    cases hy
  | cons x xs ih =>
    simp only [List.mapM_cons, Option.bind_eq_bind, Option.bind_eq_some_iff, Option.pure_def] at h
    obtain ⟨z, hz, zs, hzs, heq⟩ := h
    cases heq
    rcases List.mem_cons.mp hy with rfl | hmem
    · exact ⟨x, List.mem_cons_self, hz⟩
    · obtain ⟨x', hx', hy'⟩ := ih hzs hmem
      exact ⟨x', List.mem_cons_of_mem x hx', hy'⟩

namespace NetworkDescription

variable {d d' : NetworkDescription α} {layers layers' : List (NodeDescription α)}

theorem mapM_ofValue?_reread (hw : ∀ l ∈ layers, l.layer.HasWords)
    (h : ∀ l ∈ layers, ∀ x ∈ l.layer.numbers, ReadsBack x) :
    (layers.map fun l => l.toValue.reread).mapM NodeDescription.ofValue? = some layers' ↔
      (∀ l ∈ layers, ∀ x ∈ l.layer.numbers, (NumberFormat.write x).isSome = true) ∧
      layers = layers' := by
  induction layers generalizing layers' with
  | nil => simp
  | cons l layers ih =>
    have hl : ∀ l', NodeDescription.ofValue? l.toValue.reread = some l' ↔ _ := fun _ =>
      NodeDescription.ofValue?_reread (hw l List.mem_cons_self) (h l List.mem_cons_self)
    have hrest : ∀ ls, (layers.map fun l => l.toValue.reread).mapM NodeDescription.ofValue? =
        some ls ↔ _ := fun _ =>
      ih (fun l' hl' => hw l' (List.mem_cons_of_mem l hl')) fun l' hl' =>
        h l' (List.mem_cons_of_mem l hl')
    rw [List.map_cons, List.mapM_cons, List.forall_mem_cons]
    simp only [Option.bind_eq_bind, Option.bind_eq_some_iff, hl, hrest, Option.pure_def]
    constructor
    · rintro ⟨_, ⟨hfirst, rfl⟩, _, ⟨hmore, rfl⟩, heq⟩
      exact ⟨⟨hfirst, hmore⟩, Option.some.inj heq⟩
    · rintro ⟨⟨hfirst, hmore⟩, rfl⟩
      exact ⟨l, ⟨hfirst, rfl⟩, layers, ⟨hmore, rfl⟩, rfl⟩

theorem ofValue?_reread (hw : ∀ l ∈ d.layers, l.layer.HasWords) (h : ∀ x ∈ d.numbers, ReadsBack x) :
    ofValue? d.toValue.reread = some d' ↔ (∀ x ∈ d.numbers, (NumberFormat.write x).isSome = true) ∧
    d = d' := by
  have hall : ∀ {P : α → Prop}, (∀ x ∈ d.numbers, P x) ↔ ∀ l ∈ d.layers, ∀ x ∈ l.layer.numbers,
      P x := by
    intro P
    simp only [numbers, List.mem_flatMap]
    exact ⟨fun hx l hl x hm => hx x ⟨l, hl, hm⟩, fun hx x ⟨l, hl, hm⟩ => hx l hl x hm⟩
  have hreads := hall.mp h
  have hlist : (Value.ofList NodeDescription.toValue d.layers).reread =
      .array (d.layers.map fun l => l.toValue.reread) := by
    rw [Value.ofList, Value.reread, Value.rereadItems_eq_map, List.map_map]
    rfl
  have hsound : (Value.array (d.layers.map fun l => l.toValue.reread)).isSound
      (Value.maxLevels - 1) = true := by
    rw [Value.isSound]
    exact areSound_map fun l hl => NodeDescription.isSound_reread (hw l hl)
      (hreads l hl) (by decide)
  rw [toValue, Value.reread, Value.rereadEntries_eq_map]
  unfold ofValue?
  simp only [List.map_cons, List.map_nil]
  rw [withDefault_eq (v := (Value.ofOption .text d.loss).reread)
    (by simp [fields_cons, fields_nil]), toOption?_reread]
  have hlayers :
      (layers? (.array (d.layers.map fun l => l.toValue.reread)) :
        Option (List (NodeDescription α))) =
      (d.layers.map fun l => l.toValue.reread).mapM NodeDescription.ofValue? := by
    unfold layers?
    rw [if_pos hsound]
    rfl
  simp only [Value.required?, fields_cons, fields_nil, String.reduceEq, if_true,
    if_false, hlist, hlayers, Option.bind_eq_bind, Option.bind_some, Option.bind_eq_some_iff]
  constructor
  · rintro ⟨layers, hread, hd⟩
    obtain ⟨hwritten, rfl⟩ := (mapM_ofValue?_reread hw hreads).mp hread
    exact ⟨hall.mpr hwritten, Option.some.inj hd⟩
  · rintro ⟨hwritten, rfl⟩
    exact ⟨d.layers, (mapM_ofValue?_reread hw hreads).mpr ⟨hall.mp hwritten, rfl⟩, rfl⟩

theorem hasWords_of_layers? {v : Value} (h : layers? v = some layers) :
    ∀ l ∈ layers, l.layer.HasWords := by
  unfold layers? at h
  split at h
  · simp only [Option.bind_eq_bind, Option.bind_eq_some_iff] at h
    obtain ⟨items, -, hitems⟩ := h
    intro l hl
    obtain ⟨item, -, hitem⟩ := mem_of_mapM_eq_some hitems hl
    exact NodeDescription.hasWords_of_ofValue? hitem
  · cases h

theorem parse_eq_ok_iff {text : String} : parse text = .ok d ↔ (Json.parse text).bind ofValue? =
    some d := by
  unfold parse
  split
  · next d' heq => simp [heq]
  · next heq => simp [heq]

/-- The layers of a description that is read have words for sizes. -/
theorem hasWords_of_parse {text : String} (h : parse text = .ok d) :
    ∀ l ∈ d.layers, l.layer.HasWords := by
  obtain ⟨v, -, hv⟩ := Option.bind_eq_some_iff.mp (parse_eq_ok_iff.mp h)
  unfold ofValue? at hv
  split at hv
  · simp only [Option.bind_eq_bind, Option.bind_eq_some_iff] at hv
    obtain ⟨_, -, layers, hlayers, _, -, hd⟩ := hv
    cases hd
    exact hasWords_of_layers? hlayers
  · simp only [Option.bind_eq_bind, Option.bind_eq_some_iff] at hv
    obtain ⟨layers, hlayers, hd⟩ := hv
    cases hd
    exact hasWords_of_layers? hlayers
  · simp only [Option.bind_eq_bind, Option.bind_eq_some_iff] at hv
    obtain ⟨layers, hlayers, _, -, hd⟩ := hv
    cases hd
    exact hasWords_of_layers? hlayers
  · cases hv

/-- A description that has been read is read again from its text exactly if all of its numbers can
be written. -/
theorem parse_text_iff {text : String} (hparse : parse text = .ok d)
    (h : ∀ x ∈ d.numbers, ReadsBack x) :
    parse d.text = .ok d ↔ ∀ x ∈ d.numbers, (NumberFormat.write x).isSome = true := by
  rw [parse_eq_ok_iff, NetworkDescription.text, parse_pretty, Option.bind_some,
    ofValue?_reread (hasWords_of_parse hparse) h]
  exact and_iff_left rfl

section Overflow

/-- Whole numbers, rounded down, and a single one in place of those from `2 ^ 128` on, which has no
decimal. -/
local instance wholeFormat : NumberFormat (Option Int) where
  read n :=
    let size := n.mantissa * Nat.pow 10 n.exponent.toNat / Nat.pow 10 (-n.exponent).toNat
    some (if size < Nat.pow 2 128 then some (if n.negative then -size else size) else none)
  write x := x.map fun k => ⟨k < 0, k.natAbs, 0, false⟩

def overflow : String :=
  "\x7b\"layers\": [\x7b\"type\": \"fully_connected\", \"unit\": 1, " ++
    "\"weight_initializer\": \x7b\"constant\": 1e39\x7d, \"bias_initializer\": \x7b\"constant\": 2\x7d\x7d]\x7d"

def overflown : NetworkDescription (Option Int) :=
  ⟨[⟨none, [], .none, true, none, .fullyConnected 1 (.constant none) (.constant (some 2))⟩], none⟩

theorem parse_overflow : parse overflow = .ok overflown := parse_eq_ok_iff.mpr (by decide +kernel)

theorem readsBack_overflown : ∀ x ∈ overflown.numbers, ReadsBack x := by
  intro x hx
  simp only [overflown, numbers, LayerDescription.numbers, Initializer.numbers, List.flatMap_cons,
    List.flatMap_nil, List.append_nil, List.cons_append, List.nil_append, List.mem_cons,
    List.not_mem_nil, or_false] at hx
  rcases hx with rfl | rfl
  · intro n hn
    cases hn
  · intro n hn
    cases hn
    decide +kernel

/-- A number that is too large is read, and the description cannot be read again. -/
theorem overflown_not_reread : parse overflow = .ok overflown ∧
    parse overflown.text ≠ .ok overflown := by
  refine ⟨parse_overflow, fun hreread => ?_⟩
  have hwritten := (parse_text_iff parse_overflow readsBack_overflown).mp hreread none
  simp [overflown, numbers, LayerDescription.numbers, Initializer.numbers, NumberFormat.write]
    at hwritten

end Overflow

end NetworkDescription

end LayerGraph
