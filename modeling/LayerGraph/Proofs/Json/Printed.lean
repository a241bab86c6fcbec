import LayerGraph.Json.Reader
import LayerGraph.Proofs.Json.Scan
import Mathlib.Data.List.Forall2

/-!
# What is printed is read

The text of a value is read as the value, except that its numbers are as they are read from their
texts. The proof goes by way of the tokens of a value: the text is cut into them, and reading them
builds the value up again.
-/

namespace LayerGraph.Json

open Token (scan punctuation? isSpace)

namespace Value

mutual

/-- The value with its numbers as they are read from their texts. What is unreadable is written as
`null`. -/
def reread : Value → Value
  | null | unreadable => null
  | bool b => bool b
  | number n => number n.reread
  | text s => text s
  | array items => array (rereadItems items)
  | object entries => object (rereadEntries entries)

def rereadItems : List Value → List Value
  | [] => []
  | v :: rest => v.reread :: rereadItems rest

def rereadEntries : List (String × Value) → List (String × Value)
  | [] => []
  | (key, v) :: rest => (key, v.reread) :: rereadEntries rest

end

mutual

/-- The tokens that a value is written in. -/
def tokens : Value → List Token
  | null | unreadable => [.null]
  | bool b => [.bool b]
  | number n => [.number n]
  | text s => [.text (some s)]
  | array items => .openArray :: ([.comma].intercalate (itemTokens items) ++ [.closeArray])
  | object entries => .openObject :: ([.comma].intercalate (entryTokens entries) ++ [.closeObject])

def itemTokens : List Value → List (List Token)
  | [] => []
  | v :: rest => v.tokens :: itemTokens rest

def entryTokens : List (String × Value) → List (List Token)
  | [] => []
  | (key, v) :: rest => (.text (some key) :: .colon :: v.tokens) :: entryTokens rest

end

@[simp] theorem rereadItems_eq_map (items : List Value) : rereadItems items = items.map reread := by
  induction items with
  | nil => rfl
  | cons v rest ih => rw [rereadItems, ih, List.map_cons]

@[simp] theorem rereadEntries_eq_map (entries : List (String × Value)) :
    rereadEntries entries = entries.map fun e => (e.1, e.2.reread) := by
  induction entries with
  | nil => rfl
  | cons e rest ih => rw [rereadEntries, ih, List.map_cons]

@[simp] theorem itemTokens_eq_map (items : List Value) : itemTokens items = items.map tokens := by
  induction items with
  | nil => rfl
  | cons v rest ih => rw [itemTokens, ih, List.map_cons]

@[simp] theorem entryTokens_eq_map (entries : List (String × Value)) :
    entryTokens entries = entries.map fun e => .text (some e.1) :: .colon :: e.2.tokens := by
  induction entries with
  | nil => rfl
  | cons e rest ih => rw [entryTokens, ih, List.map_cons]

theorem prettyItems_eq_map (level : Nat) (items : List Value) :
    prettyItems level items = items.map (prettyAt level) := by
  induction items with
  | nil => rfl
  | cons v rest ih => rw [prettyItems, ih, List.map_cons]

theorem prettyEntries_eq_map (level : Nat) (entries : List (String × Value)) :
    prettyEntries level entries = entries.map fun e => quoted e.1 ++ ": " ++
      prettyAt level e.2 := by
  induction entries with
  | nil => rfl
  | cons e rest ih => rw [prettyEntries, ih, List.map_cons]

/-- What holds of a value if it does of its items or entries. -/
theorem induct {P : Value → Prop}
    (leaf : ∀ v, (∀ items, v ≠ array items) → (∀ entries, v ≠ object entries) → P v)
    (list : ∀ items, (∀ v ∈ items, P v) → P (array items))
    (table : ∀ entries, (∀ e ∈ entries, P e.2) → P (object entries)) (v : Value) : P v := by
  refine @Value.rec P (fun items => ∀ v ∈ items, P v) (fun entries => ∀ e ∈ entries, P e.2)
    (fun e => P e.2) (leaf .null ?_ ?_) (fun b => leaf (.bool b) ?_ ?_)
      (fun n => leaf (.number n) ?_ ?_) (fun s => leaf (.text s) ?_ ?_)
    list table (leaf .unreadable ?_ ?_) ?_ ?_ ?_ ?_ ?_ v
  case refine_11 => exact fun v hv => by cases hv
  case refine_12 => exact fun v rest hv hrest => List.forall_mem_cons.mpr ⟨hv, hrest⟩
  case refine_13 => exact fun e he => by cases he
  case refine_14 => exact fun e rest he hrest => List.forall_mem_cons.mpr ⟨he, hrest⟩
  case refine_15 => exact fun key v hv => hv
  all_goals exact fun _ h => by cases h

end Value

section Scan

theorem intercalate_cons {β : Type} (sep x : List β) (xs : List (List β)) :
    sep.intercalate (x :: xs) = x ++ xs.flatMap (sep ++ ·) := by
  induction xs generalizing x with
  | nil => simp [List.intercalate]
  | cons y xs ih =>
    rw [List.intercalate_cons_cons, ih, List.flatMap_cons, List.append_assoc, List.append_assoc]

theorem isSpace_newLine (level : Nat) : ∀ c ∈ (Value.newLine level).toList, isSpace c = true := by
  unfold Value.newLine
  rw [String.toList_append]
  refine List.forall_mem_append.mpr ⟨by simp [isSpace], fun c hc => ?_⟩
  rw [String.toList_ofList] at hc
  obtain rfl := (List.mem_replicate.mp hc).2
  rfl

/-- Further parts, each on a line of its own behind a comma, up to the bracket at the end. -/
theorem cuts_more {r : Char} {right : Token} (hr : punctuation? r = some right) (level : Nat)
    {parts : List String} {tss : List (List Token)}
    (h : List.Forall₂ (fun part ts => Cuts part.toList ts) parts tss) :
    Cuts ((parts.map String.toList).flatMap ((',' :: (Value.newLine (level + 1)).toList) ++ ·) ++
        ((Value.newLine level).toList ++ [r])) (tss.flatMap ([.comma] ++ ·) ++ [right]) ∧
      Ends ((parts.map String.toList).flatMap ((',' :: (Value.newLine (level + 1)).toList) ++ ·) ++
        ((Value.newLine level).toList ++ [r])) := by
  induction h with
  | nil =>
    rw [List.map_nil, List.flatMap_nil, List.flatMap_nil, List.nil_append, List.nil_append]
    refine ⟨.spaces (isSpace_newLine level) (cuts_nil.punctuation hr), fun c hc => ?_⟩
    have hmem := List.mem_of_mem_head? hc
    rcases List.mem_append.mp hmem with hspace | hend
    · exact not_isNumberChar_of_isSpace (isSpace_newLine level c hspace)
    · obtain rfl := List.mem_singleton.mp hend
      exact not_isNumberChar_of_punctuation hr
  | @cons part ts parts tss hpart _ ih =>
    have hfirst : Cuts ((',' :: (Value.newLine (level + 1)).toList) ++ part.toList)
        (.comma :: ts) :=
      .punctuation rfl (.spaces (isSpace_newLine (level + 1)) hpart)
    rw [List.map_cons, List.flatMap_cons, List.flatMap_cons, List.append_assoc (_ ++ part.toList),
      List.append_assoc (_ ++ ts)]
    refine ⟨hfirst.append ih.1 ih.2, fun c hc => ?_⟩
    cases hc
    rfl

/-- Parts between brackets, on lines of their own, are cut into their tokens with commas between
them. -/
theorem cuts_block {l r : Char} {left right : Token} (hl : punctuation? l = some left)
    (hr : punctuation? r = some right) (level : Nat) {parts : List String} {tss : List (List Token)}
    (h : List.Forall₂ (fun part ts => Cuts part.toList ts) parts tss) :
    Cuts (Value.block (String.ofList [l]) (String.ofList [r]) level parts).toList
      (left :: ([Token.comma].intercalate tss ++ [right])) := by
  unfold Value.block
  cases h with
  | nil =>
    rw [if_pos List.isEmpty_nil, String.toList_append, String.toList_ofList, String.toList_ofList]
    exact (cuts_nil.punctuation hr).punctuation hl
  | @cons part ts parts tss hpart hrest =>
    obtain ⟨hmore, hends⟩ := cuts_more hr level hrest
    have hall := (hpart.append hmore hends).spaces (isSpace_newLine (level + 1))
    rw [if_neg (by simp)]
    simp only [String.toList_append, String.toList_intercalate, String.toList_ofList, List.map_cons,
      intercalate_cons, List.append_assoc]
    exact hall.punctuation hl

theorem cuts_pretty (v : Value) : ∀ level, Cuts (v.prettyAt level).toList v.reread.tokens := by
  induction v using Value.induct with
  | leaf v hlist htable =>
    intro level
    cases v with
    | null | unreadable =>
      rw [Value.prettyAt, Value.reread, Value.tokens]
      exact cuts_null
    | bool b =>
      rw [Value.prettyAt, Value.reread, Value.tokens]
      cases b with
      | true => exact cuts_true
      | false => exact cuts_false
    | number n =>
      rw [Value.prettyAt, Value.reread, Value.tokens]
      exact cuts_number n
    | text s =>
      rw [Value.prettyAt, Value.reread, Value.tokens]
      exact cuts_quoted s
    | array items => exact absurd rfl (hlist items)
    | object entries => exact absurd rfl (htable entries)
  | list items ih =>
    intro level
    rw [Value.prettyAt, Value.prettyItems_eq_map, Value.reread, Value.tokens]
    refine cuts_block (l := '[') (r := ']') rfl rfl level ?_
    rw [Value.rereadItems_eq_map, Value.itemTokens_eq_map, List.map_map, List.forall₂_map_left_iff,
      List.forall₂_map_right_iff, List.forall₂_same]
    exact fun v hv => ih v hv (level + 1)
  | table entries ih =>
    intro level
    rw [Value.prettyAt, Value.prettyEntries_eq_map, Value.reread, Value.tokens]
    refine cuts_block (l := '\x7b') (r := '\x7d') rfl rfl level ?_
    rw [Value.rereadEntries_eq_map, Value.entryTokens_eq_map, List.map_map,
      List.forall₂_map_left_iff, List.forall₂_map_right_iff, List.forall₂_same]
    intro e he
    rw [String.toList_append, String.toList_append, List.append_assoc]
    refine (cuts_quoted e.1).append (.punctuation rfl (.space rfl (ih e he (level + 1))))
      fun c hc => ?_
    cases hc
    rfl

end Scan

section Read

open Reader

/-- Reading goes on from a state by these tokens to another. -/
def Consumes (s : State) (tokens : List Token) (s' : State) : Prop := tokens.foldlM step s = some s'

variable {s s₁ s₂ : State} {t : Token} {ts ts' : List Token} {stack : List Frame}

theorem Consumes.nil (s : State) : Consumes s [] s := rfl

theorem Consumes.cons (h : step s t = some s₁) (h' : Consumes s₁ ts s₂) :
    Consumes s (t :: ts) s₂ := by
  unfold Consumes
  rw [List.foldlM_cons, h]
  exact h'

theorem Consumes.append (h : Consumes s ts s₁) (h' : Consumes s₁ ts' s₂) :
    Consumes s (ts ++ ts') s₂ := by
  unfold Consumes
  rw [List.foldlM_append, h]
  exact h'

/-- What builds a value up where one may stand. -/
def Builds (ts : List Token) (v : Value) : Prop :=
  ∀ stack expect, expect = .value ∨ expect = .valueOrClose →
    Consumes ⟨stack, expect⟩ ts (place v stack)

theorem consumes_items {items : List Value} (h : ∀ v ∈ items, Builds v.tokens v)
    (done : List Value) :
    Consumes ⟨.array done :: stack, .next⟩ ((items.map Value.tokens).flatMap ([.comma] ++ ·))
      ⟨.array (items.reverse ++ done) :: stack, .next⟩ := by
  induction items generalizing done with
  | nil => exact .nil _
  | cons v items ih =>
    rw [List.map_cons, List.flatMap_cons, List.reverse_cons, List.append_assoc items.reverse]
    have hv : Consumes ⟨.array done :: stack, .value⟩ v.tokens ⟨.array (v :: done) :: stack,
        .next⟩ :=
      h v List.mem_cons_self _ _ (.inl rfl)
    have hfirst : Consumes ⟨.array done :: stack, .next⟩ (.comma :: v.tokens)
        ⟨.array (v :: done) :: stack, .next⟩ :=
      .cons rfl hv
    exact hfirst.append (ih (fun w hw => h w (List.mem_cons_of_mem v hw)) (v :: done))

theorem builds_array {items : List Value} (h : ∀ v ∈ items, Builds v.tokens v) :
    Builds (Value.array items).tokens (.array items) := by
  intro stack expect hexpect
  rw [Value.tokens, Value.itemTokens_eq_map]
  have hopen : step ⟨stack, expect⟩ .openArray = some ⟨.array [] :: stack, .valueOrClose⟩ := by
    rcases hexpect with rfl | rfl <;> rfl
  refine .cons hopen ?_
  cases items with
  | nil => exact .cons rfl (.nil _)
  | cons v items =>
    rw [List.map_cons, intercalate_cons, List.append_assoc]
    have hv : Consumes ⟨.array [] :: stack, .valueOrClose⟩ v.tokens ⟨.array [v] :: stack, .next⟩ :=
      h v List.mem_cons_self _ _ (.inr rfl)
    refine hv.append ((consumes_items (fun w hw => h w (List.mem_cons_of_mem v hw)) [v]).append ?_)
    have hclose : step ⟨.array (items.reverse ++ [v]) :: stack, .next⟩ .closeArray =
        some (place (.array (v :: items)) stack) := by simp [step, closed]
    exact .cons hclose (.nil _)

/-- The entries of an object whose keys are readable. -/
def readEntries (entries : List (String × Value)) : List (Option String × Value) :=
  entries.map fun e => (some e.1, e.2)

theorem closed_readEntries (entries : List (String × Value)) (key : Option String) :
    closed (.object (readEntries entries).reverse key) = .object entries := by
  have hall : entries? (readEntries entries).reverse = some entries := by
    unfold entries? readEntries
    rw [List.reverse_reverse, List.mapM_map]
    induction entries with
    | nil => rfl
    | cons e entries ih =>
      rw [List.mapM_cons, ih]
      rfl
  unfold closed
  dsimp only
  rw [hall]

theorem consumes_entry {e : String × Value} (h : Builds e.2.tokens e.2)
    (done : List (Option String × Value)) {key : Option String} {expect : Expect}
    (hexpect : expect = .key ∨ expect = .keyOrClose) :
    Consumes ⟨.object done key :: stack, expect⟩ (.text (some e.1) :: .colon :: e.2.tokens)
      ⟨.object ((some e.1, e.2) :: done) none :: stack, .next⟩ := by
  have hkey : step ⟨.object done key :: stack, expect⟩ (.text (some e.1)) =
      some ⟨.object done (some e.1) :: stack, .colon⟩ := by
    rcases hexpect with rfl | rfl <;> rfl
  exact .cons hkey (.cons rfl (h _ _ (.inl rfl)))

theorem consumes_entries {entries : List (String × Value)}
    (h : ∀ e ∈ entries, Builds e.2.tokens e.2) (done : List (Option String × Value)) :
    Consumes ⟨.object done none :: stack, .next⟩
      ((entries.map fun e => .text (some e.1) :: .colon :: e.2.tokens).flatMap ([.comma] ++ ·))
      ⟨.object ((readEntries entries).reverse ++ done) none :: stack, .next⟩ := by
  induction entries generalizing done with
  | nil => exact .nil _
  | cons e entries ih =>
    rw [List.map_cons, List.flatMap_cons, readEntries, List.map_cons,
      List.reverse_cons, ← readEntries, List.append_assoc (readEntries entries).reverse]
    have he : Consumes ⟨.object done none :: stack, .key⟩ (.text (some e.1) :: .colon :: e.2.tokens)
        ⟨.object ((some e.1, e.2) :: done) none :: stack, .next⟩ :=
          consumes_entry (h e List.mem_cons_self) done (.inl rfl)
    have hfirst : Consumes ⟨.object done none :: stack, .next⟩
        (.comma :: .text (some e.1) :: .colon :: e.2.tokens)
        ⟨.object ((some e.1, e.2) :: done) none :: stack, .next⟩ := .cons rfl he
    exact hfirst.append (ih (fun e' he => h e' (List.mem_cons_of_mem e he)) _)

theorem builds_object {entries : List (String × Value)} (h : ∀ e ∈ entries, Builds e.2.tokens e.2) :
    Builds (Value.object entries).tokens (.object entries) := by
  intro stack expect hexpect
  rw [Value.tokens, Value.entryTokens_eq_map]
  have hopen : step ⟨stack, expect⟩ .openObject = some ⟨.object [] none :: stack, .keyOrClose⟩ := by
    rcases hexpect with rfl | rfl <;> rfl
  refine .cons hopen ?_
  cases entries with
  | nil => exact .cons rfl (.nil _)
  | cons e entries =>
    rw [List.map_cons, intercalate_cons, List.append_assoc]
    have he : Consumes ⟨.object [] none :: stack, .keyOrClose⟩
        (.text (some e.1) :: .colon :: e.2.tokens) ⟨.object [(some e.1, e.2)] none :: stack,
          .next⟩ := consumes_entry (h e List.mem_cons_self) [] (.inr rfl)
    refine he.append ((consumes_entries (fun e' he => h e' (List.mem_cons_of_mem e he)) _).append
      ?_)
    have hclosed := closed_readEntries (e :: entries) none
    rw [readEntries, List.map_cons, List.reverse_cons, ← readEntries] at hclosed
    have hclose : step ⟨.object ((readEntries entries).reverse ++ [(some e.1, e.2)]) none :: stack,
        .next⟩ .closeObject = some (place (.object (e :: entries)) stack) :=
        congrArg (fun v => some (place v stack)) hclosed
    exact .cons hclose (.nil _)

theorem builds_reread (v : Value) : Builds v.reread.tokens v.reread := by
  induction v using Value.induct with
  | leaf v hlist htable =>
    intro stack expect hexpect
    cases v with
    | null | unreadable | bool | number | text =>
      rw [Value.reread, Value.tokens]
      refine .cons ?_ (.nil _)
      rcases hexpect with rfl | rfl <;> rfl
    | array items => exact absurd rfl (hlist items)
    | object entries => exact absurd rfl (htable entries)
  | list items ih =>
    rw [Value.reread, Value.rereadItems_eq_map]
    exact builds_array (List.forall_mem_map.mpr ih)
  | table entries ih =>
    rw [Value.reread, Value.rereadEntries_eq_map]
    exact builds_object (List.forall_mem_map.mpr ih)

end Read

/-- A value is read from its text as it was, but for its numbers. -/
theorem parse_pretty (v : Value) : parse v.pretty = some v.reread := by
  have hscan := cuts_pretty v 0 [] fun c hc => by cases hc
  have hread := builds_reread v [] .value (.inl rfl)
  unfold parse Value.pretty Reader.read
  rw [List.append_nil, scan, Option.map_some, List.append_nil] at hscan
  rw [hscan]
  simp only [Option.bind_eq_bind, Option.bind_some]
  rw [Reader.start, show List.foldlM _ _ _ = _ from hread]
  rfl

end LayerGraph.Json
