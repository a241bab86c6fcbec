import LayerGraph.Connection
import LayerGraph.Proofs.Text.Blank
import Mathlib.Algebra.Group.Nat.Defs

/-!
# Connection texts

A connection is written as a name, or as a name with an index in parentheses, with blanks around the
name and the index as one likes. The reader accepts these texts and no others, and what it has read
can be read again from its own text.
-/

namespace LayerGraph.Connection

open Text

/-- The characters of a name do not clash with the notation. -/
structure NameChars (cs : List Char) : Prop where
  nonempty : cs ≠ []
  unopened : '(' ∉ cs
  unclosed : ')' ∉ cs
  alone : ',' ∉ cs

/-- The ways to write an index: its decimal digits, also with zeros or a plus sign in front. -/
inductive IndexText : List Char → Nat → Prop
  | digits {sign digits : List Char} (signed : sign = [] ∨ sign = ['+']) (nonempty : digits ≠ [])
    (decimal : ∀ c ∈ digits, c.isDigit = true) (bounded : Nat.ofDigitChars 10 digits 0 < 2 ^ 64) :
    IndexText (sign ++ digits) (Nat.ofDigitChars 10 digits 0)

/-- The ways to write a connection, but for blanks at the ends. -/
inductive Written : List Char → Connection → Prop
  | plain {name : List Char} (named : NameChars (trim name)) :
    Written name ⟨String.ofList (trim name), 0⟩
  | indexed {name before digits behind : List Char} {index : Nat} (named : NameChars (trim name))
    (blank_before : AllBlank before) (written : IndexText digits index)
    (blank_behind : AllBlank behind) :
    Written (name ++ '(' :: (before ++ digits ++ behind ++ [')']))
      ⟨String.ofList (trim name), index⟩

theorem isName_iff {cs : List Char} : isName cs = true ↔ cs ≠ [] ∧ ')' ∉ cs ∧ ',' ∉ cs := by
  simp [isName, and_assoc]

theorem isBlank_of_isDigit {c : Char} (h : c.isDigit = true) : isBlank c = false := by
  have hrange : 48 ≤ c.toNat ∧ c.toNat ≤ 57 := by
    simpa [Char.isDigit, UInt32.le_iff_toNat_le] using h
  have hlow : ¬ c.toNat ≤ 13 := by omega
  have hhigh : ¬ 0x2000 ≤ c.toNat := by omega
  have hne : ∀ k ∈ [0x20, 0x85, 0xA0, 0x1680, 0x2028, 0x2029, 0x202F, 0x205F, 0x3000],
      (c.toNat == k) = false := by
    intro k hk
    simp only [List.mem_cons, List.not_mem_nil, or_false] at hk
    exact beq_eq_false_iff_ne.mpr (by omega)
  simp only [List.forall_mem_cons] at hne
  simp [isBlank, hlow, hhigh, hne]

section Index

variable {cs : List Char} {n : Nat}

theorem IndexText.isTrimmed (h : IndexText cs n) : IsTrimmed cs := by
  obtain @⟨sign, digits, hsign, hne, hdecimal, -⟩ := h
  constructor
  · intro c hc
    rcases hsign with rfl | rfl
    · exact isBlank_of_isDigit (hdecimal c (List.mem_of_mem_head? hc))
    · cases hc
      rfl
  · intro c hc
    rw [List.getLast?_append_of_ne_nil _ hne] at hc
    exact isBlank_of_isDigit (hdecimal c (List.mem_of_getLast? hc))

theorem unsign_digits (h : ∀ c ∈ cs, c.isDigit = true) : unsign cs = cs := by
  unfold unsign
  split
  · exact absurd (h '+' List.mem_cons_self) (by decide)
  · rfl

/-- An index is read exactly from its texts. -/
theorem index?_eq_some_iff : index? cs = some n ↔ IndexText cs n := by
  have hread : ∀ {digits : List Char} {m : Nat},
      (if digits ≠ [] ∧ digits.all Char.isDigit ∧ digitsValue digits < indexBound
        then some (digitsValue digits)
        else none) = some m ↔
      digits ≠ [] ∧ (∀ c ∈ digits, c.isDigit = true) ∧ digitsValue digits < 2 ^ 64 ∧
        digitsValue digits = m := by
    intro digits m
    rw [Option.ite_none_right_eq_some, List.all_eq_true, Option.some.injEq, and_assoc, and_assoc]
    rfl
  unfold index?
  dsimp only
  rw [hread]
  constructor
  · rintro ⟨hne, hdecimal, hbound, rfl⟩
    obtain ⟨sign, hsign, hsplit⟩ : ∃ sign, (sign = [] ∨ sign = ['+']) ∧ sign ++ unsign cs = cs := by
      unfold unsign
      split
      · exact ⟨['+'], .inr rfl, rfl⟩
      · exact ⟨[], .inl rfl, rfl⟩
    have htext : IndexText (sign ++ unsign cs) (digitsValue (unsign cs)) :=
      .digits hsign hne hdecimal hbound
    rwa [hsplit] at htext
  · rintro @⟨sign, digits, hsign, hne, hdecimal, hbound⟩
    have hunsign : unsign (sign ++ digits) = digits := by
      rcases hsign with rfl | rfl
      · exact unsign_digits hdecimal
      · rfl
    rw [hunsign]
    exact ⟨hne, hdecimal, hbound, rfl⟩

end Index

section Split

variable {cs name rest : List Char}

theorem ofTrimmed?_plain (h : '(' ∉ cs) : ofTrimmed? cs = some (cs, 0) := by
  have hdrop : cs.dropWhile (· ≠ '(') = [] := by
    rw [List.dropWhile_eq_nil_iff]
    intro c hc
    simpa using fun hc' : c = '(' => h (hc' ▸ hc)
  rw [ofTrimmed?, hdrop]

theorem ofTrimmed?_indexed (h : '(' ∉ name) : ofTrimmed? (name ++ '(' :: rest) =
    if rest.getLast? = some ')' then (index? (trim rest.dropLast)).map fun index =>
    (trim name, index) else none := by
  have hall : ∀ c ∈ name, decide (c ≠ '(') = true := fun c hc => by
    simpa using fun hc' : c = '(' => h (hc' ▸ hc)
  have hdrop : (name ++ '(' :: rest).dropWhile (· ≠ '(') = '(' :: rest := by
    rw [List.dropWhile_append_of_pos hall]
    exact List.dropWhile_cons_of_neg (by decide)
  have htake : (name ++ '(' :: rest).takeWhile (· ≠ '(') = name := by
    rw [List.takeWhile_append_of_pos hall, List.takeWhile_cons_of_neg (by decide), List.append_nil]
  rw [ofTrimmed?, hdrop, htake]

theorem NameChars.unopened_of_trim (h : NameChars (trim cs)) : '(' ∉ cs := by
  obtain ⟨before, behind, hbefore, hbehind, heq⟩ := exists_blanks_trim cs
  intro hmem
  rw [heq, List.append_assoc, List.mem_append, List.mem_append] at hmem
  rcases hmem with hmem | hmem | hmem
  · exact absurd (hbefore _ hmem) (by decide)
  · exact h.unopened hmem
  · exact absurd (hbehind _ hmem) (by decide)

/-- Taking a text apart finds the name and the index of a connection of which it is a text, if the
name it finds is one. -/
theorem written_iff_ofTrimmed? {c : Connection} (h : IsTrimmed cs) : Written cs c ↔
    ∃ name, ofTrimmed? cs = some (name, c.index) ∧ isName name = true ∧
    c.name = String.ofList name := by
  constructor
  · intro hwritten
    cases hwritten with
    | plain hname =>
      refine ⟨trim cs, ?_, isName_iff.mpr ⟨hname.nonempty, hname.unclosed, hname.alone⟩, rfl⟩
      rw [ofTrimmed?_plain hname.unopened_of_trim, h.trim_eq]
    | @indexed name before digits behind index hname hbefore hindex hbehind =>
      refine ⟨trim name, ?_, isName_iff.mpr ⟨hname.nonempty, hname.unclosed, hname.alone⟩, rfl⟩
      rw [ofTrimmed?_indexed hname.unopened_of_trim, if_pos List.getLast?_concat,
        List.dropLast_concat, trim_append hbefore hbehind, hindex.isTrimmed.trim_eq,
        index?_eq_some_iff.mpr hindex]
      rfl
  · rintro ⟨name, hread, hname, hc⟩
    obtain ⟨hne, hclosed, hcomma⟩ := isName_iff.mp hname
    obtain ⟨text, index⟩ := c
    dsimp only at hread hc
    subst hc
    by_cases hopen : '(' ∈ cs
    · obtain ⟨front, rest, rfl, hfront⟩ := List.eq_append_cons_of_mem hopen
      rw [ofTrimmed?_indexed hfront, Option.ite_none_right_eq_some] at hread
      obtain ⟨hlast, hread⟩ := hread
      obtain ⟨m, hindex, hm⟩ := Option.map_eq_some_iff.mp hread
      cases hm
      obtain ⟨before, behind, hbefore, hbehind, heq⟩ := exists_blanks_trim rest.dropLast
      have hrest : rest = before ++ trim rest.dropLast ++ behind ++ [')'] := by
        rw [← heq]
        exact (List.dropLast_append_getLast? _ hlast).symm
      have hnamed : NameChars (trim front) := by
        refine ⟨hne, fun hmem => ?_, hclosed, hcomma⟩
        obtain ⟨_, _, -, -, hf⟩ := exists_blanks_trim front
        exact hfront (by rw [hf]; simp [hmem])
      rw [hrest]
      exact .indexed hnamed hbefore (index?_eq_some_iff.mp hindex) hbehind
    · rw [ofTrimmed?_plain hopen] at hread
      cases hread
      have hwritten : Written cs ⟨String.ofList (trim cs), 0⟩ :=
        .plain (by rw [h.trim_eq]; exact ⟨hne, hopen, hclosed, hcomma⟩)
      rwa [h.trim_eq] at hwritten

end Split

section Parse

variable {input : String} {c : Connection}

theorem parse_eq_ok_iff : parse input = .ok c ↔ Written (trim input.toList) c := by
  rw [written_iff_ofTrimmed? (isTrimmed_trim _)]
  unfold parse
  dsimp only
  cases hread : ofTrimmed? (trim input.toList) with
  | none => simp
  | some found =>
    obtain ⟨name, index⟩ := found
    dsimp only
    obtain ⟨text, i⟩ := c
    split
    · next hname =>
      constructor
      · intro h
        cases h
        exact ⟨name, rfl, hname, rfl⟩
      · rintro ⟨name', heq, -, rfl⟩
        cases heq
        rfl
    · next hname =>
      constructor
      · intro h
        cases h
      · rintro ⟨name', heq, hname', -⟩
        cases heq
        exact absurd hname' hname

/-- A text that is refused is echoed without the blanks at its ends. -/
theorem parse_eq_error (h : ∀ c, ¬ Written (trim input.toList) c) :
    parse input =
      .error (.misconfigured (.invalidConnection (String.ofList (trim input.toList)))) := by
  cases hparse : parse input with
  | ok c => exact absurd (parse_eq_ok_iff.mp hparse) (h c)
  | error e =>
    unfold parse at hparse
    dsimp only at hparse
    split at hparse
    · split at hparse
      · cases hparse
      · cases hparse
        rfl
    · cases hparse
      rfl

/-- What a connection that can be written is like. -/
theorem Written.sound {cs : List Char} (h : Written cs c) :
    IsTrimmed c.name.toList ∧ NameChars c.name.toList ∧ c.index < 2 ^ 64 := by
  cases h with
  | plain hname =>
    rw [String.toList_ofList]
    exact ⟨isTrimmed_trim _, hname, Nat.two_pow_pos 64⟩
  | indexed hname _ hindex _ =>
    rw [String.toList_ofList]
    exact ⟨isTrimmed_trim _, hname, by obtain ⟨-, -, -, hbound⟩ := hindex; exact hbound⟩

theorem text_of_index_ne_zero (h : c.index ≠ 0) :
    c.text.toList = c.name.toList ++ '(' :: (Nat.toDigits 10 c.index ++ [')']) := by
  rw [text, if_neg h]
  simp only [toString, String.toList_append, Nat.toList_repr, List.append_assoc]
  rfl

theorem indexText_toDigits {n : Nat} (h : n < 2 ^ 64) : IndexText (Nat.toDigits 10 n) n := by
  have hvalue : Nat.ofDigitChars 10 (Nat.toDigits 10 n) 0 = n :=
    Nat.ofDigitChars_toDigits (by decide) (by decide)
  have hwritten : IndexText ([] ++ Nat.toDigits 10 n) (Nat.ofDigitChars 10 (Nat.toDigits 10 n) 0) :=
    .digits (.inl rfl) Nat.toDigits_ne_nil (fun _ hc => Nat.isDigit_of_mem_toDigits
      (by decide) (by decide) hc) (by rwa [hvalue])
  rwa [hvalue] at hwritten

/-- A connection is written by its own text. -/
theorem Written.text {cs : List Char} (h : Written cs c) : Written (trim c.text.toList) c := by
  obtain ⟨htrimmed, hname, hbound⟩ := h.sound
  by_cases hzero : c.index = 0
  · obtain ⟨name, index⟩ := c
    obtain rfl : index = 0 := hzero
    have hplain : Written name.toList ⟨String.ofList (trim name.toList), 0⟩ :=
      .plain (by rwa [htrimmed.trim_eq])
    rw [htrimmed.trim_eq, String.ofList_toList] at hplain
    rwa [Connection.text, if_pos rfl, htrimmed.trim_eq]
  · have htrimmed' : IsTrimmed c.text.toList := by
      rw [text_of_index_ne_zero hzero]
      constructor
      · intro d hd
        rw [List.head?_append_of_ne_nil _ hname.nonempty] at hd
        exact htrimmed.first d hd
      · intro d hd
        rw [List.getLast?_append_of_ne_nil _ (List.cons_ne_nil _ _), ← List.cons_append,
          List.getLast?_concat] at hd
        cases hd
        rfl
    rw [htrimmed'.trim_eq, text_of_index_ne_zero hzero]
    have hindexed : Written (c.name.toList ++ '(' :: ([] ++ Nat.toDigits 10 c.index ++ [] ++ [')']))
        ⟨String.ofList (trim c.name.toList), c.index⟩ :=
      .indexed (by rwa [htrimmed.trim_eq]) (by simp [AllBlank]) (indexText_toDigits hbound)
        (by simp [AllBlank])
    rwa [htrimmed.trim_eq, String.ofList_toList, List.nil_append, List.append_nil] at hindexed

/-- The reader accepts the texts of a connection, refuses all others, and reads back what it has
read. -/
theorem parse_answers (input : String) :
    (∀ c, parse input = .ok c ↔ Written (trim input.toList) c) ∧
      ((∀ c, ¬ Written (trim input.toList) c) →
        parse input =
          .error (.misconfigured (.invalidConnection (String.ofList (trim input.toList))))) ∧
      ∀ c, parse input = .ok c → parse c.text = .ok c :=
  ⟨fun _ => parse_eq_ok_iff, parse_eq_error, fun _ h => parse_eq_ok_iff.mpr
    (parse_eq_ok_iff.mp h).text⟩

theorem parse_answers_padded : parse "\t a b ( +07 )\n" = .ok ⟨"a b", 7⟩ ∧
    parse "a b(7)" = .ok ⟨"a b", 7⟩ := by
  have hread : parse "\t a b ( +07 )\n" = .ok ⟨"a b", 7⟩ := by decide
  exact ⟨hread, (parse_answers _).2.2 _ hread⟩

end Parse

end LayerGraph.Connection
