import LayerGraph.Json.Printer
import LayerGraph.Json.Token
import Mathlib.Tactic.Common

/-!
# What is printed is scanned

The text of a value is cut into the tokens of the value, whatever follows it, unless that could be
more digits of a number. A text that is escaped is read back as it was.
-/

namespace LayerGraph.Json

/-- What follows a number does not go on with it. -/
def Ends (rest : List Char) : Prop := ∀ c ∈ rest.head?, Token.isNumberChar c = false

/-- Scanning begins with these tokens, and goes on with what follows them. -/
def Cuts (cs : List Char) (tokens : List Token) : Prop :=
  ∀ rest, Ends rest → Token.scan (cs ++ rest) = (Token.scan rest).map (tokens ++ ·)

section Cuts

open Token

variable {c : Char} {cs cs' : List Char} {t : Token} {ts ts' : List Token}

theorem Ends.append (h : Ends cs) (h' : Ends cs') : Ends (cs ++ cs') := by
  cases cs with
  | nil => exact h'
  | cons c cs => exact h

theorem cuts_nil : Cuts [] [] := fun rest _ => by simp

theorem Cuts.append (h : Cuts cs ts) (h' : Cuts cs' ts') (he : Ends cs') :
    Cuts (cs ++ cs') (ts ++ ts') := by
  intro rest hrest
  rw [List.append_assoc, h _ (he.append hrest), h' rest hrest, Option.map_map]
  refine congrArg (Option.map · _) (funext fun tokens => ?_)
  exact (List.append_assoc ..).symm

theorem Cuts.space (hc : isSpace c = true) (h : Cuts cs ts) : Cuts (c :: cs) ts := by
  intro rest hrest
  rw [List.cons_append, scan, if_pos hc]
  exact h rest hrest

theorem Cuts.spaces {spaces : List Char} (hs : ∀ c ∈ spaces, isSpace c = true) (h : Cuts cs ts) :
    Cuts (spaces ++ cs) ts := by
  induction spaces with
  | nil => exact h
  | cons c spaces ih =>
    exact .space (hs c List.mem_cons_self) (ih fun c hc => hs c (List.mem_cons_of_mem _ hc))

theorem isSpace_of_punctuation (hc : punctuation? c = some t) : isSpace c = false := by
  unfold punctuation? at hc
  split at hc <;> first | rfl | cases hc

theorem Cuts.punctuation (hc : punctuation? c = some t) (h : Cuts cs ts) :
    Cuts (c :: cs) (t :: ts) := by
  intro rest hrest
  rw [List.cons_append, scan, if_neg (by simp [isSpace_of_punctuation hc]), hc]
  dsimp only
  rw [h rest hrest, Option.map_map]
  rfl

theorem cuts_null : Cuts ['n', 'u', 'l', 'l'] [.null] := by
  intro rest _
  rw [List.cons_append, scan]
  rfl

theorem cuts_true : Cuts ['t', 'r', 'u', 'e'] [.bool true] := by
  intro rest _
  rw [List.cons_append, scan]
  rfl

theorem cuts_false : Cuts ['f', 'a', 'l', 's', 'e'] [.bool false] := by
  intro rest _
  rw [List.cons_append, scan]
  rfl

end Cuts

section Text

open Token

/-- A character as it is escaped: itself, or a short escape, or its code. -/
theorem escape_cases (c : Char) :
    (escape c = [c] ∧ c ≠ '"' ∧ c ≠ '\\' ∧ 0x20 ≤ c.toNat) ∨
      (∃ e, escape c = ['\\', e] ∧ e ≠ 'u' ∧ shortEscape? e = some c.toNat) ∨
        (escape c = ['\\', 'u', '0', '0', hexChar (c.toNat / 16), hexChar (c.toNat % 16)] ∧
          c.toNat < 0x20) := by
  unfold escape
  split
  · next h =>
    obtain rfl := beq_iff_eq.mp h
    exact .inr (.inl ⟨'"', rfl, by decide, rfl⟩)
  · next hquote =>
    split
    · next h =>
      obtain rfl := beq_iff_eq.mp h
      exact .inr (.inl ⟨'\\', rfl, by decide, rfl⟩)
    · next hslash =>
      split
      · next h => exact .inr (.inl ⟨'b', rfl, by decide, h ▸ rfl⟩)
      split
      · next h => exact .inr (.inl ⟨'t', rfl, by decide, h ▸ rfl⟩)
      split
      · next h => exact .inr (.inl ⟨'n', rfl, by decide, h ▸ rfl⟩)
      split
      · next h => exact .inr (.inl ⟨'f', rfl, by decide, h ▸ rfl⟩)
      split
      · next h => exact .inr (.inl ⟨'r', rfl, by decide, h ▸ rfl⟩)
      split
      · next h => exact .inr (.inr ⟨rfl, h⟩)
      · next h => exact .inl ⟨rfl, by simpa using hquote, by simpa using hslash, Nat.not_lt.mp h⟩

theorem hexChar_plain : ∀ n < 16, hexChar n ≠ '"' ∧ hexChar n ≠ '\\' := by decide

theorem hexValue?_hexChar : ∀ m < 16, ∀ n < 16, hexValue? ['0', '0', hexChar m, hexChar n] =
    some (16 * m + n) := by
  decide

/-- An escaped character does not end the text. -/
theorem splitText_escape (c : Char) (rest : List Char) :
    splitText (escape c ++ rest) = (splitText rest).map fun s => (escape c ++ s.1, s.2) := by
  have hplain : ∀ {c} rest, c ≠ '"' → c ≠ '\\' → splitText (c :: rest) = (splitText rest).map
      fun s => (c :: s.1, s.2) :=
    fun rest hquote hslash => by simp [splitText, hslash]
  rcases escape_cases c with ⟨h, hquote, hslash, -⟩ | ⟨e, h, -⟩ | ⟨h, hlt⟩
  · rw [h]
    exact hplain rest hquote hslash
  · rw [h]
    exact splitText.eq_3 ..
  · rw [h]
    have hhigh := hexChar_plain (c.toNat / 16) (by omega)
    have hlow := hexChar_plain (c.toNat % 16) (by omega)
    simp [splitText, hplain, hhigh, hlow, Function.comp_def]

theorem splitText_quoted (cs rest : List Char) :
    splitText (cs.flatMap escape ++ '"' :: rest) = some (cs.flatMap escape, rest) := by
  induction cs with
  | nil => rfl
  | cons c cs ih => rw [List.flatMap_cons, List.append_assoc, splitText_escape, ih, Option.map_some]

/-- An escaped character stands for its code. -/
theorem codes?_escape (c : Char) (rest : List Char) :
    codes? (escape c ++ rest) = (codes? rest).map (c.toNat :: ·) := by
  rcases escape_cases c with ⟨h, -, hslash, hle⟩ | ⟨e, h, hu, he⟩ | ⟨h, hlt⟩
  · rw [h]
    simp [codes?, hslash, Nat.not_lt.mpr hle]
  · rw [h]
    simp only [codes?, he, hu, List.cons_append, List.nil_append, forall_const, false_implies]
    cases codes? rest <;> rfl
  · rw [h]
    have hcode := hexValue?_hexChar (c.toNat / 16) (by omega) (c.toNat % 16) (by omega)
    rw [Nat.div_add_mod] at hcode
    simp only [codes?, hcode, List.cons_append, List.nil_append]
    cases codes? rest <;> rfl

theorem codes?_flatMap_escape (cs : List Char) :
    codes? (cs.flatMap escape) = some (cs.map Char.toNat) := by
  induction cs with
  | nil => rfl
  | cons c cs ih =>
    rw [List.flatMap_cons, codes?_escape, ih]
    rfl

/-- No character is a half of another. -/
theorem isHalf_toNat (c : Char) : isHighHalf c.toNat = false ∧ isLowHalf c.toNat = false := by
  unfold isHighHalf isLowHalf
  have hvalid : c.toNat < 0xD800 ∨ 0xDFFF < c.toNat ∧ c.toNat < 0x110000 := c.valid
  simp only [Bool.and_eq_false_iff, decide_eq_false_iff_not]
  omega

theorem joinHalves?_toNat (cs : List Char) : joinHalves? (cs.map Char.toNat) = some cs := by
  induction cs with
  | nil => rfl
  | cons c cs ih =>
    obtain ⟨hhigh, hlow⟩ := isHalf_toNat c
    cases cs with
    | nil => simp [joinHalves?, hhigh, hlow]
    | cons d cs =>
      rw [List.map_cons, List.map_cons, joinHalves?, hhigh, hlow, ← List.map_cons, ih]
      simp

theorem ofTextBody?_escape (cs : List Char) :
    ofTextBody? (cs.flatMap escape) = some (.text (some (String.ofList cs))) := by
  unfold ofTextBody?
  rw [codes?_flatMap_escape, Option.map_some, joinHalves?_toNat]
  rfl

theorem cuts_quoted (s : String) : Cuts (quoted s).toList [.text (some s)] := by
  intro rest _
  have htext : (quoted s).toList ++ rest = '"' :: (s.toList.flatMap escape ++ '"' :: rest) := by
    simp [quoted]
  rw [htext, scan, if_neg (by decide), show punctuation? '"' = none from rfl]
  dsimp only
  rw [if_pos (by decide)]
  split
  · next h =>
    rw [splitText_quoted] at h
    cases h
  · next h =>
    rw [splitText_quoted] at h
    cases h
    rw [ofTextBody?_escape, String.ofList_toList]
    rfl

end Text

section Number

open Token

/-- The part of a number behind its point. -/
inductive IsFraction : List Char → Prop where
  | none : IsFraction []
  | some {ds : List Char} (ne : ds ≠ []) (digits : ∀ c ∈ ds, c.isDigit = true) : IsFraction
      ('.' :: ds)

inductive IsExponent : List Char → Prop where
  | none : IsExponent []
  | some {sign : Char} {ds : List Char} (hsign : sign = '+' ∨ sign = '-') (ne : ds ≠ [])
      (digits : ∀ c ∈ ds, c.isDigit = true) : IsExponent ('e' :: sign :: ds)

/-- How a number is written without its sign. -/
inductive IsNumeral : List Char → Prop where
  | mk {whole fraction exponent : List Char} (first : isWhole whole = true) (digits : ∀ c ∈ whole,
      c.isDigit = true) (hfraction : IsFraction fraction) (hexponent : IsExponent exponent) :
      IsNumeral (whole ++ (fraction ++ exponent))

/-- What digits end at. -/
def EndsDigits (rest : List Char) : Prop := ∀ c ∈ rest.head?, c.isDigit = false

variable {ds cs rest : List Char}

theorem takeWhile_digits (hd : ∀ c ∈ ds, c.isDigit = true) (hrest : EndsDigits rest) :
    (ds ++ rest).takeWhile Char.isDigit = ds ∧ (ds ++ rest).dropWhile Char.isDigit = rest := by
  rw [List.takeWhile_append_of_pos hd, List.dropWhile_append_of_pos hd]
  cases rest with
  | nil => exact ⟨List.append_nil ds, rfl⟩
  | cons c rest =>
    have hc : c.isDigit = false := hrest c rfl
    rw [List.takeWhile_cons_of_neg (by simp [hc]), List.dropWhile_cons_of_neg (by simp [hc])]
    exact ⟨List.append_nil ds, rfl⟩

theorem IsExponent.endsDigits (h : IsExponent cs) : EndsDigits cs := by
  cases h with
  | none => exact fun c hc => by cases hc
  | some => exact fun c hc => by cases hc; rfl

theorem IsExponent.exists_exponent? (h : IsExponent cs) : ∃ e, exponent? cs = .some e := by
  cases h with
  | none => exact ⟨_, rfl⟩
  | @some sign ds hsign ne digits =>
    have hsigned : (signed (sign :: ds)).2 = ds := by
      rcases hsign with rfl | rfl <;> rfl
    have hds : (ds.isEmpty || !ds.all Char.isDigit) = false := by
      simpa [ne] using digits
    rw [exponent?, if_pos (by decide)]
    dsimp only
    rw [hsigned, hds]
    exact ⟨_, rfl⟩

theorem IsFraction.exists_fraction? (h : IsFraction cs) (hrest : IsExponent rest) :
    ∃ f, fraction? (cs ++ rest) = .some (f, rest) := by
  cases h with
  | none =>
    cases hrest with
    | none => exact ⟨_, rfl⟩
    | some => exact ⟨_, rfl⟩
  | @some ds ne digits =>
    obtain ⟨htake, hdrop⟩ := takeWhile_digits digits hrest.endsDigits
    rw [List.cons_append, fraction?, htake, hdrop, if_neg (by simpa using ne)]
    exact ⟨_, rfl⟩

theorem IsFraction.endsDigits (h : IsFraction cs) (hrest : IsExponent rest) :
    EndsDigits (cs ++ rest) := by
  cases h with
  | none => exact hrest.endsDigits
  | some => exact fun c hc => by cases hc; rfl

/-- A numeral can be read. -/
theorem IsNumeral.exists_unsigned? (h : IsNumeral cs) (negative : Bool) :
    ∃ n, unsigned? negative cs = some n := by
  obtain ⟨hwhole, hdigits, hf, he⟩ := h
  obtain ⟨htake, hdrop⟩ := takeWhile_digits hdigits (hf.endsDigits he)
  obtain ⟨f, hf⟩ := hf.exists_fraction? he
  obtain ⟨e, he⟩ := he.exists_exponent?
  unfold unsigned?
  dsimp only
  rw [htake, hdrop, hwhole, if_neg (by decide), hf]
  simp only [Option.bind_eq_bind, Option.bind_some, he]
  exact ⟨_, rfl⟩

theorem isNumberChar_of_isDigit {c : Char} (h : c.isDigit = true) : isNumberChar c = true := by
  simp [isNumberChar, h]

theorem IsNumeral.isNumberChar (h : IsNumeral cs) : ∀ c ∈ cs, isNumberChar c = true := by
  obtain ⟨-, hdigits, hf, he⟩ := h
  have hall : ∀ {ds : List Char}, (∀ c ∈ ds, c.isDigit = true) → ∀ c ∈ ds,
      Token.isNumberChar c = true :=
    fun hd c hc => isNumberChar_of_isDigit (hd c hc)
  simp only [List.forall_mem_append]
  refine ⟨hall hdigits, ?_, ?_⟩
  · cases hf with
    | none => simp
    | some ne digits => exact List.forall_mem_cons.mpr ⟨by decide, hall digits⟩
  · cases he with
    | none => simp
    | some hsign ne digits =>
      refine List.forall_mem_cons.mpr ⟨by decide, List.forall_mem_cons.mpr ⟨?_, hall digits⟩⟩
      rcases hsign with rfl | rfl <;> decide

theorem IsNumeral.head (h : IsNumeral cs) : ∃ c rest, cs = c :: rest ∧ c.isDigit = true := by
  obtain @⟨whole, _, _, hwhole, hdigits, -, -⟩ := h
  cases whole with
  | nil => cases hwhole
  | cons c whole => exact ⟨c, _, rfl, hdigits c List.mem_cons_self⟩

theorem isDigit_toDigits (m : Nat) : ∀ c ∈ Nat.toDigits 10 m, c.isDigit = true := fun _ hc =>
  Nat.isDigit_of_mem_toDigits (by decide) (by decide) hc

theorem head_toDigits {m : Nat} (h : 0 < m) : ∃ c cs, Nat.toDigits 10 m = c :: cs ∧ c ≠ '0' := by
  induction m using Nat.strongRecOn with
  | ind m ih =>
    by_cases hlt : m < 10
    · refine ⟨m.digitChar, [], Nat.toDigits_of_lt_base hlt, ?_⟩
      have hall : ∀ m < 10, 0 < m → m.digitChar ≠ '0' := by decide
      exact hall m hlt h
    · obtain ⟨c, cs, hcs, hc⟩ := ih (m / 10) (by omega) (by omega)
      rw [Nat.toDigits_of_base_le (by decide) (Nat.not_lt.mp hlt), hcs]
      exact ⟨c, _, rfl, hc⟩

theorem isWhole_cons {c : Char} (hc : c ≠ '0') (cs : List Char) : isWhole (c :: cs) = true := by
  cases cs with
  | nil => rfl
  | cons d cs => exact bne_iff_ne.mpr hc

theorem isWhole_toDigits (m : Nat) : isWhole (Nat.toDigits 10 m) = true := by
  by_cases h : 0 < m
  · obtain ⟨c, cs, hcs, hc⟩ := head_toDigits h
    rw [hcs]
    exact isWhole_cons hc cs
  · obtain rfl := Nat.eq_zero_of_not_pos h
    rfl

theorem isNumeral_toDigits (m : Nat) : IsNumeral (Nat.toDigits 10 m) := by
  have h := IsNumeral.mk (isWhole_toDigits m) (isDigit_toDigits m) .none .none
  rwa [List.append_nil, List.append_nil] at h

theorem isDigit_zeros (k : Nat) : ∀ c ∈ List.replicate k '0', c.isDigit = true := by
  intro c hc
  rw [(List.mem_replicate.mp hc).2]
  rfl

theorem isWhole_toDigits_append {m : Nat} (h : 0 < m) (ds : List Char) :
    isWhole (Nat.toDigits 10 m ++ ds) = true := by
  obtain ⟨c, cs, hcs, hc⟩ := head_toDigits h
  rw [hcs]
  exact isWhole_cons hc _

/-- Digits with a point in them, or with zeros in front of them or behind. -/
theorem isNumeral_fixedText {m : Nat} {place : Int} (hm : m = 0 → place = 1) :
    IsNumeral (fixedText (toString m) place).toList := by
  have hdigits : (toString m).toList = Nat.toDigits 10 m := Nat.toList_repr
  have hlength : (toString m).length = (Nat.toDigits 10 m).length := by
    rw [← String.length_toList, hdigits]
  have hdot : IsFraction ['.', '0'] := .some (by simp) (by simp)
  unfold fixedText
  by_cases hle : place ≤ 0
  · have hfraction : IsFraction ('.' :: (List.replicate (-place).toNat '0' ++ Nat.toDigits 10 m)) :=
      .some (by simp [Nat.toDigits_ne_nil]) (List.forall_mem_append.mpr ⟨isDigit_zeros _,
          isDigit_toDigits m⟩)
    have hzero : isWhole ['0'] = true := rfl
    rw [if_pos hle]
    simpa using IsNumeral.mk hzero (by simp) hfraction .none
  rw [if_neg hle, hlength]
  by_cases hlen : (Nat.toDigits 10 m).length ≤ place.toNat
  · rw [if_pos hlen]
    have hwhole : isWhole (Nat.toDigits 10 m ++ List.replicate
        (place.toNat - (Nat.toDigits 10 m).length) '0') = true := by
      rcases Nat.eq_zero_or_pos m with rfl | hpos
      · rw [hm rfl]
        rfl
      · exact isWhole_toDigits_append hpos _
    have hall := List.forall_mem_append.mpr ⟨isDigit_toDigits m,
      isDigit_zeros (place.toNat - (Nat.toDigits 10 m).length)⟩
    simpa using IsNumeral.mk hwhole hall hdot .none
  · rw [if_neg hlen]
    have hpos : 0 < m := by
      refine Nat.pos_of_ne_zero ?_
      rintro rfl
      rw [hm rfl] at hlen
      exact hlen (Nat.le_refl 1)
    have hwhole : isWhole ((Nat.toDigits 10 m).take place.toNat) = true := by
      obtain ⟨c, cs, hcs, hc⟩ := head_toDigits hpos
      obtain ⟨k, hk⟩ : ∃ k, place.toNat = k + 1 := ⟨place.toNat - 1, by omega⟩
      rw [hcs, hk, List.take_succ_cons]
      exact isWhole_cons hc _
    have hfraction : IsFraction ('.' :: (Nat.toDigits 10 m).drop place.toNat) := by
      refine .some ?_ fun c hc => isDigit_toDigits m c (List.mem_of_mem_drop hc)
      rw [ne_eq, List.drop_eq_nil_iff]
      exact hlen
    simpa using IsNumeral.mk hwhole (fun c hc => isDigit_toDigits m c (List.mem_of_mem_take hc))
      hfraction .none

theorem isNumeral_scientificText (m : Nat) (place : Int) :
    IsNumeral (scientificText (toString m) place).toList := by
  have hdigits : (toString m).toList = Nat.toDigits 10 m := Nat.toList_repr
  have hlength : (toString m).length = (Nat.toDigits 10 m).length := by
    rw [← String.length_toList, hdigits]
  have hexponent : ∀ sign : Char, sign = '+' ∨ sign = '-' →
      IsExponent ('e' :: sign :: Nat.toDigits 10 (place - 1).natAbs) := fun sign hsign =>
    .some hsign Nat.toDigits_ne_nil (isDigit_toDigits _)
  have hall := isDigit_toDigits m
  obtain ⟨c, cs, hcs⟩ := List.exists_cons_of_ne_nil (Nat.toDigits_ne_nil (n := m) (b := 10))
  rw [hcs] at hall
  have hc : ∀ d ∈ [c], d.isDigit = true := by simpa using hall c List.mem_cons_self
  have hfraction : IsFraction (if cs = [] then [] else '.' :: cs) := by
    by_cases hnil : cs = []
    · rw [if_pos hnil]
      exact .none
    · rw [if_neg hnil]
      exact .some hnil fun d hd => hall d (List.mem_cons_of_mem c hd)
  have hone : isWhole [c] = true := rfl
  have h := fun sign hsign => IsNumeral.mk hone hc hfraction (hexponent sign hsign)
  unfold scientificText
  dsimp only
  rw [hlength, hcs]
  by_cases hnil : cs = [] <;> by_cases hneg : place - 1 < 0
  · simpa [hcs, hnil, hneg] using h '-' (.inr rfl)
  · simpa [hcs, hnil, hneg] using h '+' (.inl rfl)
  · simpa [hcs, hnil, hneg] using h '-' (.inr rfl)
  · simpa [hcs, hnil, hneg] using h '+' (.inl rfl)

theorem isNumeral_unsignedText (n : Number) : IsNumeral (unsignedText n).toList := by
  unfold unsignedText
  dsimp only
  by_cases hint : n.isInteger = true
  · rw [if_pos hint, show (toString n.mantissa).toList = _ from Nat.toList_repr]
    exact isNumeral_toDigits n.mantissa
  rw [if_neg hint]
  generalize hplace : (if n.mantissa = 0 then 1 else ((toString n.mantissa).length : Int) +
    n.exponent) = place
  by_cases hfixed : -numberStyle.zeros ≤ place ∧ place ≤ numberStyle.whole
  · rw [if_pos hfixed]
    exact isNumeral_fixedText fun h => by rw [← hplace, if_pos h]
  · rw [if_neg hfixed]
    exact isNumeral_scientificText ..

/-- Whatever number is written can be read. -/
theorem exists_number? (n : Number) : ∃ m, number? n.text.toList = some m := by
  have h := isNumeral_unsignedText n
  unfold Number.text
  cases n.negative with
  | true =>
    obtain ⟨m, hm⟩ := h.exists_unsigned? true
    refine ⟨m, ?_⟩
    rw [if_pos rfl, String.toList_append]
    exact hm
  | false =>
    obtain ⟨m, hm⟩ := h.exists_unsigned? false
    obtain ⟨c, rest, hcs, hc⟩ := h.head
    refine ⟨m, ?_⟩
    have hminus : c ≠ '-' := by
      rintro rfl
      cases hc
    rw [hcs] at hm
    rw [if_neg Bool.false_ne_true, String.toList_append, hcs, ← hm]
    simp [number?, hminus]

/-- A number as it is read from its text. -/
def Number.reread (n : Number) : Number := (number? n.text.toList).getD n

theorem number?_text (n : Number) : number? n.text.toList = some n.reread := by
  obtain ⟨m, hm⟩ := exists_number? n
  rw [Number.reread, hm]
  rfl

theorem isNumberChar_text (n : Number) : ∀ c ∈ n.text.toList, isNumberChar c = true := by
  have h := (isNumeral_unsignedText n).isNumberChar
  unfold Number.text
  rw [String.toList_append]
  refine List.forall_mem_append.mpr ⟨?_, h⟩
  cases n.negative <;> simp [isNumberChar]

theorem not_isNumberChar_of_isSpace {c : Char} (h : isSpace c = true) : isNumberChar c = false := by
  simp only [isSpace, Bool.or_eq_true, beq_iff_eq] at h
  rcases h with ((rfl | rfl) | rfl) | rfl <;> rfl

theorem not_isNumberChar_of_punctuation {c : Char} {t : Token} (h : punctuation? c = some t) :
    isNumberChar c = false := by
  unfold punctuation? at h
  split at h <;> first | rfl | cases h

theorem cuts_number (n : Number) : Cuts n.text.toList [.number n.reread] := by
  intro rest hrest
  have hchars := isNumberChar_text n
  have hread := number?_text n
  cases htext : n.text.toList with
  | nil =>
    rw [htext] at hread
    cases hread
  | cons c cs =>
    rw [htext] at hchars hread
    have hc := hchars c List.mem_cons_self
    have hcs : ∀ d ∈ cs, isNumberChar d = true := fun d hd => hchars d (List.mem_cons_of_mem c hd)
    have hspace : isSpace c ≠ true := fun h => by simp [not_isNumberChar_of_isSpace h] at hc
    have hpunctuation : punctuation? c = none := by
      cases hp : punctuation? c with
      | none => rfl
      | some t => simp [not_isNumberChar_of_punctuation hp] at hc
    have hquote : ¬ (c == '"') = true := by
      intro h
      obtain rfl := beq_iff_eq.mp h
      cases hc
    have hsplit : (cs ++ rest).takeWhile isNumberChar = cs ∧ (cs ++ rest).dropWhile isNumberChar =
        rest := by
      rw [List.takeWhile_append_of_pos hcs, List.dropWhile_append_of_pos hcs]
      cases rest with
      | nil => exact ⟨List.append_nil cs, rfl⟩
      | cons d rest =>
        have hd : isNumberChar d = false := hrest d rfl
        rw [List.takeWhile_cons_of_neg (by simp [hd]), List.dropWhile_cons_of_neg (by simp [hd])]
        exact ⟨List.append_nil cs, rfl⟩
    rw [List.cons_append, scan, if_neg hspace, hpunctuation]
    dsimp only
    rw [if_neg hquote, if_pos hc, hsplit.1, hsplit.2, hread]
    rfl

theorem digitsValue_toDigits (k : Nat) : digitsValue (Nat.toDigits 10 k) = k :=
  Nat.ofDigitChars_toDigits (by decide) (by decide)

/-- Natural numbers are read as they were. -/
theorem reread_ofNat (k : Nat) : (Number.ofNat k).reread = Number.ofNat k := by
  have htext : (Number.ofNat k).text.toList = Nat.toDigits 10 k := by
    rw [Number.text, Number.ofNat, unsignedText, if_neg Bool.false_ne_true, if_pos rfl,
      String.toList_append]
    exact Nat.toList_repr
  have hread := number?_text (Number.ofNat k)
  have hminus : ∀ cs, Nat.toDigits 10 k ≠ '-' :: cs := by
    intro cs hcs
    have := isDigit_toDigits k '-' (by simp [hcs])
    cases this
  obtain ⟨htake, hdrop⟩ := takeWhile_digits (isDigit_toDigits k) IsExponent.none.endsDigits
  rw [List.append_nil] at htake hdrop
  have hunsigned : unsigned? false (Nat.toDigits 10 k) = some (Number.ofNat k) := by
    unfold unsigned?
    dsimp only
    rw [htake, hdrop, isWhole_toDigits, if_neg (by decide)]
    simp [fraction?, exponent?, digitsValue_toDigits, Number.ofNat]
  rw [htext, number?.eq_2 _ hminus, hunsigned, Option.some.injEq] at hread
  exact hread.symm

end Number

end LayerGraph.Json
