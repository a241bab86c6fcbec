import LayerGraph.Json.Value

/-!
# Tokens

A text is cut into tokens without regard to how they are nested. An escape for half of a character
outside of the basic plane is correct, but a text with such a half on its own is unreadable.
-/

namespace LayerGraph.Json

inductive Token where
  | openArray
  | closeArray
  | openObject
  | closeObject
  | comma
  | colon
  | null
  | bool (value : Bool)
  | number (value : Number)
  /-- A text, or nothing if it is unreadable. -/
  | text (value : Option String)

namespace Token

def isSpace (c : Char) : Bool := c == ' ' || c == '\t' || c == '\n' || c == '\r'

def digitsValue (cs : List Char) : Nat :=
  cs.foldl (fun n c => 10 * n + (c.toNat - '0'.toNat)) 0

/-- Digits with no zero in front of others. -/
def isWhole : List Char → Bool
  | [] => false
  | [_] => true
  | c :: _ => c != '0'

/-- A fraction, if there is one, and what follows it. -/
def fraction? : List Char → Option (Option (List Char) × List Char)
  | '.' :: cs =>
    let digits := cs.takeWhile Char.isDigit
    if digits.isEmpty then none else some (some digits, cs.dropWhile Char.isDigit)
  | cs => some (none, cs)

def signed : List Char → Bool × List Char
  | '-' :: cs => (true, cs)
  | '+' :: cs => (false, cs)
  | cs => (false, cs)

/-- An exponent, if there is one, up to the end. -/
def exponent? : List Char → Option (Option Int)
  | [] => some none
  | c :: cs =>
    if c == 'e' || c == 'E' then
      let digits := (signed cs).2
      if digits.isEmpty || !digits.all Char.isDigit then none
      else
        let value : Int := digitsValue digits
        some (some (if (signed cs).1 then -value else value))
    else none

def unsigned? (negative : Bool) (cs : List Char) : Option Number := do
  let whole := cs.takeWhile Char.isDigit
  if !isWhole whole then none
  else
    let (fraction, rest) ← fraction? (cs.dropWhile Char.isDigit)
    let exponent ← exponent? rest
    let places := fraction.getD []
    return {
      negative := negative
      mantissa := digitsValue (whole ++ places)
      exponent := exponent.getD 0 - places.length
      isInteger := fraction.isNone && exponent.isNone }

def number? : List Char → Option Number
  | '-' :: cs => unsigned? true cs
  | cs => unsigned? false cs

def isNumberChar (c : Char) : Bool :=
  c.isDigit || c == '-' || c == '+' || c == '.' || c == 'e' || c == 'E'

/-- What stands before the closing quotation mark, and what follows it. -/
def splitText : List Char → Option (List Char × List Char)
  | [] => none
  | '"' :: rest => some ([], rest)
  | '\\' :: c :: rest => (splitText rest).map fun s => ('\\' :: c :: s.1, s.2)
  | c :: rest => (splitText rest).map fun s => (c :: s.1, s.2)

theorem length_splitText {cs body rest : List Char} (h : splitText cs = some (body, rest)) :
    rest.length < cs.length := by
  fun_induction splitText cs generalizing body with
  | case1 => simp at h
  | case2 =>
    simp only [Option.some.injEq, Prod.mk.injEq] at h
    simp [h.2]
  | case3 c tail ih =>
    obtain ⟨⟨b, r⟩, hs, he⟩ := Option.map_eq_some_iff.1 h
    simp only [Prod.mk.injEq] at he
    have := ih (he.2 ▸ hs)
    simp only [List.length_cons]
    omega
  | case4 c tail _ _ ih =>
    obtain ⟨⟨b, r⟩, hs, he⟩ := Option.map_eq_some_iff.1 h
    simp only [Prod.mk.injEq] at he
    have := ih (he.2 ▸ hs)
    simp only [List.length_cons]
    omega

def hexDigit? (c : Char) : Option Nat :=
  if c.isDigit then some (c.toNat - '0'.toNat)
  else if 'a' ≤ c ∧ c ≤ 'f' then some (c.toNat - 'a'.toNat + 10)
  else if 'A' ≤ c ∧ c ≤ 'F' then some (c.toNat - 'A'.toNat + 10)
  else none

def hexValue? (cs : List Char) : Option Nat :=
  cs.foldlM (fun n c => (hexDigit? c).map (16 * n + ·)) 0

/-- The character of a short escape. -/
def shortEscape? (c : Char) : Option Nat :=
  match c with
  | '"' => some 0x22
  | '\\' => some 0x5C
  | '/' => some 0x2F
  | 'b' => some 8
  | 'f' => some 12
  | 'n' => some 10
  | 'r' => some 13
  | 't' => some 9
  | _ => none

/-- The codes that the characters and escapes of a text stand for. Control characters have to be
escaped. -/
def codes? : List Char → Option (List Nat)
  | [] => some []
  | '\\' :: 'u' :: a :: b :: c :: d :: rest => do
    return (← hexValue? [a, b, c, d]) :: (← codes? rest)
  | '\\' :: c :: rest => do return (← shortEscape? c) :: (← codes? rest)
  | c :: rest => if c.toNat < 0x20 then none else (codes? rest).map (c.toNat :: ·)

def isHighHalf (n : Nat) : Bool := 0xD800 ≤ n && n < 0xDC00

def isLowHalf (n : Nat) : Bool := 0xDC00 ≤ n && n < 0xE000

/-- Join halves that belong together; a half on its own is no character. -/
def joinHalves? : List Nat → Option (List Char)
  | [] => some []
  | [n] => if isHighHalf n || isLowHalf n then none else some [Char.ofNat n]
  | n :: m :: rest =>
    if isHighHalf n then
      if isLowHalf m then
        (joinHalves? rest).map (Char.ofNat (0x10000 + (n - 0xD800) * 0x400 + (m - 0xDC00)) :: ·)
      else none
    else if isLowHalf n then none
    else (joinHalves? (m :: rest)).map (Char.ofNat n :: ·)

def ofTextBody? (body : List Char) : Option Token :=
  (codes? body).map fun codes => .text ((joinHalves? codes).map String.ofList)

/-- A word, and what follows it. -/
def word? : List Char → Option (Token × List Char)
  | 'n' :: 'u' :: 'l' :: 'l' :: rest => some (.null, rest)
  | 't' :: 'r' :: 'u' :: 'e' :: rest => some (.bool true, rest)
  | 'f' :: 'a' :: 'l' :: 's' :: 'e' :: rest => some (.bool false, rest)
  | _ => none

theorem length_word {cs rest : List Char} {t : Token} (h : word? cs = some (t, rest)) :
    rest.length < cs.length := by
  unfold word? at h
  split at h <;> simp only [Option.some.injEq, Prod.mk.injEq, reduceCtorEq] at h <;>
    simp only [← h.2, List.length_cons] <;> omega

def punctuation? (c : Char) : Option Token :=
  match c with
  | '[' => some .openArray
  | ']' => some .closeArray
  | '{' => some .openObject
  | '}' => some .closeObject
  | ',' => some .comma
  | ':' => some .colon
  | _ => none

/-- The tokens of a text; none if some part of it is no token. -/
def scan : List Char → Option (List Token)
  | [] => some []
  | c :: cs =>
    if isSpace c then scan cs
    else
      match punctuation? c with
      | some token => (scan cs).map (token :: ·)
      | none =>
        if c == '"' then
          match h : splitText cs with
          | none => none
          | some (body, rest) =>
            have := length_splitText h
            match ofTextBody? body with
            | none => none
            | some token => (scan rest).map (token :: ·)
        else if isNumberChar c then
          match number? (c :: cs.takeWhile isNumberChar) with
          | none => none
          | some n => (scan (cs.dropWhile isNumberChar)).map (.number n :: ·)
        else
          match h : word? (c :: cs) with
          | none => none
          | some (token, rest) =>
            have := length_word h
            (scan rest).map (token :: ·)
termination_by cs => cs.length
decreasing_by
  · simp
  · simp
  · simp only [List.length_cons]; omega
  · have := (List.dropWhile_sublist (l := cs) isNumberChar).length_le
    simp only [List.length_cons]; omega
  · simp only [List.length_cons] at *; omega

end Token

end LayerGraph.Json
