import LayerGraph.Json.Value

/-!
# Printing

A value is written on one line without blanks, or over several lines with two blanks for each level.
-/

namespace LayerGraph.Json

/-- How many decimal places stand at most before the point, and how many zeros at most after it,
before a number is written with an exponent. -/
structure NumberStyle where
  whole : Int
  zeros : Int

/-- Up to 13 digits before the point, up to five zeros behind it. -/
def numberStyle : NumberStyle := ⟨13, 5⟩

/-- The digits of a number, with the point behind the first `place` of them. -/
def fixedText (digits : String) (place : Int) : String :=
  if place ≤ 0 then "0." ++ String.ofList (List.replicate (-place).toNat '0') ++ digits
  else if digits.length ≤ place.toNat then
    digits ++ String.ofList (List.replicate (place.toNat - digits.length) '0') ++ ".0"
  else
    String.ofList (digits.toList.take place.toNat) ++ "." ++
      String.ofList (digits.toList.drop place.toNat)

/-- The first digit, the point and the others, and a power of ten with its sign. -/
def scientificText (digits : String) (place : Int) : String :=
  let point := if digits.length = 1 then "" else "."
  let sign := if place - 1 < 0 then "-" else "+"
  String.ofList (digits.toList.take 1) ++ point ++ String.ofList (digits.toList.drop 1) ++ "e" ++
    sign ++ toString (place - 1).natAbs

def unsignedText (n : Number) : String :=
  let digits := toString n.mantissa
  if n.isInteger then digits
  else
    let place := if n.mantissa = 0 then 1 else digits.length + n.exponent
    if -numberStyle.zeros ≤ place ∧ place ≤ numberStyle.whole then fixedText digits place
    else scientificText digits place

def Number.text (n : Number) : String := (if n.negative then "-" else "") ++ unsignedText n

def hexChar (n : Nat) : Char :=
  if n < 10 then Char.ofNat ('0'.toNat + n) else Char.ofNat ('a'.toNat + n - 10)

/-- Quotation marks, backslashes and control characters are escaped, and nothing else. -/
def escape (c : Char) : List Char :=
  if c == '"' then ['\\', '"']
  else if c == '\\' then ['\\', '\\']
  else if c.toNat = 8 then ['\\', 'b']
  else if c.toNat = 9 then ['\\', 't']
  else if c.toNat = 10 then ['\\', 'n']
  else if c.toNat = 12 then ['\\', 'f']
  else if c.toNat = 13 then ['\\', 'r']
  else if c.toNat < 0x20 then
    ['\\', 'u', '0', '0', hexChar (c.toNat / 16), hexChar (c.toNat % 16)]
  else [c]

def quoted (s : String) : String := "\"" ++ String.ofList (s.toList.flatMap escape) ++ "\""

namespace Value

mutual

def compact : Value → String
  | null | unreadable => "null"
  | bool b => if b then "true" else "false"
  | number n => n.text
  | text s => quoted s
  | array items => "[" ++ ",".intercalate (compactItems items) ++ "]"
  | object entries => "\x7b" ++ ",".intercalate (compactEntries entries) ++ "\x7d"

def compactItems : List Value → List String
  | [] => []
  | v :: rest => compact v :: compactItems rest

def compactEntries : List (String × Value) → List String
  | [] => []
  | (key, v) :: rest => (quoted key ++ ":" ++ compact v) :: compactEntries rest

end

def newLine (level : Nat) : String := "\n" ++ String.ofList (List.replicate (2 * level) ' ')

/-- Parts on lines of their own between two brackets; without parts the brackets meet. -/
def block (left right : String) (level : Nat) (parts : List String) : String :=
  if parts.isEmpty then left ++ right
  else
    left ++ newLine (level + 1) ++ ("," ++ newLine (level + 1)).intercalate parts ++
      newLine level ++ right

mutual

def prettyAt (level : Nat) : Value → String
  | null | unreadable => "null"
  | bool b => if b then "true" else "false"
  | number n => n.text
  | text s => quoted s
  | array items => block "[" "]" level (prettyItems (level + 1) items)
  | object entries => block "\x7b" "\x7d" level (prettyEntries (level + 1) entries)

def prettyItems (level : Nat) : List Value → List String
  | [] => []
  | v :: rest => prettyAt level v :: prettyItems level rest

def prettyEntries (level : Nat) : List (String × Value) → List String
  | [] => []
  | (key, v) :: rest => (quoted key ++ ": " ++ prettyAt level v) :: prettyEntries level rest

end

def pretty (v : Value) : String := prettyAt 0 v

end Value

end LayerGraph.Json
