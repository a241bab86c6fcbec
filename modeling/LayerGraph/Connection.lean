import LayerGraph.Error
import LayerGraph.Text.Blank

/-!
# Connections

A connection names one slot of a node, `name` for slot 0 and `name(index)` for the others. It stands
for a producer's output slot where a node lists what it reads, and for a reader's input position
where a node lists who reads it.
-/

namespace LayerGraph

structure Connection where
  name : String
  index : Nat
deriving DecidableEq

namespace Connection

/-- Slot indices are below this bound. -/
def indexBound : Nat := Nat.pow 2 64

/-- The value of a row of decimal digits. -/
def digitsValue (cs : List Char) : Nat :=
  cs.foldl (fun n c => 10 * n + (c.toNat - '0'.toNat)) 0

def unsign : List Char → List Char
  | '+' :: cs => cs
  | cs => cs

/-- One or more digits, with or without a plus sign in front, whose value is below the bound. -/
def index? (cs : List Char) : Option Nat :=
  let digits := unsign cs
  if digits ≠ [] ∧ digits.all Char.isDigit ∧ digitsValue digits < indexBound then
    some (digitsValue digits)
  else none

/-- A name and an index from a text without blanks at its ends. -/
def ofTrimmed? (cs : List Char) : Option (List Char × Nat) :=
  match cs.dropWhile (· ≠ '(') with
  | [] => some (cs, 0)
  | _ :: rest =>
    if rest.getLast? = some ')' then
      (index? (Text.trim rest.dropLast)).map fun index =>
        (Text.trim (cs.takeWhile (· ≠ '(')), index)
    else none

/-- A name has a character, and none that the notation uses itself. -/
def isName (cs : List Char) : Bool :=
  !cs.isEmpty && !cs.contains ')' && !cs.contains ','

def parse (text : String) : Except Error Connection :=
  let cs := Text.trim text.toList
  match ofTrimmed? cs with
  | some (name, index) =>
    if isName name then .ok ⟨String.ofList name, index⟩
    else .error (.misconfigured (.invalidConnection (String.ofList cs)))
  | none => .error (.misconfigured (.invalidConnection (String.ofList cs)))

def text (c : Connection) : String :=
  if c.index = 0 then c.name else s!"{c.name}({c.index})"

end Connection

end LayerGraph
