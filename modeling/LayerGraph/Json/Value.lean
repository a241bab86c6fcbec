import LayerGraph.Decimal.Double

/-!
# JSON values

A value keeps what a reader of descriptions has to tell apart: the order and repetition of keys, and
whether a number was written as an integer.
-/

namespace LayerGraph.Json

/-- The number `mantissa * 10 ^ exponent`, negated if so marked. -/
structure Number where
  negative : Bool
  mantissa : Nat
  exponent : Int
  /-- Written without a fraction and without an exponent. -/
  isInteger : Bool
deriving DecidableEq

inductive Value where
  | null
  | bool (value : Bool)
  | number (value : Number)
  | text (value : String)
  | array (items : List Value)
  | object (entries : List (String × Value))
  /-- Correctly written, but with an escape in it that stands for no character. -/
  | unreadable

namespace Number

def ofNat (n : Nat) : Number := ⟨false, n, 0, true⟩

/-- Whether a number is an integer of 64 bits, signed or not. Zero with a sign is not. -/
def isWord (n : Number) : Bool :=
  n.isInteger &&
    if n.negative then 0 < n.mantissa && n.mantissa ≤ Nat.pow 2 63 else n.mantissa < Nat.pow 2 64

/-- What the number without its sign is read as in double precision. -/
def double? (n : Number) : Option Decimal.Double :=
  Decimal.Double.ofDecimal? n.mantissa n.exponent

/-- Whether the number is an integer of 64 bits or is read as a finite one. -/
def isBounded (n : Number) : Bool := n.isWord || n.double?.isSome

end Number

namespace Value

mutual

/-- Nothing in the value is unreadable, its numbers are bounded, and it nests at most the given
number of levels. -/
def isSound (levels : Nat) : Value → Bool
  | null | bool _ | text _ => true
  | number n => n.isBounded
  | unreadable => false
  | array items => levels != 0 && areSound (levels - 1) items
  | object entries => levels != 0 && haveSound (levels - 1) entries

def areSound (levels : Nat) : List Value → Bool
  | [] => true
  | v :: rest => isSound levels v && areSound levels rest

def haveSound (levels : Nat) : List (String × Value) → Bool
  | [] => true
  | (_, v) :: rest => isSound levels v && haveSound levels rest

end

/-- The number of levels a text may nest where its values are looked at. -/
def maxLevels : Nat := 127

def ofBool (b : Bool) : Value := bool b

def ofNat (n : Nat) : Value := number (.ofNat n)

/-- `null` in place of a missing value. -/
def ofOption {β : Type} (f : β → Value) : Option β → Value
  | none => null
  | some b => f b

def ofList {β : Type} (f : β → Value) (xs : List β) : Value := array (xs.map f)

/-- The latest value under a key of an object. -/
def field? (v : Value) (key : String) : Option Value :=
  match v with
  | object entries => entries.reverse.lookup key
  | _ => none

/-- All values under a key, in order. -/
def fields (entries : List (String × Value)) (key : String) : List Value :=
  (entries.filter (·.1 == key)).map (·.2)

/-- The value under a key that may be missing but not be repeated. -/
def optional? (entries : List (String × Value)) (key : String) : Option (Option Value) :=
  match fields entries key with
  | [] => some none
  | [v] => some (some v)
  | _ => none

/-- The value under a key that has to be there once. -/
def required? (entries : List (String × Value)) (key : String) : Option Value :=
  match fields entries key with
  | [v] => some v
  | _ => none

def toText? : Value → Option String
  | text s => some s
  | _ => none

def toBool? : Value → Option Bool
  | bool b => some b
  | _ => none

/-- A number below `2 ^ 64` that is written as an integer without a sign. -/
def toNat? : Value → Option Nat
  | number n =>
    if n.isInteger && !n.negative && n.mantissa < Nat.pow 2 64 then some n.mantissa else none
  | _ => none

def toList? : Value → Option (List Value)
  | array items => some items
  | _ => none

/-- A missing value may be written as `null`. -/
def toOption? {β : Type} (f : Value → Option β) : Value → Option (Option β)
  | null => some none
  | v => (f v).map some

/-- The names of an enumeration: a text, or an object with the text as its only key and `null`. -/
def toName? : Value → Option String
  | text s => some s
  | object [(key, null)] => some key
  | _ => none

end Value

end LayerGraph.Json
