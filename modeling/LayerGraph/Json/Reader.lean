import LayerGraph.Json.Token

/-!
# Reading

A machine reads tokens one by one. It keeps the arrays and objects that are still open, innermost
first, and what may come next.
-/

namespace LayerGraph.Json.Reader

/-- An open array or object, its items or entries latest first. An unreadable key has no text. -/
inductive Frame where
  | array (items : List Value)
  | object (entries : List (Option String × Value)) (key : Option String)

inductive Expect where
  | value
  | valueOrClose
  | keyOrClose
  | key
  | colon
  /-- A comma or the end of what is open. -/
  | next
  /-- The text is complete. -/
  | nothing (result : Value)

structure State where
  stack : List Frame
  expect : Expect

def start : State := ⟨[], .value⟩

/-- The entries of an object that is closed, in order; none if a key is unreadable. -/
def entries? (entries : List (Option String × Value)) : Option (List (String × Value)) :=
  entries.reverse.mapM fun (key, v) => key.map (·, v)

def closed : Frame → Value
  | .array items => .array items.reverse
  | .object entries _ =>
    match entries? entries with
    | some entries => .object entries
    | none => .unreadable

/-- Put a complete value where it belongs. -/
def place (v : Value) : List Frame → State
  | [] => ⟨[], .nothing v⟩
  | .array items :: stack => ⟨.array (v :: items) :: stack, .next⟩
  | .object entries key :: stack => ⟨.object ((key, v) :: entries) none :: stack, .next⟩

def value (stack : List Frame) : Token → Option State
  | .openArray => some ⟨.array [] :: stack, .valueOrClose⟩
  | .openObject => some ⟨.object [] none :: stack, .keyOrClose⟩
  | .null => some (place .null stack)
  | .bool b => some (place (.bool b) stack)
  | .number n => some (place (.number n) stack)
  | .text (some s) => some (place (.text s) stack)
  | .text none => some (place .unreadable stack)
  | _ => none

/-- A key for the object that is open. -/
def key (s : Option String) : List Frame → Option State
  | .object entries _ :: stack => some ⟨.object entries s :: stack, .colon⟩
  | _ => none

def step (s : State) (t : Token) : Option State :=
  match s.expect, t, s.stack with
  | .value, t, stack => value stack t
  | .valueOrClose, .closeArray, frame :: stack => some (place (closed frame) stack)
  | .valueOrClose, t, stack => value stack t
  | .keyOrClose, .closeObject, frame :: stack => some (place (closed frame) stack)
  | .keyOrClose, .text s, stack => key s stack
  | .key, .text s, stack => key s stack
  | .colon, .colon, stack => some ⟨stack, .value⟩
  | .next, .comma, .array items :: stack => some ⟨.array items :: stack, .value⟩
  | .next, .comma, .object entries key :: stack => some ⟨.object entries key :: stack, .key⟩
  | .next, .closeArray, .array items :: stack => some (place (closed (.array items)) stack)
  | .next, .closeObject, .object entries key :: stack =>
    some (place (closed (.object entries key)) stack)
  | _, _, _ => none

def read (tokens : List Token) : Option Value :=
  match tokens.foldlM step start with
  | some ⟨_, .nothing v⟩ => some v
  | _ => none

end Reader

/-- The value that a text is written for. -/
def parse (text : String) : Option Value := do Reader.read (← Token.scan text.toList)

end LayerGraph.Json
