import LayerGraph.Error

/-!
# Actions

An action reads and changes a state and may fail. What it changed before it failed stays changed.
-/

namespace LayerGraph

abbrev Action (σ β : Type) := EStateM Error σ β

namespace Action

variable {σ ρ β : Type}

def read (f : σ → Except Error β) : Action σ β := fun s =>
  match f s with
  | .ok b => .ok b s
  | .error e => .error e s

/-- The state stays as it is if the change fails. -/
def update (f : σ → Except Error σ) : Action σ Unit := fun s =>
  match f s with
  | .ok s' => .ok () s'
  | .error e => .error e s

/-- Run an action on a part of the state. -/
def focus (part : σ → ρ) (replace : ρ → σ → σ) (p : Action ρ β) : Action σ β := fun s =>
  match p (part s) with
  | .ok b r => .ok b (replace r s)
  | .error e r => .error e (replace r s)

/-- Run an action that has a state of its own besides. -/
def carrying {τ : Type} (own : τ) (p : Action (τ × σ) β) : Action σ (β × τ) := fun s =>
  match p (own, s) with
  | .ok b r => .ok (b, r.1) r.2
  | .error e r => .error e r.2

end Action

end LayerGraph
