/-!
# Slots for windows of use

Each request is a window of steps, ends included, and a size. A slot may serve several requests
whose windows do not meet. Requests are placed in the order of their windows; a request takes a free
slot where there is one, the smallest that is large enough or else the largest, which then grows.
-/

namespace LayerGraph

structure SlotRequest where
  first : Nat
  last : Nat
  size : Nat
  /-- Such a request shares its slot with no other. -/
  exclusive : Bool
deriving DecidableEq

/-- A slot while requests are being placed; `last` is the last step of its latest occupant. -/
structure OpenSlot where
  last : Nat
  capacity : Nat
  exclusive : Bool
deriving DecidableEq

namespace OpenSlot

def isFreeFor (slot : OpenSlot) (request : SlotRequest) : Bool :=
  !slot.exclusive && slot.last < request.first

def hold (slot : OpenSlot) (request : SlotRequest) : OpenSlot :=
  { slot with last := request.last, capacity := max slot.capacity request.size }

end OpenSlot

/-- The first element that no other element is better than. -/
def firstBest {β : Type} (better : β → β → Bool) : List β → Option β
  | [] => none
  | x :: xs => some (xs.foldl (fun best y => if better y best then y else best) x)

structure SlotPlan where
  /-- The slot of each request. -/
  slotOf : List Nat
  capacities : List Nat
deriving DecidableEq

namespace SlotPlan

def empty : SlotPlan := ⟨[], []⟩

/-- Slots and the requests placed so far, each with its slot. -/
structure Placement where
  slots : List OpenSlot
  placed : List (Nat × Nat)

def reuse? (slots : List OpenSlot) (request : SlotRequest) : Option Nat :=
  let free := slots.zipIdx.filter fun s => s.1.isFreeFor request
  let fitting := free.filter fun s => request.size ≤ s.1.capacity
  match firstBest (fun s t => s.1.capacity < t.1.capacity) fitting with
  | some s => some s.2
  | none => (firstBest (fun s t => t.1.capacity < s.1.capacity) free).map (·.2)

def place (optimize : Bool) (state : Placement) (request : SlotRequest × Nat) : Placement :=
  match if optimize && !request.1.exclusive then reuse? state.slots request.1 else none with
  | some slot =>
    ⟨state.slots.modify slot (·.hold request.1), (request.2, slot) :: state.placed⟩
  | none =>
    ⟨state.slots ++ [⟨request.1.last, request.1.size, request.1.exclusive⟩],
      (request.2, state.slots.length) :: state.placed⟩

/-- By first step, then by last step, then by position. -/
def before (r s : SlotRequest × Nat) : Bool :=
  r.1.first < s.1.first || (r.1.first == s.1.first &&
    (r.1.last < s.1.last || (r.1.last == s.1.last && r.2 ≤ s.2)))

def placeAll (requests : List SlotRequest) (optimize : Bool) : Placement :=
  (requests.zipIdx.mergeSort before).foldl (place optimize) ⟨[], []⟩

def plan (requests : List SlotRequest) (optimize : Bool) : SlotPlan :=
  let state := placeAll requests optimize
  ⟨(List.range requests.length).map fun i => (state.placed.lookup i).getD 0,
    state.slots.map (·.capacity)⟩

def slotCount (p : SlotPlan) : Nat := p.capacities.length

def elements (p : SlotPlan) : Nat := p.capacities.foldr (· + ·) 0

end SlotPlan

end LayerGraph
