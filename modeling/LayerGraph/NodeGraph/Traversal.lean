/-!
# Traversal

Depth-first search on the nodes `0, ..., n - 1`, with a stack in place of recursion. A node is fresh
until it is put on the stack, and finished once all nodes after it are; a node that is neither is on
the stack, so meeting it again closes a cycle. Every step takes a node from the fresh ones or a
child from the stack, which is why the search ends.
-/

namespace LayerGraph.Traversal

/-- What is fresh and, latest first, what is finished. -/
structure Progress where
  fresh : List Nat
  finished : List Nat

/-- Empty the stack, whose frames are nodes with the children still to be looked at. Fails with the
node that closes a cycle. -/
def explore (next : Nat → List Nat) (fresh finished : List Nat) :
    List (Nat × List Nat) → Except Nat Progress
  | [] => .ok ⟨fresh, finished⟩
  | (node, []) :: stack => explore next fresh (node :: finished) stack
  | (node, child :: rest) :: stack =>
    if child ∈ fresh then
      explore next (fresh.erase child) finished
        ((child, (next child).reverse) :: (node, rest) :: stack)
    else if child ∈ finished then explore next fresh finished ((node, rest) :: stack)
    else .error child
termination_by stack => (fresh.length, stack.foldr (fun frame n => frame.2.length + 1 + n) 0)
decreasing_by
  · exact Prod.Lex.right _ (by simp)
  · exact Prod.Lex.left _ _ (by
      have := List.length_pos_of_mem ‹child ∈ fresh›
      rw [List.length_erase_of_mem ‹child ∈ fresh›]
      omega)
  · exact Prod.Lex.right _ (by simp)

/-- Search from a node unless it has been met. -/
def exploreFrom (next : Nat → List Nat) (progress : Progress) (start : Nat) :
    Except Nat Progress :=
  if start ∈ progress.fresh then
    explore next (progress.fresh.erase start) progress.finished [(start, (next start).reverse)]
  else .ok progress

/-- All nodes, each before those that come after it. Starts and children are taken last to first, so
that nodes between which there is no path keep their order. -/
def order (next : Nat → List Nat) (n : Nat) : Except Nat (List Nat) := do
  return (← (List.range n).reverse.foldlM (exploreFrom next) ⟨List.range n, []⟩).finished

/-- The fresh nodes that cannot be reached from the queue. -/
def unreached (next : Nat → List Nat) (fresh : List Nat) : List Nat → List Nat
  | [] => fresh
  | node :: queue =>
    if node ∈ fresh then unreached next (fresh.erase node) (next node ++ queue)
    else unreached next fresh queue
termination_by queue => (fresh.length, queue.length)
decreasing_by
  · exact Prod.Lex.left _ _ (by
      have := List.length_pos_of_mem ‹node ∈ fresh›
      rw [List.length_erase_of_mem ‹node ∈ fresh›]
      omega)
  · exact Prod.Lex.right _ (by simp)

end LayerGraph.Traversal
