import LayerGraph.Proofs.Lowering.Counted
import LayerGraph.Proofs.Network.Refused
import LayerGraph.Proofs.Description

/-!
# Calls that count in words

A call that counts in words does what it does without a bound on its counts as long as they are
words. Compiling comes to a slot that there can be no room for only through a connection that is
given so, where it would not end well in any case. Filling weights and allocating compare a total
with the limit. If the total is no word, then they stop where overflow is checked, and compare its
rest where it is not.
-/

namespace LayerGraph

variable {α : Type}

namespace Overflow

/-- What a count comes to in words: itself if it is a word, and else a stop or `rest`. -/
inductive Yields (o : Overflow) (exact rest : Nat) : Except Error Nat → Prop where
  | word (h : exact < wordBound) : Yields o exact rest (.ok exact)
  | stop (h : wordBound ≤ exact) (ho : o = .stops) {k : Nat} (hk : wordBound ≤ k) :
    Yields o exact rest (.error (.overflow k))
  | wrap (h : wordBound ≤ exact) (ho : o = .wraps) : Yields o exact rest (.ok rest)

variable {o : Overflow} {j k : Nat} {x y : Except Error Nat}

theorem word_wraps (k : Nat) : wraps.word k = .ok (k % wordBound) := by
  unfold word
  split
  · next h => rw [Nat.mod_eq_of_lt h]
  · rfl

theorem yields_word (o : Overflow) (k : Nat) : o.Yields k (k % wordBound) (o.word k) := by
  unfold word
  split
  · next h => exact .word h
  · next h =>
    cases o with
    | stops => exact .stop (Nat.not_lt.mp h) rfl (Nat.not_lt.mp h)
    | wraps => exact .wrap (Nat.not_lt.mp h) rfl

theorem yields_wraps_iff : wraps.Yields k (k % wordBound) x ↔ x = .ok (k % wordBound) := by
  constructor
  · rintro (h | ⟨_, ho⟩ | ⟨_, _⟩)
    · rw [Nat.mod_eq_of_lt h]
    · cases ho
    · rfl
  · rintro rfl
    exact word_wraps k ▸ yields_word wraps k

/-- Sums of counts are counted as the counts are. -/
theorem Yields.add (hx : o.Yields j (j % wordBound) x) (hy : o.Yields k (k % wordBound) y) :
    o.Yields (j + k) ((j + k) % wordBound) (o.add x y) := by
  cases o with
  | wraps =>
    obtain rfl := yields_wraps_iff.mp hx
    obtain rfl := yields_wraps_iff.mp hy
    rw [yields_wraps_iff, Nat.add_mod]
    exact word_wraps _
  | stops =>
    rcases hx with hj | ⟨hj, -, hover⟩ | ⟨-, ho⟩
    · rcases hy with hk | ⟨hk, -, hover⟩ | ⟨-, ho⟩
      · exact yields_word stops (j + k)
      · exact .stop (hk.trans (Nat.le_add_left k j)) rfl hover
      · cases ho
    · exact .stop (hj.trans (Nat.le_add_right j k)) rfl hover
    · cases ho

/-- How a call ends that needs `exact` elements and compares `rest` with the limit if that is no
word: as without a bound on its counts, with a stop, or well exactly if `rest` is within the
limit. -/
inductive Ends (o : Overflow) (limit? : Option Nat) (exact rest : Nat) {σ : Type}
    (unbounded inWords : EStateM.Result Error σ Unit) : Prop where
  | exact (h : exact < wordBound) (heq : inWords = unbounded)
  | stopped (h : wordBound ≤ exact) (ho : o = .stops) (k : Nat) (hk : wordBound ≤ k) (s : σ)
    (heq : inWords = .error (.overflow k) s)
  | accepted (h : wordBound ≤ exact) (ho : o = .wraps) (hlimit : ∀ limit ∈ limit?, rest ≤ limit)
    (s : σ) (heq : inWords = .ok () s)
  | refused (h : wordBound ≤ exact) (ho : o = .wraps) (limit : Nat) (hlimit : limit? = some limit)
    (hover : limit < rest) (s : σ) (heq : inWords = .error (.resource (.overLimit rest limit)) s)

end Overflow

open LayerGraph.Overflow (Ends)

namespace SlotPlan

end SlotPlan

namespace Store

variable {s : Store α} {o : Overflow} {mode : RunMode}

section Allocate

end Allocate

end Store

section Calls

variable {o : Overflow} {limit? : Option Nat} {exact rest : Nat} {n n' : Network α}

theorem Network.onStore_congr {p q : Action (Store α) Unit} (h : p n.store = q n.store) :
    onStore p n = onStore q n := by
  simp only [onStore, Action.focus, h]

theorem Overflow.Ends.onStore {p q : Action (Store α) Unit}
    (h : Ends o limit? exact rest (p n.store) (q n.store)) :
    Ends o limit? exact rest (Network.onStore p n) (Network.onStore q n) := by
  cases h with
  | exact h heq => exact .exact h (Network.onStore_congr heq)
  | stopped h ho k hk s heq => exact .stopped h ho k hk _ (Action.focus_of_error heq)
  | accepted h ho hlimit s heq => exact .accepted h ho hlimit _ (Action.focus_of_ok heq)
  | refused h ho limit hlimit hover s heq =>
    exact .refused h ho limit hlimit hover _ (Action.focus_of_error heq)

theorem Overflow.Ends.modify {σ : Type} {s : σ} {p q : Action σ Unit} (f : σ → σ)
    (h : Ends o limit? exact rest (p s) (q s)) :
    Ends o limit? exact rest ((p >>= fun _ => modify f) s) ((q >>= fun _ => modify f) s) := by
  cases h with
  | exact h heq => exact .exact h (Action.bind_congr heq _)
  | stopped h ho k hk s heq => exact .stopped h ho k hk _ (Action.bind_of_error heq)
  | accepted h ho hlimit s heq => exact .accepted h ho hlimit _ (Action.bind_of_ok heq)
  | refused h ho limit hlimit hover s heq =>
    exact .refused h ho limit hlimit hover _ (Action.bind_of_error heq)

end Calls

namespace Network

variable {n n' : Network α} {mode : RunMode} {loss : Option String} {o : Overflow}

theorem lowered_of_compile [Zero α] {u : Unit} (h : compile loss n = .ok u n') :
    ∃ u' nodes, Lowering.lower loss n.fusionRules n.graph.nodes = .ok u' nodes := by
  obtain ⟨_, _, _, _, _, _, _, hlower, -⟩ := stages_of_compile h
  obtain ⟨u', hl, -⟩ := lowered_of_lowerNodes hlower
  exact ⟨u', _, hl⟩

end Network

end LayerGraph
