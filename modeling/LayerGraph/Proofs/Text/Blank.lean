import LayerGraph.Text.Blank
import Mathlib.Data.List.DropRight

/-!
# What trimming leaves

A text is what trimming leaves of it with blanks around that. So blanks that are put around a text
are taken off again, and a text without blanks at its ends stays as it is.
-/

namespace LayerGraph.Text

def AllBlank (cs : List Char) : Prop := ∀ c ∈ cs, isBlank c = true

/-- No blank stands at either end. -/
structure IsTrimmed (cs : List Char) : Prop where
  first : ∀ c ∈ cs.head?, isBlank c = false
  last : ∀ c ∈ cs.getLast?, isBlank c = false

variable {cs before behind : List Char}

theorem AllBlank.reverse (h : AllBlank cs) : AllBlank cs.reverse :=
  fun c hc => h c (List.mem_reverse.mp hc)

theorem trimStart_append (h : AllBlank before) : trimStart (before ++ cs) = trimStart cs :=
  List.dropWhile_append_of_pos h

theorem trimStart_eq_nil_of_allBlank (h : AllBlank cs) : trimStart cs = [] := by
  rw [trimStart, List.dropWhile_eq_nil_iff]
  exact h

theorem trimEnd_append (h : AllBlank behind) : trimEnd (cs ++ behind) = trimEnd cs := by
  rw [trimEnd, List.reverse_append, List.dropWhile_append_of_pos h.reverse, trimEnd]

/-- Blanks around a text are taken off. -/
theorem trim_append (hbefore : AllBlank before) (hbehind : AllBlank behind) :
    trim (before ++ cs ++ behind) = trim cs := by
  rw [trim, List.append_assoc, trimStart_append hbefore, trim]
  unfold trimStart
  rw [List.dropWhile_append]
  split
  · next hall =>
    rw [List.isEmpty_iff.mp hall]
    exact congrArg trimEnd (trimStart_eq_nil_of_allBlank hbehind)
  · exact trimEnd_append hbehind

theorem trimStart_of_first (h : ∀ c ∈ cs.head?, isBlank c = false) : trimStart cs = cs := by
  cases cs with
  | nil => rfl
  | cons c cs => exact List.dropWhile_cons_of_neg (by simp [h c rfl])

theorem trimEnd_of_last (h : ∀ c ∈ cs.getLast?, isBlank c = false) : trimEnd cs = cs := by
  have hreverse : trimStart cs.reverse = cs.reverse := trimStart_of_first (by simpa using h)
  rw [trimEnd, show cs.reverse.dropWhile isBlank = cs.reverse from hreverse, List.reverse_reverse]

theorem IsTrimmed.trim_eq (h : IsTrimmed cs) : trim cs = cs := by
  rw [trim, trimStart_of_first h.first, trimEnd_of_last h.last]

theorem first_trimStart (cs : List Char) : ∀ c ∈ (trimStart cs).head?, isBlank c = false := by
  intro c hc
  have := List.head?_dropWhile_not isBlank cs
  rw [show cs.dropWhile isBlank = trimStart cs from rfl, Option.mem_def.mp hc] at this
  simpa using this

theorem last_trimEnd (cs : List Char) : ∀ c ∈ (trimEnd cs).getLast?, isBlank c = false := by
  intro c hc
  rw [trimEnd, List.getLast?_reverse] at hc
  exact first_trimStart cs.reverse c hc

theorem exists_blanks_trimStart (cs : List Char) : ∃ before, AllBlank before ∧
    cs = before ++ trimStart cs :=
  ⟨cs.takeWhile isBlank, fun _ hc => List.mem_takeWhile_imp hc,
    List.takeWhile_append_dropWhile.symm⟩

theorem exists_blanks_trimEnd (cs : List Char) : ∃ behind, AllBlank behind ∧
    cs = trimEnd cs ++ behind :=
  ⟨cs.rtakeWhile isBlank, fun _ hc => List.mem_rtakeWhile_imp hc,
    List.rdropWhile_append_rtakeWhile.symm⟩

/-- What trimming leaves has blanks around it, and these only. -/
theorem exists_blanks_trim (cs : List Char) : ∃ before behind,
    AllBlank before ∧ AllBlank behind ∧ cs = before ++ trim cs ++ behind := by
  obtain ⟨before, hbefore, hstart⟩ := exists_blanks_trimStart cs
  obtain ⟨behind, hbehind, hend⟩ := exists_blanks_trimEnd (trimStart cs)
  exact ⟨before, behind, hbefore, hbehind, by rw [List.append_assoc, trim, ← hend, ← hstart]⟩

theorem isTrimmed_trim (cs : List Char) : IsTrimmed (trim cs) := by
  refine ⟨?_, last_trimEnd _⟩
  obtain ⟨behind, -, hend⟩ := exists_blanks_trimEnd (trimStart cs)
  intro c hc
  refine first_trimStart cs c ?_
  rw [hend, List.head?_append, show trimEnd (trimStart cs) = trim cs from rfl, Option.mem_def.mp hc]
  rfl

end LayerGraph.Text
