import Monotype.Proofs.Segment

namespace Monotype

/-!
# Lines and places

Lines are what line feeds separate, and places are counted in line feeds.  So the place behind a part
of a text names the line in which that part ends and the column at which the rest of the line begins.
Lines without line feeds can be joined and are then the lines of the whole.
-/

namespace Text

theorem lines_nil : lines [] = [[]] :=
  rfl

theorem lines_feed (text : Text) : lines (CodeUnit.ofChar '\n' :: text) = [] :: lines text := by
  rw [lines, splitOn, if_pos rfl, lines]

theorem lines_cons {u : CodeUnit} (other : u ≠ '\n') (text : Text) : exists line rest,
    lines text = line :: rest ∧ lines (u :: text) = (u :: line) :: rest := by
  rw [lines, lines, splitOn, if_neg other]
  cases shape : splitOn '\n' text with
  | nil => exact absurd shape (splitOn_ne_nil _ text)
  | cons line rest => exact ⟨line, rest, rfl, rfl⟩

/-- Lines are split as the library splits lists. -/
theorem lines_eq_splitOn (text : Text) : lines text = List.splitOn (CodeUnit.ofChar '\n') text := by
  induction text with
  | nil => rw [lines_nil, List.splitOn_nil]
  | cons u rest ih =>
      rw [List.splitOn_cons_eq_if_modifyHead, ← ih]
      by_cases newLine : u = '\n'
      · rw [newLine, lines_feed, if_pos (beq_self_eq_true _)]
      · rcases lines_cons newLine rest with ⟨line, others, before, after⟩
        rw [if_neg (fun same => newLine (eq_of_beq same)), before, after, List.modifyHead_cons]

/-- A line feed ends the lines before it. -/
theorem lines_append_feed (front rest : Text) :
    lines (front ++ CodeUnit.ofChar '\n' :: rest) = lines front ++ lines rest := by
  simp only [lines_eq_splitOn]
  exact List.splitOn_append_cons_self front rest

/-- Lines that are joined are found again. -/
theorem lines_unlines {parts : List Text} (more : parts ≠ [])
    (oneLine : forall part, part ∈ parts -> CodeUnit.ofChar '\n' ∉ part) :
    lines (unlines parts) = parts := by
  rw [lines_eq_splitOn]
  exact List.splitOn_intercalate _ oneLine more

theorem length_lines (text : Text) : (lines text).length = text.count (CodeUnit.ofChar '\n') + 1 := by
  induction text with
  | nil => rfl
  | cons u rest ih =>
      by_cases newLine : u = '\n'
      · rw [newLine, lines_feed, List.length_cons, ih, List.count_cons_self]
      · rcases lines_cons newLine rest with ⟨line, others, before, after⟩
        rw [after, List.count_cons_of_ne newLine, ← ih, before, List.length_cons, List.length_cons]

theorem head?_lines (text : Text) :
    (lines text).head? = some (text.takeWhile (fun u => u ≠ CodeUnit.ofChar '\n')) := by
  induction text with
  | nil => rfl
  | cons u rest ih =>
      by_cases newLine : u = '\n'
      · rw [newLine, lines_feed]
        rfl
      · rcases lines_cons newLine rest with ⟨line, others, before, after⟩
        rw [before, List.head?_cons, Option.some.injEq] at ih
        rw [after, List.head?_cons, List.takeWhile_cons, if_pos (decide_eq_true newLine), ← ih]

/-- No line holds a line feed. -/
theorem not_mem_of_mem_lines {text line : Text} (listed : line ∈ lines text) :
    CodeUnit.ofChar '\n' ∉ line := by
  induction text generalizing line with
  | nil =>
      rw [List.mem_singleton.mp listed]
      exact List.not_mem_nil
  | cons u rest ih =>
      by_cases newLine : u = '\n'
      · rw [newLine, lines_feed] at listed
        rcases List.mem_cons.mp listed with rfl | later
        · exact List.not_mem_nil
        · exact ih later
      · rcases lines_cons newLine rest with ⟨first, others, before, after⟩
        rw [before] at ih
        rw [after] at listed
        rcases List.mem_cons.mp listed with rfl | later
        · rw [List.mem_cons, not_or]
          exact ⟨fun same => newLine same.symm, ih List.mem_cons_self⟩
        · exact ih (List.mem_cons_of_mem first later)

/-- The place behind a part of a text names its line and the column where the rest begins.  The
induction is on the end of that part, where one more unit is counted. -/
theorem exists_line_behind (front back : Text) :
    exists index line, (Position.behind front).line = index + 1 ∧
      (lines (front ++ back))[index]? = some line ∧
      line.drop (Position.behind front).column = back.takeWhile (fun u => u ≠ CodeUnit.ofChar '\n') := by
  induction front using List.reverseRecOn generalizing back with
  | nil =>
      refine ⟨0, _, rfl, ?_, rfl⟩
      rw [← List.head?_eq_getElem?]
      exact head?_lines back
  | append_singleton front u ih =>
      have next : Position.behind (front ++ [u]) = (Position.behind front).step u := by
        rw [← Position.after_start, Position.after_append, Position.after_start]
        rfl
      rw [List.append_assoc, List.singleton_append, next, Position.step]
      by_cases newLine : u = '\n'
      · have behind : (Position.behind front).line + 1 = (lines front).length + 1 := by
          rw [length_lines, Position.behind, Nat.add_comm 1]
        rw [if_pos newLine, newLine, lines_append_feed]
        refine ⟨(lines front).length, _, behind, ?_, rfl⟩
        rw [List.getElem?_append_right (Nat.le_refl _), Nat.sub_self, ← List.head?_eq_getElem?]
        exact head?_lines back
      · rcases ih (u :: back) with ⟨index, line, isIndex, isLine, rest⟩
        rw [if_neg newLine]
        refine ⟨index, line, isIndex, isLine, ?_⟩
        rw [List.takeWhile_cons, if_pos (decide_eq_true newLine)] at rest
        rw [← List.drop_drop, rest, List.drop_one, List.tail_cons]

end Text

end Monotype
