import Mathlib.Tactic

/-!
# Texts and their lines

A list that is split at a separator, such as a text at its newlines: the first line and the
rest, and the number of lines.
-/

namespace GrapheneLtp.Lines

variable {α : Type*} [DecidableEq α] {stop : α}

theorem splitOn_line {line : List α} (hline : stop ∉ line) (rest : List α) :
    (line ++ stop :: rest).splitOn stop = line :: rest.splitOn stop :=
  List.splitOnP_append_cons_of_forall_mem
    (fun _ hc => beq_false_of_ne (ne_of_mem_of_not_mem hc hline)) stop (beq_self_eq_true stop) rest

theorem splitOn_last {line : List α} (hline : stop ∉ line) : line.splitOn stop = [line] :=
  List.splitOnP_eq_singleton fun _ hc => beq_false_of_ne (ne_of_mem_of_not_mem hc hline)

/-- A text is a line and what follows it. -/
theorem line_cases (stop : α) (text : List α) : ∃ line tail, text = line ++ tail ∧ stop ∉ line ∧
    (tail = [] ∨ ∃ rest, tail = stop :: rest) := by
  by_cases hstop : stop ∈ text
  · obtain ⟨line, rest, rfl, hline⟩ := List.eq_append_cons_of_mem hstop
    exact ⟨line, _, rfl, hline, .inr ⟨rest, rfl⟩⟩
  · exact ⟨text, [], by simp, hstop, .inl rfl⟩

/-- Induction over the lines of a text. -/
@[elab_as_elim]
theorem line_induction (stop : α) {motive : List α → Prop}
    (last : ∀ line, stop ∉ line → motive line)
    (next : ∀ line rest, stop ∉ line → motive rest → motive (line ++ stop :: rest))
    (text : List α) : motive text := by
  induction hlength : text.length using Nat.strong_induction_on generalizing text with
  | _ length ih =>
    obtain ⟨line, tail, rfl, hline, rfl | ⟨rest, rfl⟩⟩ := line_cases stop text
    · rw [List.append_nil]
      exact last line hline
    · refine next line rest hline (ih rest.length ?_ rest rfl)
      rw [← hlength, List.length_append, List.length_cons]
      omega

theorem length_splitOn (stop : α) (text : List α) :
    (text.splitOn stop).length = text.count stop + 1 := by
  induction text using line_induction stop with
  | last line hline =>
    rw [splitOn_last hline, List.count_eq_zero.mpr hline]
    rfl
  | next line rest hline ih =>
    rw [splitOn_line hline, List.length_cons, ih, List.count_append, List.count_cons_self,
      List.count_eq_zero.mpr hline, Nat.zero_add]

theorem mem_of_mem_splitOn {text line : List α} (hline : line ∈ text.splitOn stop) {c : α}
    (hc : c ∈ line) : c ∈ text := by
  induction text using line_induction stop with
  | last text htext =>
    rw [splitOn_last htext, List.mem_singleton] at hline
    exact hline ▸ hc
  | next front rest hfront ih =>
    rw [splitOn_line hfront, List.mem_cons] at hline
    rcases hline with rfl | hline
    · exact List.mem_append_left _ hc
    · exact List.mem_append_right _ (List.mem_cons_of_mem _ (ih hline))

end GrapheneLtp.Lines
