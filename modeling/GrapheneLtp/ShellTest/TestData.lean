import Mathlib.Data.List.DropRight
import GrapheneLtp.Core.Fields
import GrapheneLtp.Core.Lines

/-!
# The data of a shell test

A model of the loop of `_tst_run_iterations` that cuts `TST_TEST_DATA` into fields.  The
fields are cut out of the text, but they are counted in what `echo` prints for the text
without quotes: the shell splits it into words there, and `echo` puts one blank between
them.  The shell is the one that has only the option `-n` for its `echo`.
-/

namespace GrapheneLtp.TestData

open Fields Lines

section Code

/-- The characters at which the shell splits words. -/
def isIfs (c : Char) : Bool := c ∈ [' ', '\t', '\n']

/-- The words of a text without quotes, when it has no characters for patterns. -/
def words (text : List Char) : List (List Char) := strtok isIfs text

/-- The option that leaves out the newline. -/
def dashN : List Char := ['-', 'n']

/-- What `echo` prints for its arguments. -/
def echo : List (List Char) → List Char
  | [] => ['\n']
  | first :: rest =>
    if first = dashN then List.intercalate [' '] rest
    else List.intercalate [' '] (first :: rest) ++ ['\n']

/-- `tr -cd`, for a set of one character. -/
def trKeep (c : Char) (stream : List Char) : List Char := stream.filter fun d => d == c

/-- The lines of a stream, of which the last one may have no newline. -/
def streamLines (stream : List Char) : List (List Char) :=
  let pieces := stream.splitOn '\n'
  if pieces.getLast? = some [] then pieces.dropLast else pieces

/-- `cut -d -f`, for one field: a line without the delimiter is printed as it is.  With a
newline as the delimiter the lines are the fields. -/
def cut (delim : Char) (field : ℕ) (stream : List Char) : List Char :=
  if stream = [] then []
  else if delim = '\n' then ((streamLines stream)[field - 1]?).getD [] ++ ['\n']
  else (streamLines stream).flatMap fun line =>
    (if delim ∈ line then ((line.splitOn delim)[field - 1]?).getD [] else line) ++ ['\n']

/-- The value of a command substitution: newlines at the end are left out. -/
def substituted (output : List Char) : List Char := output.rdropWhile fun c => c == '\n'

/-- The variable `_tst_max`. -/
def tstMax (testData : List Char) (ifs : Char) : ℕ :=
  (trKeep ifs (echo (words testData))).length + 1

/-- The variable `_tst_data` in one turn of the loop. -/
def tstData (testData : List Char) (ifs : Char) (j : ℕ) : List Char :=
  substituted (cut ifs j (echo [testData]))

/-- The first argument of each call of `_tst_run_tests` in one iteration.  Without data
there is no argument, and `$1` is empty. -/
def runTestsCalls (testData : List Char) (ifs : Char) : List (List Char) :=
  if testData ≠ [] then (List.range (tstMax testData ifs)).map fun j => tstData testData ifs (j + 1)
  else [[]]

end Code

section Words

variable {isSeparator : Char → Bool}

/-- How often a character occurs in the pieces of a text. -/
theorem sum_count_splitOnP (c : Char) (text : List Char) :
    ((text.splitOnP isSeparator).map fun piece => piece.count c).sum =
      if isSeparator c then 0 else text.count c := by
  induction text with
  | nil => simp
  | cons first text ih =>
    rw [List.splitOnP_cons_eq_if_modifyHead]
    split_ifs with hfirst hc hc
    · simpa [hc] using ih
    · have hne : first ≠ c := fun h => hc (h ▸ hfirst)
      simpa [hc, hne] using ih
    all_goals
      obtain ⟨piece, pieces, hsplit⟩ := List.exists_cons_of_ne_nil
        (List.splitOnP_ne_nil isSeparator text)
      rw [hsplit] at ih ⊢
      simp only [List.modifyHead_cons, List.map_cons, List.sum_cons, List.count_cons] at ih ⊢
    · have hne : first ≠ c := fun h => hfirst (h ▸ hc)
      simpa [hc, hne] using ih
    · simp only [hc, Bool.false_eq_true, if_false] at ih
      omega

/-- Empty pieces have no characters. -/
theorem sum_count_words (c : Char) (text : List Char) :
    ((words text).map fun word => word.count c).sum = if isIfs c then 0 else text.count c := by
  rw [← sum_count_splitOnP, words, strtok]
  induction text.splitOnP isIfs with
  | nil => rfl
  | cons piece pieces ih =>
    by_cases hempty : piece = []
    · simpa [hempty] using ih
    · rw [List.filter_cons_of_pos (by simpa using hempty)]
      simpa using ih

theorem count_intercalate (c : Char) (pieces : List (List Char)) :
    (List.intercalate [' '] pieces).count c =
      (pieces.map fun piece => piece.count c).sum + if c = ' ' then pieces.length - 1 else 0 := by
  induction pieces with
  | nil => simp
  | cons piece pieces ih =>
    cases pieces with
    | nil => simp
    | cons next pieces =>
      rw [List.intercalate_cons_cons, List.count_append, List.count_append, ih]
      have hblank : [' '].count c = if c = ' ' then 1 else 0 := by
        by_cases hc : c = ' ' <;> simp [hc, eq_comm]
      rw [hblank]
      simp only [List.map_cons, List.sum_cons, List.length_cons]
      split_ifs <;> omega

end Words

section Meaning

/-- A text without newlines and without the characters that the shell or `echo` replace
by something else. -/
structure Plain (text : List Char) : Prop where
  newline : '\n' ∉ text
  pattern : ∀ c ∈ ['*', '?', '['], c ∉ text
  backslash : '\\' ∉ text

/-- The first word is taken for the option. -/
def OptionFirst (text : List Char) : Prop := (words text).head? = some dashN

instance (text : List Char) : Decidable (OptionFirst text) :=
  inferInstanceAs (Decidable (_ = _))

/-- The words that are printed. -/
def printed (text : List Char) : List (List Char) :=
  if OptionFirst text then (words text).tail else words text

/-- The delimiters are all counted, and nothing else is: a newline behind the words is
left out only by the option, tabs are not printed, blanks are printed between the words
only, and the option is not printed. -/
def Counted (text : List Char) (delim : Char) : Prop :=
  if delim = '\n' then OptionFirst text
  else if delim = '\t' then '\t' ∉ text
  else if delim = ' ' then text.count ' ' = (printed text).length - 1
  else ¬(OptionFirst text ∧ (delim = '-' ∨ delim = 'n'))

/-- The texts for which the loop is right. -/
def Agrees (text : List Char) (delim : Char) : Prop :=
  text = [] ∨ (text ≠ dashN ∧ Counted text delim)

end Meaning

section Counting

variable {text : List Char} {delim : Char}

theorem optionFirst_nil (hwords : words text = []) : ¬OptionFirst text := by
  simp [OptionFirst, hwords]

theorem optionFirst_cons {first : List Char} {rest : List (List Char)}
    (hwords : words text = first :: rest) : OptionFirst text ↔ first = dashN := by
  simp [OptionFirst, hwords]

theorem echo_words (text : List Char) : echo (words text) =
    List.intercalate [' '] (printed text) ++ if OptionFirst text then [] else ['\n'] := by
  rw [printed]
  cases hwords : words text with
  | nil => simp [echo, optionFirst_nil hwords]
  | cons first rest =>
    by_cases hfirst : first = dashN
    · simp [echo, optionFirst_cons hwords, hfirst]
    · simp [echo, optionFirst_cons hwords, hfirst]

theorem length_trKeep (stream : List Char) : (trKeep delim stream).length = stream.count delim := by
  rw [trKeep, ← List.countP_eq_length_filter]
  rfl

/-- The characters of the words that are printed. -/
theorem sum_count_printed (text : List Char) (c : Char) :
    ((printed text).map fun word => word.count c).sum +
      (if OptionFirst text then dashN.count c else 0) = if isIfs c then 0 else text.count c := by
  rw [← sum_count_words, printed]
  cases hwords : words text with
  | nil => simp [optionFirst_nil hwords]
  | cons first rest =>
    by_cases hfirst : first = dashN
    · simp [optionFirst_cons hwords, hfirst, Nat.add_comm]
    · simp [optionFirst_cons hwords, hfirst]

theorem tstMax_eq (text : List Char) (delim : Char) : tstMax text delim =
    ((printed text).map fun word => word.count delim).sum +
      (if delim = ' ' then (printed text).length - 1 else 0) +
        (if delim = '\n' ∧ ¬OptionFirst text then 1 else 0) + 1 := by
  rw [tstMax, length_trKeep, echo_words, List.count_append, count_intercalate]
  by_cases hoption : OptionFirst text
  · simp [hoption]
  · by_cases hdelim : delim = '\n'
    · simp [hoption, hdelim]
    · simp [hoption, hdelim, eq_comm]

theorem count_dashN (c : Char) : dashN.count c = 0 ↔ ¬(c = '-' ∨ c = 'n') := by
  rw [List.count_eq_zero]
  simp [dashN, not_or]

/-- The number of turns is the number of fields. -/
theorem tstMax_eq_iff (hnewline : '\n' ∉ text) :
    tstMax text delim = text.count delim + 1 ↔ Counted text delim := by
  have hsum := sum_count_printed text delim
  have hblank (hifs : isIfs delim = true) :
      ((printed text).map fun word => word.count delim).sum = 0 := by
    rw [if_pos hifs] at hsum
    omega
  rw [tstMax_eq, Counted]
  by_cases hn : delim = '\n'
  · have hzero : text.count delim = 0 := List.count_eq_zero.mpr (hn ▸ hnewline)
    have hne : delim ≠ ' ' := by simp [hn]
    rw [if_pos hn, hblank (by simp [isIfs, hn]), hzero, if_neg hne]
    by_cases hoption : OptionFirst text
    · simp [hoption]
    · simp [hoption, hn]
  have hno : ¬(delim = '\n' ∧ ¬OptionFirst text) := fun h => hn h.1
  rw [if_neg hn, if_neg hno]
  by_cases ht : delim = '\t'
  · have hne : delim ≠ ' ' := by simp [ht]
    rw [if_pos ht, hblank (by simp [isIfs, ht]), if_neg hne, ← ht, ← List.count_eq_zero]
    omega
  rw [if_neg ht]
  by_cases hb : delim = ' '
  · rw [if_pos hb, if_pos hb, hblank (by simp [isIfs, hb]), hb]
    omega
  · have hother : isIfs delim ≠ true := by simp [isIfs, hn, ht, hb]
    rw [if_neg hb, if_neg hb]
    rw [if_neg hother] at hsum
    by_cases hoption : OptionFirst text
    · rw [if_pos hoption] at hsum
      rw [← hsum, not_and, ← count_dashN]
      simp only [hoption, true_imp_iff]
      omega
    · rw [if_neg hoption] at hsum
      simp only [hoption, false_and, not_false_iff, iff_true]
      omega

end Counting

section Cutting

variable {text : List Char} {delim : Char}

/-- A line that is printed is its own value. -/
theorem substituted_line {line : List Char} (hline : '\n' ∉ line) :
    substituted (line ++ ['\n']) = line := by
  rw [substituted, List.rdropWhile_concat_pos _ _ _ (by decide), List.rdropWhile_eq_self_iff]
  intro hne hlast
  exact hline ((beq_iff_eq.mp hlast) ▸ List.getLast_mem hne)

theorem echo_quoted (hoption : text ≠ dashN) : echo [text] = text ++ ['\n'] := by
  rw [echo, if_neg hoption]
  simp

theorem streamLines_line (hnewline : '\n' ∉ text) : streamLines (text ++ ['\n']) = [text] := by
  rw [streamLines, splitOn_line hnewline]
  rfl

/-- What a turn of the loop gets: a field, or the whole text when there is one field
only.  A newline has the text before it and nothing behind. -/
theorem tstData_eq (hnewline : '\n' ∉ text) (hoption : text ≠ dashN) (j : ℕ) :
    tstData text delim (j + 1) =
      if delim ∈ text then ((text.splitOn delim)[j]?).getD []
      else if delim = '\n' ∧ j ≠ 0 then [] else text := by
  rw [tstData, echo_quoted hoption, cut, if_neg (by simp), streamLines_line hnewline]
  by_cases hline : delim = '\n'
  · subst hline
    rw [if_pos rfl, if_neg hnewline]
    cases j with
    | zero => exact substituted_line hnewline
    | succ j => exact substituted_line List.not_mem_nil
  rw [if_neg hline, if_neg fun hboth : _ ∧ _ => hline hboth.1, List.flatMap_singleton,
    substituted_line, Nat.add_sub_cancel]
  split_ifs with hdelim
  · cases hfield : (text.splitOn delim)[j + 1 - 1]? with
    | none => exact List.not_mem_nil
    | some field =>
      intro hmem
      exact hnewline (mem_of_mem_splitOn (List.mem_of_getElem? hfield) hmem)
  · exact hnewline

/-- The calls for a text that is printed as it is. -/
theorem runTestsCalls_eq_iff (hnewline : '\n' ∉ text) (hne : text ≠ []) (hoption : text ≠ dashN) :
    runTestsCalls text delim = text.splitOn delim ↔
      tstMax text delim = text.count delim + 1 := by
  rw [← length_splitOn, runTestsCalls, if_pos hne]
  simp only [tstData_eq hnewline hoption]
  constructor
  · intro hcalls
    simpa using congrArg List.length hcalls
  · intro hmax
    rw [hmax]
    by_cases hdelim : delim ∈ text
    · simp only [hdelim, if_true]
      refine List.ext_getElem (by simp) fun j hj hfield => ?_
      rw [List.getElem_map, List.getElem_range, List.getElem?_eq_getElem hfield]
      rfl
    · simp [hdelim, splitOn_last hdelim]

/-- The text that is nothing but the option is lost. -/
theorem runTestsCalls_dashN (delim : Char) : runTestsCalls dashN delim ≠ dashN.splitOn delim := by
  have hwords : words dashN = [dashN] := by decide
  have hcalls : runTestsCalls dashN delim = [[]] := by
    rw [runTestsCalls, if_pos (by decide), tstMax, hwords]
    rfl
  rw [hcalls]
  intro hsplit
  have hjoin : List.intercalate [delim] (dashN.splitOn delim) = dashN :=
    List.intercalate_splitOn delim
  rw [← hsplit] at hjoin
  rw [List.intercalate_singleton] at hjoin
  exact absurd hjoin (by decide)

end Cutting

section Main

/-- The tests are run once for each field, in order and with that field, for exactly the
texts whose delimiters are all counted. -/
theorem runTestsCalls_fields_iff (text : List Char) (delim : Char) (hplain : Plain text) :
    runTestsCalls text delim = text.splitOn delim ↔ Agrees text delim := by
  rw [Agrees]
  by_cases hempty : text = []
  · simp [hempty, runTestsCalls]
  by_cases hoption : text = dashN
  · have hne : dashN ≠ [] := by decide
    rw [hoption]
    simp [runTestsCalls_dashN, hne]
  · rw [runTestsCalls_eq_iff hplain.newline hempty hoption, tstMax_eq_iff hplain.newline]
    simp [hempty, hoption]

/-- Fields with blanks around them, and one that is empty. -/
theorem runTestsCalls_fields_commas :
    runTestsCalls ['a', ' ', ',', ',', 'b'] ',' = [['a', ' '], [], ['b']] ↔
      Agrees ['a', ' ', ',', ',', 'b'] ',' :=
  runTestsCalls_fields_iff ['a', ' ', ',', ',', 'b'] ','
    ⟨by decide, by decide, by decide⟩

/-- With two blanks in a row, the third of three fields is not reached. -/
theorem runTestsCalls_blanks : Plain ['a', ' ', ' ', 'b'] ∧
    ['a', ' ', ' ', 'b'].splitOn ' ' = [['a'], [], ['b']] ∧
    runTestsCalls ['a', ' ', ' ', 'b'] ' ' = [['a'], []] :=
  ⟨⟨by decide, by decide, by decide⟩, by decide, by decide⟩

end Main

end GrapheneLtp.TestData
