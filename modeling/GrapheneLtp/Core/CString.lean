import Mathlib.Data.List.TakeWhile
import Mathlib.Tactic

/-!
# Strings in memory

The functions of the C library on strings, over the characters that follow a
pointer in memory.  A pointer that only moves forward is the list of the
characters from it on, so that what lies behind a terminating NUL stays
visible to code that runs past it.
-/

namespace GrapheneLtp.CString

def nul : Char := '\x00'

/-- `PATH_MAX`. -/
def pathMax : ℕ := 4096

/-- The string at a pointer: the characters before the terminating NUL. -/
def cString (memory : List Char) : List Char := memory.takeWhile fun c => c != nul

/-- `isspace` in the C locale. -/
def isSpace (c : Char) : Bool := c ∈ [' ', '\t', '\n', '\x0b', '\x0c', '\r']

/-- `strstr`: the pointer to the first occurrence of `needle` in the string. -/
def strstr (needle : List Char) : List Char → Option (List Char)
  | [] => none
  | c :: rest =>
    if c = nul then none
    else if needle.isPrefixOf (c :: rest) then some (c :: rest)
    else strstr needle rest

/-- At most `room` characters of the stream, up to and with a newline. -/
def readLine : ℕ → List Char → List Char × List Char
  | 0, stream => ([], stream)
  | _ + 1, [] => ([], [])
  | room + 1, c :: rest =>
    if c = '\n' then (['\n'], rest)
    else ((c :: (readLine room rest).1), (readLine room rest).2)

/-- `fgets` into an array of `size` characters: what is stored before the NUL,
and what is left of the stream. -/
def fgets (size : ℕ) (stream : List Char) : Option (List Char × List Char) :=
  if stream = [] then none else some (readLine (size - 1) stream)

/-- The array after `text` and a NUL have been stored in it. -/
def stored (array text : List Char) : List Char := text ++ nul :: array.drop (text.length + 1)

/-- Quantifiers over the characters of a text run along the text, not over all
characters. -/
instance (priority := high) decidableForallMem {P : Char → Prop} [DecidablePred P]
    (text : List Char) : Decidable (∀ c ∈ text, P c) :=
  List.decidableBAll P text

instance (priority := high) decidableExistsMem {P : Char → Prop} [DecidablePred P]
    (text : List Char) : Decidable (∃ c ∈ text, P c) :=
  List.decidableBEx P text

section Lemmas

theorem cString_of_not_mem {text : List Char} (htext : nul ∉ text) : cString text = text := by
  rw [cString, List.takeWhile_eq_self_iff]
  intro c hc
  simpa using ne_of_mem_of_not_mem hc htext

theorem takeWhile_append_stop {p : Char → Bool} {text rest : List Char}
    {stop : Char} (htext : ∀ c ∈ text, p c = true) (hstop : p stop = false) :
    (text ++ stop :: rest).takeWhile p = text := by
  rw [List.takeWhile_append_of_pos htext, List.takeWhile_cons]
  simp [hstop]

theorem dropWhile_append_stop {p : Char → Bool} {text rest : List Char}
    {stop : Char} (htext : ∀ c ∈ text, p c = true) (hstop : p stop = false) :
    (text ++ stop :: rest).dropWhile p = stop :: rest := by
  rw [List.dropWhile_append_of_pos htext, List.dropWhile_cons]
  simp [hstop]

theorem strstr_self {needle rest : List Char} {first : Char} (hfirst : first ≠ nul) :
    strstr (first :: needle) (first :: needle ++ rest) = some (first :: needle ++ rest) := by
  have hstart : (first :: needle).isPrefixOf (first :: needle ++ rest) = true :=
    List.isPrefixOf_iff_prefix.mpr (List.prefix_append _ _)
  rw [List.cons_append] at hstart ⊢
  rw [strstr, if_neg hfirst, if_pos hstart]

/-- An occurrence in the string is found, perhaps an earlier one. -/
theorem strstr_isSome {needle before rest : List Char} {first : Char}
    (hbefore : nul ∉ before) (hfirst : first ≠ nul) :
    (strstr (first :: needle) (before ++ (first :: needle ++ rest))).isSome := by
  induction before with
  | nil =>
    rw [List.nil_append, strstr_self hfirst]
    rfl
  | cons c before ih =>
    have hc : c ≠ nul := fun hequal => hbefore (hequal ▸ List.mem_cons_self)
    rw [List.cons_append, strstr, if_neg hc]
    split
    · rfl
    · exact ih fun hmem => hbefore (List.mem_cons_of_mem _ hmem)

/-- An occurrence that does not use the stop character ends before it. -/
theorem prefix_of_prefix_append {needle text rest : List Char} {stop : Char}
    (hneedle : stop ∉ needle) (hstart : needle <+: text ++ stop :: rest) :
    needle <+: text := by
  obtain ⟨tail, htail⟩ := hstart
  rcases List.append_eq_append_iff.mp htail with
    ⟨more, htext, -⟩ | ⟨more, hmore, hstop⟩
  · exact ⟨more, htext.symm⟩
  · cases more with
    | nil => rw [hmore, List.append_nil]
    | cons c more =>
      obtain ⟨rfl, -⟩ := List.cons.inj hstop
      exact absurd (by simp [hmore]) hneedle

theorem nul_not_mem_cString (text : List Char) : nul ∉ cString text := by
  intro hmem
  have hne := List.mem_takeWhile_imp hmem
  simp at hne

theorem isSpace_nul : isSpace nul = false := by decide

theorem strstr_infix {needle string found : List Char} {first : Char}
    (hneedle : nul ∉ first :: needle)
    (hfound : strstr (first :: needle) (string ++ [nul]) = some found) :
    first :: needle <:+: string := by
  induction string with
  | nil => simp [strstr] at hfound
  | cons c string ih =>
    rw [List.cons_append, strstr] at hfound
    split_ifs at hfound with hc hhere
    · rw [List.isPrefixOf_iff_prefix, ← List.cons_append] at hhere
      exact (prefix_of_prefix_append hneedle hhere).isInfix
    · exact List.infix_cons (ih hfound)

/-- What is found in a stored line occurs in the line. -/
theorem strstr_occurs {needle text rest found : List Char} {first : Char}
    (hneedle : '\n' ∉ first :: needle)
    (hfound : strstr (first :: needle) (text ++ '\n' :: nul :: rest) = some found) :
    first :: needle <:+: text := by
  induction text with
  | nil =>
    have hfirst : first ≠ '\n' := fun hequal => hneedle (hequal ▸ List.mem_cons_self)
    simp [strstr, nul, hfirst] at hfound
  | cons c text ih =>
    rw [List.cons_append, strstr] at hfound
    split at hfound
    · cases hfound
    split at hfound
    · rename_i _ hstart
      have hhere := List.isPrefixOf_iff_prefix.mp hstart
      rw [← List.cons_append] at hhere
      exact (prefix_of_prefix_append hneedle hhere).isInfix
    · exact List.infix_cons (ih hfound)

theorem readLine_length (room : ℕ) (stream : List Char) :
    (readLine room stream).2.length ≤ stream.length := by
  induction stream generalizing room with
  | nil => cases room <;> simp [readLine]
  | cons c stream ih =>
    cases room with
    | zero => simp [readLine]
    | succ room =>
      rw [readLine]
      split_ifs
      · simp
      · exact (ih room).trans (Nat.le_succ _)

theorem readLine_shorter {room : ℕ} {stream : List Char} (hroom : 0 < room)
    (hstream : stream ≠ []) :
    (readLine room stream).2.length < stream.length := by
  obtain ⟨room, rfl⟩ := Nat.exists_eq_succ_of_ne_zero hroom.ne'
  cases stream with
  | nil => exact absurd rfl hstream
  | cons c stream =>
    rw [readLine]
    split_ifs
    · simp
    · exact Nat.lt_succ_of_le (readLine_length room stream)

theorem readLine_append (room : ℕ) (stream : List Char) :
    (readLine room stream).1 ++ (readLine room stream).2 = stream := by
  induction stream generalizing room with
  | nil => cases room <;> rfl
  | cons c stream ih =>
    cases room with
    | zero => rfl
    | succ room =>
      rw [readLine]
      split_ifs with hc
      · simp [hc]
      · simp [ih]

/-- Of a text with a newline at most at its end, as much is read as fits. -/
theorem readLine_take {stream : List Char} (hstream : '\n' ∉ stream.dropLast) (room : ℕ) :
    readLine room stream = (stream.take room, stream.drop room) := by
  induction stream generalizing room with
  | nil => cases room <;> rfl
  | cons c stream ih =>
    cases room with
    | zero => rfl
    | succ room =>
      cases stream with
      | nil =>
        have hnil : readLine room [] = ([], []) := by cases room <;> rfl
        rw [readLine, hnil]
        split_ifs with hc
        · simp [hc]
        · simp
      | cons next stream =>
        rw [List.dropLast_cons_cons, List.mem_cons, not_or] at hstream
        rw [readLine, if_neg (Ne.symm hstream.1), ih hstream.2]
        rfl

theorem readLine_long {text : List Char} {room : ℕ} (htext : '\n' ∉ text)
    (hroom : room ≤ text.length) (rest : List Char) :
    readLine room (text ++ rest) = (text.take room, text.drop room ++ rest) := by
  induction text generalizing room with
  | nil =>
    obtain rfl := Nat.le_zero.mp hroom
    rfl
  | cons c text ih =>
    cases room with
    | zero => rfl
    | succ room =>
      rw [List.mem_cons, not_or] at htext
      rw [List.cons_append, readLine, if_neg (Ne.symm htext.1),
        ih htext.2 (Nat.succ_le_succ_iff.mp hroom)]
      rfl

/-- A line that fits is read whole. -/
theorem readLine_line {line rest : List Char} {room : ℕ}
    (hline : '\n' ∉ line) (hroom : line.length < room) :
    readLine room (line ++ '\n' :: rest) = (line ++ ['\n'], rest) := by
  induction line generalizing room with
  | nil =>
    obtain ⟨room, rfl⟩ := Nat.exists_eq_succ_of_ne_zero hroom.ne'
    simp [readLine]
  | cons c line ih =>
    obtain ⟨room, rfl⟩ := Nat.exists_eq_succ_of_ne_zero (Nat.ne_of_gt (Nat.zero_lt_of_lt hroom))
    have hc : c ≠ '\n' := fun hequal => hline (hequal ▸ List.mem_cons_self)
    have hrest := @ih room (fun hmem => hline (List.mem_cons_of_mem _ hmem)) (by simpa using hroom)
    simp [readLine, hc, hrest]

theorem fgets_line {line rest : List Char} {size : ℕ} (hline : '\n' ∉ line)
    (hsize : line.length + 1 < size) :
    fgets size (line ++ '\n' :: rest) = some (line ++ ['\n'], rest) := by
  rw [fgets, if_neg (by simp), readLine_line hline (by omega)]

end Lemmas

end GrapheneLtp.CString
