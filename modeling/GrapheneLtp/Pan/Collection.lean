import Mathlib.Tactic
import GrapheneLtp.Core.CString
import GrapheneLtp.Core.Lines

/-!
# The collection of commands of ltp-pan

`get_collection` reads a command file line by line and takes the words of the
command line as one more command.  A line that has a name and no command makes
it give up, and the mark for a file name, `%f`, is stored as `%s`.
-/

namespace GrapheneLtp.Collection

open CString

section Model

/-- One command of the collection. -/
structure CollEntry where
  name : List Char
  cmdline : List Char
  pcntF : Bool
  deriving DecidableEq, Repr

/-- What `get_collection` ends with: no collection, more written to the work
buffer than it has room for, or the entries in order. -/
inductive Outcome where
  | null
  | overflow
  | collection (entries : List CollEntry)
  deriving DecidableEq, Repr

/-- The line is not a comment, not empty and does not start with a blank. -/
def isEntryLine (line : List Char) : Bool :=
  match line with
  | [] => false
  | first :: _ => first != '#' && first != ' '

/-- The separators that `strsep` is called with. -/
def isSeparator (c : Char) : Bool := c == ' ' || c == '\t'

/-- `strstr(a, "%f")` is not `NULL`. -/
def hasPcntF (text : List Char) : Bool := (strstr ['%', 'f'] text).isSome

/-- The text after the letter of its first `%f` has been overwritten. -/
def markPcntF : List Char → List Char
  | [] => []
  | c :: rest =>
    if ['%', 'f'].isPrefixOf (c :: rest) then '%' :: 's' :: rest.drop 1
    else c :: markPcntF rest

/-- The entry of one line, `none` when there is no command to execute. -/
def collEntry (line : List Char) : Option CollEntry :=
  let marked := markPcntF line
  match marked.dropWhile fun c => !isSeparator c with
  | [] => none
  | _ :: rest =>
    match rest.dropWhile isSpace with
    | [] => none
    | first :: cmdline =>
      some ⟨marked.takeWhile fun c => !isSeparator c, first :: cmdline, hasPcntF line⟩

/-- The body of the loop for one line. -/
def readEntry (entries : List CollEntry) (line : List Char) : Option (List CollEntry) :=
  if isEntryLine line then
    (collEntry line).map fun entry => entries ++ [entry]
  else some entries

/-- The loop over the text of the file. -/
def readEntries (a : List Char) (entries : List CollEntry) : Option (List CollEntry) :=
  let line := a.takeWhile fun c => c != '\n'
  match _hrest : a.dropWhile fun c => c != '\n' with
  | [] => readEntry entries line
  | _ :: b => (readEntry entries line).bind fun entries => readEntries b entries
termination_by a.length
decreasing_by
  have hlength := (List.dropWhile_suffix (l := a) fun c => c != '\n').length_le
  rw [_hrest] at hlength
  exact hlength

/-- The characters that fit into `workstr` before the NUL. -/
def workRoom : ℕ := 1023

/-- `strncat` on the work buffer.  The count is a `size_t`, so a negative one
is no limit; `none` when the buffer is overrun. -/
def strncat (workstr src : List Char) (left : ℤ) : Option (List Char) :=
  let text := workstr ++ if left < 0 then src else src.take left.toNat
  if text.length ≤ workRoom then some text else none

/-- The loop over the words of the command line. -/
def fillWork : List (List Char) → List Char → ℤ → Option (List Char)
  | [], workstr, _ => some workstr
  | word :: words, workstr, left => do
      let workstr ← strncat workstr word left
      let left := left - word.length
      let workstr ← strncat workstr [' '] left
      fillWork words workstr (left - 1)

/-- The entry for the command line. -/
def cmdlnEntry (workstr : List Char) : CollEntry :=
  ⟨"cmdln".toList, markPcntF workstr, hasPcntF workstr⟩

/-- `get_collection` on the text of the file and the words that are left on the
command line. -/
def getCollection (file : List Char) (words : List (List Char)) : Outcome :=
  match readEntries (cString file) [] with
  | none => .null
  | some entries =>
    match words with
    | [] => .collection entries
    | _ :: _ =>
      match fillWork words [] workRoom with
      | none => .overflow
      | some workstr => .collection (entries ++ [cmdlnEntry workstr])

end Model

section Lines

/-- The lines of the file that stand for a command. -/
def entryLines (file : List Char) : List (List Char) :=
  ((cString file).splitOn '\n').filter isEntryLine

/-- How a line is an entry: its name reaches to the first blank or tab, and its
command begins behind the white space there. -/
def EntryOf (line : List Char) (entry : CollEntry) : Prop := ∃ separator blanks,
    markPcntF line = entry.name ++ separator :: (blanks ++ entry.cmdline) ∧
    (∀ c ∈ entry.name, isSeparator c = false) ∧ isSeparator separator = true ∧
    (∀ c ∈ blanks, isSpace c = true) ∧
    (∃ first ∈ entry.cmdline.head?, isSpace first = false) ∧
    entry.pcntF = hasPcntF line

theorem takeWhile_separator {name rest : List Char} {separator : Char}
    (hname : ∀ c ∈ name, isSeparator c = false)
    (hseparator : isSeparator separator = true) :
    (name ++ separator :: rest).takeWhile (fun c => !isSeparator c) = name :=
  takeWhile_append_stop (fun c hc => by simp [hname c hc]) (by simp [hseparator])

theorem dropWhile_separator {name rest : List Char} {separator : Char}
    (hname : ∀ c ∈ name, isSeparator c = false)
    (hseparator : isSeparator separator = true) :
    (name ++ separator :: rest).dropWhile (fun c => !isSeparator c) = separator :: rest :=
  dropWhile_append_stop (fun c hc => by simp [hname c hc]) (by simp [hseparator])

theorem collEntry_of_entryOf {line : List Char} {entry : CollEntry}
    (hentry : EntryOf line entry) : collEntry line = some entry := by
  obtain ⟨name, cmdline, pcntF⟩ := entry
  obtain ⟨separator, blanks, hmarked, hname, hseparator, hblanks,
    ⟨first, hfirst, hspace⟩, hpcntF⟩ := hentry
  obtain ⟨command, rfl⟩ : ∃ command, cmdline = first :: command := by
    cases cmdline with
    | nil => simp at hfirst
    | cons head command =>
      obtain rfl : head = first := by simpa using hfirst
      exact ⟨command, rfl⟩
  have hcommand : (blanks ++ first :: command).dropWhile isSpace =
      first :: command := dropWhile_append_stop hblanks hspace
  unfold collEntry
  simp only [hmarked, dropWhile_separator hname hseparator,
    takeWhile_separator hname hseparator, hcommand]
  rw [show pcntF = hasPcntF line from hpcntF]

theorem entryOf_of_collEntry {line : List Char} {entry : CollEntry}
    (hentry : collEntry line = some entry) : EntryOf line entry := by
  unfold collEntry at hentry
  dsimp only at hentry
  split at hentry
  · cases hentry
  · rename_i separator rest hrest
    split at hentry
    · cases hentry
    · rename_i first command hcommand
      obtain rfl := Option.some.inj hentry
      have hseparator := List.dropWhile_get_zero_not
        (fun c => !isSeparator c) (markPcntF line) (by simp [hrest])
      have hspace := List.dropWhile_get_zero_not isSpace rest (by simp [hcommand])
      refine ⟨separator, rest.takeWhile isSpace, ?_, ?_, ?_, ?_, ?_, rfl⟩
      · rw [← hcommand, List.takeWhile_append_dropWhile, ← hrest, List.takeWhile_append_dropWhile]
      · intro c hc
        simpa using List.mem_takeWhile_imp hc
      · simpa [hrest] using hseparator
      · intro c hc
        exact List.mem_takeWhile_imp hc
      · exact ⟨first, rfl, by simpa [hcommand] using hspace⟩

theorem collEntry_eq_some_iff {line : List Char} {entry : CollEntry} :
    collEntry line = some entry ↔ EntryOf line entry :=
  ⟨entryOf_of_collEntry, collEntry_of_entryOf⟩

theorem collEntry_eq_none_iff {line : List Char} :
    collEntry line = none ↔ ∀ entry, ¬ EntryOf line entry := by
  simp only [Option.eq_none_iff_forall_ne_some, ne_eq, collEntry_eq_some_iff]

end Lines

section File

theorem splitOn_takeWhile {a b : List Char} {newline : Char}
    (hrest : a.dropWhile (fun c => c != '\n') = newline :: b) :
    a.splitOn '\n' = (a.takeWhile fun c => c != '\n') :: b.splitOn '\n' := by
  have hnewline := List.dropWhile_get_zero_not (fun c => c != '\n') a (by simp [hrest])
  have hsplit : a = (a.takeWhile fun c => c != '\n') ++ newline :: b := by
    rw [← hrest, List.takeWhile_append_dropWhile]
  have hline : '\n' ∉ a.takeWhile fun c => c != '\n' := by
    intro hmem
    simpa using List.mem_takeWhile_imp hmem
  obtain rfl : newline = '\n' := by simpa [hrest] using hnewline
  nth_rewrite 1 [hsplit]
  exact Lines.splitOn_line hline b

theorem splitOn_last {a : List Char} (hrest : a.dropWhile (fun c => c != '\n') = []) :
    a.splitOn '\n' = [a.takeWhile fun c => c != '\n'] := by
  have hall : ∀ c ∈ a, (c != '\n') = true := List.dropWhile_eq_nil_iff.mp hrest
  rw [List.takeWhile_eq_self_iff.mpr hall]
  exact Lines.splitOn_last fun hmem => by simpa using hall _ hmem

/-- The loop takes the lines of the text one after the other. -/
theorem readEntries_eq_foldlM (a : List Char) (entries : List CollEntry) :
    readEntries a entries = (a.splitOn '\n').foldlM readEntry entries := by
  induction a, entries using readEntries.induct with
  | case1 a entries hrest =>
    rw [readEntries, splitOn_last hrest]
    split
    · simp
    · rename_i hcons
      rw [hrest] at hcons
      cases hcons
  | case2 a entries newline b hrest ih =>
    rw [readEntries, splitOn_takeWhile hrest]
    split
    · rename_i hnil
      rw [hrest] at hnil
      cases hnil
    · rename_i hcons
      rw [hrest] at hcons
      cases hcons
      simp only [List.foldlM_cons, ih]
      rfl

/-- A line that is read adds its entry behind those of the lines before. -/
theorem foldlM_readEntry (lines : List (List Char)) (entries : List CollEntry) :
    lines.foldlM readEntry entries =
      ((lines.filter isEntryLine).mapM collEntry).map (entries ++ ·) := by
  induction lines generalizing entries with
  | nil => simp
  | cons line lines ih =>
    by_cases hline : isEntryLine line = true
    · cases hentry : collEntry line with
      | none => simp [readEntry, hline, hentry]
      | some entry =>
        cases hentries : (lines.filter isEntryLine).mapM collEntry <;>
          simp [readEntry, hline, hentry, ih, hentries]
    · simp [readEntry, hline, ih]

theorem mapM_collEntry_eq_none {lines : List (List Char)}
    (hline : ∃ line ∈ lines, ∀ entry, ¬ EntryOf line entry) :
    lines.mapM collEntry = none := by
  induction lines with
  | nil => simp at hline
  | cons line lines ih =>
    obtain ⟨missing, hmem, hmissing⟩ := hline
    cases hmem with
    | head => simp [collEntry_eq_none_iff.mpr hmissing]
    | tail _ hmem =>
      have hnone := ih ⟨missing, hmem, hmissing⟩
      cases hentry : collEntry line <;> simp [hentry, hnone]

theorem mapM_collEntry_eq_some {lines : List (List Char)}
    (hlines : ∀ line ∈ lines, ∃ entry, EntryOf line entry) :
    ∃ entries, lines.mapM collEntry = some entries ∧ List.Forall₂ EntryOf lines entries := by
  induction lines with
  | nil => exact ⟨[], rfl, .nil⟩
  | cons line lines ih =>
    obtain ⟨entry, hentry⟩ := hlines line (by simp)
    obtain ⟨entries, hentries, hforall⟩ := ih fun line hmem => hlines line (by simp [hmem])
    refine ⟨entry :: entries, ?_, .cons hentry hforall⟩
    simp [collEntry_eq_some_iff.mpr hentry, hentries]

/-- The entries of the file are those of its entry lines. -/
theorem readEntries_file (file : List Char) :
    readEntries (cString file) [] = (entryLines file).mapM collEntry := by
  rw [readEntries_eq_foldlM, foldlM_readEntry, entryLines]
  cases (((cString file).splitOn '\n').filter isEntryLine).mapM collEntry <;> simp

end File

section CommandLine

/-- The words with one blank between them. -/
def joined (words : List (List Char)) : List Char := [' '].intercalate words

/-- Every word with the blank behind it, as far as the buffer has room. -/
def cmdlnText (words : List (List Char)) : List Char :=
  (words.flatMap fun word => word ++ [' ']).take workRoom

/-- The entries that the command line adds: none without a word. -/
def cmdlnEntries (words : List (List Char)) : List CollEntry :=
  if words = [] then [] else [cmdlnEntry (cmdlnText words)]

theorem strncat_within {workstr src : List Char} {left : ℕ}
    (hroom : workstr.length + left = workRoom) :
    strncat workstr src left = some (workstr ++ src.take left) := by
  have hlength : (workstr ++ src.take left).length ≤ workRoom := by
    rw [List.length_append, List.length_take]
    omega
  have hleft : ¬ (left : ℤ) < 0 := by omega
  unfold strncat
  simp only [if_neg hleft, Int.toNat_natCast, if_pos hlength]

theorem length_joined_cons (word next : List Char) (words : List (List Char)) :
    (joined (word :: next :: words)).length =
      word.length + 1 + (joined (next :: words)).length := by
  simp [joined, List.intercalate]
  omega

/-- One word that fits, and its blank if there is still room for it. -/
theorem fillWork_word {word workstr : List Char} {left : ℕ}
    (hroom : workstr.length + left = workRoom) (hword : word.length ≤ left)
    (words : List (List Char)) :
    fillWork (word :: words) workstr left =
      fillWork words ((workstr ++ (word ++ [' '])).take workRoom) (left - word.length - 1) := by
  obtain ⟨more, rfl⟩ := Nat.exists_eq_add_of_le hword
  have hfull : (workstr ++ word).length + more = workRoom := by
    rw [List.length_append]
    omega
  have htext : (workstr ++ (word ++ [' '])).take workRoom = workstr ++ word ++ [' '].take more := by
    rw [← List.append_assoc, List.take_append, List.take_of_length_le (by omega),
      show workRoom - (workstr ++ word).length = more by omega]
  have hleft : ((word.length + more : ℕ) : ℤ) - word.length = more := by omega
  rw [fillWork, strncat_within hroom, List.take_of_length_le hword, htext]
  simp only [Option.bind_eq_bind, Option.bind_some, hleft, strncat_within hfull]

/-- With room for the words and the blanks between them, the buffer receives
every word and a blank, the last blank only if it still fits. -/
theorem fillWork_fits {words : List (List Char)} {workstr : List Char} {left : ℕ}
    (hroom : workstr.length + left = workRoom)
    (hfits : (joined words).length ≤ left) :
    fillWork words workstr left =
      some ((workstr ++ words.flatMap fun word => word ++ [' ']).take workRoom) := by
  induction words generalizing workstr left with
  | nil =>
    simp only [fillWork, List.flatMap_nil, List.append_nil]
    rw [List.take_of_length_le (by omega)]
  | cons word words ih =>
    cases words with
    | nil =>
      have hword : word.length ≤ left := by simpa [joined] using hfits
      rw [fillWork_word hroom hword, fillWork]
      simp
    | cons next words =>
      rw [length_joined_cons] at hfits
      obtain ⟨more, rfl⟩ := Nat.exists_eq_add_of_le (show word.length + 1 ≤ left by omega)
      have hlength : (workstr ++ (word ++ [' '])).length + more = workRoom := by
        simp only [List.length_append, List.length_singleton]
        omega
      have hleft : ((word.length + 1 + more : ℕ) : ℤ) - word.length - 1 =
          more := by omega
      rw [fillWork_word hroom (by omega),
        List.take_of_length_le (by omega), hleft, ih hlength (by omega)]
      simp

end CommandLine

section Claim

/-- When the words of the command line fit into the work buffer with a blank
between them, the collection is `NULL` if some entry line has no command, and
otherwise the entries of the entry lines in order followed by the one of the
command line; the work buffer is not overrun. -/
theorem getCollection_entries (file : List Char) (words : List (List Char))
    (hfits : (joined words).length ≤ workRoom) :
    (∃ workstr, fillWork words [] workRoom = some workstr ∧ workstr.length ≤ workRoom) ∧
    ((∃ line ∈ entryLines file, ∀ entry, ¬ EntryOf line entry) → getCollection file words = .null) ∧
    ((∀ line ∈ entryLines file, ∃ entry, EntryOf line entry) →
      ∃ entries, List.Forall₂ EntryOf (entryLines file) entries ∧ getCollection file words =
          .collection (entries ++ cmdlnEntries words)) := by
  have hfill : fillWork words [] workRoom = some (cmdlnText words) := fillWork_fits (by simp) hfits
  refine ⟨⟨cmdlnText words, hfill, List.length_take_le _ _⟩, ?_, ?_⟩
  · intro hmissing
    simp only [getCollection, readEntries_file, mapM_collEntry_eq_none hmissing]
  · intro hlines
    obtain ⟨entries, hentries, hforall⟩ := mapM_collEntry_eq_some hlines
    refine ⟨entries, hforall, ?_⟩
    simp only [getCollection, readEntries_file, hentries]
    cases words with
    | nil => simp [cmdlnEntries]
    | cons word words => simp [hfill, cmdlnEntries]

theorem getCollection_entries_sample :
    (∃ entries, List.Forall₂ EntryOf ["ls01 ls\t-l %f".toList] entries ∧
      getCollection "# ls\nls01 ls\t-l %f\n".toList ["df".toList, "-h".toList] =
        .collection (entries ++
          [⟨"cmdln".toList, "df -h ".toList, false⟩])) ∧
    getCollection "ls02\n".toList [] = .null := by
  constructor
  · have hlines : entryLines "# ls\nls01 ls\t-l %f\n".toList =
        ["ls01 ls\t-l %f".toList] := by decide
    have hcmdln : cmdlnEntries ["df".toList, "-h".toList] =
        [⟨"cmdln".toList, "df -h ".toList, false⟩] := by decide
    have hentries := (getCollection_entries "# ls\nls01 ls\t-l %f\n".toList
      ["df".toList, "-h".toList] (by decide)).2.2
    rw [hlines, hcmdln] at hentries
    apply hentries
    intro line hline
    obtain rfl := List.mem_singleton.mp hline
    exact ⟨⟨"ls01".toList, "ls\t-l %s".toList, true⟩,
      entryOf_of_collEntry (by decide)⟩
  · have hnull := (getCollection_entries "ls02\n".toList [] (by decide)).2.1
    apply hnull
    exact ⟨"ls02".toList, by decide, collEntry_eq_none_iff.mp (by decide)⟩

/-- A line with a name only is no entry, and it takes the other lines with it;
an entry's command is not what the line says where the line has `%f`. -/
theorem getCollection_commandless :
    getCollection "ls01 ls\nls02\n".toList [] = .null ∧
    getCollection "ls01 ls %f\n".toList [] =
      .collection [⟨"ls01".toList, "ls %s".toList, true⟩] ∧
    getCollection "ls01 ls\n".toList [] =
      .collection [⟨"ls01".toList, "ls".toList, false⟩] := by
  decide +kernel

end Claim

end GrapheneLtp.Collection
