import Mathlib.Tactic
import GrapheneLtp.Metadata.Tokens

/-!
# Reading tokens between blanks and comments

What `next_token` makes of a text in which tokens stand between blanks, newlines
and comments.
-/

namespace GrapheneLtp.Metaparse

open CString DataStorage ReadLoop Traced

section Rounds

/-- What the loop of `next_token2` comes to. -/
def scan (size : ℕ) (buf : List Char) (inStr : Bool)
    (doc : Option (List DataNode)) (stream : List Char) : Option Reading :=
  (nextTokenLoop size (stream.length + 1) buf inStr doc stream).result

/-- More fuel than characters makes no difference. -/
theorem nextTokenLoop_fuel (size : ℕ) {fuel other : ℕ} (buf : List Char)
    (inStr : Bool) (doc : Option (List DataNode)) {stream : List Char}
    (hfuel : stream.length < fuel) (hother : stream.length < other) :
    nextTokenLoop size fuel buf inStr doc stream =
      nextTokenLoop size other buf inStr doc stream := by
  induction fuel generalizing other buf inStr doc stream with
  | zero => cases hfuel
  | succ fuel ih =>
    obtain ⟨other, rfl⟩ : ∃ left, other = left + 1 :=
      Nat.exists_eq_add_one_of_ne_zero (Nat.ne_zero_of_lt hother)
    cases stream with
    | nil => rfl
    | cons c rest =>
      rw [List.length_cons] at hfuel hother
      have hnext (buf : List Char) (inStr : Bool) (doc : Option (List DataNode)) {left : List Char}
          (hleft : left.length ≤ rest.length) :
          nextTokenLoop size fuel buf inStr doc left =
            nextTokenLoop size other buf inStr doc left :=
        ih buf inStr doc (by omega) (by omega)
      rw [nextTokenLoop, nextTokenLoop]
      split_ifs
      · rfl
      · exact hnext _ _ _ le_rfl
      · rfl
      · rfl
      · exact bind_congr_result fun _ _ => hnext _ _ _ le_rfl
      · refine bind_congr_result fun result hresult => ?_
        exact hnext _ _ _ ((maybeComment_meets doc rest).2 _ hresult)
      · exact hnext _ _ _ le_rfl
      · rfl
      · exact hnext _ _ _ le_rfl
      · exact hnext _ _ _ le_rfl

theorem result_nextTokenLoop (size : ℕ) {fuel : ℕ} (buf : List Char)
    (inStr : Bool) (doc : Option (List DataNode)) {stream : List Char}
    (hfuel : stream.length < fuel) :
    (nextTokenLoop size fuel buf inStr doc stream).result = scan size buf inStr doc stream := by
  rw [nextTokenLoop_fuel size buf inStr doc hfuel (Nat.lt_succ_self _)]
  rfl

theorem result_access {size index : ℕ} (hindex : index < size) :
    (access size index).result = some () := by
  rw [access, result_past, if_pos]
  omega

theorem result_exitToken {size : ℕ} {buf : List Char} {inStr : Bool}
    (hbuf : buf ≠ [] ∨ inStr = true) (hsize : buf.length < size)
    (doc : Option (List DataNode)) (rest : List Char) :
    (exitToken size buf inStr doc rest).result = some ⟨some (cString buf), doc, rest⟩ := by
  have hexit : ¬(buf = [] ∧ inStr = false) := by
    rintro ⟨hnil, hfalse⟩
    rcases hbuf with hbuf | hbuf
    · exact hbuf hnil
    · rw [hfalse] at hbuf
      cases hbuf
  rw [exitToken, if_neg hexit, result_bind, result_access hsize]
  rfl

variable {size : ℕ} {buf : List Char} {doc : Option (List DataNode)} {c : Char}

theorem not_isPunct_of_isWordChar (hc : isWordChar c = true) : isPunct c = false := by
  have hpuncts : ['\x7b', '\x7d', ';', '(', ')', '=', ',', '[', ']',
      '#'].all (fun p => !isWordChar p) = true := by
    decide
  rw [isPunct, decide_eq_false_iff_not]
  intro hmem
  have hother := List.all_eq_true.mp hpuncts c hmem
  rw [hc] at hother
  cases hother

/-- A character of a word. -/
theorem scan_word (hc : isWordChar c = true) (hsize : buf.length < size) (rest : List Char) :
    scan size buf false doc (c :: rest) = scan size (buf ++ [c]) false doc rest := by
  rw [scan, nextTokenLoop]
  simp only [Bool.false_eq_true, if_false, not_isPunct_of_isWordChar hc, hc,
    if_true, result_bind, result_access hsize, Option.bind_some]
  exact result_nextTokenLoop size _ _ _ (by simp)

/-- A token of one character. -/
theorem scan_punct (hc : isPunct c = true) (hnul : c ≠ nul) (hsize : 1 < size) (rest : List Char) :
    scan size [] false doc (c :: rest) = some ⟨some [c], doc, rest⟩ := by
  have hstored : storeChar size [] c = [c] := by
    rw [storeChar, if_pos (by simp; omega), List.nil_append]
  rw [scan, nextTokenLoop]
  simp only [Bool.false_eq_true, if_false, hc, if_true, ne_eq, not_true_eq_false, hstored]
  rw [result_exitToken (.inl (List.cons_ne_nil _ _)) hsize,
    cString_of_not_mem (by simpa using hnul.symm)]

/-- A token of one character ends a word and is read again. -/
theorem scan_wordPunct (hbuf : buf ≠ []) (hsize : buf.length < size)
    (hc : isPunct c = true) (rest : List Char) :
    scan size buf false doc (c :: rest) = some ⟨some (cString buf), doc, c :: rest⟩ := by
  rw [scan, nextTokenLoop]
  simp only [Bool.false_eq_true, if_false, hc, if_true, ne_eq, hbuf, not_false_eq_true]
  exact result_exitToken (.inl hbuf) hsize doc _

/-- Characters that are neither stored nor open anything. -/
def isIgnored (c : Char) : Bool :=
  !isPunct c && !isWordChar c && c != '/' && c != '"'

/-- A blank between tokens, or a character that `next_token2` does not know. -/
theorem scan_ignored (hc : isIgnored c = true)
    (hblank : isBlank c = false ∨ buf = []) (rest : List Char) :
    scan size buf false doc (c :: rest) = scan size buf false doc rest := by
  simp only [isIgnored, Bool.and_eq_true, Bool.not_eq_true', bne_iff_ne] at hc
  obtain ⟨⟨⟨hpunct, hword⟩, hslash⟩, hquote⟩ := hc
  rw [scan, nextTokenLoop]
  simp only [Bool.false_eq_true, if_false, hpunct, hword, hslash, hquote]
  have hnext : (nextTokenLoop size (c :: rest).length buf false doc
      rest).result = scan size buf false doc rest :=
    result_nextTokenLoop size _ _ _ (Nat.lt_succ_self _)
  split_ifs with hc hbuf
  · rcases hblank with hfalse | hnil
    · rw [hc] at hfalse
      cases hfalse
    · exact absurd hnil hbuf
  · exact hnext
  · exact hnext

/-- A blank ends a word. -/
theorem scan_wordBlank (hbuf : buf ≠ []) (hsize : buf.length < size)
    (hc : isIgnored c = true) (hblank : isBlank c = true) (rest : List Char) :
    scan size buf false doc (c :: rest) = some ⟨some (cString buf), doc, rest⟩ := by
  simp only [isIgnored, Bool.and_eq_true, Bool.not_eq_true', bne_iff_ne] at hc
  obtain ⟨⟨⟨hpunct, hword⟩, hslash⟩, hquote⟩ := hc
  rw [scan, nextTokenLoop]
  simp only [Bool.false_eq_true, if_false, hpunct, hword, hslash, hquote,
    hblank, if_true, ne_eq, hbuf, not_false_eq_true]
  exact result_exitToken (.inl hbuf) hsize doc rest

/-- A comment is skipped, inside a word too. -/
theorem scan_comment {after : Option (List DataNode)} {rest left : List Char}
    (hcomment : (maybeComment doc rest).result = some (after, left)) :
    scan size buf false doc ('/' :: rest) = scan size buf false after left := by
  have hlength := (maybeComment_meets doc rest).2 _ hcomment
  have hpunct : isPunct '/' = false := rfl
  have hword : isWordChar '/' = false := rfl
  rw [scan, nextTokenLoop]
  simp only [Bool.false_eq_true, if_false, hpunct, hword, if_true, result_bind,
    hcomment, Option.bind_some]
  exact result_nextTokenLoop size _ _ _ (Nat.lt_succ_of_le hlength)

/-- A string literal without quotes and backslashes. -/
theorem scan_string {text : List Char} (hquote : '"' ∉ text)
    (hslash : '\\' ∉ text) (hbuf : buf.getLast? ≠ some '\\')
    (hsize : buf.length + text.length < size) (rest : List Char) :
    scan size buf true doc (text ++ '"' :: rest) =
      some ⟨some (cString (buf ++ text)), doc, rest⟩ := by
  induction text generalizing buf with
  | nil =>
    rw [List.nil_append, scan, nextTokenLoop, if_pos rfl,
      if_pos ⟨rfl, hbuf⟩, List.append_nil]
    exact result_exitToken (.inr rfl) (by simpa using hsize) doc rest
  | cons c text ih =>
    rw [List.mem_cons, not_or] at hquote hslash
    rw [List.length_cons] at hsize
    have hstored : storeChar size buf c = buf ++ [c] := by
      rw [storeChar, if_pos (by omega)]
    have hlast : (buf ++ [c]).getLast? ≠ some '\\' := by
      rw [List.getLast?_append, List.getLast?_singleton]
      simpa using fun heq => hslash.1 heq.symm
    rw [List.cons_append, scan, nextTokenLoop, if_pos rfl,
      if_neg fun hend => hquote.1 hend.1.symm, hstored]
    refine (result_nextTokenLoop size _ _ _ (Nat.lt_succ_self _)).trans ?_
    rw [ih hquote.2 hslash.2 hlast, List.append_assoc, List.singleton_append]
    rw [List.length_append, List.length_singleton]
    omega

theorem scan_openString (rest : List Char) :
    scan size buf false doc ('"' :: rest) = scan size buf true doc rest := by
  have hpunct : isPunct '"' = false := rfl
  have hword : isWordChar '"' = false := rfl
  have hslash : ¬ '"' = '/' := by decide
  rw [scan, nextTokenLoop]
  simp only [Bool.false_eq_true, if_false, hpunct, hword, hslash, if_true]
  exact result_nextTokenLoop size _ _ _ (Nat.lt_succ_self _)

end Rounds

section Fillers

/-- What may stand between tokens. -/
inductive Filler
  | blank (c : Char)
  | line (text : List Char)
  | block (text : List Char)
deriving DecidableEq, Repr

def Filler.text : Filler → List Char
  | .blank c => [c]
  | .line text => '/' :: '/' :: (text ++ ['\n'])
  | .block text => '/' :: '*' :: (text ++ ['*', '/'])

/-- The text of a one-line comment as C has it: a backslash at the end of a
line continues the comment. -/
def isLineComment : List Char → Bool
  | [] => true
  | ['\\'] => false
  | '\\' :: '\n' :: rest => isLineComment rest
  | c :: rest => c != '\n' && isLineComment rest

/-- White space, or a comment of C. -/
def Filler.valid : Filler → Bool
  | .blank c => isSpace c
  | .line text => isLineComment text
  | .block text => !closes text

/-- No line is longer than the limit, the first one from this column on. -/
def shortLines (limit : ℕ) : ℕ → List Char → Bool
  | column, [] => decide (column ≤ limit)
  | column, c :: rest => decide (column ≤ limit) &&
      if c = '\n' then shortLines limit 0 rest
      else shortLines limit (column + 1) rest

/-- The end of the comment is found: a one-line comment is one line, and where documentation
is collected the lines of a documentation comment fit into the buffer, and it has no `*` at
the end of a line with `/` at the start of the next. -/
def Filler.regular (documented : Bool) : Filler → Bool
  | .blank c => isSpace c
  | .line text => decide ('\n' ∉ text)
  | .block text => !closes text && (!documented || !docPrefix.isPrefixOf text ||
      shortLines (commentBufSize - 3) 0 (text.drop 2) &&
        !closes ((text.drop 2).filter fun c => c != '\n'))

section Ends

/-- The end of a comment that is not documentation. -/
theorem readLoop_skipped {text : List Char} {state : Bool} {buf : List Char}
    (hopen : closes (pending state text) = false) (rest : List Char) :
    readLoop multilineStep ⟨none, state, buf⟩ (text ++ '*' :: '/' :: rest) = some (none, rest) := by
  induction text generalizing state with
  | nil =>
    cases state <;> rfl
  | cons c text ih =>
    have hend : ¬(state = true ∧ some c = some '/') := by
      rintro ⟨rfl, hslash⟩
      cases hslash
      rw [pending, if_pos rfl, closes_end] at hopen
      cases hopen
    rw [closes_pending_cons hend] at hopen
    rw [List.cons_append, readLoop, multilineStep, switchState, if_neg hend]
    exact ih hopen

/-- A character of a documentation comment that fits into the buffer. -/
theorem multilineStep_stored {lines : List DataNode} {state : Bool}
    {buf : List Char} {c : Char} (hc : c ≠ '\n')
    (hbuf : buf.length ≤ commentBufSize - 2) :
    multilineStep ⟨some lines, state, buf⟩ (some c) =
      switchState ⟨some lines, state, buf ++ [c]⟩ (some c) := by
  have hroom : ¬commentBufSize ≤ buf.length + 1 := by
    rw [commentBufSize] at hbuf ⊢
    omega
  simp [multilineStep, hc, hroom]

/-- The end of a comment is found where it fits into the buffer. -/
theorem readLoop_commentEnd {lines : List DataNode} {state : Bool} {buf : List Char}
    (hbuf : buf.length ≤ commentBufSize - 3) (rest : List Char) :
    readLoop multilineStep ⟨some lines, state, buf⟩ ('*' :: '/' :: rest) =
      some (some lines, rest) := by
  rw [commentBufSize] at hbuf
  have hstar : multilineStep ⟨some lines, state, buf⟩ (some '*') =
      .inl ⟨some lines, true, buf ++ ['*']⟩ := by
    rw [multilineStep_stored (by decide) (by rw [commentBufSize]; omega),
      switchState, if_neg fun hslash => by cases hslash.2]
    rfl
  have hslash : multilineStep ⟨some lines, true, buf ++ ['*']⟩ (some '/') =
      .inr (some lines) := by
    rw [multilineStep_stored (by decide), switchState, if_pos ⟨rfl, rfl⟩]
    rw [List.length_append, List.length_singleton, commentBufSize]
    omega
  rw [readLoop, hstar]
  dsimp only
  rw [readLoop, hslash]

/-- The end of a documentation comment. -/
theorem readLoop_documented {text : List Char} {lines : List DataNode}
    {state : Bool} {buf : List Char}
    (hlines : shortLines (commentBufSize - 3) buf.length text = true)
    (hopen : closes (pending state (text.filter fun c => c != '\n')) = false)
    (rest : List Char) :
    ∃ after, readLoop multilineStep ⟨some lines, state, buf⟩
      (text ++ '*' :: '/' :: rest) = some (some after, rest) := by
  induction text generalizing lines state buf with
  | nil =>
    rw [shortLines, decide_eq_true_iff] at hlines
    exact ⟨lines, readLoop_commentEnd hlines rest⟩
  | cons c text ih =>
    rw [shortLines, Bool.and_eq_true, decide_eq_true_iff] at hlines
    obtain ⟨hcolumn, hlines⟩ := hlines
    by_cases hnewline : c = '\n'
    · subst hnewline
      rw [List.cons_append, readLoop, multilineStep]
      exact ih hlines hopen
    · rw [if_neg hnewline] at hlines
      rw [List.filter_cons_of_pos (by simpa using hnewline)] at hopen
      have hend : ¬(state = true ∧ some c = some '/') := by
        rintro ⟨rfl, hslash⟩
        cases hslash
        rw [pending, if_pos rfl, closes_end] at hopen
        cases hopen
      rw [closes_pending_cons hend] at hopen
      rw [List.cons_append, readLoop,
        multilineStep_stored hnewline (by omega), switchState, if_neg hend]
      exact ih (by simpa using hlines) hopen

theorem result_skipComment {text : List Char} (hopen : closes text = false)
    (doc : Option (List DataNode)) (rest : List Char) :
    (skipComment doc (text ++ '*' :: '/' :: rest)).result = some (doc, rest) := by
  have hpending : closes (pending false text) = false := hopen
  have hloop : (multilineComment none (text ++ '*' :: '/' :: rest)).result =
      some (none, rest) := readLoop_skipped hpending rest
  rw [skipComment, result_bind, hloop]
  rfl

theorem closes_tail {c : Char} {text : List Char}
    (hopen : closes (c :: text) = false) : closes text = false := by
  rw [closes, decide_eq_false_iff_not] at hopen ⊢
  exact fun hoccurs => hopen (List.infix_cons hoccurs)

/-- A comment that does not go on as a documentation comment does. -/
theorem result_mismatch {expected : Char} {text : List Char}
    (hopen : closes text = false) (hhead : text.head? ≠ some expected)
    (hstar : '*' ≠ expected) (doc : Option (List DataNode))
    (left rest : List Char) :
    (maybeDocCommentLoop doc (expected :: left)
      (text ++ '*' :: '/' :: rest)).result = some (doc, rest) := by
  cases text with
  | nil =>
    rw [List.nil_append, maybeDocCommentLoop, if_neg hstar, if_pos rfl]
    exact result_skipComment hopen doc rest
  | cons c text =>
    have hc : ¬c = expected := fun heq => hhead (congrArg some heq)
    rw [List.cons_append, maybeDocCommentLoop, if_neg hc]
    split
    · exact result_skipComment hopen doc rest
    · exact result_skipComment (closes_tail hopen) doc rest

/-- A regular comment is skipped. -/
theorem maybeComment_block {documented : Bool} {text : List Char}
    (hregular : (Filler.block text).regular documented = true) {doc : Option (List DataNode)}
    (hdoc : doc.isSome = true → documented = true) (rest : List Char) :
    ∃ after, (maybeComment doc ('*' :: (text ++ '*' :: '/' :: rest))).result =
      some (after, rest) ∧ after.isSome = doc.isSome := by
  rw [Filler.regular, Bool.and_eq_true, Bool.not_eq_true'] at hregular
  obtain ⟨hopen, hlines⟩ := hregular
  have hother : ¬ '*' = '/' := by decide
  rw [maybeComment, if_neg hother, if_pos rfl, maybeDocComment, docPrefix]
  by_cases hslash : text.head? = some '\\'
  · obtain ⟨text, rfl⟩ := List.head?_eq_some_iff.mp hslash
    have hopen' := closes_tail hopen
    rw [List.cons_append, maybeDocCommentLoop, if_pos rfl]
    by_cases hnewline : text.head? = some '\n'
    · obtain ⟨text, rfl⟩ := List.head?_eq_some_iff.mp hnewline
      rw [List.cons_append, maybeDocCommentLoop, if_pos rfl, maybeDocCommentLoop]
      cases doc with
      | none =>
        have hpending : closes (pending false text) = false := closes_tail hopen'
        exact ⟨none, readLoop_skipped hpending rest, rfl⟩
      | some lines =>
        rw [hdoc rfl] at hlines
        have hfits : shortLines (commentBufSize - 3) 0 text = true ∧
            closes (text.filter fun c => c != '\n') = false := by
          simpa [docPrefix] using hlines
        have hlines : shortLines (commentBufSize - 3) ([] : List Char).length text = true := hfits.1
        have hpending : closes (pending false (text.filter fun c => c != '\n')) = false := hfits.2
        obtain ⟨after, hafter⟩ := readLoop_documented hlines hpending rest
        exact ⟨some after, hafter, rfl⟩
    · exact ⟨doc, result_mismatch hopen' hnewline (by decide) doc [] rest, rfl⟩
  · exact ⟨doc, result_mismatch hopen hslash (by decide) doc _ rest, rfl⟩

theorem maybeComment_line {text : List Char} (hline : '\n' ∉ text)
    (doc : Option (List DataNode)) (rest : List Char) :
    (maybeComment doc ('/' :: (text ++ '\n' :: rest))).result = some (doc, rest) := by
  have hloop : readLoop onelineStep () (text ++ '\n' :: rest) = some ((), rest) := by
    induction text with
    | nil => rfl
    | cons c text ih =>
      rw [List.mem_cons, not_or] at hline
      have hc : ¬some c = some '\n' := fun heq =>
        hline.1 (Option.some.inj heq).symm
      rw [List.cons_append, readLoop, onelineStep, if_neg hc]
      exact ih hline.2
  rw [maybeComment, if_pos rfl, result_bind, onelineComment, result_past, hloop]
  rfl

end Ends

/-- The fillers that end a word. -/
def Filler.breaks : Filler → Bool
  | .blank c => isBlank c
  | _ => false

theorem isIgnored_of_isSpace {c : Char} (hc : isSpace c = true) : isIgnored c = true := by
  have hspaces : [' ', '\t', '\n', '\x0b', '\x0c', '\r'].all isIgnored =
      true := by
    decide
  exact List.all_eq_true.mp hspaces c (of_decide_eq_true hc)

/-- A filler is skipped if it does not end a word. -/
theorem scan_filler {documented : Bool} {size : ℕ} {buf : List Char} {filler : Filler}
    (hregular : filler.regular documented = true)
    (hbuf : buf = [] ∨ filler.breaks = false) {doc : Option (List DataNode)}
    (hdoc : doc.isSome = true → documented = true) (rest : List Char) :
    ∃ after, scan size buf false doc (filler.text ++ rest) =
      scan size buf false after rest ∧ after.isSome = doc.isSome := by
  cases filler with
  | blank c =>
    exact ⟨doc, scan_ignored (isIgnored_of_isSpace hregular) hbuf.symm rest,
      rfl⟩
  | line text =>
    have hline := maybeComment_line (of_decide_eq_true hregular) doc rest
    refine ⟨doc, ?_, rfl⟩
    rw [Filler.text, List.cons_append, List.cons_append, List.append_assoc]
    exact scan_comment hline
  | block text =>
    obtain ⟨after, hafter, hsome⟩ := maybeComment_block hregular hdoc rest
    refine ⟨after, ?_, hsome⟩
    rw [Filler.text, List.cons_append, List.cons_append, List.append_assoc]
    exact scan_comment hafter

theorem scan_breakingFiller {documented : Bool} {size : ℕ} {buf : List Char} {filler : Filler}
    (hregular : filler.regular documented = true) (hbreaks : filler.breaks = true)
    (hbuf : buf ≠ []) (hsize : buf.length < size)
    (doc : Option (List DataNode)) (rest : List Char) :
    scan size buf false doc (filler.text ++ rest) = some ⟨some (cString buf), doc, rest⟩ := by
  cases filler with
  | blank c =>
    exact scan_wordBlank hbuf hsize (isIgnored_of_isSpace hregular) hbreaks rest
  | line text => cases hbreaks
  | block text => cases hbreaks

end Fillers

section Lexemes

/-- The tokens of an initializer.  `punct` is a token of one character. -/
inductive Lexeme
  | word (text : List Char)
  | string (text : List Char)
  | punct (c : Char)
deriving DecidableEq, Repr

def Lexeme.text : Lexeme → List Char
  | .word text => text
  | .string text => '"' :: (text ++ ['"'])
  | .punct c => [c]

/-- A text that is made of these tokens with fillers of some kind before them,
up to the rest of the file. -/
inductive Spelled (ok : Filler → Bool) (rest : List Char) :
    List Lexeme → List Char → Prop
  | done : Spelled ok rest [] rest
  | filler {lexeme : Lexeme} {lexemes : List Lexeme} {text : List Char}
      (filler : Filler) (hfiller : ok filler = true)
      (htext : Spelled ok rest (lexeme :: lexemes) text) :
      Spelled ok rest (lexeme :: lexemes) (filler.text ++ text)
  | lexeme {lexemes : List Lexeme} {text : List Char} (lexeme : Lexeme)
      (htext : Spelled ok rest lexemes text) :
      Spelled ok rest (lexeme :: lexemes) (lexeme.text ++ text)

variable {documented : Bool} {size : ℕ} {rest text : List Char} {lexemes : List Lexeme}

/-- Reading a text gives this token and leaves these lexemes, with or without documentation
if it is `documented`, else without. -/
def Reads (documented : Bool) (size : ℕ) (rest : List Char) (buf text token : List Char)
    (lexemes : List Lexeme) : Prop :=
  ∀ doc : Option (List DataNode), (doc.isSome = true → documented = true) → ∃ after left,
    scan size buf false doc text = some ⟨some token, after, left⟩ ∧
      after.isSome = doc.isSome ∧ Spelled (Filler.regular documented) rest lexemes left

/-- Fillers before a token do not matter. -/
theorem Reads.filler {buf token : List Char} {filler : Filler}
    (hregular : filler.regular documented = true)
    (hbuf : buf = [] ∨ filler.breaks = false)
    (hreads : Reads documented size rest buf text token lexemes) :
    Reads documented size rest buf (filler.text ++ text) token lexemes := by
  intro doc hdoc
  obtain ⟨middle, hskipped, hmiddle⟩ := scan_filler hregular hbuf hdoc text
  obtain ⟨after, left, hscan, hafter, hleft⟩ := hreads middle (by rwa [hmiddle])
  exact ⟨after, left, hskipped.trans hscan, hafter.trans hmiddle, hleft⟩

/-- The first token of a text, given how it is read without fillers. -/
theorem reads_of_lexeme {token : List Char} {lexeme : Lexeme} {left : List Lexeme}
    (hspelled : Spelled (Filler.regular documented) rest (lexeme :: lexemes) text)
    (hlexeme : ∀ text, Spelled (Filler.regular documented) rest lexemes text →
      Reads documented size rest [] (lexeme.text ++ text) token left) :
    Reads documented size rest [] text token left := by
  generalize hall : lexeme :: lexemes = all at hspelled
  induction hspelled with
  | done => cases hall
  | filler filler hregular _ ih =>
    exact (ih hall).filler hregular (.inl rfl)
  | lexeme other htext =>
    cases hall
    exact hlexeme _ htext

theorem reads_punct {c : Char} (hc : isPunct c = true) (hsize : 1 < size)
    (hspelled : Spelled (Filler.regular documented) rest (.punct c :: lexemes) text) :
    Reads documented size rest [] text [c] lexemes := by
  have hnul : c ≠ nul := by
    rintro rfl
    cases hc
  apply reads_of_lexeme hspelled
  exact fun text htext doc _ => ⟨doc, text, scan_punct hc hnul hsize text, rfl, htext⟩

theorem reads_string {value : List Char} (hquote : '"' ∉ value)
    (hslash : '\\' ∉ value) (hnul : nul ∉ value) (hsize : value.length < size)
    (hspelled : Spelled (Filler.regular documented) rest (.string value :: lexemes) text) :
    Reads documented size rest [] text value lexemes := by
  apply reads_of_lexeme hspelled
  intro text htext doc _
  refine ⟨doc, text, ?_, rfl, htext⟩
  rw [Lexeme.text, List.cons_append, scan_openString, List.append_assoc,
    List.singleton_append, scan_string hquote hslash (by simp) (by simpa),
    List.nil_append, cString_of_not_mem hnul]

theorem scan_words {buf word : List Char} (hword : word.all isWordChar = true)
    (hsize : buf.length + word.length ≤ size) (doc : Option (List DataNode))
    (text : List Char) :
    scan size buf false doc (word ++ text) = scan size (buf ++ word) false doc text := by
  induction word generalizing buf with
  | nil => rw [List.append_nil, List.nil_append]
  | cons c word ih =>
    rw [List.all_cons, Bool.and_eq_true] at hword
    rw [List.length_cons] at hsize
    rw [List.cons_append, scan_word hword.1 (by omega), ih hword.2]
    · rw [List.append_assoc, List.singleton_append]
    · rw [List.length_append, List.length_singleton]
      omega

/-- A word is complete before a token of one character. -/
theorem reads_wordEnd {buf : List Char} {c : Char} (hbuf : buf ≠ [])
    (hsize : buf.length < size) (hc : isPunct c = true)
    (hspelled : Spelled (Filler.regular documented) rest (.punct c :: lexemes) text) :
    Reads documented size rest buf text (cString buf) (.punct c :: lexemes) := by
  generalize hall : Lexeme.punct c :: lexemes = all at hspelled ⊢
  induction hspelled with
  | done => cases hall
  | filler filler hregular htext ih =>
    cases hbreaks : filler.breaks with
    | false => exact (ih hall).filler hregular (.inr hbreaks)
    | true =>
      exact fun doc _ => ⟨doc, _, scan_breakingFiller hregular hbreaks hbuf hsize doc _, rfl, htext⟩
  | lexeme other htext =>
    cases hall
    exact fun doc _ => ⟨doc, _, scan_wordPunct hbuf hsize hc _, rfl, .lexeme _ htext⟩

theorem nul_not_mem_word {word : List Char} (hword : word.all isWordChar = true) : nul ∉ word := by
  intro hnul
  cases List.all_eq_true.mp hword nul hnul

theorem reads_word {word : List Char} {c : Char} (hnil : word ≠ [])
    (hword : word.all isWordChar = true) (hsize : word.length < size)
    (hc : isPunct c = true)
    (hspelled : Spelled (Filler.regular documented) rest (.word word :: .punct c :: lexemes) text) :
    Reads documented size rest [] text word (.punct c :: lexemes) := by
  apply reads_of_lexeme hspelled
  intro text htext doc hdoc
  have hend := reads_wordEnd hnil hsize hc htext doc hdoc
  rwa [cString_of_not_mem (nul_not_mem_word hword), ← List.nil_append word,
    ← scan_words hword (by simpa using hsize.le), List.nil_append] at hend

/-- The next token, from the outside. -/
theorem Reads.nextToken {token : List Char}
    (hreads : Reads documented tokenBufSize rest [] text token lexemes)
    (doc : Option (List DataNode)) (hdoc : doc.isSome = true → documented = true) :
    ∃ after left, (Metaparse.nextToken doc text).result = some ⟨some token, after, left⟩ ∧
        after.isSome = doc.isSome ∧ left.length < text.length ∧
        Spelled (Filler.regular documented) rest lexemes left := by
  obtain ⟨after, left, hscan, hafter, hleft⟩ := hreads doc hdoc
  exact ⟨after, left, hscan, hafter,
    ((nextToken2_meets tokenBufSize doc text).2 _ hscan).2 rfl, hleft⟩

end Lexemes

end GrapheneLtp.Metaparse
