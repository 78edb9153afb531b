import GrapheneLtp.Metadata.Reading

/-!
# Documentation comments

A documentation comment is read line by line into a buffer.  Newlines, and what
does not fit into the buffer, do not come to the part that looks for the end of
the comment, so the end that is found is not always the end of the comment.
-/

namespace GrapheneLtp.Metaparse

open CString DataStorage ReadLoop Traced

/-- The text of a comment: its complete lines, and what stands before its end. -/
def commentText (lines : List (List Char)) (last : List Char) : List Char :=
  lines.flatMap (· ++ ['\n']) ++ last

/-- A documentation comment after its slash, and what follows it. -/
def docComment (lines : List (List Char)) (last rest : List Char) : List Char :=
  '*' :: '\\' :: '\n' :: (commentText lines last ++ '*' :: '/' :: rest)

/-- How many characters of a line are stored. -/
def lineRoom : ℕ := commentBufSize - 1

/-- What is seen of a comment. -/
def shownText (lines : List (List Char)) (last : List Char) : List Char :=
  lines.flatMap (·.take lineRoom) ++ last.take lineRoom

/-- The end of the comment fits into the buffer, and no end is seen before it. -/
def EndSeen (lines : List (List Char)) (last : List Char) : Prop :=
  last.length ≤ commentBufSize - 3 ∧ closes (shownText lines last) = false

/-- The blanks before an asterisk, the asterisk and one blank after it are taken away. -/
def Strips (line stripped : List Char) : Prop :=
  (∃ blanks, (∀ c ∈ blanks, isSpace c = true) ∧
    ((∃ blank, isSpace blank = true ∧ line = blanks ++ '*' :: blank :: stripped) ∨
      line = blanks ++ '*' :: stripped ∧ ∀ c ∈ stripped.head?, isSpace c = false)) ∨
  (line.dropWhile isSpace).head? ≠ some '*' ∧ stripped = line

/-- The documentation after some more lines. -/
def addLines (doc : List DataNode) (lines : List (List Char)) : List DataNode :=
  lines.foldl (fun doc line =>
    (arrayAdd doc (.string (eatAsteriskSpace (cString (line.take lineRoom))))).1) doc

section Lines

theorem strips_eatAsteriskSpace (line : List Char) : Strips line (eatAsteriskSpace line) := by
  have hsplit := List.takeWhile_append_dropWhile (p := isSpace) (l := line)
  have hblanks : ∀ c ∈ line.takeWhile isSpace, isSpace c = true := fun c hc =>
    List.mem_takeWhile_imp hc
  rw [eatAsteriskSpace]
  cases hdrop : line.dropWhile isSpace with
  | nil => exact .inr ⟨by rw [hdrop]; simp, rfl⟩
  | cons first rest =>
    by_cases hstar : first = '*'
    · subst hstar
      rw [hdrop] at hsplit
      refine .inl ⟨_, hblanks, ?_⟩
      cases rest with
      | nil => exact .inr ⟨hsplit.symm, by simp⟩
      | cons blank rest =>
        by_cases hblank : isSpace blank = true
        · exact .inl ⟨blank, hblank, by simp [hblank, hsplit]⟩
        · exact .inr ⟨by simp [hblank, hsplit], by simp [hblank]⟩
    · refine .inr ⟨by simpa [hdrop] using hstar, ?_⟩
      split
      · rename_i heq
        cases heq
        exact absurd rfl hstar
      · rfl

theorem Strips.nul_mem_iff {line stripped : List Char} (hstrips : Strips line stripped) :
    nul ∈ stripped ↔ nul ∈ line := by
  have hstar : nul ≠ '*' := by decide
  have hspace {c : Char} (hc : isSpace c = true) : nul ≠ c := by
    rintro rfl
    rw [isSpace_nul] at hc
    cases hc
  rcases hstrips with ⟨blanks, hblanks, hline⟩ | ⟨-, rfl⟩
  · have hnone : nul ∉ blanks := fun hmem => hspace (hblanks nul hmem) rfl
    rcases hline with ⟨blank, hblank, rfl⟩ | ⟨rfl, -⟩
    · simp [hnone, hstar, hspace hblank]
    · simp [hnone, hstar]
  · rfl

/-- The lines are stored as they are if they hold no NUL. -/
theorem eatAsteriskSpace_cString_iff {line : List Char} :
    eatAsteriskSpace (cString line) = eatAsteriskSpace line ↔ nul ∉ line := by
  constructor
  · intro hsame hmem
    have hstored := (strips_eatAsteriskSpace line).nul_mem_iff.mpr hmem
    rw [← hsame, (strips_eatAsteriskSpace _).nul_mem_iff] at hstored
    exact nul_not_mem_cString line hstored
  · intro hnone
    rw [cString_of_not_mem hnone]

theorem addLines_of_room {doc : List DataNode} {lines : List (List Char)}
    (hroom : doc.length + lines.length ≤ maxElems) : addLines doc lines =
      doc ++ lines.map fun line => .string (eatAsteriskSpace (cString (line.take lineRoom))) := by
  induction lines generalizing doc with
  | nil => simp [addLines]
  | cons line lines ih =>
    rw [List.length_cons] at hroom
    have hadd (payload : DataNode) : (arrayAdd doc payload).1 = doc ++ [payload] := by
      rw [arrayAdd, if_neg (by omega)]
    rw [addLines, List.foldl_cons, hadd, ← addLines, ih (by simp; omega)]
    simp

end Lines

section Rounds

variable {doc : List DataNode} {state : Bool} {line buf : List Char}

theorem closes_of_append {text more : List Char} (hopen : closes (pending state (text ++ more)) =
    false) : closes (pending state text) = false := by
  rw [closes, decide_eq_false_iff_not] at hopen ⊢
  refine fun hoccurs => hopen (hoccurs.trans (List.IsPrefix.isInfix ?_))
  cases state
  · exact List.prefix_append _ _
  · exact List.prefix_append ('*' :: text) more

theorem multilineStep_full {c : Char} (hc : c ≠ '\n') (hfull : lineRoom ≤ buf.length) :
    multilineStep ⟨some doc, state, buf⟩ (some c) = .inl ⟨some doc, state, buf⟩ := by
  rw [lineRoom] at hfull
  simp [multilineStep, hc, show commentBufSize ≤ buf.length + 1 by omega]

/-- A line without an end: its first characters are stored. -/
theorem readLoop_line (hline : '\n' ∉ line)
    (hopen : closes (pending state (line.take (lineRoom - buf.length))) = false)
    (tail : List Char) : ∃ after,
      readLoop multilineStep ⟨some doc, state, buf⟩ (line ++ tail) = readLoop multilineStep
          ⟨some doc, after, buf ++ line.take (lineRoom - buf.length)⟩ tail ∧
        ∀ more, closes (pending state (line.take (lineRoom - buf.length) ++ more)) =
          closes (pending after more) := by
  induction line generalizing state buf with
  | nil => exact ⟨state, by simp, fun more => by simp⟩
  | cons c line ih =>
    rw [List.mem_cons, not_or] at hline
    have hc : c ≠ '\n' := Ne.symm hline.1
    by_cases hroom : buf.length < lineRoom
    · have htake : (c :: line).take (lineRoom - buf.length) =
          c :: line.take (lineRoom - (buf ++ [c]).length) := by
        rw [List.length_append, List.length_singleton,
          show lineRoom - buf.length = lineRoom - (buf.length + 1) + 1 by omega,
          List.take_succ_cons]
      rw [htake] at hopen ⊢
      have hend : ¬(state = true ∧ some c = some '/') := by
        rintro ⟨rfl, hslash⟩
        cases hslash
        rw [pending, if_pos rfl, closes_end] at hopen
        cases hopen
      rw [closes_pending_cons hend] at hopen
      obtain ⟨after, hloop, hmore⟩ := ih hline.2 hopen
      refine ⟨after, ?_, fun more => ?_⟩
      · rw [List.cons_append, readLoop, multilineStep_stored hc (by rw [lineRoom] at hroom; omega),
          switchState, if_neg hend, List.append_cons buf c (line.take _)]
        exact hloop
      · rw [List.cons_append, closes_pending_cons hend]
        exact hmore more
    · have hzero : lineRoom - buf.length = 0 := by omega
      have hnext := @ih state buf hline.2
      rw [hzero] at hopen hnext ⊢
      rw [List.cons_append, readLoop, multilineStep_full hc (by omega)]
      exact hnext hopen

/-- A comment without an end in what is seen of it. -/
theorem readLoop_shown {lines : List (List Char)} {last : List Char}
    (hlines : ∀ line ∈ lines, '\n' ∉ line) (hlast : '\n' ∉ last)
    (hopen : closes (pending state (shownText lines last)) = false) (tail : List Char) :
    ∃ after, readLoop multilineStep ⟨some doc, state, []⟩ (commentText lines last ++ tail) =
      readLoop multilineStep ⟨some (addLines doc lines), after, last.take lineRoom⟩ tail := by
  induction lines generalizing doc state with
  | nil =>
    obtain ⟨after, hloop, -⟩ := @readLoop_line doc state last [] hlast hopen tail
    exact ⟨after, hloop⟩
  | cons line lines ih =>
    have hshown : shownText (line :: lines) last = line.take lineRoom ++ shownText lines last := by
      simp [shownText]
    have htext : commentText (line :: lines) last ++ tail =
        line ++ '\n' :: (commentText lines last ++ tail) := by
      simp [commentText]
    rw [hshown] at hopen
    obtain ⟨middle, hloop, hmore⟩ := @readLoop_line doc state line []
      (hlines line List.mem_cons_self) (closes_of_append hopen)
      ('\n' :: (commentText lines last ++ tail))
    obtain ⟨after, hafter⟩ := @ih _ middle (fun other hother => hlines other
      (List.mem_cons_of_mem _ hother)) ((hmore _).symm.trans hopen)
    refine ⟨after, ?_⟩
    rw [htext, hloop, readLoop]
    exact hafter

theorem docSeen_line (hline : '\n' ∉ line) (column : ℕ) (tail : List Char) : ∃ after,
    docSeen column (line ++ tail) = line.take (lineRoom - column) ++ docSeen after tail := by
  induction line generalizing column with
  | nil => exact ⟨column, by simp⟩
  | cons c line ih =>
    rw [List.mem_cons, not_or] at hline
    rw [List.cons_append, docSeen, if_neg (Ne.symm hline.1)]
    split
    · rename_i hfull
      obtain ⟨after, hafter⟩ := ih hline.2 column
      refine ⟨after, ?_⟩
      rw [show lineRoom - column = 0 by rw [lineRoom]; omega] at hafter ⊢
      exact hafter
    · rename_i hroom
      obtain ⟨after, hafter⟩ := ih hline.2 (column + 1)
      refine ⟨after, ?_⟩
      rw [hafter, show lineRoom - column = lineRoom - (column + 1) + 1 by rw [lineRoom]; omega,
        List.take_succ_cons]
      rfl

theorem docSeen_commentText {lines : List (List Char)} {last : List Char}
    (hlines : ∀ line ∈ lines, '\n' ∉ line) (hlast : '\n' ∉ last) :
    docSeen 0 (commentText lines last) = shownText lines last := by
  induction lines with
  | nil =>
    obtain ⟨after, hafter⟩ := docSeen_line hlast 0 []
    rw [List.append_nil, docSeen, List.append_nil] at hafter
    exact hafter
  | cons line lines ih =>
    have htext : commentText (line :: lines) last = line ++ '\n' :: commentText lines last := by
      simp [commentText]
    obtain ⟨after, hafter⟩ := docSeen_line (hlines line List.mem_cons_self) 0
      ('\n' :: commentText lines last)
    rw [htext, hafter, docSeen, if_pos rfl,
      ih fun other hother => hlines other (List.mem_cons_of_mem _ hother)]
    simp [shownText]

/-- An end that does not fit into the buffer is not seen. -/
theorem readLoop_unseen (hlong : commentBufSize - 2 ≤ buf.length) (rest : List Char) : ∃ after,
    readLoop multilineStep ⟨some doc, state, buf⟩ ('*' :: '/' :: rest) =
      readLoop multilineStep after rest := by
  by_cases hfull : lineRoom ≤ buf.length
  · refine ⟨⟨some doc, state, buf⟩, ?_⟩
    rw [readLoop, multilineStep_full (by decide) hfull]
    dsimp only
    rw [readLoop, multilineStep_full (by decide) hfull]
  · refine ⟨⟨some doc, true, buf ++ ['*']⟩, ?_⟩
    rw [lineRoom] at hfull
    rw [readLoop, multilineStep_stored (by decide) (by omega), switchState,
      if_neg fun hslash => by cases hslash.2]
    dsimp only
    rw [readLoop, decide_eq_true rfl, multilineStep_full (by decide)
      (by rw [lineRoom, List.length_append, List.length_singleton]; omega)]

end Rounds

section Comments

variable {doc : List DataNode} {lines : List (List Char)} {last rest : List Char}

theorem result_docComment (doc : Option (List DataNode)) (lines : List (List Char))
    (last rest : List Char) : (maybeComment doc (docComment lines last rest)).result =
      readLoop multilineStep ⟨doc, false, []⟩ (commentText lines last ++ '*' :: '/' :: rest) := by
  simp [maybeComment, docComment, maybeDocComment, docPrefix, maybeDocCommentLoop,
    multilineComment]

/-- Where the end is seen, all lines are stored. -/
theorem result_of_endSeen (hlines : ∀ line ∈ lines, '\n' ∉ line) (hlast : '\n' ∉ last)
    (hseen : EndSeen lines last) :
    (maybeComment (some doc) (docComment lines last rest)).result =
      some (some (addLines doc lines), rest) := by
  obtain ⟨hshort, hopen⟩ := hseen
  obtain ⟨after, hloop⟩ := @readLoop_shown doc false lines last hlines hlast hopen
    ('*' :: '/' :: rest)
  rw [result_docComment, hloop]
  refine readLoop_commentEnd ?_ rest
  rw [List.length_take]
  exact (min_le_right _ _).trans hshort

/-- Otherwise another end is taken, or none. -/
theorem result_of_not_endSeen (hlines : ∀ line ∈ lines, '\n' ∉ line) (hlast : '\n' ∉ last)
    (hseen : ¬EndSeen lines last) (after : Option (List DataNode)) :
    (maybeComment (some doc) (docComment lines last rest)).result ≠ some (after, rest) := by
  rw [result_docComment]
  cases hcloses : closes (shownText lines last) with
  | true =>
    have hsome := isSome_multiline ⟨some doc, false, []⟩ (commentText lines last)
    have hahead : CommentState.ahead ⟨some doc, false, []⟩ (commentText lines last) =
        shownText lines last := docSeen_commentText hlines hlast
    rw [hahead, hcloses] at hsome
    obtain ⟨⟨value, left⟩, hloop⟩ := Option.isSome_iff_exists.mp hsome
    rw [readLoop_append hloop]
    intro heq
    have hlength := congrArg (fun result => result.elim 0 fun pair => pair.2.length) heq
    simp at hlength
    omega
  | false =>
    have hlong : commentBufSize - 2 ≤ (last.take lineRoom).length := by
      have hlast : ¬last.length ≤ commentBufSize - 3 := fun hshort => hseen ⟨hshort, hcloses⟩
      rw [commentBufSize] at hlast
      rw [List.length_take, lineRoom, commentBufSize]
      omega
    obtain ⟨middle, hloop⟩ := @readLoop_shown doc false lines last hlines hlast hcloses
      ('*' :: '/' :: rest)
    obtain ⟨other, hother⟩ := @readLoop_unseen (addLines doc lines) middle _ hlong rest
    rw [hloop, hother]
    exact fun heq => lt_irrefl _ (length_of_readLoop heq)

end Comments

/-- A documentation comment is read as far as the same comment without documentation if
and only if its end fits into the buffer and no end is seen before it.  Its lines are then
those that are stored, unless they hold a NUL. -/
theorem maybeComment_docComment_iff {doc : List DataNode} {lines : List (List Char)}
    {last rest : List Char} (hlines : ∀ line ∈ lines, '\n' ∉ line) (hlast : '\n' ∉ last)
    (hopen : closes (commentText lines last) = false) :
    (maybeComment none (docComment lines last rest)).result = some (none, rest) ∧
      ((∃ after, (maybeComment (some doc) (docComment lines last rest)).result =
        some (after, rest)) ↔ EndSeen lines last) ∧
      (doc.length + lines.length ≤ maxElems → (∀ line ∈ lines, line.length < commentBufSize) →
        ((maybeComment (some doc) (docComment lines last rest)).result =
            some (some (doc ++ lines.map fun line => .string (eatAsteriskSpace line)), rest) ↔
          EndSeen lines last ∧ ∀ line ∈ lines, nul ∉ line)) ∧
      ∀ line, Strips line (eatAsteriskSpace line) := by
  refine ⟨?_, ⟨fun hsame => ?_, fun hseen => ⟨_, result_of_endSeen hlines hlast hseen⟩⟩,
    fun hroom hshort => ?_, strips_eatAsteriskSpace⟩
  · have hpending : closes (pending false (commentText lines last)) = false := hopen
    rw [result_docComment]
    exact readLoop_skipped hpending rest
  · by_contra hseen
    obtain ⟨after, hafter⟩ := hsame
    exact result_of_not_endSeen hlines hlast hseen after hafter
  · by_cases hseen : EndSeen lines last
    · rw [result_of_endSeen hlines hlast hseen, and_iff_right hseen, addLines_of_room hroom]
      simp only [Option.some_inj, Prod.mk.injEq, and_true, List.append_cancel_left_eq,
        List.map_inj_left, DataNode.string.injEq]
      refine forall₂_congr fun line hline => ?_
      have hfits := hshort line hline
      rw [List.take_of_length_le (by rw [lineRoom]; omega)]
      exact eatAsteriskSpace_cString_iff
    · exact iff_of_false (result_of_not_endSeen hlines hlast hseen _) fun hboth => hseen hboth.1

theorem maybeComment_docComment_iff_line :
    (maybeComment (some []) (docComment [" * a".toList] [' '] [])).result =
      some (some [.string ['a']], []) := by
  have hread := @maybeComment_docComment_iff [] [" * a".toList] [' '] [] (by decide) (by decide)
    (by decide)
  exact (hread.2.2.1 (by decide) (by decide)).mpr ⟨⟨by decide, by decide⟩, by decide⟩

/-- An asterisk at the end of a line and a slash at the start of the next one end the
comment. -/
theorem maybeComment_docComment_early :
    closes (commentText ["x*".toList] "/ y ".toList) = false ∧
      (maybeComment none (docComment ["x*".toList] "/ y ".toList [])).result.map Prod.snd =
        some [] ∧
      (maybeComment (some []) (docComment ["x*".toList] "/ y ".toList [])).result.map Prod.snd =
        some " y */".toList := by
  refine ⟨by decide, by decide, by decide⟩

end GrapheneLtp.Metaparse
