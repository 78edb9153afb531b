import GrapheneLtp.Metadata.Reading

/-!
# The buffer of a token

`next_token2` looks at the size of its buffer for the characters of literals, not
for those of words.  It takes a quote for the end of a literal unless a backslash
was stored before it.
-/

namespace GrapheneLtp.Metaparse

open CString DataStorage Traced

/-- A write, if it is one, stays in its array. -/
def Event.InBounds : Event → Prop
  | .access size index => 0 ≤ index ∧ index < size
  | _ => True

/-- The cells that the word at the start of a stream and its NUL take.  A comment
without an end leaves no NUL. -/
def cellsNeeded : ℕ → Bool → Option (List DataNode) → List Char → ℕ
  | 0, _, _, _ => 0
  | _ + 1, _, _, [] => 1
  | fuel + 1, started, doc, c :: rest =>
    if isPunct c then 1
    else if isWordChar c then 1 + cellsNeeded fuel true doc rest
    else if c = '/' then
      (maybeComment doc rest).result.elim 0 fun result =>
        cellsNeeded fuel started result.1 result.2
    else if c = '"' then 1
    else if isBlank c ∧ started then 1
    else cellsNeeded fuel started doc rest

/-- The contents of a string literal of C: a backslash goes with the character after it. -/
def isLiteralBody : List Char → Bool
  | [] => true
  | ['\\'] => false
  | '\\' :: _ :: rest => isLiteralBody rest
  | c :: rest => c != '"' && c != '\n' && isLiteralBody rest

/-! ## Writes -/

section Writes

theorem maybeComment_inBounds (doc : Option (List DataNode)) (stream : List Char) :
    ∀ event ∈ (maybeComment doc stream).events, event.InBounds := by
  have hmultiline (doc : Option (List DataNode)) (stream : List Char) :
      ∀ event ∈ (multilineComment doc stream).events, event.InBounds := by
    simp [multilineComment, past, Event.InBounds]
  have hskip (stream : List Char) : ∀ event ∈ (skipComment doc stream).events, event.InBounds := by
    rw [skipComment, forall_events_bind]
    exact ⟨hmultiline none stream, fun _ _ => by simp [pure]⟩
  have hloop (expected stream : List Char) :
      ∀ event ∈ (maybeDocCommentLoop doc expected stream).events, event.InBounds := by
    induction expected generalizing stream with
    | nil => exact hmultiline doc stream
    | cons c left ih =>
      cases stream with
      | nil => exact hskip []
      | cons first rest =>
        rw [maybeDocCommentLoop]
        split
        · exact ih rest
        split
        · exact hskip _
        · exact hskip _
  cases stream with
  | nil => simp [maybeComment, pure]
  | cons c rest =>
    rw [maybeComment]
    split
    · rw [forall_events_bind]
      exact ⟨by simp [onelineComment, past, Event.InBounds], fun _ _ => by simp [pure]⟩
    split
    · exact hloop docPrefix rest
    · simp [pure]

variable {size : ℕ} {buf : List Char} {doc : Option (List DataNode)}

theorem access_inBounds (size index : ℕ) :
    (∀ event ∈ (access size index).events, event.InBounds) ↔ index < size := by
  simp [access, past, Event.InBounds]

theorem exitToken_inBounds {inStr : Bool} (hsome : buf ≠ [] ∨ inStr = true) (rest : List Char) :
    (∀ event ∈ (exitToken size buf inStr doc rest).events, event.InBounds) ↔
      buf.length < size := by
  have hexit : ¬(buf = [] ∧ inStr = false) := by
    rintro ⟨hnil, hfalse⟩
    rcases hsome with hbuf | hstr
    · exact hbuf hnil
    · rw [hfalse] at hstr
      cases hstr
  rw [exitToken, if_neg hexit, forall_events_bind, access_inBounds]
  exact and_iff_left fun _ _ => by simp [pure]

theorem length_storeChar_lt (c : Char) : (storeChar size buf c).length < size ↔
    buf.length < size := by
  rw [storeChar]
  split
  · rw [List.length_append, List.length_singleton]
    omega
  · rfl

/-- In a literal the size of the buffer is looked at. -/
theorem nextTokenLoop_inBounds_literal {fuel : ℕ} {stream : List Char}
    (hfuel : stream.length < fuel) :
    (∀ event ∈ (nextTokenLoop size fuel buf true doc stream).events, event.InBounds) ↔
      buf.length < size := by
  induction fuel generalizing buf stream with
  | zero => cases hfuel
  | succ fuel ih =>
    cases stream with
    | nil => exact exitToken_inBounds (.inr rfl) []
    | cons c rest =>
      rw [nextTokenLoop, if_pos rfl]
      split
      · exact exitToken_inBounds (.inr rfl) rest
      · rw [ih (by simpa using hfuel), length_storeChar_lt]

/-- All writes of a token stay in the buffer if and only if it has the cells that the
word needs. -/
theorem nextTokenLoop_inBounds_iff {fuel : ℕ} {stream : List Char} (hsize : 2 ≤ size)
    (hbuf : buf.length ≤ size) (hfuel : stream.length < fuel) :
    (∀ event ∈ (nextTokenLoop size fuel buf false doc stream).events, event.InBounds) ↔
      buf.length + cellsNeeded fuel (decide (buf ≠ [])) doc stream ≤ size := by
  have hexit {buf : List Char} {doc : Option (List DataNode)} (rest : List Char) :
      (∀ event ∈ (exitToken size buf false doc rest).events, event.InBounds) ↔
        buf.length + 1 ≤ size := by
    obtain rfl | hne := eq_or_ne buf []
    · exact iff_of_true (by simp [exitToken, pure]) (by simp; omega)
    · rw [exitToken_inBounds (.inl hne)]
      omega
  induction fuel generalizing buf doc stream with
  | zero => cases hfuel
  | succ fuel ih =>
    cases stream with
    | nil => exact hexit []
    | cons c rest =>
      rw [List.length_cons] at hfuel
      rw [nextTokenLoop, cellsNeeded, if_neg Bool.false_ne_true]
      by_cases hpunct : isPunct c = true
      · rw [if_pos hpunct, if_pos hpunct]
        split
        · exact hexit _
        · rename_i hnil
          rw [not_not.mp hnil, storeChar, if_pos (by simp; omega)]
          exact (hexit _).trans (by simp; omega)
      rw [if_neg hpunct, if_neg hpunct]
      by_cases hword : isWordChar c = true
      · rw [if_pos hword, if_pos hword, forall_events_bind, access_inBounds]
        by_cases hroom : buf.length < size
        · have hstarted : decide (buf ++ [c] ≠ []) = true := by simp
          have hnext := @ih (buf ++ [c]) doc rest (by simp; omega) (by omega)
          rw [hstarted, List.length_append, List.length_singleton] at hnext
          simp only [hroom, true_and, result_access hroom, forall_const]
          exact hnext.trans (by omega)
        · exact iff_of_false (fun hboth => hroom hboth.1) (by omega)
      rw [if_neg hword, if_neg hword]
      by_cases hslash : c = '/'
      · rw [if_pos hslash, if_pos hslash, forall_events_bind,
          and_iff_right (maybeComment_inBounds doc rest)]
        cases hresult : (maybeComment doc rest).result with
        | none => simpa using hbuf
        | some result =>
          have hlength := (maybeComment_meets doc rest).2 result hresult
          simp only [Option.some_inj, forall_eq', Option.elim_some]
          exact ih hbuf (by omega)
      rw [if_neg hslash, if_neg hslash]
      by_cases hquote : c = '"'
      · rw [if_pos hquote, if_pos hquote, nextTokenLoop_inBounds_literal (by omega)]
        omega
      rw [if_neg hquote, if_neg hquote]
      by_cases hblank : isBlank c = true
      · rw [if_pos hblank]
        by_cases hstarted : buf ≠ []
        · rw [if_pos hstarted, if_pos ⟨hblank, by simpa using hstarted⟩]
          exact hexit rest
        · rw [if_neg hstarted, if_neg fun hboth => hstarted (by simpa using hboth.2)]
          exact ih hbuf (by omega)
      · rw [if_neg hblank, if_neg fun hboth => hblank hboth.1]
        exact ih hbuf (by omega)

end Writes

/-! ## Literals -/

section Literals

variable {size : ℕ} {buf body rest : List Char} {doc : Option (List DataNode)}

/-- A quote in a literal stands after a backslash. -/
theorem getLast_of_isLiteralBody (hbody : isLiteralBody body = true) {before after : List Char}
    (hsplit : body = before ++ '"' :: after) : before.getLast? = some '\\' := by
  induction body using isLiteralBody.induct generalizing before with
  | case1 => simp at hsplit
  | case2 => cases hbody
  | case3 c rest ih =>
    rw [isLiteralBody] at hbody
    match before with
    | [] => cases hsplit
    | [first] =>
      cases hsplit
      rfl
    | first :: second :: before =>
      simp only [List.cons_append, List.cons.injEq] at hsplit
      have hlast := ih hbody hsplit.2.2
      simp [List.getLast?_cons, hlast]
  | case4 c rest hone htwo ih =>
    rw [isLiteralBody] at hbody
    · simp only [Bool.and_eq_true, bne_iff_ne] at hbody
      match before with
      | [] =>
        cases hsplit
        exact absurd rfl hbody.1.1
      | first :: before =>
        simp only [List.cons_append, List.cons.injEq] at hsplit
        have hlast := ih hbody.2 hsplit.2
        simp [List.getLast?_cons, hlast]
    · exact hone
    · exact htwo

/-- A character of a literal that does not end it. -/
theorem scan_inside {c : Char} (hinside : ¬(c = '"' ∧ buf.getLast? ≠ some '\\'))
    (stream : List Char) : scan size buf true doc (c :: stream) =
      scan size (storeChar size buf c) true doc stream := by
  rw [scan, nextTokenLoop, if_pos rfl, if_neg hinside]
  exact result_nextTokenLoop size _ _ _ (Nat.lt_succ_self _)

theorem scan_closing (hlast : buf.getLast? ≠ some '\\') (hbuf : buf.length < size)
    (stream : List Char) : scan size buf true doc ('"' :: stream) =
      some ⟨some (cString buf), doc, stream⟩ := by
  rw [scan, nextTokenLoop, if_pos rfl, if_pos ⟨rfl, hlast⟩]
  exact result_exitToken (.inr rfl) hbuf doc stream

/-- A token starts with what was stored before. -/
theorem exists_scan_literal (hbuf : buf.length < size) (stream : List Char) :
    ∃ reading stored, scan size buf true doc stream = some reading ∧
      reading.token = some (cString (buf ++ stored)) ∧
      (size ≤ buf.length + 1 → stored = []) := by
  induction stream generalizing buf with
  | nil => exact ⟨_, [], result_exitToken (.inr rfl) hbuf doc [], by simp, fun _ => rfl⟩
  | cons c stream ih =>
    by_cases hend : c = '"' ∧ buf.getLast? ≠ some '\\'
    · rw [hend.1]
      exact ⟨_, [], scan_closing hend.2 hbuf stream, by simp, fun _ => rfl⟩
    · obtain ⟨reading, stored, hscan, htoken, hfull⟩ := @ih (storeChar size buf c)
        ((length_storeChar_lt c).mpr hbuf)
      rw [scan_inside hend, hscan]
      rw [storeChar] at htoken hfull
      split at htoken
      · rename_i hroom
        refine ⟨reading, c :: stored, rfl, by rwa [List.append_cons], fun hle => by omega⟩
      · rename_i hroom
        rw [if_neg hroom] at hfull
        exact ⟨reading, stored, rfl, htoken, hfull⟩

/-- The contents are stored as far as there is room for them. -/
theorem scan_literalBody (hbody : isLiteralBody body = true) {before after more : List Char}
    (hsplit : body = before ++ after ++ more) (hroom : before.length + after.length < size)
    (stream : List Char) :
    scan size before true doc (after ++ stream) = scan size (before ++ after) true doc stream := by
  induction after generalizing before with
  | nil => rw [List.append_nil, List.nil_append]
  | cons c after ih =>
    rw [List.length_cons] at hroom
    have hstored : storeChar size before c = before ++ [c] := by
      rw [storeChar, if_pos (by omega)]
    have hescaped : ¬(c = '"' ∧ before.getLast? ≠ some '\\') := by
      rintro ⟨rfl, hlast⟩
      exact hlast (getLast_of_isLiteralBody hbody (by simpa using hsplit))
    rw [List.cons_append, scan_inside hescaped, hstored, List.append_cons before c after]
    exact ih (by rw [hsplit, List.append_cons before c after]) (by simp; omega)

/-- A full buffer stays as it is up to the next quote. -/
theorem scan_full (hbuf : size ≤ buf.length + 1) {more : List Char} (hmore : '"' ∉ more)
    (stream : List Char) :
    scan size buf true doc (more ++ stream) = scan size buf true doc stream := by
  induction more with
  | nil => rfl
  | cons c more ih =>
    rw [List.mem_cons, not_or] at hmore
    rw [List.cons_append, scan_inside fun hend => hmore.1 hend.1.symm, storeChar,
      if_neg (by omega), ih hmore.2]

/-- A literal that is too long for the buffer is cut off, wherever its end is seen. -/
theorem scan_longLiteral (hbody : isLiteralBody body = true) {before after : List Char}
    (hsplit : body = before ++ after) (hbefore : before.length < size)
    (hlong : size ≤ body.length + 1) :
    ∃ reading, scan size before true doc (after ++ '"' :: rest) = some reading ∧
      reading.token = some (cString (body.take (size - 1))) := by
  induction after generalizing before with
  | nil =>
    rw [List.append_nil] at hsplit
    obtain ⟨reading, stored, hscan, htoken, hfull⟩ :=
      @exists_scan_literal size before doc hbefore ('"' :: rest)
    refine ⟨reading, hscan, ?_⟩
    rw [hsplit] at hlong ⊢
    rw [htoken, hfull hlong, List.append_nil, List.take_of_length_le (by omega)]
  | cons c after ih =>
    by_cases hroom : before.length + 1 < size
    · have hstored : storeChar size before c = before ++ [c] := by
        rw [storeChar, if_pos (by omega)]
      have hescaped : ¬(c = '"' ∧ before.getLast? ≠ some '\\') := by
        rintro ⟨rfl, hlast⟩
        exact hlast (getLast_of_isLiteralBody hbody hsplit)
      rw [List.cons_append, scan_inside hescaped, hstored]
      exact ih (by rw [hsplit, List.append_cons]) (by simpa using hroom)
    · obtain ⟨reading, stored, hscan, htoken, hfull⟩ :=
        @exists_scan_literal size before doc hbefore (c :: after ++ '"' :: rest)
      refine ⟨reading, hscan, ?_⟩
      rw [htoken, hfull (by omega), List.append_nil, hsplit,
        List.take_append_of_le_length (by omega), List.take_of_length_le (by omega)]

theorem cString_eq_iff {text : List Char} : cString text = text ↔ nul ∉ text :=
  ⟨fun heq => heq ▸ nul_not_mem_cString text, cString_of_not_mem⟩

/-- The token of a literal is its contents, unless they end with a backslash that is not
the last character that fits. -/
theorem scan_literal_iff (hsize : 2 ≤ size) (hbody : isLiteralBody body = true) :
    (∃ reading, scan size [] true doc (body ++ '"' :: rest) = some reading ∧
        reading.token = some (body.take (size - 1))) ↔
      nul ∉ body.take (size - 1) ∧ ¬(body.getLast? = some '\\' ∧ body.length + 1 < size) := by
  have hunique {stream : List Char} {reading : Reading} {token : List Char}
      (hscan : scan size [] true doc stream = some reading) :
      (∃ other, scan size [] true doc stream = some other ∧ other.token = some token) ↔
        reading.token = some token := by
    rw [hscan]
    simp
  rcases le_or_gt size (body.length + 1) with hlong | hshort
  · obtain ⟨reading, hscan, htoken⟩ := @scan_longLiteral size body rest doc hbody [] body rfl
      (by simp; omega) hlong
    rw [hunique hscan, htoken, Option.some_inj, cString_eq_iff,
      and_iff_left fun hboth => by omega]
  · rw [List.take_of_length_le (by omega)]
    have hbefore := @scan_literalBody size body doc hbody [] body [] (by simp) (by simp; omega)
      ('"' :: rest)
    by_cases hlast : body.getLast? = some '\\'
    · -- The closing quote is stored, and more after it.
      have hstored : storeChar size body '"' = body ++ ['"'] := by
        rw [storeChar, if_pos (by omega)]
      obtain ⟨reading, stored, hscan, htoken, -⟩ := @exists_scan_literal size (body ++ ['"']) doc
        (by simp; omega) rest
      have hquote : scan size body true doc ('"' :: rest) = some reading := by
        rw [scan_inside fun hend => hend.2 hlast, hstored, hscan]
      rw [hunique (hbefore.trans hquote), htoken, Option.some_inj]
      refine iff_of_false (fun hsame => ?_) fun hboth => hboth.2 ⟨hlast, hshort⟩
      have hnul : nul ∉ body := hsame ▸ nul_not_mem_cString _
      have hkept : cString (body ++ ['"'] ++ stored) = body ++ ['"'] ++ cString stored := by
        refine List.takeWhile_append_of_pos fun c hc => ?_
        have hc : c ≠ nul := by
          rintro rfl
          rcases List.mem_append.mp hc with hc | hc
          · exact hnul hc
          · exact absurd hc (by decide)
        simpa using hc
      rw [hkept] at hsame
      have hlength := congrArg List.length hsame
      simp at hlength
    · have hquote := @scan_closing size body doc hlast (by omega) rest
      rw [hunique (hbefore.trans hquote), Option.some_inj, cString_eq_iff,
        and_iff_left fun hboth => hlast hboth.1]

theorem exists_scan_fillers {fillers : List Filler} {doc : Option (List DataNode)}
    (hregular : ∀ filler ∈ fillers, filler.regular doc.isSome = true)
    (stream : List Char) : ∃ after, scan size [] false doc (fillers.flatMap Filler.text ++ stream) =
      scan size [] false after stream := by
  induction fillers generalizing doc with
  | nil => exact ⟨doc, rfl⟩
  | cons filler fillers ih =>
    obtain ⟨middle, hmiddle, hsome⟩ := @scan_filler doc.isSome size [] filler
      (hregular filler List.mem_cons_self) (.inl rfl) doc id (fillers.flatMap Filler.text ++ stream)
    obtain ⟨after, hafter⟩ := @ih middle fun other hother =>
      hsome ▸ hregular other (List.mem_cons_of_mem _ hother)
    refine ⟨after, ?_⟩
    rw [List.flatMap_cons, List.append_assoc, hmiddle, hafter]

end Literals

/-- All writes stay in the buffer if and only if it has the cells that a word needs, and
after blanks and comments a literal of C is returned, as far as it fits, if and only if it
holds no NUL and no backslash stands before its closing quote. -/
theorem nextToken2_iff {size : ℕ} (hsize : 2 ≤ size) (doc : Option (List DataNode))
    (stream : List Char) :
    ((∀ event ∈ (nextToken2 size doc stream).events, event.InBounds) ↔
        cellsNeeded (stream.length + 1) false doc stream ≤ size) ∧
      ∀ (fillers : List Filler) (body rest : List Char),
        (∀ filler ∈ fillers, filler.regular doc.isSome = true) → isLiteralBody body = true →
        stream = fillers.flatMap Filler.text ++ '"' :: (body ++ '"' :: rest) →
        ((∃ reading, (nextToken2 size doc stream).result = some reading ∧
            reading.token = some (body.take (size - 1))) ↔
          nul ∉ body.take (size - 1) ∧
            ¬(body.getLast? = some '\\' ∧ body.length + 1 < size)) := by
  refine ⟨?_, fun fillers body rest hregular hbody hstream => ?_⟩
  · have hwrites := @nextTokenLoop_inBounds_iff size [] doc (stream.length + 1) stream hsize
      (by simp) (Nat.lt_succ_self _)
    rwa [List.length_nil, zero_add] at hwrites
  · obtain ⟨after, hafter⟩ := @exists_scan_fillers size fillers doc hregular
      ('"' :: (body ++ '"' :: rest))
    have hresult : (nextToken2 size doc stream).result =
        scan size [] true after (body ++ '"' :: rest) := by
      rw [hstream, ← scan_openString, ← hafter]
      rfl
    rw [hresult]
    exact scan_literal_iff hsize hbody

theorem nextToken2_iff_literal :
    (∀ event ∈ (nextToken2 8 none " \"a\\\"b\" x".toList).events, event.InBounds) ∧
      ∃ reading, (nextToken2 8 none " \"a\\\"b\" x".toList).result = some reading ∧
        reading.token = some "a\\\"b".toList := by
  have hread := @nextToken2_iff 8 (by decide) none " \"a\\\"b\" x".toList
  exact ⟨hread.1.mpr (by decide), (hread.2 [.blank ' '] "a\\\"b".toList " x".toList (by decide)
    (by decide) (by decide)).mpr ⟨by decide, by decide⟩⟩

/-- A word of two characters is written past a buffer of two, and a literal that ends with
an escaped backslash goes on after its closing quote. -/
theorem nextToken2_overruns :
    .access 2 2 ∈ (nextToken2 2 none "ab".toList).events ∧
      isLiteralBody "a\\\\".toList = true ∧
      (nextToken2 16 none "\"a\\\\\" x \"".toList).result.map Reading.token =
        some (some "a\\\\\" x ".toList) := by
  refine ⟨by decide, by decide, by decide⟩

end GrapheneLtp.Metaparse
