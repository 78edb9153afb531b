import GrapheneLtp.Pan.Zoo

/-!
# Processes by their tags

`zoo_getpid` looks for the first line in use that has a tag, and returns the
process of that line.  It compares as many characters as the tag has, so a line
whose tag is longer and begins with it is taken too.
-/

namespace GrapheneLtp.Zoo

open CString Decimal

section Model

/-- The text behind the first comma of a line. -/
def afterComma (buf : List Char) : Option (List Char) :=
  match (cString buf).dropWhile (· ≠ ',') with
  | [] => none
  | _ :: rest => some rest

/-- The tests of the loop of `zoo_getpid`. -/
def hasTag (tag buf : List Char) : Bool :=
  !isFree buf && (afterComma buf).any fun rest => (cString tag).isPrefixOf rest

/-- `zoo_getpid` on the text of the file. -/
def zooGetpid (file tag : List Char) : ℤ :=
  match findLine (hasTag tag) (file.length + 1) 0 file with
  | some (_, buf) => atoi buf
  | none => -1

end Model

section Entries

/-- The lines of a file, as they are read. -/
def fileLines : ℕ → List Char → List (List Char)
  | 0, _ => []
  | fuel + 1, stream =>
    match fgets bufLen stream with
    | none => []
    | some (buf, rest) => buf :: fileLines fuel rest

/-- The active entries of a file: the lines that are not free and have a
comma. -/
def activeEntries (file : List Char) : List (List Char) :=
  (fileLines (file.length + 1) file).filter fun buf =>
    !isFree buf && (afterComma buf).isSome

/-- The tag field of an entry: between the first comma and the next one, or the
end of the line. -/
def tagField (buf : List Char) : Option (List Char) :=
  (afterComma buf).map fun rest => rest.takeWhile fun c => c ≠ ',' ∧ c ≠ '\n'

/-- The entry goes on with this tag behind its first comma. -/
def Begins (tag buf : List Char) : Prop := ∃ rest, afterComma buf = some rest ∧ cString tag <+: rest

/-- The process of the first entry with this tag, or -1. -/
def firstTagged (entries : List (List Char)) (tag : List Char) : ℤ :=
  ((entries.find? fun buf => decide (tagField buf = some (cString tag))).map atoi).getD (-1)

theorem findLine_eq_find (found : List Char → Bool) (fuel position : ℕ) (stream : List Char) :
    (findLine found fuel position stream).map Prod.snd = (fileLines fuel stream).find? found := by
  induction fuel generalizing position stream with
  | zero => rfl
  | succ fuel ih =>
    rw [findLine, fileLines]
    cases fgets bufLen stream with
    | none => rfl
    | some line =>
      obtain ⟨buf, rest⟩ := line
      dsimp only
      rw [List.find?_cons]
      cases found buf with
      | true => rfl
      | false => exact ih _ _

theorem hasTag_iff {tag buf : List Char} :
    hasTag tag buf = true ↔ isFree buf = false ∧ Begins tag buf := by
  unfold hasTag Begins
  cases afterComma buf with
  | none => simp
  | some rest => simp

instance (tag buf : List Char) : Decidable (Begins tag buf) :=
  decidable_of_iff ((afterComma buf).any (fun rest => (cString tag).isPrefixOf rest) = true)
    (by unfold Begins; cases afterComma buf with
      | none => simp
      | some rest => simp)

/-- The search goes over the active entries. -/
theorem find_hasTag (lines : List (List Char)) (tag : List Char) : lines.find? (hasTag tag) =
      (lines.filter fun buf => !isFree buf && (afterComma buf).isSome).find?
        fun buf => decide (Begins tag buf) := by
  rw [List.find?_filter]
  congr 1
  funext buf
  have hcomma : Begins tag buf → (afterComma buf).isSome = true := by
    rintro ⟨rest, hrest, -⟩
    rw [hrest, Option.isSome_some]
  rw [Bool.eq_iff_iff, hasTag_iff]
  simp only [decide_eq_true_eq, Bool.and_eq_true, Bool.not_eq_true']
  exact ⟨fun hbegins => ⟨⟨hbegins.1, hcomma hbegins.2⟩, hbegins.2⟩,
    fun hactive => ⟨hactive.1.1, hactive.2⟩⟩

/-- `zoo_getpid` returns the process of the first entry that begins with the
tag. -/
theorem zooGetpid_eq (file tag : List Char) : zooGetpid file tag =
      (((activeEntries file).find? fun buf => decide (Begins tag buf)).map atoi).getD (-1) := by
  have hfind := findLine_eq_find (hasTag tag) (file.length + 1) 0 file
  rw [find_hasTag] at hfind
  rw [activeEntries, ← hfind, zooGetpid]
  cases findLine (hasTag tag) (file.length + 1) 0 file with
  | none => rfl
  | some line => rfl

theorem begins_of_tagField {tag buf : List Char}
    (hfield : tagField buf = some (cString tag)) : Begins tag buf := by
  obtain ⟨rest, hrest, htag⟩ := Option.map_eq_some_iff.mp hfield
  exact ⟨rest, hrest, htag ▸ List.takeWhile_prefix _⟩

/-- The entry that `zoo_getpid` picks. -/
theorem zooGetpid_of_first {file tag buf : List Char} {before after : List (List Char)}
    (hentries : activeEntries file = before ++ buf :: after)
    (hbefore : ∀ other ∈ before, ¬Begins tag other) (hbegins : Begins tag buf) :
    zooGetpid file tag = atoi buf := by
  have hfirst : ((activeEntries file).find? fun buf => decide (Begins tag buf)) = some buf := by
    refine List.find?_eq_some_iff_append.mpr ⟨decide_eq_true hbegins, before, after, hentries, ?_⟩
    intro other hother
    rw [decide_eq_false (hbefore other hother)]
    rfl
  rw [zooGetpid_eq, hfirst]
  rfl

/-- An entry that has the tag begins with it, so the first one is not before the first that
begins with it. -/
theorem firstTagged_of_first {tag buf : List Char} {before after : List (List Char)}
    (hbefore : ∀ other ∈ before, ¬Begins tag other) :
    firstTagged (before ++ buf :: after) tag =
      if tagField buf = some (cString tag) then atoi buf else firstTagged after tag := by
  have hskip : (before.find? fun buf => decide (tagField buf = some (cString tag))) = none := by
    refine List.find?_eq_none.mpr fun other hother htagged => hbefore other hother ?_
    exact begins_of_tagField (of_decide_eq_true htagged)
  rw [firstTagged, List.find?_append, hskip, Option.none_or, List.find?_cons]
  by_cases hfield : tagField buf = some (cString tag)
  · rw [if_pos hfield, decide_eq_true hfield]
    rfl
  · rw [if_neg hfield, decide_eq_false hfield]
    rfl

/-- An entry is of the same process as the first entry with the tag behind it, or of the
process -1 when none behind it has the tag. -/
def SameProcess (tag buf : List Char) (after : List (List Char)) : Prop :=
  (∃ other, (after.find? fun other => decide (tagField other = some (cString tag))) = some other ∧
    atoi buf = atoi other) ∨
  (∀ other ∈ after, tagField other ≠ some (cString tag)) ∧ atoi buf = -1

theorem sameProcess_iff {tag buf : List Char} {after : List (List Char)} :
    SameProcess tag buf after ↔ atoi buf = firstTagged after tag := by
  rw [SameProcess, firstTagged]
  cases hfirst : after.find? fun other => decide (tagField other = some (cString tag)) with
  | none =>
    have hnone : ∀ other ∈ after, tagField other ≠ some (cString tag) := by
      simpa using List.find?_eq_none.mp hfirst
    simp [and_iff_right hnone]
  | some other =>
    have htagged : tagField other = some (cString tag) := by simpa using List.find?_some hfirst
    have hsome : ¬∀ other ∈ after, tagField other ≠ some (cString tag) :=
      fun hnone => hnone other (List.mem_of_find?_eq_some hfirst) htagged
    simp [hsome]

theorem find_tagged_none {entries : List (List Char)} {tag : List Char}
    (hnone : (entries.find? fun buf => decide (Begins tag buf)) = none) :
    (entries.find? fun buf => decide (tagField buf = some (cString tag))) = none := by
  rw [List.find?_eq_none] at hnone ⊢
  intro buf hbuf htagged
  exact hnone buf hbuf (decide_eq_true (begins_of_tagField (of_decide_eq_true htagged)))

end Entries

section Histories

theorem fileLines_render {lines : List (List Char)} (hlines : ∀ line ∈ lines, Record line)
    {fuel : ℕ} (hfuel : lines.length < fuel) :
    fileLines fuel (render lines) = lines.map fun line => line ++ ['\n'] := by
  induction lines generalizing fuel with
  | nil =>
    obtain ⟨fuel, rfl⟩ := Nat.exists_eq_succ_of_ne_zero (Nat.ne_of_gt hfuel)
    rfl
  | cons line lines ih =>
    obtain ⟨fuel, rfl⟩ := Nat.exists_eq_succ_of_ne_zero (Nat.ne_of_gt (Nat.zero_lt_of_lt hfuel))
    have hrest := ih (fun other hother => hlines other (List.mem_cons_of_mem _ hother))
      (Nat.lt_of_succ_lt_succ hfuel)
    rw [render_cons, fileLines, fgets_record (hlines line List.mem_cons_self)]
    dsimp only
    rw [hrest, List.map_cons]

/-- The text behind the process number of a line in use. -/
theorem afterComma_markLine (pid : Int32) {tag cmdline : List Char} (htag : '\n' ∉ tag)
    (hcmdline : '\n' ∉ cmdline) :
    (afterComma (markLine pid tag cmdline ++ ['\n'])).isSome = true := by
  have hrecord := record_markLine pid htag hcmdline
  have hstring : nul ∉ markLine pid tag cmdline ++ ['\n'] := by
    simpa [nul] using hrecord.string
  obtain ⟨rest, hline⟩ := markLine_eq pid tag cmdline
  have hdrop : (markLine pid tag cmdline ++ ['\n']).dropWhile (· ≠ ',') =
      ',' :: (rest ++ ['\n']) := by
    rw [hline, List.append_assoc, List.cons_append]
    refine dropWhile_append_stop (fun c hc => ?_) (by decide)
    exact decide_eq_true fun heq =>
      not_mem_signedDecimal rfl (by decide) (heq ▸ hc)
  rw [afterComma, cString_of_not_mem hstring, hdrop]
  rfl

variable {ops : List Op}

theorem Pending.line_eq {marks : List Mark} (hpending : Pending ops marks)
    (hclean : ∀ op ∈ ops, op.Clean) :
    ∀ mark ∈ marks, ∃ tag cmdline, '\n' ∉ tag ∧ '\n' ∉ cmdline ∧
      mark.line = markLine mark.pid tag cmdline := by
  induction hpending with
  | none => simp
  | mark pid tag cmdline _ ih =>
    intro mark hmark
    rcases List.mem_cons.mp hmark with rfl | hmark
    · obtain ⟨htag, hcmdline⟩ := hclean (.mark pid tag cmdline) (by simp)
      exact ⟨tag, cmdline, htag, hcmdline, rfl⟩
    · exact ih (fun op hop => hclean op (List.mem_append_left _ hop)) mark hmark
  | clear _ _ ih =>
    intro mark hmark
    exact ih (fun op hop => hclean op (List.mem_append_left _ hop)) mark
      (List.mem_of_mem_erase hmark)
  | missing _ _ ih =>
    exact ih fun op hop => hclean op (List.mem_append_left _ hop)

/-- The active entries are the lines of the marks that have not been cleared. -/
theorem activeEntries_runOps (hclean : ∀ op ∈ ops, op.Clean) :
    ∃ lines marks, runOps ops = render lines ∧ Pending ops marks ∧
      activeEntries (runOps ops) = (used lines).map (fun line => line ++ ['\n']) ∧
      (used lines).Perm (marks.map Mark.line) ∧
      ∀ mark ∈ marks, atoi (mark.line ++ ['\n']) = mark.pid.toInt := by
  obtain ⟨lines, marks, hfile, hpending, hholds⟩ := holds_runOps hclean
  refine ⟨lines, marks, hfile, hpending, ?_, hholds.pending,
    fun mark hmark => (hholds.owner mark hmark).2⟩
  have hfuel : lines.length < (render lines).length + 1 := by
    rw [length_render hholds.records]
    omega
  rw [hfile, activeEntries, fileLines_render hholds.records hfuel, List.filter_map, used]
  refine congrArg (List.map _) (List.filter_congr fun line hline => ?_)
  have hrecord := hholds.records line hline
  by_cases hfree : Free line
  · simp [(isFree_iff hrecord).mpr hfree, hfree]
  · have hused : line ∈ used lines := List.mem_filter.mpr ⟨hline, decide_eq_true hfree⟩
    obtain ⟨mark, hmark, rfl⟩ := List.mem_map.mp (hholds.pending.mem_iff.mp hused)
    obtain ⟨tag, cmdline, htag, hcmdline, hmarkLine⟩ := hpending.line_eq hclean mark hmark
    have hcomma : (afterComma (mark.line ++ ['\n'])).isSome = true :=
      hmarkLine ▸ afterComma_markLine mark.pid htag hcmdline
    have hnot : isFree (mark.line ++ ['\n']) = false :=
      Bool.eq_false_iff.mpr (mt (isFree_iff hrecord).mp hfree)
    simp [hcomma, hnot, hfree]

/-- After any calls, `zoo_getpid` returns the process of the first active entry
with the tag, or -1, exactly if the first active entry that begins with the tag
has no longer one, or is of the same process as the first one with the tag behind it.  The
active entries are those of the marks that have not been cleared. -/
theorem zooGetpid_firstTagged_iff (ops : List Op) (tag : List Char) :
    ((∀ op ∈ ops, op.Clean) → ∃ lines marks, runOps ops = render lines ∧ Pending ops marks ∧
      activeEntries (runOps ops) = (used lines).map (fun line => line ++ ['\n']) ∧
      (used lines).Perm (marks.map Mark.line) ∧
      ∀ mark ∈ marks, atoi (mark.line ++ ['\n']) = mark.pid.toInt) ∧
    (zooGetpid (runOps ops) tag = firstTagged (activeEntries (runOps ops)) tag ↔
      ∀ before buf after, activeEntries (runOps ops) = before ++ buf :: after →
        (∀ other ∈ before, ¬Begins tag other) → Begins tag buf →
        tagField buf = some (cString tag) ∨ SameProcess tag buf after) := by
  refine ⟨activeEntries_runOps, ?_⟩
  constructor
  · intro hequal before buf after hentries hbefore hbegins
    rw [zooGetpid_of_first hentries hbefore hbegins, hentries,
      firstTagged_of_first hbefore] at hequal
    by_cases hfield : tagField buf = some (cString tag)
    · exact .inl hfield
    · rw [if_neg hfield] at hequal
      exact .inr (sameProcess_iff.mpr hequal)
  · intro hcondition
    cases hfirst : (activeEntries (runOps ops)).find? fun buf => decide (Begins tag buf) with
    | none => simp [zooGetpid_eq, hfirst, firstTagged, find_tagged_none hfirst]
    | some buf =>
      obtain ⟨hbegins, before, after, hentries, hskip⟩ := List.find?_eq_some_iff_append.mp hfirst
      have hbefore : ∀ other ∈ before, ¬Begins tag other := by simpa using hskip
      have hbegins := of_decide_eq_true hbegins
      rw [zooGetpid_of_first hentries hbefore hbegins, hentries, firstTagged_of_first hbefore]
      by_cases hfield : tagField buf = some (cString tag)
      · rw [if_pos hfield]
      · rw [if_neg hfield]
        exact sameProcess_iff.mp
          ((hcondition before buf after hentries hbefore hbegins).resolve_left hfield)

/-- A tag of its own is found behind a free line. -/
theorem zooGetpid_firstTagged_own :
    zooGetpid (runOps [.mark 3 ['x'] ['c'], .mark 5 ['t', '1'] ['a'], .clear 3]) ['t', '1'] =
    firstTagged (activeEntries (runOps [.mark 3 ['x'] ['c'],
      .mark 5 ['t', '1'] ['a'], .clear 3])) ['t', '1'] := by
  refine (zooGetpid_firstTagged_iff _ _).2.mpr fun before buf after hentries _ _ => .inl ?_
  have hall : ∀ buf ∈ activeEntries (runOps [.mark 3 ['x'] ['c'],
      .mark 5 ['t', '1'] ['a'], .clear 3]), tagField buf = some (cString ['t', '1']) := by
    decide +kernel
  exact hall buf (by simp [hentries])

/-- A process with a longer tag is returned for a tag that nobody has. -/
theorem zooGetpid_longer_tag : zooGetpid (runOps [.mark 5 ['t', '1', '0'] ['a']]) ['t', '1'] = 5 ∧
      firstTagged (activeEntries (runOps [.mark 5 ['t', '1', '0'] ['a']])) ['t', '1'] = -1 := by
  decide +kernel

end Histories

end GrapheneLtp.Zoo
