import Mathlib.Tactic
import GrapheneLtp.Core.Decimal
import GrapheneLtp.Core.FirstMatch

/-!
# The active file of ltp-pan

`zoolib.c` keeps one line of fixed length per process in a file.  A line that
starts with `#` is free.  Marking a process overwrites the first free line or
appends one, and clearing it writes `#` over the first character of its line.
-/

namespace GrapheneLtp.Zoo

open CString Decimal FirstMatch

section Model

/-- `BUFLEN`. -/
def bufLen : ℕ := 81

/-- Text written at a position of the file, over what is there. -/
def writeAt (file : List Char) (position : ℕ) (text : List Char) : List Char :=
  file.take position ++ text ++ file.drop (position + text.length)

/-- The format `"%-*.*s\n"`: padded and truncated to the width. -/
def padLine (width : ℕ) (entry : List Char) : List Char :=
  entry.take width ++ List.replicate (width - entry.length) ' ' ++ ['\n']

/-- The loop over the lines of the file: the position and the contents of the
first one that is found.  Every `fgets` takes a character of the stream, so
the stream's length is fuel enough. -/
def findLine (found : List Char → Bool) : ℕ → ℕ → List Char → Option (ℕ × List Char)
  | 0, _, _ => none
  | fuel + 1, position, stream =>
    match fgets bufLen stream with
    | none => none
    | some (buf, rest) =>
      if found buf then some (position, buf)
      else findLine found fuel (position + buf.length) rest

/-- `buf[0] == '#'`. -/
def isFree (buf : List Char) : Bool := buf.head? == some '#'

/-- `zoo_mark`. -/
def zooMark (file entry : List Char) : List Char :=
  match findLine isFree (file.length + 1) 0 file with
  | some (position, buf) =>
    writeAt file position (padLine ((cString buf).length - 1) entry)
  | none => file ++ padLine 79 entry

/-- The entry that `zoo_mark_cmdline` prints into 80 characters. -/
def entryText (pid : Int32) (tag cmdline : List Char) : List Char :=
  (signedDecimal pid.toInt ++ ',' :: (cString tag ++ ',' :: cString cmdline)).take 79

def zooMarkCmdline (file : List Char) (pid : Int32) (tag cmdline : List Char) : List Char :=
  zooMark file (entryText pid tag cmdline)

/-- The line of a process in use. -/
def isPid (pid : Int32) (buf : List Char) : Bool := !isFree buf && atoi buf == pid.toInt

/-- `zoo_clear`, with the value it returns. -/
def zooClear (file : List Char) (pid : Int32) : List Char × ℕ :=
  match findLine (isPid pid) (file.length + 1) 0 file with
  | some (position, _) => (writeAt file position ['#'], 0)
  | none => (file, 1)

end Model

section Records

/-- A line without its newline. -/
structure Record (line : List Char) : Prop where
  length : line.length = 79
  newline : '\n' ∉ line
  string : nul ∉ line

/-- The file with these lines. -/
def render (lines : List (List Char)) : List Char := lines.flatMap fun line => line ++ ['\n']

theorem render_append (first second : List (List Char)) :
    render (first ++ second) = render first ++ render second :=
  List.flatMap_append

theorem render_cons (line : List Char) (rest : List (List Char)) :
    render (line :: rest) = line ++ '\n' :: render rest := by
  simp [render]

variable {lines before after : List (List Char)} {line : List Char} {found : List Char → Bool}

theorem length_render (hlines : ∀ line ∈ lines, Record line) :
    (render lines).length = 80 * lines.length := by
  induction lines with
  | nil => rfl
  | cons line rest ih =>
    have hline := (hlines line List.mem_cons_self).length
    have hrest := ih fun other hother =>
      hlines other (List.mem_cons_of_mem _ hother)
    rw [render_cons, List.length_append, List.length_cons, hrest, hline, List.length_cons]
    omega

theorem fgets_record (hline : Record line) (rest : List Char) :
    fgets bufLen (line ++ '\n' :: rest) = some (line ++ ['\n'], rest) :=
  fgets_line hline.newline (by rw [hline.length]; decide)

/-- The loop passes over lines that are not found. -/
theorem findLine_skip (hbefore : ∀ line ∈ before, Record line)
    (hskip : ∀ line ∈ before, found (line ++ ['\n']) = false)
    (fuel position : ℕ) (rest : List Char) :
    findLine found (before.length + fuel) position (render before ++ rest) =
      findLine found fuel (position + 80 * before.length) rest := by
  induction before generalizing position with
  | nil => simp [render]
  | cons line before ih =>
    have hline := hbefore line List.mem_cons_self
    have hfuel : (line :: before).length + fuel = (before.length + fuel) + 1 := by
      rw [List.length_cons]
      omega
    rw [hfuel, render_cons, List.append_assoc, List.cons_append, findLine, fgets_record hline]
    simp only [hskip line List.mem_cons_self, Bool.false_eq_true, if_false]
    rw [ih (fun other hother => hbefore other (List.mem_cons_of_mem _ hother))
      (fun other hother => hskip other (List.mem_cons_of_mem _ hother))]
    congr 1
    rw [List.length_append, hline.length, List.length_singleton, List.length_cons]
    omega

theorem findLine_none (hlines : ∀ line ∈ lines, Record line)
    (hskip : ∀ line ∈ lines, found (line ++ ['\n']) = false) {fuel : ℕ}
    (hfuel : lines.length < fuel) :
    findLine found fuel 0 (render lines) = none := by
  obtain ⟨more, rfl⟩ := Nat.exists_eq_add_of_lt hfuel
  have hrun := findLine_skip hlines hskip (more + 1) 0 []
  rw [List.append_nil, ← Nat.add_assoc] at hrun
  rw [hrun]
  rfl

theorem findLine_found (hbefore : ∀ line ∈ before, Record line)
    (hskip : ∀ line ∈ before, found (line ++ ['\n']) = false)
    (hline : Record line) (hfound : found (line ++ ['\n']) = true) {fuel : ℕ}
    (hfuel : before.length < fuel) :
    findLine found fuel 0 (render (before ++ line :: after)) =
      some (80 * before.length, line ++ ['\n']) := by
  obtain ⟨more, rfl⟩ := Nat.exists_eq_add_of_lt hfuel
  rw [render_append, Nat.add_assoc, findLine_skip hbefore hskip, render_cons,
    findLine, fgets_record hline]
  simp [hfound]

/-- A line is overwritten, from its start on. -/
theorem writeAt_render (hbefore : ∀ line ∈ before, Record line)
    {text old rest : List Char} (hlength : text.length = old.length) :
    writeAt (render before ++ (old ++ rest)) (80 * before.length) text =
      render before ++ (text ++ rest) := by
  rw [writeAt, hlength, ← length_render hbefore, ← List.length_append,
    List.take_left, ← List.append_assoc, List.drop_left, List.append_assoc]

end Records

section Operations

/-- The line that marks a process. -/
def markLine (pid : Int32) (tag cmdline : List Char) : List Char := entryText pid tag cmdline ++
    List.replicate (79 - (entryText pid tag cmdline).length) ' '

theorem padLine_entryText (pid : Int32) (tag cmdline : List Char) :
    padLine 79 (entryText pid tag cmdline) = markLine pid tag cmdline ++ ['\n'] := by
  have hlength : (entryText pid tag cmdline).length ≤ 79 := List.length_take_le _ _
  rw [padLine, markLine, List.take_of_length_le hlength]

theorem signedDecimal_length (pid : Int32) : (signedDecimal pid.toInt).length ≤ 11 := by
  have hlow := pid.le_toInt
  have hhigh := pid.toInt_lt
  have hdigits : (decimal pid.toInt.natAbs).length ≤ 10 := length_decimal_le (by decide) (by omega)
  unfold signedDecimal
  split
  · rw [List.length_cons]
    omega
  · omega

/-- The number of the process and a comma come before any truncation. -/
theorem markLine_eq (pid : Int32) (tag cmdline : List Char) : ∃ rest, markLine pid tag cmdline =
      signedDecimal pid.toInt ++ ',' :: rest := by
  have hlength := signedDecimal_length pid
  obtain ⟨room, hroom⟩ : ∃ room, 79 - (signedDecimal pid.toInt).length =
      room + 1 := ⟨78 - (signedDecimal pid.toInt).length, by omega⟩
  have hentry (pad : List Char) : entryText pid tag cmdline ++ pad =
      signedDecimal pid.toInt ++ ',' ::
        ((cString tag ++ ',' :: cString cmdline).take room ++ pad) := by
    rw [entryText, List.take_append, List.take_of_length_le (hlength.trans (by decide)), hroom,
      List.take_succ_cons, List.append_assoc, List.cons_append]
  exact ⟨_, hentry _⟩

theorem not_mem_signedDecimal {value : ℤ} {c : Char}
    (hdigit : c.isDigit = false) (hminus : c ≠ '-') :
    c ∉ signedDecimal value := by
  have hdigits : c ∉ decimal value.natAbs := fun hmem =>
    isDigit_ne (isDigit_of_mem_decimal hmem) hdigit rfl
  unfold signedDecimal
  split
  · simp [hminus, hdigits]
  · exact hdigits

theorem record_markLine (pid : Int32) {tag cmdline : List Char}
    (htag : '\n' ∉ tag) (hcmdline : '\n' ∉ cmdline) :
    Record (markLine pid tag cmdline) := by
  have hmem {c : Char} (hdigit : c.isDigit = false) (hminus : c ≠ '-')
      (hcomma : c ≠ ',') (hblank : c ≠ ' ') (hctag : c ∉ cString tag)
      (hccmdline : c ∉ cString cmdline) : c ∉ markLine pid tag cmdline := by
    have hentry : c ∉ entryText pid tag cmdline := by
      intro hin
      have hfull := List.mem_of_mem_take hin
      simp [not_mem_signedDecimal hdigit hminus, hcomma, hctag, hccmdline] at hfull
    simp [markLine, hentry, hblank]
  have hstring (text : List Char) : nul ∉ cString text := by
    intro hin
    simpa using List.mem_takeWhile_imp hin
  have hsubset {text : List Char} (htext : '\n' ∉ text) : '\n' ∉ cString text := fun hin =>
    htext ((List.takeWhile_sublist _).subset hin)
  refine ⟨?_, ?_, ?_⟩
  · have hlength : (entryText pid tag cmdline).length ≤ 79 := List.length_take_le _ _
    rw [markLine, List.length_append, List.length_replicate]
    omega
  · exact hmem rfl (by decide) (by decide) (by decide) (hsubset htag) (hsubset hcmdline)
  · exact hmem rfl (by decide) (by decide) (by decide) (hstring tag) (hstring cmdline)

/-- One line of the file takes the place of another, and the rest stays. -/
def Replaced (found : List Char → Prop) (change : List Char → List Char)
    (lines next : List (List Char)) : Prop :=
  ∃ before line after, lines = before ++ line :: after ∧ found line ∧
    (∀ other ∈ before, ¬found other) ∧ next = before ++ change line :: after

/-- The line is free. -/
def Free (line : List Char) : Prop := line.head? = some '#'

instance (line : List Char) : Decidable (Free line) := inferInstanceAs (Decidable (_ = _))

/-- The line is in use, by this process. -/
def UsedBy (pid : Int32) (line : List Char) : Prop := ¬Free line ∧ atoi (line ++ ['\n']) = pid.toInt

variable {lines : List (List Char)} {line : List Char} {pid : Int32}

theorem Record.ne_nil (hline : Record line) : line ≠ [] := by
  rintro rfl
  cases hline.length

theorem record_freed (hline : Record line) : Record ('#' :: line.tail) := by
  obtain ⟨first, rest, rfl⟩ := List.exists_cons_of_ne_nil hline.ne_nil
  have hnewline := hline.newline
  have hstring := hline.string
  rw [List.mem_cons, not_or] at hnewline hstring
  refine ⟨hline.length, ?_, ?_⟩
  · rw [List.mem_cons, not_or]
    exact ⟨by decide, hnewline.2⟩
  · rw [List.mem_cons, not_or]
    exact ⟨by decide, hstring.2⟩

theorem isFree_iff (hline : Record line) : isFree (line ++ ['\n']) = true ↔ Free line := by
  rw [isFree, List.head?_append_of_ne_nil _ hline.ne_nil, beq_iff_eq, Free]

theorem isPid_iff (hline : Record line) : isPid pid (line ++ ['\n']) = true ↔ UsedBy pid line := by
  rw [isPid, Bool.and_eq_true, Bool.not_eq_true', ← Bool.not_eq_true,
    isFree_iff hline, beq_iff_eq, UsedBy]

/-- The loop finds the first line with a property, if there is one. -/
theorem findLine_render {found : List Char → Bool}
    {property : List Char → Prop} [DecidablePred property]
    (hfound : ∀ line, Record line → (found (line ++ ['\n']) = true ↔ property line))
    (hlines : ∀ line ∈ lines, Record line) :
    (∃ before line after, lines = before ++ line :: after ∧ property line ∧
      (∀ other ∈ before, ¬property other) ∧
      findLine found ((render lines).length + 1) 0 (render lines) =
        some (80 * before.length, line ++ ['\n'])) ∨
    (∀ line ∈ lines, ¬property line) ∧
      findLine found ((render lines).length + 1) 0 (render lines) = none := by
  have hlength := length_render hlines
  have hskip {some : List (List Char)} (hsome : ∀ line ∈ some, Record line)
      (hnone : ∀ line ∈ some, ¬property line) :
      ∀ line ∈ some, found (line ++ ['\n']) = false := by
    intro line hline
    rw [← Bool.not_eq_true, hfound line (hsome line hline)]
    exact hnone line hline
  cases hresult : replaceFirst (fun line => decide (property line)) id lines with
  | none =>
    have hnone : ∀ line ∈ lines, ¬property line := by
      simpa using replaceFirst_eq_none.mp hresult
    refine .inr ⟨hnone, findLine_none hlines (hskip hlines hnone) ?_⟩
    omega
  | some result =>
    obtain ⟨before, after, htable, -, hline, hbefore⟩ :=
      replaceFirst_eq_some hresult
    have hnone : ∀ other ∈ before, ¬property other := by
      simpa using hbefore
    have hproperty : property result.1 := by simpa using hline
    have hrecords : ∀ other ∈ before, Record other := fun other hother =>
      hlines other (htable ▸ List.mem_append_left _ hother)
    have hrecord : Record result.1 := hlines _ (htable ▸ List.mem_append_right _ List.mem_cons_self)
    refine .inl ⟨before, result.1, after, htable, hproperty, hnone, ?_⟩
    subst htable
    apply findLine_found hrecords (hskip hrecords hnone) hrecord
    · exact (hfound _ hrecord).mpr hproperty
    · rw [hlength, List.length_append]
      omega

instance (pid : Int32) (line : List Char) : Decidable (UsedBy pid line) :=
  inferInstanceAs (Decidable (_ ∧ _))

theorem records_replace {before after : List (List Char)} {new : List Char}
    (hlines : ∀ line ∈ lines, Record line)
    (htable : lines = before ++ line :: after) (hnew : Record new) :
    ∀ line ∈ before ++ new :: after, Record line := by
  subst htable
  intro other hother
  simp only [List.mem_append, List.mem_cons] at hother hlines
  rcases hother with hin | rfl | hin
  · exact hlines other (.inl hin)
  · exact hnew
  · exact hlines other (.inr (.inr hin))

/-- A mark takes the first free line, or a new one at the end. -/
theorem zooMarkCmdline_lines (hlines : ∀ line ∈ lines, Record line)
    {tag cmdline : List Char} (htag : '\n' ∉ tag) (hcmdline : '\n' ∉ cmdline) :
    ∃ next, zooMarkCmdline (render lines) pid tag cmdline = render next ∧
      (∀ line ∈ next, Record line) ∧
      (Replaced Free (fun _ => markLine pid tag cmdline) lines next ∨ (∀ line ∈ lines, ¬Free line) ∧
          next = lines ++ [markLine pid tag cmdline]) := by
  have hrecord := record_markLine pid htag hcmdline
  rcases findLine_render (fun _ => isFree_iff) hlines with
    ⟨before, line, after, htable, hfree, hnone, hfind⟩ | ⟨hnone, hfind⟩
  · refine ⟨before ++ markLine pid tag cmdline :: after, ?_, ?_,
      .inl ⟨before, line, after, htable, hfree, hnone, rfl⟩⟩
    · have hline : Record line := hlines line (by simp [htable])
      have hstring : nul ∉ line ++ ['\n'] := by
        simpa [nul] using hline.string
      have hwidth : (cString (line ++ ['\n'])).length - 1 = 79 := by
        rw [cString_of_not_mem hstring, List.length_append, hline.length]
        rfl
      have hbefore : ∀ other ∈ before, Record other := fun other hother =>
        hlines other (by simp [htable, hother])
      simp only [zooMarkCmdline, zooMark, hfind, hwidth, padLine_entryText]
      have hsplit : render lines = render before ++ (line ++ ['\n'] ++ render after) := by
        rw [htable, render_append, render_cons, List.append_assoc]
        rfl
      rw [hsplit, writeAt_render hbefore, render_append, render_cons, List.append_assoc]
      · rfl
      · rw [List.length_append, List.length_append, hrecord.length, hline.length]
    · exact records_replace hlines htable hrecord
  · refine ⟨lines ++ [markLine pid tag cmdline], ?_, ?_, .inr ⟨hnone, rfl⟩⟩
    · simp only [zooMarkCmdline, zooMark, hfind, padLine_entryText]
      rw [render_append, render_cons]
      rfl
    · intro other hother
      rcases List.mem_append.mp hother with hin | hin
      · exact hlines other hin
      · rw [List.mem_singleton.mp hin]
        exact hrecord

/-- Clearing frees the first line that the process uses. -/
theorem zooClear_lines (hlines : ∀ line ∈ lines, Record line) :
    ∃ next, (zooClear (render lines) pid).1 = render next ∧ (∀ line ∈ next, Record line) ∧
      (Replaced (UsedBy pid) (fun line => '#' :: line.tail) lines next ∨
        (∀ line ∈ lines, ¬UsedBy pid line) ∧ next = lines) := by
  rcases findLine_render (fun _ => isPid_iff) hlines with
    ⟨before, line, after, htable, hused, hnone, hfind⟩ | ⟨hnone, hfind⟩
  · refine ⟨before ++ ('#' :: line.tail) :: after, ?_, ?_,
      .inl ⟨before, line, after, htable, hused, hnone, rfl⟩⟩
    · have hline : Record line := hlines line (by simp [htable])
      have hbefore : ∀ other ∈ before, Record other := fun other hother =>
        hlines other (by simp [htable, hother])
      obtain ⟨first, rest, rfl⟩ := List.exists_cons_of_ne_nil hline.ne_nil
      have hsplit : render lines =
          render before ++ ([first] ++ (rest ++ '\n' :: render after)) := by
        rw [htable, render_append, render_cons]
        rfl
      have hlength : ['#'].length = [first].length := rfl
      simp only [zooClear, hfind]
      rw [hsplit, writeAt_render hbefore hlength, render_append, render_cons]
      rfl
    · exact records_replace hlines htable (record_freed (hlines line (by simp [htable])))
  · refine ⟨lines, ?_, hlines, .inr ⟨hnone, rfl⟩⟩
    simp only [zooClear, hfind]

end Operations

section Histories

/-- A call of the library. -/
inductive Op
  | mark (pid : Int32) (tag cmdline : List Char)
  | clear (pid : Int32)
deriving DecidableEq

def Op.run (file : List Char) : Op → List Char
  | .mark pid tag cmdline => zooMarkCmdline file pid tag cmdline
  | .clear pid => (zooClear file pid).1

/-- The file after these calls, from an empty one. -/
def runOps (ops : List Op) : List Char := ops.foldl Op.run []

/-- Neither the tag nor the command line has a newline. -/
def Op.Clean : Op → Prop
  | .mark _ tag cmdline => '\n' ∉ tag ∧ '\n' ∉ cmdline
  | .clear _ => True

/-- A mark and its line. -/
structure Mark where
  pid : Int32
  line : List Char
deriving DecidableEq

/-- The marks that have not been cleared.  Clearing takes away one mark of the
process, if there is one. -/
inductive Pending : List Op → List Mark → Prop
  | none : Pending [] []
  | mark {ops : List Op} {marks : List Mark} (pid : Int32)
      (tag cmdline : List Char) : Pending ops marks →
        Pending (ops ++ [.mark pid tag cmdline])
          (⟨pid, markLine pid tag cmdline⟩ :: marks)
  | clear {ops : List Op} {marks : List Mark} {mark : Mark} :
      Pending ops marks → mark ∈ marks →
        Pending (ops ++ [.clear mark.pid]) (marks.erase mark)
  | missing {ops : List Op} {marks : List Mark} {pid : Int32} :
      Pending ops marks → (∀ mark ∈ marks, mark.pid ≠ pid) →
        Pending (ops ++ [.clear pid]) marks

/-- What a call does to the lines of the file. -/
def Op.Changes (lines next : List (List Char)) : Op → Prop
  | .mark pid tag cmdline =>
    Replaced Free (fun _ => markLine pid tag cmdline) lines next ∨ (∀ line ∈ lines, ¬Free line) ∧
        next = lines ++ [markLine pid tag cmdline]
  | .clear pid =>
    Replaced (UsedBy pid) (fun line => '#' :: line.tail) lines next ∨
      (∀ line ∈ lines, ¬UsedBy pid line) ∧ next = lines

/-- The lines in use. -/
def used (lines : List (List Char)) : List (List Char) := lines.filter fun line => ¬Free line

variable {lines next : List (List Char)} {op : Op} {ops : List Op}

theorem op_lines (hlines : ∀ line ∈ lines, Record line) (hclean : op.Clean) :
    ∃ next, op.run (render lines) = render next ∧
      (∀ line ∈ next, Record line) ∧ op.Changes lines next := by
  cases op with
  | mark pid tag cmdline =>
    exact zooMarkCmdline_lines hlines hclean.1 hclean.2
  | clear pid => exact zooClear_lines hlines

theorem usedBy_markLine (pid : Int32) (tag cmdline : List Char) :
    UsedBy pid (markLine pid tag cmdline) := by
  obtain ⟨rest, hline⟩ := markLine_eq pid tag cmdline
  rw [hline]
  constructor
  · intro hfree
    have hhash : '#' ∉ signedDecimal pid.toInt := not_mem_signedDecimal rfl (by decide)
    cases htext : signedDecimal pid.toInt with
    | nil => simp [Free, htext] at hfree
    | cons first digits =>
      rw [htext] at hfree hhash
      have hfirst : first = '#' := by simpa [Free] using hfree
      exact hhash (hfirst ▸ List.mem_cons_self)
  · rw [List.append_assoc, List.cons_append]
    exact atoi_signedDecimal pid.toInt _ rfl

theorem used_free {line : List Char} (hfree : Free line) (before after : List (List Char)) :
    used (before ++ line :: after) = used (before ++ after) := by
  simp [used, hfree]

theorem used_taken {line : List Char} (htaken : ¬Free line) (before after : List (List Char)) :
    (used (before ++ line :: after)).Perm (line :: used (before ++ after)) := by
  simp only [used, List.filter_append, List.filter_cons, htaken,
    not_false_eq_true, decide_true, if_true]
  exact List.perm_middle

/-- A mark adds its line to those in use. -/
theorem used_mark {pid : Int32} {tag cmdline : List Char}
    (hchanges : (Op.mark pid tag cmdline).Changes lines next) :
    (used next).Perm (markLine pid tag cmdline :: used lines) := by
  have htaken := (usedBy_markLine pid tag cmdline).1
  rcases hchanges with ⟨before, line, after, rfl, hfree, -, rfl⟩ | ⟨-, rfl⟩
  · rw [used_free hfree]
    exact used_taken htaken before after
  · have hnew := used_taken htaken lines []
    rwa [List.append_nil] at hnew

/-- Clearing takes one line of the process from those in use. -/
theorem used_clear {pid : Int32} (hchanges : (Op.clear pid).Changes lines next) :
    (∃ line, UsedBy pid line ∧ (used lines).Perm (line :: used next)) ∨
      (∀ line ∈ lines, ¬UsedBy pid line) ∧ next = lines := by
  rcases hchanges with ⟨before, line, after, rfl, hused, -, rfl⟩ | hnone
  · refine .inl ⟨line, hused, ?_⟩
    have hfreed : Free ('#' :: line.tail) := rfl
    rw [used_free hfreed]
    exact used_taken hused.1 before after
  · exact .inr hnone

/-- The lines in use are those of the marks that have not been cleared. -/
structure Holds (lines : List (List Char)) (marks : List Mark) : Prop where
  records : ∀ line ∈ lines, Record line
  pending : (used lines).Perm (marks.map Mark.line)
  owner : ∀ mark ∈ marks, UsedBy mark.pid mark.line

theorem holds_mark {marks : List Mark} (hholds : Holds lines marks)
    {pid : Int32} {tag cmdline : List Char}
    (hrecords : ∀ line ∈ next, Record line)
    (hchanges : (Op.mark pid tag cmdline).Changes lines next) :
    Holds next (⟨pid, markLine pid tag cmdline⟩ :: marks) where
  records := hrecords
  pending := (used_mark hchanges).trans (hholds.pending.cons _)
  owner := by
    intro mark hmark
    rcases List.mem_cons.mp hmark with rfl | hold
    · exact usedBy_markLine pid tag cmdline
    · exact hholds.owner mark hold

theorem holds_clear {marks : List Mark} (hholds : Holds lines marks)
    (hpending : Pending ops marks) {pid : Int32}
    (hrecords : ∀ line ∈ next, Record line)
    (hchanges : (Op.clear pid).Changes lines next) :
    ∃ left, Pending (ops ++ [.clear pid]) left ∧ Holds next left := by
  rcases used_clear hchanges with ⟨line, hused, hperm⟩ | ⟨hnone, rfl⟩
  · have hline : line ∈ marks.map Mark.line :=
      hholds.pending.mem_iff.mp (hperm.mem_iff.mpr List.mem_cons_self)
    obtain ⟨mark, hmark, rfl⟩ := List.mem_map.mp hline
    have hpid : mark.pid = pid := by
      apply Int32.toInt_inj.mp
      exact (hholds.owner mark hmark).2.symm.trans hused.2
    subst hpid
    refine ⟨marks.erase mark, .clear hpending hmark, hrecords, ?_, ?_⟩
    · have herase := ((List.perm_cons_erase hmark).map Mark.line)
      exact (hperm.symm.trans (hholds.pending.trans herase)).cons_inv
    · intro other hother
      exact hholds.owner other (List.mem_of_mem_erase hother)
  · refine ⟨marks, .missing hpending ?_, hholds⟩
    intro mark hmark hpid
    have hline : mark.line ∈ used next := hholds.pending.mem_iff.mpr (List.mem_map_of_mem hmark)
    have hused := hholds.owner mark hmark
    exact hnone mark.line (List.mem_filter.mp hline).1 (hpid ▸ hused)

theorem runOps_concat (ops : List Op) (op : Op) : runOps (ops ++ [op]) = op.run (runOps ops) := by
  rw [runOps, List.foldl_concat, ← runOps]

/-- The file of every history is made of records, for the marks pending. -/
theorem holds_runOps (hclean : ∀ op ∈ ops, op.Clean) :
    ∃ lines marks, runOps ops = render lines ∧ Pending ops marks ∧ Holds lines marks := by
  induction ops using List.reverseRecOn with
  | nil => exact ⟨[], [], rfl, .none, by simp, by simp [used], by simp⟩
  | append_singleton ops op ih =>
    obtain ⟨lines, marks, hfile, hpending, hholds⟩ := ih
      fun other hother => hclean other (List.mem_append_left _ hother)
    have hop : op.Clean := hclean op (List.mem_append_right _ List.mem_cons_self)
    obtain ⟨next, hnext, hrecords, hchanges⟩ := op_lines hholds.records hop
    rw [← hfile, ← runOps_concat] at hnext
    cases op with
    | mark pid tag cmdline =>
      exact ⟨next, _, hnext, .mark pid tag cmdline hpending, holds_mark hholds hrecords hchanges⟩
    | clear pid =>
      obtain ⟨left, hleft, hafter⟩ := holds_clear hholds hpending hrecords hchanges
      exact ⟨next, left, hnext, hleft, hafter⟩

/-- After any calls, the file consists of lines of `BUFLEN - 1` characters
with their newline; those in use are the lines of the marks not yet cleared;
and the next call changes one line only. -/
theorem zoo_records (ops : List Op) (op : Op) (hclean : ∀ call ∈ ops ++ [op], call.Clean) :
    ∃ lines marks, runOps ops = render lines ∧
      (∀ line ∈ lines, (line ++ ['\n']).length = bufLen - 1 ∧ '\n' ∉ line) ∧
      Pending ops marks ∧ (used lines).Perm (marks.map Mark.line) ∧
      ∃ next, runOps (ops ++ [op]) = render next ∧ op.Changes lines next := by
  obtain ⟨lines, marks, hfile, hpending, hholds⟩ := holds_runOps
    fun other hother => hclean other (List.mem_append_left _ hother)
  obtain ⟨next, hnext, -, hchanges⟩ := op_lines hholds.records
    (hclean op (List.mem_append_right _ List.mem_cons_self))
  rw [← hfile, ← runOps_concat] at hnext
  refine ⟨lines, marks, hfile, ?_, hpending, hholds.pending, next, hnext, hchanges⟩
  intro line hline
  have hrecord := hholds.records line hline
  refine ⟨?_, hrecord.newline⟩
  rw [List.length_append, hrecord.length]
  rfl

/-- One process is marked and cleared, and another takes its line. -/
theorem zoo_records_reuse : ∃ lines marks, runOps [.mark 5 ['t'] ['a'], .clear 5] = render lines ∧
      (∀ line ∈ lines, (line ++ ['\n']).length = bufLen - 1 ∧ '\n' ∉ line) ∧
      Pending [.mark 5 ['t'] ['a'], .clear 5] marks ∧
      (used lines).Perm (marks.map Mark.line) ∧
      ∃ next, runOps [.mark 5 ['t'] ['a'], .clear 5, .mark 6 ['u'] ['b']] =
        render next ∧ (Op.mark 6 ['u'] ['b']).Changes lines next := by
  apply zoo_records [.mark 5 ['t'] ['a'], .clear 5] (.mark 6 ['u'] ['b'])
  intro call hcall
  simp only [List.cons_append, List.nil_append, List.mem_cons, List.not_mem_nil, or_false] at hcall
  rcases hcall with rfl | rfl | rfl
  · exact ⟨by decide, by decide⟩
  · trivial
  · exact ⟨by decide, by decide⟩

/-- A tag with a newline breaks the line in two. -/
theorem zoo_records_newline : ¬∃ lines, runOps [.mark 1 ['a', '\n', 'b'] ['c']] = render lines ∧
      ∀ line ∈ lines, (line ++ ['\n']).length = bufLen - 1 ∧ '\n' ∉ line := by
  rintro ⟨lines, hfile, hlines⟩
  cases lines with
  | nil =>
    have hempty := congrArg List.length hfile
    revert hempty
    decide
  | cons line rest =>
    obtain ⟨hlength, hnewline⟩ := hlines line List.mem_cons_self
    have hline : line.length = 79 := by
      rw [List.length_append, List.length_singleton] at hlength
      exact Nat.succ.inj hlength
    have htake := congrArg (List.take 79) hfile
    rw [render_cons, List.take_left' hline] at htake
    apply hnewline
    rw [← htake]
    decide

end Histories

end GrapheneLtp.Zoo
