import GrapheneLtp.Core.CString
import GrapheneLtp.Core.Lines

/-!
# The search for a driver

`tst_search_driver` looks for a module in `modules.dep` or `modules.builtin`.  The file is
read with `fgets` in pieces of at most `PATH_MAX - 1` characters, each piece is cut at its
first colon, and what is left is searched for `/`, the name and `.ko`.  The name is tried as
it was given and with its separators exchanged.
-/

namespace GrapheneLtp.SearchDriver

open CString Lines

section Code

/-- The piece up to its first colon, where a NUL is stored. -/
def cutDependencies (buf : List Char) : List Char := buf.takeWhile fun c => c != ':'

/-- The text `search`. -/
def searchText (driver : List Char) : List Char := '/' :: (driver ++ ['.', 'k', 'o'])

/-- The loop over the file. -/
def searchLoop (search : List Char) : ℕ → List Char → ℤ
  | 0, _ => -1
  | fuel + 1, stream =>
    match fgets pathMax stream with
    | none => -1
    | some (text, stream) =>
      if (strstr search (cutDependencies (cString text) ++ [nul])).isSome then 0
      else searchLoop search fuel stream

/-- The text that `strstr` looks for first. -/
def wrongArch : List Char := ['x', '8', '6', '-', '6', '4']

/-- The name after `fix[3] = '_'`. -/
def fixArch (driver : List Char) : List Char :=
  match strstr wrongArch (driver ++ [nul]) with
  | none => driver
  | some fix => driver.set (driver.length + 1 - fix.length + 3) '_'

/-- `tst_search_driver_` for a file that can be read: its result, and the name as it is left
behind.  There is no result if the name has to be changed and is not `writable`. -/
def tstSearchDriver_ (writable : Bool) (driver file : List Char) : Option (ℤ × List Char) :=
  if (strstr wrongArch (driver ++ [nul])).isSome ∧ writable = false then none
  else some (searchLoop (searchText (fixArch driver)) (file.length + 1) file, fixArch driver)

/-- The name with its separators replaced. -/
def exchanged (driver : List Char) : List Char :=
  if '_' ∈ driver then driver.map fun c => if c = '_' then '-' else c
  else driver.map fun c => if c = '-' then '_' else c

/-- `tst_search_driver`. -/
def tstSearchDriver (writable : Bool) (driver file : List Char) : Option ℤ := do
  let (ret, driver) ← tstSearchDriver_ writable driver file
  if ret = 0 then some 0
  else if '-' ∈ driver ∨ '_' ∈ driver then do
    let (ret, _) ← tstSearchDriver_ true (exchanged driver) file
    some ret
  else some (-1)

end Code

section Meaning

/-- The characters of a driver name. -/
def IsNameChar (c : Char) : Prop := c.isAlphanum ∨ c = '_' ∨ c = '-'

/-- A separator is as good as the other. -/
def underscore (c : Char) : Char := if c = '-' then '_' else c

/-- Names that differ in their separators only. -/
def Alike (name driver : List Char) : Prop := name.map underscore = driver.map underscore

/-- The suffixes of a compressed module. -/
def compressions : List (List Char) :=
  [[], ['.', 'g', 'z'], ['.', 'x', 'z'], ['.', 'z', 's', 't']]

/-- What stands behind `.ko` is a suffix and then the end of the path, and the path has not
ended before. -/
def EndsPath (before after : List Char) : Prop :=
  ':' ∉ before ∧ ∃ suffix ∈ compressions, ∃ rest, after = suffix ++ rest ∧
    (rest = [] ∨ rest.head? = some ':')

/-- The path of a line has the driver as its file name. -/
def Names (driver line : List Char) : Prop :=
  ∃ before name after, line = before ++ (name ++ ['.', 'k', 'o']) ++ after ∧
    (before = [] ∨ before.getLast? = some '/') ∧ Alike name driver ∧ EndsPath before after

/-- Some line of the file is about the driver. -/
def Named (driver file : List Char) : Prop := ∃ line ∈ file.splitOn '\n', Names driver line

/-- What the function should do. -/
def Right (writable : Bool) (driver file : List Char) : Prop :=
  ∃ ret, tstSearchDriver writable driver file = some ret ∧ (ret = 0 ↔ Named driver file)

end Meaning

section Conditions

/-- The names that are tried. -/
def tried (driver : List Char) : List (List Char) :=
  let first := fixArch driver
  if '-' ∈ first ∨ '_' ∈ first then [first, fixArch (exchanged first)] else [first]

/-- A text stands in a line behind `before`, inside one piece and before the colon of the
piece. -/
def InPiece (line search before after : List Char) : Prop :=
  line = before ++ search ++ after ∧ ∃ k, (pathMax - 1) * k ≤ before.length ∧
    before.length + search.length ≤ (pathMax - 1) * (k + 1) ∧
    ':' ∉ before.drop ((pathMax - 1) * k)

/-- A name that is tried stands in one piece, as the file name of a path. -/
def Plain (driver file : List Char) : Prop :=
  ∃ line ∈ file.splitOn '\n', ∃ name ∈ tried driver, ∃ before after,
    InPiece line (searchText name) before after ∧ EndsPath before after

/-- A name that is tried stands in one piece, elsewhere. -/
def Stray (driver file : List Char) : Prop :=
  ∃ line ∈ file.splitOn '\n', ∃ name ∈ tried driver, ∃ before after,
    InPiece line (searchText name) before after ∧ ¬EndsPath before after

end Conditions

section Pieces

/-- A text that can be searched for in a piece. -/
structure Searchable (search : List Char) : Prop where
  ne_nil : search ≠ []
  colon : ':' ∉ search
  newline : '\n' ∉ search
  nul : nul ∉ search

variable {search : List Char}

theorem cutDependencies_append {front : List Char} (hfront : ':' ∉ front) (rest : List Char) :
    cutDependencies (front ++ rest) = front ++ cutDependencies rest := by
  refine List.takeWhile_append_of_pos fun c hc => ?_
  simpa using ne_of_mem_of_not_mem hc hfront

theorem colon_not_mem_cut (text : List Char) : ':' ∉ cutDependencies text := by
  intro hmem
  have hne := List.mem_takeWhile_imp hmem
  simp at hne

/-- A text in a part of a line, before the first colon of the part. -/
theorem infix_part_iff (hsearch : Searchable search) {line : List Char} {size k : ℕ} :
    search <:+: cutDependencies ((line.drop (size * k)).take size) ↔
      ∃ before after, line = before ++ search ++ after ∧ size * k ≤ before.length ∧
        before.length + search.length ≤ size * (k + 1) ∧ ':' ∉ before.drop (size * k) := by
  rw [Nat.mul_succ]
  constructor
  · rintro ⟨front, rest, hcut⟩
    obtain ⟨behind, hpart⟩ : ∃ behind,
        front ++ search ++ rest ++ behind = (line.drop (size * k)).take size := by
      rw [hcut]
      exact List.takeWhile_prefix _
    have hlength := congrArg List.length hpart
    have hpositive := List.length_pos_of_ne_nil hsearch.ne_nil
    simp only [List.length_append, List.length_take, List.length_drop] at hlength
    have htake : (line.take (size * k)).length = size * k := by
      rw [List.length_take]
      omega
    have hfront : ':' ∉ front := by
      have hcolon := colon_not_mem_cut ((line.drop (size * k)).take size)
      rw [← hcut] at hcolon
      exact fun hmem => hcolon (by simp [hmem])
    refine ⟨line.take (size * k) ++ front, rest ++ behind ++ (line.drop (size * k)).drop size,
      ?_, ?_, ?_, ?_⟩
    · calc line = line.take (size * k) ++ ((line.drop (size * k)).take size ++
              (line.drop (size * k)).drop size) := by
            rw [List.take_append_drop, List.take_append_drop]
        _ = _ := by
            rw [← hpart]
            simp only [List.append_assoc]
    · rw [List.length_append, htake]
      omega
    · rw [List.length_append, htake]
      omega
    · rwa [List.drop_left' htake]
  · rintro ⟨before, after, rfl, hstart, hend, hcolon⟩
    have hfront : (before.drop (size * k) ++ search).length ≤ size := by
      rw [List.length_append, List.length_drop]
      omega
    rw [List.append_assoc, List.drop_append_of_le_length hstart, ← List.append_assoc,
      List.take_append, List.take_of_length_le hfront, List.append_assoc,
      cutDependencies_append hcolon, cutDependencies_append hsearch.colon]
    exact ⟨before.drop (size * k), _, by rw [List.append_assoc]⟩

/-- A text in one of the pieces of a line. -/
def SeenIn (search line : List Char) : Prop :=
  ∃ k, search <:+: cutDependencies ((line.drop ((pathMax - 1) * k)).take (pathMax - 1))

theorem seenIn_iff (hsearch : Searchable search) {line : List Char} :
    SeenIn search line ↔ ∃ before after, InPiece line search before after := by
  simp only [SeenIn, infix_part_iff hsearch, InPiece]
  constructor
  · rintro ⟨k, before, after, hline, hpiece⟩
    exact ⟨before, after, hline, k, hpiece⟩
  · rintro ⟨before, after, hline, k, hpiece⟩
    exact ⟨k, before, after, hline, hpiece⟩

theorem not_seenIn_nil (hsearch : Searchable search) : ¬SeenIn search [] := by
  rintro ⟨k, hseen⟩
  rw [List.drop_nil, List.take_nil] at hseen
  exact hsearch.ne_nil (List.eq_nil_of_infix_nil hseen)

/-- The first piece, or a piece of the rest. -/
theorem seenIn_drop (line : List Char) :
    SeenIn search line ↔ search <:+: cutDependencies (line.take (pathMax - 1)) ∨
      SeenIn search (line.drop (pathMax - 1)) := by
  simp only [SeenIn, List.drop_drop]
  constructor
  · rintro ⟨k, hseen⟩
    cases k with
    | zero => exact .inl hseen
    | succ k => exact .inr ⟨k, by rwa [Nat.mul_succ, Nat.add_comm] at hseen⟩
  · rintro (hseen | ⟨k, hseen⟩)
    · exact ⟨0, hseen⟩
    · exact ⟨k + 1, by rwa [Nat.mul_succ, Nat.add_comm]⟩

theorem seenIn_short (hsearch : Searchable search) {line : List Char}
    (hline : line.length ≤ pathMax - 1) :
    SeenIn search line ↔ search <:+: cutDependencies line := by
  rw [seenIn_drop, List.take_of_length_le hline, List.drop_eq_nil_of_le hline]
  exact or_iff_left (not_seenIn_nil hsearch)

end Pieces

section Loop

variable {search : List Char}

theorem strstr_isSome_iff (hsearch : Searchable search) {text : List Char} (htext : nul ∉ text) :
    (strstr search (text ++ [nul])).isSome ↔ search <:+: text := by
  obtain ⟨first, needle, rfl⟩ := List.exists_cons_of_ne_nil hsearch.ne_nil
  constructor
  · intro hsome
    obtain ⟨found, hfound⟩ := Option.isSome_iff_exists.mp hsome
    exact strstr_infix hsearch.nul hfound
  · rintro ⟨before, rest, rfl⟩
    rw [List.append_assoc, List.append_assoc]
    exact strstr_isSome (fun hmem => htext (by simp [hmem]))
      fun hfirst => hsearch.nul (hfirst ▸ List.mem_cons_self)

/-- The test of a piece. -/
theorem piece_isSome_iff (hsearch : Searchable search) {text : List Char} (htext : nul ∉ text) :
    (strstr search (cutDependencies (cString text) ++ [nul])).isSome ↔
      search <:+: cutDependencies text := by
  rw [cString_of_not_mem htext]
  exact strstr_isSome_iff hsearch fun hmem => htext (List.takeWhile_sublist _ |>.subset hmem)

/-- The newline that ends a line is of no use for an occurrence. -/
theorem infix_cut_newline (hsearch : Searchable search) (line : List Char) :
    search <:+: cutDependencies (line ++ ['\n']) ↔ search <:+: cutDependencies line := by
  by_cases hcolon : ':' ∈ line
  · obtain ⟨front, rest, rfl, hfront⟩ := List.eq_append_cons_of_mem hcolon
    rw [List.append_assoc, cutDependencies_append hfront, cutDependencies_append hfront]
    rfl
  · have hline : cutDependencies line = line := by
      rw [← List.append_nil line, cutDependencies_append hcolon]
      rfl
    rw [cutDependencies_append hcolon, hline]
    constructor
    · rintro ⟨before, rest, hwhole⟩
      have hrest : rest ≠ [] := by
        rintro rfl
        have hlast := congrArg List.getLast? hwhole
        rw [List.append_nil, List.getLast?_append_of_ne_nil _ hsearch.ne_nil] at hlast
        exact hsearch.newline (List.mem_of_getLast? (hlast.trans (by simp [cutDependencies])))
      obtain ⟨init, last, rfl⟩ : ∃ init last, rest = init ++ [last] :=
        ⟨_, _, (List.dropLast_append_getLast hrest).symm⟩
      rw [← List.append_assoc] at hwhole
      exact ⟨before, init, (List.append_inj' hwhole rfl).1⟩
    · exact fun hinfix => hinfix.trans (List.prefix_append _ _).isInfix

/-- Some line of a file has the text in one of its pieces. -/
def Seen (search file : List Char) : Prop := ∃ line ∈ file.splitOn '\n', SeenIn search line

/-- A long line gives up its first piece. -/
theorem seen_long {line tail : List Char} (hline : '\n' ∉ line)
    (htail : tail = [] ∨ ∃ rest, tail = '\n' :: rest) :
    Seen search (line ++ tail) ↔ search <:+: cutDependencies (line.take (pathMax - 1)) ∨
      Seen search (line.drop (pathMax - 1) ++ tail) := by
  have hdrop : '\n' ∉ line.drop (pathMax - 1) := fun hmem => hline (List.mem_of_mem_drop hmem)
  rcases htail with rfl | ⟨rest, rfl⟩
  · simp only [Seen, List.append_nil, splitOn_last hline, splitOn_last hdrop,
      List.mem_singleton, exists_eq_left]
    exact seenIn_drop line
  · simp only [Seen, splitOn_line hline rest, splitOn_line hdrop rest, List.mem_cons,
      exists_eq_or_imp]
    rw [seenIn_drop line, or_assoc]

/-- A short line is one piece. -/
theorem seen_short (hsearch : Searchable search) {line : List Char} (hline : '\n' ∉ line)
    (hshort : line.length ≤ pathMax - 1) (rest : List Char) :
    Seen search (line ++ '\n' :: rest) ↔ search <:+: cutDependencies line ∨ Seen search rest := by
  simp only [Seen, splitOn_line hline rest, List.mem_cons, exists_eq_or_imp]
  rw [seenIn_short hsearch hshort]

theorem not_seen_nil (hsearch : Searchable search) : ¬Seen search [] := by
  rintro ⟨line, hline, hseen⟩
  rw [splitOn_last List.not_mem_nil, List.mem_singleton] at hline
  exact not_seenIn_nil hsearch (hline ▸ hseen)

/-- One `fgets`: a piece, and a file that has the rest of the pieces. -/
theorem seen_fgets (hsearch : Searchable search) {file : List Char} (hfile : file ≠ []) :
    ∃ text rest, fgets pathMax file = some (text, rest) ∧ file = text ++ rest ∧
      rest.length < file.length ∧
      (Seen search file ↔ search <:+: cutDependencies text ∨ Seen search rest) := by
  have hshorter : (readLine (pathMax - 1) file).2.length < file.length :=
    readLine_shorter (by decide) hfile
  refine ⟨_, _, if_neg hfile, (readLine_append _ _).symm, hshorter, ?_⟩
  obtain ⟨line, tail, rfl, hline, htail⟩ := line_cases '\n' file
  by_cases hlong : pathMax - 1 ≤ line.length
  · rw [readLine_long hline hlong]
    exact seen_long hline htail
  · push Not at hlong
    rcases htail with rfl | ⟨rest, rfl⟩
    · rw [List.append_nil, readLine_take fun hmem => hline (List.dropLast_subset _ hmem)]
      have hwhole := @seen_long search line [] hline (.inl rfl)
      rwa [List.append_nil, List.append_nil] at hwhole
    · rw [readLine_line hline hlong, infix_cut_newline hsearch]
      exact seen_short hsearch hline hlong.le rest

/-- The loop finds what stands in a piece of a line. -/
theorem searchLoop_eq (hsearch : Searchable search) :
    ∀ {fuel : ℕ} {file : List Char}, nul ∉ file → file.length < fuel →
      (searchLoop search fuel file = 0 ∧ Seen search file) ∨
        (searchLoop search fuel file = -1 ∧ ¬Seen search file) := by
  intro fuel
  induction fuel with
  | zero => exact fun _ hfuel => absurd hfuel (Nat.not_lt_zero _)
  | succ fuel ih =>
    intro file hnul hfuel
    by_cases hfile : file = []
    · subst hfile
      exact .inr ⟨rfl, not_seen_nil hsearch⟩
    · obtain ⟨text, rest, hfgets, hsplit, hshorter, hseen⟩ := seen_fgets hsearch hfile
      have htext : nul ∉ text := fun hmem => hnul (hsplit ▸ List.mem_append_left _ hmem)
      have hrest : nul ∉ rest := fun hmem => hnul (hsplit ▸ List.mem_append_right _ hmem)
      simp only [searchLoop, hfgets, piece_isSome_iff hsearch htext, hseen]
      by_cases hpiece : search <:+: cutDependencies text
      · exact .inl ⟨if_pos hpiece, .inl hpiece⟩
      · simp only [hpiece, if_false, false_or]
        exact ih hrest (by omega)

end Loop

section Names

variable {name driver : List Char}

theorem strstr_split {needle text found : List Char} (hfound : strstr needle text = some found) :
    ∃ before, text = before ++ found ∧ needle <+: found := by
  induction text with
  | nil => cases hfound
  | cons c text ih =>
    rw [strstr] at hfound
    split_ifs at hfound with hnul hhere
    · obtain rfl := Option.some.inj hfound
      exact ⟨[], rfl, List.isPrefixOf_iff_prefix.mp hhere⟩
    · obtain ⟨before, rfl, hstart⟩ := ih hfound
      exact ⟨c :: before, rfl, hstart⟩

/-- A separator in place of another. -/
theorem set_alike {place : ℕ} (hplace : driver[place]? = some '-') :
    Alike (driver.set place '_') driver := by
  obtain ⟨hinside, hchar⟩ := List.getElem?_eq_some_iff.mp hplace
  have hsame : underscore '_' = (driver.map underscore).get ⟨place, by simpa using hinside⟩ := by
    rw [List.get_eq_getElem, List.getElem_map, hchar]
    rfl
  rw [Alike, List.map_set, hsame, List.get_eq_getElem, List.set_getElem_self]

/-- The place that is changed holds a separator already. -/
theorem fixArch_alike (driver : List Char) : Alike (fixArch driver) driver := by
  unfold fixArch
  cases hfound : strstr wrongArch (driver ++ [nul]) with
  | none => exact rfl
  | some found =>
    obtain ⟨before, hsplit, more, rfl⟩ := strstr_split hfound
    have hlength := congrArg List.length hsplit
    have hchar : (driver ++ [nul])[before.length + 3]? = some '-' := by
      rw [hsplit, List.getElem?_append_right (by omega), Nat.add_sub_cancel_left]
      rfl
    have hplace : driver[before.length + 3]? = some '-' := by
      rw [List.getElem?_append] at hchar
      split_ifs at hchar
      · exact hchar
      · rw [List.getElem?_singleton] at hchar
        split_ifs at hchar
        exact absurd hchar (by decide)
    rw [List.length_append, List.length_append, List.length_singleton] at hlength
    change Alike (driver.set (driver.length + 1 - (wrongArch ++ more).length + 3) '_') driver
    rw [hlength, Nat.add_sub_cancel]
    exact set_alike hplace

theorem exchanged_alike (driver : List Char) : Alike (exchanged driver) driver := by
  unfold exchanged Alike
  split_ifs
  · rw [List.map_map]
    refine List.map_congr_left fun c _ => ?_
    by_cases hc : c = '_'
    · subst hc
      rfl
    · simp [hc]
  · rw [List.map_map]
    refine List.map_congr_left fun c _ => ?_
    by_cases hc : c = '-'
    · subst hc
      rfl
    · simp [hc]

theorem alike_of_tried (hname : name ∈ tried driver) : Alike name driver := by
  have hfirst := fixArch_alike driver
  have hsecond := (fixArch_alike (exchanged (fixArch driver))).trans
    ((exchanged_alike (fixArch driver)).trans hfirst)
  simp only [tried] at hname
  split_ifs at hname
  · simp only [List.mem_cons, List.not_mem_nil, or_false] at hname
    rcases hname with rfl | rfl
    · exact hfirst
    · exact hsecond
  · rw [List.mem_singleton] at hname
    exact hname ▸ hfirst

theorem Alike.isNameChar (halike : Alike name driver) (hdriver : ∀ c ∈ driver, IsNameChar c) :
    ∀ c ∈ name, IsNameChar c := by
  intro c hc
  have hmem : underscore c ∈ driver.map underscore := halike ▸ List.mem_map_of_mem hc
  obtain ⟨d, hd, hequal⟩ := List.mem_map.mp hmem
  unfold underscore at hequal
  split_ifs at hequal with hseparator hother hother
  · exact .inr (.inr hother)
  · exact .inr (.inl hequal.symm)
  · exact .inr (.inr hother)
  · exact hequal ▸ hdriver d hd

theorem searchable_searchText (hname : ∀ c ∈ name, IsNameChar c) :
    Searchable (searchText name) := by
  have habsent {c : Char} (hc : ¬IsNameChar c) (hother : c ∉ ['/', '.', 'k', 'o']) :
      c ∉ searchText name := by
    intro hmem
    simp only [searchText, List.mem_cons, List.mem_append, List.not_mem_nil, or_false]
      at hmem hother
    tauto
  have hfree (c : Char) (hc : c = ':' ∨ c = '\n' ∨ c = nul) :
      ¬IsNameChar c ∧ c ∉ ['/', '.', 'k', 'o'] := by
    rcases hc with rfl | rfl | rfl
    all_goals
      unfold IsNameChar
      decide
  exact ⟨List.cons_ne_nil _ _, habsent (hfree ':' (by simp)).1 (hfree ':' (by simp)).2,
    habsent (hfree '\n' (by simp)).1 (hfree '\n' (by simp)).2,
    habsent (hfree nul (by simp)).1 (hfree nul (by simp)).2⟩

end Names

section Main

variable {driver file : List Char} {writable : Bool}

theorem seen_tried_iff (hdriver : ∀ c ∈ driver, IsNameChar c) :
    (∃ name ∈ tried driver, Seen (searchText name) file) ↔
      Plain driver file ∨ Stray driver file := by
  have hsearchable {name : List Char} (hname : name ∈ tried driver) :
      Searchable (searchText name) :=
    searchable_searchText ((alike_of_tried hname).isNameChar hdriver)
  constructor
  · rintro ⟨name, hname, line, hline, hseen⟩
    obtain ⟨before, after, hpiece⟩ := (seenIn_iff (hsearchable hname)).mp hseen
    by_cases hends : EndsPath before after
    · exact .inl ⟨line, hline, name, hname, before, after, hpiece, hends⟩
    · exact .inr ⟨line, hline, name, hname, before, after, hpiece, hends⟩
  · rintro (⟨line, hline, name, hname, before, after, hpiece, -⟩ |
      ⟨line, hline, name, hname, before, after, hpiece, -⟩)
    all_goals exact ⟨name, hname, line, hline,
      (seenIn_iff (hsearchable hname)).mpr ⟨before, after, hpiece⟩⟩

theorem named_of_plain (hplain : Plain driver file) : Named driver file := by
  obtain ⟨line, hline, name, hname, before, after, ⟨rfl, -⟩, hcolon, hsuffix⟩ := hplain
  refine ⟨_, hline, before ++ ['/'], name, after, by simp [searchText], .inr (by simp),
    alike_of_tried hname, ?_, hsuffix⟩
  simpa using hcolon

theorem tstSearchDriver_none (hwrong : (strstr wrongArch (driver ++ [nul])).isSome) :
    tstSearchDriver false driver file = none := by
  simp [tstSearchDriver, tstSearchDriver_, hwrong]

/-- The names that are tried are searched for. -/
theorem tstSearchDriver_some (hdriver : ∀ c ∈ driver, IsNameChar c) (hfile : nul ∉ file)
    (hwritable : ¬((strstr wrongArch (driver ++ [nul])).isSome ∧ writable = false)) :
    ∃ ret, tstSearchDriver writable driver file = some ret ∧
      (ret = 0 ↔ ∃ name ∈ tried driver, Seen (searchText name) file) := by
  have hloop {name : List Char} (hname : name ∈ tried driver) :=
    searchLoop_eq (searchable_searchText ((alike_of_tried hname).isNameChar hdriver)) hfile
      (Nat.lt_succ_self file.length)
  have hsecond : tstSearchDriver_ true (exchanged (fixArch driver)) file =
      some (searchLoop (searchText (fixArch (exchanged (fixArch driver)))) (file.length + 1) file,
        fixArch (exchanged (fixArch driver))) := by
    simp [tstSearchDriver_]
  rw [tstSearchDriver, tstSearchDriver_, if_neg hwritable]
  simp only [Option.bind_eq_bind, Option.bind_some, hsecond]
  by_cases hseparator : '-' ∈ fixArch driver ∨ '_' ∈ fixArch driver
  · have htried : tried driver = [fixArch driver, fixArch (exchanged (fixArch driver))] :=
      if_pos hseparator
    rw [htried] at hloop ⊢
    rw [if_pos hseparator]
    rcases hloop List.mem_cons_self with ⟨hret, hseen⟩ | ⟨hret, hseen⟩
    · exact ⟨0, if_pos hret, by simp [hseen]⟩
    · refine ⟨_, if_neg (by simp [hret]), ?_⟩
      rcases hloop (List.mem_cons_of_mem _ List.mem_cons_self) with ⟨hret, hmore⟩ | ⟨hret, hmore⟩
      all_goals simp [hret, hseen, hmore]
  · have htried : tried driver = [fixArch driver] := if_neg hseparator
    rw [htried] at hloop ⊢
    rw [if_neg hseparator]
    rcases hloop List.mem_cons_self with ⟨hret, hseen⟩ | ⟨hret, hseen⟩
    · exact ⟨0, if_pos hret, by simp [hseen]⟩
    · exact ⟨-1, if_neg (by simp [hret]), by simp [hseen]⟩

theorem nul_not_mem_name (hdriver : ∀ c ∈ driver, IsNameChar c) : nul ∉ driver := fun hmem => by
  have hname := hdriver nul hmem
  unfold IsNameChar at hname
  revert hname
  decide

/-- The result by the places where a name that is tried stands. -/
theorem right_iff_seen (hdriver : ∀ c ∈ driver, IsNameChar c) (hfile : nul ∉ file) :
    Right writable driver file ↔ (writable = true ∨ ¬wrongArch <:+: driver) ∧
      (Plain driver file ∨ Stray driver file ↔ Named driver file) := by
  have hfound : (strstr wrongArch (driver ++ [nul])).isSome ↔ wrongArch <:+: driver :=
    strstr_isSome_iff ⟨by decide, by decide, by decide, by decide⟩ (nul_not_mem_name hdriver)
  by_cases hwritable : (strstr wrongArch (driver ++ [nul])).isSome ∧ writable = false
  · obtain ⟨hwrong, rfl⟩ := hwritable
    have hnone := @tstSearchDriver_none driver file hwrong
    simp [Right, hnone, hfound.mp hwrong]
  · obtain ⟨ret, hret, hzero⟩ := tstSearchDriver_some hdriver hfile hwritable
    rw [hfound] at hwritable
    have hallowed : writable = true ∨ ¬wrongArch <:+: driver := by
      cases writable with
      | true => exact .inl rfl
      | false => exact .inr fun hwrong => hwritable ⟨hwrong, rfl⟩
    rw [and_iff_right hallowed]
    simp [Right, hret, hzero, seen_tried_iff hdriver]

/-- The result is right exactly if the name can be changed where it has to be, and either a
name that is tried is a file name in one piece, or there is a line about the driver exactly
if a name that is tried stands elsewhere. -/
theorem tstSearchDriver_right_iff (hdriver : ∀ c ∈ driver, IsNameChar c) (hfile : nul ∉ file) :
    Right writable driver file ↔ (writable = true ∨ ¬wrongArch <:+: driver) ∧
      (Plain driver file ∨ (Named driver file ↔ Stray driver file)) := by
  rw [right_iff_seen hdriver hfile]
  by_cases hplain : Plain driver file
  · simp [hplain, named_of_plain hplain]
  · simp [hplain, iff_comm]

/-- A compressed module is found. -/
theorem tstSearchDriver_right_loop :
    Right false "loop".toList "kernel/drivers/block/loop.ko.xz:\n".toList := by
  refine (tstSearchDriver_right_iff ?_ (by decide)).mpr ⟨.inr (by decide), .inl ?_⟩
  · unfold IsNameChar
    decide
  · refine ⟨"kernel/drivers/block/loop.ko.xz:".toList, by decide, "loop".toList, by decide,
      "kernel/drivers/block".toList, ".xz:".toList, ⟨by decide, 0, by decide, by decide, by decide⟩,
      by decide, ".xz".toList, by decide, [':'], by decide, .inr rfl⟩

/-- A name with both separators is not found in the file in which all are underscores. -/
theorem tstSearchDriver_mixed :
    ¬Right true "drm-kms_helper".toList
      "kernel/drivers/gpu/drm/drm_kms_helper.ko:\n".toList := by
  rintro ⟨ret, hret, hright⟩
  have hmissed : tstSearchDriver true "drm-kms_helper".toList
      "kernel/drivers/gpu/drm/drm_kms_helper.ko:\n".toList = some (-1) := by
    decide +kernel
  obtain rfl := Option.some.inj (hret.symm.trans hmissed)
  refine absurd (hright.mpr ⟨"kernel/drivers/gpu/drm/drm_kms_helper.ko:".toList, by decide,
    "kernel/drivers/gpu/drm/".toList, "drm_kms_helper".toList, [':'], by decide,
    .inr (by decide), ?_, by decide, [], by decide, [':'], by decide, .inr rfl⟩) (by decide)
  unfold Alike
  decide

end Main

section SingleSeparator

variable {name driver file : List Char} {writable : Bool}

/-- The number of separators in a name. -/
def separators (name : List Char) : ℕ := name.countP fun c => c == '-' || c == '_'

/-- The other separator. -/
def other (c : Char) : Char := if c = '-' then '_' else if c = '_' then '-' else c

end SingleSeparator

end GrapheneLtp.SearchDriver
