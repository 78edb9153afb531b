import GrapheneLtp.Kconfig.Check

/-!
# The scan of the kernel config

A kernel config gives settings to symbols.  The scan reads it line by line and
stops early, once every variable has been found not set, built in or a module;
the table it leaves is the one that the whole config gives.
-/

namespace GrapheneLtp.KconfigScan

open GrapheneLtp.CString GrapheneLtp.Kconfig

/-- What a kernel config says about a symbol. -/
inductive Setting where
  | notSet
  | value (text : List Char)
  deriving DecidableEq, Repr

/-- A line of a kernel config.  Names are without the leading `CONFIG_`. -/
inductive ConfigLine where
  | blank (pad : List Char)
  | comment (pad body : List Char)
  | notSet (name : List Char)
  | set (name value : List Char)
  deriving DecidableEq, Repr

namespace ConfigLine

def text : ConfigLine → List Char
  | .blank pad => pad
  | .comment pad body => pad ++ '#' :: body
  | .notSet name =>
    '#' :: ' ' :: (configText ++ name ++ ' ' :: isNotSetText)
  | .set name value => configText ++ name ++ '=' :: value

def Indent (pad : List Char) : Prop := ∀ c ∈ pad, isSpace c = true ∧ c ≠ '\n'

/-- The form of a line.  A comment is not to be taken for a line about a
symbol, so it does not speak of both `CONFIG_` and `is not set`. -/
def WellFormed : ConfigLine → Prop
  | .blank pad => Indent pad
  | .comment pad body => Indent pad ∧ '\n' ∉ body ∧
      ¬(isNotSetText <:+: '#' :: body ∧ configText <:+: '#' :: body)
  | .notSet name => ∀ c ∈ name, isSymbol c = true
  | .set name value => (∀ c ∈ name, isSymbol c = true) ∧ value ≠ [] ∧
      value ≠ ['n'] ∧ ∀ c ∈ value, isSpace c = false ∧ c ≠ nul

instance : DecidablePred Indent := fun pad =>
  List.decidableBAll (fun c => isSpace c = true ∧ c ≠ '\n') pad

-- The quantifiers run over the characters of the line, not over all
-- characters.
instance : DecidablePred WellFormed
  | .blank pad => inferInstanceAs (Decidable (Indent pad))
  | .comment pad body => inferInstanceAs (Decidable (Indent pad ∧ '\n' ∉ body ∧
      ¬(isNotSetText <:+: '#' :: body ∧ configText <:+: '#' :: body)))
  | .notSet name => List.decidableBAll (fun c => isSymbol c = true) name
  | .set name value =>
    have := List.decidableBAll (fun c => isSymbol c = true) name
    have := List.decidableBAll (fun c => isSpace c = false ∧ c ≠ nul) value
    inferInstanceAs (Decidable ((∀ c ∈ name, isSymbol c = true) ∧
      value ≠ [] ∧ value ≠ ['n'] ∧ ∀ c ∈ value, isSpace c = false ∧ c ≠ nul))

/-- The symbol that a line is about, and its setting. -/
def entry : ConfigLine → Option (List Char × Setting)
  | .blank _ => none
  | .comment _ _ => none
  | .notSet name => some (configText ++ name, .notSet)
  | .set name value => some (configText ++ name, .value value)

end ConfigLine

/-- The setting of a symbol in the first line about it. -/
def lookup (lines : List ConfigLine) (symbol : List Char) : Option Setting :=
  lines.findSome? fun line =>
    line.entry.bind fun (name, setting) =>
      if name = symbol then some setting else none

/-- A kernel config: lines that fit the line buffer, and no symbol on two of
them. -/
structure KernelConfig where
  lines : List ConfigLine
  wellFormed : ∀ line ∈ lines, line.WellFormed
  short : ∀ line ∈ lines, line.text.length ≤ 126
  distinct : (lines.filterMap fun line => line.entry.map Prod.fst).Nodup

/-- The text of a config, every line with its newline. -/
def render (lines : List ConfigLine) : List Char := lines.flatMap fun line => line.text ++ ['\n']

/-- The entry of the table for a symbol with the given setting. -/
def settled (id : List Char) : Option Setting → TstKconfigVar
  | none => ⟨id, id.length, .unset, none⟩
  | some .notSet => ⟨id, id.length, .n, none⟩
  | some (.value text) =>
    if text = ['y'] then ⟨id, id.length, .y, none⟩
    else if text = ['m'] then ⟨id, id.length, .m, none⟩
    else ⟨id, id.length, .v, some text⟩

/-- The settings that the scan counts. -/
def prompt : Option Setting → Bool
  | none => false
  | some .notSet => true
  | some (.value text) => text = ['y'] ∨ text = ['m']

/-- The table for the symbols in `ids`, after some lines. -/
def table (lines : List ConfigLine) (ids : List (List Char)) : List TstKconfigVar :=
  ids.map fun id => settled id (lookup lines id)

section Lookup

theorem lookup_append (seen rest : List ConfigLine) (symbol : List Char) :
    lookup (seen ++ rest) symbol = (lookup seen symbol).or (lookup rest symbol) := by
  rw [lookup, lookup, lookup, List.findSome?_append]

theorem lookup_singleton (line : ConfigLine) (symbol : List Char) :
    lookup [line] symbol = line.entry.bind fun (name, setting) =>
      if name = symbol then some setting else none := by
  simp [lookup]

/-- A symbol that no line is about has no setting. -/
theorem lookup_eq_none {lines : List ConfigLine} {symbol : List Char}
    (hsymbol : symbol ∉ lines.filterMap fun line => line.entry.map Prod.fst) :
    lookup lines symbol = none := by
  rw [lookup, List.findSome?_eq_none_iff]
  intro line hline
  cases hentry : line.entry with
  | none => rfl
  | some found =>
    have hname : found.1 ≠ symbol := by
      intro hequal
      apply hsymbol
      rw [List.mem_filterMap]
      exact ⟨line, hline, by rw [hentry, Option.map_some, hequal]⟩
    simp [hname]

/-- No line is about the symbol of another line. -/
theorem lookup_fresh {seen rest : List ConfigLine} {line : ConfigLine}
    {symbol : List Char} {setting : Setting}
    (hdistinct : ((seen ++ line :: rest).filterMap fun line =>
      line.entry.map Prod.fst).Nodup)
    (hentry : line.entry = some (symbol, setting)) :
    lookup seen symbol = none ∧
      ∀ other ∈ rest, ∀ setting, other.entry ≠ some (symbol, setting) := by
  rw [List.filterMap_append, List.filterMap_cons, hentry] at hdistinct
  obtain ⟨-, hlater, hseen⟩ := List.nodup_append.mp hdistinct
  constructor
  · exact lookup_eq_none fun hmem => hseen _ hmem _ List.mem_cons_self rfl
  · intro other hother found hsame
    apply (List.nodup_cons.mp hlater).1
    rw [List.mem_filterMap]
    exact ⟨other, hother, by rw [hsame]; rfl⟩

/-- A line without an entry changes no setting. -/
theorem table_of_no_entry {seen : List ConfigLine} {line : ConfigLine}
    (hentry : line.entry = none) (ids : List (List Char)) :
    table (seen ++ [line]) ids = table seen ids := by
  apply List.map_congr_left
  intro id _
  rw [lookup_append, lookup_singleton, hentry, Option.bind_none, Option.or_none]

/-- A line about a new symbol settles that symbol only. -/
theorem lookup_entry {seen : List ConfigLine} {line : ConfigLine}
    {symbol : List Char} {setting : Setting}
    (hentry : line.entry = some (symbol, setting))
    (hnew : lookup seen symbol = none) (id : List Char) :
    lookup (seen ++ [line]) id =
      if id = symbol then some setting else lookup seen id := by
  rw [lookup_append, lookup_singleton, hentry, Option.bind_some]
  by_cases hid : id = symbol
  · subst hid
    simp [hnew]
  · simp [hid, Ne.symm hid]

end Lookup

section Assign

@[simp]
theorem settled_id (id : List Char) (setting : Option Setting) : (settled id setting).id = id := by
  rcases setting with - | - | text
  · rfl
  · rfl
  · simp only [settled]
    split_ifs <;> rfl

@[simp]
theorem settled_idLen (id : List Char) (setting : Option Setting) :
    (settled id setting).idLen = id.length := by
  rcases setting with - | - | text
  · rfl
  · rfl
  · simp only [settled]
    split_ifs <;> rfl

variable {isNotSet : Bool} {var symbol : List Char}

theorem assignVars_other {entry : TstKconfigVar} (hlen : entry.idLen = entry.id.length)
    (hother : entry.id ≠ var.take symbol.length)
    (vars : List TstKconfigVar) :
    assignVars isNotSet var symbol.length (entry :: vars) =
      (assignVars isNotSet var symbol.length vars).map fun result =>
        (entry :: result.1, result.2) := by
  have hskip : entry.idLen ≠ symbol.length ∨
      entry.id.take symbol.length ≠ var.take symbol.length := by
    by_cases hequal : entry.id.length = symbol.length
    · right
      rwa [← hequal, List.take_length, hequal]
    · exact .inl (hlen ▸ hequal)
  rw [assignVars, if_pos hskip]
  cases assignVars isNotSet var symbol.length vars <;> rfl

/-- Entries have different names, so the loop changes the entry of `symbol`
and no other, whether it returns there or goes on. -/
theorem assignVars_table (hvar : var.take symbol.length = symbol)
    {update : TstKconfigVar → TstKconfigVar} {stops : Bool}
    (hmatch : ∀ entry vars, entry.id = symbol → entry.idLen = symbol.length →
      assignVars isNotSet var symbol.length (entry :: vars) =
        if stops then .ok (update entry :: vars, true)
        else (assignVars isNotSet var symbol.length vars).map fun result =>
          (update entry :: result.1, result.2))
    {entryOf : List Char → TstKconfigVar}
    (hid : ∀ id, (entryOf id).id = id)
    (hidLen : ∀ id, (entryOf id).idLen = id.length)
    {ids : List (List Char)} (hids : ids.Nodup) :
    assignVars isNotSet var symbol.length (ids.map entryOf) = .ok (ids.map fun id =>
        if id = symbol then update (entryOf id) else entryOf id,
          stops && decide (symbol ∈ ids)) := by
  induction ids with
  | nil => simp [assignVars]
  | cons id ids ih =>
    obtain ⟨hfresh, hrest⟩ := List.nodup_cons.mp hids
    rw [List.map_cons, List.map_cons]
    by_cases hequal : id = symbol
    · subst hequal
      have hkeep : (ids.map fun other =>
          if other = id then update (entryOf other) else entryOf other) = ids.map entryOf := by
        apply List.map_congr_left
        intro other hother
        rw [if_neg (ne_of_mem_of_not_mem hother hfresh)]
      rw [hmatch _ _ (hid id) (hidLen id), ih hrest, hkeep]
      cases stops <;> simp [Except.map]
    · rw [assignVars_other (by rw [hid, hidLen]) (by rw [hid, hvar]; exact hequal), ih hrest]
      simp [Except.map, hequal, Ne.symm hequal]

end Assign

section Lines

/-- What a line does to the entry of its symbol. -/
def settle : Setting → TstKconfigVar → TstKconfigVar
  | .notSet, entry => { entry with choice := .n }
  | .value text, entry =>
    if text = ['y'] then { entry with choice := .y }
    else if text = ['m'] then { entry with choice := .m }
    else { entry with choice := .v, val := some text }

theorem settle_settled (setting : Setting) (id : List Char) :
    settle setting (settled id none) = settled id (some setting) := by
  cases setting with
  | notSet => rfl
  | value text =>
    simp only [settle, settled]

variable {stale : List Char}

theorem scanValue_text {value : List Char} (hvalue : ∀ c ∈ value, isSpace c = false ∧ c ≠ nul) :
    scanValue (value ++ '\n' :: stale) = .ok value := by
  have hspace : ∀ c ∈ value, (!isSpace c) = true := by
    intro c hc
    rw [(hvalue c hc).1]
    rfl
  rw [scanValue, if_neg (by simp [isSpace]), takeWhile_append_stop hspace (by decide)]

theorem dropWhile_value {value : List Char} (hne : value ≠ [])
    (hvalue : ∀ c ∈ value, isSpace c = false ∧ c ≠ nul) (rest : List Char) :
    (value ++ rest).dropWhile isSpace = value ++ rest := by
  cases value with
  | nil => exact absurd rfl hne
  | cons c value =>
    rw [List.cons_append, List.dropWhile_cons, (hvalue c List.mem_cons_self).1]
    rfl

theorem matches_symbol {symbol rest : List Char} {entry : TstKconfigVar}
    (hid : entry.id = symbol) (hidLen : entry.idLen = symbol.length) :
    ¬(entry.idLen ≠ symbol.length ∨
      entry.id.take symbol.length ≠ (symbol ++ rest).take symbol.length) := by
  simp [hid, hidLen]

/-- The entry of the symbol of a line that says it is not set. -/
theorem assignVars_notSet {symbol rest : List Char} (entry : TstKconfigVar)
    (vars : List TstKconfigVar) (hid : entry.id = symbol)
    (hidLen : entry.idLen = symbol.length) :
    assignVars true (symbol ++ rest) symbol.length (entry :: vars) =
      .ok (settle .notSet entry :: vars, true) := by
  rw [assignVars, if_neg (matches_symbol hid hidLen), if_pos rfl]
  rfl

/-- The entry of the symbol of a line with a value. -/
theorem assignVars_value {symbol rest value : List Char}
    (hscan : scanValue (rest.dropWhile isSpace) = .ok value)
    (hnul : nul ∉ value) (entry : TstKconfigVar) (vars : List TstKconfigVar)
    (hid : entry.id = symbol) (hidLen : entry.idLen = symbol.length) :
    assignVars false (symbol ++ '=' :: rest) symbol.length (entry :: vars) =
      if prompt (some (.value value)) then
        .ok (settle (.value value) entry :: vars, true)
      else (assignVars false (symbol ++ '=' :: rest) symbol.length vars).map
        fun result => (settle (.value value) entry :: result.1, result.2) := by
  have hequals : ((symbol ++ '=' :: rest).drop symbol.length).dropWhile isSpace = '=' :: rest := by
    rw [List.drop_left]
    rfl
  rw [assignVars, if_neg (matches_symbol hid hidLen), if_neg Bool.false_ne_true]
  simp only [hequals, List.head?_cons, ne_eq, not_true_eq_false, if_false,
    List.tail_cons, hscan, cString_of_not_mem hnul, bind, Except.bind,
    pure, Except.pure]
  by_cases hy : value = ['y']
  · simp [hy, prompt, settle]
  by_cases hm : value = ['m']
  · simp [hm, prompt, settle]
  simp only [hy, hm, if_false, prompt, or_self, decide_false, settle, Bool.false_eq_true]
  cases assignVars false (symbol ++ '=' :: rest) symbol.length vars <;> rfl

theorem dropWhile_indent {pad rest : List Char} {first : Char}
    (hpad : ConfigLine.Indent pad) (hfirst : isSpace first = false) :
    (pad ++ first :: rest).dropWhile isSpace = first :: rest :=
  dropWhile_append_stop (fun c hc => (hpad c hc).1) hfirst

/-- A blank line is passed over. -/
theorem kconfigParseLine_blank {pad : List Char}
    (hpad : ConfigLine.Indent pad) (vars : List TstKconfigVar) :
    kconfigParseLine (pad ++ '\n' :: nul :: stale) vars = .ok (vars, false) := by
  have hskip : (pad ++ '\n' :: nul :: stale).dropWhile isSpace = nul :: stale := by
    rw [List.dropWhile_append_of_pos fun c hc => (hpad c hc).1]
    rfl
  simp only [kconfigParseLine, hskip]
  rfl

/-- So is a comment. -/
theorem kconfigParseLine_comment {pad body : List Char}
    (hform : (ConfigLine.comment pad body).WellFormed)
    (vars : List TstKconfigVar) :
    kconfigParseLine (pad ++ '#' :: body ++ '\n' :: nul :: stale) vars = .ok (vars, false) := by
  obtain ⟨hpad, -, hboth⟩ := hform
  have hskip : (pad ++ '#' :: body ++ '\n' :: nul :: stale).dropWhile isSpace =
      '#' :: body ++ '\n' :: nul :: stale := by
    rw [List.append_assoc, List.cons_append]
    exact dropWhile_indent hpad (by decide)
  simp only [kconfigParseLine, hskip]
  cases hnotSet : strstr isNotSetText ('#' :: body ++ '\n' :: nul :: stale) with
  | none => rfl
  | some found =>
    cases hconfig : strstr configText ('#' :: body ++ '\n' :: nul :: stale) with
    | none => rfl
    | some var =>
      exact absurd ⟨strstr_occurs (by decide) hnotSet, strstr_occurs (by decide) hconfig⟩ hboth

theorem isSymbol_config {name : List Char} (hname : ∀ c ∈ name, isSymbol c = true) :
    ∀ c ∈ configText ++ name, isSymbol c = true := by
  intro c hc
  rcases List.mem_append.mp hc with hconfig | hrest
  · have hall : configText.all isSymbol = true := by decide
    exact List.all_eq_true.mp hall c hconfig
  · exact hname c hrest

/-- The name ends at the first character that is no part of a name. -/
theorem takeWhile_symbol {name rest : List Char} {stop : Char}
    (hname : ∀ c ∈ name, isSymbol c = true) (hstop : isSymbol stop = false) :
    (configText ++ name ++ stop :: rest).takeWhile isSymbol = configText ++ name :=
  takeWhile_append_stop (isSymbol_config hname) hstop

theorem strstr_config (rest : List Char) :
    strstr configText (configText ++ rest) = some (configText ++ rest) :=
  strstr_self (by decide)

theorem kconfigParseLine_notSet {name : List Char}
    (hname : ∀ c ∈ name, isSymbol c = true) (rest : List Char)
    (vars : List TstKconfigVar) :
    kconfigParseLine ((ConfigLine.notSet name).text ++ rest) vars =
      assignVars true (configText ++ name ++ ' ' :: (isNotSetText ++ rest))
          (configText ++ name).length vars := by
  set var := configText ++ name ++ ' ' :: (isNotSetText ++ rest) with hvar
  have hline : (ConfigLine.notSet name).text ++ rest = '#' :: ' ' :: var := by
    simp [ConfigLine.text, hvar]
  have hfound : (strstr isNotSetText ('#' :: ' ' :: var)).isSome := by
    have hbefore : nul ∉ '#' :: ' ' :: (configText ++ name ++ [' ']) := by
      intro hmem
      simp only [List.mem_cons, List.mem_append, List.not_mem_nil, or_false] at hmem
      rcases hmem with hmem | hmem | (hmem | hmem) | hmem
      · exact absurd hmem (by decide)
      · exact absurd hmem (by decide)
      · exact absurd hmem (by decide)
      · exact absurd (hname nul hmem) (by decide)
      · exact absurd hmem (by decide)
    have hsplit : '#' :: ' ' :: var = ('#' :: ' ' ::
        (configText ++ name ++ [' '])) ++ (isNotSetText ++ rest) := by
      simp [hvar]
    rw [hsplit]
    exact strstr_isSome hbefore (by decide)
  have hconfig : strstr configText ('#' :: ' ' :: var) = some var := by
    have hhere : strstr configText var = some var := by
      rw [hvar, List.append_assoc]
      exact strstr_config _
    rw [← hhere]
    rfl
  have hskip : ('#' :: ' ' :: var).dropWhile isSpace = '#' :: ' ' :: var := rfl
  have hnone : (strstr isNotSetText ('#' :: ' ' :: var)).isNone = false := by
    rw [← Option.not_isSome, hfound]
    rfl
  rw [hline]
  simp only [kconfigParseLine, hskip, hnone, hconfig, List.head?_cons,
    Bool.and_false, Bool.false_eq_true, if_false]
  rw [hvar, takeWhile_symbol hname (by decide)]
  rfl

theorem kconfigParseLine_set {name value : List Char}
    (hname : ∀ c ∈ name, isSymbol c = true) (rest : List Char)
    (vars : List TstKconfigVar) :
    kconfigParseLine ((ConfigLine.set name value).text ++ rest) vars =
      assignVars false (configText ++ name ++ '=' :: (value ++ rest))
          (configText ++ name).length vars := by
  have hline : (ConfigLine.set name value).text ++ rest =
      configText ++ name ++ '=' :: (value ++ rest) := by
    simp [ConfigLine.text]
  set var := configText ++ name ++ '=' :: (value ++ rest) with hvar
  have hskip : var.dropWhile isSpace = var := rfl
  have hconfig : strstr configText var = some var := by
    rw [hvar, List.append_assoc]
    exact strstr_config _
  have hhead : (var.head? == some '#') = false := rfl
  rw [hline]
  simp only [kconfigParseLine, hskip, hhead, hconfig, Bool.false_and, Bool.false_eq_true, if_false]
  rw [hvar, takeWhile_symbol hname (by decide)]

end Lines

section Steps

variable {seen : List ConfigLine} {line : ConfigLine} {ids : List (List Char)}
  {symbol : List Char} {setting : Setting}

/-- The number of variables that the scan has counted. -/
def promptCount (lines : List ConfigLine) (ids : List (List Char)) : ℕ :=
  ids.countP fun id => prompt (lookup lines id)

theorem table_entry (hentry : line.entry = some (symbol, setting))
    (hnew : lookup seen symbol = none) :
    table (seen ++ [line]) ids = ids.map fun id =>
      if id = symbol then settle setting (settled id (lookup seen id))
      else settled id (lookup seen id) := by
  apply List.map_congr_left
  intro id _
  rw [lookup_entry hentry hnew]
  by_cases hid : id = symbol
  · subst hid
    rw [if_pos rfl, if_pos rfl, hnew, settle_settled]
  · rw [if_neg hid, if_neg hid]

theorem promptCount_no_entry (hentry : line.entry = none) :
    promptCount (seen ++ [line]) ids = promptCount seen ids := by
  apply List.countP_congr
  intro id _
  rw [lookup_append, lookup_singleton, hentry, Option.bind_none, Option.or_none]

theorem promptCount_entry (hentry : line.entry = some (symbol, setting))
    (hnew : lookup seen symbol = none) (hids : ids.Nodup) :
    promptCount (seen ++ [line]) ids = promptCount seen ids +
      if prompt (some setting) && decide (symbol ∈ ids) then 1 else 0 := by
  simp only [promptCount, lookup_entry hentry hnew]
  induction ids with
  | nil => simp
  | cons id ids ih =>
    obtain ⟨hfresh, hrest⟩ := List.nodup_cons.mp hids
    rw [List.countP_cons, List.countP_cons, ih hrest]
    by_cases hequal : id = symbol
    · subst hequal
      simp [hfresh, hnew, prompt]
    · simp only [hequal, if_false, List.mem_cons, Ne.symm hequal, false_or]
      omega

/-- A line that says that its symbol is not set, whatever follows it. -/
theorem kconfigParseLine_notSet_table {name : List Char} (hname : ∀ c ∈ name, isSymbol c = true)
    (hnew : lookup seen (configText ++ name) = none) (hids : ids.Nodup)
    (rest : List Char) :
    kconfigParseLine ((ConfigLine.notSet name).text ++ rest) (table seen ids) =
      .ok (table (seen ++ [.notSet name]) ids,
        prompt (some .notSet) && decide (configText ++ name ∈ ids)) := by
  rw [kconfigParseLine_notSet hname, table_entry rfl hnew]
  exact assignVars_table List.take_left
    (fun entry vars hid hidLen => assignVars_notSet entry vars hid hidLen)
    (fun id => settled_id id _) (fun id => settled_idLen id _) hids

/-- A line that gives its symbol the value that the scan finds. -/
theorem kconfigParseLine_set_table {name value found : List Char}
    {rest : List Char} (hname : ∀ c ∈ name, isSymbol c = true)
    (hscan : scanValue ((value ++ rest).dropWhile isSpace) = .ok found)
    (hnul : nul ∉ found) (hids : ids.Nodup) :
    kconfigParseLine ((ConfigLine.set name value).text ++ rest) (table seen ids) =
      .ok (ids.map fun id =>
        if id = configText ++ name then
          settle (.value found) (settled id (lookup seen id))
        else settled id (lookup seen id), prompt (some (.value found)) &&
            decide (configText ++ name ∈ ids)) := by
  rw [kconfigParseLine_set hname]
  exact assignVars_table List.take_left (fun entry vars hid hidLen =>
      assignVars_value hscan hnul entry vars hid hidLen)
    (fun id => settled_id id _) (fun id => settled_idLen id _) hids

/-- One line: the table is the one of the lines read so far, and the line is
counted when it makes a variable known at once. -/
theorem kconfigParseLine_table (hform : line.WellFormed)
    (hnew : ∀ symbol setting, line.entry = some (symbol, setting) → lookup seen symbol = none)
    (hids : ids.Nodup) (stale : List Char) :
    ∃ found, kconfigParseLine (line.text ++ '\n' :: nul :: stale)
        (table seen ids) = .ok (table (seen ++ [line]) ids, found) ∧
      promptCount (seen ++ [line]) ids = promptCount seen ids + if found then 1 else 0 := by
  cases line with
  | blank pad =>
    refine ⟨false, ?_, promptCount_no_entry rfl⟩
    rw [table_of_no_entry rfl]
    exact kconfigParseLine_blank hform _
  | comment pad body =>
    refine ⟨false, ?_, promptCount_no_entry rfl⟩
    rw [table_of_no_entry rfl]
    exact kconfigParseLine_comment hform _
  | notSet name =>
    have hfresh := hnew _ _ rfl
    exact ⟨_, kconfigParseLine_notSet_table hform hfresh hids _, promptCount_entry rfl hfresh hids⟩
  | set name value =>
    obtain ⟨hname, hne, -, hvalue⟩ := hform
    have hfresh := hnew _ _ rfl
    have hscan : scanValue ((value ++ '\n' :: nul :: stale).dropWhile isSpace) = .ok value := by
      rw [dropWhile_value hne hvalue, scanValue_text hvalue]
    refine ⟨_, ?_, promptCount_entry rfl hfresh hids⟩
    rw [table_entry rfl hfresh]
    exact kconfigParseLine_set_table hname hscan (fun hmem => (hvalue nul hmem).2 rfl) hids

/-- When every variable is known at once, the lines that follow change
nothing. -/
theorem table_append_of_promptCount {rest : List ConfigLine}
    (hall : promptCount seen ids = ids.length) :
    table (seen ++ rest) ids = table seen ids := by
  apply List.map_congr_left
  intro id hid
  have hprompt := List.countP_eq_length.mp hall id hid
  rw [lookup_append]
  cases hlookup : lookup seen id with
  | none => simp [hlookup, prompt] at hprompt
  | some setting => rfl

theorem ConfigLine.not_mem_text (hform : line.WellFormed) : '\n' ∉ line.text := by
  have hsymbol {name : List Char} (hname : ∀ c ∈ name, isSymbol c = true) :
      '\n' ∉ configText ++ name :=
    fun hmem => absurd (isSymbol_config hname _ hmem) (by decide)
  cases line with
  | blank pad => exact fun hmem => (hform _ hmem).2 rfl
  | comment pad body =>
    intro hmem
    rcases List.mem_append.mp hmem with hpad | hbody
    · exact (hform.1 _ hpad).2 rfl
    · rcases List.mem_cons.mp hbody with hhash | hbody
      · exact absurd hhash (by decide)
      · exact hform.2.1 hbody
  | notSet name =>
    intro hmem
    rcases List.mem_cons.mp hmem with hhash | hmem
    · exact absurd hhash (by decide)
    rcases List.mem_cons.mp hmem with hblank | hmem
    · exact absurd hblank (by decide)
    rcases List.mem_append.mp hmem with hname | hrest
    · exact hsymbol hform hname
    · exact absurd hrest (by decide)
  | set name value =>
    intro hmem
    rcases List.mem_append.mp hmem with hname | hvalue
    · exact hsymbol hform.1 hname
    · rcases List.mem_cons.mp hvalue with hequals | hvalue
      · exact absurd hequals (by decide)
      · exact absurd (hform.2.2.2 _ hvalue).1 (by decide)

end Steps

section Runs

theorem render_cons (line : ConfigLine) (lines : List ConfigLine) :
    render (line :: lines) = line.text ++ '\n' :: render lines := by
  simp [render]

theorem stored_line (array text : List Char) : stored array (text ++ ['\n']) =
      text ++ '\n' :: nul :: array.drop (text.length + 2) := by
  simp [stored]

/-- The loop from any point of the config on, by induction on the lines that
are left: the table and the count are those of the lines already seen. -/
theorem readLoop_table {ids : List (List Char)} (hids : ids.Nodup) :
    ∀ {lines seen : List ConfigLine} {fuel : ℕ} {array : List Char},
      (∀ line ∈ lines, line.WellFormed) →
      (∀ line ∈ lines, line.text.length ≤ 126) →
      ((seen ++ lines).filterMap fun line => line.entry.map Prod.fst).Nodup →
      lines.length < fuel → readLoop ids.length fuel (render lines) array (table seen ids)
          (promptCount seen ids) = .ok (table (seen ++ lines) ids) := by
  intro lines
  induction lines with
  | nil =>
    intro seen fuel array _ _ _ hfuel
    obtain ⟨fuel, rfl⟩ := Nat.exists_eq_succ_of_ne_zero (Nat.ne_of_gt hfuel)
    rw [List.append_nil]
    rfl
  | cons line lines ih =>
    intro seen fuel array hform hshort hdistinct hfuel
    obtain ⟨fuel, rfl⟩ := Nat.exists_eq_succ_of_ne_zero (Nat.ne_of_gt (Nat.zero_lt_of_lt hfuel))
    have hline := hform line List.mem_cons_self
    have hread := @fgets_line line.text (render lines) 128 (ConfigLine.not_mem_text hline)
      (by have hroom := hshort line List.mem_cons_self; omega)
    have hnew (symbol : List Char) (setting : Setting)
        (hentry : line.entry = some (symbol, setting)) :
        lookup seen symbol = none := (lookup_fresh hdistinct hentry).1
    obtain ⟨found, hparse, hcount⟩ := kconfigParseLine_table hline hnew hids
      (array.drop (line.text.length + 2))
    have hfound : (if found = true then promptCount seen ids + 1
        else promptCount seen ids) = promptCount (seen ++ [line]) ids := by
      rw [hcount]
      cases found <;> rfl
    have hrest := @ih (seen ++ [line]) fuel (stored array (line.text ++ ['\n']))
      (fun other hother => hform other (List.mem_cons_of_mem _ hother))
      (fun other hother => hshort other (List.mem_cons_of_mem _ hother))
      (by rwa [List.append_assoc])
      (by simpa using hfuel)
    rw [List.append_assoc, List.singleton_append] at hrest
    rw [render_cons, readLoop, hread]
    simp only [stored_line, hparse, bind, Except.bind, hfound, pure, Except.pure]
    split_ifs with hall
    · rw [← table_append_of_promptCount hall, List.append_assoc, List.singleton_append]
    · rw [← stored_line]
      exact hrest

theorem length_le_render (lines : List ConfigLine) : lines.length ≤ (render lines).length := by
  induction lines with
  | nil => exact le_rfl
  | cons line lines ih =>
    rw [render_cons]
    simp only [List.length_cons, List.length_append]
    omega

/-- Reading a kernel config gives every variable its setting, whatever was in
the line buffer before. -/
theorem tstKconfigRead_table (config : KernelConfig) (array : List Char)
    {ids : List (List Char)} (hids : ids.Nodup) :
    tstKconfigRead (some (render config.lines)) array
        (ids.map fun id => ⟨id, id.length, .unset, none⟩) =
      .ok (table config.lines ids) := by
  have hcount : promptCount [] ids = 0 := by
    simp [promptCount, lookup, prompt]
  have hlength : (ids.map fun id =>
      (⟨id, id.length, .unset, none⟩ : TstKconfigVar)).length = ids.length :=
    List.length_map _
  have hrun := @readLoop_table ids hids config.lines []
    ((render config.lines).length + 1) array config.wellFormed config.short
    config.distinct (Nat.lt_succ_of_le (length_le_render _))
  rw [hcount, List.nil_append] at hrun
  rw [tstKconfigRead, hlength]
  exact hrun

end Runs

end GrapheneLtp.KconfigScan
