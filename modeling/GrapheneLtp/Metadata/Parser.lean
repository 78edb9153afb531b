import Mathlib.Tactic
import GrapheneLtp.Core.CheckedInt
import GrapheneLtp.Metadata.Tokens

/-!
# The metadata parser

`metaparse.c` from `open_include` to `parse_file`.  A stream is the text that is
still to be read.  Loops count their rounds, and a bound of the rounds is the
length of the stream, since every round takes a token.
-/

namespace GrapheneLtp.Metaparse

open CString DataStorage

section Includes

/-- The files that can be opened, and where they are looked for. -/
structure Files where
  openFile : List Char → List Char → Option (List Char)
  includepath : List Char
  cmdlineIncludepath : List (List Char)

/-- The conversion `%s` of `fscanf` into an array.  At the end of the file it
leaves the array as it is, and what the parser then reads from it was never
written. -/
def scanWord (size : ℕ) (stream : List Char) : Traced Event (List Char × List Char) := do
  let text := stream.dropWhile isSpace
  Traced.past (.conversion stream) (if text = [] then none else some ())
  let word := text.takeWhile fun c => !isSpace c
  access size word.length
  pure (cString word, text.dropWhile fun c => !isSpace c)

/-- `open_include`: the text of the file if there is one. -/
def openInclude (files : Files) (stream : List Char) :
    Traced Event (Option (List Char) × List Char) := do
  let (buf, after) ← scanWord 256 stream
  let rest := after.dropWhile isSpace
  if buf.head? ≠ some '"' then pure (none, rest)
  else
    let fname := buf.tail.dropLast
    let paths := files.includepath :: files.cmdlineIncludepath
    pure (paths.findSome? fun path => files.openFile path fname, rest)

end Includes

section Arrays

/-- The loop of `parse_array`, with what it returns and the items. -/
def parseArrayLoop : ℕ → List DataNode → List Char → Traced Event (ℕ × List DataNode × List Char)
  | 0, _, _ => ⟨[], none⟩
  | fuel + 1, items, stream => do
      let reading ← nextToken none stream
      match reading.token with
      | none => pure (1, items, reading.rest)
      | some token =>
        if token = ['\x7b'] then do
          let (_, ret, rest) ← parseArrayLoop fuel [] reading.rest
          if ret.length ≠ 0 then
            parseArrayLoop fuel (arrayAdd items (.array ret)).1 rest
          else parseArrayLoop fuel items rest
        else if token = ['\x7d'] then pure (0, items, reading.rest)
        else if token = [','] then parseArrayLoop fuel items reading.rest
        else if token = "NULL".toList then
          parseArrayLoop fuel items reading.rest
        else
          parseArrayLoop fuel (arrayAdd items (.string token)).1 reading.rest

/-- `parse_array` into an empty array. -/
def parseArray (stream : List Char) : Traced Event (ℕ × List DataNode × List Char) :=
  parseArrayLoop (stream.length + 1) [] stream

/-- The loop of `parse_get_array_len`.  The counters are ints that wrap around. -/
def arrayLenLoop : ℕ → ℤ → ℤ → Bool → List Char → Traced Event ℤ
  | 0, _, _, _, _ => ⟨[], none⟩
  | fuel + 1, cnt, depth, prevComma, stream => do
      let reading ← nextToken none stream
      match reading.token with
      | none => pure 0
      | some token =>
        let depth := if token = ['\x7b'] then CheckedInt.toInt (depth + 1)
          else if token = ['\x7d'] then CheckedInt.toInt (depth - 1) else depth
        let prevComma := decide (token = ['\x7d']) && prevComma
        let comma := decide (token = [',']) && decide (depth = 0)
        let prevComma := comma || prevComma
        let cnt := if comma then CheckedInt.toInt (cnt + 1) else cnt
        if depth < 0 then pure (CheckedInt.toInt (cnt + if prevComma then 0 else 1))
        else arrayLenLoop fuel cnt depth prevComma reading.rest

/-- `parse_get_array_len`. -/
def parseGetArrayLen (stream : List Char) : Traced Event ℤ := do
  let reading ← nextToken none stream
  if reading.token = some ['\x7b'] then
    arrayLenLoop (reading.rest.length + 1) 0 0 false reading.rest
  else pure 0

/-- The size of each of the two buffers of `look_for_array_size`. -/
def sizeBufSize : ℕ := 2048

/-- The loop of `look_for_array_size`.  `prev` is the token in the other
buffer. -/
def lookForArraySizeLoop (arrId : List Char) :
    ℕ → List Char → List Char → Traced Event (Option DataNode)
  | 0, _, _ => ⟨[], none⟩
  | fuel + 1, prev, stream => do
      let reading ← nextToken2 sizeBufSize none stream
      match reading.token with
      | none => pure none
      | some token =>
        if token = ['='] ∧ prev = arrId then do
          let arrLen ← parseGetArrayLen reading.rest
          pure (some (.int (Int64.ofInt arrLen)))
        else if token ≠ [']'] ∧ token ≠ ['['] then
          lookForArraySizeLoop arrId fuel token reading.rest
        else lookForArraySizeLoop arrId fuel prev reading.rest

/-- `look_for_array_size`. -/
def lookForArraySize (arrId stream : List Char) : Traced Event (Option DataNode) :=
  lookForArraySizeLoop arrId (stream.length + 1) [] stream

/-- The loop of `parse_array_size` over the included files. -/
def includedSizeLoop (files : Files) (arrId : List Char) :
    ℕ → Bool → List Char → Traced Event (Option DataNode)
  | 0, _, _ => ⟨[], none⟩
  | fuel + 1, hash, stream => do
      let reading ← nextToken none stream
      match reading.token with
      | none => pure none
      | some token =>
        if token.head? = some '#' then
          includedSizeLoop files arrId fuel true reading.rest
        else if hash = false then
          includedSizeLoop files arrId fuel hash reading.rest
        else if token = "include".toList then do
          let (inc, rest) ← openInclude files reading.rest
          match inc with
          | none => includedSizeLoop files arrId fuel hash rest
          | some text => do
              let res ← lookForArraySize arrId text
              match res with
              | none => includedSizeLoop files arrId fuel hash rest
              | some size => pure (some size)
        else includedSizeLoop files arrId fuel hash reading.rest

/-- `parse_array_size` in a file with this text, with what it returns and the
node.  The file is read again from its start, and then from where it was. -/
def parseArraySize (files : Files) (text stream : List Char) :
    Traced Event (ℕ × Option DataNode × List Char) := do
  let bracket ← nextToken none stream
  if bracket.token ≠ some ['('] then pure (1, none, bracket.rest)
  else do
    let name ← nextToken none bracket.rest
    match name.token with
    | none => pure (1, none, name.rest)
    | some arrId => do
        let res ← lookForArraySize arrId text
        match res with
        | some size => pure (0, some size, name.rest)
        | none => do
            let res ← includedSizeLoop files arrId (text.length + 1) false text
            pure (0, res, name.rest)

end Arrays

section Macros

/-- The entries of the table of `hsearch`. -/
abbrev Macros := List (List Char × List Char)

/-- The size of the table that `hcreate(128)` makes: a prime. -/
def tableSize : ℕ := 131

/-- `hsearch` with `FIND`. -/
def hsearchFind (macros : Macros) (key : List Char) : Option (List Char) :=
  (macros.find? fun entry => entry.1 = key).map Prod.snd

/-- `hsearch` with `ENTER`: an entry with the same key stays as it is. -/
def hsearchEnter (macros : Macros) (key data : List Char) : Macros :=
  if (hsearchFind macros key).isSome ∨ macros.length = tableSize then macros
  else macros ++ [(key, data)]

/-- `try_apply_macro`. -/
def tryApplyMacro (macros : Macros) (res : List Char) : List Char :=
  (hsearchFind macros res).getD res

/-- `macro_get_string` into a buffer of `size` characters. -/
def macroGetString (size : ℕ) : List Char → List Char → List Char × List Char
  | buf, [] => (buf, [])
  | buf, c :: rest =>
    if c = '"' then
      if buf.getLast? ≠ some '\\' then (buf, rest)
      else macroGetString size (buf.dropLast ++ ['"']) rest
    else macroGetString size (storeChar size buf c) rest

/-- The loop of `macro_get_val`. -/
def macroGetValLoop (size : ℕ) : List Char → Option Char → List Char →
    Traced Event (List Char × List Char)
  | buf, _, [] => pure (buf, [])
  | buf, prev, c :: rest =>
    if c = '\n' then
      if prev = some '\\' then do
        access size ((buf.length : ℤ) - 1)
        macroGetValLoop size buf.dropLast (some c) rest
      else pure (buf, rest)
    else if c = ' ' ∨ c = '\t' then macroGetValLoop size buf (some c) rest
    else macroGetValLoop size (storeChar size buf c) (some c) rest

/-- `macro_get_val` after the blanks: the characters in the buffer, and the
stream. -/
def macroGetText (size : ℕ) (text : List Char) : Traced Event (List Char × List Char) :=
  if text.head? = some '"' then pure (macroGetString size [] text.tail)
  else macroGetValLoop size [] none text

/-- `macro_get_val`: the string in the buffer, and the stream. -/
def macroGetVal (size : ℕ) (stream : List Char) : Traced Event (List Char × List Char) := do
  let (buf, rest) ← macroGetText size (stream.dropWhile isSpace)
  pure (cString buf, rest)

/-- `parse_macro`. -/
def parseMacro (macros : Macros) (stream : List Char) : Traced Event (Macros × List Char) := do
  let (name, after) ← scanWord 128 stream
  if after.head? = some '\n' then pure (macros, after.tail)
  else do
    let (val, rest) ← macroGetVal 256 after.tail
    if name.head? = some '_' then pure (macros, rest)
    else pure (hsearchEnter macros name val, rest)

/-- The loop of `parse_include_macros`. -/
def includeMacrosLoop : ℕ → Bool → Macros → List Char → Traced Event Macros
  | 0, _, _, _ => ⟨[], none⟩
  | fuel + 1, hash, macros, stream => do
      let reading ← nextToken none stream
      match reading.token with
      | none => pure macros
      | some token =>
        if token.head? = some '#' then
          includeMacrosLoop fuel true macros reading.rest
        else if hash = false then
          includeMacrosLoop fuel hash macros reading.rest
        else if token = "define".toList then do
          let (macros, rest) ← parseMacro macros reading.rest
          includeMacrosLoop fuel false macros rest
        else includeMacrosLoop fuel false macros reading.rest

/-- `parse_include_macros`. -/
def parseIncludeMacros (files : Files) (macros : Macros)
    (stream : List Char) : Traced Event (Macros × List Char) := do
  let (inc, rest) ← openInclude files stream
  match inc with
  | none => pure (macros, rest)
  | some text => do
      let macros ← includeMacrosLoop (text.length + 1) false macros text
      pure (macros, rest)

end Macros

section Structs

/-- The states of `parse_test_struct`, from 0 to 4. -/
inductive StructState
  | id
  | equals
  | value
  | cast
  | comma
deriving DecidableEq, Repr

/-- The value that starts with a token: what is returned if it cannot be read,
and the node if there is one. -/
def parseValue (files : Files) (macros : Macros) (text token : List Char)
    (stream : List Char) : Traced Event (ℕ × Option DataNode × List Char) :=
  if token = ['\x7b'] then do
    let (_, ret, rest) ← parseArray stream
    pure (0, some (.array ret), rest)
  else if token = "ARRAY_SIZE".toList then parseArraySize files text stream
  else pure (0, some (.string (tryApplyMacro macros token)), stream)

/-- What `parse_test_struct` returns, and what it leaves. -/
structure StructResult where
  ret : ℕ
  doc : List DataNode
  node : List (List Char × DataNode)
  rest : List Char

/-- The loop of `parse_test_struct` in a file with this text. -/
def parseTestStructLoop (files : Files) (macros : Macros) (text : List Char) :
    ℕ → StructState → List Char → List DataNode →
      List (List Char × DataNode) → List Char → Traced Event StructResult
  | 0, _, _, _, _, _ => ⟨[], none⟩
  | fuel + 1, state, id, doc, node, stream => do
      let reading ← nextToken (some doc) stream
      let doc := reading.doc.getD doc
      match reading.token with
      | none => pure ⟨1, doc, node, reading.rest⟩
      | some token =>
        let continueIn (state : StructState) (id : List Char) :=
          parseTestStructLoop files macros text fuel state id doc node reading.rest
        if token = ['\x7d'] then pure ⟨0, doc, node, reading.rest⟩
        else
          match state with
          | .id => continueIn .equals token
          | .equals =>
            continueIn (if token = ['='] then .value else .equals) id
          | .cast => continueIn (if token = [')'] then .value else .cast) id
          | .comma => continueIn (if token = [','] then .id else .comma) id
          | .value =>
            if token = ['('] then continueIn .cast id
            else do
              let (failed, ret, rest) ← parseValue files macros text token reading.rest
              if failed ≠ 0 then pure ⟨1, doc, node, rest⟩
              else
                match ret with
                | none =>
                  parseTestStructLoop files macros text fuel .value id
                    doc node rest
                | some ret =>
                  let key := if id.head? = some '.' then id.tail else id
                  parseTestStructLoop files macros text fuel .comma id
                    doc (hashAdd node key ret).1 rest

/-- `parse_test_struct`. -/
def parseTestStruct (files : Files) (macros : Macros) (text : List Char)
    (doc : List DataNode) (node : List (List Char × DataNode))
    (stream : List Char) : Traced Event StructResult :=
  parseTestStructLoop files macros text (stream.length + 1) .id [] doc node stream

end Structs

section Files

/-- `tokens`. -/
def tokens : List (List Char) :=
  ["static".toList, "struct".toList, "tst_test".toList, "test".toList, ['='],
    ['\x7b']]

/-- The variables of `parse_file`, and the table of macros. -/
structure FileState where
  state : ℕ
  found : Bool
  macros : Macros
  doc : List DataNode
  res : List (List Char × DataNode)

/-- A token that starts with `#`, in `parse_file`. -/
def parseDirective (files : Files) (current : FileState)
    (stream : List Char) : Traced Event (FileState × List Char) := do
  let reading ← nextToken (some current.doc) stream
  let current := { current with doc := reading.doc.getD current.doc }
  if reading.token = some "define".toList then do
    let (macros, rest) ← parseMacro current.macros reading.rest
    pure ({ current with macros := macros }, rest)
  else if reading.token = some "include".toList then do
    let (macros, rest) ← parseIncludeMacros files current.macros reading.rest
    pure ({ current with macros := macros }, rest)
  else pure (current, reading.rest)

/-- The loop of `parse_file` over a file with this text. -/
def parseFileLoop (files : Files) (text : List Char) :
    ℕ → FileState → List Char → Traced Event FileState
  | 0, _, _ => ⟨[], none⟩
  | fuel + 1, current, stream => do
      let reading ← nextToken (some current.doc) stream
      let current := { current with doc := reading.doc.getD current.doc }
      match reading.token with
      | none => pure current
      | some token =>
        if tokens[current.state]? = some token then
          let current := { current with state := current.state + 1 }
          if current.state < tokens.length then
            parseFileLoop files text fuel current reading.rest
          else do
            let result ← parseTestStruct files current.macros text
              current.doc current.res reading.rest
            let current := { current with
              found := true, doc := result.doc, res := result.node }
            parseFileLoop files text fuel current result.rest
        else if token.head? = some '#' then do
          let (current, rest) ← parseDirective files current reading.rest
          parseFileLoop files text fuel { current with state := 0 } rest
        else
          parseFileLoop files text fuel { current with state := 0 } reading.rest

/-- `parse_file` on the text of the file, if it is there. -/
def parseFile (files : Files) (file : Option (List Char)) :
    Traced Event (Option (List (List Char × DataNode))) :=
  match file with
  | none => pure none
  | some text => do
      let last ← parseFileLoop files text (text.length + 1) ⟨0, false, [], [], []⟩ text
      let (res, found) := if last.doc.length ≠ 0 then
        ((hashAdd last.res "doc".toList (.array last.doc)).1, true)
        else (last.res, last.found)
      pure (if found then some res else none)

end Files

end GrapheneLtp.Metaparse
