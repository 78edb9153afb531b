import Mathlib.Tactic
import GrapheneLtp.Core.Json
import GrapheneLtp.Metadata.DataStorage

/-!
# The JSON output of data trees

A tree with a hash at its root only is written as one JSON text, and decoding
the text gives the tree back.  Strings lose the characters that JSON does not
allow, and tabs become blanks.
-/

namespace GrapheneLtp.DataStorage

open CString Decimal Json

/-- What is left of a string in the output. -/
def cleaned (text : List Char) : List Char := text.flatMap fun c =>
    if c = '\t' then List.replicate 8 ' '
    else if c.toNat < 0x20 then []
    else [c]

/-- A character with a code from 1 to 127. -/
def isAscii (c : Char) : Bool :=
  decide (1 ≤ c.toNat ∧ c.toNat ≤ 127)

/-- A character of a key. -/
def isKeyChar (c : Char) : Bool := c.isAlphanum || c == '_' || c == '.' || c == '-'

mutual

/-- There is no hash below, and all strings are ASCII. -/
def plainNode : DataNode → Bool
  | .int _ => true
  | .string val => val.all isAscii
  | .hash _ => false
  | .array items => plainItems items

def plainItems : List DataNode → Bool
  | [] => true
  | node :: rest => plainNode node && plainItems rest

end

mutual

/-- The JSON value of a tree without hashes. -/
def jsonValue : DataNode → JsonValue
  | .int val => .number val.toInt 0
  | .string val => .string (cleaned val)
  | .hash _ => .null
  | .array items => .array (jsonItems items)

def jsonItems : List DataNode → List JsonValue
  | [] => []
  | node :: rest => jsonValue node :: jsonItems rest

end

mutual

/-- How deep the decoder calls itself, at most. -/
def depth : DataNode → ℕ
  | .int _ => 1
  | .string _ => 1
  | .hash _ => 1
  | .array items => itemsDepth items + 1

def itemsDepth : List DataNode → ℕ
  | [] => 0
  | node :: rest => max (depth node) (itemsDepth rest) + 1

end

section Strings

theorem isWs_of_mem_spaces {padd : UInt32} {c : Char} (hc : c ∈ spaces padd) : isWs c = true := by
  rw [List.eq_of_mem_replicate hc]
  rfl

/-- A character is written in one of three ways. -/
theorem escapeChar_cases {c : Char} (hc : isAscii c = true) :
    ((c = '"' ∨ c = '\\') ∧ escapeChar c = ['\\', c] ∧ cleaned [c] = [c]) ∨
      (∀ d ∈ escapeChar c, isPlain d = true) ∧ cleaned [c] = escapeChar c := by
  simp only [isAscii, decide_eq_true_eq] at hc
  by_cases hslash : c = '\\'
  · subst hslash
    exact .inl ⟨.inr rfl, rfl, rfl⟩
  by_cases hquote : c = '"'
  · subst hquote
    exact .inl ⟨.inl rfl, rfl, rfl⟩
  right
  by_cases htab : c = '\t'
  · subst htab
    exact ⟨List.all_eq_true.mp (by decide), rfl⟩
  by_cases hcontrol : c.toNat < 0x20
  · have hdropped : ¬0x20 ≤ c.toNat := by omega
    simp [escapeChar, cleaned, hslash, hquote, htab, hcontrol, hdropped]
  · have hkept : 0x20 ≤ c.toNat ∧ c.toNat < 0x80 := by omega
    simp [escapeChar, cleaned, hslash, hquote, htab, hcontrol, hkept, isPlain]

theorem cleaned_cons (c : Char) (text : List Char) :
    cleaned (c :: text) = cleaned [c] ++ cleaned text := by
  simp [cleaned]

/-- An escaped string is read back without what was dropped. -/
theorem parseChars_escape {text : List Char} (htext : text.all isAscii = true)
    (rest : List Char) {fuel : ℕ}
    (hfuel : (text.flatMap escapeChar).length < fuel) :
    parseChars fuel (text.flatMap escapeChar ++ '"' :: rest) =
      some (cleaned text, rest) := by
  induction text generalizing fuel with
  | nil =>
    obtain ⟨left, rfl⟩ : ∃ left, fuel = left + 1 :=
      Nat.exists_eq_add_one_of_ne_zero (Nat.ne_zero_of_lt hfuel)
    exact parseChars_quote _
  | cons c text ih =>
    rw [List.all_cons, Bool.and_eq_true] at htext
    rw [List.flatMap_cons, List.length_append] at hfuel
    rw [List.flatMap_cons, List.append_assoc, cleaned_cons]
    rcases escapeChar_cases htext.1 with
      ⟨hescaped, hwritten, hkept⟩ | ⟨hplain, hkept⟩
    · rw [hwritten] at hfuel ⊢
      rw [hkept]
      obtain ⟨left, rfl⟩ : ∃ left, fuel = left + 1 := ⟨fuel - 1, by omega⟩
      apply parseChars_escaped hescaped
      apply ih htext.2
      simp only [List.length_cons, List.length_nil] at hfuel
      omega
    · obtain ⟨left, rfl⟩ : ∃ left, fuel = left + (escapeChar c).length :=
        ⟨fuel - (escapeChar c).length, by omega⟩
      rw [hkept]
      exact parseChars_append (ih htext.2 (by omega)) hplain

theorem parseString_escape {text : List Char} (htext : text.all isAscii = true) (rest : List Char) :
    parseString (text.flatMap escapeChar ++ '"' :: rest) =
      some (cleaned text, rest) := by
  apply parseChars_escape htext
  simp only [List.length_append, List.length_cons]
  omega

theorem isPlain_of_isKeyChar {c : Char} (hc : isKeyChar c = true) : isPlain c = true := by
  have hother (other : Char) (hnot : isKeyChar other = false) : c ≠ other := by
    rintro rfl
    rw [hc] at hnot
    cases hnot
  have hcontrols : ∀ code < 0x20, isKeyChar (Char.ofNat code) = false := by
    decide
  have hcontrol : 0x20 ≤ c.toNat := by
    by_contra hlow
    have hnot := hcontrols c.toNat (by omega)
    rw [Char.ofNat_toNat, hc] at hnot
    cases hnot
  simp [isPlain, hother '"' rfl, hother '\\' rfl, hcontrol]

/-- A key is written as it is. -/
theorem parseString_key {key : List Char} (hkey : key.all isKeyChar = true) (rest : List Char) :
    parseString (key ++ '"' :: rest) = some (key, rest) := by
  have hquote : parseChars (rest.length + 2) ('"' :: rest) = some ([], rest) :=
    parseChars_quote _
  have hplain : ∀ c ∈ key, isPlain c = true := fun c hc =>
    isPlain_of_isKeyChar (List.all_eq_true.mp hkey c hc)
  have happend := parseChars_append hquote hplain
  rw [List.append_nil] at happend
  rw [parseString, ← happend]
  congr 1
  simp only [List.length_append, List.length_cons]
  omega

end Strings

section Values

/-- What follows a value in the output. -/
def isStop (stop : Char) : Prop := stop = ',' ∨ stop = '\n'

/-- A closing character on a line of its own. -/
theorem skipWs_closing {close : Char} (hclose : isWs close = false)
    (padd : UInt32) (rest : List Char) :
    skipWs ('\n' :: (spaces padd ++ close :: rest)) = close :: rest := by
  have hblanks : ∀ c ∈ '\n' :: spaces padd, isWs c = true := by
    intro c hc
    rcases List.mem_cons.mp hc with rfl | hspace
    · rfl
    · exact isWs_of_mem_spaces hspace
  rw [← List.cons_append, skipWs_append hblanks]
  exact skipWs_cons hclose rest

theorem length_separator_pos (last : Bool) : 0 < (separator last).length := by
  cases last <;> decide

theorem parseItems_newline (fuel : ℕ) (text : List Char) :
    parseItems fuel ('\n' :: text) = parseItems fuel text :=
  parseItems_blanks (List.forall_mem_singleton.mpr (rfl : isWs '\n' = true)) fuel text

mutual

/-- A value is read back, wherever it stands. -/
theorem parseValue_dataToJsonNode (node : DataNode)
    (hplain : plainNode node = true) (padd : UInt32) (doPadd : Bool)
    {stop : Char} (hstop : isStop stop) (rest : List Char) {fuel : ℕ}
    (hfuel : depth node ≤ fuel) :
    parseValue fuel (dataToJsonNode node padd doPadd ++ stop :: rest) =
      some (jsonValue node, stop :: rest) := by
  match node, fuel with
  | .int val, 0 | .string val, 0 | .array items, 0 =>
    simp [depth] at hfuel
  | .int val, fuel + 1 =>
    rw [dataToJsonNode, List.append_assoc, parseValue_blanks fun _ => isWs_of_mem_spaces]
    rcases hstop with rfl | rfl
    · exact parseValue_decimal _ _ _ rfl (by decide) (by decide)
    · exact parseValue_decimal _ _ _ rfl (by decide) (by decide)
  | .string val, fuel + 1 =>
    rw [dataToJsonNode, dataFprintfEsc, List.append_assoc,
      parseValue_blanks fun _ => isWs_of_mem_spaces, List.cons_append,
      List.append_assoc]
    apply parseValue_string
    exact parseString_escape hplain _
  | .array [], fuel + 1 =>
    rw [dataToJsonNode, List.append_assoc,
      parseValue_blanks fun _ => isWs_of_mem_spaces, dataToJsonItems]
    simp only [List.cons_append, List.nil_append, List.append_assoc]
    apply parseValue_emptyArray
    exact skipWs_closing rfl _ _
  | .array (node :: others), fuel + 1 =>
    rw [dataToJsonNode, List.append_assoc, parseValue_blanks fun _ => isWs_of_mem_spaces]
    simp only [List.cons_append, List.nil_append, List.append_assoc]
    apply parseValue_array
    rw [parseItems_newline]
    apply parseItems_dataToJsonItems _ (List.cons_ne_nil _ _) hplain
    rw [depth] at hfuel
    omega
termination_by sizeOf node

theorem parseItems_dataToJsonItems (items : List DataNode) (hnil : items ≠ [])
    (hplain : plainItems items = true) (padd outer : UInt32) (rest : List Char)
    {fuel : ℕ} (hfuel : itemsDepth items ≤ fuel) :
    parseItems fuel (dataToJsonItems items padd ++
        (spaces outer ++ ']' :: rest)) = some (jsonItems items, rest) := by
  match items, fuel with
  | [], _ => exact absurd rfl hnil
  | node :: others, 0 => simp [itemsDepth] at hfuel
  | [node], fuel + 1 =>
    simp only [itemsDepth, plainItems, Bool.and_true] at hfuel hplain
    rw [dataToJsonItems, List.append_assoc, List.append_assoc]
    apply parseItems_last
    · exact parseValue_dataToJsonNode node hplain padd true (.inr rfl) _ (by omega)
    · exact skipWs_closing rfl _ _
  | node :: next :: others, fuel + 1 =>
    rw [itemsDepth] at hfuel
    rw [plainItems, Bool.and_eq_true] at hplain
    rw [dataToJsonItems, List.append_assoc, List.append_assoc]
    apply parseItems_more
    · exact parseValue_dataToJsonNode node hplain.1 padd true (.inl rfl) _ (by omega)
    · refine (parseItems_newline _ _).trans ?_
      exact parseItems_dataToJsonItems (next :: others)
        (List.cons_ne_nil _ _) hplain.2 padd outer rest (by omega)
termination_by sizeOf items

end

mutual

/-- The text is long enough to count the calls of the decoder. -/
theorem depth_le_length (node : DataNode) (hplain : plainNode node = true)
    (padd : UInt32) (doPadd : Bool) :
    depth node ≤ (dataToJsonNode node padd doPadd).length := by
  match node with
  | .int val =>
    have hdigits := List.length_pos_iff.mpr (signedDecimal_ne_nil val.toInt)
    rw [dataToJsonNode, List.length_append, depth]
    omega
  | .string val =>
    simp only [dataToJsonNode, dataFprintfEsc, List.length_append, List.length_cons, depth]
    omega
  | .array items =>
    have hitems := itemsDepth_le_length items hplain (padd + 1)
    simp only [dataToJsonNode, List.length_append, List.length_cons, depth]
    omega

theorem itemsDepth_le_length (items : List DataNode)
    (hplain : plainItems items = true) (padd : UInt32) :
    itemsDepth items ≤ (dataToJsonItems items padd).length := by
  match items with
  | [] => exact Nat.zero_le _
  | node :: rest =>
    rw [plainItems, Bool.and_eq_true] at hplain
    have hnode := depth_le_length node hplain.1 padd true
    have hrest := itemsDepth_le_length rest hplain.2 padd
    have hseparator := length_separator_pos rest.isEmpty
    simp only [dataToJsonItems, List.length_append, itemsDepth]
    omega

end

end Values

section Objects

/-- A key in the output, and a value below it. -/
def plainElem (elem : List Char × DataNode) : Bool := elem.1.all isKeyChar && plainNode elem.2

/-- The member of the object that an element of the hash becomes. -/
def jsonElem (elem : List Char × DataNode) : List Char × JsonValue := (elem.1, jsonValue elem.2)

theorem parseMembers_newline (fuel : ℕ) (text : List Char) :
    parseMembers fuel ('\n' :: text) = parseMembers fuel text :=
  parseMembers_blanks (List.forall_mem_singleton.mpr (rfl : isWs '\n' = true)) fuel text

theorem parseValue_blank (fuel : ℕ) (text : List Char) :
    parseValue fuel (' ' :: text) = parseValue fuel text :=
  parseValue_blanks (List.forall_mem_singleton.mpr (rfl : isWs ' ' = true)) fuel text

/-- The elements of the hash are read back. -/
theorem parseMembers_dataToJsonElems (elem : List Char × DataNode)
    (others : List (List Char × DataNode))
    (hplain : ∀ member ∈ elem :: others, plainElem member = true)
    (padd outer : UInt32) (rest : List Char) {fuel : ℕ}
    (hfuel : (dataToJsonElems (elem :: others) padd).length ≤ fuel) :
    parseMembers fuel (dataToJsonElems (elem :: others) padd ++ (spaces outer ++ '\x7d' :: rest)) =
      some ((elem :: others).map jsonElem, rest) := by
  induction others generalizing elem fuel with
  | nil =>
    have helem := hplain elem List.mem_cons_self
    rw [plainElem, Bool.and_eq_true] at helem
    have hdepth := depth_le_length elem.2 helem.2 (padd + 1) false
    simp only [dataToJsonElems, List.length_append, List.length_cons] at hfuel
    obtain ⟨left, rfl⟩ : ∃ left, fuel = left + 1 := ⟨fuel - 1, by omega⟩
    rw [dataToJsonElems, List.append_assoc, parseMembers_blanks fun _ => isWs_of_mem_spaces]
    simp only [List.cons_append, List.append_assoc]
    apply parseMembers_last
    · exact parseString_key helem.1 _
    · rw [parseValue_blank]
      exact parseValue_dataToJsonNode elem.2 helem.2 _ _ (.inr rfl) _ (by omega)
    · exact skipWs_closing rfl _ _
  | cons next others ih =>
    have helem := hplain elem List.mem_cons_self
    rw [plainElem, Bool.and_eq_true] at helem
    have hdepth := depth_le_length elem.2 helem.2 (padd + 1) false
    rw [dataToJsonElems] at hfuel
    simp only [List.length_append, List.length_cons] at hfuel
    obtain ⟨left, rfl⟩ : ∃ left, fuel = left + 1 := ⟨fuel - 1, by omega⟩
    rw [dataToJsonElems, List.append_assoc, parseMembers_blanks fun _ => isWs_of_mem_spaces]
    simp only [List.cons_append, List.append_assoc]
    apply parseMembers_more
    · exact parseString_key helem.1 _
    · rw [parseValue_blank]
      exact parseValue_dataToJsonNode elem.2 helem.2 _ _ (.inl rfl) _ (by omega)
    · refine (parseMembers_newline _ _).trans ?_
      apply ih next fun member hmember =>
        hplain member (List.mem_cons_of_mem _ hmember)
      omega

/-- Decoding the output gives the elements of the hash in order, whatever the
indentation. -/
theorem decode_dataToJson (elems : List (List Char × DataNode))
    (hplain : ∀ elem ∈ elems, plainElem elem = true) (padd : UInt32) :
    decode (dataToJson (.hash elems) padd) = some (.object (elems.map jsonElem)) := by
  rw [decode]
  have hvalue : parseValue ((dataToJson (.hash elems) padd).length + 1)
      (dataToJson (.hash elems) padd) = some (.object (elems.map jsonElem), []) := by
    rw [dataToJson, dataToJsonNode]
    cases elems with
    | nil =>
      apply parseValue_emptyObject
      exact skipWs_closing rfl padd []
    | cons elem others =>
      apply parseValue_object
      refine (parseMembers_newline _ _).trans ?_
      apply parseMembers_dataToJsonElems elem others hplain
      simp only [List.length_cons, List.length_append]
      omega
  rw [hvalue]
  rfl

/-- Nested and empty arrays, a number, and a string with every kind of
character. -/
theorem decode_dataToJson_tags : decode (dataToJson (.hash
        [("tags".toList, .array [.array [.string "linux-git".toList, .int (-3)],
          .array []]), ("doc".toList, .string "a\t\"\\\nb".toList)]) 2) =
      some (.object
        [("tags".toList, .array [.array [.string "linux-git".toList,
          .number (-3) 0], .array []]),
        ("doc".toList, .string "a        \"\\b".toList)]) :=
  decode_dataToJson _ (by decide) 2

end Objects

end GrapheneLtp.DataStorage
