import Mathlib.Tactic
import GrapheneLtp.Core.Decimal

/-!
# JSON texts

A decoder for the grammar of RFC 8259.  It accepts a text if and only if the
whole of it is one value with white space around it, and it keeps the members
of an object in order.
-/

namespace GrapheneLtp.Json

open CString Decimal

/-- A JSON value.  A number is a mantissa and a power of ten. -/
inductive JsonValue
  | null
  | bool (value : Bool)
  | number (mantissa exponent : ℤ)
  | string (text : List Char)
  | array (items : List JsonValue)
  | object (members : List (List Char × JsonValue))

section Decoder

/-- White space. -/
def isWs (c : Char) : Bool := c ∈ [' ', '\t', '\n', '\r']

def skipWs (text : List Char) : List Char := text.dropWhile isWs

def hexDigit (c : Char) : Option ℕ :=
  if c.isDigit then some (c.toNat - 48)
  else if 'a' ≤ c ∧ c ≤ 'f' then some (c.toNat - 87)
  else if 'A' ≤ c ∧ c ≤ 'F' then some (c.toNat - 55)
  else none

/-- Four hexadecimal digits. -/
def hexUnit (text : List Char) : Option (ℕ × List Char) :=
  match text with
  | a :: b :: c :: d :: rest =>
    match hexDigit a, hexDigit b, hexDigit c, hexDigit d with
    | some a, some b, some c, some d =>
      some (((a * 16 + b) * 16 + c) * 16 + d, rest)
    | _, _, _, _ => none
  | _ => none

/-- The rest of a `\u` escape.  Two surrogates are one character, and a lone
surrogate, which is none, is replaced. -/
def parseUnicode (text : List Char) : Option (Char × List Char) :=
  match hexUnit text with
  | none => none
  | some (unit, rest) =>
    if unit < 0xD800 ∨ 0xDFFF < unit then some (Char.ofNat unit, rest)
    else
      match rest with
      | '\\' :: 'u' :: more =>
        match hexUnit more with
        | none => none
        | some (low, after) =>
          if unit < 0xDC00 ∧ 0xDC00 ≤ low ∧ low ≤ 0xDFFF then
            some (Char.ofNat (0x10000 + (unit - 0xD800) * 1024 + (low - 0xDC00)), after)
          else some ('\ufffd', rest)
      | _ => some ('\ufffd', rest)

/-- What follows a backslash. -/
def parseEscape (text : List Char) : Option (Char × List Char) :=
  match text with
  | [] => none
  | c :: rest =>
    if c = '"' ∨ c = '\\' ∨ c = '/' then some (c, rest)
    else if c = 'b' then some ('\x08', rest)
    else if c = 'f' then some ('\x0c', rest)
    else if c = 'n' then some ('\n', rest)
    else if c = 'r' then some ('\r', rest)
    else if c = 't' then some ('\t', rest)
    else if c = 'u' then parseUnicode rest
    else none

/-- A string, after its opening quote.  Every round takes a character, so the
length of the text is fuel enough. -/
def parseChars : ℕ → List Char → Option (List Char × List Char)
  | 0, _ => none
  | _ + 1, [] => none
  | fuel + 1, c :: rest =>
    if c = '"' then some ([], rest)
    else if c = '\\' then
      match parseEscape rest with
      | none => none
      | some (escaped, more) => (parseChars fuel more).map fun result =>
        (escaped :: result.1, result.2)
    else if c.toNat < 0x20 then none
    else (parseChars fuel rest).map fun result =>
      (c :: result.1, result.2)

def parseString (text : List Char) : Option (List Char × List Char) :=
  parseChars (text.length + 1) text

/-- The digits after a decimal point. -/
def parseFraction (text : List Char) : Option (List Char × List Char) :=
  match text with
  | '.' :: rest =>
    if rest.takeWhile Char.isDigit = [] then none
    else some (rest.takeWhile Char.isDigit, rest.dropWhile Char.isDigit)
  | _ => some ([], text)

/-- The exponent. -/
def parseExponent (text : List Char) : Option (ℤ × List Char) :=
  if text.head? = some 'e' ∨ text.head? = some 'E' then
    let signed := text.tail
    let digits := if signed.head? = some '+' ∨ signed.head? = some '-' then
      signed.tail else signed
    if digits.takeWhile Char.isDigit = [] then none
    else
      let size : ℤ := digitsValue (digits.takeWhile Char.isDigit)
      some (if signed.head? = some '-' then -size else size, digits.dropWhile Char.isDigit)
  else some (0, text)

/-- A number: no leading zeros, and digits wherever they are announced. -/
def parseNumber (text : List Char) : Option (JsonValue × List Char) :=
  let digits := if text.head? = some '-' then text.tail else text
  let whole := digits.takeWhile Char.isDigit
  if whole = [] ∨ whole.head? = some '0' ∧ whole ≠ ['0'] then none
  else
    match parseFraction (digits.dropWhile Char.isDigit) with
    | none => none
    | some (fraction, rest) =>
      match parseExponent rest with
      | none => none
      | some (exponent, after) =>
        let size : ℤ := digitsValue (whole ++ fraction)
        some (.number (if text.head? = some '-' then -size else size)
          (exponent - fraction.length), after)

/-- A literal name, or else a number. -/
def parseScalar (text : List Char) : Option (JsonValue × List Char) :=
  if ['n', 'u', 'l', 'l'].isPrefixOf text then some (.null, text.drop 4)
  else if ['t', 'r', 'u', 'e'].isPrefixOf text then
    some (.bool true, text.drop 4)
  else if ['f', 'a', 'l', 's', 'e'].isPrefixOf text then
    some (.bool false, text.drop 5)
  else parseNumber text

mutual

/-- A value, with white space before it. -/
def parseValue : ℕ → List Char → Option (JsonValue × List Char)
  | 0, _ => none
  | fuel + 1, text =>
    match skipWs text with
    | [] => none
    | c :: rest =>
      if c = '"' then
        (parseString rest).map fun result => (.string result.1, result.2)
      else if c = '[' then
        match skipWs rest with
        | ']' :: after => some (.array [], after)
        | _ => (parseItems fuel rest).map fun result =>
          (.array result.1, result.2)
      else if c = '\x7b' then
        match skipWs rest with
        | '\x7d' :: after => some (.object [], after)
        | _ => (parseMembers fuel rest).map fun result =>
          (.object result.1, result.2)
      else parseScalar (c :: rest)

/-- The items of an array, up to and with the bracket. -/
def parseItems : ℕ → List Char → Option (List JsonValue × List Char)
  | 0, _ => none
  | fuel + 1, text =>
    match parseValue fuel text with
    | none => none
    | some (item, rest) =>
      match skipWs rest with
      | ',' :: more => (parseItems fuel more).map fun result =>
        (item :: result.1, result.2)
      | ']' :: after => some ([item], after)
      | _ => none

/-- The members of an object, up to and with the brace. -/
def parseMembers : ℕ → List Char → Option (List (List Char × JsonValue) × List Char)
  | 0, _ => none
  | fuel + 1, text =>
    match skipWs text with
    | '"' :: quoted =>
      match parseString quoted with
      | none => none
      | some (key, rest) =>
        match skipWs rest with
        | ':' :: valued =>
          match parseValue fuel valued with
          | none => none
          | some (value, more) =>
            match skipWs more with
            | ',' :: others => (parseMembers fuel others).map
                fun result => ((key, value) :: result.1, result.2)
            | '\x7d' :: after => some ([(key, value)], after)
            | _ => none
        | _ => none
    | _ => none

end

/-- The value a text stands for, if it is a JSON text. -/
def decode (text : List Char) : Option JsonValue :=
  match parseValue (text.length + 1) text with
  | none => none
  | some (value, rest) => if skipWs rest = [] then some value else none

end Decoder

section Lemmas

variable {text rest : List Char} {c : Char}

theorem skipWs_append {blanks : List Char}
    (hblanks : ∀ c ∈ blanks, isWs c = true) (text : List Char) :
    skipWs (blanks ++ text) = skipWs text :=
  List.dropWhile_append_of_pos hblanks

theorem skipWs_cons (hc : isWs c = false) (rest : List Char) : skipWs (c :: rest) = c :: rest := by
  rw [skipWs, List.dropWhile_cons]
  simp [hc]

/-- White space before a value does not matter. -/
theorem parseValue_blanks {blanks : List Char}
    (hblanks : ∀ c ∈ blanks, isWs c = true) (fuel : ℕ) (text : List Char) :
    parseValue fuel (blanks ++ text) = parseValue fuel text := by
  cases fuel with
  | zero => rfl
  | succ fuel => rw [parseValue, parseValue, skipWs_append hblanks]

theorem parseItems_blanks {blanks : List Char}
    (hblanks : ∀ c ∈ blanks, isWs c = true) (fuel : ℕ) (text : List Char) :
    parseItems fuel (blanks ++ text) = parseItems fuel text := by
  cases fuel with
  | zero => rfl
  | succ fuel => rw [parseItems, parseItems, parseValue_blanks hblanks]

theorem parseMembers_blanks {blanks : List Char}
    (hblanks : ∀ c ∈ blanks, isWs c = true) (fuel : ℕ) (text : List Char) :
    parseMembers fuel (blanks ++ text) = parseMembers fuel text := by
  cases fuel with
  | zero => rfl
  | succ fuel => rw [parseMembers, parseMembers, skipWs_append hblanks]

theorem parseValue_string (fuel : ℕ) {value : List Char}
    (hstring : parseString text = some (value, rest)) :
    parseValue (fuel + 1) ('"' :: text) = some (.string value, rest) := by
  rw [parseValue, skipWs_cons rfl]
  simp [hstring]

/-- A closing bracket does not start an item. -/
theorem parseItems_ne_bracket {fuel : ℕ} {items : List JsonValue}
    (hitems : parseItems fuel text = some (items, rest)) (after : List Char) :
    skipWs text ≠ ']' :: after := by
  intro hclose
  rcases fuel with _ | _ | fuel
  · cases hitems
  · cases hitems
  · have hvalue : parseValue (fuel + 1) text = none := by
      rw [parseValue, hclose]
      rfl
    rw [parseItems, hvalue] at hitems
    cases hitems

/-- A closing brace does not start a member. -/
theorem parseMembers_ne_brace {fuel : ℕ} {members : List (List Char × JsonValue)}
    (hmembers : parseMembers fuel text = some (members, rest))
    (after : List Char) : skipWs text ≠ '\x7d' :: after := by
  intro hclose
  cases fuel with
  | zero => cases hmembers
  | succ fuel =>
    rw [parseMembers, hclose] at hmembers
    cases hmembers

theorem parseValue_array (fuel : ℕ) {items : List JsonValue}
    (hitems : parseItems fuel text = some (items, rest)) :
    parseValue (fuel + 1) ('[' :: text) = some (.array items, rest) := by
  have hopen := parseItems_ne_bracket hitems
  rw [parseValue, skipWs_cons rfl]
  simp only [Char.reduceEq, if_false, if_true]
  rw [hitems]
  rfl

theorem parseValue_emptyArray (fuel : ℕ) (hclose : skipWs text = ']' :: rest) :
    parseValue (fuel + 1) ('[' :: text) = some (.array [], rest) := by
  rw [parseValue, skipWs_cons rfl]
  simp [hclose]

theorem parseItems_more (fuel : ℕ) {item : JsonValue} {items : List JsonValue} {more : List Char}
    (hitem : parseValue fuel text = some (item, ',' :: more))
    (hitems : parseItems fuel more = some (items, rest)) :
    parseItems (fuel + 1) text = some (item :: items, rest) := by
  rw [parseItems, hitem]
  simp [skipWs_cons, isWs, hitems]

theorem parseItems_last (fuel : ℕ) {item : JsonValue} {more : List Char}
    (hitem : parseValue fuel text = some (item, more))
    (hclose : skipWs more = ']' :: rest) :
    parseItems (fuel + 1) text = some ([item], rest) := by
  rw [parseItems, hitem]
  simp [hclose]

theorem parseMembers_more (fuel : ℕ) {key valued quoted others : List Char}
    {value : JsonValue} {members : List (List Char × JsonValue)}
    (hkey : parseString quoted = some (key, ':' :: valued))
    (hvalue : parseValue fuel valued = some (value, ',' :: others))
    (hmembers : parseMembers fuel others = some (members, rest)) :
    parseMembers (fuel + 1) ('"' :: quoted) =
      some ((key, value) :: members, rest) := by
  rw [parseMembers, skipWs_cons rfl]
  simp [hkey, skipWs_cons, isWs, hvalue, hmembers]

theorem parseMembers_last (fuel : ℕ) {key valued quoted more : List Char} {value : JsonValue}
    (hkey : parseString quoted = some (key, ':' :: valued))
    (hvalue : parseValue fuel valued = some (value, more))
    (hclose : skipWs more = '\x7d' :: rest) :
    parseMembers (fuel + 1) ('"' :: quoted) = some ([(key, value)], rest) := by
  rw [parseMembers, skipWs_cons rfl]
  simp [hkey, skipWs_cons, isWs, hvalue, hclose]

theorem parseValue_object (fuel : ℕ) {members : List (List Char × JsonValue)}
    (hmembers : parseMembers fuel text = some (members, rest)) :
    parseValue (fuel + 1) ('\x7b' :: text) = some (.object members, rest) := by
  have hopen := parseMembers_ne_brace hmembers
  rw [parseValue, skipWs_cons rfl]
  simp only [Char.reduceEq, if_false, if_true]
  rw [hmembers]
  rfl

theorem parseValue_emptyObject (fuel : ℕ) (hclose : skipWs text = '\x7d' :: rest) :
    parseValue (fuel + 1) ('\x7b' :: text) = some (.object [], rest) := by
  rw [parseValue, skipWs_cons rfl]
  simp [hclose]

section Strings

/-- Characters that stand for themselves in a string. -/
def isPlain (c : Char) : Bool :=
  c != '"' && c != '\\' && decide (0x20 ≤ c.toNat)

theorem parseChars_quote (fuel : ℕ) :
    parseChars (fuel + 1) ('"' :: rest) = some ([], rest) := rfl

theorem parseChars_plain {fuel : ℕ} (hc : isPlain c = true)
    {value : List Char} (hrest : parseChars fuel text = some (value, rest)) :
    parseChars (fuel + 1) (c :: text) = some (c :: value, rest) := by
  simp only [isPlain, Bool.and_eq_true, bne_iff_ne, decide_eq_true_eq] at hc
  obtain ⟨⟨hquote, hslash⟩, hcontrol⟩ := hc
  rw [parseChars, if_neg hquote, if_neg hslash, if_neg (by omega), hrest]
  rfl

theorem parseChars_append {fuel : ℕ} {value : List Char}
    (hrest : parseChars fuel text = some (value, rest)) {plain : List Char}
    (hplain : ∀ c ∈ plain, isPlain c = true) :
    parseChars (fuel + plain.length) (plain ++ text) = some (plain ++ value, rest) := by
  induction plain with
  | nil => exact hrest
  | cons c plain ih =>
    apply parseChars_plain (hplain c List.mem_cons_self)
    exact ih fun c hc => hplain c (List.mem_cons_of_mem _ hc)

/-- A quote or a backslash after a backslash. -/
theorem parseChars_escaped {fuel : ℕ} (hc : c = '"' ∨ c = '\\')
    {value : List Char} (hrest : parseChars fuel text = some (value, rest)) :
    parseChars (fuel + 1) ('\\' :: c :: text) = some (c :: value, rest) := by
  have hescape : parseEscape (c :: text) = some (c, text) := by
    rw [parseEscape, if_pos (hc.imp_right .inl)]
  have hslash : ¬ '\\' = '"' := by decide
  rw [parseChars, if_neg hslash, if_pos rfl, hescape]
  simp [hrest]

end Strings

section Numbers

theorem parseFraction_none {stop : Char} (rest : List Char) (hpoint : stop ≠ '.') :
    parseFraction (stop :: rest) = some ([], stop :: rest) := by
  unfold parseFraction
  split
  · rename_i hequal
    exact absurd (List.cons.inj hequal).1 hpoint
  · rfl

theorem parseExponent_none {stop : Char} (rest : List Char) (hexponent : stop ≠ 'e' ∧ stop ≠ 'E') :
    parseExponent (stop :: rest) = some (0, stop :: rest) := by
  rw [parseExponent, if_neg]
  simpa using hexponent

/-- An integer as it is printed, with something else behind it. -/
theorem parseNumber_decimal (value : ℤ) {stop : Char} (rest : List Char)
    (hstop : stop.isDigit = false) (hpoint : stop ≠ '.')
    (hexponent : stop ≠ 'e' ∧ stop ≠ 'E') :
    parseNumber (signedDecimal value ++ stop :: rest) = some (.number value 0, stop :: rest) := by
  have htake := takeWhile_decimal value.natAbs rest hstop
  have hdrop := dropWhile_decimal value.natAbs rest hstop
  have hwhole : ¬(decimal value.natAbs = [] ∨ (decimal value.natAbs).head? = some '0' ∧
        decimal value.natAbs ≠ ['0']) := by
    rintro (hnil | ⟨hhead, hlong⟩)
    · exact decimal_ne_nil _ hnil
    · exact hlong (decimal_of_head_zero hhead)
  unfold signedDecimal
  split
  · rename_i hnegative
    have hvalue : -(value.natAbs : ℤ) = value := by omega
    simp only [parseNumber, List.cons_append, List.head?_cons, if_true,
      List.tail_cons, htake, hdrop, hwhole, if_false,
      parseFraction_none rest hpoint, parseExponent_none rest hexponent,
      List.append_nil, digitsValue_decimal, hvalue]
    rfl
  · rename_i hpositive
    have hvalue : (value.natAbs : ℤ) = value := by omega
    have hsign : ¬(decimal value.natAbs ++ stop :: rest).head? = some '-' := by
      rw [List.head?_append_of_ne_nil _ (decimal_ne_nil _)]
      intro hhead
      have hmem := List.mem_of_head? hhead
      cases isDigit_of_mem_decimal hmem
    simp only [parseNumber, hsign, if_false, htake, hdrop, hwhole,
      parseFraction_none rest hpoint, parseExponent_none rest hexponent,
      List.append_nil, digitsValue_decimal, hvalue]
    rfl

/-- A printed integer is a value. -/
theorem parseValue_decimal (fuel : ℕ) (value : ℤ) {stop : Char}
    (rest : List Char) (hstop : stop.isDigit = false) (hpoint : stop ≠ '.')
    (hexponent : stop ≠ 'e' ∧ stop ≠ 'E') :
    parseValue (fuel + 1) (signedDecimal value ++ stop :: rest) =
      some (.number value 0, stop :: rest) := by
  obtain ⟨first, digits, hdigits, hfirst⟩ : ∃ first digits, signedDecimal value = first :: digits ∧
        (first = '-' ∨ first.isDigit = true) := by
    unfold signedDecimal
    split
    · exact ⟨'-', _, rfl, .inl rfl⟩
    · obtain ⟨first, digits, hdigits⟩ := List.exists_cons_of_ne_nil (decimal_ne_nil value.natAbs)
      exact ⟨first, digits, hdigits, .inr (isDigit_of_mem_decimal (hdigits ▸ List.mem_cons_self))⟩
  have hother (other : Char) (hdigit : other.isDigit = false)
      (hminus : other ≠ '-') : first ≠ other := by
    rintro rfl
    rcases hfirst with rfl | htrue
    · exact hminus rfl
    · rw [hdigit] at htrue
      cases htrue
  have hws : isWs first = false := by
    simp [isWs, hother ' ' rfl (by decide), hother '\t' rfl (by decide),
      hother '\n' rfl (by decide), hother '\r' rfl (by decide)]
  have hnumber := parseNumber_decimal value rest hstop hpoint hexponent
  rw [hdigits, List.cons_append] at hnumber ⊢
  rw [parseValue, skipWs_cons hws]
  simp [hother '"' rfl (by decide), hother '[' rfl (by decide),
    hother '\x7b' rfl (by decide), parseScalar,
    (hother 'n' rfl (by decide)).symm, (hother 't' rfl (by decide)).symm,
    (hother 'f' rfl (by decide)).symm, hnumber]

end Numbers

end Lemmas

end GrapheneLtp.Json
