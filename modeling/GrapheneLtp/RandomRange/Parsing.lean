import Mathlib.Tactic
import GrapheneLtp.Core.Fields
import GrapheneLtp.Core.Lines
import GrapheneLtp.Core.Strtol

/-!
# Ranges from a string

`parse_ranges` takes a string of ranges apart, first at its commas and then at
the first two colons of every token.  A field that is no integer ends it with a
message, which is printed into a buffer of fixed size whatever the length of the
field.
-/

namespace GrapheneLtp.RangeParsing

open CString Strtol CheckedInt

section Model

/-- `struct range`. -/
structure Range where
  min : ℤ
  max : ℤ
  mult : ℤ
  deriving DecidableEq, Repr

/-- A parse function: the value that is then stored behind its pointer, and
whether it returned a number that is not negative. -/
abbrev ParseFunc := List Char → ℤ → ℤ × Bool

/-- What `%i` stores in an `int`. -/
def storeInt (value : ℤ) : ℤ := value.bmod (2 ^ 32)

/-- `str_to_int`: the `%c` fails if nothing follows the number. -/
def strToInt : ParseFunc := fun str old =>
  match strtoll scanAnyBase str with
  | none => (old, false)
  | some (value, _, rest) => (storeInt value, rest.isEmpty)

/-- The text before the first `c` and, behind it, the rest. -/
def strchr (c : Char) (text : List Char) : List Char × Option (List Char) :=
  match text.dropWhile (· != c) with
  | [] => (text, none)
  | _ :: rest => (text.takeWhile (· != c), some rest)

/-- A field of zero length retains the value. -/
def parseField (parseFunc : ParseFunc) (field : List Char) (old : ℤ) : ℤ × Bool :=
  if 0 < field.length then parseFunc field old else (old, true)

/-- The size of `errmsg`. -/
def errmsgSize : ℕ := 256

/-- The text that is printed into `errmsg`. -/
def errorText (field : List Char) : List Char :=
  "error parsing string ".toList ++ field ++ " into an integer".toList

/-- What `parse_ranges` ends with.  In each case there are the ranges that were
written to the array, the one of the failing token included. -/
inductive Parsed where
  | parsed (ranges : List Range)
  | failed (written : List Range) (errmsg : List Char)
  | overrun (written : List Range)
  deriving DecidableEq, Repr

/-- The number that is returned, if `errmsg` is not overrun. -/
def Parsed.ret : Parsed → Option ℤ
  | parsed ranges => some ranges.length
  | failed _ _ => some (-1)
  | overrun _ => none

def Parsed.written : Parsed → List Range
  | parsed ranges => ranges
  | failed written _ => written
  | overrun written => written

/-- The end with a message about a field. -/
def fail (written : List Range) (field : List Char) : Parsed :=
  if (errorText field).length < errmsgSize then
    .failed written (errorText field)
  else .overrun written

variable (parseFunc : ParseFunc) (defmin defmax defmult : ℤ)

/-- The body of the loop: the range as it is written, and the field that could
not be parsed. -/
def parseToken (tok : List Char) : Range × Option (List Char) :=
  let n1str := (strchr ':' tok).1
  let n2str := (strchr ':' tok).2.map fun rest => (strchr ':' rest).1
  let multstr := (strchr ':' tok).2.bind fun rest => (strchr ':' rest).2
  let min := parseField parseFunc n1str defmin
  if min.2 = false then (⟨min.1, defmax, defmult⟩, some n1str)
  else
    let max := match n2str with
      | none => (min.1, true)
      | some n2str => parseField parseFunc n2str defmax
    if max.2 = false then (⟨min.1, max.1, defmult⟩, n2str)
    else
      let mult := match multstr with
        | none => (defmult, true)
        | some multstr => parseField parseFunc multstr defmult
      if mult.2 = false then (⟨min.1, max.1, mult.1⟩, multstr)
      else (⟨min.1, max.1, mult.1⟩, none)

/-- The loop over the tokens. -/
def parseTokens : List (List Char) → List Range → Parsed
  | [], ranges => .parsed ranges
  | tok :: toks, ranges =>
    let (range, failing) := parseToken parseFunc defmin defmax defmult tok
    match failing with
    | some field => fail (ranges ++ [range]) field
    | none => parseTokens toks (ranges ++ [range])

/-- `parse_ranges`, with `NULL` for the parse function as `none`. -/
def parseRanges (parseFunc : Option ParseFunc) (str : List Char) : Parsed :=
  parseTokens (parseFunc.getD strToInt) defmin defmax defmult (Fields.strtok (· == ',') str) []

/-- `range_min`. -/
def rangeMin (rbuf : List Range) (r : ℕ) : Option ℤ := rbuf[r]?.map Range.min

/-- `range_max`. -/
def rangeMax (rbuf : List Range) (r : ℕ) : Option ℤ := rbuf[r]?.map Range.max

/-- `range_mult`. -/
def rangeMult (rbuf : List Range) (r : ℕ) : Option ℤ := rbuf[r]?.map Range.mult

end Model

section Numbers

/-- An integer as `%i` takes it: white space and a sign may stand in front of a
decimal, octal or hexadecimal number. -/
def IsInteger (field : List Char) : Prop := ∃ value, Signed AnyBase field value

theorem strToInt_signed {field : List Char} {value : ℤ}
    (hfield : Signed AnyBase field value) (old : ℤ) :
    (strToInt field old).2 = true := by
  have hread := reads_scanAnyBase.readInteger hfield (show EndsNumber [] by simp [EndsNumber])
  rw [List.append_nil] at hread
  simp [strToInt, strtoll, hread]

/-- A value of an `int` is stored as it is. -/
theorem strToInt_fits {field : List Char} {value : ℤ}
    (hfield : Signed AnyBase field value) (hfits : FitsInt value) (old : ℤ) :
    strToInt field old = (value, true) := by
  have hread := reads_scanAnyBase.readInteger hfield (show EndsNumber [] by simp [EndsNumber])
  have hlong : FitsLong value := by
    unfold FitsInt at hfits
    unfold FitsLong
    omega
  have hstored : storeInt value = value := by
    unfold FitsInt at hfits
    exact Int.bmod_eq_of_le (by omega) (by omega)
  rw [List.append_nil] at hread
  simp [strToInt, strtoll, hread, hlong, hstored]

theorem strToInt_ok_iff (field : List Char) (old : ℤ) :
    (strToInt field old).2 = true ↔ IsInteger field := by
  constructor
  · intro hok
    cases hread : readInteger scanAnyBase field with
    | none => simp [strToInt, strtoll, hread] at hok
    | some result =>
      obtain ⟨value, rest⟩ := result
      obtain rfl : rest = [] := by simpa [strToInt, strtoll, hread] using hok
      obtain ⟨number, rfl, hnumber⟩ := reads_scanAnyBase.readInteger_sound hread
      rw [List.append_nil]
      exact ⟨value, hnumber⟩
  · rintro ⟨value, hfield⟩
    exact strToInt_signed hfield old

/-- A separator stands in no integer. -/
theorem not_mem_of_signed {field : List Char} {value : ℤ}
    (hfield : Signed AnyBase field value) {c : Char}
    (hc : c = ',' ∨ c = ':') : c ∉ field := by
  intro hmem
  rcases hfield.char hmem with hspace | hplus | hminus | ⟨body, _, hbody, hdigit⟩
  · rcases hc with rfl | rfl <;> exact absurd hspace (by decide)
  · rcases hc with rfl | rfl <;> exact absurd hplus (by decide)
  · rcases hc with rfl | rfl <;> exact absurd hminus (by decide)
  · rcases hc with rfl | rfl <;> exact absurd (hbody.char hdigit) (by decide)

/-- A field that cannot be parsed. -/
def Bad (field : List Char) : Prop := field ≠ [] ∧ ¬ IsInteger field

theorem parseField_fails_iff (field : List Char) (old : ℤ) :
    (parseField strToInt field old).2 = false ↔ Bad field := by
  rw [parseField, Bad, ← strToInt_ok_iff field old]
  cases field <;> simp

instance (field : List Char) : Decidable (Bad field) :=
  decidable_of_iff _ (parseField_fails_iff field 0)

end Numbers

section Splitting

theorem strchr_absent {c : Char} {text : List Char} (htext : c ∉ text) :
    strchr c text = (text, none) := by
  have hdrop : text.dropWhile (· != c) = [] := by
    rw [List.dropWhile_eq_nil_iff]
    intro other hother
    exact bne_iff_ne.mpr (ne_of_mem_of_not_mem hother htext)
  rw [strchr, hdrop]

theorem strchr_found {c : Char} {front : List Char} (hfront : c ∉ front)
    (rest : List Char) : strchr c (front ++ c :: rest) = (front, some rest) := by
  have hall : ∀ other ∈ front, (other != c) = true := fun other hother =>
    bne_iff_ne.mpr (ne_of_mem_of_not_mem hother hfront)
  rw [strchr, dropWhile_append_stop hall (by simp), takeWhile_append_stop hall (by simp)]

/-- The fields of a text that is split at its first colons, as many as asked
for. -/
def splitFields : ℕ → List Char → List (List Char)
  | 0, text => [text]
  | colons + 1, text =>
    match strchr ':' text with
    | (field, none) => [field]
    | (field, some rest) => field :: splitFields colons rest

/-- The first colon of a text, if it has one. -/
theorem colon_cases (text : List Char) :
    ':' ∉ text ∨ ∃ front rest, text = front ++ ':' :: rest ∧ ':' ∉ front := by
  by_cases hcolon : ':' ∈ text
  · obtain ⟨front, rest, hsplit, hfront⟩ := List.eq_append_cons_of_mem hcolon
    exact .inr ⟨front, rest, hsplit, hfront⟩
  · exact .inl hcolon

theorem bad_of_colon {text : List Char} (hcolon : ':' ∈ text) : Bad text := by
  refine ⟨List.ne_nil_of_mem hcolon, ?_⟩
  rintro ⟨value, htext⟩
  exact not_mem_of_signed htext (.inr rfl) hcolon

/-- Splitting only at the first colons loses no bad field: further colons make
the last field bad. -/
theorem splitFields_bad_iff (colons : ℕ) (text : List Char) :
    (∃ field ∈ splitFields colons text, Bad field) ↔
      colons < text.count ':' ∨ ∃ field ∈ text.splitOn ':', Bad field := by
  induction colons generalizing text with
  | zero =>
    by_cases hcolon : ':' ∈ text
    · have hcount : 0 < text.count ':' := List.count_pos_iff.mpr hcolon
      simp [splitFields, bad_of_colon hcolon, hcount]
    · simp [splitFields, Lines.splitOn_last hcolon, List.count_eq_zero_of_not_mem hcolon]
  | succ colons ih =>
    rcases colon_cases text with htext | ⟨front, rest, rfl, hfront⟩
    · simp [splitFields, strchr_absent htext, Lines.splitOn_last htext,
        List.count_eq_zero_of_not_mem htext]
    · have hcount : (front ++ ':' :: rest).count ':' = rest.count ':' + 1 := by
        simp [List.count_eq_zero_of_not_mem hfront]
      simp only [splitFields, strchr_found hfront, Lines.splitOn_line hfront,
        List.exists_mem_cons_iff, ih, hcount, Nat.add_lt_add_iff_right]
      rw [or_left_comm]

end Splitting

section Tokens

/-- The first of the fields that cannot be parsed. -/
def firstBad (fields : List (List Char)) : Option (List Char) :=
  fields.find? fun field => decide (Bad field)

theorem firstBad_of_fails {field : List Char} {old : ℤ}
    (hfails : (parseField strToInt field old).2 = false)
    (fields : List (List Char)) : firstBad (field :: fields) = some field :=
  List.find?_cons_of_pos (by simpa using (parseField_fails_iff field old).mp hfails)

theorem firstBad_of_parses {field : List Char} {old : ℤ}
    (hparses : ¬ (parseField strToInt field old).2 = false)
    (fields : List (List Char)) : firstBad (field :: fields) = firstBad fields :=
  List.find?_cons_of_neg (by simpa [parseField_fails_iff] using hparses)

variable (defmin defmax defmult : ℤ)

/-- A token fails at its first bad field. -/
theorem parseToken_failing (tok : List Char) : (parseToken strToInt defmin defmax defmult tok).2 =
      firstBad (splitFields 2 tok) := by
  unfold parseToken
  rcases colon_cases tok with htok | ⟨n1str, rest, rfl, hn1str⟩
  · simp only [splitFields, strchr_absent htok, Option.map_none, Option.bind_none]
    by_cases hmin : (parseField strToInt tok defmin).2 = false
    · rw [if_pos hmin, firstBad_of_fails hmin]
    · rw [if_neg hmin, firstBad_of_parses hmin]
      rfl
  · simp only [splitFields, strchr_found hn1str, Option.map_some, Option.bind_some]
    by_cases hmin : (parseField strToInt n1str defmin).2 = false
    · rw [if_pos hmin, firstBad_of_fails hmin]
    rw [if_neg hmin, firstBad_of_parses hmin]
    rcases colon_cases rest with hrest | ⟨n2str, multstr, rfl, hn2str⟩
    · simp only [strchr_absent hrest]
      by_cases hmax : (parseField strToInt rest defmax).2 = false
      · rw [if_pos hmax, firstBad_of_fails hmax]
      · rw [if_neg hmax, firstBad_of_parses hmax]
        rfl
    · simp only [strchr_found hn2str]
      by_cases hmax : (parseField strToInt n2str defmax).2 = false
      · rw [if_pos hmax, firstBad_of_fails hmax]
      rw [if_neg hmax, firstBad_of_parses hmax]
      by_cases hmult : (parseField strToInt multstr defmult).2 = false
      · rw [if_pos hmult, firstBad_of_fails hmult]
      · rw [if_neg hmult, firstBad_of_parses hmult]
        rfl

/-- What the loop has written, and that it ends at the first bad field. -/
theorem parseTokens_cases (toks : List (List Char)) (ranges : List Range) :
    ∃ more : List Range, more.length ≤ toks.length ∧
      parseTokens strToInt defmin defmax defmult toks ranges =
        match firstBad (toks.flatMap (splitFields 2)) with
        | none => .parsed (ranges ++ more)
        | some field => fail (ranges ++ more) field := by
  induction toks generalizing ranges with
  | nil => exact ⟨[], le_rfl, by simp [parseTokens, firstBad]⟩
  | cons tok toks ih =>
    have hfailing := parseToken_failing defmin defmax defmult tok
    rcases hparsed : parseToken strToInt defmin defmax defmult tok with
      ⟨range, failing⟩
    rw [hparsed] at hfailing
    dsimp only at hfailing
    have hfirst : firstBad ((tok :: toks).flatMap (splitFields 2)) =
        failing.or (firstBad (toks.flatMap (splitFields 2))) := by
      rw [hfailing, List.flatMap_cons, firstBad, List.find?_append]
      rfl
    rw [parseTokens, hparsed, hfirst]
    cases failing with
    | some field => exact ⟨[range], by simp, rfl⟩
    | none =>
      obtain ⟨more, hlength, hloop⟩ := ih (ranges ++ [range])
      refine ⟨range :: more, by simpa using hlength, ?_⟩
      rw [Option.none_or]
      simpa using hloop

end Tokens

section Rendering

/-- A number of the type `int` as it is written in a range. -/
structure Numeral where
  text : List Char
  value : ℤ
  reads : Signed AnyBase text value
  fits : FitsInt value

/-- The forms of a range: a number alone, and one or two colons with fields that
may be missing. -/
inductive Token where
  | single (number : Numeral)
  | pair (min max : Option Numeral)
  | triple (min max mult : Option Numeral)

/-- The text of a field. -/
def fieldText : Option Numeral → List Char
  | none => []
  | some number => number.text

/-- The value of a field, with the default for a missing one. -/
def fieldValue (field : Option Numeral) (default : ℤ) : ℤ := (field.map Numeral.value).getD default

def Token.render : Token → List Char
  | single number => number.text
  | pair min max => fieldText min ++ ':' :: fieldText max
  | triple min max mult =>
    fieldText min ++ ':' :: (fieldText max ++ ':' :: fieldText mult)

/-- The ranges of a list, separated by commas. -/
def render (tokens : List Token) : List Char := [','].intercalate (tokens.map Token.render)

variable (defmin defmax defmult : ℤ)

/-- The range that a token stands for. -/
def Token.range : Token → Range
  | single number => ⟨number.value, number.value, defmult⟩
  | pair min max => ⟨fieldValue min defmin, fieldValue max defmax, defmult⟩
  | triple min max mult =>
    ⟨fieldValue min defmin, fieldValue max defmax, fieldValue mult defmult⟩

theorem separator_not_mem_fieldText (field : Option Numeral) {c : Char}
    (hc : c = ',' ∨ c = ':') : c ∉ fieldText field := by
  cases field with
  | none => simp [fieldText]
  | some number => exact not_mem_of_signed number.reads hc

theorem Numeral.text_ne_nil (number : Numeral) : number.text ≠ [] := by
  intro hnil
  have hparses := strToInt_signed number.reads 0
  rw [hnil] at hparses
  exact absurd hparses (by decide)

theorem parseField_fieldText (field : Option Numeral) (default : ℤ) :
    parseField strToInt (fieldText field) default = (fieldValue field default, true) := by
  cases field with
  | none => rfl
  | some number =>
    rw [parseField, fieldText, strToInt_fits number.reads number.fits,
      if_pos (List.length_pos_of_ne_nil number.text_ne_nil)]
    rfl

/-- A rendered token is parsed into its range. -/
theorem parseToken_render (token : Token) : parseToken strToInt defmin defmax defmult token.render =
      (token.range defmin defmax defmult, none) := by
  have hcolon (field : Option Numeral) : ':' ∉ fieldText field :=
    separator_not_mem_fieldText field (.inr rfl)
  unfold parseToken
  cases token with
  | single number =>
    have hmin := parseField_fieldText (some number) defmin
    rw [show (Token.single number).render = fieldText (some number) from rfl,
      strchr_absent (hcolon (some number))]
    simp [hmin, Token.range, fieldValue]
  | pair min max =>
    rw [Token.render, strchr_found (hcolon min)]
    simp [strchr_absent (hcolon max), parseField_fieldText, Token.range]
  | triple min max mult =>
    rw [Token.render, strchr_found (hcolon min)]
    simp [strchr_found (hcolon max), parseField_fieldText, Token.range]

theorem Token.render_ne_nil (token : Token) : token.render ≠ [] := by
  cases token with
  | single number => exact number.text_ne_nil
  | pair min max => simp [Token.render]
  | triple min max mult => simp [Token.render]

theorem Token.comma_not_mem_render (token : Token) : ',' ∉ token.render := by
  have hcomma (field : Option Numeral) : ',' ∉ fieldText field :=
    separator_not_mem_fieldText field (.inl rfl)
  cases token with
  | single number => exact hcomma (some number)
  | pair min max => simp [Token.render, hcomma]
  | triple min max mult => simp [Token.render, hcomma]

/-- The tokens of a rendered list are those it was rendered from. -/
theorem strtok_render (tokens : List Token) :
    Fields.strtok (· == ',') (render tokens) = tokens.map Token.render := by
  induction tokens with
  | nil => rfl
  | cons token tokens ih =>
    have hcomma : ∀ c ∈ token.render, (c == ',') = false := fun _ hc =>
      beq_false_of_ne (ne_of_mem_of_not_mem hc token.comma_not_mem_render)
    cases tokens with
    | nil =>
      simp [render, Fields.strtok, List.splitOnP_eq_singleton hcomma, token.render_ne_nil]
    | cons next tokens =>
      have hsplit : render (token :: next :: tokens) =
          token.render ++ ',' :: render (next :: tokens) := by
        simp [render, List.intercalate]
      rw [hsplit, Fields.strtok_cons (by rfl) token.render_ne_nil hcomma, ih]
      rfl

theorem parseTokens_render (tokens : List Token) (ranges : List Range) :
    parseTokens strToInt defmin defmax defmult (tokens.map Token.render) ranges =
      .parsed (ranges ++ tokens.map (Token.range defmin defmax defmult)) := by
  induction tokens generalizing ranges with
  | nil => simp [parseTokens]
  | cons token tokens ih =>
    rw [List.map_cons, parseTokens, parseToken_render]
    simp [ih]

/-- The ranges of a rendered list are given back. -/
theorem parseRanges_render (tokens : List Token) :
    parseRanges defmin defmax defmult none (render tokens) =
      .parsed (tokens.map (Token.range defmin defmax defmult)) := by
  rw [parseRanges, strtok_render]
  exact parseTokens_render defmin defmax defmult tokens []

end Rendering

section Claim

variable (defmin defmax defmult : ℤ)

/-- Some token has more than two colons or a field that is no integer. -/
def Malformed (str : List Char) : Prop := ∃ tok ∈ str.splitOn ',', 2 < tok.count ':' ∨
    ∃ field ∈ tok.splitOn ':', field ≠ [] ∧ ¬ IsInteger field

/-- What is promised for a string. -/
structure Meets (str : List Char) : Prop where
  /-- The ranges of a list are given back. -/
  roundTrip : ∀ tokens : List Token, tokens ≠ [] → str = render tokens →
    ∃ rbuf, parseRanges defmin defmax defmult none str = .parsed rbuf ∧
      (parseRanges defmin defmax defmult none str).ret = some tokens.length ∧
      ∀ r, (hr : r < tokens.length) →
        let range := (tokens.get ⟨r, hr⟩).range defmin defmax defmult
        rangeMin rbuf r = some range.min ∧ rangeMax rbuf r = some range.max ∧
          rangeMult rbuf r = some range.mult
  /-- The array has room for what is written. -/
  room : (parseRanges defmin defmax defmult none str).written.length ≤
    str.count ',' + 1
  /-- A malformed token is reported. -/
  rejects : Malformed str →
    (parseRanges defmin defmax defmult none str).ret = some (-1)

/-- The fields in the order in which they are parsed; what follows the second
colon of a token is one field. -/
def parsedFields (str : List Char) : List (List Char) :=
  (Fields.strtok (· == ',') str).flatMap (splitFields 2)

/-- The message about the first field that is no integer has room in
`errmsg`. -/
def ErrorFits (str : List Char) : Prop :=
  ∀ before field after, parsedFields str = before ++ field :: after →
    (∀ other ∈ before, other = [] ∨ IsInteger other) →
    field ≠ [] → ¬ IsInteger field → field.length ≤ 218

/-- A string is malformed exactly when one of the fields as they are parsed is
bad. -/
theorem malformed_iff_bad (str : List Char) :
    Malformed str ↔ ∃ field ∈ parsedFields str, Bad field := by
  simp only [Malformed, parsedFields, List.mem_flatMap]
  constructor
  · rintro ⟨tok, htok, hmalformed⟩
    obtain ⟨field, hfield, hbad⟩ := (splitFields_bad_iff 2 tok).mpr hmalformed
    have hne : tok ≠ [] := by
      rintro rfl
      obtain rfl : field = [] := by simpa [splitFields, strchr] using hfield
      exact hbad.1 rfl
    exact ⟨field, ⟨tok, List.mem_filter.mpr ⟨htok, by simpa using hne⟩, hfield⟩, hbad⟩
  · rintro ⟨field, ⟨tok, htok, hfield⟩, hbad⟩
    exact ⟨tok, List.mem_of_mem_filter htok, (splitFields_bad_iff 2 tok).mp ⟨field, hfield, hbad⟩⟩

theorem length_errorText (field : List Char) : (errorText field).length = field.length + 37 := by
  have hfront : "error parsing string ".toList.length = 21 := by decide +kernel
  have hback : " into an integer".toList.length = 16 := by decide +kernel
  unfold errorText
  simp only [List.length_append]
  rw [hfront, hback, Nat.add_comm 21, Nat.add_assoc]

theorem ret_fail (written : List Range) (field : List Char) :
    (fail written field).ret = some (-1) ↔ field.length ≤ 218 := by
  rw [fail, length_errorText, errmsgSize]
  split_ifs with hfits
  · simp only [Parsed.ret, true_iff]
    omega
  · simp only [Parsed.ret, reduceCtorEq, false_iff]
    omega

theorem written_fail (written : List Range) (field : List Char) :
    (fail written field).written = written := by
  rw [fail]
  split_ifs <;> rfl

/-- The array that is allocated has room for every range that is written. -/
theorem written_length_le (str : List Char) :
    (parseRanges defmin defmax defmult none str).written.length ≤ str.count ',' + 1 := by
  obtain ⟨more, hlength, hparsed⟩ := parseTokens_cases defmin defmax defmult
    (Fields.strtok (· == ',') str) []
  have htoks : (Fields.strtok (· == ',') str).length ≤ str.count ',' + 1 :=
    (List.length_filter_le _ _).trans (Lines.length_splitOn ',' str).le
  rw [parseRanges, Option.getD_none, hparsed]
  split
  · exact hlength.trans htoks
  · rw [written_fail]
    exact hlength.trans htoks

/-- With a bad field, -1 is returned exactly if the message about it has
room. -/
theorem ret_of_firstBad {str field : List Char}
    (hfirst : firstBad (parsedFields str) = some field) :
    (parseRanges defmin defmax defmult none str).ret = some (-1) ↔ field.length ≤ 218 := by
  obtain ⟨more, -, hparsed⟩ := parseTokens_cases defmin defmax defmult
    (Fields.strtok (· == ',') str) []
  rw [parsedFields] at hfirst
  rw [parseRanges, Option.getD_none, hparsed, hfirst]
  exact ret_fail _ field

theorem firstBad_eq_some_iff {fields : List (List Char)} {field : List Char} :
    firstBad fields = some field ↔ Bad field ∧ ∃ before after, fields = before ++ field :: after ∧
        ∀ other ∈ before, other = [] ∨ IsInteger other := by
  have hgood (other : List Char) : (!decide (Bad other)) = true ↔ other = [] ∨ IsInteger other := by
    rw [Bool.not_eq_true', decide_eq_false_iff_not, Bad, not_and_or, not_not, not_not]
  rw [firstBad, List.find?_eq_some_iff_append]
  simp only [hgood, decide_eq_true_eq]

/-- The promises are kept for a string exactly when the message about its first
field that is no integer has room in `errmsg`. -/
theorem parseRanges_meets_iff (str : List Char) :
    Meets defmin defmax defmult str ↔ ErrorFits str := by
  constructor
  · intro hmeets before field after hfields hbefore hne hinteger
    have hmalformed : Malformed str := (malformed_iff_bad str).mpr
      ⟨field, by rw [hfields]; simp, hne, hinteger⟩
    have hfirst : firstBad (parsedFields str) = some field :=
      firstBad_eq_some_iff.mpr ⟨⟨hne, hinteger⟩, before, after, hfields, hbefore⟩
    exact (ret_of_firstBad defmin defmax defmult hfirst).mp (hmeets.rejects hmalformed)
  · intro hfits
    refine ⟨?_, written_length_le defmin defmax defmult str, ?_⟩
    · rintro tokens - rfl
      rw [parseRanges_render]
      refine ⟨_, rfl, by simp [Parsed.ret], ?_⟩
      intro r hr
      simp [rangeMin, rangeMax, rangeMult, hr]
    · intro hmalformed
      obtain ⟨bad, hbad, hfails⟩ := (malformed_iff_bad str).mp hmalformed
      obtain ⟨field, hfirst⟩ : ∃ field, firstBad (parsedFields str) = some field := by
        rw [← Option.isSome_iff_exists, firstBad, List.find?_isSome]
        exact ⟨bad, hbad, by simpa using hfails⟩
      obtain ⟨⟨hne, hinteger⟩, before, after, hfields, hbefore⟩ :=
        firstBad_eq_some_iff.mp hfirst
      exact (ret_of_firstBad defmin defmax defmult hfirst).mpr
        (hfits before field after hfields hbefore hne hinteger)

/-- A field of a thousand letters: the message about it is longer than
`errmsg`. -/
theorem parseRanges_long_field : ¬ Meets 0 9 1 (List.replicate 1000 'x') := by
  intro hmeets
  have hfirst : firstBad (parsedFields (List.replicate 1000 'x')) =
      some (List.replicate 1000 'x') := by decide +kernel
  have hbad := (firstBad_eq_some_iff.mp hfirst).1
  have hmem := List.mem_of_find?_eq_some hfirst
  have hret := hmeets.rejects ((malformed_iff_bad _).mpr ⟨_, hmem, hbad⟩)
  have hlength := (ret_of_firstBad 0 9 1 hfirst).mp hret
  rw [List.length_replicate] at hlength
  omega

end Claim

end GrapheneLtp.RangeParsing
