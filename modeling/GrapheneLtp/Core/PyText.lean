import Mathlib.Data.List.Infix
import Mathlib.Tactic

/-!
# Text in Python

The functions on `str` that line-oriented scripts use, over lists of
characters.  What the interpreter takes from its character database, and its
limit on conversions to integers, are fields of a structure: they differ
between versions, and only the decimal digits of ASCII are fixed.
-/

namespace GrapheneLtp.PyText

/-- What depends on the interpreter: the decimal digits of the database with
their values, the characters for which `isdigit` is true, and the longest text
that `int` converts. -/
structure Interpreter where
  decimal : Char → Option ℕ
  digit : Char → Bool
  intMaxStrDigits : Option ℕ
  decimal_ascii : ∀ c : Char, c.isDigit = true →
    decimal c = some (c.toNat - '0'.toNat)
  digit_of_decimal : ∀ c, (decimal c).isSome = true → digit c = true

/-- An interpreter that knows the digits of ASCII. -/
def asciiPython : Interpreter where
  decimal := fun c => if c.isDigit then some (c.toNat - '0'.toNat) else none
  digit := Char.isDigit
  intMaxStrDigits := some 4300
  decimal_ascii := fun c hdigit => if_pos hdigit
  digit_of_decimal := by
    intro c hdecimal
    by_contra hdigit
    simp [hdigit] at hdecimal

/-- `ValueError` or `IndexError`. -/
inductive PyError where
  | valueError
  | indexError
  deriving DecidableEq, Repr

/-- The operator `in`. -/
def isIn (needle text : List Char) : Bool := decide (needle <:+: text)

/-- The boundaries of `splitlines`. -/
def isLineBreak (c : Char) : Bool :=
  c.toNat ∈ [0x0a, 0x0b, 0x0c, 0x0d, 0x1c, 0x1d, 0x1e, 0x85, 0x2028, 0x2029]

/-- White space in the sense of `isspace`. -/
def isSpace (c : Char) : Bool :=
  (0x09 ≤ c.toNat && c.toNat ≤ 0x0d) || (0x1c ≤ c.toNat && c.toNat ≤ 0x20) ||
    (0x2000 ≤ c.toNat && c.toNat ≤ 0x200a) ||
      c.toNat ∈ [0x85, 0xa0, 0x1680, 0x2028, 0x2029, 0x202f, 0x205f, 0x3000]

/-- The line before the first boundary, and the rest if there is a boundary. -/
def splitlinesFrom : List Char → (line : List Char) → List (List Char)
  | [], [] => []
  | [], c :: line => [(c :: line).reverse]
  | '\r' :: '\n' :: rest, line => line.reverse :: splitlinesFrom rest []
  | c :: rest, line =>
    if isLineBreak c then line.reverse :: splitlinesFrom rest []
    else splitlinesFrom rest (c :: line)

def splitlines (text : List Char) : List (List Char) := splitlinesFrom text []

def splitFrom : List Char → (word : List Char) → List (List Char)
  | [], [] => []
  | [], c :: word => [(c :: word).reverse]
  | c :: rest, word =>
    if isSpace c then
      if word = [] then splitFrom rest []
      else word.reverse :: splitFrom rest []
    else splitFrom rest (c :: word)

/-- `split` without a separator: the words between white space. -/
def split (text : List Char) : List (List Char) := splitFrom text []

/-- `split` with a separator: `skip` characters of a separator are still to be
passed over. -/
def splitOnFrom (sep : List Char) : List Char → (skip : ℕ) → (part : List Char) → List (List Char)
  | [], _, part => [part.reverse]
  | _ :: rest, skip + 1, part => splitOnFrom sep rest skip part
  | c :: rest, 0, part =>
    if sep.isPrefixOf (c :: rest) then
      part.reverse :: splitOnFrom sep rest (sep.length - 1) []
    else splitOnFrom sep rest 0 (c :: part)

def splitOn (sep text : List Char) : List (List Char) :=
  splitOnFrom sep text 0 []

section Numbers

variable (py : Interpreter)

/-- `isdigit`. -/
def isdigit (text : List Char) : Bool := text != [] && text.all py.digit

/-- `int` on a text of digits: refused when one of them is not a decimal digit
or there are too many. -/
def int (text : List Char) : Except PyError ℕ :=
  if (py.intMaxStrDigits.any fun limit => text.length > limit) then
    .error .valueError
  else match text.mapM py.decimal with
    | none => .error .valueError
    | some digits => .ok (digits.foldl (fun value digit => 10 * value + digit) 0)

end Numbers

/-- An item of a regular expression: one character of a class, or as many as
possible, at least none or at least one. -/
inductive Item where
  | one (p : Char → Bool)
  | star (p : Char → Bool)
  | plus (p : Char → Bool)

/-- The longest run of the class first, and then shorter ones, until the rest
of the expression matches. -/
def greedy (p : Char → Bool) (rest : List Char → Option (List Char)) :
    List Char → Option (List Char)
  | [] => rest []
  | c :: text =>
    if p c then (greedy p rest text).or (rest (c :: text))
    else rest (c :: text)

/-- A match at the beginning of the text, and what follows it. -/
def matchAt : List Item → List Char → Option (List Char)
  | [], text => some text
  | .one _ :: _, [] => none
  | .one p :: items, c :: text => if p c then matchAt items text else none
  | .star p :: items, text => greedy p (matchAt items) text
  | .plus _ :: _, [] => none
  | .plus p :: items, c :: text =>
    if p c then greedy p (matchAt items) text else none

/-- The matches from the left, each beginning behind the one before: `skip`
characters of a match are still to be passed over. -/
def findallFrom (items : List Item) : List Char → (skip : ℕ) → List (List Char)
  | [], _ => []
  | _ :: text, skip + 1 => findallFrom items text skip
  | c :: text, 0 =>
    match matchAt items (c :: text) with
    | none => findallFrom items text 0
    | some rest =>
      let length := (c :: text).length - rest.length
      (c :: text).take length :: findallFrom items text (length - 1)

/-- `findall` for an expression that matches no empty text. -/
def findall (items : List Item) (text : List Char) : List (List Char) := findallFrom items text 0

def literal (text : List Char) : List Item := text.map fun c => .one fun other => other == c

/-- The class of the dot: everything but a newline. -/
def anyChar (c : Char) : Bool := c != '\n'

/-- The class `\d`. -/
def digitClass (py : Interpreter) (c : Char) : Bool := (py.decimal c).isSome

end GrapheneLtp.PyText
