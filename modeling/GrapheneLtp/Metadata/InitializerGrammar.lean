import Mathlib.Tactic
import GrapheneLtp.Metadata.Reading

/-!
# The grammar of initializers

Initializers of `struct tst_test` as lists of tokens, the nodes they stand for,
and the initializers that the parser can read as they are written.
-/

namespace GrapheneLtp.Metaparse

open CString DataStorage

section Grammar

/-- A value: an identifier or a number, a string literal, or a brace list with
or without a comma at its end.  Values may have a cast before them, given by the
tokens between its parentheses. -/
inductive Value
  | word (text : List Char)
  | string (text : List Char)
  | list (elems : List (Option (List Lexeme) × Value)) (trailing : Bool)

/-- `.key = value`. -/
structure Entry where
  key : List Char
  cast : Option (List Lexeme)
  value : Value

def castLexemes : Option (List Lexeme) → List Lexeme
  | none => []
  | some body => .punct '(' :: (body ++ [.punct ')'])

/-- The comma after an element. -/
def commaAfter (last trailing : Bool) : List Lexeme :=
  if last && !trailing then [] else [.punct ',']

mutual

def Value.lexemes : Value → List Lexeme
  | .word text => [.word text]
  | .string text => [.string text]
  | .list elems trailing =>
    .punct '\x7b' :: (elemsLexemes elems trailing ++ [.punct '\x7d'])

def elemsLexemes : List (Option (List Lexeme) × Value) → Bool → List Lexeme
  | [], _ => []
  | (cast, value) :: rest, trailing =>
    castLexemes cast ++ (value.lexemes ++
      (commaAfter rest.isEmpty trailing ++ elemsLexemes rest trailing))

end

def Entry.lexemes (entry : Entry) : List Lexeme := .word ('.' :: entry.key) :: .punct '=' ::
    (castLexemes entry.cast ++ entry.value.lexemes)

/-- The tokens of an initializer after its opening brace. -/
def initializerLexemes : List Entry → Bool → List Lexeme
  | [], _ => [.punct '\x7d']
  | entry :: rest, trailing =>
    entry.lexemes ++ (commaAfter rest.isEmpty trailing ++ initializerLexemes rest trailing)

mutual

/-- What stays of an element of a brace list. -/
def Value.items : Value → List DataNode
  | .word text => if text = "NULL".toList then [] else [.string text]
  | .string text => [.string text]
  | .list elems _ =>
    if (elemsItems elems).length = 0 then []
    else [.array (elemsItems elems)]

/-- The elements of a brace list without NULLs and empty sublists. -/
def elemsItems : List (Option (List Lexeme) × Value) → List DataNode
  | [] => []
  | (_, value) :: rest => value.items ++ elemsItems rest

end

/-- The node of the value of an entry. -/
def Value.node : Value → DataNode
  | .word text => .string text
  | .string text => .string text
  | .list elems _ => .array (elemsItems elems)

/-- The text of a value that is not a brace list. -/
def Value.scalar : Value → Option (List Char)
  | .word text => some text
  | .string text => some text
  | .list _ _ => none

end Grammar

section Domain

def isIdentifierChar (c : Char) : Bool := c.isAlphanum || c == '_'

def isIdentifier : List Char → Bool
  | [] => false
  | c :: rest => isIdentifierChar c && !c.isDigit && rest.all isIdentifierChar

/-- The rest of a number after a character: letters, digits, points, and signs
of exponents. -/
def isNumberTail : Char → List Char → Bool
  | _, [] => true
  | before, c :: rest =>
    (isIdentifierChar c || c == '.' ||
      (c == '+' || c == '-') && decide (before ∈ ['e', 'E', 'p', 'P'])) && isNumberTail c rest

/-- A text without its first character if it is of this kind. -/
def stripHead (kind : Char → Bool) : List Char → List Char
  | [] => []
  | c :: rest => if kind c then rest else c :: rest

def startsWithDigit : List Char → Bool
  | [] => false
  | c :: rest => c.isDigit && isNumberTail c rest

/-- A number of C, with or without a sign. -/
def isNumber (text : List Char) : Bool := startsWithDigit (stripHead (fun c => c == '.')
    (stripHead (fun c => c == '-' || c == '+') text))

def isPunctuation (c : Char) : Bool :=
  decide (0x21 ≤ c.toNat ∧ c.toNat ≤ 0x7e) && !c.isAlphanum

/-- A string literal of at most 4000 characters without escapes, which is not a
punctuation character on its own and not NULL. -/
def isLiteral (text : List Char) : Bool :=
  decide ('"' ∉ text ∧ '\\' ∉ text ∧ '\n' ∉ text) &&
    decide (text.length ≤ 4000) &&
    !(decide (text.length = 1) && text.all isPunctuation) &&
    decide (text ≠ "NULL".toList)

mutual

def Value.valid : Value → Bool
  | .word text => isIdentifier text || isNumber text
  | .string text => isLiteral text
  | .list elems _ => decide (elems.length ≤ maxElems) && elemsValid elems

def elemsValid : List (Option (List Lexeme) × Value) → Bool
  | [] => true
  | (_, value) :: rest => value.valid && elemsValid rest

end

def Entry.valid (entry : Entry) : Bool := isIdentifier entry.key && entry.value.valid

/-- A word that `next_token` reads whole: no plus sign, and it fits into the
buffer. -/
def regularWord (text : List Char) : Bool :=
  decide ('+' ∉ text) && decide (text.length < tokenBufSize)

/-- What a cast may have between its parentheses. -/
def isCastLexeme : Lexeme → Bool
  | .word text => text.all isWordChar
  | .string _ => false
  | .punct c => decide (c ∈ ['*', '[', ']'])

/-- The characters of words in a cast. -/
def castLength : List Lexeme → ℕ
  | [] => 0
  | .word text :: rest => text.length + castLength rest
  | .string _ :: rest => castLength rest
  | .punct _ :: rest => castLength rest

def regularCast : Option (List Lexeme) → Bool
  | none => true
  | some body => body.all isCastLexeme &&
      decide (castLength body < tokenBufSize)

mutual

/-- A value that the parser reads as it is written: words are regular, strings
have no NUL, and there are no casts in brace lists. -/
def Value.regular : Value → Bool
  | .word text => regularWord text
  | .string text => decide (nul ∉ text)
  | .list elems _ => elemsRegular elems

def elemsRegular : List (Option (List Lexeme) × Value) → Bool
  | [] => true
  | (cast, value) :: rest =>
    cast.isNone && value.regular && elemsRegular rest

end

/-- An entry that the parser reads as it is written.  `ARRAY_SIZE` is not, not
even as a string literal. -/
def Entry.regular (entry : Entry) : Bool :=
  decide (entry.key.length + 1 < tokenBufSize) && regularCast entry.cast && entry.value.regular &&
    decide (entry.value.scalar ≠ some "ARRAY_SIZE".toList)

end Domain

section Words

theorem isWordChar_of_isIdentifierChar {c : Char}
    (hc : isIdentifierChar c = true) : isWordChar c = true := by
  rw [isIdentifierChar, Bool.or_eq_true, beq_iff_eq] at hc
  simp only [isWordChar, Bool.or_eq_true, beq_iff_eq]
  rcases hc with hc | hc
  · exact .inl (.inl (.inl hc))
  · exact .inl (.inr hc)

theorem isWordChar_of_isIdentifier {text : List Char} (htext : isIdentifier text = true) :
    text ≠ [] ∧ text.all isWordChar = true := by
  cases text with
  | nil => cases htext
  | cons c rest =>
    rw [isIdentifier, Bool.and_eq_true, Bool.and_eq_true] at htext
    refine ⟨List.cons_ne_nil _ _, ?_⟩
    rw [List.all_cons, isWordChar_of_isIdentifierChar htext.1.1, Bool.true_and, List.all_eq_true]
    intro d hd
    exact isWordChar_of_isIdentifierChar (List.all_eq_true.mp htext.2 d hd)

theorem isWordChar_of_isNumberTail {before : Char} {text : List Char}
    (htext : isNumberTail before text = true) (hplus : '+' ∉ text) :
    text.all isWordChar = true := by
  induction text generalizing before with
  | nil => rfl
  | cons c rest ih =>
    rw [List.mem_cons, not_or] at hplus
    simp only [isNumberTail, Bool.and_eq_true, Bool.or_eq_true, beq_iff_eq] at htext
    rw [List.all_cons, ih htext.2 hplus.2, Bool.and_true]
    rcases htext.1 with (hc | rfl) | ⟨hplus' | rfl, -⟩
    · exact isWordChar_of_isIdentifierChar hc
    · rfl
    · exact absurd hplus'.symm hplus.1
    · rfl

theorem isWordChar_of_isDigit {c : Char} (hc : c.isDigit = true) : isWordChar c = true := by
  simp [isWordChar, Char.isAlphanum, hc]

theorem isWordChar_of_startsWithDigit {text : List Char}
    (htext : startsWithDigit text = true) (hplus : '+' ∉ text) :
    text ≠ [] ∧ text.all isWordChar = true := by
  cases text with
  | nil => cases htext
  | cons c rest =>
    rw [startsWithDigit, Bool.and_eq_true] at htext
    refine ⟨List.cons_ne_nil _ _, ?_⟩
    rw [List.all_cons, isWordChar_of_isDigit htext.1, Bool.true_and]
    exact isWordChar_of_isNumberTail htext.2 (hplus ∘ List.mem_cons_of_mem _)

theorem stripHead_subset {kind : Char → Bool} {text : List Char} : stripHead kind text ⊆ text := by
  cases text with
  | nil => exact List.Subset.refl _
  | cons c rest =>
    rw [stripHead]
    split
    · exact List.subset_cons_self _ _
    · exact List.Subset.refl _

theorem isWordChar_of_stripHead {kind : Char → Bool} {text : List Char}
    (hkind : ∀ c, kind c = true → c ≠ '+' → isWordChar c = true)
    (hplus : '+' ∉ text)
    (hstripped : stripHead kind text ≠ [] ∧ (stripHead kind text).all isWordChar = true) :
    text ≠ [] ∧ text.all isWordChar = true := by
  cases text with
  | nil => exact hstripped
  | cons c rest =>
    rw [List.mem_cons, not_or] at hplus
    rw [stripHead] at hstripped
    refine ⟨List.cons_ne_nil _ _, ?_⟩
    split at hstripped
    · rename_i hc
      rw [List.all_cons, hkind c hc (Ne.symm hplus.1), hstripped.2]
      rfl
    · exact hstripped.2

/-- Regular words are made of the characters that `next_token2` stores. -/
theorem isWordChar_of_regular {text : List Char} (hvalid : (Value.word text).valid = true)
    (hregular : (Value.word text).regular = true) :
    text ≠ [] ∧ text.all isWordChar = true ∧ text.length < tokenBufSize := by
  rw [Value.regular, regularWord, Bool.and_eq_true, decide_eq_true_iff,
    decide_eq_true_iff] at hregular
  rw [Value.valid, Bool.or_eq_true] at hvalid
  rw [← and_assoc]
  refine ⟨?_, hregular.2⟩
  rcases hvalid with hidentifier | hnumber
  · exact isWordChar_of_isIdentifier hidentifier
  · have hsign : '+' ∉ stripHead (fun c => c == '-' || c == '+') text :=
      fun hmem => hregular.1 (stripHead_subset hmem)
    apply isWordChar_of_stripHead _ hregular.1
    · apply isWordChar_of_stripHead _ hsign
      · exact isWordChar_of_startsWithDigit hnumber fun hmem => hsign (stripHead_subset hmem)
      · intro c hc _
        rw [beq_iff_eq.mp hc]
        rfl
    · intro c hc hplus
      rw [Bool.or_eq_true, beq_iff_eq, beq_iff_eq] at hc
      rcases hc with rfl | rfl
      · rfl
      · exact absurd rfl hplus

end Words

end GrapheneLtp.Metaparse
