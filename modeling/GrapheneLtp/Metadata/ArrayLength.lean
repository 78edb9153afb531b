import GrapheneLtp.Metadata.InitializerGrammar
import GrapheneLtp.Metadata.Parser
import GrapheneLtp.Metadata.TokenBuffer

/-!
# The length of an array

`parse_get_array_len` counts the commas outside inner braces.  The commas between
the arguments of a call and literals that are a comma are counted too, and an initializer
without elements has as many commas as one with a single element.
-/

namespace GrapheneLtp.Metaparse

open CString DataStorage Traced CheckedInt

/-- An expression of an initializer: an identifier or a number, a string literal, a call,
or a brace list with or without a comma at its end. -/
inductive Expr
  | word (text : List Char)
  | string (text : List Char)
  | call (name : List Char) (args : List Expr)
  | list (elems : List Expr) (trailing : Bool)

mutual

def Expr.lexemes : Expr → List Lexeme
  | .word text => [.word text]
  | .string text => [.string text]
  | .call name args => .word name :: .punct '(' :: (exprsLexemes args false ++ [.punct ')'])
  | .list elems trailing =>
    .punct '\x7b' :: (exprsLexemes elems trailing ++ [.punct '\x7d'])

def exprsLexemes : List Expr → Bool → List Lexeme
  | [], _ => []
  | expr :: rest, trailing =>
    expr.lexemes ++ (commaAfter rest.isEmpty trailing ++ exprsLexemes rest trailing)

end

/-- A word that is read as one token. -/
def isToken (text : List Char) : Bool :=
  decide (text ≠ []) && text.all isWordChar && decide (text.length < tokenBufSize)

/-- What is stored of a literal. -/
def stored (text : List Char) : List Char := text.take (tokenBufSize - 1)

/-- The token of a literal. -/
def literalToken (text : List Char) : List Char := cString (stored text)

/-- A literal that is read to its end, and not taken for a brace: what is stored does not end
with a backslash, and there is no quote in what is not stored. -/
def isReadLiteral (text : List Char) : Bool :=
  isLiteralBody text && decide ((stored text).getLast? ≠ some '\\') &&
    decide ('"' ∉ text.drop (tokenBufSize - 1)) &&
    decide (literalToken text ∉ [['\x7b'], ['\x7d']])

mutual

/-- All tokens of an expression are found where they are written. -/
def Expr.regular : Expr → Bool
  | .word text => isToken text
  | .string text => isReadLiteral text
  | .call name args => isToken name && exprsRegular args
  | .list elems _ => exprsRegular elems

def exprsRegular : List Expr → Bool
  | [] => true
  | expr :: rest => expr.regular && exprsRegular rest

end

mutual

/-- The commas that are read in an expression and are not in braces: those between the
arguments of calls, and literals that are a comma. -/
def Expr.commas : Expr → ℕ
  | .word _ => 0
  | .string text => if literalToken text = [','] then 1 else 0
  | .call _ args => exprsCommas args false
  | .list _ _ => 0

def exprsCommas : List Expr → Bool → ℕ
  | [], _ => 0
  | expr :: rest, trailing =>
    expr.commas + (commaAfter rest.isEmpty trailing).length + exprsCommas rest trailing

end

/-- The expression is a literal that is a comma. -/
def Expr.isComma : Expr → Bool
  | .string text => decide (literalToken text = [','])
  | _ => false

/-- The last token is read as a comma. -/
def endsWithComma (elems : List Expr) (trailing : Bool) : Bool :=
  trailing || elems.getLast?.any Expr.isComma

mutual

/-- How deep the braces are nested. -/
def Expr.nesting : Expr → ℕ
  | .word _ => 0
  | .string _ => 0
  | .call _ args => exprsNesting args
  | .list elems _ => exprsNesting elems + 1

def exprsNesting : List Expr → ℕ
  | [] => 0
  | expr :: rest => max expr.nesting (exprsNesting rest)

end

theorem exprsCommas_eq (elems : List Expr) (trailing : Bool) : exprsCommas elems trailing =
    (elems.map Expr.commas).sum +
      (elems.length - if elems ≠ [] ∧ trailing = true then 0 else 1) := by
  induction elems with
  | nil => rfl
  | cons expr rest ih =>
    rw [exprsCommas, ih]
    cases rest with
    | nil => cases trailing <;> simp [commaAfter]
    | cons second rest => cases trailing <;> simp [commaAfter] <;> omega

/-! ## The loop -/

section Loop

variable {rest : List Char} {before lexemes : List Lexeme} {token : List Char}
  {cnt depth result : ℤ} {prevComma : Bool}

/-- Commas count outside inner braces. -/
def counted (depth : ℤ) (commas : ℕ) : ℤ := if depth = 0 then commas else 0

theorem counted_zero (depth : ℤ) : counted depth 0 = 0 := by
  rw [counted, Nat.cast_zero, ite_self]

theorem counted_add (depth : ℤ) (left right : ℕ) :
    counted depth (left + right) = counted depth left + counted depth right := by
  simp only [counted]
  split <;> simp

theorem counted_nonneg (depth : ℤ) (commas : ℕ) : 0 ≤ counted depth commas := by
  rw [counted]
  split <;> simp

/-- From these counters on, reading these tokens gives this length. -/
def Counts (rest : List Char) (cnt depth : ℤ) (prevComma : Bool) (lexemes : List Lexeme)
    (result : ℤ) : Prop :=
  ∀ fuel stream, Spelled (Filler.regular false) rest lexemes stream → stream.length < fuel →
    (arrayLenLoop fuel cnt depth prevComma stream).result = some result

/-- Before these tokens this one is read. -/
def ReadsFirst (rest : List Char) (before : List Lexeme) (token : List Char)
    (lexemes : List Lexeme) : Prop :=
  ∀ stream, Spelled (Filler.regular false) rest before stream →
    Reads false tokenBufSize rest [] stream token lexemes

theorem readsFirst_punct {c : Char} (hc : isPunct c = true) :
    ReadsFirst rest (.punct c :: lexemes) [c] lexemes :=
  fun _ => reads_punct hc (by decide)

/-- A token of the loop, and what the loop goes on with. -/
theorem counts_of_reads {cntAfter depthAfter : ℤ} {prevAfter : Bool}
    (hreads : ReadsFirst rest before token lexemes)
    (hround : ∀ fuel stream left after,
      (nextToken none stream).result = some ⟨some token, after, left⟩ →
      (arrayLenLoop (fuel + 1) cnt depth prevComma stream).result =
        (arrayLenLoop fuel cntAfter depthAfter prevAfter left).result)
    (hnext : Counts rest cntAfter depthAfter prevAfter lexemes result) :
    Counts rest cnt depth prevComma before result := by
  intro fuel stream hspelled hfuel
  obtain ⟨fuel, rfl⟩ : ∃ less, fuel = less + 1 :=
    Nat.exists_eq_add_one_of_ne_zero (Nat.ne_zero_of_lt hfuel)
  obtain ⟨after, left, htoken, -, hlength, hleft⟩ := (hreads stream hspelled).nextToken none nofun
  rw [hround fuel stream left after htoken]
  exact hnext fuel left hleft (by omega)

/-- A token that is not punctuation. -/
theorem counts_plain (hdepth : 0 ≤ depth) (hplain : token ∉ [['\x7b'], ['\x7d'], [',']])
    (hreads : ReadsFirst rest before token lexemes)
    (hnext : Counts rest cnt depth false lexemes result) :
    Counts rest cnt depth prevComma before result := by
  simp only [List.mem_cons, List.not_mem_nil, or_false, not_or] at hplain
  refine counts_of_reads hreads (fun fuel stream left after htoken => ?_) hnext
  rw [arrayLenLoop, result_bind, htoken]
  simp [hplain, not_lt.mpr hdepth]

theorem counts_open (hdepth : 0 ≤ depth) (hfits : depth + 1 < 2 ^ 31)
    (hnext : Counts rest cnt (depth + 1) false lexemes result) :
    Counts rest cnt depth prevComma (.punct '\x7b' :: lexemes) result := by
  refine counts_of_reads (readsFirst_punct rfl) (fun fuel stream left after htoken => ?_) hnext
  have hint : CheckedInt.toInt (depth + 1) = depth + 1 := toInt_of_fits ⟨by omega, hfits⟩
  rw [arrayLenLoop, result_bind, htoken]
  simp [hint, show ¬depth + 1 < 0 by omega]

theorem counts_close (hdepth : 0 ≤ depth) (hfits : depth + 1 < 2 ^ 31)
    (hnext : Counts rest cnt depth prevComma lexemes result) :
    Counts rest cnt (depth + 1) prevComma (.punct '\x7d' :: lexemes) result := by
  refine counts_of_reads (readsFirst_punct rfl) (fun fuel stream left after htoken => ?_) hnext
  have hint : CheckedInt.toInt depth = depth := toInt_of_fits ⟨by omega, by omega⟩
  rw [arrayLenLoop, result_bind, htoken]
  simp [hint, show ¬depth < 0 by omega]

/-- A comma is counted outside inner braces. -/
theorem counts_comma (hdepth : 0 ≤ depth) (hcnt : 0 ≤ cnt) (hfits : cnt + counted depth 1 < 2 ^ 31)
    (hreads : ReadsFirst rest before [','] lexemes) (hnext : Counts rest
      (cnt + counted depth 1) depth (decide (depth = 0)) lexemes result) :
    Counts rest cnt depth prevComma before result := by
  refine counts_of_reads hreads (fun fuel stream left after htoken => ?_) hnext
  rw [arrayLenLoop, result_bind, htoken]
  by_cases hzero : depth = 0
  · have hint : CheckedInt.toInt (cnt + 1) = cnt + 1 :=
      toInt_of_fits ⟨by omega, by simpa [counted, hzero] using hfits⟩
    simp [hzero, counted, hint]
  · simp [hzero, counted, show ¬depth < 0 by omega]

/-- The brace that ends the initializer. -/
theorem counts_end (hcnt : 0 ≤ cnt) (hfits : cnt + 1 < 2 ^ 31) :
    Counts rest cnt 0 prevComma (.punct '\x7d' :: lexemes) (cnt + if prevComma then 0 else 1) := by
  intro fuel stream hspelled hfuel
  obtain ⟨fuel, rfl⟩ : ∃ less, fuel = less + 1 :=
    Nat.exists_eq_add_one_of_ne_zero (Nat.ne_zero_of_lt hfuel)
  obtain ⟨after, left, htoken, -⟩ := (readsFirst_punct rfl stream hspelled).nextToken none nofun
  have hint : CheckedInt.toInt (-1) = -1 := by decide
  have hsum : CheckedInt.toInt (cnt + if prevComma then 0 else 1) =
      cnt + if prevComma then 0 else 1 :=
    toInt_of_fits ⟨by split <;> omega, by split <;> omega⟩
  rw [arrayLenLoop, result_bind, htoken]
  cases prevComma <;> simpa [hint] using hsum

/-- A literal that is read to its end. -/
theorem reads_literal {text : List Char} (htext : isReadLiteral text = true) :
    ReadsFirst rest (.string text :: lexemes) (literalToken text) lexemes := by
  simp only [isReadLiteral, Bool.and_eq_true, decide_eq_true_iff] at htext
  obtain ⟨⟨⟨hbody, hlast⟩, hquote⟩, -⟩ := htext
  have hlength : (stored text).length < tokenBufSize := by
    rw [stored, List.length_take, tokenBufSize]
    omega
  have hsplit : text = stored text ++ text.drop (tokenBufSize - 1) :=
    (List.take_append_drop _ _).symm
  refine fun stream hspelled => reads_of_lexeme hspelled fun left hleft doc _ => ?_
  refine ⟨doc, left, ?_, rfl, hleft⟩
  have hfull : scan tokenBufSize (stored text) true doc
      (text.drop (tokenBufSize - 1) ++ '"' :: left) =
        scan tokenBufSize (stored text) true doc ('"' :: left) := by
    by_cases hlong : tokenBufSize - 1 ≤ text.length
    · refine scan_full ?_ hquote _
      rw [stored, List.length_take, min_eq_left hlong]
      omega
    · rw [List.drop_eq_nil_of_le (by omega), List.nil_append]
  have htextEq : (Lexeme.string text).text ++ left =
      '"' :: (stored text ++ (text.drop (tokenBufSize - 1) ++ '"' :: left)) := by
    rw [← List.append_assoc, ← hsplit]
    simp [Lexeme.text]
  rw [htextEq, scan_openString, scan_literalBody hbody (by rwa [List.nil_append]) (by simpa),
    List.nil_append, hfull, scan_closing hlast hlength]
  rfl

theorem not_punctuation_of_isToken {text : List Char} (htext : isToken text = true) :
    text ∉ [['\x7b'], ['\x7d'], [',']] := by
  simp only [isToken, Bool.and_eq_true, decide_eq_true_iff] at htext
  simp only [List.mem_cons, List.not_mem_nil, or_false, not_or]
  refine ⟨?_, ?_, ?_⟩
  all_goals
    rintro rfl
    exact absurd htext.1.2 (by decide)

/-- A word before a token of one character. -/
theorem counts_word {text : List Char} {c : Char} (hdepth : 0 ≤ depth)
    (htext : isToken text = true) (hc : isPunct c = true)
    (hnext : Counts rest cnt depth false (.punct c :: lexemes) result) :
    Counts rest cnt depth prevComma (.word text :: .punct c :: lexemes) result := by
  refine counts_plain hdepth (not_punctuation_of_isToken htext) (fun stream hspelled => ?_) hnext
  simp only [isToken, Bool.and_eq_true, decide_eq_true_iff] at htext
  exact reads_word htext.1.1 htext.1.2 htext.2 hc hspelled

/-- A parenthesis. -/
theorem counts_paren {c : Char} (hdepth : 0 ≤ depth) (hc : c = '(' ∨ c = ')')
    (hnext : Counts rest cnt depth false lexemes result) :
    Counts rest cnt depth prevComma (.punct c :: lexemes) result := by
  refine counts_plain hdepth ?_ (readsFirst_punct ?_) hnext
  · rcases hc with rfl | rfl <;> decide
  · rcases hc with rfl | rfl <;> rfl

/-- A literal is counted if it is a comma. -/
theorem counts_literal {text : List Char} (hdepth : 0 ≤ depth) (hcnt : 0 ≤ cnt)
    (htext : isReadLiteral text = true)
    (hfits : cnt + counted depth (Expr.string text).commas < 2 ^ 31)
    (hnext : Counts rest (cnt + counted depth (Expr.string text).commas) depth
      ((Expr.string text).isComma && decide (depth = 0)) lexemes result) :
    Counts rest cnt depth prevComma (.string text :: lexemes) result := by
  have hreads := @reads_literal rest lexemes text htext
  by_cases hcomma : literalToken text = [',']
  · rw [Expr.commas, if_pos hcomma] at hfits hnext
    rw [Expr.isComma, decide_eq_true hcomma, Bool.true_and] at hnext
    exact counts_comma hdepth hcnt hfits (hcomma ▸ hreads) hnext
  · rw [Expr.commas, if_neg hcomma, counted_zero, add_zero, Expr.isComma,
      decide_eq_false hcomma, Bool.false_and] at hnext
    simp only [isReadLiteral, Bool.and_eq_true, decide_eq_true_iff] at htext
    refine counts_plain hdepth ?_ hreads hnext
    have hbraces := htext.2
    simp only [List.mem_cons, List.not_mem_nil, or_false, not_or] at hbraces ⊢
    exact ⟨hbraces.1, hbraces.2, hcomma⟩

end Loop

mutual

/-- An expression adds its commas, outside inner braces. -/
theorem counts_expr (expr : Expr) (hregular : expr.regular = true) {rest : List Char} {c : Char}
    (hc : isPunct c = true) {lexemes : List Lexeme} {cnt depth result : ℤ} {prevComma : Bool}
    (hdepth : 0 ≤ depth) (hcnt : 0 ≤ cnt) (hnesting : depth + expr.nesting < 2 ^ 31)
    (hfits : cnt + counted depth expr.commas < 2 ^ 31)
    (hnext : Counts rest (cnt + counted depth expr.commas) depth
      (expr.isComma && decide (depth = 0)) (.punct c :: lexemes) result) :
    Counts rest cnt depth prevComma (expr.lexemes ++ .punct c :: lexemes) result := by
  match expr with
  | .word text =>
    rw [Expr.commas, counted_zero, add_zero] at hnext
    exact counts_word hdepth hregular hc hnext
  | .string text => exact counts_literal hdepth hcnt hregular hfits hnext
  | .call name args =>
    rw [Expr.regular, Bool.and_eq_true] at hregular
    rw [Expr.lexemes, List.cons_append, List.cons_append, List.append_assoc]
    rw [Expr.nesting] at hnesting
    rw [Expr.commas] at hfits hnext
    refine counts_word hdepth hregular.1 rfl (counts_paren hdepth (.inl rfl) ?_)
    refine counts_exprs args false hregular.2 rfl hdepth hcnt hnesting hfits ?_
    exact counts_paren hdepth (.inr rfl) hnext
  | .list elems trailing =>
    rw [Expr.commas, counted_zero, add_zero] at hnext hfits
    rw [Expr.lexemes, List.cons_append, List.append_assoc]
    rw [Expr.nesting, Nat.cast_add, Nat.cast_one] at hnesting
    have hinside : ¬depth + 1 = 0 := by omega
    refine counts_open hdepth (by omega) (counts_exprs elems trailing hregular rfl (by omega) hcnt
      (by omega) (by simpa [counted, hinside] using hfits) ?_)
    simp only [counted, hinside, if_false, add_zero, decide_false, Bool.and_false, ite_self]
    exact counts_close hdepth (by omega) hnext
termination_by sizeOf expr

theorem counts_exprs (elems : List Expr) (trailing : Bool) (hregular : exprsRegular elems = true)
    {rest : List Char} {c : Char} (hc : isPunct c = true) {lexemes : List Lexeme}
    {cnt depth result : ℤ} {prevComma : Bool} (hdepth : 0 ≤ depth) (hcnt : 0 ≤ cnt)
    (hnesting : depth + exprsNesting elems < 2 ^ 31)
    (hfits : cnt + counted depth (exprsCommas elems trailing) < 2 ^ 31)
    (hnext : Counts rest (cnt + counted depth (exprsCommas elems trailing)) depth
      (if elems = [] then prevComma else endsWithComma elems trailing && decide (depth = 0))
      (.punct c :: lexemes) result) :
    Counts rest cnt depth prevComma (exprsLexemes elems trailing ++ .punct c :: lexemes)
      result := by
  match elems with
  | [] => simpa [exprsLexemes, exprsCommas, counted_zero] using hnext
  | expr :: others =>
    rw [exprsRegular, Bool.and_eq_true] at hregular
    rw [exprsNesting] at hnesting
    rw [exprsLexemes, List.append_assoc, List.append_assoc]
    rw [exprsCommas, counted_add, counted_add, ← add_assoc, ← add_assoc] at hfits hnext
    rw [if_neg (List.cons_ne_nil expr others)] at hnext
    have hfirst := counted_nonneg depth expr.commas
    have hothers := counted_nonneg depth (exprsCommas others trailing)
    by_cases hlast : others.isEmpty = true ∧ trailing = false
    · -- There is no comma after the last expression.
      obtain ⟨hnil, rfl⟩ := hlast
      obtain rfl := List.isEmpty_iff.mp hnil
      have hends : endsWithComma [expr] false = expr.isComma := by simp [endsWithComma]
      simp only [commaAfter, exprsLexemes, exprsCommas, List.isEmpty_nil, Bool.not_false,
        Bool.and_self, if_true, List.length_nil, counted_zero, add_zero,
        List.nil_append, hends] at hnext hfits ⊢
      exact counts_expr expr hregular.1 hc hdepth hcnt (by omega) hfits hnext
    · have hcomma : commaAfter others.isEmpty trailing = [.punct ','] := by
        rw [commaAfter, if_neg (by simpa using hlast)]
      have hone := counted_nonneg depth 1
      rw [hcomma, List.length_singleton] at hnext hfits
      rw [hcomma, List.singleton_append]
      refine counts_expr expr hregular.1 rfl hdepth hcnt (by omega) (by omega)
        (counts_comma hdepth (by omega) (by omega) (readsFirst_punct rfl) ?_)
      refine counts_exprs others trailing hregular.2 hc hdepth (by omega) (by omega) hfits ?_
      have hprev : (if others = [] then decide (depth = 0)
          else endsWithComma others trailing && decide (depth = 0)) =
            (endsWithComma (expr :: others) trailing && decide (depth = 0)) := by
        split
        · rename_i hnil
          have htrailing : trailing = true := by simpa [hnil] using hlast
          rw [endsWithComma, htrailing, Bool.true_or, Bool.true_and]
        · rename_i hsome
          obtain ⟨second, more, rfl⟩ := List.exists_cons_of_ne_nil hsome
          rw [endsWithComma, endsWithComma, List.getLast?_cons_cons]
      rwa [hprev]
termination_by sizeOf elems

end

/-- The result: one more than the number of commas, unless the last token before the closing
brace is one. -/
theorem result_parseGetArrayLen {elems : List Expr} {trailing : Bool}
    (hregular : exprsRegular elems = true) (hcount : exprsCommas elems trailing + 1 < 2 ^ 31)
    (hnesting : exprsNesting elems < 2 ^ 31) {rest stream : List Char} {lexemes : List Lexeme}
    (hspelled : Spelled (Filler.regular false) rest
      ((Expr.list elems trailing).lexemes ++ lexemes) stream) :
    (parseGetArrayLen stream).result = some (exprsCommas elems trailing +
      if elems ≠ [] ∧ endsWithComma elems trailing = true then 0 else 1 : ℤ) := by
  rw [Expr.lexemes, List.cons_append, List.append_assoc] at hspelled
  obtain ⟨_, left, htoken, -, -, hleft⟩ :=
    (readsFirst_punct rfl stream hspelled).nextToken none nofun
  have htotal : (0 : ℤ) + counted 0 (exprsCommas elems trailing) = exprsCommas elems trailing := by
    rw [counted, if_pos rfl, zero_add]
  have hcounts := @counts_exprs elems trailing hregular rest '\x7d' rfl lexemes 0 0 _ false le_rfl
    le_rfl (by omega) (by omega) (counts_end (by omega) (by omega)) _ left hleft
    (Nat.lt_succ_self _)
  rw [parseGetArrayLen, result_bind, htoken, Option.bind_some]
  dsimp only
  rw [if_pos rfl, hcounts, htotal]
  by_cases hnil : elems = []
  · simp [hnil]
  · simp [hnil]

/-- The length of an array is found if and only if the initializer has elements and nothing
in them is read as a comma outside inner braces, apart from a literal at the very end.  It is
then what is stored for the size of the array. -/
theorem parseGetArrayLen_iff {elems : List Expr} {trailing : Bool}
    (hregular : exprsRegular elems = true) (hcount : exprsCommas elems trailing + 1 < 2 ^ 31)
    (hnesting : exprsNesting elems < 2 ^ 31) {rest stream : List Char} {lexemes : List Lexeme}
    (hspelled : Spelled (Filler.regular false) rest
      ((Expr.list elems trailing).lexemes ++ lexemes) stream) :
    ((parseGetArrayLen stream).result = some (elems.length : ℤ) ↔
        elems ≠ [] ∧ (elems.map Expr.commas).sum =
          if trailing = false ∧ elems.getLast?.any Expr.isComma = true then 1 else 0) ∧
      ((parseGetArrayLen stream).result = some (elems.length : ℤ) → ∀ fuel arrId,
        (lookForArraySizeLoop arrId (fuel + 1) arrId ('=' :: stream)).result =
          some (some (.int (Int64.ofInt elems.length)))) := by
  refine ⟨?_, fun hlength fuel arrId => ?_⟩
  · rw [result_parseGetArrayLen hregular hcount hnesting hspelled, Option.some_inj, exprsCommas_eq]
    by_cases hnil : elems = []
    · simp [hnil]
    · have hpos := List.length_pos_iff.mpr hnil
      cases trailing with
      | true =>
        simp only [endsWithComma, hnil, Bool.true_or, ne_eq, not_false_eq_true, true_and, if_true,
          Bool.true_eq_false, false_and, if_false, and_self]
        omega
      | false =>
        simp only [endsWithComma, hnil, Bool.false_or, ne_eq, not_false_eq_true, true_and,
          Bool.false_eq_true, and_false, if_false]
        split <;> omega
  · have hequals : (nextToken2 sizeBufSize none ('=' :: stream)).result =
        some ⟨some ['='], none, stream⟩ :=
      scan_punct rfl (by decide) (by decide) stream
    rw [lookForArraySizeLoop, result_bind, hequals, Option.bind_some]
    dsimp only
    rw [if_pos ⟨rfl, rfl⟩, result_bind, hlength]
    rfl

theorem parseGetArrayLen_iff_calls :
    (parseGetArrayLen "\x7b f(a), \x7bg(b,c),\x7d,\x7d;".toList).result = some 2 := by
  have hspelled : Spelled (Filler.regular false) ";".toList ((Expr.list
      [.call "f".toList [.word "a".toList],
        .list [.call "g".toList [.word "b".toList, .word "c".toList]] true] true).lexemes ++ [])
      "\x7b f(a), \x7bg(b,c),\x7d,\x7d;".toList :=
    .lexeme _ <| .filler (.blank ' ') rfl <| .lexeme _ <| .lexeme _ <| .lexeme _ <|
    .lexeme _ <| .lexeme _ <| .filler (.blank ' ') rfl <| .lexeme _ <| .lexeme _ <|
    .lexeme _ <| .lexeme _ <| .lexeme _ <| .lexeme _ <| .lexeme _ <| .lexeme _ <|
    .lexeme _ <| .lexeme _ <| .lexeme _ .done
  exact (parseGetArrayLen_iff (by decide) (by decide) (by decide) hspelled).1.mpr
    ⟨List.cons_ne_nil _ _, rfl⟩

/-- An initializer without elements counts as one, the arguments of a call count as
elements, and so do a literal that is a comma and the comma after it. -/
theorem parseGetArrayLen_miscounts :
    (parseGetArrayLen "\x7b\x7d".toList).result = some 1 ∧
      (parseGetArrayLen "\x7bf(a,b)\x7d".toList).result = some 2 ∧
      (parseGetArrayLen "\x7b\",\",a\x7d".toList).result = some 3 := by
  refine ⟨by decide +kernel, by decide +kernel, by decide +kernel⟩

end GrapheneLtp.Metaparse
