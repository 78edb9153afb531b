import Mathlib.Tactic
import GrapheneLtp.Metadata.InitializerGrammar
import GrapheneLtp.Metadata.Termination

/-!
# Initializers of `struct tst_test`

`parse_test_struct` reads back an initializer: it adds the keys in order, each
with its value.
-/

namespace GrapheneLtp.Metaparse

open CString DataStorage Traced

section Arrays

variable {rest : List Char} {after lexemes : List Lexeme}
variable {items final : List DataNode}

/-- Reading these tokens fills an array and leaves the tokens after it. -/
def Fills (rest : List Char) (after : List Lexeme) (items : List DataNode)
    (lexemes : List Lexeme) (final : List DataNode) : Prop :=
  ∀ fuel stream, Spelled (Filler.regular true) rest lexemes stream → stream.length < fuel →
      ∃ left, (parseArrayLoop fuel items stream).result = some (0, final, left) ∧
        Spelled (Filler.regular true) rest after left

theorem fills_close (after : List Lexeme) (items : List DataNode) :
    Fills rest after items (.punct '\x7d' :: after) items := by
  intro fuel stream hspelled hfuel
  obtain ⟨fuel, rfl⟩ : ∃ less, fuel = less + 1 :=
    Nat.exists_eq_add_one_of_ne_zero (Nat.ne_zero_of_lt hfuel)
  obtain ⟨_, left, htoken, -, -, hleft⟩ :=
    (reads_punct rfl (by decide) hspelled).nextToken none fun _ => rfl
  refine ⟨left, ?_, hleft⟩
  rw [parseArrayLoop, result_bind, htoken]
  rfl

theorem fills_comma (hnext : Fills rest after items lexemes final) :
    Fills rest after items (.punct ',' :: lexemes) final := by
  intro fuel stream hspelled hfuel
  obtain ⟨fuel, rfl⟩ : ∃ less, fuel = less + 1 :=
    Nat.exists_eq_add_one_of_ne_zero (Nat.ne_zero_of_lt hfuel)
  obtain ⟨_, left, htoken, -, hlength, hleft⟩ :=
    (reads_punct rfl (by decide) hspelled).nextToken none fun _ => rfl
  obtain ⟨last, hlast, hafter⟩ := hnext fuel left hleft (by omega)
  refine ⟨last, ?_, hafter⟩
  rw [parseArrayLoop, result_bind, htoken]
  exact hlast

/-- A token that is not punctuation. -/
theorem fills_scalar {token : List Char} {before : List Lexeme}
    (hbrace : token ≠ ['\x7b']) (hclose : token ≠ ['\x7d'])
    (hcomma : token ≠ [',']) (hroom : items.length < maxElems)
    (hreads : ∀ stream, Spelled (Filler.regular true) rest before stream →
      Reads true tokenBufSize rest [] stream token lexemes)
    (hnext : Fills rest after (items ++
      if token = "NULL".toList then [] else [.string token]) lexemes final) :
    Fills rest after items before final := by
  intro fuel stream hspelled hfuel
  obtain ⟨fuel, rfl⟩ : ∃ less, fuel = less + 1 :=
    Nat.exists_eq_add_one_of_ne_zero (Nat.ne_zero_of_lt hfuel)
  obtain ⟨_, left, htoken, -, hlength, hleft⟩ :=
    (hreads stream hspelled).nextToken none fun _ => rfl
  obtain ⟨last, hlast, hafter⟩ := hnext fuel left hleft (by omega)
  refine ⟨last, ?_, hafter⟩
  rw [parseArrayLoop, result_bind, htoken, Option.bind_some]
  dsimp only
  rw [if_neg hbrace, if_neg hclose, if_neg hcomma]
  split
  · rename_i hnull
    rwa [if_pos hnull, List.append_nil] at hlast
  · rename_i hnull
    rwa [if_neg hnull, ← show (arrayAdd items (.string token)).1 =
      items ++ [.string token] by rw [arrayAdd, if_neg hroom.ne]] at hlast

theorem word_ne_punct {word : List Char} (hword : word.all isWordChar = true)
    {c : Char} (hc : isWordChar c = false) : word ≠ [c] := by
  rintro rfl
  rw [List.all_cons, hc] at hword
  cases hword

theorem literal_ne_punct {text : List Char} (htext : isLiteral text = true)
    {c : Char} (hc : isPunctuation c = true) : text ≠ [c] := by
  rintro rfl
  simp [isLiteral, hc] at htext

theorem isLiteral_iff {text : List Char} (htext : isLiteral text = true) :
    '"' ∉ text ∧ '\\' ∉ text ∧ text.length < tokenBufSize ∧
      text ≠ "NULL".toList := by
  simp only [isLiteral, Bool.and_eq_true, decide_eq_true_iff] at htext
  obtain ⟨⟨⟨hchars, hlength⟩, -⟩, hnull⟩ := htext
  exact ⟨hchars.1, hchars.2.1, by rw [tokenBufSize]; omega, hnull⟩

theorem length_items_le (value : Value) : value.items.length ≤ 1 := by
  cases value with
  | word text =>
    rw [Value.items]
    split <;> simp
  | string text => exact le_rfl
  | list elems trailing =>
    rw [Value.items]
    split <;> simp

/-- A brace list in a brace list. -/
theorem fills_list {inside : List Lexeme} {inner : List DataNode} (hroom : items.length < maxElems)
    (hinside : Fills rest lexemes [] inside inner)
    (hnext : Fills rest after (items ++ if inner.length = 0 then [] else [.array inner]) lexemes
      final) :
    Fills rest after items (.punct '\x7b' :: inside) final := by
  intro fuel stream hspelled hfuel
  obtain ⟨fuel, rfl⟩ : ∃ less, fuel = less + 1 :=
    Nat.exists_eq_add_one_of_ne_zero (Nat.ne_zero_of_lt hfuel)
  obtain ⟨_, left, htoken, -, hlength, hleft⟩ :=
    (reads_punct rfl (by decide) hspelled).nextToken none fun _ => rfl
  obtain ⟨closed, hclosed, hlexemes⟩ := hinside fuel left hleft (by omega)
  have hshorter : closed.length ≤ left.length := (parseArrayLoop_meets [] (by omega)).2 _ hclosed
  obtain ⟨last, hlast, hafter⟩ := hnext fuel closed hlexemes (by omega)
  refine ⟨last, ?_, hafter⟩
  rw [parseArrayLoop, result_bind, htoken, Option.bind_some]
  dsimp only
  rw [if_pos rfl, result_bind, hclosed, Option.bind_some]
  dsimp only
  by_cases hempty : inner.length = 0
  · rw [if_neg (not_not.mpr hempty)]
    rwa [if_pos hempty, List.append_nil] at hlast
  · rw [if_pos hempty, arrayAdd, if_neg hroom.ne]
    rwa [if_neg hempty] at hlast

theorem commaAfter_eq (last trailing : Bool) : commaAfter last trailing = [] ∧ last = true ∨
      commaAfter last trailing = [.punct ','] := by
  cases last <;> cases trailing <;> simp [commaAfter]

mutual

/-- A value in a brace list adds what stays of it. -/
theorem fills_value (value : Value) (hvalid : value.valid = true)
    (hregular : value.regular = true) {c : Char} (hc : isPunct c = true)
    {items final : List DataNode} {after lexemes : List Lexeme}
    (hroom : items.length < maxElems)
    (hnext : Fills rest after (items ++ value.items) (.punct c :: lexemes) final) :
    Fills rest after items (value.lexemes ++ .punct c :: lexemes) final := by
  match value with
  | .word text =>
    obtain ⟨hnil, hword, hlength⟩ := isWordChar_of_regular hvalid hregular
    refine fills_scalar (word_ne_punct hword rfl) (word_ne_punct hword rfl)
      (word_ne_punct hword rfl) hroom ?_ hnext
    exact fun stream => reads_word hnil hword hlength hc
  | .string text =>
    obtain ⟨hquote, hslash, hlength, hnull⟩ := isLiteral_iff hvalid
    have hitems : (Value.string text).items =
        if text = "NULL".toList then [] else [.string text] := by
      rw [if_neg hnull, Value.items]
    rw [hitems] at hnext
    refine fills_scalar (literal_ne_punct hvalid rfl)
      (literal_ne_punct hvalid rfl) (literal_ne_punct hvalid rfl) hroom ?_
      hnext
    exact fun stream => reads_string hquote hslash (of_decide_eq_true hregular) hlength
  | .list elems trailing =>
    rw [Value.valid, Bool.and_eq_true, decide_eq_true_iff] at hvalid
    rw [Value.lexemes, List.cons_append, List.append_assoc]
    apply fills_list hroom _ hnext
    have helems := fills_elems elems trailing hvalid.2 hregular []
      (by simpa using hvalid.1) (.punct c :: lexemes)
    rwa [List.nil_append] at helems
termination_by sizeOf value

theorem fills_elems (elems : List (Option (List Lexeme) × Value))
    (trailing : Bool) (hvalid : elemsValid elems = true)
    (hregular : elemsRegular elems = true) (items : List DataNode)
    (hroom : items.length + elems.length ≤ maxElems) (after : List Lexeme) :
    Fills rest after items (elemsLexemes elems trailing ++ .punct '\x7d' :: after)
      (items ++ elemsItems elems) := by
  match elems with
  | [] =>
    rw [elemsItems, List.append_nil]
    exact fills_close after items
  | (cast, value) :: others =>
    rw [elemsValid, Bool.and_eq_true] at hvalid
    simp only [elemsRegular, Bool.and_eq_true, Option.isNone_iff_eq_none] at hregular
    obtain ⟨⟨rfl, hvalue⟩, hothers⟩ := hregular
    rw [List.length_cons] at hroom
    have hlength := length_items_le value
    have hnext := fills_elems others trailing hvalid.2 hothers (items ++ value.items)
      (by rw [List.length_append]; omega) after
    rw [List.append_assoc] at hnext
    rw [elemsLexemes, castLexemes, List.nil_append, List.append_assoc,
      List.append_assoc, elemsItems]
    rcases commaAfter_eq others.isEmpty trailing with
      ⟨hcomma, hlast⟩ | hcomma
    · rw [hcomma]
      rw [List.isEmpty_iff] at hlast
      subst hlast
      exact fills_value value hvalid.1 hvalue rfl (by omega) hnext
    · rw [hcomma]
      exact fills_value value hvalid.1 hvalue rfl (by omega) (fills_comma hnext)
termination_by sizeOf elems

end

end Arrays

section Casts

variable {size : ℕ} {rest text : List Char} {lexemes : List Lexeme}

/-- What reading inside a cast comes to: a token that is not a parenthesis, and
the rest of the cast, or the closing parenthesis.  Words run together unless a
blank is between them. -/
def ReadsCast (size : ℕ) (rest : List Char) (lexemes : List Lexeme) (buf text : List Char) : Prop :=
  (∃ token body, Reads true size rest buf text token (body ++ .punct ')' :: lexemes) ∧
    token ≠ [')'] ∧ token ≠ ['\x7d'] ∧ body.all isCastLexeme = true ∧
    castLength body < size) ∨
  buf = [] ∧ Reads true size rest buf text [')'] lexemes

/-- A word that ends inside a cast. -/
theorem readsCast_word {buf : List Char} {body : List Lexeme} (hbuf : buf.all isWordChar = true)
    (hbody : body.all isCastLexeme = true) (hsize : castLength body < size)
    (hreads : Reads true size rest buf text (cString buf) (body ++ .punct ')' :: lexemes)) :
    ReadsCast size rest lexemes buf text := by
  rw [cString_of_not_mem (nul_not_mem_word hbuf)] at hreads
  exact .inl ⟨buf, body, hreads, word_ne_punct hbuf rfl, word_ne_punct hbuf rfl, hbody, hsize⟩

/-- The same text after characters that did not end the word. -/
theorem ReadsCast.of_scan {buf longer stream : List Char}
    (hreads : ReadsCast size rest lexemes longer stream)
    (hnil : longer = [] → buf = [])
    (hscan : ∀ doc, scan size buf false doc text = scan size longer false doc stream) :
    ReadsCast size rest lexemes buf text := by
  have hsame {token : List Char} {left : List Lexeme}
      (htoken : Reads true size rest longer stream token left) :
      Reads true size rest buf text token left := by
    intro doc
    rw [hscan]
    exact htoken doc
  rcases hreads with ⟨token, body, htoken, hrest⟩ | ⟨hempty, htoken⟩
  · exact .inl ⟨token, body, hsame htoken, hrest⟩
  · exact .inr ⟨hnil hempty, hsame htoken⟩

theorem readsCast_of_spelled {buf : List Char} {body : List Lexeme}
    (hspelled : Spelled (Filler.regular true) rest (body ++ .punct ')' :: lexemes) text)
    (hbody : body.all isCastLexeme = true) (hbuf : buf.all isWordChar = true)
    (hsize : buf.length + castLength body < size) (hroom : 1 < size) :
    ReadsCast size rest lexemes buf text := by
  generalize hall : body ++ .punct ')' :: lexemes = all at hspelled
  induction hspelled generalizing body buf with
  | done => simp at hall
  | filler filler hregular htext ih =>
    by_cases hends : buf = [] ∨ filler.breaks = false
    · rcases ih hbody hbuf hsize hall with
        ⟨token, left, hreads, hrest⟩ | ⟨hnil, hreads⟩
      · exact .inl ⟨token, left, hreads.filler hregular hends, hrest⟩
      · exact .inr ⟨hnil, hreads.filler hregular hends⟩
    · rw [not_or, Bool.not_eq_false] at hends
      apply readsCast_word hbuf hbody (by omega)
      exact fun doc _ => ⟨doc, _, scan_breakingFiller hregular hends.2
        hends.1 (by omega) doc _, rfl, hall ▸ htext⟩
  | lexeme lexeme htext ih =>
    -- a token of one character ends the word that is in the buffer
    have hword {c : Char} {left : List Lexeme} {text : List Char}
        (hnil : buf ≠ []) (hc : isPunct c = true)
        (hleft : left.all isCastLexeme = true)
        (hlength : buf.length + castLength left < size)
        (htext : Spelled (Filler.regular true) rest (left ++ .punct ')' :: lexemes) (c :: text)) :
        ReadsCast size rest lexemes buf (c :: text) := by
      apply readsCast_word hbuf hleft (by omega)
      exact fun doc _ => ⟨doc, _, scan_wordPunct hnil (by omega) hc _, rfl, htext⟩
    cases body with
    | nil =>
      cases hall
      by_cases hnil : buf = []
      · subst hnil
        exact .inr ⟨rfl, fun doc _ => ⟨doc, _, scan_punct rfl (by decide) hroom _, rfl, htext⟩⟩
      · exact hword hnil rfl hbody hsize (.lexeme (.punct ')') htext)
    | cons first body =>
      cases hall
      have hcast := hbody
      rw [List.all_cons, Bool.and_eq_true] at hcast
      cases lexeme with
      | word word =>
        rw [castLength] at hsize
        have hlonger : (buf ++ word).all isWordChar = true := by
          rw [List.all_append, hbuf, Bool.true_and]
          exact hcast.1
        refine (ih hcast.2 hlonger ?_ rfl).of_scan (fun hnil => (List.append_eq_nil_iff.mp hnil).1)
          fun doc => scan_words hcast.1 (by omega) doc _
        rw [List.length_append]
        omega
      | string text => cases hcast.1
      | punct c =>
        rw [castLength] at hsize
        have hc : c = '*' ∨ isPunct c = true ∧ c ≠ ')' ∧ c ≠ '\x7d' ∧ c ≠ nul := by
          have hkinds : c = '*' ∨ c = '[' ∨ c = ']' := by
            simpa [isCastLexeme] using hcast.1
          rcases hkinds with rfl | rfl | rfl
          · exact .inl rfl
          · exact .inr (by decide)
          · exact .inr (by decide)
        rcases hc with rfl | ⟨hpunct, hparen, hbrace, hnul⟩
        · exact (ih hcast.2 hbuf hsize rfl).of_scan (fun hnil => hnil)
            fun doc => scan_ignored rfl (.inl rfl) _
        by_cases hnil : buf = []
        · subst hnil
          refine .inl ⟨[c], body, fun doc _ => ⟨doc, _,
            scan_punct hpunct hnul hroom _, rfl, htext⟩, ?_, ?_,
            hcast.2, by omega⟩
          · exact fun heq => hparen (List.cons.inj heq).1
          · exact fun heq => hbrace (List.cons.inj heq).1
        · exact hword hnil hpunct hbody hsize (.lexeme (.punct c) htext)

end Casts

section Structs

variable {files : Files} {macros : Macros} {file rest : List Char}
variable {state next : StructState} {id other token : List Char}
variable {node final : List (List Char × DataNode)}
variable {before lexemes : List Lexeme}

/-- From this state `parse_test_struct` reads these tokens to the end of the
initializer and leaves the hash like this. -/
def Accepts (files : Files) (macros : Macros) (file rest : List Char)
    (state : StructState) (id : List Char)
    (node : List (List Char × DataNode)) (lexemes : List Lexeme)
    (final : List (List Char × DataNode)) : Prop :=
  ∀ fuel doc stream, Spelled (Filler.regular true) rest lexemes stream → stream.length < fuel →
      ∃ after, (parseTestStructLoop files macros file fuel state id doc node
        stream).result = some ⟨0, after, final, rest⟩

/-- One token that only changes the state. -/
theorem accepts_of_step (hreads : ∀ stream, Spelled (Filler.regular true) rest before stream →
      Reads true tokenBufSize rest [] stream token lexemes)
    (hstep : ∀ fuel doc after stream left, (nextToken (some doc) stream).result =
          some ⟨some token, some after, left⟩ →
        (parseTestStructLoop files macros file (fuel + 1) state id doc node stream).result =
        (parseTestStructLoop files macros file fuel next other after node
          left).result)
    (hnext : Accepts files macros file rest next other node lexemes final) :
    Accepts files macros file rest state id node before final := by
  intro fuel doc stream hspelled hfuel
  obtain ⟨fuel, rfl⟩ : ∃ less, fuel = less + 1 :=
    Nat.exists_eq_add_one_of_ne_zero (Nat.ne_zero_of_lt hfuel)
  obtain ⟨after, left, htoken, hafter, hlength, hleft⟩ :=
    (hreads stream hspelled).nextToken (some doc) fun _ => rfl
  obtain ⟨after, rfl⟩ := Option.isSome_iff_exists.mp hafter
  rw [hstep fuel doc after stream left htoken]
  exact hnext fuel after left hleft (by omega)

theorem accepts_close : Accepts files macros file rest state id node [.punct '\x7d'] node := by
  intro fuel doc stream hspelled hfuel
  obtain ⟨fuel, rfl⟩ : ∃ less, fuel = less + 1 :=
    Nat.exists_eq_add_one_of_ne_zero (Nat.ne_zero_of_lt hfuel)
  obtain ⟨after, left, htoken, -, -, hleft⟩ :=
    (reads_punct rfl (by decide) hspelled).nextToken (some doc) fun _ => rfl
  cases hleft
  refine ⟨after.getD doc, ?_⟩
  rw [parseTestStructLoop, result_bind, htoken]
  rfl

theorem accepts_id {key : List Char} {c : Char} (hnil : key ≠ [])
    (hkey : key.all isWordChar = true) (hlength : key.length < tokenBufSize)
    (hc : isPunct c = true)
    (hnext : Accepts files macros file rest .equals key node (.punct c :: lexemes) final) :
    Accepts files macros file rest .id id node (.word key :: .punct c :: lexemes) final := by
  apply accepts_of_step (fun stream => reads_word hnil hkey hlength hc) _ hnext
  intro fuel doc after stream left htoken
  rw [parseTestStructLoop, result_bind, htoken, Option.bind_some]
  dsimp only
  rw [if_neg (word_ne_punct hkey rfl)]
  rfl

theorem accepts_equals (hnext : Accepts files macros file rest .value id node lexemes final) :
    Accepts files macros file rest .equals id node (.punct '=' :: lexemes)
      final := by
  apply accepts_of_step (fun stream => reads_punct rfl (by decide)) _ hnext
  intro fuel doc after stream left htoken
  rw [parseTestStructLoop, result_bind, htoken]
  rfl

theorem accepts_comma (hnext : Accepts files macros file rest .id id node lexemes final) :
    Accepts files macros file rest .comma id node (.punct ',' :: lexemes)
      final := by
  apply accepts_of_step (fun stream => reads_punct rfl (by decide)) _ hnext
  intro fuel doc after stream left htoken
  rw [parseTestStructLoop, result_bind, htoken]
  rfl

/-- A cast is skipped. -/
theorem accepts_cast {cast : Option (List Lexeme)} (hcast : regularCast cast = true)
    (hnext : Accepts files macros file rest .value id node lexemes final) :
    Accepts files macros file rest .value id node (castLexemes cast ++ lexemes) final := by
  cases cast with
  | none => exact hnext
  | some body =>
    rw [regularCast, Bool.and_eq_true, decide_eq_true_iff] at hcast
    rw [castLexemes, List.cons_append, List.append_assoc]
    have hinside : Accepts files macros file rest .cast id node
        (body ++ .punct ')' :: lexemes) final := by
      intro fuel doc stream hspelled hfuel
      induction fuel generalizing body doc stream with
      | zero => cases hfuel
      | succ fuel ih =>
        have hlength : ([] : List Char).length + castLength body <
            tokenBufSize := by
          simpa using hcast.2
        rcases readsCast_of_spelled hspelled hcast.1 rfl hlength (by decide) with
          ⟨token, left, hreads, hparen, hbrace, hleft, hshort⟩ |
          ⟨-, hreads⟩
        · obtain ⟨after, stream', htoken, -, hless, hspelled'⟩ :=
            hreads.nextToken (some doc) fun _ => rfl
          obtain ⟨last, hlast⟩ := ih left ⟨hleft, hshort⟩
            (after.getD doc) stream' hspelled' (by omega)
          refine ⟨last, ?_⟩
          rw [parseTestStructLoop, result_bind, htoken, Option.bind_some]
          dsimp only
          rw [if_neg hbrace, if_neg hparen]
          exact hlast
        · obtain ⟨after, stream', htoken, -, hless, hspelled'⟩ :=
            hreads.nextToken (some doc) fun _ => rfl
          obtain ⟨last, hlast⟩ := hnext fuel (after.getD doc) stream' hspelled' (by omega)
          refine ⟨last, ?_⟩
          rw [parseTestStructLoop, result_bind, htoken]
          exact hlast
    apply accepts_of_step (fun stream => reads_punct rfl (by decide)) _ hinside
    intro fuel doc after stream left htoken
    rw [parseTestStructLoop, result_bind, htoken]
    rfl

/-- A value that is not a brace list. -/
theorem accepts_scalar (hclose : token ≠ ['\x7d']) (hparen : token ≠ ['('])
    (hbrace : token ≠ ['\x7b']) (hsize : token ≠ "ARRAY_SIZE".toList)
    (hfind : hsearchFind macros token = none)
    (hroom : node.length < maxElems) {key : List Char}
    (hreads : ∀ stream, Spelled (Filler.regular true) rest before stream →
      Reads true tokenBufSize rest [] stream token lexemes)
    (hnext : Accepts files macros file rest .comma ('.' :: key)
      (node ++ [(key, .string token)]) lexemes final) :
    Accepts files macros file rest .value ('.' :: key) node before final := by
  intro fuel doc stream hspelled hfuel
  obtain ⟨fuel, rfl⟩ : ∃ less, fuel = less + 1 :=
    Nat.exists_eq_add_one_of_ne_zero (Nat.ne_zero_of_lt hfuel)
  obtain ⟨after, left, htoken, -, hlength, hleft⟩ :=
    (hreads stream hspelled).nextToken (some doc) fun _ => rfl
  obtain ⟨last, hlast⟩ := hnext fuel (after.getD doc) left hleft (by omega)
  refine ⟨last, ?_⟩
  rw [parseTestStructLoop, result_bind, htoken, Option.bind_some]
  dsimp only
  rw [if_neg hclose, if_neg hparen, parseValue, if_neg hbrace, if_neg hsize,
    tryApplyMacro, hfind, result_bind, result_pure, Option.bind_some]
  rw [← show (hashAdd node key (.string token)).1 =
    node ++ [(key, .string token)] by rw [hashAdd, if_neg hroom.ne]] at hlast
  exact hlast

/-- The value of an entry. -/
theorem accepts_value {value : Value} (hvalid : value.valid = true)
    (hregular : value.regular = true)
    (hsize : value.scalar ≠ some "ARRAY_SIZE".toList)
    (hmacros : ∀ text, value.scalar = some text → hsearchFind macros text = none)
    (hroom : node.length < maxElems) {key : List Char} {c : Char}
    (hc : isPunct c = true)
    (hnext : Accepts files macros file rest .comma ('.' :: key)
      (node ++ [(key, value.node)]) (.punct c :: lexemes) final) :
    Accepts files macros file rest .value ('.' :: key) node
      (value.lexemes ++ .punct c :: lexemes) final := by
  cases value with
  | word text =>
    obtain ⟨hnil, hword, hlength⟩ := isWordChar_of_regular hvalid hregular
    refine accepts_scalar (word_ne_punct hword rfl)
      (word_ne_punct hword rfl) (word_ne_punct hword rfl)
      (fun heq => hsize (congrArg some heq)) (hmacros text rfl) hroom ?_ hnext
    exact fun stream => reads_word hnil hword hlength hc
  | string text =>
    obtain ⟨hquote, hslash, hlength, -⟩ := isLiteral_iff hvalid
    refine accepts_scalar (literal_ne_punct hvalid rfl)
      (literal_ne_punct hvalid rfl) (literal_ne_punct hvalid rfl)
      (fun heq => hsize (congrArg some heq)) (hmacros text rfl) hroom ?_ hnext
    exact fun stream => reads_string hquote hslash (of_decide_eq_true hregular) hlength
  | list elems trailing =>
    rw [Value.valid, Bool.and_eq_true, decide_eq_true_iff] at hvalid
    have helems : Fills rest (.punct c :: lexemes) [] (elemsLexemes elems trailing ++
          .punct '\x7d' :: .punct c :: lexemes) (elemsItems elems) :=
      fills_elems elems trailing hvalid.2 hregular [] (by simpa using hvalid.1) _
    rw [Value.lexemes, List.cons_append, List.append_assoc]
    intro fuel doc stream hspelled hfuel
    obtain ⟨fuel, rfl⟩ : ∃ less, fuel = less + 1 :=
      Nat.exists_eq_add_one_of_ne_zero (Nat.ne_zero_of_lt hfuel)
    obtain ⟨after, left, htoken, -, hlength, hleft⟩ :=
      (reads_punct rfl (by decide) hspelled).nextToken (some doc) fun _ => rfl
    obtain ⟨closed, hclosed, hafter⟩ := helems (left.length + 1) left hleft (Nat.lt_succ_self _)
    have hshorter : closed.length ≤ left.length := (parseArray_meets left).2 _ hclosed
    obtain ⟨last, hlast⟩ := hnext fuel (after.getD doc) closed hafter (by omega)
    refine ⟨last, ?_⟩
    have hvalue : (parseValue files macros file ['\x7b'] left).result =
        some (0, some (.array (elemsItems elems)), closed) := by
      rw [parseValue, if_pos rfl, result_bind, parseArray, hclosed]
      rfl
    rw [← show (hashAdd node key (.array (elemsItems elems))).1 =
      node ++ [(key, (Value.list elems trailing).node)] by
        rw [hashAdd, if_neg hroom.ne, Value.node]] at hlast
    rw [parseTestStructLoop, result_bind, htoken, Option.bind_some]
    dsimp only
    rw [if_neg (by decide), if_neg (by decide), result_bind, hvalue, Option.bind_some]
    exact hlast

/-- The element of the hash for an entry. -/
def Entry.elem (entry : Entry) : List Char × DataNode := (entry.key, entry.value.node)

/-- One entry, up to the comma or the brace behind it. -/
theorem accepts_entry {entry : Entry} (hvalid : entry.valid = true)
    (hregular : entry.regular = true)
    (hmacros : ∀ text, entry.value.scalar = some text → hsearchFind macros text = none)
    (hroom : node.length < maxElems) {c : Char} (hc : isPunct c = true)
    (hnext : Accepts files macros file rest .comma ('.' :: entry.key)
      (node ++ [entry.elem]) (.punct c :: lexemes) final) :
    Accepts files macros file rest .id id node (entry.lexemes ++ .punct c :: lexemes) final := by
  rw [Entry.valid, Bool.and_eq_true] at hvalid
  simp only [Entry.regular, Bool.and_eq_true, decide_eq_true_iff] at hregular
  obtain ⟨⟨⟨hlength, hcast⟩, hvalue⟩, hsize⟩ := hregular
  have hkey : ('.' :: entry.key).all isWordChar = true := by
    rw [List.all_cons, (isWordChar_of_isIdentifier hvalid.1).2]
    rfl
  rw [Entry.lexemes, List.cons_append, List.cons_append, List.append_assoc]
  apply accepts_id (List.cons_ne_nil _ _) hkey hlength rfl
  apply accepts_equals
  apply accepts_cast hcast
  exact accepts_value hvalid.2 hvalue hsize hmacros hroom hc hnext

theorem accepts_initializer {entries : List Entry} (trailing : Bool)
    (hvalid : ∀ entry ∈ entries, entry.valid = true)
    (hregular : ∀ entry ∈ entries, entry.regular = true)
    (hmacros : ∀ entry ∈ entries, ∀ text,
      entry.value.scalar = some text → hsearchFind macros text = none)
    (hroom : node.length + entries.length ≤ maxElems) :
    Accepts files macros file rest .id id node (initializerLexemes entries trailing)
      (node ++ entries.map Entry.elem) := by
  induction entries generalizing id node with
  | nil =>
    rw [List.map_nil, List.append_nil]
    exact accepts_close
  | cons entry others ih =>
    rw [List.forall_mem_cons] at hvalid hregular hmacros
    rw [List.length_cons] at hroom
    have hothers {id : List Char} : Accepts files macros file rest .id id
        (node ++ [entry.elem]) (initializerLexemes others trailing)
        (node ++ (entry :: others).map Entry.elem) := by
      have hsplit : node ++ (entry :: others).map Entry.elem =
          node ++ [entry.elem] ++ others.map Entry.elem := by
        rw [List.map_cons, List.append_assoc, List.singleton_append]
      rw [hsplit]
      apply ih hvalid.2 hregular.2 hmacros.2
      rw [List.length_append, List.length_singleton]
      omega
    rw [initializerLexemes]
    rcases commaAfter_eq others.isEmpty trailing with
      ⟨hcomma, hlast⟩ | hcomma
    · rw [List.isEmpty_iff] at hlast
      subst hlast
      rw [hcomma]
      exact accepts_entry hvalid.1 hregular.1 hmacros.1 (by omega) rfl accepts_close
    · rw [hcomma]
      exact accepts_entry hvalid.1 hregular.1 hmacros.1 (by omega) rfl (accepts_comma hothers)

end Structs

/-- This spelling of an entry is not read back. -/
def Misread (entry : Entry) (stream : List Char) : Prop := entry.valid = true ∧
    Spelled Filler.valid [] (initializerLexemes [entry] false) stream ∧
      ∀ after, (parseTestStruct ⟨fun _ _ => none, [], []⟩ [] [] [] []
        stream).result ≠ some ⟨0, after, [entry.elem], []⟩

theorem misread_of_output {entry : Entry} {stream : List Char} (hvalid : entry.valid = true)
    (hstream : Spelled Filler.valid [] (initializerLexemes [entry] false) stream)
    (houtput : (parseTestStruct ⟨fun _ _ => none, [], []⟩ [] [] [] []
      stream).result.map (fun result =>
        (result.ret, dataToJson (.hash result.node) 0)) ≠
        some (0, dataToJson (.hash [entry.elem]) 0)) :
    Misread entry stream := by
  refine ⟨hvalid, hstream, fun after hresult => houtput ?_⟩
  rw [hresult]
  rfl

end GrapheneLtp.Metaparse
