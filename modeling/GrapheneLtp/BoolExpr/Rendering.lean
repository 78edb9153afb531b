import Mathlib.Tactic
import GrapheneLtp.BoolExpr.Tokens

/-!
# Renderings of token lists

A list of operators and words can be written down with any blanks around the
tokens.  The tokenizer gives the list back.  A word may contain operators and
blanks inside double quotes.
-/

namespace GrapheneLtp.Tokens

section Renderings

def operatorChars : List Char := ['(', ')', '!', '&', '|']

def blankChars : List Char := ['\t', ' ']

/-- Text in which every operator and blank is inside balanced quotes. -/
inductive WordText : List Char → Prop
  | nil : WordText []
  | plain (c : Char) (rest : List Char) (hoperator : c ∉ operatorChars)
      (hblank : c ∉ blankChars) (hquote : c ≠ '"') (hrest : WordText rest) :
      WordText (c :: rest)
  | quoted (body rest : List Char) (hbody : '"' ∉ body)
      (hrest : WordText rest) : WordText ('"' :: (body ++ '"' :: rest))

/-- A token of an expression. -/
inductive Lexeme where
  | operator (c : Char) (hoperator : c ∈ operatorChars)
  | word (text : List Char) (hnonempty : text ≠ []) (hword : WordText text)

def Lexeme.text : Lexeme → List Char
  | .operator c _ => [c]
  | .word text _ _ => text

def Lexeme.isWord : Lexeme → Bool
  | .operator _ _ => false
  | .word _ _ _ => true

/-- A way to write down a list of tokens: the blanks before each of them, and
those behind the last one.  Two words in a row have a blank between them. -/
structure Rendering where
  items : List (List Char × Lexeme)
  trailing : List Char
  blank_items : ∀ item ∈ items, ∀ c ∈ item.1, c ∈ blankChars
  blank_trailing : ∀ c ∈ trailing, c ∈ blankChars
  separated : items.IsChain fun left right =>
    left.2.isWord = true → right.2.isWord = true → right.1 ≠ []

def renderItems : List (List Char × Lexeme) → List Char → List Char
  | [], trailing => trailing
  | (gap, lexeme) :: items, trailing =>
    gap ++ (lexeme.text ++ renderItems items trailing)

def Rendering.text (rendering : Rendering) : List Char :=
  renderItems rendering.items rendering.trailing

end Renderings

section Pieces

def flush (pending : List Char) : List (List Char) :=
  if pending = [] then [] else [pending]

/-- The texts of the tokens, without their positions.  `pending` is the part of
the current word that has been passed over. -/
def pieces : (pending : List Char) → (quoted : Bool) → List Char → List (List Char)
  | pending, _, [] => flush pending
  | pending, true, c :: rest => pieces (pending ++ [c]) (c != '"') rest
  | pending, false, c :: rest =>
    if c ∈ operatorChars then flush pending ++ [c] :: pieces [] false rest
    else if c ∈ blankChars then flush pending ++ pieces [] false rest
    else pieces (pending ++ [c]) (c == '"') rest

/-- The type and the text of a token with the given text. -/
def described (text : List Char) : TstOp × List Char := (charToOp (text.headD '\x00'), text)

def TstExprTok.describe (expr : List Char) (token : TstExprTok) : TstOp × List Char :=
  (token.op, token.text expr)

/-- The token for the characters `text` at offset `front.length`. -/
theorem newTok_describe {expr front text rest : List Char}
    (hexpr : expr = front ++ (text ++ rest)) (written : List TstExprTok) :
    ∃ added cnt, newTok expr (some written) front.length text.length =
        (cnt, some (written ++ added)) ∧
      added.map (TstExprTok.describe expr) = (flush text).map described := by
  cases text with
  | nil => exact ⟨[], 0, by simp [newTok], rfl⟩
  | cons c text =>
    refine ⟨[⟨charToOp (expr.getD front.length '\x00'), front.length,
      (c :: text).length, none⟩], 1, by simp [newTok], ?_⟩
    subst hexpr
    simp [TstExprTok.describe, TstExprTok.text, flush, described]

/-- The loop gives the pieces of what is left, for any part of a word that is
pending. -/
theorem tokenizeLoop_pieces {expr rest : List Char} :
    ∀ {front pending : List Char} {quoted : Bool} {tokenCnt : BitVec 32}
      {written : List TstExprTok}, expr = front ++ (pending ++ rest) →
      ∃ added cnt, tokenizeLoop expr rest (front.length + pending.length)
          front.length quoted tokenCnt (some written) = (cnt, some (written ++ added)) ∧
        added.map (TstExprTok.describe expr) = (pieces pending quoted rest).map described := by
  induction rest with
  | nil =>
    intro front pending quoted tokenCnt written hexpr
    obtain ⟨added, cnt, hnew, hadded⟩ := newTok_describe hexpr written
    refine ⟨added, tokenCnt + cnt, ?_, ?_⟩
    · simp only [tokenizeLoop, Nat.add_sub_cancel_left, hnew]
    · cases quoted <;> exact hadded
  | cons c rest ih =>
    intro front pending quoted tokenCnt written hexpr
    have hlonger : expr = front ++ ((pending ++ [c]) ++ rest) := by
      simp [hexpr]
    have hbehind : expr = (front ++ pending ++ [c]) ++ ([] ++ rest) := by
      simp [hexpr]
    have hnext {quoted : Bool} {tokenCnt : BitVec 32} {written : List TstExprTok} :=
      @ih _ _ quoted tokenCnt written hlonger
    have hfresh {tokenCnt : BitVec 32} {written : List TstExprTok} :=
      @ih _ _ false tokenCnt written hbehind
    rw [List.length_append, List.length_singleton, ← Nat.add_assoc] at hnext
    simp only [List.length_append, List.length_singleton, List.length_nil, Nat.add_zero] at hfresh
    cases quoted with
    | true => exact hnext
    | false =>
      obtain ⟨before, cnt, hnew, hbefore⟩ := newTok_describe hexpr written
      simp only [tokenizeLoop, Nat.add_sub_cancel_left, hnew]
      split
      · rename_i hoperator
        change c ∈ operatorChars at hoperator
        obtain ⟨single, one, hsingle, hadded⟩ := @newTok_describe expr
          (front ++ pending) [c] rest (by simp [hexpr]) (written ++ before)
        rw [List.length_append, List.length_singleton] at hsingle
        simp only [hsingle]
        obtain ⟨later, total, hloop, hlater⟩ := @hfresh
          (tokenCnt + cnt + one) (written ++ before ++ single)
        refine ⟨before ++ single ++ later, total, ?_, ?_⟩
        · rw [hloop, List.append_assoc, List.append_assoc, List.append_assoc]
        · rw [List.map_append, List.map_append, hbefore, hadded, hlater, pieces, if_pos hoperator]
          simp [flush]
      · rename_i hoperator
        change c ∉ operatorChars at hoperator
        split
        · rename_i hblank
          change c ∈ blankChars at hblank
          obtain ⟨later, total, hloop, hlater⟩ := @hfresh (tokenCnt + cnt) (written ++ before)
          refine ⟨before ++ later, total, ?_, ?_⟩
          · rw [hloop, List.append_assoc]
          · rw [List.map_append, hbefore, hlater, pieces,
              if_neg hoperator, if_pos hblank, List.map_append]
        · rename_i hblank
          change c ∉ blankChars at hblank
          rw [pieces, if_neg hoperator, if_neg hblank]
          exact hnext

theorem tokens_pieces (expr : List Char) : (tokens expr).map (TstExprTok.describe expr) =
      (pieces [] false expr).map described := by
  obtain ⟨added, cnt, hloop, hadded⟩ := @tokenizeLoop_pieces expr expr [] [] false 0 [] rfl
  rw [List.length_nil, Nat.zero_add, List.nil_append] at hloop
  rw [tokens, tokenize, hloop]
  exact hadded

end Pieces

section RoundTrip

variable {pending rest : List Char}

/-- Blanks before a token are passed over. -/
theorem pieces_blank {gap : List Char} (hgap : ∀ c ∈ gap, c ∈ blankChars) :
    pieces [] false (gap ++ rest) = pieces [] false rest := by
  induction gap with
  | nil => rfl
  | cons c gap ih =>
    have hblank : c ∈ blankChars := hgap c List.mem_cons_self
    have hoperator : c ∉ operatorChars := by
      intro hmem
      simp only [operatorChars, blankChars, List.mem_cons, List.not_mem_nil,
        or_false] at hmem hblank
      rcases hblank with rfl | rfl <;> simp at hmem
    rw [List.cons_append, pieces, if_neg hoperator, if_pos hblank,
      ih fun other hother => hgap other (List.mem_cons_of_mem c hother)]
    rfl

/-- The inner loop stops behind the closing quote. -/
theorem pieces_quoted {body : List Char} (hbody : '"' ∉ body) :
    pieces pending true (body ++ '"' :: rest) =
      pieces (pending ++ (body ++ ['"'])) false rest := by
  induction body generalizing pending with
  | nil => rfl
  | cons c body ih =>
    rw [List.mem_cons, not_or] at hbody
    have hopen : (c != '"') = true := bne_iff_ne.mpr (Ne.symm hbody.1)
    rw [List.cons_append, pieces, hopen, ih hbody.2, List.append_assoc]
    rfl

/-- A word is passed over as a whole. -/
theorem pieces_word {text : List Char} (hword : WordText text) :
    pieces pending false (text ++ rest) = pieces (pending ++ text) false rest := by
  induction hword generalizing pending with
  | nil => rw [List.nil_append, List.append_nil]
  | plain c text hoperator hblank hquote _ ih =>
    have hplain : (c == '"') = false := beq_eq_false_iff_ne.mpr hquote
    rw [List.cons_append, pieces, if_neg hoperator, if_neg hblank, hplain, ih,
      List.append_assoc, List.singleton_append]
  | quoted body text hbody _ ih =>
    have hopen : pieces pending false
        ('"' :: (body ++ '"' :: text) ++ rest) =
          pieces (pending ++ ['"']) true (body ++ '"' :: (text ++ rest)) := by
      rw [List.cons_append, List.append_assoc, List.cons_append]
      rfl
    rw [hopen, pieces_quoted hbody, ih]
    simp only [List.append_assoc, List.cons_append, List.nil_append]

/-- A word ends where the text does, and at an operator or a blank. -/
theorem pieces_flush (hrest : ∀ c ∈ rest.head?, c ∈ operatorChars ∨ c ∈ blankChars) :
    pieces pending false rest = flush pending ++ pieces [] false rest := by
  cases rest with
  | nil => simp [pieces, flush]
  | cons c rest =>
    by_cases hoperator : c ∈ operatorChars
    · rw [pieces, pieces, if_pos hoperator, if_pos hoperator]
      rfl
    · have hblank : c ∈ blankChars := (hrest c rfl).resolve_left hoperator
      rw [pieces, pieces, if_neg hoperator, if_neg hoperator, if_pos hblank,
        if_pos hblank]
      rfl

/-- What follows a word starts with an operator or a blank. -/
theorem head_renderItems {items : List (List Char × Lexeme)}
    {trailing gap text : List Char} {hnonempty : text ≠ []}
    {hword : WordText text}
    (hitems : ∀ item ∈ items, ∀ c ∈ item.1, c ∈ blankChars)
    (htrailing : ∀ c ∈ trailing, c ∈ blankChars)
    (hseparated : ((gap, Lexeme.word text hnonempty hword) :: items).IsChain fun left right =>
        left.2.isWord = true → right.2.isWord = true → right.1 ≠ []) :
    ∀ c ∈ (renderItems items trailing).head?, c ∈ operatorChars ∨ c ∈ blankChars := by
  intro c hc
  cases items with
  | nil => exact .inr (htrailing c (List.mem_of_mem_head? hc))
  | cons item items =>
    obtain ⟨between, lexeme⟩ := item
    cases between with
    | cons first between =>
      obtain rfl : first = c := Option.some.inj hc
      exact .inr (hitems _ List.mem_cons_self first List.mem_cons_self)
    | nil =>
      cases lexeme with
      | operator first hoperator =>
        obtain rfl : first = c := Option.some.inj hc
        exact .inl hoperator
      | word _ _ _ =>
        rw [List.isChain_cons_cons] at hseparated
        exact absurd rfl (hseparated.1 rfl rfl)

theorem pieces_renderItems {items : List (List Char × Lexeme)} {trailing : List Char}
    (hitems : ∀ item ∈ items, ∀ c ∈ item.1, c ∈ blankChars)
    (htrailing : ∀ c ∈ trailing, c ∈ blankChars)
    (hseparated : items.IsChain fun left right =>
      left.2.isWord = true → right.2.isWord = true → right.1 ≠ []) :
    pieces [] false (renderItems items trailing) = items.map fun item => item.2.text := by
  induction items with
  | nil =>
    have hblank := @pieces_blank [] trailing htrailing
    rw [List.append_nil] at hblank
    exact hblank
  | cons item items ih =>
    obtain ⟨gap, lexeme⟩ := item
    have hlater := fun other hother =>
      hitems other (List.mem_cons_of_mem (gap, lexeme) hother)
    have hrest := ih hlater hseparated.tail
    rw [renderItems, pieces_blank (hitems _ List.mem_cons_self)]
    cases lexeme with
    | operator c hoperator =>
      rw [Lexeme.text, List.singleton_append, pieces, if_pos hoperator, hrest]
      rfl
    | word text hnonempty hword =>
      rw [Lexeme.text, pieces_word hword, List.nil_append,
        pieces_flush (head_renderItems hlater htrailing hseparated), hrest,
        flush, if_neg hnonempty]
      rfl

/-- The first character of a word is no operator. -/
theorem charToOp_word {c : Char} (hoperator : c ∉ operatorChars) : charToOp c = .var := by
  simp only [operatorChars, List.mem_cons, List.not_mem_nil, or_false, not_or] at hoperator
  obtain ⟨hlpar, hrpar, hnot, hand, hor⟩ := hoperator
  unfold charToOp
  split <;> first | contradiction | rfl

theorem described_lexeme (lexeme : Lexeme) :
    (described lexeme.text).1 = .var ↔ lexeme.isWord = true := by
  cases lexeme with
  | operator c hoperator =>
    simp only [operatorChars, List.mem_cons, List.not_mem_nil, or_false] at hoperator
    rcases hoperator with rfl | rfl | rfl | rfl | rfl <;>
      simp [described, Lexeme.text, Lexeme.isWord, charToOp]
  | word text hnonempty hword =>
    have hvar : (described text).1 = .var := by
      cases hword with
      | nil => exact absurd rfl hnonempty
      | plain c rest hoperator => exact charToOp_word hoperator
      | quoted body rest => rfl
    simp only [Lexeme.text, Lexeme.isWord, hvar]

/-- Every rendering is split into the tokens it renders, the words among them
are the variables, and the counting pass returns the number of entries of the filling pass
for the strings of fewer than 2^32 tokens. -/
theorem tokens_rendering (rendering : Rendering) :
    (tokens rendering.text).map (TstExprTok.text rendering.text) =
        rendering.items.map (fun item => item.2.text) ∧
      (tokens rendering.text).map (fun token => decide (token.op = .var)) =
        rendering.items.map (fun item => item.2.isWord) ∧
      ∀ expr, (tokenize expr none).1.toNat = (tokens expr).length ↔
        (tokens expr).length < 2 ^ 32 := by
  have hpieces := tokens_pieces rendering.text
  rw [Rendering.text, pieces_renderItems rendering.blank_items
    rendering.blank_trailing rendering.separated, ← Rendering.text,
    List.map_map] at hpieces
  refine ⟨?_, ?_, fun expr => ?_⟩
  · have htexts := congrArg (List.map Prod.snd) hpieces
    rw [List.map_map, List.map_map] at htexts
    exact htexts
  · have hops := congrArg (List.map fun pair : TstOp × List Char => decide (pair.1 = .var)) hpieces
    rw [List.map_map, List.map_map] at hops
    refine hops.trans (List.map_congr_left fun item _ => ?_)
    rw [Bool.eq_iff_iff, ← described_lexeme item.2]
    exact decide_eq_true_iff
  · rw [tokenize_count, BitVec.toNat_ofNat]
    exact Nat.mod_eq_iff_lt (by decide)

theorem pieces_replicate (count : ℕ) :
    pieces [] false (List.replicate count '(') = List.replicate count ['('] := by
  induction count with
  | zero => rfl
  | succ count ih =>
    rw [List.replicate_succ, pieces, if_pos (by decide), ih, List.replicate_succ]
    rfl

/-- A string of 2^32 parentheses has that many tokens, and the counting pass returns 0. -/
theorem tokens_rendering_parentheses :
    (tokenize (List.replicate (2 ^ 32) '(') none).1.toNat = 0 ∧
      (tokens (List.replicate (2 ^ 32) '(')).length = 2 ^ 32 := by
  have hpieces := congrArg List.length (tokens_pieces (List.replicate (2 ^ 32) '('))
  rw [pieces_replicate, List.length_map, List.length_map, List.length_replicate] at hpieces
  rw [tokenize_count, BitVec.toNat_ofNat, hpieces]
  exact ⟨rfl, rfl⟩

end RoundTrip

end GrapheneLtp.Tokens
