import GrapheneLtp.Core.OperatorGrammar

/-!
# Tokens of the boolean expression parser

`tst_bool_expr.c` cuts a C string into tokens that point back into it.  A
pointer into the string is its offset here, and a pointer to a token is the
position of the token in `buf`.  A C string is the list of its characters
before the terminating NUL.
-/

namespace GrapheneLtp.Tokens

open GrapheneLtp.OperatorGrammar

inductive TstOp where
  | not
  | and
  | or
  | var
  | lpar
  | rpar
  deriving DecidableEq, Repr, Inhabited

/-- What the untyped `priv` pointer of a token points to: an error text of the
parser, or the entry of the kernel config variable table. -/
inductive Priv where
  | err (text : String)
  | var (index : ℕ)
  deriving DecidableEq, Repr

structure TstExprTok where
  op : TstOp
  tok : ℕ
  tokLen : ℕ
  priv : Option Priv
  deriving DecidableEq, Repr, Inhabited

/-- Characters of the token inside the string it was cut from. -/
def TstExprTok.text (expr : List Char) (token : TstExprTok) : List Char :=
  (expr.drop token.tok).take token.tokLen

def charToOp : Char → TstOp
  | '(' => .lpar
  | ')' => .rpar
  | '&' => .and
  | '|' => .or
  | '!' => .not
  | _ => .var

/-- `last` is the write position of the caller's array; the counting pass
gives a null pointer.  The array written so far stands for the pointer. -/
def newTok (expr : List Char) (last : Option (List TstExprTok))
    (tok tokLen : ℕ) : BitVec 32 × Option (List TstExprTok) :=
  if tokLen = 0 then (0, last)
  else match last with
    | none => (1, none)
    | some written =>
      (1, some (written ++ [⟨charToOp (expr.getD tok '\x00'), tok, tokLen, none⟩]))

/-- The loop of `tokenize` at offset `i`, with the unread characters.  The
inner loop over a quoted string is the `quoted` flag. -/
def tokenizeLoop (expr : List Char) : List Char → (i j : ℕ) → (quoted : Bool) →
      (tokenCnt : BitVec 32) → Option (List TstExprTok) → BitVec 32 × Option (List TstExprTok)
  | [], i, j, _, tokenCnt, last =>
    let (added, last) := newTok expr last j (i - j)
    (tokenCnt + added, last)
  | c :: rest, i, j, true, tokenCnt, last =>
    tokenizeLoop expr rest (i + 1) j (c != '"') tokenCnt last
  | c :: rest, i, j, false, tokenCnt, last =>
    if c ∈ ['(', ')', '!', '&', '|'] then
      let (before, last) := newTok expr last j (i - j)
      let (single, last) := newTok expr last i 1
      tokenizeLoop expr rest (i + 1) (i + 1) false (tokenCnt + before + single) last
    else if c ∈ ['\t', ' '] then
      let (before, last) := newTok expr last j (i - j)
      tokenizeLoop expr rest (i + 1) (i + 1) false (tokenCnt + before) last
    else
      tokenizeLoop expr rest (i + 1) j (c == '"') tokenCnt last

def tokenize (expr : List Char) (last : Option (List TstExprTok)) :
    BitVec 32 × Option (List TstExprTok) :=
  tokenizeLoop expr expr 0 0 false 0 last

/-- The token array after the filling pass. -/
def tokens (expr : List Char) : List TstExprTok := (tokenize expr (some [])).2.getD []

/-- Both passes take the same branches, so the counting pass returns the
number of tokens the filling pass appends, as far as an `unsigned int` holds it. -/
theorem tokenizeLoop_count (expr rest : List Char) (i j : ℕ) (quoted : Bool)
    (tokenCnt : BitVec 32) (written : List TstExprTok) :
    ∃ added, (tokenizeLoop expr rest i j quoted tokenCnt none).1 =
        tokenCnt + BitVec.ofNat 32 added.length ∧
      tokenizeLoop expr rest i j quoted tokenCnt (some written) =
        (tokenCnt + BitVec.ofNat 32 added.length, some (written ++ added)) := by
  have hnew : ∀ (written : List TstExprTok) (tok tokLen : ℕ), ∃ added,
      newTok expr none tok tokLen = (BitVec.ofNat 32 added.length, none) ∧
        newTok expr (some written) tok tokLen =
          (BitVec.ofNat 32 added.length, some (written ++ added)) := by
    intro written tok tokLen
    by_cases hlen : tokLen = 0
    · exact ⟨[], by simp [newTok, hlen]⟩
    · exact ⟨[_], by simp [newTok, hlen], by simp [newTok, hlen]; rfl⟩
  induction rest generalizing i j quoted tokenCnt written with
  | nil =>
    obtain ⟨added, hnone, hsome⟩ := hnew written j (i - j)
    exact ⟨added, by simp [tokenizeLoop, hnone],
      by simp [tokenizeLoop, hsome]⟩
  | cons c rest ih =>
    cases quoted with
    | true => simpa only [tokenizeLoop] using ih _ _ _ _ _
    | false =>
      obtain ⟨before, hnone, hsome⟩ := hnew written j (i - j)
      simp only [tokenizeLoop, hnone, hsome]
      split
      · obtain ⟨single, hnone', hsome'⟩ := hnew (written ++ before) i 1
        simp only [hnone', hsome']
        obtain ⟨later, hcount, hfill⟩ := ih (i + 1) (i + 1) false
          (tokenCnt + BitVec.ofNat 32 before.length + BitVec.ofNat 32 single.length)
          (written ++ before ++ single)
        refine ⟨before ++ single ++ later, ?_, ?_⟩
        · rw [hcount]
          simp [BitVec.ofNat_add, BitVec.add_assoc]
        · rw [hfill]
          simp [BitVec.ofNat_add, BitVec.add_assoc]
      · split
        · obtain ⟨later, hcount, hfill⟩ := ih (i + 1) (i + 1) false
            (tokenCnt + BitVec.ofNat 32 before.length) (written ++ before)
          refine ⟨before ++ later, ?_, ?_⟩
          · rw [hcount]
            simp [BitVec.ofNat_add, BitVec.add_assoc]
          · rw [hfill]
            simp [BitVec.ofNat_add, BitVec.add_assoc]
        · exact ih _ _ _ _ _

theorem tokenize_count (expr : List Char) :
    (tokenize expr none).1 = BitVec.ofNat 32 (tokens expr).length := by
  obtain ⟨added, hcount, hfill⟩ := tokenizeLoop_count expr expr 0 0 false 0 []
  rw [tokens, tokenize, tokenize, hcount, hfill]
  exact BitVec.zero_add _

section Invariants

variable {expr : List Char} {good : TstExprTok → Prop}

theorem newTok_all {written : List TstExprTok} {tok tokLen : ℕ}
    (hwritten : ∀ token ∈ written, good token)
    (hnew : tokLen ≠ 0 → good ⟨charToOp (expr.getD tok '\x00'), tok, tokLen, none⟩) :
    ∃ added last, newTok expr (some written) tok tokLen = (added, some last) ∧
      ∀ token ∈ last, good token := by
  by_cases hlen : tokLen = 0
  · exact ⟨0, written, by simp [newTok, hlen], hwritten⟩
  · refine ⟨1, _, by rw [newTok, if_neg hlen], ?_⟩
    intro token hmem
    rcases List.mem_append.mp hmem with hold | hadded
    · exact hwritten token hold
    · rw [List.mem_singleton.mp hadded]
      exact hnew hlen

/-- What holds of single characters and of words holds of all tokens.  A word
ends where the string does, or at an operator or a blank. -/
theorem tokenizeLoop_all (hsingle : ∀ i < expr.length,
      good ⟨charToOp (expr.getD i '\x00'), i, 1, none⟩)
    (hword : ∀ i j, j < i → i ≤ expr.length →
      (∀ c ∈ expr[i]?, c ∈ ['(', ')', '!', '&', '|'] ∨ c ∈ ['\t', ' ']) →
      good ⟨charToOp (expr.getD j '\x00'), j, i - j, none⟩)
    {rest : List Char} {i j : ℕ} {quoted : Bool} {tokenCnt : BitVec 32}
    {written : List TstExprTok} (hrest : expr.drop i = rest)
    (hi : i ≤ expr.length) (hj : j ≤ i)
    (hwritten : ∀ token ∈ written, good token) :
    ∃ count last, tokenizeLoop expr rest i j quoted tokenCnt (some written) =
      (count, some last) ∧ ∀ token ∈ last, good token := by
  induction rest generalizing i j quoted tokenCnt written with
  | nil =>
    obtain rfl : i = expr.length := le_antisymm hi (List.drop_eq_nil_iff.mp hrest)
    obtain ⟨added, last, hnew, hlast⟩ := @newTok_all expr good written j
      (expr.length - j) hwritten fun hlen =>
        hword expr.length j (by omega) le_rfl (by simp)
    exact ⟨_, last, by rw [tokenizeLoop, hnew], hlast⟩
  | cons c rest ih =>
    have hlt : i < expr.length := by
      have hlength := congrArg List.length hrest
      rw [List.length_drop, List.length_cons] at hlength
      omega
    have hnext : expr.drop (i + 1) = rest := by
      rw [← List.drop_drop, hrest]
      rfl
    have hhead : expr[i]? = some c := by
      rw [← List.head?_drop, hrest]
      rfl
    cases quoted with
    | true => exact ih hnext hlt (by omega) hwritten
    | false =>
      have hbefore (hstop : c ∈ ['(', ')', '!', '&', '|'] ∨ c ∈ ['\t', ' ']) :=
        @newTok_all expr good written j (i - j) hwritten fun hlen =>
          hword i j (by omega) hi (by simpa only [hhead,
            Option.mem_some_iff, forall_eq'] using hstop)
      rw [tokenizeLoop]
      split
      · rename_i hoperator
        obtain ⟨before, last, hnew, hlast⟩ := hbefore (.inl hoperator)
        obtain ⟨single, final, hone, hfinal⟩ :=
          @newTok_all expr good last i 1 hlast fun _ => hsingle i hlt
        simp only [hnew, hone]
        exact ih hnext hlt le_rfl hfinal
      · split
        · rename_i hblank
          obtain ⟨before, last, hnew, hlast⟩ := hbefore (.inr hblank)
          simp only [hnew]
          exact ih hnext hlt le_rfl hlast
        · exact ih hnext hlt (by omega) hwritten

theorem tokens_all (hsingle : ∀ i < expr.length, good ⟨charToOp (expr.getD i '\x00'), i, 1, none⟩)
    (hword : ∀ i j, j < i → i ≤ expr.length →
      (∀ c ∈ expr[i]?, c ∈ ['(', ')', '!', '&', '|'] ∨ c ∈ ['\t', ' ']) →
      good ⟨charToOp (expr.getD j '\x00'), j, i - j, none⟩) :
    ∀ token ∈ tokens expr, good token := by
  obtain ⟨count, last, hloop, hlast⟩ := @tokenizeLoop_all expr good hsingle
    hword expr 0 0 false 0 [] rfl (Nat.zero_le _) le_rfl (by simp)
  rw [tokens, tokenize, hloop]
  exact hlast

end Invariants

/-- All tokens lie inside the string. -/
def Inside (expr : List Char) (written : List TstExprTok) : Prop :=
  ∀ token ∈ written, token.tok + token.tokLen ≤ expr.length

theorem tokens_inside (expr : List Char) : Inside expr (tokens expr) := by
  apply tokens_all
  · intro i hi
    exact hi
  · intro i j hj hi _
    change j + (i - j) ≤ expr.length
    omega

/-- Behind a token that is not a single character the string ends, or there is
an operator or a blank. -/
theorem tokens_delimited (expr : List Char) : ∀ token ∈ tokens expr, token.tokLen = 1 ∨
      ∀ c ∈ expr[token.tok + token.tokLen]?, c ∈ ['(', ')', '!', '&', '|'] ∨ c ∈ ['\t', ' '] := by
  apply tokens_all
  · intro i _
    exact .inl rfl
  · intro i j hj _ hstop
    right
    change ∀ c ∈ expr[j + (i - j)]?, _
    rwa [Nat.add_sub_cancel' hj.le]

end GrapheneLtp.Tokens
