import GrapheneLtp.Core.Fields

/-!
# Calls of `strtok`

`strtok` works inside the block that holds the string: it returns a pointer to the
next token and writes a NUL behind it.  A pointer into the block is its offset.
The tokens that the calls give one after the other are those of `Fields.strtok`.
-/

namespace GrapheneLtp.Strtok

open CString Fields

/-- What a call returns, the block after it, and where the next call goes on. -/
structure Call where
  token : Option ℕ
  block : List Char
  save : ℕ
  deriving DecidableEq, Repr

/-- `strtok` for the string at an offset in a block. -/
def strtok (isSeparator : Char → Bool) (block : List Char) (start : ℕ) : Call :=
  let first := start +
    ((block.drop start).takeWhile fun c => c != nul && isSeparator c).length
  if block.getD first nul = nul then ⟨none, block, first⟩
  else
    let stop := first +
      ((block.drop first).takeWhile fun c => c != nul && !isSeparator c).length
    if block.getD stop nul = nul then ⟨some first, block, stop⟩
    else ⟨some first, block.set stop nul, stop + 1⟩

section Texts

variable {isSeparator : Char → Bool}

theorem tokens_cons_separator {c : Char} (hc : isSeparator c = true) (text : List Char) :
    Fields.strtok isSeparator (c :: text) = Fields.strtok isSeparator text := by
  rw [Fields.strtok, List.splitOnP_cons_eq_if_modifyHead, if_pos hc, List.filter_cons_of_neg]
  · rfl
  · simp

theorem tokens_append_separators {blanks : List Char} (hblanks : ∀ c ∈ blanks, isSeparator c = true)
    (text : List Char) :
    Fields.strtok isSeparator (blanks ++ text) = Fields.strtok isSeparator text := by
  induction blanks with
  | nil => rfl
  | cons c blanks ih =>
    obtain ⟨hc, hothers⟩ := List.forall_mem_cons.mp hblanks
    rw [List.cons_append, tokens_cons_separator hc, ih hothers]

theorem tokens_separators {blanks : List Char} (hblanks : ∀ c ∈ blanks, isSeparator c = true) :
    Fields.strtok isSeparator blanks = [] := by
  have hempty := tokens_append_separators hblanks []
  rw [List.append_nil] at hempty
  rw [hempty]
  rfl

theorem tokens_single {token : List Char} (hne : token ≠ [])
    (htoken : ∀ c ∈ token, isSeparator c = false) :
    Fields.strtok isSeparator token = [token] := by
  rw [Fields.strtok, List.splitOnP_eq_singleton htoken]
  simp [hne]

/-- A text is separators only, or has a first token before its end or a separator. -/
inductive Parts (isSeparator : Char → Bool) : List Char → Prop where
  | blank {blanks : List Char} (hblanks : ∀ c ∈ blanks, isSeparator c = true) :
    Parts isSeparator blanks
  | last {blanks token : List Char} (hblanks : ∀ c ∈ blanks, isSeparator c = true)
    (hne : token ≠ []) (htoken : ∀ c ∈ token, isSeparator c = false) :
    Parts isSeparator (blanks ++ token)
  | more {blanks token rest : List Char} {separator : Char}
    (hblanks : ∀ c ∈ blanks, isSeparator c = true)
    (hne : token ≠ []) (htoken : ∀ c ∈ token, isSeparator c = false)
    (hseparator : isSeparator separator = true) :
    Parts isSeparator (blanks ++ (token ++ separator :: rest))

theorem parts (isSeparator : Char → Bool) (text : List Char) : Parts isSeparator text := by
  have hblanks : ∀ c ∈ text.takeWhile isSeparator, isSeparator c = true :=
    fun c hc => List.mem_takeWhile_imp hc
  have htoken : ∀ c ∈ (text.dropWhile isSeparator).takeWhile (fun c => !isSeparator c),
      isSeparator c = false := by
    intro c hc
    simpa using List.mem_takeWhile_imp hc
  have htext := List.takeWhile_append_dropWhile (p := isSeparator) (l := text)
  have hrest := List.takeWhile_append_dropWhile (p := fun c => !isSeparator c)
    (l := text.dropWhile isSeparator)
  by_cases hall : text.dropWhile isSeparator = []
  · rw [hall, List.append_nil] at htext
    rw [htext] at hblanks
    exact .blank hblanks
  · have hhead := List.head_dropWhile_not isSeparator hall
    have hne : (text.dropWhile isSeparator).takeWhile (fun c => !isSeparator c) ≠ [] := by
      cases htail : text.dropWhile isSeparator with
      | nil => exact absurd htail hall
      | cons c others =>
        simp only [htail, List.head_cons] at hhead
        rw [List.takeWhile_cons_of_pos (by simpa using hhead)]
        exact List.cons_ne_nil _ _
    rw [← htext, ← hrest]
    by_cases hend : (text.dropWhile isSeparator).dropWhile (fun c => !isSeparator c) = []
    · rw [hend, List.append_nil]
      exact .last hblanks hne htoken
    · have hseparator := List.head_dropWhile_not (fun c => !isSeparator c) hend
      obtain ⟨separator, rest, hcons⟩ := List.exists_cons_of_ne_nil hend
      simp only [hcons, List.head_cons, Bool.not_eq_false'] at hseparator
      rw [hcons]
      exact .more hblanks hne htoken (by simpa using hseparator)

theorem separators_of_tokens_nil {text : List Char}
    (htokens : Fields.strtok isSeparator text = []) : ∀ c ∈ text, isSeparator c = true := by
  cases parts isSeparator text with
  | blank hblanks => exact hblanks
  | last hblanks hne htoken =>
    rw [tokens_append_separators hblanks, tokens_single hne htoken] at htokens
    cases htokens
  | more hblanks hne htoken hseparator =>
    rw [tokens_append_separators hblanks, strtok_cons hseparator hne htoken] at htokens
    cases htokens

/-- There are at most as many tokens as characters. -/
theorem length_tokens_le (isSeparator : Char → Bool) (text : List Char) :
    (Fields.strtok isSeparator text).length ≤ text.length := by
  induction hlength : text.length using Nat.strong_induction_on generalizing text with
  | _ length ih =>
    cases parts isSeparator text with
    | blank hblanks =>
      rw [tokens_separators hblanks]
      exact Nat.zero_le _
    | last hblanks hne htoken =>
      rw [tokens_append_separators hblanks, tokens_single hne htoken, List.length_singleton]
      have hpos := List.length_pos_iff.mpr hne
      rw [List.length_append] at hlength
      omega
    | @more blanks token rest separator hblanks hne htoken hseparator =>
      rw [tokens_append_separators hblanks, strtok_cons hseparator hne htoken, List.length_cons]
      simp only [List.length_append, List.length_cons] at hlength
      have hrest := ih rest.length (by omega) rest rfl
      omega

end Texts

section Calls

variable {isSeparator : Char → Bool} {block text : List Char} {start : ℕ}

/-- The string that is left at an offset. -/
structure Rest (block : List Char) (start : ℕ) (text : List Char) : Prop where
  split : ∃ before, block = before ++ (text ++ [nul]) ∧ before.length = start
  string : nul ∉ text

/-- A string that ends before a NUL in the block. -/
structure Token (block : List Char) (offset : ℕ) (token : List Char) : Prop where
  split : ∃ before after, block = before ++ (token ++ nul :: after) ∧ before.length = offset
  string : nul ∉ token

/-- A NUL that is written behind a token leaves it as it is. -/
theorem Token.set {offset index : ℕ} {token : List Char} (htoken : Token block offset token)
    (hindex : offset + token.length ≤ index) : Token (block.set index nul) offset token := by
  obtain ⟨before, after, rfl, rfl⟩ := htoken.split
  refine ⟨⟨before, (nul :: after).set (index - before.length - token.length) nul |>.tail, ?_, rfl⟩,
    htoken.string⟩
  rw [List.set_append_right _ _ (by omega), List.set_append_right _ _ (by omega)]
  cases index - before.length - token.length <;> rfl

/-- The scan over characters of a kind stops behind them. -/
theorem length_scan {p : Char → Bool} {before front after : List Char} {stop : Char}
    (hfront : ∀ c ∈ front, p c = true) (hstring : nul ∉ front)
    (hstop : stop = nul ∨ p stop = false) :
    (((before ++ (front ++ stop :: after)).drop before.length).takeWhile
      fun c => c != nul && p c).length = front.length := by
  rw [List.drop_left, takeWhile_append_stop]
  · intro c hc
    rw [hfront c hc, Bool.and_true]
    simpa using ne_of_mem_of_not_mem hc hstring
  · rcases hstop with rfl | hstop
    · simp
    · simp [hstop]

theorem getD_at (before after : List Char) (c : Char) :
    (before ++ c :: after).getD before.length nul = c := by
  simp

/-- Without a token the call returns NULL and leaves the block alone. -/
theorem strtok_none (hrest : Rest block start text)
    (htokens : Fields.strtok isSeparator text = []) :
    ∃ save, start ≤ save ∧ strtok isSeparator block start = ⟨none, block, save⟩ := by
  obtain ⟨before, rfl, rfl⟩ := hrest.split
  have hblanks := separators_of_tokens_nil htokens
  refine ⟨before.length + text.length, Nat.le_add_right _ _, ?_⟩
  have hscan := @length_scan isSeparator before text [] nul hblanks hrest.string (.inl rfl)
  have hend : (before ++ (text ++ [nul])).getD (before.length + text.length) nul = nul := by
    rw [← List.append_assoc, ← List.length_append, getD_at]
  rw [strtok]
  simp only [hscan, hend, if_true]

/-- What a call that finds a token has done. -/
structure Found (isSeparator : Char → Bool) (block : List Char) (start : ℕ)
    (text token : List Char) (others : List (List Char)) (offset : ℕ) (call : Call) : Prop where
  pointer : call.token = some offset
  offset_eq : offset = start + (text.takeWhile isSeparator).length
  holds : Token call.block offset token
  stop : offset + token.length ≤ call.save
  rest : ∃ left, Rest call.block call.save left ∧ Fields.strtok isSeparator left = others
  earlier : ∀ {other : ℕ} {name : List Char}, Token block other name →
    other + name.length ≤ start → Token call.block other name

/-- The call in front of a token, with what follows the token in the block. -/
theorem strtok_scan {before blanks token after : List Char} {stop : Char}
    (hblanks : ∀ c ∈ blanks, isSeparator c = true) (hne : token ≠ [])
    (htoken : ∀ c ∈ token, isSeparator c = false) (hstring : nul ∉ blanks ++ token)
    (hstop : stop = nul ∨ isSeparator stop = true) :
    strtok isSeparator (before ++ (blanks ++ (token ++ stop :: after))) before.length =
      if stop = nul then
        ⟨some (before.length + blanks.length), before ++ (blanks ++ (token ++ stop :: after)),
          before.length + blanks.length + token.length⟩
      else
        ⟨some (before.length + blanks.length), before ++ (blanks ++ (token ++ nul :: after)),
          before.length + blanks.length + token.length + 1⟩ := by
  obtain ⟨first, name, rfl⟩ := List.exists_cons_of_ne_nil hne
  rw [List.mem_append, not_or] at hstring
  have hfirst : first ≠ nul := fun hequal => hstring.2 (hequal ▸ List.mem_cons_self)
  have hblank := @length_scan isSeparator before blanks (name ++ stop :: after) first hblanks
    hstring.1 (.inr (htoken first List.mem_cons_self))
  have hname := @length_scan (fun c => !isSeparator c) (before ++ blanks) (first :: name) after stop
    (by simpa using htoken) hstring.2 (by simpa using hstop)
  have hhere : (before ++ (blanks ++ (first :: name ++ stop :: after))).getD
      (before.length + blanks.length) nul = first := by
    rw [← List.append_assoc, ← List.length_append, List.cons_append, getD_at]
  have hbehind : (before ++ (blanks ++ (first :: name ++ stop :: after))).getD
      (before.length + blanks.length + (first :: name).length) nul = stop := by
    rw [← List.append_assoc, ← List.append_assoc, ← List.length_append, ← List.length_append,
      getD_at]
  have hset : (before ++ (blanks ++ (first :: name ++ stop :: after))).set
      (before.length + blanks.length + (first :: name).length) nul =
        before ++ (blanks ++ (first :: name ++ nul :: after)) := by
    rw [← List.append_assoc, ← List.append_assoc, ← List.length_append, ← List.length_append,
      List.set_append_right _ _ le_rfl, Nat.sub_self, List.set_cons_zero, List.append_assoc,
      List.append_assoc]
  rw [List.append_assoc, List.length_append] at hname
  rw [strtok]
  simp only [List.cons_append] at hblank hname hhere hbehind hset ⊢
  simp only [hblank, hhere, if_neg hfirst, hname, hbehind, hset]

/-- A call gives the next token. -/
theorem strtok_found {token : List Char} {others : List (List Char)} (hrest : Rest block start text)
    (htokens : Fields.strtok isSeparator text = token :: others) :
    ∃ offset, Found isSeparator block start text token others offset
      (strtok isSeparator block start) := by
  obtain ⟨before, rfl, rfl⟩ := hrest.split
  cases parts isSeparator text with
  | blank hblanks =>
    rw [tokens_separators hblanks] at htokens
    cases htokens
  | @last blanks name hblanks hne hname =>
    rw [tokens_append_separators hblanks, tokens_single hne hname] at htokens
    obtain ⟨rfl, rfl⟩ := List.cons.inj htokens
    have hcall := @strtok_scan isSeparator before blanks name [] nul hblanks hne hname
      hrest.string (.inl rfl)
    rw [if_pos rfl] at hcall
    rw [List.append_assoc, hcall]
    have hstring := hrest.string
    rw [List.mem_append, not_or] at hstring
    refine ⟨before.length + blanks.length, rfl, ?_, ⟨⟨before ++ blanks, [], ?_, ?_⟩, hstring.2⟩,
      le_rfl, ⟨[], ⟨⟨before ++ (blanks ++ name), ?_, ?_⟩, by simp⟩, rfl⟩, ?_⟩
    · obtain ⟨first, name, rfl⟩ := List.exists_cons_of_ne_nil hne
      rw [takeWhile_append_stop hblanks (hname first List.mem_cons_self)]
    · simp
    · simp
    · simp
    · simp
      omega
    · intro other earlier hearlier _
      exact hearlier
  | @more blanks name rest separator hblanks hne hname hseparator =>
    rw [tokens_append_separators hblanks, strtok_cons hseparator hne hname] at htokens
    obtain ⟨rfl, rfl⟩ := List.cons.inj htokens
    have hstring := hrest.string
    simp only [List.mem_append, List.mem_cons, not_or] at hstring
    obtain ⟨hblank, hinside, hsep, hbehind⟩ := hstring
    have hcall := @strtok_scan isSeparator before blanks name (rest ++ [nul]) separator hblanks hne
      hname (by simp [hblank, hinside]) (.inr hseparator)
    rw [if_neg (Ne.symm hsep)] at hcall
    have hblock : before ++ (blanks ++ (name ++ separator :: rest) ++ [nul]) =
        before ++ (blanks ++ (name ++ separator :: (rest ++ [nul]))) := by simp
    rw [hblock, hcall]
    refine ⟨before.length + blanks.length, rfl, ?_, ⟨⟨before ++ blanks, rest ++ [nul], ?_, ?_⟩,
      hinside⟩, Nat.le_succ _, ⟨rest, ⟨⟨before ++ (blanks ++ (name ++ [nul])), ?_, ?_⟩, hbehind⟩,
      rfl⟩, ?_⟩
    · obtain ⟨first, name, rfl⟩ := List.exists_cons_of_ne_nil hne
      rw [List.cons_append, takeWhile_append_stop hblanks (hname first List.mem_cons_self)]
    · simp
    · simp
    · simp
    · simp
      omega
    · intro other earlier hearlier hbefore
      have hset := @Token.set _ other (before.length + (blanks.length + name.length)) earlier
        hearlier (by omega)
      rw [← List.append_assoc blanks, ← List.length_append, List.set_append_right _ _ (by omega),
        Nat.add_sub_cancel_left, List.set_append_right _ _ le_rfl, Nat.sub_self,
        List.set_cons_zero, List.append_assoc] at hset
      exact hset

end Calls

end GrapheneLtp.Strtok
