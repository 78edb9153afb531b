import Mathlib.Data.List.GetD
import Mathlib.Tactic
import GrapheneLtp.Core.Traced
import GrapheneLtp.Kconfig.Check

/-!
# The variables that are accepted

`validate_var` checks the form of a variable with three loops.  Here they are
modelled once more with every character that is looked at, and the accepted
tokens are described.  The loop over a value starts with the second character,
so the first one can be anything.
-/

namespace GrapheneLtp.Kconfig

open GrapheneLtp.CString GrapheneLtp.Tokens

section Reads

/-- `tok[i]` inside the string that `tok` points into. -/
def readTok (tok : List Char) (i : ℕ) : Traced ℕ Char := Traced.past i (some (tok.getD i nul))

/-- The loop over the name at offset `i`, with `left` characters of the token
from there on. -/
def nameLoop (tok : List Char) : (left i : ℕ) → Traced ℕ NameEnd
  | 0, i => do
      let c ← readTok tok i
      return if c = nul then .name i else .token
  | left + 1, i => do
      let c ← readTok tok i
      if c = nul then return .name i
      else if isSymbol c then nameLoop tok left (i + 1)
      else if c = '=' then return .name (i + 1)
      else return .unexpected i

/-- The loops over a value, behind the increment. -/
def valueLoop (tok : List Char) (p : Char → Bool) : (left i : ℕ) → Traced ℕ ℕ
  | 0, i => pure i
  | left + 1, i => do
      let c ← readTok tok i
      if p c then valueLoop tok p left (i + 1) else return i

/-- `strncmp` with a text that has no NUL looks at one character after the
other, up to the first difference. -/
def strncmpLoop (tok : List Char) : List Char → (i : ℕ) → Traced ℕ Bool
  | [], _ => pure true
  | expected :: rest, i => do
      let c ← readTok tok i
      if c = expected then strncmpLoop tok rest (i + 1) else return false

/-- `validate_var` behind the name. -/
def validateValue (tok : List Char) (tokLen : ℕ) : NameEnd → Traced ℕ (Except (ℕ × String) Unit)
  | .unexpected i =>
    return .error (i, "Unexpected character in variable name")
  | .token => return .ok ()
  | .name i =>
    if i ≥ tokLen then do
      let c ← readTok tok (i - 1)
      return if c = '=' then .error (i, "Missing value") else .ok ()
    else do
      let c ← readTok tok i
      if c = '"' then do
        let last ← valueLoop tok (fun c => c != '"') (tokLen - (i + 1)) (i + 1)
        if last < tokLen - 1 then
          return .error (last, "Garbage after a string")
        else do
          let c ← readTok tok last
          return if c ≠ '"' then .error (last, "Untermianted string")
            else .ok ()
      else do
        let last ← valueLoop tok Char.isAlphanum (tokLen - (i + 1)) (i + 1)
        return if last < tokLen then
          .error (last, "Invalid character in variable value") else .ok ()

/-- `validate_var` with the offsets of the characters it looks at. -/
def validateVarReads (expr : List Char) (var : TstExprTok) :
    Traced ℕ (Except (ℕ × String) Unit) := do
  let tok := expr.drop var.tok
  if var.tokLen < 7 then return .error (0, "Expected CONFIG_ prefix")
  else do
    let same ← strncmpLoop tok configText 0
    if same then do
      let nameEnd ← nameLoop tok (var.tokLen - 7) 7
      validateValue tok var.tokLen nameEnd
    else return .error (0, "Expected CONFIG_ prefix")

end Reads

section Bounds

variable {tok : List Char} {tokLen : ℕ}

theorem readTok_completes {i : ℕ} (hi : i ≤ tokLen) :
    (readTok tok i).Completes (· ≤ tokLen) fun c => c = tok.getD i nul :=
  Traced.Completes.past hi

/-- The name ends inside the token. -/
def NameEnd.within (tokLen : ℕ) : NameEnd → Prop
  | .token => True
  | .name i => i ≤ tokLen
  | .unexpected _ => True

theorem drop_eq_cons {i : ℕ} (hi : i < tok.length) :
    tok.drop i = tok.getD i nul :: tok.drop (i + 1) := by
  rw [List.getD_eq_getElem tok nul hi]
  exact List.drop_eq_getElem_cons hi

theorem getD_ne_nul {i : ℕ} (htok : nul ∉ tok) (hi : i < tok.length) : tok.getD i nul ≠ nul := by
  intro hnul
  rw [List.getD_eq_getElem tok nul hi] at hnul
  exact htok (hnul ▸ List.getElem_mem hi)

theorem nameLoop_completes (htok : nul ∉ tok) (hlen : tokLen ≤ tok.length) :
    ∀ {left i : ℕ}, i + left = tokLen → (nameLoop tok left i).Completes (· ≤ tokLen) fun nameEnd =>
        nameEnd = validateName tokLen i (tok.drop i) ∧ nameEnd.within tokLen := by
  intro left
  induction left with
  | zero =>
    intro i hi
    obtain rfl : i = tokLen := hi
    apply (readTok_completes le_rfl).bind
    rintro c rfl
    apply Traced.Completes.pure
    by_cases hend : i = tok.length
    · have hnil : tok.drop i = [] := List.drop_eq_nil_of_le hend.ge
      rw [hnil, if_pos (List.getD_eq_default _ _ hend.ge)]
      exact ⟨rfl, le_rfl⟩
    · have hi : i < tok.length := by omega
      rw [if_neg (getD_ne_nul htok hi), drop_eq_cons hi, validateName,
        if_pos le_rfl]
      exact ⟨rfl, trivial⟩
  | succ left ih =>
    intro i hi
    apply (readTok_completes (show i ≤ tokLen by omega)).bind
    rintro c rfl
    have hinside : i < tok.length := by omega
    rw [if_neg (getD_ne_nul htok hinside), drop_eq_cons hinside, validateName,
      if_neg (show ¬i ≥ tokLen by omega)]
    split
    · exact ih (by omega)
    · split
      · exact Traced.Completes.pure ⟨rfl, show i + 1 ≤ tokLen by omega⟩
      · exact Traced.Completes.pure ⟨rfl, trivial⟩

theorem valueLoop_completes (hlen : tokLen ≤ tok.length) (p : Char → Bool) :
    ∀ {left i : ℕ}, i + left = tokLen → (valueLoop tok p left i).Completes (· ≤ tokLen) fun last =>
        last = i + (((tok.take tokLen).drop i).takeWhile p).length ∧ last ≤ tokLen := by
  intro left
  induction left with
  | zero =>
    rintro i rfl
    apply Traced.Completes.pure
    rw [List.drop_eq_nil_of_le (by simp)]
    exact ⟨rfl, le_rfl⟩
  | succ left ih =>
    intro i hi
    have htake : i < (tok.take tokLen).length := by
      rw [List.length_take]
      omega
    have hread : (tok.take tokLen).getD i nul = tok.getD i nul := by
      rw [List.getD_eq_getElem _ _ htake, List.getElem_take, List.getD_eq_getElem]
    apply (readTok_completes (show i ≤ tokLen by omega)).bind
    rintro c rfl
    rw [drop_eq_cons htake, hread]
    split
    · rename_i hp
      apply (ih (show i + 1 + left = tokLen by omega)).weaken
      rintro last ⟨rfl, hlast⟩
      rw [List.takeWhile_cons, if_pos hp, List.length_cons]
      exact ⟨by omega, hlast⟩
    · rename_i hp
      apply Traced.Completes.pure
      rw [List.takeWhile_cons, if_neg hp]
      exact ⟨rfl, by omega⟩

theorem strncmpLoop_completes (hlen : tokLen ≤ tok.length) :
    ∀ {expected : List Char} {i : ℕ}, i + expected.length ≤ tokLen →
      (strncmpLoop tok expected i).Completes (· ≤ tokLen) fun same =>
        same = decide ((tok.drop i).take expected.length = expected) := by
  intro expected
  induction expected with
  | nil =>
    intro i _
    exact Traced.Completes.pure rfl
  | cons c expected ih =>
    intro i hi
    rw [List.length_cons] at hi
    apply (readTok_completes (show i ≤ tokLen by omega)).bind
    rintro found rfl
    rw [drop_eq_cons (show i < tok.length by omega), List.length_cons, List.take_succ_cons]
    split
    · rename_i hsame
      apply (ih (show i + 1 + expected.length ≤ tokLen by omega)).weaken
      rintro same rfl
      simp only [List.cons.injEq, hsame, true_and]
    · rename_i hdiffers
      apply Traced.Completes.pure
      simp only [List.cons.injEq, hdiffers, false_and, decide_false]

theorem getD_eq_iff {i : ℕ} {c : Char} (hc : c ≠ nul) : tok.getD i nul = c ↔ tok[i]? = some c := by
  rw [List.getD_eq_getElem?_getD]
  cases tok[i]? with
  | none => simp [Ne.symm hc]
  | some found => simp

/-- What `validateVar` does behind the name. -/
def valueResult (tok : List Char) (tokLen : ℕ) : NameEnd → Except (ℕ × String) Unit
  | .unexpected i => .error (i, "Unexpected character in variable name")
  | .token => .ok ()
  | .name i =>
    let scan (p : Char → Bool) : ℕ := i + 1 + (((tok.take tokLen).drop (i + 1)).takeWhile p).length
    if i ≥ tokLen then
      if tok[i - 1]? = some '=' then .error (i, "Missing value") else .ok ()
    else if tok[i]? = some '"' then
      let last := scan fun c => c != '"'
      if last < tokLen - 1 then .error (last, "Garbage after a string")
      else if tok[last]? ≠ some '"' then .error (last, "Untermianted string")
      else .ok ()
    else
      let last := scan Char.isAlphanum
      if last < tokLen then
        .error (last, "Invalid character in variable value")
      else .ok ()

theorem validateVar_eq {expr : List Char} {var : TstExprTok} (hlong : 7 ≤ var.tokLen)
    (hconfig : (expr.drop var.tok).take 7 = configText) :
    validateVar expr var = valueResult (expr.drop var.tok) var.tokLen
      (validateName var.tokLen 7 ((expr.drop var.tok).drop 7)) := by
  rw [validateVar, if_neg (by simp [hconfig]; omega)]
  rfl

theorem validateValue_completes (hlen : tokLen ≤ tok.length) {nameEnd : NameEnd}
    (hwithin : nameEnd.within tokLen) :
    (validateValue tok tokLen nameEnd).Completes (· ≤ tokLen) fun result =>
      result = valueResult tok tokLen nameEnd := by
  cases nameEnd with
  | unexpected i => exact Traced.Completes.pure rfl
  | token => exact Traced.Completes.pure rfl
  | name i =>
    have hi : i ≤ tokLen := hwithin
    simp only [validateValue, valueResult]
    split
    · apply (readTok_completes (show i - 1 ≤ tokLen by omega)).bind
      rintro c rfl
      apply Traced.Completes.pure
      simp only [getD_eq_iff (show '=' ≠ nul by decide)]
    · have hloop (p : Char → Bool) := valueLoop_completes hlen p
        (show i + 1 + (tokLen - (i + 1)) = tokLen by omega)
      apply (readTok_completes hi).bind
      rintro c rfl
      simp only [getD_eq_iff (show '"' ≠ nul by decide)]
      split
      · apply (hloop fun c => c != '"').bind
        rintro last ⟨rfl, hlast⟩
        split
        · exact Traced.Completes.pure rfl
        · apply (readTok_completes hlast).bind
          rintro c rfl
          apply Traced.Completes.pure
          simp only [ne_eq, getD_eq_iff (show '"' ≠ nul by decide)]
      · apply (hloop Char.isAlphanum).bind
        rintro last ⟨rfl, -⟩
        exact Traced.Completes.pure rfl

/-- No character behind the token is looked at but the next one, and the result
is that of `validateVar`. -/
theorem validateVarReads_completes {expr : List Char} {var : TstExprTok}
    (hexpr : nul ∉ expr) (hinside : var.tok + var.tokLen ≤ expr.length) :
    (validateVarReads expr var).Completes (· ≤ var.tokLen) fun result =>
      result = validateVar expr var := by
  have htok : nul ∉ expr.drop var.tok := fun hmem => hexpr (List.mem_of_mem_drop hmem)
  have hlen : var.tokLen ≤ (expr.drop var.tok).length := by
    rw [List.length_drop]
    omega
  simp only [validateVarReads]
  split
  · rename_i hshort
    apply Traced.Completes.pure
    rw [validateVar, if_pos (.inl hshort)]
  · rename_i hlong
    apply (strncmpLoop_completes hlen
      (show 0 + configText.length ≤ var.tokLen by simp [configText]; omega)).bind
    rintro same rfl
    rw [List.drop_zero]
    split
    · rename_i hsame
      have hconfig : (expr.drop var.tok).take 7 = configText := of_decide_eq_true hsame
      apply (nameLoop_completes htok hlen (show 7 + (var.tokLen - 7) = var.tokLen by omega)).bind
      rintro nameEnd ⟨rfl, hwithin⟩
      apply (validateValue_completes hlen hwithin).weaken
      rintro result rfl
      rw [validateVar_eq (by omega) hconfig]
    · rename_i hdiffers
      apply Traced.Completes.pure
      rw [validateVar,
        if_pos (.inr fun hsame => hdiffers (decide_eq_true hsame))]

end Bounds

section Language

/-- Alphanumeric characters, or a quoted string and nothing behind it. -/
def ValueText (value : List Char) : Prop := (value ≠ [] ∧ ∀ c ∈ value, c.isAlphanum = true) ∨
    ∃ body, '"' ∉ body ∧ value = '"' :: (body ++ ['"'])

/-- Alphanumeric characters behind one that is neither alphanumeric nor a
quote. -/
def OddValueText (value : List Char) : Prop :=
  ∃ c rest, value = c :: rest ∧ c.isAlphanum = false ∧ c ≠ '"' ∧
    ∀ other ∈ rest, other.isAlphanum = true

/-- A variable name, the character `=` and a value of the given form. -/
def AssignmentText (form : List Char → Prop) (text : List Char) : Prop :=
  ∃ name value, (∀ c ∈ name, isSymbol c = true) ∧
    text = configText ++ (name ++ '=' :: value) ∧ form value

/-- A variable name, optionally with a value. -/
def VariableText (text : List Char) : Prop :=
  (∃ name, (∀ c ∈ name, isSymbol c = true) ∧ text = configText ++ name) ∨
    AssignmentText ValueText text

theorem validateName_name {tokLen i : ℕ} {name rest : List Char}
    (hname : ∀ c ∈ name, isSymbol c = true) (hlen : i + name.length ≤ tokLen) :
    validateName tokLen i (name ++ rest) = validateName tokLen (i + name.length) rest := by
  induction name generalizing i with
  | nil => rfl
  | cons c name ih =>
    rw [List.length_cons] at hlen
    rw [List.cons_append, validateName, if_neg (by omega),
      if_pos (hname c List.mem_cons_self),
      ih (fun other hother => hname other (List.mem_cons_of_mem c hother))
        (by omega), List.length_cons]
    congr 1
    omega

/-- The loop over a string ends at its closing quote, or behind the token. -/
theorem quoted_ok_iff {rest behind : List Char}
    (hbehind : ∀ c ∈ behind.head?, c ≠ '"') :
    (rest.length ≤ 1 + (rest.takeWhile fun c => c != '"').length ∧
        (rest ++ behind)[(rest.takeWhile fun c => c != '"').length]? =
          some '"') ↔
      ∃ body, '"' ∉ body ∧ rest = body ++ ['"'] := by
  have hscan {body more : List Char} (hbody : '"' ∉ body) :
      (body ++ '"' :: more).takeWhile (fun c => c != '"') = body := by
    apply takeWhile_append_stop
    · intro c hc
      exact bne_iff_ne.mpr (ne_of_mem_of_not_mem hc hbody)
    · rfl
  by_cases hmem : '"' ∈ rest
  · obtain ⟨body, more, rfl, hbody⟩ := List.eq_append_cons_of_mem hmem
    rw [hscan hbody]
    have hfound : (body ++ '"' :: more ++ behind)[body.length]? =
        some '"' := by simp
    simp only [hfound, and_true, List.length_append, List.length_cons]
    constructor
    · intro hshort
      have hmore : more = [] := List.eq_nil_of_length_eq_zero (by omega)
      exact ⟨body, hbody, by rw [hmore]⟩
    · rintro ⟨other, hother, hsame⟩
      have hscanned := congrArg (List.takeWhile fun c => c != '"') hsame
      rw [hscan hbody, hscan hother] at hscanned
      have hlength := congrArg List.length hsame
      simp only [hscanned, List.length_append, List.length_cons, List.length_nil] at hlength
      omega
  · have hall : rest.takeWhile (fun c => c != '"') = rest := by
      rw [List.takeWhile_eq_self_iff]
      intro c hc
      exact bne_iff_ne.mpr (ne_of_mem_of_not_mem hc hmem)
    rw [hall, List.getElem?_append_right le_rfl, Nat.sub_self, ← List.head?_eq_getElem?]
    constructor
    · rintro ⟨-, hquote⟩
      exact absurd rfl (hbehind '"' hquote)
    · rintro ⟨body, -, rfl⟩
      simp at hmem

variable {front value behind : List Char}

/-- The value of a variable, inside the string. -/
theorem valueResult_ok_iff (hbehind : ∀ c ∈ behind.head?, c ≠ '"') :
    valueResult (front ++ ('=' :: value ++ behind))
        (front.length + 1 + value.length) (.name (front.length + 1)) = .ok () ↔
      ValueText value ∨ OddValueText value := by
  set tok := front ++ ('=' :: value ++ behind) with htok
  have hdrop : tok.drop (front.length + 1) = value ++ behind := by
    rw [htok, ← List.drop_drop, List.drop_left]
    rfl
  have hget (offset : ℕ) : tok[front.length + 1 + offset]? = (value ++ behind)[offset]? := by
    rw [← hdrop, List.getElem?_drop]
  have htake : tok.take (front.length + 1 + value.length) = front ++ '=' :: value := by
    have hsplit : tok = (front ++ '=' :: value) ++ behind := by simp [htok]
    have hlength : front.length + 1 + value.length =
        (front ++ '=' :: value).length := by simp; omega
    rw [hsplit, hlength, List.take_left]
  cases value with
  | nil =>
    have hmissing : tok[front.length]? = some '=' := by simp [htok]
    simp [valueResult, hmissing, ValueText, OddValueText]
  | cons c rest =>
    have hhead : tok[front.length + 1]? = some c := by
      have hzero := hget 0
      rwa [Nat.add_zero] at hzero
    have hrest : (tok.take (front.length + 1 + (c :: rest).length)).drop
        (front.length + 1 + 1) = rest := by
      rw [htake, ← List.drop_drop, ← List.drop_drop, List.drop_left]
      rfl
    have hshort : ¬front.length + 1 ≥ front.length + 1 + (c :: rest).length := by
      rw [List.length_cons]
      omega
    simp only [valueResult, hshort, if_false, hhead, Option.some.injEq, hrest]
    by_cases hquote : c = '"'
    · subst hquote
      have hafter (k : ℕ) : tok[front.length + 1 + 1 + k]? = (rest ++ behind)[k]? := by
        rw [Nat.add_assoc (front.length + 1), hget, Nat.add_comm 1]
        rfl
      have hform : ValueText ('"' :: rest) ∨ OddValueText ('"' :: rest) ↔
          ∃ body, '"' ∉ body ∧ rest = body ++ ['"'] := by
        have hdigit : Char.isAlphanum '"' = false := by decide
        simp [ValueText, OddValueText, hdigit]
      rw [if_pos rfl, hafter, hform, ← quoted_ok_iff hbehind]
      have hgarbage (k : ℕ) : front.length + 1 + 1 + k < front.length + 1 + (rest.length + 1) - 1 ↔
            ¬rest.length ≤ 1 + k := by omega
      simp only [List.length_cons, hgarbage, ne_eq, ite_not]
      split_ifs with hshort hclosed
      · exact iff_of_true rfl ⟨hshort, hclosed⟩
      · simp [hclosed]
      · simp [hshort]
    · have hform : ValueText (c :: rest) ∨ OddValueText (c :: rest) ↔
          ∀ other ∈ rest, other.isAlphanum = true := by
        cases hdigit : c.isAlphanum <;>
          simp [ValueText, OddValueText, hdigit, hquote]
      have hscan : rest.takeWhile Char.isAlphanum <+: rest := List.takeWhile_prefix _
      have hinvalid (k : ℕ) : front.length + 1 + 1 + k <
          front.length + 1 + (rest.length + 1) ↔ k < rest.length := by omega
      rw [if_neg hquote, hform, ← List.takeWhile_eq_self_iff]
      simp only [List.length_cons, hinvalid]
      split_ifs with hless
      · refine iff_of_false (by simp) fun hsame => ?_
        rw [hsame] at hless
        exact lt_irrefl _ hless
      · exact iff_of_true rfl (hscan.eq_of_length_le (Nat.le_of_not_lt hless))

variable {expr name : List Char} {var : TstExprTok}

/-- The name of a variable is passed over. -/
theorem validateVar_name (hexpr : expr.drop var.tok = configText ++ (name ++ behind))
    (hname : ∀ c ∈ name, isSymbol c = true)
    (hlen : 7 + name.length ≤ var.tokLen) :
    validateVar expr var = valueResult (expr.drop var.tok) var.tokLen
      (validateName var.tokLen (7 + name.length) behind) := by
  rw [validateVar_eq (by omega) (by rw [hexpr]; rfl), ← validateName_name hname hlen, hexpr]
  rfl

theorem validateVar_plain (hexpr : expr.drop var.tok = configText ++ (name ++ behind))
    (hname : ∀ c ∈ name, isSymbol c = true)
    (hlen : var.tokLen = 7 + name.length) :
    validateVar expr var = .ok () := by
  rw [validateVar_name hexpr hname hlen.ge, hlen]
  cases behind with
  | nil =>
    have hlast : (expr.drop var.tok)[7 + name.length - 1]? ≠ some '=' := by
      intro hequals
      have hmem := List.mem_of_getElem? hequals
      rw [hexpr, List.append_nil] at hmem
      rcases List.mem_append.mp hmem with hconfig | hsymbol
      · exact absurd hconfig (by decide)
      · exact absurd (hname '=' hsymbol) (by decide)
    simp only [validateName, valueResult, ge_iff_le, le_refl, if_true, hlast,
      if_false]
  | cons c behind => simp [validateName, valueResult]

theorem validateVar_assignment
    (hexpr : expr.drop var.tok = configText ++ (name ++ ('=' :: value ++ behind)))
    (hname : ∀ c ∈ name, isSymbol c = true)
    (hlen : var.tokLen = 7 + name.length + 1 + value.length)
    (hbehind : ∀ c ∈ behind.head?, c ≠ '"') :
    validateVar expr var = .ok () ↔ ValueText value ∨ OddValueText value := by
  have hfront : (configText ++ name).length = 7 + name.length := by
    simp [configText]
    omega
  have hequals : validateName var.tokLen (7 + name.length)
      ('=' :: value ++ behind) = .name (7 + name.length + 1) := by
    rw [List.cons_append, validateName, if_neg (by omega),
      if_neg (by decide), if_pos rfl]
  rw [validateVar_name hexpr hname (by omega), hequals,
    ← valueResult_ok_iff hbehind, hexpr, ← List.append_assoc configText, hlen,
    ← hfront]

theorem validateVar_unexpected {c : Char}
    (hexpr : expr.drop var.tok = configText ++ (name ++ c :: behind))
    (hname : ∀ c ∈ name, isSymbol c = true) (hsymbol : isSymbol c = false)
    (hequals : c ≠ '=') (hlen : 7 + name.length < var.tokLen) :
    validateVar expr var ≠ .ok () := by
  rw [validateVar_name hexpr hname hlen.le, validateName, if_neg (by omega),
    if_neg (by simp [hsymbol]), if_neg hequals]
  simp [valueResult]

theorem exists_name (body : List Char) :
    ∃ name rest, body = name ++ rest ∧ (∀ c ∈ name, isSymbol c = true) ∧
      ∀ c ∈ rest.head?, isSymbol c = false := by
  induction body with
  | nil => exact ⟨[], [], rfl, by simp, by simp⟩
  | cons c body ih =>
    obtain ⟨name, rest, rfl, hname, hrest⟩ := ih
    cases hsymbol : isSymbol c with
    | true =>
      refine ⟨c :: name, rest, rfl, fun other hother => ?_, hrest⟩
      rcases List.mem_cons.mp hother with rfl | hother
      · exact hsymbol
      · exact hname other hother
    | false => exact ⟨[], c :: (name ++ rest), rfl, by simp, by simpa⟩

/-- The accepted tokens. -/
theorem validateVar_ok_iff (hinside : var.tok + var.tokLen ≤ expr.length)
    (hbehind : 7 ≤ var.tokLen →
      ∀ c ∈ expr[var.tok + var.tokLen]?, c ≠ '"') :
    validateVar expr var = .ok () ↔ VariableText (var.text expr) ∨
      AssignmentText OddValueText (var.text expr) := by
  set text := var.text expr with htext
  set behind := expr.drop (var.tok + var.tokLen) with hdrop
  have hexpr : expr.drop var.tok = text ++ behind := by
    rw [htext, hdrop, TstExprTok.text, ← List.drop_drop, List.take_append_drop]
  have hlength : text.length = var.tokLen := by
    rw [htext, TstExprTok.text, List.length_take, List.length_drop]
    omega
  have hhead : 7 ≤ var.tokLen → ∀ c ∈ behind.head?, c ≠ '"' := by
    rwa [hdrop, List.head?_drop]
  have hconfigLength : configText.length = 7 := rfl
  have hassignment {name value : List Char} (hname : ∀ c ∈ name, isSymbol c = true)
      (hform : text = configText ++ (name ++ '=' :: value)) :
      validateVar expr var = .ok () ↔ ValueText value ∨ OddValueText value := by
    have hlen : var.tokLen = 7 + name.length + 1 + value.length := by
      rw [← hlength, hform, List.length_append, List.length_append, List.length_cons, hconfigLength]
      omega
    exact validateVar_assignment
      (by rw [hexpr, hform, List.append_assoc, List.append_assoc]) hname hlen
      (hhead (by omega))
  constructor
  · intro hok
    by_cases hconfig : var.tokLen < 7 ∨ (expr.drop var.tok).take 7 ≠ configText
    · rw [validateVar, if_pos hconfig] at hok
      cases hok
    · rw [not_or, not_not, not_lt] at hconfig
      have hbody : text = configText ++ text.drop 7 := by
        rw [← hconfig.2, hexpr, List.take_append_of_le_length (by omega), List.take_append_drop]
      obtain ⟨name, rest, hsplit, hname, hrest⟩ := exists_name (text.drop 7)
      rw [hsplit] at hbody
      cases rest with
      | nil => exact .inl (.inl ⟨name, hname, by rw [hbody, List.append_nil]⟩)
      | cons c rest =>
        by_cases hequals : c = '='
        · subst hequals
          rcases (hassignment hname hbody).mp hok with hvalue | hvalue
          · exact .inl (.inr ⟨name, rest, hname, hbody, hvalue⟩)
          · exact .inr ⟨name, rest, hname, hbody, hvalue⟩
        · refine absurd hok (validateVar_unexpected
            (by rw [hexpr, hbody, List.append_assoc, List.append_assoc,
              List.cons_append]) hname (hrest c rfl) hequals ?_)
          rw [← hlength, hbody, List.length_append, List.length_append,
            List.length_cons, hconfigLength]
          omega
  · rintro ((⟨name, hname, hform⟩ | ⟨name, value, hname, hform, hvalue⟩) |
      ⟨name, value, hname, hform, hvalue⟩)
    · apply validateVar_plain (by rw [hexpr, hform, List.append_assoc]) hname
      rw [← hlength, hform, List.length_append, hconfigLength]
    · exact (hassignment hname hform).mpr (.inl hvalue)
    · exact (hassignment hname hform).mpr (.inr hvalue)

/-- The two forms exclude each other. -/
theorem not_variableText_of_odd {text : List Char}
    (hodd : AssignmentText OddValueText text) : ¬VariableText text := by
  obtain ⟨name, value, hname, htext, c, rest, hvalue, hdigit, hquote, -⟩ := hodd
  rintro (⟨other, hother, hplain⟩ | ⟨other, value', hother, hother', hform⟩)
  · have hequals : '=' ∈ configText ++ other := by
      rw [← hplain, htext]
      simp
    rcases List.mem_append.mp hequals with hconfig | hsymbol
    · exact absurd hconfig (by decide)
    · exact absurd (hother '=' hsymbol) (by decide)
  · rw [htext] at hother'
    have hsame := List.append_cancel_left hother'
    have hrest := congrArg (List.dropWhile isSymbol) hsame
    rw [dropWhile_append_stop hname (by decide), dropWhile_append_stop hother (by decide)] at hrest
    obtain rfl := (List.cons.inj hrest).2
    subst hvalue
    rcases hform with ⟨-, hall⟩ | ⟨body, -, hbody⟩
    · rw [hall c List.mem_cons_self] at hdigit
      cases hdigit
    · exact hquote (List.cons.inj hbody).1

/-- A token is accepted exactly if it has the form of a variable, and no
character behind it but the next is looked at, unless the value is one odd
character and alphanumeric ones. -/
theorem validateVar_language_iff {expr : List Char} (hexpr : nul ∉ expr)
    {token : TstExprTok} (htoken : token ∈ tokens expr) :
    (((validateVarReads expr token).result = some (.ok ()) ↔ VariableText (token.text expr)) ∧
      ∀ i ∈ (validateVarReads expr token).events, i ≤ token.tokLen) ↔
      ¬AssignmentText OddValueText (token.text expr) := by
  have hinside := tokens_inside expr token htoken
  have hbehind : 7 ≤ token.tokLen →
      ∀ c ∈ expr[token.tok + token.tokLen]?, c ≠ '"' := by
    intro hlong c hc
    rcases tokens_delimited expr token htoken with hone | hstop
    · omega
    · rintro rfl
      rcases hstop '"' hc with hmem | hmem
      · exact absurd hmem (by decide)
      · exact absurd hmem (by decide)
  obtain ⟨⟨result, hresult, rfl⟩, hreads⟩ := validateVarReads_completes hexpr hinside
  rw [hresult, Option.some.injEq, validateVar_ok_iff hinside hbehind]
  constructor
  · rintro ⟨hlanguage, -⟩ hodd
    exact not_variableText_of_odd hodd (hlanguage.mp (.inr hodd))
  · intro hodd
    exact ⟨or_iff_left hodd, hreads⟩

/-- A variable with a string value, which contains a blank. -/
theorem validateVar_language_string :
    ((validateVarReads "CONFIG_A=\"x y\"".toList ⟨.var, 0, 14, none⟩).result =
          some (.ok ()) ↔
        VariableText (TstExprTok.text "CONFIG_A=\"x y\"".toList
          ⟨.var, 0, 14, none⟩)) ∧
      ∀ i ∈ (validateVarReads "CONFIG_A=\"x y\"".toList
        ⟨.var, 0, 14, none⟩).events, i ≤ 14 := by
  have hvariable : VariableText (TstExprTok.text "CONFIG_A=\"x y\"".toList
      ⟨.var, 0, 14, none⟩) :=
    .inr ⟨['A'], "\"x y\"".toList, List.forall_mem_singleton.mpr rfl,
      by decide +kernel, .inr ⟨"x y".toList, by decide +kernel,
        by decide +kernel⟩⟩
  exact (validateVar_language_iff (by decide +kernel) (by decide +kernel)).mpr
    fun hodd => not_variableText_of_odd hodd hvariable

/-- The first character of a value is not checked. -/
theorem validateVar_odd_value :
    ⟨.var, 0, 11, none⟩ ∈ tokens "CONFIG_A=-1".toList ∧
      (validateVarReads "CONFIG_A=-1".toList ⟨.var, 0, 11, none⟩).result =
        some (.ok ()) ∧
      ¬VariableText (TstExprTok.text "CONFIG_A=-1".toList
        ⟨.var, 0, 11, none⟩) := by
  refine ⟨by decide +kernel, by decide +kernel, not_variableText_of_odd ?_⟩
  exact ⟨['A'], "-1".toList, List.forall_mem_singleton.mpr rfl,
    by decide +kernel, '-', ['1'], by decide +kernel, by decide, by decide,
    List.forall_mem_singleton.mpr (by decide)⟩

end Language

end GrapheneLtp.Kconfig
