import GrapheneLtp.Core.CheckedInt
import GrapheneLtp.Core.Decimal

/-!
# Numbers in front of a text

What the `strtol` family of the C library reads: blanks, a sign and the digits of
a base, as many as there are.  With base 0 the digits tell the base.  The readers
give the number and the rest of the text; the grammar of what they read stands
beside them.
-/

namespace GrapheneLtp.Strtol

open CString Decimal CheckedInt

/-- The value of a digit or of a letter in the C locale. -/
def digitValue (c : Char) : Option ℕ :=
  if '0' ≤ c ∧ c ≤ '9' then some (c.toNat - 48)
  else if 'a' ≤ c ∧ c ≤ 'z' then some (c.toNat - 87)
  else if 'A' ≤ c ∧ c ≤ 'Z' then some (c.toNat - 55)
  else none

def isDigitOf (base : ℕ) (c : Char) : Bool := (digitValue c).any (· < base)

/-- The number that digits of a base stand for. -/
def magnitude (base : ℕ) (digits : List Char) : ℕ :=
  digits.foldl (fun value c => base * value + (digitValue c).getD 0) 0

/-- The digits at the front of a text, if there are any. -/
def readNatural (base : ℕ) (text : List Char) : Option (ℕ × List Char) :=
  if text.takeWhile (isDigitOf base) = [] then none
  else some (magnitude base (text.takeWhile (isDigitOf base)), text.dropWhile (isDigitOf base))

/-- The digits of base 0: a `0x` that no hexadecimal digit follows is a zero. -/
def readAnyBase : List Char → Option (ℕ × List Char)
  | '0' :: mark :: rest =>
    if mark = 'x' ∨ mark = 'X' then
      (readNatural 16 rest).or (some (0, mark :: rest))
    else readNatural 8 ('0' :: mark :: rest)
  | ['0'] => readNatural 8 ['0']
  | text => readNatural 10 text

/-- The digits that `%i` of the `scanf` family reads: there a `0x` has to be
followed by a hexadecimal digit. -/
def scanAnyBase : List Char → Option (ℕ × List Char)
  | '0' :: mark :: rest =>
    if mark = 'x' ∨ mark = 'X' then readNatural 16 rest
    else readNatural 8 ('0' :: mark :: rest)
  | ['0'] => readNatural 8 ['0']
  | text => readNatural 10 text

/-- A number with a sign, after blanks. -/
def readInteger (natural : List Char → Option (ℕ × List Char))
    (text : List Char) : Option (ℤ × List Char) :=
  match text.dropWhile isSpace with
  | '-' :: rest => (natural rest).map fun (value, rest) => (-(value : ℤ), rest)
  | '+' :: rest => (natural rest).map fun (value, rest) => ((value : ℤ), rest)
  | rest => (natural rest).map fun (value, rest) => ((value : ℤ), rest)

/-- `strtoul` with base 10 on a 64 bit machine. -/
def strtoul (text : List Char) : Option (ℕ × List Char) :=
  (readInteger (readNatural 10) text).map fun (value, rest) =>
    (if value.natAbs < 2 ^ 64 then (value % 2 ^ 64).toNat else 2 ^ 64 - 1, rest)

/-- `strtol` and `strtoll`: the value, whether it is exact, and the rest. -/
def strtoll (natural : List Char → Option (ℕ × List Char)) (text : List Char) :
    Option (ℤ × Bool × List Char) :=
  (readInteger natural text).map fun (value, rest) =>
    (if FitsLong value then value else if value < 0 then -2 ^ 63 else 2 ^ 63 - 1,
      decide (FitsLong value), rest)

/-! ## The grammar -/

/-- Digits of a base that stand for a number. -/
structure Natural (base : ℕ) (digits : List Char) (value : ℕ) : Prop where
  nonempty : digits ≠ []
  valid : ∀ c ∈ digits, isDigitOf base c = true
  value : magnitude base digits = value

/-- Numbers of base 0. -/
inductive AnyBase : List Char → ℕ → Prop
  | decimal {first : Char} {digits : List Char} {value : ℕ} (hfirst : first ≠ '0')
      (hdigits : Natural 10 (first :: digits) value) :
      AnyBase (first :: digits) value
  | octal {digits : List Char} {value : ℕ}
      (hdigits : Natural 8 ('0' :: digits) value) : AnyBase ('0' :: digits) value
  | hexadecimal {mark : Char} {digits : List Char} {value : ℕ}
      (hmark : mark = 'x' ∨ mark = 'X') (hdigits : Natural 16 digits value) :
      AnyBase ('0' :: mark :: digits) value

/-- Numbers with a sign, after blanks. -/
inductive Signed (natural : List Char → ℕ → Prop) : List Char → ℤ → Prop
  | plain {blanks body : List Char} {value : ℕ}
      (hblanks : ∀ c ∈ blanks, isSpace c = true) (hbody : natural body value) :
      Signed natural (blanks ++ body) value
  | plus {blanks body : List Char} {value : ℕ}
      (hblanks : ∀ c ∈ blanks, isSpace c = true) (hbody : natural body value) :
      Signed natural (blanks ++ '+' :: body) value
  | minus {blanks body : List Char} {value : ℕ}
      (hblanks : ∀ c ∈ blanks, isSpace c = true) (hbody : natural body value) :
      Signed natural (blanks ++ '-' :: body) (-(value : ℤ))

section Digits

variable {base : ℕ} {c : Char}

theorem isDigitOf_ten (c : Char) : isDigitOf 10 c = c.isDigit := by
  rw [Bool.eq_iff_iff, isDigitOf, digitValue, Char.isDigit]
  simp only [Char.le_def, UInt32.le_iff_toNat_le, ge_iff_le, Bool.and_eq_true,
    decide_eq_true_eq]
  change (Option.any _ (if 48 ≤ c.toNat ∧ c.toNat ≤ 57 then _ else
    if 97 ≤ c.toNat ∧ c.toNat ≤ 122 then _ else
    if 65 ≤ c.toNat ∧ c.toNat ≤ 90 then _ else _)) = true ↔ 48 ≤ c.toNat ∧ c.toNat ≤ 57
  split_ifs <;> simp <;> omega

theorem isDigitOf_mono {small large : ℕ} (hle : small ≤ large)
    (hdigit : isDigitOf small c = true) : isDigitOf large c = true := by
  rw [isDigitOf, Option.any_eq_true_iff_get] at hdigit ⊢
  obtain ⟨hsome, hless⟩ := hdigit
  refine ⟨hsome, ?_⟩
  rw [decide_eq_true_eq] at hless ⊢
  omega

/-- A sign or a blank is no digit. -/
theorem isDigitOf_eq_false (hvalue : digitValue c = none) : isDigitOf base c = false := by
  rw [isDigitOf, hvalue]
  rfl

theorem digitValue_of_isSpace (hspace : isSpace c = true) : digitValue c = none := by
  simp only [isSpace, List.mem_cons, List.not_mem_nil, or_false,
    decide_eq_true_eq] at hspace
  rcases hspace with rfl | rfl | rfl | rfl | rfl | rfl <;> rfl

theorem isSpace_of_isDigitOf (hdigit : isDigitOf base c = true) : isSpace c = false := by
  by_contra hspace
  rw [isDigitOf_eq_false (digitValue_of_isSpace (Bool.eq_true_of_not_eq_false hspace))] at hdigit
  cases hdigit

end Digits

/-! ## What the readers read -/

section Reading

variable {base : ℕ} {text rest : List Char}

theorem takeWhile_append_ends {p : Char → Bool} {front : List Char}
    (hfront : ∀ c ∈ front, p c = true) (hrest : ∀ c ∈ rest.head?, p c = false) :
    (front ++ rest).takeWhile p = front ∧ (front ++ rest).dropWhile p = rest := by
  cases rest with
  | nil =>
    rw [List.append_nil, List.takeWhile_eq_self_iff, List.dropWhile_eq_nil_iff]
    exact ⟨hfront, hfront⟩
  | cons stop rest =>
    have hstop := hrest stop rfl
    exact ⟨takeWhile_append_stop hfront hstop, dropWhile_append_stop hfront hstop⟩

theorem Natural.read {digits : List Char} {value : ℕ} (hdigits : Natural base digits value)
    (hrest : ∀ c ∈ rest.head?, isDigitOf base c = false) :
    readNatural base (digits ++ rest) = some (value, rest) := by
  obtain ⟨htake, hdrop⟩ := takeWhile_append_ends hdigits.valid hrest
  rw [readNatural, htake, hdrop, if_neg hdigits.nonempty, hdigits.value]

theorem readNatural_sound {value : ℕ} (hread : readNatural base text = some (value, rest)) :
    ∃ digits, text = digits ++ rest ∧ Natural base digits value := by
  rw [readNatural] at hread
  split at hread
  · cases hread
  · rename_i hnonempty
    cases hread
    refine ⟨_, List.takeWhile_append_dropWhile.symm, hnonempty, ?_, rfl⟩
    intro c hc
    exact List.mem_takeWhile_imp hc

/-- What may follow a number of any base. -/
def EndsNumber (rest : List Char) : Prop :=
  ∀ c ∈ rest.head?, isDigitOf 16 c = false ∧ c ≠ 'x' ∧ c ≠ 'X'

theorem EndsNumber.not_digit (hrest : EndsNumber rest) (hbase : base ≤ 16) :
    ∀ c ∈ rest.head?, isDigitOf base c = false := by
  intro c hc
  by_contra hdigit
  have hwide := isDigitOf_mono hbase (Bool.eq_true_of_not_eq_false hdigit)
  rw [(hrest c hc).1] at hwide
  cases hwide

theorem readAnyBase_decimal {first : Char} (hfirst : first ≠ '0') (text : List Char) :
    readAnyBase (first :: text) = readNatural 10 (first :: text) := by
  rw [readAnyBase]
  · rintro mark others hequal
    exact hfirst (List.cons.inj hequal).1
  · intro hequal
    exact hfirst (List.cons.inj hequal).1

theorem readAnyBase_octal (hmark : ∀ c ∈ text.head?, c ≠ 'x' ∧ c ≠ 'X') :
    readAnyBase ('0' :: text) = readNatural 8 ('0' :: text) := by
  cases text with
  | nil => rfl
  | cons mark text =>
    obtain ⟨hsmall, hlarge⟩ := hmark mark rfl
    rw [readAnyBase, if_neg (by simp [hsmall, hlarge])]

theorem AnyBase.read {body : List Char} {value : ℕ} (hbody : AnyBase body value)
    (hrest : EndsNumber rest) :
    readAnyBase (body ++ rest) = some (value, rest) := by
  cases hbody with
  | decimal hfirst hdigits =>
    rw [List.cons_append, readAnyBase_decimal hfirst]
    exact hdigits.read (hrest.not_digit (by decide))
  | @octal digits _ hdigits =>
    have hmark : ∀ c ∈ (digits ++ rest).head?, c ≠ 'x' ∧ c ≠ 'X' := by
      cases digits with
      | nil => exact fun c hc => (hrest c hc).2
      | cons digit digits =>
        rintro _ ⟨⟩
        have hdigit := hdigits.valid digit (by simp)
        constructor <;> rintro rfl <;> exact absurd hdigit (by decide)
    rw [List.cons_append, readAnyBase_octal hmark]
    exact hdigits.read (hrest.not_digit (by decide))
  | hexadecimal hmark hdigits =>
    rw [List.cons_append, List.cons_append, readAnyBase, if_pos hmark,
      hdigits.read (hrest.not_digit le_rfl)]
    rfl

theorem readAnyBase_sound {value : ℕ} (hread : readAnyBase text = some (value, rest)) :
    ∃ body, text = body ++ rest ∧ AnyBase body value := by
  cases text with
  | nil => simp [readAnyBase, readNatural] at hread
  | cons first text =>
    by_cases hfirst : first = '0'
    · subst hfirst
      by_cases hmark : ∃ mark others, text = mark :: others ∧ (mark = 'x' ∨ mark = 'X')
      · obtain ⟨mark, others, rfl, hmark⟩ := hmark
        rw [readAnyBase, if_pos hmark] at hread
        cases hhex : readNatural 16 others with
        | none =>
          rw [hhex] at hread
          cases hread
          exact ⟨['0'], rfl, .octal ⟨List.cons_ne_nil _ _, by decide, rfl⟩⟩
        | some result =>
          rw [hhex] at hread
          cases hread
          obtain ⟨digits, rfl, hdigits⟩ := readNatural_sound hhex
          exact ⟨'0' :: mark :: digits, rfl, .hexadecimal hmark hdigits⟩
      · rw [readAnyBase_octal] at hread
        · obtain ⟨digits, hsplit, hdigits⟩ := readNatural_sound hread
          refine ⟨digits, hsplit, ?_⟩
          cases digits with
          | nil => exact absurd rfl hdigits.nonempty
          | cons digit digits =>
            rw [List.cons_append] at hsplit
            obtain ⟨rfl, -⟩ := List.cons.inj hsplit
            exact .octal hdigits
        · intro c hc
          obtain ⟨others, rfl⟩ := List.head?_eq_some_iff.mp hc
          constructor <;> rintro rfl
          · exact hmark ⟨_, others, rfl, .inl rfl⟩
          · exact hmark ⟨_, others, rfl, .inr rfl⟩
    · rw [readAnyBase_decimal hfirst] at hread
      obtain ⟨digits, hsplit, hdigits⟩ := readNatural_sound hread
      refine ⟨digits, hsplit, ?_⟩
      cases digits with
      | nil => exact absurd rfl hdigits.nonempty
      | cons digit digits =>
        rw [List.cons_append] at hsplit
        obtain ⟨rfl, -⟩ := List.cons.inj hsplit
        exact .decimal hfirst hdigits

theorem readAnyBase_of_scanAnyBase {result : ℕ × List Char}
    (hscan : scanAnyBase text = some result) : readAnyBase text = some result := by
  unfold scanAnyBase at hscan
  unfold readAnyBase
  split at hscan
  · rename_i mark others
    by_cases hmark : mark = 'x' ∨ mark = 'X'
    · rw [if_pos hmark] at hscan ⊢
      rw [hscan]
      rfl
    · rw [if_neg hmark] at hscan ⊢
      exact hscan
  · exact hscan
  · exact hscan

theorem scanAnyBase_of_readAnyBase {value : ℕ} (hrest : EndsNumber rest)
    (hread : readAnyBase text = some (value, rest)) :
    scanAnyBase text = some (value, rest) := by
  unfold readAnyBase at hread
  unfold scanAnyBase
  split at hread
  · rename_i mark others
    by_cases hmark : mark = 'x' ∨ mark = 'X'
    · rw [if_pos hmark] at hread ⊢
      cases hhex : readNatural 16 others with
      | none =>
        -- The zero is followed by its mark, which ends no number.
        rw [hhex] at hread
        cases hread
        obtain ⟨-, hsmall, hlarge⟩ := hrest mark rfl
        exact absurd hmark (by simp [hsmall, hlarge])
      | some result =>
        rw [hhex] at hread
        exact hread
    · rw [if_neg hmark] at hread ⊢
      exact hread
  · exact hread
  · exact hread

end Reading

/-! ## Signed numbers -/

/-- A reader of unsigned numbers and its grammar. -/
structure Reads (natural : List Char → Option (ℕ × List Char))
    (grammar : List Char → ℕ → Prop) (Ends : List Char → Prop) : Prop where
  read : ∀ {body rest value}, grammar body value → Ends rest →
    natural (body ++ rest) = some (value, rest)
  sound : ∀ {text rest value}, natural text = some (value, rest) →
    ∃ body, text = body ++ rest ∧ grammar body value
  first : ∀ {body value}, grammar body value →
    ∃ c ∈ body.head?, isSpace c = false ∧ c ≠ '-' ∧ c ≠ '+'

theorem first_of_isDigitOf {base : ℕ} {digits : List Char} (hnonempty : digits ≠ [])
    (hdigits : ∀ c ∈ digits, isDigitOf base c = true) :
    ∃ c ∈ digits.head?, isSpace c = false ∧ c ≠ '-' ∧ c ≠ '+' := by
  cases digits with
  | nil => exact absurd rfl hnonempty
  | cons c digits =>
    have hdigit := hdigits c List.mem_cons_self
    have hsign (sign : Char) (hsign : digitValue sign = none) : c ≠ sign := by
      rintro rfl
      rw [isDigitOf_eq_false hsign] at hdigit
      cases hdigit
    exact ⟨c, rfl, isSpace_of_isDigitOf hdigit, hsign '-' rfl, hsign '+' rfl⟩

theorem reads_natural (base : ℕ) : Reads (readNatural base) (Natural base)
      (fun rest => ∀ c ∈ rest.head?, isDigitOf base c = false) where
  read := fun hdigits hrest => hdigits.read hrest
  sound := readNatural_sound
  first := fun hdigits => first_of_isDigitOf hdigits.nonempty hdigits.valid

theorem reads_anyBase : Reads readAnyBase AnyBase EndsNumber where
  read := fun hbody hrest => hbody.read hrest
  sound := readAnyBase_sound
  first := by
    intro body value hbody
    cases hbody with
    | decimal hfirst hdigits =>
      exact first_of_isDigitOf hdigits.nonempty hdigits.valid
    | octal hdigits => exact first_of_isDigitOf hdigits.nonempty hdigits.valid
    | hexadecimal hmark hdigits => exact ⟨'0', rfl, by decide⟩

theorem reads_scanAnyBase : Reads scanAnyBase AnyBase EndsNumber where
  read := fun hbody hrest =>
    scanAnyBase_of_readAnyBase hrest (hbody.read hrest)
  sound := fun hscan => readAnyBase_sound (readAnyBase_of_scanAnyBase hscan)
  first := reads_anyBase.first

/-- The characters of an unsigned number of base 0. -/
theorem AnyBase.char {body : List Char} {value : ℕ} (hbody : AnyBase body value)
    {c : Char} (hc : c ∈ body) :
    isDigitOf 16 c = true ∨ c = 'x' ∨ c = 'X' := by
  cases hbody with
  | decimal hfirst hdigits =>
    exact .inl (isDigitOf_mono (by decide) (hdigits.valid c hc))
  | octal hdigits =>
    exact .inl (isDigitOf_mono (by decide) (hdigits.valid c hc))
  | hexadecimal hmark hdigits =>
    rcases List.mem_cons.mp hc with rfl | hc
    · exact .inl rfl
    · rcases List.mem_cons.mp hc with rfl | hc
      · exact .inr hmark
      · exact .inl (hdigits.valid c hc)

section Signs

variable {natural : List Char → Option (ℕ × List Char)}
  {grammar : List Char → ℕ → Prop} {Ends : List Char → Prop}
  {text rest : List Char}

theorem dropWhile_blanks {blanks : List Char} (hblanks : ∀ c ∈ blanks, isSpace c = true)
    (htext : ∀ c ∈ text.head?, isSpace c = false) :
    (blanks ++ text).dropWhile isSpace = text :=
  (takeWhile_append_ends hblanks htext).2

/-- A signed number is read as a whole. -/
theorem Reads.readInteger (hreads : Reads natural grammar Ends)
    {number : List Char} {value : ℤ} (hnumber : Signed grammar number value)
    (hrest : Ends rest) :
    Strtol.readInteger natural (number ++ rest) = some (value, rest) := by
  cases hnumber with
  | @plain blanks body value hblanks hbody =>
    obtain ⟨c, hc, hspace, hminus, hplus⟩ := hreads.first hbody
    obtain ⟨others, rfl⟩ := List.head?_eq_some_iff.mp hc
    rw [List.append_assoc, Strtol.readInteger, dropWhile_blanks hblanks]
    · rw [List.cons_append]
      split
      · rename_i hequal
        exact absurd (List.cons.inj hequal).1 hminus
      · rename_i hequal
        exact absurd (List.cons.inj hequal).1 hplus
      · rw [← List.cons_append, hreads.read hbody hrest]
        rfl
    · rintro _ ⟨⟩
      exact hspace
  | @plus blanks body value hblanks hbody =>
    rw [List.append_assoc, Strtol.readInteger, dropWhile_blanks hblanks]
    · change Option.map _ (natural (body ++ rest)) = _
      rw [hreads.read hbody hrest]
      rfl
    · rintro _ ⟨⟩
      rfl
  | @minus blanks body value hblanks hbody =>
    rw [List.append_assoc, Strtol.readInteger, dropWhile_blanks hblanks]
    · change Option.map _ (natural (body ++ rest)) = _
      rw [hreads.read hbody hrest]
      rfl
    · rintro _ ⟨⟩
      rfl

/-- What is read is a signed number. -/
theorem Reads.readInteger_sound (hreads : Reads natural grammar Ends) {value : ℤ}
    (hread : Strtol.readInteger natural text = some (value, rest)) :
    ∃ number, text = number ++ rest ∧ Signed grammar number value := by
  have hblanks : ∀ c ∈ text.takeWhile isSpace, isSpace c = true :=
    fun c hc => List.mem_takeWhile_imp hc
  have hsplit : text.takeWhile isSpace ++ text.dropWhile isSpace = text :=
    List.takeWhile_append_dropWhile
  rw [Strtol.readInteger] at hread
  split at hread
  · rename_i digits hdrop
    obtain ⟨⟨magnitude, behind⟩, hdigits, hequal⟩ := Option.map_eq_some_iff.mp hread
    cases hequal
    obtain ⟨body, rfl, hbody⟩ := hreads.sound hdigits
    refine ⟨_, ?_, .minus hblanks hbody⟩
    rw [List.append_assoc, List.cons_append, ← hdrop, hsplit]
  · rename_i digits hdrop
    obtain ⟨⟨magnitude, behind⟩, hdigits, hequal⟩ := Option.map_eq_some_iff.mp hread
    cases hequal
    obtain ⟨body, rfl, hbody⟩ := hreads.sound hdigits
    refine ⟨_, ?_, .plus hblanks hbody⟩
    rw [List.append_assoc, List.cons_append, ← hdrop, hsplit]
  · rename_i hminus hplus
    obtain ⟨⟨magnitude, behind⟩, hdigits, hequal⟩ := Option.map_eq_some_iff.mp hread
    cases hequal
    obtain ⟨body, hbehind, hbody⟩ := hreads.sound hdigits
    refine ⟨_, ?_, .plain hblanks hbody⟩
    rw [List.append_assoc, ← hbehind, hsplit]

/-- The characters of a signed number. -/
theorem Signed.char {number : List Char} {value : ℤ}
    (hnumber : Signed grammar number value) {c : Char} (hc : c ∈ number) :
    isSpace c = true ∨ c = '+' ∨ c = '-' ∨ ∃ body value, grammar body value ∧ c ∈ body := by
  cases hnumber with
  | plain hblanks hbody =>
    rcases List.mem_append.mp hc with hc | hc
    · exact .inl (hblanks c hc)
    · exact .inr (.inr (.inr ⟨_, _, hbody, hc⟩))
  | plus hblanks hbody =>
    rcases List.mem_append.mp hc with hc | hc
    · exact .inl (hblanks c hc)
    · rcases List.mem_cons.mp hc with hc | hc
      · exact .inr (.inl hc)
      · exact .inr (.inr (.inr ⟨_, _, hbody, hc⟩))
  | minus hblanks hbody =>
    rcases List.mem_append.mp hc with hc | hc
    · exact .inl (hblanks c hc)
    · rcases List.mem_cons.mp hc with hc | hc
      · exact .inr (.inr (.inl hc))
      · exact .inr (.inr (.inr ⟨_, _, hbody, hc⟩))

end Signs

/-- A printed number. -/
theorem natural_decimal (value : ℕ) : Natural 10 (decimal value) value where
  nonempty := decimal_ne_nil value
  valid := by
    intro c hc
    rw [isDigitOf_ten]
    exact isDigit_of_mem_decimal hc
  value := by
    have hdigits : ∀ c ∈ decimal value, (digitValue c).getD 0 = c.toNat - 48 := by
      intro c hc
      have hdigit := isDigit_of_mem_decimal hc
      simp only [Char.isDigit, ge_iff_le, Bool.and_eq_true, decide_eq_true_eq] at hdigit
      rw [digitValue, if_pos (show '0' ≤ c ∧ c ≤ '9' from hdigit)]
      rfl
    conv_rhs => rw [← digitsValue_decimal value, digitsValue, Nat.ofDigitChars]
    refine List.foldl_ext _ _ _ fun sofar c hc => ?_
    rw [hdigits c hc]
    rfl

end GrapheneLtp.Strtol
