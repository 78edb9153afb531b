import Mathlib.Data.Nat.Digits.Defs
import Mathlib.Tactic
import GrapheneLtp.Core.CString

/-!
# Numbers as decimal text

Printing numbers as the conversions `%u` and `%d` do, and reading them back as
`atoi` does: the digits from the front on, after blanks and a sign.
-/

namespace GrapheneLtp.Decimal

open CString

/-- The digits of a number, as `%u` prints them. -/
def decimal (value : ℕ) : List Char := Nat.toDigits 10 value

/-- A number with its sign, as `%d` prints it. -/
def signedDecimal (value : ℤ) : List Char :=
  if value < 0 then '-' :: decimal value.natAbs else decimal value.natAbs

/-- The number that digits stand for. -/
def digitsValue (digits : List Char) : ℕ := Nat.ofDigitChars 10 digits 0

/-- The number at the front of a text. -/
def leadingNumber (text : List Char) : ℕ := digitsValue (text.takeWhile Char.isDigit)

/-- `atoi` for a number that fits. -/
def atoi (text : List Char) : ℤ :=
  match text.dropWhile isSpace with
  | '-' :: rest => -(leadingNumber rest : ℤ)
  | '+' :: rest => leadingNumber rest
  | rest => leadingNumber rest

theorem isDigit_of_mem_decimal {value : ℕ} {c : Char} (hc : c ∈ decimal value) : c.isDigit = true :=
  Nat.isDigit_of_mem_toDigits (by decide) le_rfl hc

theorem decimal_ne_nil (value : ℕ) : decimal value ≠ [] := Nat.toDigits_ne_nil

theorem signedDecimal_ne_nil (value : ℤ) : signedDecimal value ≠ [] := by
  unfold signedDecimal
  split
  · exact List.cons_ne_nil _ _
  · exact decimal_ne_nil _

theorem digitsValue_decimal (value : ℕ) : digitsValue (decimal value) = value :=
  Nat.ofDigitChars_toDigits (by decide) le_rfl

theorem length_decimal_le {value width : ℕ} (hwidth : 0 < width)
    (hvalue : value < 10 ^ width) : (decimal value).length ≤ width :=
  Nat.toDigits_length 10 value width hwidth hvalue

theorem decimal_injective : Function.Injective decimal :=
  Function.LeftInverse.injective digitsValue_decimal

/-- Only zero has a zero in front. -/
theorem decimal_of_head_zero {value : ℕ}
    (hhead : (decimal value).head? = some '0') : decimal value = ['0'] := by
  induction value using Nat.strong_induction_on with
  | _ value ih =>
    by_cases hsmall : value < 10
    · rw [decimal, Nat.toDigits_of_lt_base hsmall] at hhead ⊢
      simpa using hhead
    · have hsplit : decimal value = decimal (value / 10) ++ decimal (value % 10) := by
        have happend := Nat.toDigits_append_toDigits
          (show 1 < 10 by decide) (show 0 < value / 10 by omega)
          (Nat.mod_lt value (show 0 < 10 by decide))
        rw [Nat.div_add_mod] at happend
        exact happend.symm
      rw [hsplit, List.head?_append_of_ne_nil _ (decimal_ne_nil _)] at hhead
      have hzero := congrArg digitsValue (ih (value / 10) (by omega) hhead)
      rw [digitsValue_decimal] at hzero
      have hpositive : 0 < value / 10 := by omega
      exact absurd hzero hpositive.ne'

/-- The digits end where the text goes on with something else. -/
theorem takeWhile_decimal (value : ℕ) {stop : Char} (rest : List Char)
    (hstop : stop.isDigit = false) :
    (decimal value ++ stop :: rest).takeWhile Char.isDigit = decimal value :=
  takeWhile_append_stop (fun _ hc => isDigit_of_mem_decimal hc) hstop

theorem dropWhile_decimal (value : ℕ) {stop : Char} (rest : List Char)
    (hstop : stop.isDigit = false) :
    (decimal value ++ stop :: rest).dropWhile Char.isDigit = stop :: rest :=
  dropWhile_append_stop (fun _ hc => isDigit_of_mem_decimal hc) hstop

/-- Numbers in front of something else are told apart. -/
theorem decimal_append_inj {left right : ℕ} {stop : Char}
    {leftRest rightRest : List Char} (hstop : stop.isDigit = false)
    (heq : decimal left ++ stop :: leftRest = decimal right ++ stop :: rightRest) :
    left = right ∧ leftRest = rightRest := by
  have htake := congrArg (List.takeWhile Char.isDigit) heq
  have hdrop := congrArg (List.dropWhile Char.isDigit) heq
  rw [takeWhile_decimal left _ hstop, takeWhile_decimal right _ hstop] at htake
  rw [dropWhile_decimal left _ hstop, dropWhile_decimal right _ hstop] at hdrop
  exact ⟨decimal_injective htake, (List.cons.inj hdrop).2⟩

theorem leadingNumber_decimal (value : ℕ) {stop : Char} (rest : List Char)
    (hstop : stop.isDigit = false) :
    leadingNumber (decimal value ++ stop :: rest) = value := by
  rw [leadingNumber, takeWhile_decimal value rest hstop, digitsValue_decimal]

theorem isDigit_ne {c other : Char} (hc : c.isDigit = true)
    (hother : other.isDigit = false) : c ≠ other := by
  rintro rfl
  rw [hc] at hother
  cases hother

theorem not_isSpace_of_isDigit {c : Char} (hc : c.isDigit = true) : isSpace c = false := by
  have hblank (blank : Char) (hblank : blank.isDigit = false) : c ≠ blank := isDigit_ne hc hblank
  simp [isSpace, hblank ' ' rfl, hblank '\t' rfl, hblank '\n' rfl,
    hblank '\x0b' rfl, hblank '\x0c' rfl, hblank '\r' rfl]

/-- A printed number is read back, whatever other than a digit follows. -/
theorem atoi_signedDecimal (value : ℤ) {stop : Char} (rest : List Char)
    (hstop : stop.isDigit = false) :
    atoi (signedDecimal value ++ stop :: rest) = value := by
  unfold signedDecimal
  split
  · rename_i hnegative
    have hminus : isSpace '-' = false := rfl
    have hvalue := leadingNumber_decimal value.natAbs rest hstop
    simp only [List.cons_append, atoi, List.dropWhile_cons, hminus,
      Bool.false_eq_true, if_false, hvalue]
    omega
  · rename_i hpositive
    obtain ⟨digit, digits, hdigits⟩ := List.exists_cons_of_ne_nil (decimal_ne_nil value.natAbs)
    have hdigit : digit.isDigit = true := isDigit_of_mem_decimal (hdigits ▸ List.mem_cons_self)
    have hvalue := leadingNumber_decimal value.natAbs rest hstop
    have hspace := not_isSpace_of_isDigit hdigit
    rw [hdigits, List.cons_append] at hvalue ⊢
    simp only [atoi, List.dropWhile_cons, hspace, Bool.false_eq_true, if_false]
    split
    · rename_i hminus
      cases hminus
      cases hdigit
    · rename_i hplus
      cases hplus
      cases hdigit
    · rw [hvalue]
      omega

end GrapheneLtp.Decimal
