import Mathlib.Tactic
import GrapheneLtp.Core.CString

/-!
# Numbers as hexadecimal text

Printing numbers as the conversion `%x` does.
-/

namespace GrapheneLtp.Hexadecimal

open CString

/-- The digits of a number, as `%x` prints them. -/
def hex (value : ℕ) : List Char := Nat.toDigits 16 value

/-- A character that `%x` prints. -/
def IsHexDigit (c : Char) : Prop := ∃ digit < 16, c = Nat.digitChar digit

/-- The number that a digit stands for. -/
def digitValue (c : Char) : ℕ :=
  if c.isDigit then c.toNat - '0'.toNat else c.toNat - 'a'.toNat + 10

/-- The number that digits stand for. -/
def hexValue (digits : List Char) : ℕ := digits.foldl (fun value c => value * 16 + digitValue c) 0

theorem digitValue_digitChar : ∀ digit < 16, digitValue (Nat.digitChar digit) = digit := by
  decide

theorem hex_ne_nil (value : ℕ) : hex value ≠ [] := Nat.toDigits_ne_nil

theorem hex_of_lt {value : ℕ} (hsmall : value < 16) : hex value = [Nat.digitChar value] :=
  Nat.toDigits_of_lt_base hsmall

/-- The last digit is set off. -/
theorem hex_of_le {value : ℕ} (hlarge : 16 ≤ value) :
    hex value = hex (value / 16) ++ [Nat.digitChar (value % 16)] :=
  Nat.toDigits_of_base_le (by decide) hlarge

theorem isHexDigit_of_mem_hex {value : ℕ} {c : Char} (hc : c ∈ hex value) : IsHexDigit c := by
  induction value using Nat.strong_induction_on with
  | _ value ih =>
    rcases lt_or_ge value 16 with hsmall | hlarge
    · rw [hex_of_lt hsmall, List.mem_singleton] at hc
      exact ⟨value, hsmall, hc⟩
    · rw [hex_of_le hlarge, List.mem_append, List.mem_singleton] at hc
      rcases hc with hfront | rfl
      · exact ih (value / 16) (by omega) hfront
      · exact ⟨value % 16, Nat.mod_lt value (by decide), rfl⟩

theorem hexValue_hex (value : ℕ) : hexValue (hex value) = value := by
  induction value using Nat.strong_induction_on with
  | _ value ih =>
    rcases lt_or_ge value 16 with hsmall | hlarge
    · rw [hex_of_lt hsmall, hexValue, List.foldl_cons, List.foldl_nil,
        digitValue_digitChar value hsmall]
      omega
    · have hfront := ih (value / 16) (by omega)
      rw [hexValue] at hfront
      rw [hex_of_le hlarge, hexValue, List.foldl_append, hfront, List.foldl_cons,
        List.foldl_nil, digitValue_digitChar _ (Nat.mod_lt value (by decide))]
      omega

theorem hex_injective : Function.Injective hex := Function.LeftInverse.injective hexValue_hex

theorem isHexDigit_ne_colon {c : Char} (hc : IsHexDigit c) : c ≠ ':' := by
  obtain ⟨digit, hdigit, rfl⟩ := hc
  have hdigits : ∀ digit < 16, Nat.digitChar digit ≠ ':' := by decide
  exact hdigits digit hdigit

/-- Numbers with a colon behind them are told apart. -/
theorem hex_append_inj {left right : ℕ} {leftRest rightRest : List Char}
    (heq : hex left ++ ':' :: leftRest = hex right ++ ':' :: rightRest) :
    left = right ∧ leftRest = rightRest := by
  have hdigits (value : ℕ) : ∀ c ∈ hex value, decide (c ≠ ':') = true :=
    fun c hc => decide_eq_true (isHexDigit_ne_colon (isHexDigit_of_mem_hex hc))
  have htake := congrArg (List.takeWhile fun c => decide (c ≠ ':')) heq
  have hdrop := congrArg (List.dropWhile fun c => decide (c ≠ ':')) heq
  rw [takeWhile_append_stop (hdigits left) rfl, takeWhile_append_stop (hdigits right) rfl] at htake
  rw [dropWhile_append_stop (hdigits left) rfl, dropWhile_append_stop (hdigits right) rfl] at hdrop
  exact ⟨hex_injective htake, (List.cons.inj hdrop).2⟩

end GrapheneLtp.Hexadecimal
