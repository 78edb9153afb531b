import GrapheneLtp.Core.Fallible
import GrapheneLtp.TestLtp.Failures

/-!
# What a list of subtests that must pass ensures

A test with a `must-pass` list is accepted when the numbers in the list are among
the passed subtests.  A number gets there by a line that reports a pass, or by one
that the script excuses; that another line has reported a failure under the same
number is not looked at.
-/

namespace GrapheneLtp.MustPass

open GrapheneLtp.PyText GrapheneLtp.TestLtp GrapheneLtp.Failures

/-- The lines that get a number, with their numbers. -/
def numbered (py : Interpreter) : List (List Char) → ℕ → List (ℕ × List Char)
  | [], _ => []
  | line :: lines, subtest =>
    if line = "Summary".toList then []
    else if !counted line then numbered py lines subtest
    else match nextSubtest py subtest line with
      | .error _ => []
      | .ok next => (next, line) :: numbered py lines next

/-- A line that is entered as passed although it reports none: a failure that is
forgiven, or any line of an output with early wake-ups that are accepted. -/
def Excuses (script : Script) (cmd woken : List (List Char)) (line : List Char) :
    Prop :=
  saysPass line = false ∧ (woken = [] ∧ saysFail line = true ∧ forgiven script cmd line = true ∨
      woken ≠ [] ∧ wokenUpValidCheck script.py woken = .ok (some true))

section Reports

variable (script : Script) (stdout : List Char) (subtest : ℕ)

def ReportedPassed : Prop := ∃ line, (subtest, line) ∈ numbered script.py (splitlines stdout) 0 ∧
    saysPass line = true

/-- A line that speaks of a failure and of no pass. -/
def ReportedFailed : Prop := ∃ line, (subtest, line) ∈ numbered script.py (splitlines stdout) 0 ∧
    saysPass line = false ∧ saysFail line = true

def Excused (cmd : List (List Char)) : Prop :=
  ∃ line, (subtest, line) ∈ numbered script.py (splitlines stdout) 0 ∧
    Excuses script cmd (wokenMatches script.py stdout) line

end Reports

section Entries

variable {script : Script} {cmd woken : List (List Char)}

/-- One numbered line: it is entered under its number, and as passed if it reports
a pass or is excused. -/
theorem classify_passed {line : List Char} {tally next : Tally}
    (hnext : classify script cmd woken line tally = .ok next) :
    next.subtest = tally.subtest ∧ ∀ subtest, subtest ∈ next.passed ↔
      subtest ∈ tally.passed ∨ subtest = tally.subtest ∧
        (saysPass line = true ∨ Excuses script cmd woken line) := by
  rw [classify] at hnext
  cases hpass : saysPass line with
  | true =>
    rw [if_pos hpass] at hnext
    cases hnext
    simp [or_comm]
  | false =>
    rw [hpass, if_neg Bool.false_ne_true] at hnext
    by_cases hwoken : woken = []
    · cases hfail : saysFail line with
      | true =>
        rw [if_pos (by simp [hfail, hwoken])] at hnext
        cases hnext
        by_cases hforgiven : forgiven script cmd line = true
        · simp [Excuses, hpass, hwoken, hfail, hforgiven, or_comm]
        · simp [Excuses, hpass, hwoken, hfail, hforgiven]
      | false =>
        rw [if_neg (by simp [hfail]), if_neg (not_not.mpr hwoken)] at hnext
        split at hnext <;> cases hnext <;>
          simp [Excuses, hpass, hwoken, hfail]
    · rw [if_neg (by simp [hwoken]), if_pos hwoken] at hnext
      obtain ⟨valid, hvalid, hentered⟩ := Fallible.bind_ok hnext
      cases hentered
      by_cases haccepted : valid = some true
      · simp [Excuses, hpass, hwoken, hvalid, haccepted, or_comm]
      · simp [Excuses, hpass, hwoken, hvalid, haccepted]

/-- The whole loop: the passed subtests are the numbers of the lines that report a
pass or are excused. -/
theorem parseLines_passed {lines : List (List Char)} {tally final : Tally}
    (hfinal : parseLines script cmd woken lines tally = .ok final) (subtest : ℕ) :
    subtest ∈ final.passed ↔ subtest ∈ tally.passed ∨
      ∃ line, (subtest, line) ∈ numbered script.py lines tally.subtest ∧
        (saysPass line = true ∨ Excuses script cmd woken line) := by
  induction lines generalizing tally with
  | nil =>
    cases hfinal
    simp [numbered]
  | cons line lines ih =>
    rw [parseLines] at hfinal
    rw [numbered]
    by_cases hsummary : line = "Summary".toList
    · rw [if_pos hsummary] at hfinal ⊢
      cases hfinal
      simp
    rw [if_neg hsummary] at hfinal ⊢
    by_cases hcounted : (!counted line) = true
    · rw [if_pos hcounted] at hfinal ⊢
      exact ih hfinal
    rw [if_neg hcounted] at hfinal ⊢
    obtain ⟨number, hnumber, hrest⟩ := Fallible.bind_ok hfinal
    obtain ⟨next, hnext, hlines⟩ := Fallible.bind_ok hrest
    obtain ⟨hsubtest, hpassed⟩ := classify_passed hnext
    rw [hnumber, ih hlines, hpassed, hsubtest, or_assoc]
    simp only [List.mem_cons, Prod.mk.injEq, or_and_right, exists_or,
      and_assoc, exists_and_left, exists_eq_left]

end Entries

/-- A test that is not failed by the list: its numbers are passed ones. -/
theorem subset_passed_of_checkMustPass {report : Report} {mustPass : Finset ℕ}
    (hcheck : checkMustPass report mustPass = .ok ()) :
    mustPass ⊆ report.passed := by
  rw [checkMustPass] at hcheck
  split at hcheck
  · cases hcheck
  · rename_i hnone
    intro subtest hsubtest
    by_contra hunpassed
    apply hnone
    exact Finset.ne_empty_of_mem (Finset.mem_filter.mpr ⟨hsubtest, hunpassed⟩)

/-- Two subtests, of which the second one fails. -/
def mixedOutput : List Char :=
  "getpid01 1 TPASS: first\ngetpid01 2 TFAIL: second\n".toList

theorem numbered_mixedOutput : numbered direct.py (splitlines mixedOutput) 0 =
      [(1, "getpid01 1 TPASS: first".toList),
        (2, "getpid01 2 TFAIL: second".toList)] := by
  decide +kernel

/-- Under SGX, with a broken subtest that is forgiven. -/
def forgivenOutput : List Char :=
  "getpid01 1 TBROK: Test haven't reported results\ngetpid01 2 TPASS: ok\n".toList

/-- One number with a pass and a failure. -/
def repeatedOutput : List Char :=
  "getpid01 1 TPASS: first\ngetpid01 1 TFAIL: again\n".toList

end GrapheneLtp.MustPass
