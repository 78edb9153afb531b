import GrapheneLtp.TestLtp.Output

/-!
# Which failures are caught

A test reports a failure in a line of its output.  Whether the script sees it
depends on that line and on all the others: a line that also speaks of `INFO`
or of a pass is not counted as a failure, and one message about an early
wake-up anywhere decides about all lines.  The condition under which a failure
is caught is exact.
-/

namespace GrapheneLtp.Failures

open GrapheneLtp.PyText GrapheneLtp.TestLtp

/-- The lines that the script looks at. -/
def beforeSummary (stdout : List Char) : List (List Char) :=
  (splitlines stdout).takeWhile fun line => line != "Summary".toList

/-- A line `file:line: TFAIL: message` or `file:line: TBROK: message`. -/
def ResultLine (line : List Char) : Prop :=
  ∃ file number tag message, number ≠ [] ∧ number.all Char.isDigit = true ∧
    tag ∈ ["TFAIL".toList, "TBROK".toList] ∧
      line = file ++ ":".toList ++ number ++ ": ".toList ++ tag ++
        ": ".toList ++ message

section Conditions

variable (py : Interpreter)

/-- The messages about an early wake-up. -/
def wokenMatches (text : List Char) : List (List Char) := findall (wokenString py) text

/-- A line with such a message that the script accepts. -/
def WokenAccepted (line : List Char) : Prop := wokenMatches py line ≠ [] ∧
    wokenUpValidCheck py (wokenMatches py line) = .ok (some true)

/-- The test has reported a failure before its summary. -/
def FailureReported (stdout : List Char) : Prop :=
  ∃ line ∈ beforeSummary stdout, ResultLine line ∧ ¬ WokenAccepted py line

/-- The second word of a line can be taken for a number when it looks like
one. -/
def Readable (line : List Char) : Prop :=
  ∀ token, (split line)[1]? = some token → isdigit py token = true →
    ∃ subtest, int py token = .ok subtest

/-- The messages about an early wake-up are checked and not accepted. -/
def Refused (woken : List (List Char)) : Prop :=
  ∃ valid, wokenUpValidCheck py woken = .ok valid ∧ valid ≠ some true

/-- A numbered line that is entered as failed. -/
def EntersFailed (woken : List (List Char)) (line : List Char) : Prop := saysPass line = false ∧
    (woken = [] ∧ saysFail line = true ∨ woken ≠ [] ∧ Refused py woken)

/-- The condition: every numbered line can be read, and one of them is entered
as failed. -/
def Unmasked (stdout : List Char) : Prop :=
  (∀ line ∈ beforeSummary stdout, counted line = true → Readable py line) ∧
    ∃ line ∈ beforeSummary stdout, counted line = true ∧
      EntersFailed py (wokenMatches py stdout) line

/-- A line is classified without an exception. -/
def Classified (woken : List (List Char)) (line : List Char) : Prop :=
  saysPass line = true ∨ woken = [] ∨ ∃ valid, wokenUpValidCheck py woken = .ok valid

end Conditions

section Lines

variable {script : Script} {cmd woken : List (List Char)} {line : List Char}

theorem nextSubtest_readable (hcounted : counted line = true) (subtest : ℕ) :
    (∃ next, nextSubtest script.py subtest line = .ok next) ↔ Readable script.py line := by
  have hwords : 1 < (split line).length := by
    simp only [counted, Bool.and_eq_true, decide_eq_true_iff] at hcounted
    omega
  have htoken := List.getElem?_eq_getElem hwords
  simp only [nextSubtest, Readable, htoken, Option.some.injEq, forall_eq']
  by_cases hdigit : isdigit script.py (split line)[1] = true
  · simp [hdigit]
  · simp [hdigit]

/-- One numbered line, outside SGX mode: when it is classified, and when there
are failed subtests behind it. -/
theorem classify_cases (hsgx : script.sgxMode = false) (tally : Tally) :
    (Classified script.py woken line ∧ ∃ next, classify script cmd woken line tally = .ok next ∧
          (next.failed ≠ ∅ ↔ tally.failed ≠ ∅ ∨ EntersFailed script.py woken line)) ∨
      (¬ Classified script.py woken line ∧
        ∃ error, classify script cmd woken line tally = .error error) := by
  have hforgiven : forgiven script cmd line = false := by
    simp [forgiven, hsgx]
  cases hpass : saysPass line with
  | true =>
    left
    refine ⟨.inl hpass, _, by rw [classify, if_pos hpass], ?_⟩
    simp [EntersFailed, hpass]
  | false =>
    by_cases hwoken : woken = []
    · left
      refine ⟨.inr (.inl hwoken), ?_⟩
      cases hfail : saysFail line with
      | true =>
        refine ⟨_, by simp [classify, hpass, hfail, hwoken, hforgiven]; rfl, ?_⟩
        simp [EntersFailed, hpass, hfail, hwoken]
      | false =>
        cases hconf : saysConf line with
        | true =>
          refine ⟨_, by simp [classify, hpass, hfail, hwoken, hconf]; rfl, ?_⟩
          simp [EntersFailed, hfail, hwoken]
        | false =>
          refine ⟨tally, by simp [classify, hpass, hfail, hwoken, hconf], ?_⟩
          simp [EntersFailed, hfail, hwoken]
    · cases hcheck : wokenUpValidCheck script.py woken with
      | error error =>
        right
        refine ⟨by simp [Classified, hpass, hwoken, hcheck], error, ?_⟩
        simp [classify, hpass, hwoken, hcheck, bind, Except.bind]
      | ok valid =>
        left
        refine ⟨.inr (.inr ⟨valid, hcheck⟩), _,
          by simp [classify, hpass, hwoken, hcheck, bind, Except.bind, pure, Except.pure]; rfl, ?_⟩
        by_cases hvalid : valid = some true
        · simp [EntersFailed, Refused, hwoken, hcheck, hvalid]
        · simp [EntersFailed, Refused, hpass, hwoken, hcheck, hvalid]

/-- The whole loop, by induction on the lines: there are failed subtests behind
it if and only if it gets through, and there were some before or a line has
been entered as failed. -/
theorem parseLines_failed (hsgx : script.sgxMode = false)
    {lines : List (List Char)} {tally : Tally} :
    (∃ final, parseLines script cmd woken lines tally = .ok final ∧ final.failed ≠ ∅) ↔
      (∀ line ∈ lines.takeWhile fun line => line != "Summary".toList,
        counted line = true → Readable script.py line ∧ Classified script.py woken line) ∧
      (tally.failed ≠ ∅ ∨
        ∃ line ∈ lines.takeWhile fun line => line != "Summary".toList,
          counted line = true ∧ EntersFailed script.py woken line) := by
  induction lines generalizing tally with
  | nil => simp [parseLines]
  | cons line lines ih =>
    rw [parseLines, List.takeWhile_cons]
    by_cases hsummary : line = "Summary".toList
    · rw [if_pos hsummary, hsummary, bne_self_eq_false]
      simp
    have hgoes : (line != "Summary".toList) = true := by simpa using hsummary
    rw [if_neg hsummary, hgoes, if_pos rfl, List.forall_mem_cons]
    simp only [List.mem_cons, exists_eq_or_imp]
    cases hcounted : counted line with
    | false => simpa using ih
    | true =>
      rw [Bool.not_true, if_neg Bool.false_ne_true]
      have hread := @nextSubtest_readable script line hcounted tally.subtest
      cases hnext : nextSubtest script.py tally.subtest line with
      | error error =>
        have hunread : ¬ Readable script.py line := by
          rw [← hread, hnext]
          simp
        simp [hunread, bind, Except.bind]
      | ok subtest =>
        have hreadable : Readable script.py line := hread.mp ⟨subtest, hnext⟩
        rcases @classify_cases script cmd woken line hsgx
          { tally with subtest := subtest } with
          ⟨hclassified, next, hnext, hfailed⟩ | ⟨hraised, error, herror⟩
        · simp only [bind, Except.bind, hnext, ih, hfailed, hreadable,
            hclassified, and_self, true_and, forall_const, or_assoc]
        · simp [bind, Except.bind, herror, hraised]

end Lines

/-- The script returns a non-empty set of failed subtests, and so a test
without a `must-pass` list fails. -/
def Caught (script : Script) (stdout stderr : List Char) (cmd : List (List Char)) : Prop :=
  ∃ report, parseTestOutput script stdout stderr cmd = .ok report ∧
    report.failed ≠ ∅ ∧ testLtp script ∅ stdout stderr cmd =
      .ok (.error (.failedSubtests report.failed))

theorem caught_iff_failed {script : Script} {stdout stderr : List Char} {cmd : List (List Char)} :
    Caught script stdout stderr cmd ↔ ∃ final, parseLines script cmd (wokenMatches script.py stdout)
        (splitlines stdout) .empty = .ok final ∧ final.failed ≠ ∅ := by
  simp only [Caught, testLtp, parseTestOutput, wokenMatches]
  cases hlines : parseLines script cmd (findall (wokenString script.py) stdout)
    (splitlines stdout) .empty with
  | error error => simp [bind, Except.bind]
  | ok tally =>
    simp only [bind, Except.bind, pure, Except.pure, Except.ok.injEq,
      exists_eq_left', judge, if_true]
    constructor
    · rintro ⟨hfailed, -⟩
      exact hfailed
    · intro hfailed
      exact ⟨hfailed, by rw [if_pos hfailed]⟩

/-- For every output outside SGX mode: a reported failure is caught if and only
if the output of a test that reports one is unmasked. -/
theorem reported_caught_iff {script : Script} (hsgx : script.sgxMode = false)
    (stdout stderr : List Char) (cmd : List (List Char)) :
    (FailureReported script.py stdout → Caught script stdout stderr cmd) ↔
      (FailureReported script.py stdout → Unmasked script.py stdout) := by
  apply imp_congr_right
  intro _
  rw [caught_iff_failed, parseLines_failed hsgx]
  simp only [Tally.empty, ne_eq, not_true_eq_false, false_or, Unmasked, beforeSummary]
  constructor
  · rintro ⟨hall, hfailed⟩
    exact ⟨fun line hline hcounted => (hall line hline hcounted).1, hfailed⟩
  · rintro ⟨hall, line, hline, hcounted, henters⟩
    refine ⟨fun other hother hnumbered => ⟨hall other hother hnumbered, ?_⟩,
      line, hline, hcounted, henters⟩
    rcases henters.2 with ⟨hnone, -⟩ | ⟨-, valid, hcheck, -⟩
    · exact .inr (.inl hnone)
    · exact .inr (.inr ⟨valid, hcheck⟩)

def direct : Script := ⟨asciiPython, false⟩

/-- A line with a failure, as an LTP test prints it. -/
def failLine (file number message : String) : List Char :=
  file.toList ++ ":".toList ++ number.toList ++ ": ".toList ++
    "TFAIL".toList ++ ": ".toList ++ message.toList

theorem failureReported_first {py : Interpreter} {stdout : List Char} {file number message : String}
    (hline : (beforeSummary stdout).head? = some (failLine file number message))
    (hnumber : number.toList ≠ [] ∧ number.toList.all Char.isDigit = true)
    (hwoken : wokenMatches py (failLine file number message) = []) :
    FailureReported py stdout := by
  refine ⟨_, List.mem_of_mem_head? hline, ?_, fun haccepted =>
    haccepted.1 hwoken⟩
  exact ⟨file.toList, number.toList, "TFAIL".toList, message.toList,
    hnumber.1, hnumber.2, List.mem_cons_self, rfl⟩

def plainOutput : List Char := failLine "getpid01.c" "34" "wrong pid"

theorem reported_caught_iff_plain : FailureReported direct.py plainOutput ∧
      Caught direct plainOutput [] ["getpid01".toList] := by
  have hlines : beforeSummary plainOutput =
      [failLine "getpid01.c" "34" "wrong pid"] := by decide +kernel
  have hreported : FailureReported direct.py plainOutput :=
    failureReported_first (by rw [hlines]; rfl) (by decide +kernel) (by decide +kernel)
  refine ⟨hreported, (reported_caught_iff rfl _ _ _).mpr (fun _ => ?_) hreported⟩
  rw [Unmasked, hlines]
  refine ⟨?_, _, List.mem_singleton_self _, by decide +kernel,
    by decide +kernel, .inl (by decide +kernel)⟩
  intro line hline _ token htoken hdigit
  rw [List.mem_singleton.mp hline] at htoken
  have hword : (split (failLine "getpid01.c" "34" "wrong pid"))[1]? =
      some "TFAIL:".toList := by decide +kernel
  rw [hword, Option.some.injEq] at htoken
  rw [← htoken] at hdigit
  exact absurd hdigit (by decide +kernel)

/-- A failure whose message contains `INFO`. -/
def infoOutput : List Char := failLine "ioctl01.c" "52" "TIOCGINFO failed"

/-- A failure next to a message about an early wake-up. -/
def wokenOutput : List Char :=
  failLine "nanosleep01.c" "40" "wrong errno" ++ "\n".toList ++
    failLine "tst_timer_test.c" "292"
      "nanosleep() woken up early 1 times range: [999,999]"

/-- Two tests that report a failure and pass. -/
theorem reported_missed : (FailureReported direct.py infoOutput ∧
        ¬ Caught direct infoOutput [] ["ioctl01".toList] ∧
          testLtp direct ∅ infoOutput [] ["ioctl01".toList] = .ok (.ok ())) ∧
      (FailureReported direct.py wokenOutput ∧
        ¬ Caught direct wokenOutput [] ["nanosleep01".toList] ∧
          testLtp direct ∅ wokenOutput [] ["nanosleep01".toList] =
            .ok (.ok ())) := by
  have hmissed {stdout : List Char} {cmd : List (List Char)}
      (hpass : testLtp direct ∅ stdout [] cmd = .ok (.ok ())) :
      ¬ Caught direct stdout [] cmd := by
    rintro ⟨report, -, -, hfail⟩
    rw [hpass] at hfail
    cases hfail
  have hinfo : testLtp direct ∅ infoOutput [] ["ioctl01".toList] =
      .ok (.ok ()) := by decide +kernel
  have hwoken : testLtp direct ∅ wokenOutput [] ["nanosleep01".toList] =
      .ok (.ok ()) := by decide +kernel
  refine ⟨⟨?_, hmissed hinfo, hinfo⟩, ⟨?_, hmissed hwoken, hwoken⟩⟩
  · exact @failureReported_first _ _ "ioctl01.c" "52" "TIOCGINFO failed"
      (by decide +kernel) (by decide +kernel) (by decide +kernel)
  · exact @failureReported_first _ _ "nanosleep01.c" "40" "wrong errno"
      (by decide +kernel) (by decide +kernel) (by decide +kernel)

end GrapheneLtp.Failures
