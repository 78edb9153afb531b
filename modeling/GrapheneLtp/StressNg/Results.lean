import Mathlib.Tactic
import GrapheneLtp.Core.PyText

/-!
# Results of stress-ng logs

`tests_stressng.py` sorts the tests of a log into passed and failed ones.  A
log of a clean run is taken as a whole; in every other log the tests are the
sections after `starting stressors`, and the one with an `error` failed.  The
condition under which both lists together are the tests of the log is exact.
-/

namespace GrapheneLtp.StressNg

open GrapheneLtp.PyText

section Code

/-- An item of a list of results: the number of a test, or a list of such
numbers. -/
inductive Item where
  | number (test : ℕ)
  | numbers (tests : List ℕ)
deriving DecidableEq, Repr

/-- `test_results`, a `defaultdict(list)`: a key that is not set stands for an
empty list. -/
structure TestResults where
  pass : List Item
  fail : List Item
deriving DecidableEq, Repr

def totalTestList : List (List Char × ℕ) :=
  [("hdd.log".toList, 15), ("seek.log".toList, 7), ("seek-hdd.log".toList, 4),
    ("interrupt.log".toList, 5), ("interrupt_all.log".toList, 11),
    ("filesystem.log".toList, 12), ("filesystem_all.log".toList, 12),
    ("scheduler.log".toList, 7), ("scheduler_all.log".toList, 7)]

/-- `os.path.basename`. -/
def basename (path : List Char) : List Char := (path.reverse.takeWhile fun c => c != '/').reverse

def saysCompleted (text : List Char) : Bool :=
  isIn "successful run completed".toList text

def saysError (text : List Char) : Bool :=
  isIn "error".toList text

/-- The text of a run without errors. -/
def clean (fContents : List Char) : Bool := saysCompleted fContents && !saysError fContents

/-- `sub_tests` without the content before the first test.  A split text has a
first part, so that `pop(0)` does not fail. -/
def subTests (fContents : List Char) : List (List Char) :=
  (splitOn "starting stressors".toList fContents).tail

/-- The loop over the sections, which numbers them and collects those with an
error. -/
def failLoop : List (List Char) → (testNumber : ℕ) → TestResults → TestResults
  | [], _, testResults => testResults
  | tests :: rest, testNumber, testResults =>
    failLoop rest (testNumber + 1) (if saysError tests then
        { testResults with
          fail := testResults.fail ++ [.number (testNumber + 1)] }
      else testResults)

/-- The body of the loop over the numbers of the tests. -/
def passStep (testResults : TestResults) (i : ℕ) : TestResults :=
  if Item.number (i + 1) ∈ testResults.fail then testResults
  else { testResults with pass := testResults.pass ++ [.number (i + 1)] }

/-- `parse_test_logs`.  There is no result for a log that is not in the table:
the total is then `None`, from which no range can be built. -/
def parseTestLogs (logFile fContents : List Char) : Option TestResults :=
  match totalTestList.lookup (basename logFile) with
  | none => none
  | some total =>
    if clean fContents then
      some ⟨[.numbers ((List.range total).map fun i => i + 1)], []⟩
    else if subTests fContents ≠ [] then
      some ((List.range total).foldl passStep (failLoop (subTests fContents) 0 ⟨[], []⟩))
    else some ⟨[], (List.range' 1 total).map .number⟩

end Code

section Loops

/-- The numbers of the sections with an error, counted from `start`. -/
def failedTests (sections : List (List Char)) (start : ℕ) : List ℕ :=
  ((sections.zipIdx start).filter fun entry => saysError entry.1).map Prod.snd

theorem failLoop_eq (sections : List (List Char)) (testNumber : ℕ) (testResults : TestResults) :
    failLoop sections testNumber testResults =
      { testResults with
        fail := testResults.fail ++ (failedTests sections (testNumber + 1)).map .number } := by
  induction sections generalizing testNumber testResults with
  | nil => simp [failLoop, failedTests]
  | cons tests rest ih =>
    rw [failLoop, ih]
    cases herror : saysError tests with
    | true => simp [failedTests, List.zipIdx_cons, herror]
    | false => simp [failedTests, List.zipIdx_cons, herror]

theorem foldl_passStep (indices : List ℕ) (testResults : TestResults) :
    indices.foldl passStep testResults =
      { testResults with
        pass := testResults.pass ++ ((indices.map fun i => i + 1).filter
          fun test => Item.number test ∉ testResults.fail).map .number } := by
  induction indices generalizing testResults with
  | nil => simp
  | cons i rest ih =>
    rw [List.foldl_cons, ih]
    by_cases hfail : Item.number (i + 1) ∈ testResults.fail
    · simp [passStep, hfail]
    · simp [passStep, hfail]

theorem mem_map_number {test : ℕ} {tests : List ℕ} :
    Item.number test ∈ tests.map .number ↔ test ∈ tests :=
  List.mem_map_of_injective fun _ _ heq => Item.number.inj heq

/-- The tests that are not among the failed ones. -/
def passedTests (total : ℕ) (failed : List ℕ) : List ℕ :=
  ((List.range total).map fun i => i + 1).filter fun test => test ∉ failed

theorem mem_passedTests {total test : ℕ} {failed : List ℕ} : test ∈ passedTests total failed ↔
      (1 ≤ test ∧ test ≤ total) ∧ test ∉ failed := by
  have hrange : test ∈ (List.range total).map (fun i => i + 1) ↔ 1 ≤ test ∧ test ≤ total := by
    simp only [List.mem_map, List.mem_range]
    constructor
    · rintro ⟨i, hi, rfl⟩
      omega
    · rintro ⟨hone, htotal⟩
      exact ⟨test - 1, by omega, by omega⟩
  simp [passedTests, hrange]

variable {logFile fContents : List Char} {total : ℕ}

/-- The result for a text with sections that is not clean. -/
theorem parseTestLogs_sections (hknown : totalTestList.lookup (basename logFile) = some total)
    (hclean : clean fContents = false) (hsections : subTests fContents ≠ []) :
    parseTestLogs logFile fContents =
      some ⟨(passedTests total (failedTests (subTests fContents) 1)).map .number,
        (failedTests (subTests fContents) 1).map .number⟩ := by
  simp only [parseTestLogs, hknown, hclean, Bool.false_eq_true, if_false,
    hsections, ne_eq, not_false_eq_true, if_true, failLoop_eq, foldl_passStep,
    List.nil_append, mem_map_number, passedTests, Nat.zero_add]

end Loops

section Classification

/-- Both lists hold numbers of tests, no test is in both, together they are the
tests of the log, and there is a failed one unless the run was completed. -/
def Classifies (total : ℕ) (fContents : List Char) (testResults : TestResults) :
    Prop :=
  ∃ passed failed : List ℕ, testResults = ⟨passed.map .number, failed.map .number⟩ ∧
      passed.Disjoint failed ∧
      (∀ test, test ∈ passed ∨ test ∈ failed ↔ 1 ≤ test ∧ test ≤ total) ∧
      (saysCompleted fContents = false → failed ≠ [])

/-- The text is not clean, every section with an error has the number of a
test, and there is one, or no section at all, unless the run was completed. -/
def Attributable (total : ℕ) (fContents : List Char) : Prop := clean fContents = false ∧
    (∀ entry ∈ (subTests fContents).zipIdx 1, saysError entry.1 = true → entry.2 ≤ total) ∧
    (saysCompleted fContents = true ∨ subTests fContents = [] ∨
      ∃ tests ∈ subTests fContents, saysError tests = true)

instance (total : ℕ) (fContents : List Char) : Decidable (Attributable total fContents) := by
  unfold Attributable
  infer_instance

theorem classifies_number_iff {total : ℕ} {fContents : List Char} (passed failed : List ℕ) :
    Classifies total fContents ⟨passed.map .number, failed.map .number⟩ ↔ passed.Disjoint failed ∧
      (∀ test, test ∈ passed ∨ test ∈ failed ↔ 1 ≤ test ∧ test ≤ total) ∧
      (saysCompleted fContents = false → failed ≠ []) := by
  constructor
  · rintro ⟨passed', failed', heq, hclassifies⟩
    have hinjective : Function.Injective (List.map Item.number) :=
      List.map_injective_iff.mpr fun _ _ hitem => Item.number.inj hitem
    obtain rfl := hinjective (TestResults.mk.inj heq).1
    obtain rfl := hinjective (TestResults.mk.inj heq).2
    exact hclassifies
  · intro hclassifies
    exact ⟨passed, failed, rfl, hclassifies⟩

/-- A list of numbers is not a number. -/
theorem not_classifies_numbers {total : ℕ} {fContents : List Char}
    {tests : List ℕ} {fail : List Item} :
    ¬Classifies total fContents ⟨[.numbers tests], fail⟩ := by
  rintro ⟨passed, failed, heq, -⟩
  cases passed with
  | nil => cases heq
  | cons test rest => cases heq

theorem failedTests_eq_nil_iff {sections : List (List Char)} {start : ℕ} :
    failedTests sections start = [] ↔ ∀ tests ∈ sections, saysError tests = false := by
  induction sections generalizing start with
  | nil => simp [failedTests]
  | cons tests rest ih =>
    unfold failedTests at ih ⊢
    cases herror : saysError tests with
    | true => simp [List.zipIdx_cons, herror]
    | false => simpa [List.zipIdx_cons, herror] using ih

/-- The sections have numbers from `start` on. -/
theorem le_of_mem_failedTests {sections : List (List Char)} {start test : ℕ}
    (htest : test ∈ failedTests sections start) : start ≤ test := by
  obtain ⟨entry, hentry, rfl⟩ := List.mem_map.mp htest
  exact List.le_snd_of_mem_zipIdx (List.mem_of_mem_filter hentry)

theorem failedTests_le_iff {sections : List (List Char)} {start total : ℕ} :
    (∀ test ∈ failedTests sections start, test ≤ total) ↔ ∀ entry ∈ sections.zipIdx start,
        saysError entry.1 = true → entry.2 ≤ total := by
  simp only [failedTests, List.forall_mem_map, List.mem_filter, and_imp]

/-- The two lists of a text with sections. -/
theorem classifies_passedTests_iff {total : ℕ} {fContents : List Char}
    {failed : List ℕ} (hone : ∀ test ∈ failed, 1 ≤ test) :
    Classifies total fContents ⟨(passedTests total failed).map .number, failed.map .number⟩ ↔
      (∀ test ∈ failed, test ≤ total) ∧
      (saysCompleted fContents = false → failed ≠ []) := by
  rw [classifies_number_iff]
  constructor
  · rintro ⟨-, hunion, hfailed⟩
    exact ⟨fun test htest => ((hunion test).mp (.inr htest)).2, hfailed⟩
  · rintro ⟨htotal, hfailed⟩
    refine ⟨fun test hpassed => (mem_passedTests.mp hpassed).2, ?_, hfailed⟩
    intro test
    rw [mem_passedTests]
    constructor
    · rintro (hpassed | hmem)
      · exact hpassed.1
      · exact ⟨hone test hmem, htotal test hmem⟩
    · intro hrange
      by_cases hmem : test ∈ failed
      · exact .inr hmem
      · exact .inl ⟨hrange, hmem⟩

theorem total_pos {name : List Char} {total : ℕ}
    (hknown : totalTestList.lookup name = some total) : 0 < total := by
  have hall : ∀ entry ∈ totalTestList, 0 < entry.2 := by
    simp [totalTestList]
  obtain ⟨before, after, hsplit, -⟩ := List.lookup_eq_some_iff.mp hknown
  exact hall (name, total) (by simp [hsplit])

/-- Without sections all tests failed. -/
theorem classifies_all_failed {total : ℕ} {fContents : List Char} (htotal : 0 < total) :
    Classifies total fContents ⟨[], (List.range' 1 total).map .number⟩ := by
  refine ⟨[], _, rfl, List.disjoint_nil_left _, fun test => ?_, fun _ => ?_⟩
  · simp only [List.not_mem_nil, false_or, List.mem_range'_1]
    omega
  · simpa using htotal.ne'

/-- The lists are a classification of the tests of the log exactly under the
condition. -/
theorem parseTestLogs_classifies_iff (logFile fContents : List Char) {total : ℕ}
    (hknown : totalTestList.lookup (basename logFile) = some total) :
    (∃ testResults, parseTestLogs logFile fContents = some testResults ∧
        Classifies total fContents testResults) ↔
      Attributable total fContents := by
  cases hclean : clean fContents with
  | true =>
    have hresult : parseTestLogs logFile fContents =
        some ⟨[.numbers ((List.range total).map fun i => i + 1)], []⟩ := by
      simp only [parseTestLogs, hknown, hclean, if_true]
    simp [hresult, not_classifies_numbers, Attributable, hclean]
  | false =>
    by_cases hsections : subTests fContents = []
    · have hresult : parseTestLogs logFile fContents =
          some ⟨[], (List.range' 1 total).map .number⟩ := by
        simp [parseTestLogs, hknown, hclean, hsections]
      simp [hresult, classifies_all_failed (total_pos hknown), Attributable, hclean, hsections]
    · have hone : ∀ test ∈ failedTests (subTests fContents) 1, 1 ≤ test :=
        fun test htest => le_of_mem_failedTests htest
      simp only [parseTestLogs_sections hknown hclean hsections,
        Option.some.injEq, exists_eq_left', classifies_passedTests_iff hone,
        failedTests_le_iff, ne_eq, failedTests_eq_nil_iff, Attributable,
        hclean, hsections, false_or, true_and]
      cases saysCompleted fContents <;> simp

/-- A log in which the second of four tests failed. -/
def failedLog : List Char :=
  ("starting stressors a starting stressors b error starting stressors c " ++
    "starting stressors d successful run completed").toList

theorem parseTestLogs_classifies_failedLog : ∃ testResults,
      parseTestLogs "seek-hdd.log".toList failedLog = some testResults ∧
        Classifies 4 failedLog testResults :=
  (parseTestLogs_classifies_iff _ failedLog (by decide +kernel)).mpr (by decide +kernel)

/-- The passed tests of a clean run are one item of the list; a section behind
the last test is counted; and a run that was not completed may have no failed
test. -/
theorem parseTestLogs_misclassifies :
    parseTestLogs "seek-hdd.log".toList "successful run completed".toList =
        some ⟨[.numbers [1, 2, 3, 4]], []⟩ ∧
      ¬Classifies 4 "successful run completed".toList
        ⟨[.numbers [1, 2, 3, 4]], []⟩ ∧
      parseTestLogs "seek-hdd.log".toList "starting stressors".toList =
        some ⟨[.number 1, .number 2, .number 3, .number 4], []⟩ ∧
      ¬Classifies 4 "starting stressors".toList
        ⟨[.number 1, .number 2, .number 3, .number 4], []⟩ ∧
      parseTestLogs "seek-hdd.log".toList (failedLog ++ failedLog) =
        some ⟨[.number 1, .number 3, .number 4], [.number 2, .number 6]⟩ ∧
      ¬Classifies 4 (failedLog ++ failedLog)
        ⟨[.number 1, .number 3, .number 4], [.number 2, .number 6]⟩ := by
  refine ⟨by decide +kernel, not_classifies_numbers, by decide +kernel, ?_,
    by decide +kernel, ?_⟩
  · intro hclassifies
    have hfailed := ((classifies_number_iff [1, 2, 3, 4] []).mp hclassifies).2.2
    exact hfailed (by decide +kernel) rfl
  · intro hclassifies
    have hunion := ((classifies_number_iff [1, 3, 4] [2, 6]).mp hclassifies).2.1
    exact absurd ((hunion 6).mp (by decide)).2 (by decide)

end Classification

end GrapheneLtp.StressNg
