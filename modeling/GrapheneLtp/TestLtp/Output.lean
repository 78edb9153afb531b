import GrapheneLtp.Core.PyText

/-!
# Reading the output of a test

`test_ltp.py` runs one LTP test and decides from its output whether the test
has passed.  The run itself is left out: the model starts from the captured
standard output and error output.
-/

namespace GrapheneLtp.TestLtp

open GrapheneLtp.PyText

/-- The environment of the script: the interpreter, and whether `SGX` is set
to one. -/
structure Script where
  py : Interpreter
  sgxMode : Bool

section Woken

variable (py : Interpreter)

/-- The expression `woken up early .* \[\d+\,\d+\]`. -/
def wokenString : List Item :=
  literal "woken up early ".toList ++ .star anyChar :: literal " [".toList ++
    .plus (digitClass py) :: literal ",".toList ++
      .plus (digitClass py) :: literal "]".toList

/-- The body of the loop of `woken_up_valid_check`: whether the entry is one
that ends the loop with `False`, if it has numbers at all. -/
def wokenEntry (entry : List Char) : Except PyError (Option Bool) :=
  let findNum := findall [.plus (digitClass py)] entry
  if findNum = [] then .ok none
  else do
    let numList ← findNum.mapM (int py)
    match numList with
    | numList1 :: numList2 :: _ =>
      return some (numList1 > 50000 && numList2 > 50000)
    | _ => .error .indexError

def wokenLoop : List (List Char) → (flagWokenIssue : Bool) → Except PyError (Option Bool)
  | [], flagWokenIssue => .ok (if flagWokenIssue then some true else none)
  | entry :: entries, flagWokenIssue => do
      match ← wokenEntry py entry with
      | none => wokenLoop entries flagWokenIssue
      | some true => return some false
      | some false => wokenLoop entries true

/-- `woken_up_valid_check`; `none` is the `None` that falls out of its end. -/
def wokenUpValidCheck (wokenStringResult : List (List Char)) : Except PyError (Option Bool) :=
  if wokenStringResult ≠ [] then wokenLoop py wokenStringResult false
  else .ok (some true)

end Woken

/-- The sets of subtests, and the number of the current one. -/
structure Tally where
  passed : Finset ℕ
  failed : Finset ℕ
  conf : Finset ℕ
  subtest : ℕ
  deriving DecidableEq

def Tally.empty : Tally := ⟨∅, ∅, ∅, 0⟩

def warningLine : List Char :=
  "WARNING: no physical memory support, process creation may be slow.".toList

/-- The lines that get a number. -/
def counted (line : List Char) : Bool :=
  line != warningLine && 2 ≤ (split line).length && !isIn "INFO".toList line

def saysPass (line : List Char) : Bool :=
  isIn "TPASS".toList line || isIn "PASS:".toList line

def saysFail (line : List Char) : Bool :=
  ["TFAIL".toList, "FAIL:".toList, "TBROK".toList, "BROK:".toList].any
    fun t => isIn t line

def saysConf (line : List Char) : Bool :=
  isIn "TCONF".toList line || isIn "CONF".toList line

/-- The tests that are forgiven for reporting nothing under SGX. -/
def forgiven (script : Script) (cmd : List (List Char)) (line : List Char) :
    Bool :=
  script.sgxMode &&
    (cmd.head? == some "getppid02".toList ||
      cmd.head? == some "getpid01".toList) &&
    isIn "TBROK: Test haven't reported results".toList line

/-- The number of the subtest that a line is about. -/
def nextSubtest (py : Interpreter) (subtest : ℕ) (line : List Char) : Except PyError ℕ :=
  match (split line)[1]? with
  | some token => if isdigit py token then int py token else .ok (subtest + 1)
  | none => .error .indexError

/-- What a numbered line is entered as. -/
def classify (script : Script) (cmd : List (List Char))
    (woken : List (List Char)) (line : List Char) (tally : Tally) :
    Except PyError Tally :=
  let asPassed := { tally with passed := insert tally.subtest tally.passed }
  let asFailed := { tally with failed := insert tally.subtest tally.failed }
  if saysPass line then .ok asPassed
  else if saysFail line && woken = [] then
    .ok (if forgiven script cmd line then asPassed else asFailed)
  else if woken ≠ [] then do
    let wokenUpValid ← wokenUpValidCheck script.py woken
    return if wokenUpValid = some true then asPassed else asFailed
  else if saysConf line then
    .ok { tally with conf := insert tally.subtest tally.conf }
  else .ok tally

/-- The loop of `parse_test_output` over the lines. -/
def parseLines (script : Script) (cmd : List (List Char))
    (woken : List (List Char)) : List (List Char) → Tally → Except PyError Tally
  | [], tally => .ok tally
  | line :: lines, tally =>
    if line = "Summary".toList then .ok tally
    else if !counted line then parseLines script cmd woken lines tally
    else do
      let subtest ← nextSubtest script.py tally.subtest line
      let tally ← classify script cmd woken line
        { tally with subtest := subtest }
      parseLines script cmd woken lines tally

/-- The messages of the error output that are no error of the test. -/
def knownErrors : List (List Char) :=
  ["Mounting file:/proc may expose unsanitized".toList,
    "[P1:T1:]".toList,
    "Failed to read ELF header".toList,
    "Disallowing access to file '/usr/bin/systemd-detect-virt'".toList,
    "Disallowing access to file '/lib64/libnss_nis.so.2'".toList,
    "Disallowing access to file '/usr/lib64/libnss_nis.so.2'".toList,
    "Disallowing access to file '/lib64/libtinfo.so.6'".toList,
    "Disallowing access to file '/usr/lib64/libtinfo.so.6'".toList,
    "Detected deprecated syntax".toList,
    "Mounting file:/dev/cpu_dma_latency may expose unsanitized".toList,
    "Sending IPC process-exit notification failed: ".toList,
    "Failed to send IPC msg".toList,
    "bind: invalid handle returned".toList,
    "Disallowing access to file '/lib/x86_64-linux-gnu/libnss_nis.so.2".toList]

def checkSystemErrorOutputValid (stderr : List Char) : Bool :=
  if isIn "error".toList stderr then
    (splitOn "error:".toList stderr).all fun error =>
      error == [] || knownErrors.any fun known => isIn known error
  else true

/-- What `parse_test_output` returns. -/
structure Report where
  passed : Finset ℕ
  failed : Finset ℕ
  conf : Finset ℕ
  systemErrorOutputValid : Bool
  deriving DecidableEq

def parseTestOutput (script : Script) (stdout stderr : List Char)
    (cmd : List (List Char)) : Except PyError Report := do
  let woken := findall (wokenString script.py) stdout
  let tally ← parseLines script cmd woken (splitlines stdout) .empty
  return { passed := tally.passed
           failed := tally.failed
           conf := tally.conf
           systemErrorOutputValid := checkSystemErrorOutputValid stderr }

/-- The calls of `pytest.fail`, with the sets in their messages. -/
inductive Verdict where
  | failedSubtests (failed : Finset ℕ)
  | onlyTconf (failed : Finset ℕ)
  | invalidErrorOutput
  | failedOrUnknown (subtests : Finset ℕ)
  | specifiesAll
  | allSkipped
  deriving DecidableEq

def checkMustPass (report : Report) (mustPass : Finset ℕ) : Except Verdict Unit :=
  let mustPassPassed := mustPass.filter fun subtest => subtest ∈ report.passed
  let mustPassOther := mustPass.filter fun subtest => subtest ∉ report.passed
  if mustPassOther ≠ ∅ then .error (.failedOrUnknown mustPassOther)
  else if report.failed = ∅ ∧ report.passed = mustPassPassed ∧ report.conf = ∅
  then .error .specifiesAll
  else if report.passed = ∅ ∧ report.conf = ∅ then .error .allSkipped
  else if !report.systemErrorOutputValid then .error .invalidErrorOutput
  else .ok ()

/-- The end of `test_ltp`; a missing `must-pass` is an empty one. -/
def judge (mustPass : Finset ℕ) (report : Report) : Except Verdict Unit :=
  if mustPass = ∅ then
    if report.failed ≠ ∅ then .error (.failedSubtests report.failed)
    else if report.conf ≠ ∅ ∧ report.passed = ∅ then
      .error (.onlyTconf report.failed)
    else if !report.systemErrorOutputValid then .error .invalidErrorOutput
    else .ok ()
  else checkMustPass report mustPass

/-- How a test ends: an exception of the script, or its verdict. -/
def testLtp (script : Script) (mustPass : Finset ℕ) (stdout stderr : List Char)
    (cmd : List (List Char)) : Except PyError (Except Verdict Unit) := do
  let report ← parseTestOutput script stdout stderr cmd
  return judge mustPass report

end GrapheneLtp.TestLtp
