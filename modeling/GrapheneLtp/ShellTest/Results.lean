import GrapheneLtp.Core.Decimal

/-!
# Results of a shell test

A model of the part of `testcases/lib/tst_test.sh` that reports results: `tst_res`,
`tst_brk`, `_tst_do_exit` with `_tst_do_cleanup`, and `_tst_run_test`.  The functions
of a test are known by the commands that they run in the main shell.  `TST_DO_EXIT` is
set by `_tst_do_exit`, which does not return, so the commands that find it set are
those of the functions named `exiting` here.

`_tst_run_test` finds out that a function reported nothing by comparing three counters
that are printed without anything between them.  The counters only grow, and so do the
lengths of their texts.
-/

namespace GrapheneLtp.ShellTest

open Decimal

section Code

/-- The first argument of `tst_res` and `tst_brk`. -/
inductive ResType where
  | tpass
  | tfail
  | tbrok
  | twarn
  | tconf
  | tinfo
  | invalid (text : String)
deriving DecidableEq, Repr

/-- A call of the library in a function of the test, with its message. -/
inductive Command where
  | res (type : ResType) (text : String)
  | brk (type : ResType) (text : String)
deriving DecidableEq, Repr

structure Counters where
  pass : ℕ
  fail : ℕ
  brok : ℕ
  warn : ℕ
  conf : ℕ
deriving DecidableEq, Repr

/-- `_tst_inc_res`, but for an invalid type, for which it calls `tst_brk`. -/
def Counters.incRes (counters : Counters) : ResType → Counters
  | .tpass => { counters with pass := counters.pass + 1 }
  | .tfail => { counters with fail := counters.fail + 1 }
  | .tbrok => { counters with brok := counters.brok + 1 }
  | .twarn => { counters with warn := counters.warn + 1 }
  | .tconf => { counters with conf := counters.conf + 1 }
  | .tinfo | .invalid _ => counters

/-- A variable that names a function: it is not set, it names nothing that there is, or
it names a function. -/
inductive Hook where
  | unset
  | undefined (name : String)
  | defined
deriving DecidableEq, Repr

/-- The variables that the test sets.  `fields` is the number of data that
`TST_TEST_DATA` is cut into. -/
structure Setting where
  setup : Hook
  cleanup : Hook
  noCleanup : Bool
  iterations : ℕ
  cnt : ℕ
  fields : Option ℕ
deriving DecidableEq, Repr

/-- What is run: a step of the library, or a function of the test.  The cleanup function
is entered by `_tst_do_exit` or by `_tst_run_iterations`. -/
inductive Kind where
  | library
  | setup
  | test (i : ℕ)
  | cleanup (exiting : Bool)
deriving DecidableEq, Repr

structure Entry where
  kind : Kind
  body : List Command
deriving DecidableEq, Repr

/-- The variables of the library, how many functions have been entered since the test
began, and which of them in the current call of `_tst_run_iterations`. -/
structure State where
  counters : Counters
  count : ℕ
  doCleanup : Bool
  entered : ℕ
  trace : List Entry
deriving DecidableEq, Repr

/-- How a command ends: it returns, or the shell exits after a `tst_brk` with some
text. -/
inductive Outcome where
  | returned (state : State)
  | exited (text : String) (status : ℕ) (state : State)
deriving DecidableEq, Repr

def Outcome.andThen : Outcome → (State → Outcome) → Outcome
  | returned state, next => next state
  | exited text status state, _ => exited text status state

def State.report (state : State) (type : ResType) : State :=
  { state with counters := state.counters.incRes type }

def State.enter (state : State) (kind : Kind) (body : List Command) : State :=
  { state with entered := state.entered + 1, trace := state.trace ++ [⟨kind, body⟩] }

/-- A command when `TST_DO_EXIT` is set: `tst_brk` only warns. -/
def exitingCommand (state : State) : Command → State
  | .res (.invalid _) _ => state.report .twarn
  | .res type _ => state.report type
  | .brk _ _ => state.report .twarn

/-- The value that `_tst_do_exit` exits with. -/
def exitStatus (counters : Counters) : ℕ :=
  (if counters.fail > 0 then 1 else 0) ||| (if counters.brok > 0 then 2 else 0) |||
    (if counters.warn > 0 then 4 else 0) |||
      (if counters.conf > 0 ∧ counters.pass = 0 then 32 else 0)

-- `world n` is what the function does that is entered as the one with the number `n`.
variable (world : ℕ → List Command) (setting : Setting)

def runExiting (kind : Kind) (state : State) : State :=
  (world state.entered).foldl exitingCommand (state.enter kind (world state.entered))

/-- The condition of `_tst_do_cleanup`. -/
def wantsCleanup (state : State) : Bool :=
  state.doCleanup && setting.cleanup != .unset && !setting.noCleanup

/-- `_tst_do_cleanup` in `_tst_do_exit`. -/
def exitingCleanup (state : State) : State :=
  let after := if wantsCleanup setting state then
      if setting.cleanup = .defined then runExiting world (.cleanup true) state
      else state.report .twarn
    else state
  { after with doCleanup := false }

/-- `_tst_do_exit`.  What it does after the cleanup is a step of the library. -/
def doExit (text : String) (state : State) : Outcome :=
  let after := runExiting world .library (exitingCleanup world setting state)
  .exited text (exitStatus after.counters) after

/-- `tst_brk` when `TST_DO_EXIT` is not set. -/
def tstBrk (type : ResType) (text : String) (state : State) : Outcome :=
  match type with
  | .invalid name =>
    doExit world setting ("Invalid res type '" ++ name ++ "'") (state.report .tbrok)
  | type => doExit world setting text (state.report type)

def runCommand (state : State) : Command → Outcome
  | .res (.invalid name) _ =>
    tstBrk world setting .tbrok ("Invalid res type '" ++ name ++ "'") state
  | .res type _ => .returned (state.report type)
  | .brk type text => tstBrk world setting type text state

def runBody : List Command → State → Outcome
  | [], state => .returned state
  | command :: rest, state => (runCommand world setting state command).andThen (runBody rest)

def run (kind : Kind) (state : State) : Outcome :=
  runBody world setting (world state.entered) (state.enter kind (world state.entered))

/-- `_tst_resstr`. -/
def resStr (counters : Counters) : List Char :=
  decimal counters.pass ++ decimal counters.fail ++ decimal counters.conf

/-- `_tst_rescmp`. -/
def resCmp (before : List Char) (state : State) : Outcome :=
  if before = resStr state.counters then
    tstBrk world setting .tbrok "Test didn't report any results" state
  else .returned state

/-- `_tst_run_test`. -/
def runTest (i : ℕ) (state : State) : Outcome :=
  let res := resStr state.counters
  (run world setting (.test i) state).andThen fun after =>
    (resCmp world setting res after).andThen fun after =>
      .returned { after with count := after.count + 1 }

end Code

section Returning

/-- A command that ends the test when it is not ending already. -/
def Command.breaks : Command → Bool
  | .res (.invalid _) _ => true
  | .res _ _ => false
  | .brk _ _ => true

/-- The type that a command reports. -/
def Command.type : Command → ResType
  | .res type _ => type
  | .brk type _ => type

variable {world : ℕ → List Command} {setting : Setting}

theorem runCommand_of_not_breaks (state : State) {command : Command}
    (hreturns : command.breaks = false) :
    runCommand world setting state command = .returned (state.report command.type) := by
  cases command with
  | res type text => cases type <;> first | rfl | cases hreturns
  | brk type text => cases hreturns

theorem runBody_of_not_breaks {body : List Command} (state : State)
    (hreturns : ∀ command ∈ body, command.breaks = false) :
    runBody world setting body state =
      .returned (body.foldl (fun state command => state.report command.type) state) := by
  induction body generalizing state with
  | nil => rfl
  | cons command body ih =>
    rw [runBody, runCommand_of_not_breaks state (hreturns command List.mem_cons_self)]
    exact ih _ fun other hother => hreturns other (List.mem_cons_of_mem _ hother)

/-- The counters after some reports. -/
theorem foldl_report (body : List Command) (state : State) :
    (body.foldl (fun state command => state.report command.type) state).counters =
      body.foldl (fun counters command => counters.incRes command.type) state.counters := by
  induction body generalizing state with
  | nil => rfl
  | cons command body ih => exact ih (state.report command.type)

/-- Each counter grows by the number of its reports. -/
theorem foldl_incRes (body : List Command) (counters : Counters) :
    (body.foldl (fun counters command => counters.incRes command.type) counters).pass =
        counters.pass + body.countP (fun command => command.type = .tpass) ∧
    (body.foldl (fun counters command => counters.incRes command.type) counters).fail =
        counters.fail + body.countP (fun command => command.type = .tfail) ∧
    (body.foldl (fun counters command => counters.incRes command.type) counters).conf =
        counters.conf + body.countP (fun command => command.type = .tconf) := by
  induction body generalizing counters with
  | nil => exact ⟨rfl, rfl, rfl⟩
  | cons command body ih =>
    obtain ⟨hpass, hfail, hconf⟩ := ih (counters.incRes command.type)
    simp only [List.foldl_cons, hpass, hfail, hconf, List.countP_cons]
    cases command.type <;> simp [Counters.incRes] <;> omega

end Returning

section Text

theorem length_decimal_mono {small large : ℕ} (hle : small ≤ large) :
    (decimal small).length ≤ (decimal large).length := by
  have hpos : 0 < (decimal large).length := List.length_pos_iff.mpr (decimal_ne_nil large)
  have hlarge : large < 10 ^ (decimal large).length :=
    (Nat.length_toDigits_le_iff (by decide) hpos).mp le_rfl
  exact length_decimal_le hpos (hle.trans_lt hlarge)

/-- Counters that have grown and still have the same text have not grown: the lengths of
their texts can only grow too, so the texts are cut at the same places. -/
theorem resStr_injective {before after : Counters} (hpass : before.pass ≤ after.pass)
    (hfail : before.fail ≤ after.fail) (hconf : before.conf ≤ after.conf)
    (htext : resStr before = resStr after) :
    before.pass = after.pass ∧ before.fail = after.fail ∧ before.conf = after.conf := by
  have hlength := congrArg List.length htext
  simp only [resStr, List.length_append] at hlength
  have hpassLength := length_decimal_mono hpass
  have hfailLength := length_decimal_mono hfail
  have hconfLength := length_decimal_mono hconf
  obtain ⟨hfront, hconfText⟩ := List.append_inj htext (by simp only [List.length_append]; omega)
  obtain ⟨hpassText, hfailText⟩ := List.append_inj hfront (by omega)
  exact ⟨decimal_injective hpassText, decimal_injective hfailText, decimal_injective hconfText⟩

end Text

section Main

variable {world : ℕ → List Command} {setting : Setting}

/-- The results that `_tst_run_test` looks for. -/
def ResType.isResult (type : ResType) : Prop := type = .tpass ∨ type = .tfail ∨ type = .tconf

/-- The texts are equal exactly when none of the three was reported. -/
theorem resStr_foldl_iff (body : List Command) (counters : Counters) :
    resStr counters =
        resStr (body.foldl (fun counters command => counters.incRes command.type) counters) ↔
      ∀ command ∈ body, ¬command.type.isResult := by
  obtain ⟨hpass, hfail, hconf⟩ := foldl_incRes body counters
  constructor
  · intro htext
    obtain ⟨hpassSame, hfailSame, hconfSame⟩ :=
      resStr_injective (by omega) (by omega) (by omega) htext
    have hnone (type : ResType) (hzero : body.countP (fun command => command.type = type) = 0) :
        ∀ command ∈ body, command.type ≠ type := by
      simpa using hzero
    rintro command hcommand (htype | htype | htype)
    · exact hnone .tpass (by omega) command hcommand htype
    · exact hnone .tfail (by omega) command hcommand htype
    · exact hnone .tconf (by omega) command hcommand htype
  · intro hnone
    have hzero (type : ResType) (htype : type.isResult) :
        body.countP (fun command => command.type = type) = 0 := by
      rw [List.countP_eq_zero]
      intro command hcommand heq
      apply hnone command hcommand
      rwa [decide_eq_true_iff.mp heq]
    rw [resStr, resStr, hpass, hfail, hconf, hzero .tpass (.inl rfl),
      hzero .tfail (.inr (.inl rfl)),
      hzero .tconf (.inr (.inr rfl))]
    rfl

/-- Whatever the counters are, a test function that returns is taken to have reported
nothing exactly when it reported no `TPASS`, `TFAIL` or `TCONF`. -/
theorem runTest_breaks_iff (world : ℕ → List Command) (setting : Setting) (i : ℕ) (state : State)
    (hreturns : ∀ command ∈ world state.entered, command.breaks = false) :
    (∃ status after, runTest world setting i state =
        .exited "Test didn't report any results" status after) ↔
      ∀ command ∈ world state.entered, ¬command.type.isResult := by
  rw [← resStr_foldl_iff _ state.counters]
  have hcounters := foldl_report (world state.entered)
    (state.enter (.test i) (world state.entered))
  rw [runTest, run, runBody_of_not_breaks _ hreturns]
  simp only [Outcome.andThen, resCmp, hcounters]
  split_ifs with htext
  · exact ⟨fun _ => htext, fun _ => ⟨_, _, rfl⟩⟩
  · constructor
    · rintro ⟨status, after, hexited⟩
      cases hexited
    · intro hsame
      exact absurd hsame htext

/-- Eleven passes and a failure, then a `TBROK` and a `TCONF`. -/
theorem runTest_breaks_eleven :
    (∃ status after, runTest (fun _ => [.res .tbrok "a", .res .tconf "b"])
        ⟨.unset, .unset, false, 1, 1, none⟩ 1 ⟨⟨11, 1, 0, 0, 0⟩, 1, true, 0, []⟩ =
          .exited "Test didn't report any results" status after) ↔
      ∀ command ∈ [Command.res .tbrok "a", .res .tconf "b"], ¬command.type.isResult :=
  runTest_breaks_iff (fun _ => [.res .tbrok "a", .res .tconf "b"])
    ⟨.unset, .unset, false, 1, 1, none⟩ 1 ⟨⟨11, 1, 0, 0, 0⟩, 1, true, 0, []⟩ (by decide)

end Main

end GrapheneLtp.ShellTest
