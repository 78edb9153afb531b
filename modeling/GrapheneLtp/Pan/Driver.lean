import Mathlib.Tactic
import GrapheneLtp.Core.FirstMatch
import GrapheneLtp.Core.Transition
import GrapheneLtp.Pan.Collection

/-!
# The test driver ltp-pan

The main loop of `ltp-pan.c` with `run_child`, `check_pids`, the signal
ratchet and the orphaned process groups, as a state machine.  What the system
decides is an event: how a launch turns out, which child `wait` returns and
with which status, which signals arrive, which process groups are gone.  The
system calls on the active file are taken to succeed, and a wait only ever
reports children that have ended, since the driver does not ask for others.
-/

namespace GrapheneLtp.Pan

open Collection (CollEntry)
open FirstMatch

/-- The signals the driver handles, and the one its ratchet ends with. -/
inductive Signal
  | alrm
  | int
  | term
  | hup
  | usr1
  | usr2
  | kill
deriving DecidableEq, Repr

/-- A status as `wait` returns it. -/
inductive WaitStatus
  | signaled (signal : ℕ)
  | exited (code : ℕ)
  | stopped (signal : ℕ)
  | unknown
deriving DecidableEq, Repr

/-- The word for a status in the log. -/
inductive Kind
  | signaled
  | exited
  | stopped
  | unknown
deriving DecidableEq, Repr

def WaitStatus.kind : WaitStatus → Kind
  | .signaled _ => .signaled
  | .exited _ => .exited
  | .stopped _ => .stopped
  | .unknown => .unknown

/-- The number that goes with the word, `w` and `termid` in the source. -/
def WaitStatus.value : WaitStatus → ℕ
  | .signaled signal => signal
  | .exited code => code
  | .stopped signal => signal
  | .unknown => 0

/-- A child that has ended was killed by a signal or has exited. -/
def WaitStatus.ended : WaitStatus → Bool
  | .signaled signal => signal != 0
  | .exited _ => true
  | .stopped _ => false
  | .unknown => false

/-- The exit code of a test that does not apply here. -/
def tconf : ℕ := 32

/-- The result column of a formatted log. -/
inductive Verdict
  | pass
  | fail
  | conf
deriving DecidableEq, Repr

/-- One line of the log.  Only a formatted log has a result. -/
structure LogLine where
  cmd : CollEntry
  kind : Kind
  value : ℕ
  result : Option Verdict
deriving DecidableEq, Repr

/-- `struct tag_pgrp`: a process group that is watched, if `pgrp` is not 0. -/
structure TagPgrp where
  pgrp : ℕ
  stopping : Bool
  cmd : CollEntry
deriving DecidableEq, Repr

/-- The options, after they have been read. -/
structure Config where
  coll : List CollEntry
  keepActive : ℕ
  starts : ℤ
  timed : Bool
  sequential : Bool
  hasBrakes : Bool
  forkInRoad : Bool
  trackExitStats : Bool
  fmtPrint : Bool
  logfile : Bool
  failcmdfile : Bool
  tconfcmdfile : Bool
deriving DecidableEq, Repr

/-- The default for `starts`; -1 stands for no limit. -/
def Config.startsDefault (config : Config) : ℤ :=
  if config.timed ∧ config.starts = -1 then -1
  else if config.starts = -1 then
    if config.sequential then config.coll.length else 1
  else if config.starts = 0 then -1
  else if config.starts < config.keepActive then config.keepActive
  else config.starts

/-- What the driver writes: the log, the two command files and the counters
of the log's last lines. -/
structure Files where
  log : List LogLine
  failcmd : List CollEntry
  tconfcmd : List CollEntry
  failcnt : ℕ
  tconfcnt : ℕ
deriving DecidableEq, Repr

/-- Where the driver is: in the loop that starts children, after it, before
`check_pids`, behind the main loop, or gone. -/
inductive Control
  | schedule
  | scheduled
  | check
  | drain
  | exited (status : ℕ)
deriving DecidableEq, Repr

def Control.isExited : Control → Bool
  | .exited _ => true
  | _ => false

/-- The variables of the driver.  The last two are not its own: the children
the system has not been asked about, and the commands launched so far. -/
structure State where
  control : Control
  c : ℕ
  stop : ℕ
  goIdle : ℕ
  exitStat : ℕ
  numActive : ℤ
  running : List TagPgrp
  starts : ℤ
  recSignal : Option Signal
  sendSignal : Option Signal
  lastsent : Option Signal
  forkInRoad : Bool
  files : Files
  orphans : List ℕ
  children : List ℕ
  launched : List CollEntry
deriving DecidableEq, Repr

def State.start (config : Config) : State where
  control := .schedule
  c := 0
  stop := 0
  goIdle := 0
  exitStat := 0
  numActive := 0
  running := List.replicate config.keepActive ⟨0, false, [], [], false⟩
  starts := config.startsDefault
  recSignal := none
  sendSignal := none
  lastsent := none
  forkInRoad := config.forkInRoad
  files := ⟨[], [], [], 0, 0⟩
  orphans := []
  children := []
  launched := []

section Signals

/-- What `wait_handler` sends on after `lastsent`; some signals leave
`send_signal` as it is. -/
def ratchet (lastsent sendSignal : Option Signal) (signal : Signal) : Option Signal :=
  if lastsent = none then some signal
  else if lastsent = some .usr1 then some .int
  else if lastsent = some signal then some .term
  else if lastsent = some .term then some .hup
  else if lastsent = some .hup then some .kill
  else sendSignal

/-- `wait_handler` called with a signal. -/
def waitHandler (signal : Signal) (state : State) : State :=
  if signal = .usr2 then { state with recSignal := some .usr2 }
  else
    let sendSignal := ratchet state.lastsent state.sendSignal signal
    { state with
      recSignal := some signal
      sendSignal := sendSignal
      lastsent := sendSignal }

/-- `check_orphans`: the groups that are empty by now are forgotten. -/
def checkOrphans (gone : List ℕ) (state : State) : State :=
  { state with orphans := state.orphans.filter fun pgrp => pgrp ∉ gone }

/-- `propagate_signal`: every watched group is told, and marked. -/
def propagateSignal (gone : List ℕ) (state : State) : State :=
  let marked := state.running.map fun slot =>
    if slot.pgrp = 0 then slot else { slot with stopping := true }
  { checkOrphans gone { state with running := marked } with
    recSignal := none
    sendSignal := none }

end Signals

section Reporting

/-- The result `check_pids` prints for a child. -/
def checkVerdict (kind : Kind) (value : ℕ) : Verdict :=
  if kind = .exited ∧ value = tconf then .conf
  else if value ≠ 0 then .fail
  else .pass

/-- The result `run_child` prints for a child that was not executed. -/
def execVerdict (value : ℕ) : Verdict :=
  if value ≠ 0 then .fail else .pass

/-- One line for the log, if there is one.  The counters go with the results
of a formatted log. -/
def Files.report (config : Config) (files : Files) (cmd : CollEntry)
    (kind : Kind) (value : ℕ) (verdict : Verdict) : Files :=
  if config.logfile then
    if config.fmtPrint then
      { files with
        log := files.log ++ [⟨cmd, kind, value, some verdict⟩]
        failcnt := files.failcnt + if verdict = .fail then 1 else 0
        tconfcnt := files.tconfcnt + if verdict = .conf then 1 else 0 }
    else { files with log := files.log ++ [⟨cmd, kind, value, none⟩] }
  else files

/-- The command goes to one of the command files. -/
def Files.listCommand (config : Config) (files : Files) (cmd : CollEntry) (value : ℕ) : Files :=
  if value ≠ 0 then
    if config.tconfcmdfile ∧ value = tconf then
      { files with tconfcmd := files.tconfcmd ++ [cmd] }
    else if config.failcmdfile then
      { files with failcmd := files.failcmd ++ [cmd] }
    else files
  else files

end Reporting

section Children

/-- How `run_child` ends: the pipe, the output file or the process could not
be had, the child could not execute the command, or it runs. -/
inductive Launch
  | refused
  | execFailed (status : WaitStatus)
  | started (pid : ℕ)
deriving DecidableEq, Repr

/-- `run_child` returns a process number. -/
def Launch.active : Launch → Bool
  | .refused => false
  | .execFailed _ => false
  | .started _ => true

/-- The system gives a new process a number that no child has. -/
def Launch.possible (state : State) : Launch → Bool
  | .refused => true
  | .execFailed status => status.ended
  | .started pid => pid != 0 && !state.children.contains pid

/-- `run_child` in the first free slot. -/
def runChild (config : Config) (state : State) (colle : CollEntry) : Launch → Option State
  | .refused => some state
  | .execFailed status =>
    some { state with
      files := state.files.report config colle status.kind status.value (execVerdict status.value)
      launched := state.launched ++ [colle] }
  | .started pid =>
    (replaceFirst (fun slot => slot.pgrp == 0)
      (fun _ => ⟨pid, false, colle⟩) state.running).map fun result =>
        { state with
          running := result.2
          children := pid :: state.children
          launched := state.launched ++ [colle] }

/-- What `wait` returns.  `leftover` tells whether the child's process group
still has members. -/
inductive WaitResult
  | interrupted
  | noChild
  | reaped (pid : ℕ) (status : WaitStatus) (leftover : Bool)
deriving DecidableEq, Repr

/-- A wait is interrupted by a signal, it fails without children, and it
returns a child that has ended. -/
def WaitResult.possible (state : State) : WaitResult → Bool
  | .interrupted => state.recSignal.isSome
  | .noChild => state.children.isEmpty
  | .reaped pid status _ => state.children.contains pid && status.ended

/-- What a status counts for in `check_pids` before the slot is known. -/
def statusErr : WaitStatus → ℤ
  | .signaled _ => 0
  | .exited code => if code ≠ 0 ∧ code ≠ tconf then 1 else 0
  | .stopped _ => 1
  | .unknown => 1

/-- The child was told to stop and exited as a shell does for SIGINT. -/
def TagPgrp.interrupted (slot : TagPgrp) (status : WaitStatus) : Bool :=
  status.value == 130 && slot.stopping && status.kind == .exited

/-- The value after the compensation for an interrupted child. -/
def TagPgrp.value (slot : TagPgrp) (status : WaitStatus) : ℕ :=
  if slot.interrupted status then 0 else status.value

/-- What `check_pids` returns for the child of a slot. -/
def TagPgrp.err (slot : TagPgrp) (status : WaitStatus) : ℤ :=
  statusErr status - (if slot.interrupted status then 1 else 0) +
    if status.kind = .signaled ∧ slot.stopping = false then 1 else 0

/-- The child of a slot goes into the log and the command files. -/
def TagPgrp.settle (config : Config) (slot : TagPgrp) (status : WaitStatus)
    (files : Files) : Files :=
  (files.report config slot.cmd status.kind (slot.value status)
    (checkVerdict status.kind (slot.value status))).listCommand config slot.cmd (slot.value status)

/-- A child is no longer active once it has ended. -/
def activeAfter (numActive : ℤ) (status : WaitStatus) : ℤ :=
  if status.kind = .signaled ∨ status.kind = .exited then numActive - 1
  else numActive

/-- `check_pids` once `wait` has returned a child. -/
def reap (config : Config) (state : State) (pid : ℕ) (status : WaitStatus)
    (leftover : Bool) : State × ℤ :=
  let state := { state with
    numActive := activeAfter state.numActive status
    children := state.children.erase pid }
  match replaceFirst (fun slot => slot.pgrp == pid)
      (fun slot => { slot with pgrp := 0 }) state.running with
  | none => (state, statusErr status)
  | some (slot, running) =>
    ({ state with
        running := running
        files := slot.settle config status state.files
        orphans := if leftover then pid :: state.orphans else state.orphans },
      slot.err status)

/-- `check_pids` and what it returns. -/
def checkPids (config : Config) (state : State) (gone : List ℕ) : WaitResult → State × ℤ
  | .interrupted => (checkOrphans gone state, 0)
  | .noChild => (checkOrphans gone state, 0)
  | .reaped pid status leftover =>
    reap config (checkOrphans gone state) pid status leftover

end Children

section MainLoop

/-- The condition of the loop that starts children, with the `break` at its
head. -/
def State.wantsChild (config : Config) (state : State) : Bool :=
  decide (state.numActive < config.keepActive) && decide (state.starts ≠ 0) &&
    !(decide (state.stop ≠ 0) || state.recSignal.isSome ||
      decide (state.goIdle ≠ 0))

def State.hasSlot (state : State) : Bool := state.running.any fun slot => slot.pgrp == 0

/-- The loop is left; with no slot for a child it is left by the abort. -/
def leaveSchedule (config : Config) (state : State) : State :=
  if state.wantsChild config then
    { waitHandler .int state with
      exitStat := state.exitStat + 1
      control := .scheduled }
  else { state with control := .scheduled }

/-- The bookkeeping of the loop after `run_child`, which returned a process
number if `active`. -/
def afterLaunch (config : Config) (active : Bool) (state : State) : State :=
  { state with
    numActive := if active then state.numActive + 1 else state.numActive
    starts := if (active ∨ config.sequential) ∧ 0 < state.starts then
      state.starts - 1 else state.starts
    c := if config.sequential then
      if state.c + 1 ≥ config.coll.length then 0 else state.c + 1
      else state.c }

/-- The index of the next command.  Without `sequential` it is drawn. -/
def State.pick (config : Config) (state : State) (draw : ℕ) : ℕ :=
  if config.sequential then state.c else draw % config.coll.length

/-- One round of the loop. -/
def launch (config : Config) (state : State) (draw : ℕ) (outcome : Launch) : Option State :=
  match config.coll[state.pick config draw]? with
  | none => none
  | some colle =>
    (runChild config { state with c := state.pick config draw } colle
      outcome).map (afterLaunch config outcome.active)

/-- The end of the starts, or the stop file where there is none. -/
def countStop (stopFile : Bool) (state : State) : State :=
  if state.starts = 0 then { state with stop := state.stop + 1 }
  else if state.starts = -1 ∧ stopFile then
    { state with stop := state.stop + 1 }
  else state

/-- After a failure or a signal the driver idles or stops. -/
def idleOrStop (state : State) : State :=
  if state.forkInRoad then { state with goIdle := state.goIdle + 1 }
  else { state with stop := state.stop + 1 }

/-- The signal that has arrived is acted on. -/
def handleSignal (gone : List ℕ) (state : State) : State :=
  match state.recSignal with
  | none => state
  | some .usr2 =>
    { idleOrStop state with recSignal := none, sendSignal := none }
  | some .usr1 =>
    idleOrStop (propagateSignal gone { state with forkInRoad := false })
  | some _ => idleOrStop (propagateSignal gone state)

/-- The failure that `check_pids` returned is counted. -/
def countFailure (config : Config) (state : State) : State :=
  { state with
    goIdle := if state.forkInRoad then state.goIdle + 1 else state.goIdle
    exitStat := if config.trackExitStats then state.exitStat + 1
      else state.exitStat }

/-- With brakes a failure stops everything, as a signal would. -/
def afterFailure (config : Config) (state : State) : State :=
  if config.hasBrakes then waitHandler .int (countFailure config state)
  else countFailure config state

/-- The end of a round of the main loop. -/
def endRound (state : State) : State :=
  if state.stop ≠ 0 ∧ state.numActive = 0 then
    { state with control := .drain }
  else if state.goIdle ≠ 0 ∧ state.numActive = 0 then
    { state with goIdle := 0, lastsent := none, control := .schedule }
  else { state with control := .schedule }

/-- What `check_pids` returned is acted on. -/
def afterCheck (config : Config) (checked : State × ℤ) : State :=
  if checked.2 = 0 then checked.1 else afterFailure config checked.1

/-- `check_pids` and the rest of the round. -/
def checkRound (config : Config) (state : State) (gone : List ℕ) (result : WaitResult) : State :=
  endRound (afterCheck config (checkPids config state gone result))

/-- One look at the orphaned groups behind the main loop.  The argument of
`exit()` is cut to its low byte. -/
def drainOrphans (gone : List ℕ) (state : State) : State :=
  if state.orphans = [] then
    { state with control := .exited (state.exitStat % 256) }
  else
    propagateSignal gone (if state.recSignal = none then waitHandler .int state else state)

end MainLoop

/-- What happens next. -/
inductive Event
  | launch (draw : ℕ) (outcome : Launch)
  | leave
  | handle (stopFile : Bool) (gone : List ℕ)
  | wait (gone : List ℕ) (result : WaitResult)
  | drain (gone : List ℕ)
  | signal (signal : Signal)
deriving DecidableEq, Repr

/-- The next state, if the event can happen in this one. -/
def step (config : Config) (state : State) : Event → Option State
  | .launch draw outcome =>
    if state.control = .schedule ∧ state.wantsChild config ∧ state.hasSlot ∧
        outcome.possible state then
      launch config state draw outcome
    else none
  | .leave =>
    if state.control = .schedule ∧ ¬(state.wantsChild config ∧ state.hasSlot) then
      some (leaveSchedule config state)
    else none
  | .handle stopFile gone =>
    if state.control = .scheduled then
      some { handleSignal gone (countStop stopFile state) with
        control := .check }
    else none
  | .wait gone result =>
    if state.control = .check ∧ result.possible state then
      some (checkRound config state gone result)
    else none
  | .drain gone =>
    if state.control = .drain then some (drainOrphans gone state) else none
  | .signal signal =>
    if state.control.isExited ∨ signal = .kill then none
    else some (waitHandler signal state)

/-! ## When an event can happen, and what it leads to -/

section Events

variable {config : Config} {state next : State}

theorem step_launch_iff {draw : ℕ} {outcome : Launch} :
    step config state (.launch draw outcome) = some next ↔
      (state.control = .schedule ∧ state.wantsChild config ∧ state.hasSlot ∧
        outcome.possible state) ∧ launch config state draw outcome = some next :=
  Option.ite_none_right_eq_some

theorem step_leave_iff : step config state .leave = some next ↔
      (state.control = .schedule ∧ ¬(state.wantsChild config ∧ state.hasSlot)) ∧
        leaveSchedule config state = next := by
  rw [step, Option.ite_none_right_eq_some, Option.some.injEq]

theorem step_handle_iff {stopFile : Bool} {gone : List ℕ} :
    step config state (.handle stopFile gone) = some next ↔ state.control = .scheduled ∧
      { handleSignal gone (countStop stopFile state) with control := .check } = next := by
  rw [step, Option.ite_none_right_eq_some, Option.some.injEq]

theorem step_wait_iff {gone : List ℕ} {result : WaitResult} :
    step config state (.wait gone result) = some next ↔
      (state.control = .check ∧ result.possible state) ∧
        checkRound config state gone result = next := by
  rw [step, Option.ite_none_right_eq_some, Option.some.injEq]

theorem step_drain_iff {gone : List ℕ} : step config state (.drain gone) = some next ↔
      state.control = .drain ∧ drainOrphans gone state = next := by
  rw [step, Option.ite_none_right_eq_some, Option.some.injEq]

theorem step_signal_iff {signal : Signal} : step config state (.signal signal) = some next ↔
      ¬(state.control.isExited ∨ signal = .kill) ∧ waitHandler signal state = next := by
  rw [step, Option.ite_none_left_eq_some, Option.some.injEq]

theorem WaitResult.possible_noChild : WaitResult.noChild.possible state ↔ state.children = [] :=
  List.isEmpty_iff

theorem WaitResult.possible_reaped {pid : ℕ} {status : WaitStatus} {leftover : Bool} :
    (WaitResult.reaped pid status leftover).possible state ↔
      pid ∈ state.children ∧ status.ended = true := by
  rw [WaitResult.possible, Bool.and_eq_true, List.contains_iff_mem]

end Events

/-- The runs of the driver. -/
def Step (config : Config) (event : Event) (state next : State) : Prop :=
  step config state event = some next

/-- The state after these events, if they can happen one after the other. -/
def runEvents (config : Config) (events : List Event) : Option State :=
  (Transition.replay (step config) (State.start config) events).map Prod.snd

abbrev Trace (config : Config) := Transition.Trace (· = State.start config) (Step config)

abbrev Reachable (config : Config) := Transition.Reachable (· = State.start config) (Step config)

end GrapheneLtp.Pan
