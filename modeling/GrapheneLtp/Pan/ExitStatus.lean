import Mathlib.Tactic
import GrapheneLtp.Pan.Bookkeeping

/-!
# The exit status of ltp-pan and the failures in its log

With `-e` the driver counts the children that `check_pids` reports and hands
the count to `exit()`, which keeps its low byte.  The log also has failures
that are not counted: a command that could not be executed, and a child killed
by a signal after the driver had told it to stop.
-/

namespace GrapheneLtp.Pan

open Collection (CollEntry)

/-- A line that reports a failure.  A log that is not formatted has no result
column, and the status speaks for itself. -/
def LogLine.failed (line : LogLine) : Bool :=
  match line.result with
  | some verdict => verdict == .fail
  | none => line.value != 0 && !(line.kind == .exited && line.value == tconf)

/-- A child that ended badly, and not because it was told to stop. -/
def TagPgrp.countedFailure (slot : TagPgrp) : WaitStatus → Bool
  | .exited code =>
    code != 0 && code != tconf && !(code == 130 && slot.stopping)
  | .signaled _ => !slot.stopping
  | .stopped _ => false
  | .unknown => false

/-- A child was reaped that ended badly, and not because it was told to. -/
def countedFailure (entry : State × Event) : Bool :=
  match entry.2 with
  | .wait _ (.reaped pid status _) =>
    (entry.1.slotOf pid).any fun slot => slot.countedFailure status
  | _ => false

/-- A command could not be executed, or a child was reaped that a signal had
killed after it was told to stop. -/
def uncountedFailure (config : Config) (entry : State × Event) : Bool :=
  match entry.2 with
  | .launch _ (.execFailed status) =>
    status.value != 0 && (config.fmtPrint || !(status.kind == .exited && status.value == tconf))
  | .wait _ (.reaped pid (.signaled _) _) =>
    (entry.1.slotOf pid).any fun slot => slot.stopping
  | _ => false

section Lines

variable {config : Config} (files : Files) (cmd : CollEntry) (kind : Kind) (value : ℕ)

/-- The failures of the log. -/
def Files.failures (files : Files) : ℕ := files.log.countP LogLine.failed

theorem failures_listCommand : (files.listCommand config cmd value).failures = files.failures := by
  unfold Files.listCommand
  split
  · split
    · rfl
    · split <;> rfl
  · rfl

/-- A line adds a failure if its result, or else its status, says so. -/
theorem failures_report (hlog : config.logfile = true) (verdict : Verdict) :
    (files.report config cmd kind value verdict).failures = files.failures +
      if (LogLine.mk cmd kind value (if config.fmtPrint then some verdict else none)).failed
      then 1 else 0 := by
  unfold Files.report Files.failures
  by_cases hformatted : config.fmtPrint = true
  · simp [hlog, hformatted, List.countP_append, List.countP_singleton]
  · simp [hlog, hformatted, List.countP_append, List.countP_singleton]

theorem failed_checkVerdict : (LogLine.mk cmd kind value (if config.fmtPrint then
      some (checkVerdict kind value) else none)).failed =
        (value != 0 && !(kind == .exited && value == tconf)) := by
  by_cases hformatted : config.fmtPrint = true
  · by_cases hconf : kind = .exited ∧ value = tconf
    · simp [LogLine.failed, checkVerdict, hformatted, hconf]
    · by_cases hzero : value = 0
      · simp [LogLine.failed, checkVerdict, hformatted, hzero, tconf]
      · simpa [LogLine.failed, checkVerdict, hformatted, hconf, hzero] using not_and_or.mp hconf
  · simp [LogLine.failed, hformatted]

theorem failed_execVerdict : (LogLine.mk cmd kind value (if config.fmtPrint then
      some (execVerdict value) else none)).failed = (value != 0 && (config.fmtPrint ||
          !(kind == .exited && value == tconf))) := by
  by_cases hformatted : config.fmtPrint = true
  · by_cases hzero : value = 0
    · simp [LogLine.failed, execVerdict, hformatted, hzero]
    · simp [LogLine.failed, execVerdict, hformatted, hzero]
  · simp [LogLine.failed, hformatted]

end Lines

section Statuses

variable (slot : TagPgrp) {status : WaitStatus}

/-- `check_pids` returns an error for the counted failures. -/
theorem err_ne_zero (hended : status.ended = true) :
    (slot.err status != 0) = slot.countedFailure status := by
  obtain ⟨pgrp, stopping, cmd⟩ := slot
  cases status with
  | signaled signal =>
    cases stopping <;>
      simp [TagPgrp.err, statusErr, TagPgrp.interrupted, WaitStatus.kind, TagPgrp.countedFailure]
  | exited code =>
    by_cases hinterrupted : code = 130
    · subst hinterrupted
      cases stopping <;> rfl
    · by_cases hzero : code = 0
      · subst hzero
        cases stopping <;> rfl
      · by_cases hconf : code = tconf
        · subst hconf
          cases stopping <;> rfl
        · simp [TagPgrp.err, statusErr, TagPgrp.interrupted,
            WaitStatus.kind, WaitStatus.value, TagPgrp.countedFailure,
            hinterrupted, hzero, hconf]
  | stopped signal => cases hended
  | unknown => cases hended

/-- The log also reports a child killed after it was told to stop. -/
theorem value_failed (hended : status.ended = true) : (slot.value status != 0 &&
        !(status.kind == .exited && slot.value status == tconf)) =
      (slot.countedFailure status || (status.kind == .signaled && slot.stopping)) := by
  obtain ⟨pgrp, stopping, cmd⟩ := slot
  cases status with
  | signaled signal =>
    have hsignal : signal ≠ 0 := by simpa [WaitStatus.ended] using hended
    cases stopping <;>
      simp [TagPgrp.value, TagPgrp.interrupted, WaitStatus.kind,
        WaitStatus.value, TagPgrp.countedFailure, hsignal]
  | exited code =>
    by_cases hinterrupted : code = 130
    · subst hinterrupted
      cases stopping <;> rfl
    · have hcode : (code == 130) = false := by simpa using hinterrupted
      have hkind : (Kind.exited == Kind.signaled) = false := rfl
      simp [TagPgrp.value, TagPgrp.interrupted, WaitStatus.kind,
        WaitStatus.value, TagPgrp.countedFailure, hcode, hkind, bne]
  | stopped signal => cases hended
  | unknown => cases hended

theorem failures_settle {config : Config} (hlog : config.logfile = true)
    (hended : status.ended = true) (files : Files) :
    (slot.settle config status files).failures = files.failures +
      if slot.countedFailure status ||
        (status.kind == .signaled && slot.stopping) then 1 else 0 := by
  rw [TagPgrp.settle, failures_listCommand, failures_report _ _ _ _ hlog,
    failed_checkVerdict, value_failed slot hended]

end Statuses

section Steps

variable {config : Config} {state next : State} {event : Event}

/-- A wait that is possible only returns a child that has ended. -/
theorem ended_of_step {gone : List ℕ} {pid : ℕ} {status : WaitStatus} {leftover : Bool}
    (hstep : step config state (.wait gone (.reaped pid status leftover)) = some next) :
    pid ∈ state.children ∧ status.ended = true := by
  exact WaitResult.possible_reaped.mp (step_wait_iff.mp hstep).1.2

theorem failing_eq (hstep : step config state event = some next) :
    state.failing event = countedFailure (state, event) := by
  cases event with
  | wait gone result =>
    cases result with
    | reaped pid status leftover =>
      simp only [State.failing, countedFailure]
      cases state.slotOf pid with
      | none => rfl
      | some slot => exact err_ne_zero slot (ended_of_step hstep).2
    | interrupted => rfl
    | noChild => rfl
  | launch draw outcome => rfl
  | leave => rfl
  | handle stopFile gone => rfl
  | drain gone => rfl
  | signal signal => rfl

/-- The log goes up with the failures of both kinds. -/
theorem step_failures (hlog : config.logfile = true) (hconsistent : Consistent config state)
    (hstep : step config state event = some next) :
    next.files.failures = state.files.failures + ((if countedFailure (state, event) then 1 else 0) +
        if uncountedFailure config (state, event) then 1 else 0) := by
  rw [step_files hconsistent hstep]
  cases event with
  | wait gone result =>
    cases result with
    | reaped pid status leftover =>
      have hended := (ended_of_step hstep).2
      obtain ⟨slot, -, hslot, -⟩ := hconsistent.vacate (ended_of_step hstep).1
      simp only [State.filesAfter, countedFailure, uncountedFailure, hslot,
        Option.any_some, failures_settle slot hlog hended]
      congr 1
      cases status with
      | signaled signal =>
        cases hstopping : slot.stopping <;>
          simp [TagPgrp.countedFailure, WaitStatus.kind, hslot, hstopping]
      | exited code =>
        have hkind : (Kind.exited == Kind.signaled) = false := rfl
        simp [WaitStatus.kind, hkind]
      | stopped signal => cases hended
      | unknown => cases hended
    | interrupted => rfl
    | noChild => rfl
  | launch draw outcome =>
    cases outcome with
    | execFailed status =>
      obtain ⟨colle, hcolle, -⟩ := launch_cases (step_launch_iff.mp hstep).2
      simp only [State.filesAfter, hcolle, failures_report _ _ _ _ hlog,
        failed_execVerdict, countedFailure, uncountedFailure]
      simp
    | refused => rfl
    | started pid => rfl
  | leave => rfl
  | handle stopFile gone => rfl
  | drain gone => rfl
  | signal signal => rfl

/-- The driver only goes by `exit()`, which keeps the low byte. -/
theorem step_exited (hstep : step config state event = some next)
    {status : ℕ} (hexited : next.control = .exited status) :
    status = next.exitStat % 256 := by
  cases event with
  | launch draw outcome =>
    rw [step_launch_iff] at hstep
    rw [launch_control hstep.2, hstep.1.1] at hexited
    cases hexited
  | leave =>
    obtain ⟨-, rfl⟩ := step_leave_iff.mp hstep
    unfold leaveSchedule at hexited
    split at hexited
    · cases hexited
    · cases hexited
  | handle stopFile gone =>
    obtain ⟨-, rfl⟩ := step_handle_iff.mp hstep
    cases hexited
  | wait gone result =>
    obtain ⟨-, rfl⟩ := step_wait_iff.mp hstep
    rcases endRound_control with hcontrol | hcontrol
    · cases hcontrol.symm.trans hexited
    · cases hcontrol.symm.trans hexited
  | drain gone =>
    obtain ⟨hdrain, rfl⟩ := step_drain_iff.mp hstep
    rcases drainOrphans_control hdrain with hcontrol | hcontrol
    · cases hcontrol.symm.trans hexited
    · cases hcontrol.symm.trans hexited
      rw [drainOrphans_exitStat]
  | signal signal =>
    obtain ⟨hrunning, rfl⟩ := step_signal_iff.mp hstep
    rw [waitHandler_control] at hexited
    simp [hexited, Control.isExited] at hrunning

end Steps

section Runs

variable {config : Config} {past : List (State × Event)} {state : State}

/-- Along a run the exit status counts the counted failures, and the log has
the failures of both kinds. -/
theorem trace_failures (hlog : config.logfile = true)
    (htrack : config.trackExitStats = true) (htrace : Trace config past state) :
    state.exitStat = past.countP countedFailure ∧
      state.files.failures = past.countP countedFailure + past.countP (uncountedFailure config) ∧
      ∀ status, state.control = .exited status → status = state.exitStat % 256 := by
  induction htrace with
  | initial hstart =>
    subst hstart
    refine ⟨rfl, rfl, ?_⟩
    intro status hexited
    cases hexited
  | step htrace hstep ih =>
    have hconsistent := consistent_reachable htrace.reachable
    obtain ⟨hexit, hfailures, -⟩ := ih
    refine ⟨?_, ?_, fun status => step_exited hstep⟩
    · rw [step_exitStat hconsistent hstep, failing_eq hstep, hexit,
        List.countP_append, List.countP_singleton]
      simp only [htrack, true_and]
    · rw [step_failures hlog hconsistent hstep, hfailures,
        List.countP_append, List.countP_singleton, List.countP_append,
        List.countP_singleton]
      omega

theorem failures_pos_iff (files : Files) :
    (∃ line ∈ files.log, line.failed = true) ↔ 0 < files.failures :=
  List.countP_pos_iff.symm

def test01 : CollEntry := ⟨"test01".toList, "test01 -a".toList, false⟩

/-- One command, one at a time, with the exit status and a formatted log. -/
def singleTest (starts : ℤ) : Config where
  coll := [test01]
  keepActive := 1
  starts := starts
  timed := false
  sequential := true
  hasBrakes := false
  forkInRoad := false
  trackExitStats := true
  fmtPrint := true
  logfile := true
  failcmdfile := false
  tconfcmdfile := false

/-- The events of a command that is started and ends with the status. -/
def testRound (status : WaitStatus) : List Event :=
  [.launch 0 (.started 7), .leave, .handle false [], .wait [] (.reaped 7 status false)]

/-- Where the driver is, and the failures in the log. -/
def State.ending (state : State) : Control × ℕ := (state.control, state.files.failures)

/-- A command that cannot be executed, and 256 failing ones, are in the log
but not in the exit status. -/
theorem exited_misses_failures :
    (runEvents (singleTest 1) [.launch 0 (.execFailed (.exited 2)), .leave,
      .handle false [], .wait [] .noChild, .drain []]).map State.ending = some (.exited 0, 1) ∧
    (runEvents (singleTest 256) ((List.replicate 256 (testRound (.exited 1))).flatten ++
        [.drain []])).map State.ending = some (.exited 0, 256) := by
  decide +kernel

/-- The exit status is zero exactly for runs without a failure in the log, if
and only if the number of counted failures does not vanish in the low byte, or
there is no failure at all. -/
theorem exited_tells_failures (hlog : config.logfile = true)
    (htrack : config.trackExitStats = true) (htrace : Trace config past state)
    {status : ℕ} (hexited : state.control = .exited status) :
    (status ≠ 0 ↔ ∃ line ∈ state.files.log, line.failed = true) ↔
      past.countP countedFailure % 256 ≠ 0 ∨ past.countP countedFailure = 0 ∧
          past.countP (uncountedFailure config) = 0 := by
  obtain ⟨hexit, hfailures, hstatus⟩ := trace_failures hlog htrack htrace
  rw [failures_pos_iff, hfailures, hstatus status hexited, hexit]
  omega

theorem exited_tells_failures_singleTest : ∃ past state, Trace (singleTest 1) past state ∧
      state.control = .exited 1 ∧ past.countP countedFailure % 256 ≠ 0 ∧
        (1 ≠ 0 ↔ ∃ line ∈ state.files.log, line.failed = true) := by
  have hrun : (runEvents (singleTest 1) (testRound (.exited 1) ++ [.drain []])).map State.ending =
        some (.exited 1, 1) := by
    decide +kernel
  obtain ⟨past, state, htrace, hending⟩ := trace_of_runEvents hrun
  have hexited : state.control = .exited 1 := (Prod.mk.inj hending).1
  obtain ⟨hexit, -, hstatus⟩ := trace_failures rfl rfl htrace
  have hcounted : past.countP countedFailure % 256 ≠ 0 := by
    rw [← hexit, ← hstatus 1 hexited]
    exact Nat.one_ne_zero
  exact ⟨past, state, htrace, hexited, hcounted,
    (exited_tells_failures rfl rfl htrace hexited).mpr (.inl hcounted)⟩

end Runs

end GrapheneLtp.Pan
