import Mathlib.Tactic
import GrapheneLtp.Pan.ExitStatus

/-!
# The command files of ltp-pan and its log

The failed-command file and the tconf-command file are meant to hold the
commands whose line in the formatted log says FAIL and CONF.  The tests that
decide where a command goes are not the ones that decide its result, and a
command that could not be executed goes nowhere.
-/

namespace GrapheneLtp.Pan

open Collection (CollEntry)

/-- The commands with this result in the log, in order. -/
def Files.commands (files : Files) (verdict : Verdict) : List CollEntry :=
  (files.log.filter fun line => line.result == some verdict).map LogLine.cmd

/-- The command files hold what the log says. -/
def Files.Agree (config : Config) (files : Files) : Prop := files.failcmd = files.commands .fail ∧
    (config.tconfcmdfile = true → files.tconfcmd = files.commands .conf)

/-- The event is not one of those that the log and the command files take
differently: a command that could not be executed, a child killed by the
signal with the number of TCONF, and an exit with TCONF when there is no file
for it. -/
def listedAlike (config : Config) (entry : State × Event) : Bool :=
  match entry.2 with
  | .launch _ (.execFailed status) => status.value == 0
  | .wait _ (.reaped _ (.signaled signal) _) =>
    !(config.tconfcmdfile && signal == tconf)
  | .wait _ (.reaped _ (.exited code) _) =>
    config.tconfcmdfile || code != tconf
  | _ => true

section Lines

variable {config : Config} (files : Files) (cmd : CollEntry) (kind : Kind) (value : ℕ)

/-- The command, if the condition holds. -/
def listIf (condition : Bool) (cmd : CollEntry) : List CollEntry :=
  if condition then [cmd] else []

theorem append_listIf_inj {first second : List CollEntry} {left right : Bool}
    (hbefore : first = second) :
    first ++ listIf left cmd = second ++ listIf right cmd ↔ left = right := by
  subst hbefore
  cases left <;> cases right <;> simp [listIf]

theorem commands_report (hlog : config.logfile = true)
    (hformatted : config.fmtPrint = true) (verdict wanted : Verdict) :
    (files.report config cmd kind value verdict).commands wanted =
      files.commands wanted ++ listIf (verdict == wanted) cmd := by
  cases hverdict : verdict == wanted <;>
    simp [Files.report, Files.commands, hlog, hformatted, listIf, hverdict, List.filter_append]

theorem commands_listCommand (wanted : Verdict) :
    (files.listCommand config cmd value).commands wanted = files.commands wanted := by
  unfold Files.listCommand
  split
  · split
    · rfl
    · split <;> rfl
  · rfl

theorem report_failcmd (verdict : Verdict) :
    (files.report config cmd kind value verdict).failcmd = files.failcmd := by
  unfold Files.report
  split
  · split <;> rfl
  · rfl

theorem report_tconfcmd (verdict : Verdict) :
    (files.report config cmd kind value verdict).tconfcmd =
      files.tconfcmd := by
  unfold Files.report
  split
  · split <;> rfl
  · rfl

theorem listCommand_failcmd (hfail : config.failcmdfile = true) :
    (files.listCommand config cmd value).failcmd = files.failcmd ++
      listIf (value != 0 && !(config.tconfcmdfile && value == tconf)) cmd := by
  by_cases hzero : value = 0
  · simp [Files.listCommand, hzero, listIf]
  · by_cases htconf : config.tconfcmdfile = true
    · by_cases hvalue : value = tconf
      · simp [Files.listCommand, htconf, hvalue, listIf, tconf]
      · simp [Files.listCommand, hfail, htconf, hzero, hvalue, listIf]
    · simp [Files.listCommand, hfail, htconf, hzero, listIf]

theorem listCommand_tconfcmd (htconf : config.tconfcmdfile = true) :
    (files.listCommand config cmd value).tconfcmd = files.tconfcmd ++
      listIf (value == tconf) cmd := by
  by_cases hvalue : value = tconf
  · simp [Files.listCommand, htconf, hvalue, listIf, tconf]
  · unfold Files.listCommand
    split
    · simp only [htconf, hvalue, and_false, if_false]
      split <;> simp [hvalue, listIf]
    · simp [hvalue, listIf]

end Lines

section Steps

variable {config : Config} {state next : State} {event : Event}

/-- The result of a reaped child and the file its command goes to. -/
theorem agree_settle_iff (hlog : config.logfile = true)
    (hformatted : config.fmtPrint = true) (hfail : config.failcmdfile = true)
    (slot : TagPgrp) (status : WaitStatus) {files : Files}
    (hagree : files.Agree config) :
    (slot.settle config status files).Agree config ↔ (slot.value status != 0 &&
          !(config.tconfcmdfile && slot.value status == tconf)) =
        (checkVerdict status.kind (slot.value status) == .fail) ∧
      (config.tconfcmdfile = true → (slot.value status == tconf) =
        (checkVerdict status.kind (slot.value status) == .conf)) := by
  unfold Files.Agree TagPgrp.settle
  rw [listCommand_failcmd _ _ _ hfail, commands_listCommand,
    commands_listCommand, commands_report _ _ _ _ hlog hformatted,
    commands_report _ _ _ _ hlog hformatted, report_failcmd,
    append_listIf_inj _ hagree.1]
  apply and_congr_right
  intro _
  apply imp_congr_right
  intro htconf
  rw [listCommand_tconfcmd _ _ _ htconf, report_tconfcmd, append_listIf_inj _ (hagree.2 htconf)]

/-- A command that could not be executed is in no command file. -/
theorem agree_execFailed_iff (hlog : config.logfile = true)
    (hformatted : config.fmtPrint = true) (cmd : CollEntry)
    (status : WaitStatus) {files : Files} (hagree : files.Agree config) :
    (files.report config cmd status.kind status.value (execVerdict status.value)).Agree config ↔
        (status.value == 0) = true := by
  have hfail : files.failcmd ++ listIf false cmd = files.commands .fail ++
      listIf (execVerdict status.value == .fail) cmd ↔
        false = (execVerdict status.value == .fail) :=
    append_listIf_inj cmd hagree.1
  have hconf : (execVerdict status.value == .conf) = false := by
    unfold execVerdict
    split <;> rfl
  unfold Files.Agree
  rw [commands_report _ _ _ _ hlog hformatted,
    commands_report _ _ _ _ hlog hformatted, report_failcmd, report_tconfcmd,
    hconf]
  simp only [listIf, Bool.false_eq_true, if_false, List.append_nil] at hfail ⊢
  rw [hfail, and_iff_left hagree.2]
  by_cases hzero : status.value = 0
  · simp [execVerdict, hzero]
  · simp [execVerdict, hzero]

theorem settle_alike_iff (slot : TagPgrp) {status : WaitStatus}
    (hended : status.ended = true) (gone : List ℕ) (pid : ℕ)
    (leftover : Bool) :
    ((slot.value status != 0 && !(config.tconfcmdfile && slot.value status == tconf)) =
        (checkVerdict status.kind (slot.value status) == .fail) ∧
      (config.tconfcmdfile = true → (slot.value status == tconf) =
        (checkVerdict status.kind (slot.value status) == .conf))) ↔
      listedAlike config (state, .wait gone (.reaped pid status leftover)) =
        true := by
  cases status with
  | signaled signal =>
    have hsignal : signal ≠ 0 := by simpa [WaitStatus.ended] using hended
    have hvalue : slot.value (.signaled signal) = signal := by
      simp [TagPgrp.value, TagPgrp.interrupted, WaitStatus.kind, WaitStatus.value]
    rw [hvalue]
    cases htconf : config.tconfcmdfile <;>
      simp [checkVerdict, WaitStatus.kind, listedAlike, hsignal, htconf]
  | exited code =>
    by_cases hzero : slot.value (.exited code) = 0
    · have hother : code ≠ tconf := by
        rintro rfl
        simp [TagPgrp.value, TagPgrp.interrupted, WaitStatus.value, tconf] at hzero
      rw [hzero]
      simp [checkVerdict, listedAlike, tconf]
      exact .inr hother
    · have hvalue : slot.value (.exited code) = code := by
        unfold TagPgrp.value at hzero ⊢
        split
        · rename_i hinterrupted
          simp [hinterrupted] at hzero
        · rfl
      rw [hvalue] at hzero ⊢
      by_cases hconf : code = tconf
      · cases htconf : config.tconfcmdfile <;>
          simp [checkVerdict, WaitStatus.kind, listedAlike, hconf, htconf, tconf]
      · simp [checkVerdict, listedAlike, hconf, hzero]
  | stopped signal => cases hended
  | unknown => cases hended

/-- While the files agree, they go on to agree if and only if the event is not
one of those that are taken differently. -/
theorem step_agree_iff (hlog : config.logfile = true)
    (hformatted : config.fmtPrint = true) (hfail : config.failcmdfile = true)
    (hconsistent : Consistent config state)
    (hstep : step config state event = some next)
    (hagree : state.files.Agree config) :
    next.files.Agree config ↔ listedAlike config (state, event) = true := by
  rw [step_files hconsistent hstep]
  cases event with
  | wait gone result =>
    cases result with
    | reaped pid status leftover =>
      obtain ⟨hpid, hended⟩ := ended_of_step hstep
      obtain ⟨slot, -, hslot, -⟩ := hconsistent.vacate hpid
      simp only [State.filesAfter, hslot]
      rw [agree_settle_iff hlog hformatted hfail slot status hagree]
      exact settle_alike_iff slot hended gone pid leftover
    | interrupted => exact iff_of_true hagree rfl
    | noChild => exact iff_of_true hagree rfl
  | launch draw outcome =>
    cases outcome with
    | execFailed status =>
      obtain ⟨colle, hcolle, -⟩ := launch_cases (step_launch_iff.mp hstep).2
      simp only [State.filesAfter, hcolle]
      exact agree_execFailed_iff hlog hformatted colle status hagree
    | refused => exact iff_of_true hagree rfl
    | started pid => exact iff_of_true hagree rfl
  | leave => exact iff_of_true hagree rfl
  | handle stopFile gone => exact iff_of_true hagree rfl
  | drain gone => exact iff_of_true hagree rfl
  | signal signal => exact iff_of_true hagree rfl

end Steps

section Runs

/-- One command, with a failed-command file. -/
def listedTest (tconfcmdfile : Bool) : Config :=
  { singleTest 1 with failcmdfile := true, tconfcmdfile := tconfcmdfile }

/-- The commands that failed by the log, and by the failed-command file. -/
def State.failedLists (state : State) : List CollEntry × List CollEntry :=
  (state.files.commands .fail, state.files.failcmd)

/-- A command that cannot be executed is not in the failed-command file, nor
is one killed by the signal with the number of TCONF; and without a file for
it an exit with TCONF is. -/
theorem commandFiles_differ :
    (runEvents (listedTest true) [.launch 0 (.execFailed (.exited 2))]).map
        State.failedLists = some ([test01], []) ∧
    (runEvents (listedTest true) (testRound (.signaled 32))).map
        State.failedLists = some ([test01], []) ∧
    (runEvents (listedTest false) (testRound (.exited 32))).map
        State.failedLists = some ([], [test01]) := by
  decide +kernel

variable {config : Config} {past : List (State × Event)} {state : State}

/-- The command files hold what the log says at every point of a run, if and
only if no event of the run is one of those that are taken differently. -/
theorem commandFiles_agree (hlog : config.logfile = true)
    (hformatted : config.fmtPrint = true) (hfail : config.failcmdfile = true)
    (htrace : Trace config past state) :
    ((∀ entry ∈ past, entry.1.files.Agree config) ∧ state.files.Agree config) ↔
      ∀ entry ∈ past, listedAlike config entry = true := by
  induction htrace with
  | initial hstart =>
    subst hstart
    simp [Files.Agree, Files.commands, State.start]
  | step htrace hstep ih =>
    have hconsistent := consistent_reachable htrace.reachable
    simp only [List.mem_append, List.mem_singleton, or_imp, forall_and, forall_eq]
    rw [← ih]
    apply and_congr_right
    intro hbefore
    exact step_agree_iff hlog hformatted hfail hconsistent hstep hbefore.2

theorem commandFiles_agree_listedTest : ∃ past state, Trace (listedTest true) past state ∧
      state.failedLists = ([test01], [test01]) ∧
      (∀ entry ∈ past, listedAlike (listedTest true) entry = true) ∧
      (∀ entry ∈ past, entry.1.files.Agree (listedTest true)) ∧
        state.files.Agree (listedTest true) := by
  have hrun : (Transition.replay (step (listedTest true))
      (State.start (listedTest true)) (testRound (.exited 1))).map
        (fun result => (result.2.failedLists, result.1.all (listedAlike (listedTest true)))) =
      some (([test01], [test01]), true) := by
    decide +kernel
  obtain ⟨⟨past, state⟩, hreplay, hview⟩ := Option.map_eq_some_iff.mp hrun
  obtain ⟨hlists, hall⟩ := Prod.mk.inj hview
  have htrace := trace_of_replay hreplay
  have halike := List.all_eq_true.mp hall
  exact ⟨past, state, htrace, hlists, halike, (commandFiles_agree rfl rfl rfl htrace).mpr halike⟩

end Runs

end GrapheneLtp.Pan
