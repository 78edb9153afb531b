import GrapheneLtp.Core.Decimal
import GrapheneLtp.Core.Transition

/-!
# Reading the output of a command

`exec_shell_popen` in `utils.py` starts a command, reads its output line by line and
gives the collected text to `write_log`.  After each line it asks whether the command
has ended, and if so it stops: lines that are still in the pipe are lost.
-/

namespace GrapheneLtp.ShellOutput

open Decimal Transition

section Model

/-- A line of the command, without its end.  A carriage return would end a line, too. -/
structure Line where
  text : List Char
  unbroken : ∀ c ∈ text, c ≠ '\n' ∧ c ≠ '\r'

/-- The time of day. -/
structure Time where
  hour : ℕ
  minute : ℕ
  second : ℕ

def twoDigits (value : ℕ) : List Char := List.leftpad 2 '0' (decimal value)

/-- The format `%H:%M:%S`. -/
def Time.text (time : Time) : List Char :=
  twoDigits time.hour ++ ':' :: twoDigits time.minute ++ ':' :: twoDigits time.second

inductive Ending where
  | exited (code : ℤ)
  | killed
  deriving DecidableEq, Repr

inductive Reader where
  | readline
  | poll
  | returned (log : List Char)
  deriving DecidableEq, Repr

/-- `written` and `pipe` are the lines that the command has written and those that
have not been read, and `processOutput` is the variable of that name. -/
structure State where
  written : List Line
  pipe : List Line
  ending : Option Ending
  processOutput : List Char
  reader : Reader

inductive Actor where
  | child
  | timer
  | reader
  deriving DecidableEq, Repr

/-- What is added to the output after a call of `readline`. -/
def entry (time : Time) (output : List Char) : List Char := time.text ++ " : ".toList ++ output

def notice (time : Time) : List Char :=
  "\n the process got terminated at ".toList ++ time.text ++ ['\n']

/-- At the start the command has written nothing. -/
def Initial (state : State) : Prop :=
  state.written = [] ∧ state.pipe = [] ∧ state.ending = none ∧ state.processOutput = [] ∧
    state.reader = .readline

/-- The steps.  `readline` waits while the pipe is empty and the command runs; at the
end of the output it returns an empty string. -/
inductive Step (timeout : ℕ) : Actor → State → State → Prop where
  | write {state : State} (line : Line) (hruns : state.ending = none) :
    Step timeout .child state
      { state with written := state.written ++ [line], pipe := state.pipe ++ [line] }
  | exit {state : State} (code : ℤ) (hruns : state.ending = none) :
    Step timeout .child state { state with ending := some (.exited code) }
  | kill {state : State} (htimeout : timeout ≠ 0) (hruns : state.ending = none) :
    Step timeout .timer state { state with ending := some .killed }
  | readline {state : State} {line : Line} {pipe : List Line} (time : Time)
    (hreader : state.reader = .readline) (hpipe : state.pipe = line :: pipe) :
    Step timeout .reader state
      { state with
        pipe := pipe
        processOutput := state.processOutput ++ entry time (line.text ++ ['\n'])
        reader := .poll }
  | readlineEnd {state : State} (time : Time) (hreader : state.reader = .readline)
    (hpipe : state.pipe = []) (hended : state.ending ≠ none) :
    Step timeout .reader state
      { state with
        processOutput := state.processOutput ++ entry time []
        reader := .poll }
  | pollRuns {state : State} (hreader : state.reader = .poll) (hruns : state.ending = none) :
    Step timeout .reader state { state with reader := .readline }
  | pollEnded {state : State} (time : Time) (hreader : state.reader = .poll)
    (hended : state.ending ≠ none) :
    Step timeout .reader state
      { state with reader := .returned (state.processOutput ++ notice time) }

end Model

section Meaning

/-- A text with these lines in it, once and in their order, and nothing else that would
be a line. -/
def Contains (lines : List Line) (text : List Char) : Prop :=
  ∃ gaps rest, gaps.length = lines.length ∧ (∀ gap ∈ gaps, '\n' ∉ gap) ∧ '\n' ∉ rest ∧
    text = (List.zipWith (fun gap line => gap ++ line.text ++ ['\n']) gaps lines).flatten ++ rest

/-- A log of these lines: the text with the lines, and the notice at its end. -/
def Logs (lines : List Line) (log : List Char) : Prop :=
  ∃ text time, Contains lines text ∧ log = text ++ notice time

end Meaning

section Texts

theorem Line.newline_not_mem (line : Line) : '\n' ∉ line.text :=
  fun hmem => (line.unbroken _ hmem).1 rfl

theorem newline_not_mem_twoDigits (value : ℕ) : '\n' ∉ twoDigits value := by
  intro hmem
  rw [twoDigits, List.leftpad, List.mem_append] at hmem
  rcases hmem with hpad | hdigit
  · exact absurd (List.eq_of_mem_replicate hpad) (by decide)
  · exact absurd (isDigit_of_mem_decimal hdigit) (by decide)

theorem newline_not_mem_time (time : Time) : '\n' ∉ time.text := by
  have hhour := newline_not_mem_twoDigits time.hour
  have hminute := newline_not_mem_twoDigits time.minute
  have hsecond := newline_not_mem_twoDigits time.second
  simp [Time.text, hhour, hminute, hsecond]

theorem newline_not_mem_entry (time : Time) : '\n' ∉ entry time [] := by
  have htime := newline_not_mem_time time
  simp [entry, htime]

theorem count_notice (time : Time) : (notice time).count '\n' = 2 := by
  have htime := List.count_eq_zero.mpr (newline_not_mem_time time)
  have hfront : "\n the process got terminated at ".toList.count '\n' = 1 := by decide
  delta notice
  rw [List.count_append, List.count_append, htime, hfront]
  rfl

/-- As many lines as newlines. -/
theorem Contains.count {lines : List Line} {text : List Char} (htext : Contains lines text) :
    text.count '\n' = lines.length := by
  obtain ⟨gaps, rest, hlength, hgaps, hrest, rfl⟩ := htext
  rw [List.count_append, List.count_eq_zero.mpr hrest, Nat.add_zero]
  induction gaps generalizing lines with
  | nil =>
    obtain rfl := List.eq_nil_of_length_eq_zero hlength.symm
    rfl
  | cons gap gaps ih =>
    cases lines with
    | nil => cases hlength
    | cons line lines =>
      obtain ⟨hgap, hothers⟩ := List.forall_mem_cons.mp hgaps
      rw [List.zipWith_cons_cons, List.flatten_cons, List.count_append, List.count_append,
        List.count_append, List.count_eq_zero.mpr hgap,
        List.count_eq_zero.mpr line.newline_not_mem, ih (by simpa using hlength) hothers,
        List.length_cons]
      simp
      omega

theorem contains_nil : Contains [] [] := ⟨[], [], rfl, by simp, by simp, rfl⟩

/-- A line is added behind what stands between the lines. -/
theorem Contains.line {lines : List Line} {text : List Char} (htext : Contains lines text)
    (time : Time) (line : Line) :
    Contains (lines ++ [line]) (text ++ entry time (line.text ++ ['\n'])) := by
  obtain ⟨gaps, rest, hlength, hgaps, hrest, rfl⟩ := htext
  refine ⟨gaps ++ [rest ++ entry time []], [], by simp [hlength], ?_, by simp, ?_⟩
  · intro gap hgap
    rcases List.mem_append.mp hgap with hold | hnew
    · exact hgaps gap hold
    · rw [List.mem_singleton.mp hnew, List.mem_append, not_or]
      exact ⟨hrest, newline_not_mem_entry time⟩
  · rw [List.zipWith_append hlength]
    simp [entry]

theorem Contains.empty {lines : List Line} {text : List Char} (htext : Contains lines text)
    (time : Time) : Contains lines (text ++ entry time []) := by
  obtain ⟨gaps, rest, hlength, hgaps, hrest, rfl⟩ := htext
  refine ⟨gaps, rest ++ entry time [], hlength, hgaps, ?_, by rw [List.append_assoc]⟩
  rw [List.mem_append, not_or]
  exact ⟨hrest, newline_not_mem_entry time⟩

end Texts

section Runs

variable {timeout : ℕ} {state : State}

/-- What has been read is in the output, and the rest is in the pipe.  Once the function
has returned, the command has ended. -/
structure Inv (state : State) : Prop where
  read : ∃ lines, state.written = lines ++ state.pipe ∧ Contains lines state.processOutput
  returned : ∀ log, state.reader = .returned log →
    state.ending ≠ none ∧ ∃ time, log = state.processOutput ++ notice time

theorem inv_initial (hinitial : Initial state) : Inv state := by
  obtain ⟨hwritten, hpipe, -, houtput, hreader⟩ := hinitial
  refine ⟨⟨[], by rw [hwritten, hpipe]; rfl, by rw [houtput]; exact contains_nil⟩, ?_⟩
  intro log hlog
  rw [hreader] at hlog
  cases hlog

theorem Inv.step {actor : Actor} {next : State} (hinv : Inv state)
    (hstep : Step timeout actor state next) : Inv next := by
  obtain ⟨lines, hwritten, hcontains⟩ := hinv.read
  cases hstep with
  | write line hruns =>
    refine ⟨⟨lines, ?_, hcontains⟩, ?_⟩
    · rw [hwritten, List.append_assoc]
    · intro log hlog
      exact absurd hruns (hinv.returned log hlog).1
  | exit code hruns =>
    refine ⟨⟨lines, hwritten, hcontains⟩, fun log hlog => ?_⟩
    exact absurd hruns (hinv.returned log hlog).1
  | kill htimeout hruns =>
    refine ⟨⟨lines, hwritten, hcontains⟩, fun log hlog => ?_⟩
    exact absurd hruns (hinv.returned log hlog).1
  | readline time hreader hpipe =>
    rename_i line pipe
    refine ⟨⟨lines ++ [line], ?_, hcontains.line time line⟩, fun log hlog => by cases hlog⟩
    rw [hwritten, hpipe, List.append_assoc, List.singleton_append]
  | readlineEnd time hreader hpipe hended =>
    exact ⟨⟨lines, hwritten, hcontains.empty time⟩, fun log hlog => by cases hlog⟩
  | pollRuns hreader hruns =>
    exact ⟨⟨lines, hwritten, hcontains⟩, fun log hlog => by cases hlog⟩
  | pollEnded time hreader hended =>
    refine ⟨⟨lines, hwritten, hcontains⟩, fun log hlog => ⟨hended, time, ?_⟩⟩
    exact (Reader.returned.inj hlog).symm

theorem inv_of_reachable (hreachable : Reachable Initial (Step timeout) state) : Inv state :=
  hreachable.invariant (fun _ hinitial => inv_initial hinitial)
    (fun _ _ _ hinv hstep => hinv.step hstep)

/-- The log has the lines that were read. -/
theorem Inv.logs_iff {log : List Char} (hinv : Inv state) (hlog : state.reader = .returned log) :
    Logs state.written log ↔ state.pipe = [] := by
  obtain ⟨lines, hwritten, hcontains⟩ := hinv.read
  obtain ⟨-, time, rfl⟩ := hinv.returned log hlog
  constructor
  · -- The newlines of the log count the lines that were read.
    rintro ⟨text, other, htext, heq⟩
    have hcount := congrArg (List.count '\n') heq
    rw [List.count_append, List.count_append, count_notice, count_notice, hcontains.count,
      htext.count, hwritten, List.length_append] at hcount
    exact List.eq_nil_of_length_eq_zero (by omega)
  · intro hpipe
    rw [hwritten, hpipe, List.append_nil]
    exact ⟨state.processOutput, time, hcontains, rfl⟩

/-- In every interleaving, however the command ends, the log has all its lines, once and in
order, exactly if none was left in the pipe when the end was noticed. -/
theorem execShellPopen_logs_iff {log : List Char}
    (hreachable : Reachable Initial (Step timeout) state) (hlog : state.reader = .returned log) :
    Logs state.written log ↔ state.pipe = [] :=
  (inv_of_reachable hreachable).logs_iff hlog

end Runs

section Interleavings

def start : State := ⟨[], [], none, [], .readline⟩

def noon : Time := ⟨12, 0, 0⟩

def lineOf (c : Char) (hc : c ≠ '\n' ∧ c ≠ '\r') : Line :=
  ⟨[c], by
    intro other hother
    rw [List.mem_singleton.mp hother]
    exact hc⟩

def lineA : Line := lineOf 'a' (by decide)

def lineB : Line := lineOf 'b' (by decide)

theorem reachable_start : Reachable Initial (Step 0) start :=
  .initial ⟨rfl, rfl, rfl, rfl, rfl⟩

/-- The line is read, and then the command ends. -/
def readAll : State :=
  ⟨[lineA], [], some (.exited 0), entry noon (lineA.text ++ ['\n']),
    .returned (entry noon (lineA.text ++ ['\n']) ++ notice noon)⟩

theorem reachable_readAll : Reachable Initial (Step 0) readAll :=
  (((reachable_start.step (.write lineA rfl)).step (.readline noon rfl rfl)).step
    (.exit 0 rfl)).step (.pollEnded noon rfl (by simp))

theorem execShellPopen_logs_line :
    ∃ log, readAll.reader = .returned log ∧ Logs readAll.written log :=
  ⟨_, rfl, (execShellPopen_logs_iff reachable_readAll rfl).mpr rfl⟩

/-- Two lines are written and the command ends before the first one is read. -/
def leftOver : State :=
  ⟨[lineA, lineB], [lineB], some (.exited 0), entry noon (lineA.text ++ ['\n']),
    .returned (entry noon (lineA.text ++ ['\n']) ++ notice noon)⟩

theorem reachable_leftOver : Reachable Initial (Step 0) leftOver :=
  ((((reachable_start.step (.write lineA rfl)).step (.write lineB rfl)).step
    (.exit 0 rfl)).step (.readline noon rfl rfl)).step (.pollEnded noon rfl (by simp))

/-- The second line is lost. -/
theorem execShellPopen_loses_line : ∃ state log code, Reachable Initial (Step 0) state ∧
    state.reader = .returned log ∧ state.ending = some (.exited code) ∧
    ¬Logs state.written log := by
  refine ⟨leftOver, _, 0, reachable_leftOver, rfl, rfl, ?_⟩
  rw [(inv_of_reachable reachable_leftOver).logs_iff rfl]
  exact List.cons_ne_nil _ _

end Interleavings

end GrapheneLtp.ShellOutput
