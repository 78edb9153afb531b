import GrapheneLtp.Core.Transition
import Mathlib.Data.BitVec

/-!
# The watchdog of the library process

While the test process runs the library process waits for it with an alarm set.
The test process sends a signal at the start of every iteration, and the handler of
that signal sets the alarm anew.  When the alarm expires the process group of the
test is sent `SIGKILL`, and again every five seconds; after ten times in vain the
library process exits.  It counts them in a static variable, which only the signal of a test
sets back, not the start of the next test process.

The timeout is in shared memory, and `tst_set_max_runtime()` lets the test change
it.  Signals are delivered within the second.  A killed test may be gone at any
time, or never; whether a test that was killed still sends signals is left open.
-/

namespace GrapheneLtp.Watchdog

open GrapheneLtp.Transition

abbrev Unsigned := BitVec 32

/-- The value of `TST_UNLIMITED_RUNTIME`. -/
def unlimitedRuntime : Unsigned := -1

inductive Phase
  | waiting
  -- waitpid() has returned
  | reaped
  -- _exit(TFAIL) in alarm_handler
  | gaveUp
  deriving DecidableEq

/-- Where the library process sends `SIGKILL`. -/
inductive Cause
  | alarmHandler
  | sigintHandler
  -- the leftover descendants, behind waitpid()
  | forkTestrun
  deriving DecidableEq

/-- A `SIGKILL` that was sent, with what the alarm was set for. -/
structure Kill where
  cause : Cause
  time : ℕ
  lastBeat : ℕ
  armed : Unsigned
  deriving DecidableEq

structure State where
  clock : ℕ
  maxRuntime : Unsigned
  timeout : Unsigned
  deadline : Option ℕ
  sigkillRetries : ℕ
  beatPending : Bool
  phase : Phase
  -- the last time at which alarm(results->timeout) was called, the timeout then, and what
  -- sigkill_retries was left at
  lastBeat : ℕ
  armed : Unsigned
  carried : ℕ
  kills : List Kill
  deriving DecidableEq

inductive Event
  | tick
  -- heartbeat()
  | heartbeat
  -- tst_set_max_runtime() with the value that multiply_runtime() returns
  | tstSetMaxRuntime (maxRuntime : Unsigned)
  | sigusr1
  | sigalrm
  -- SIGINT or SIGTERM
  | sigint
  -- with whether the leftover descendants are sent SIGKILL
  | waitpid (killsLeftover : Bool)
  -- the next fork_testrun()
  | forkTestrun

section Code

def alarm (clock : ℕ) (seconds : Unsigned) : Option ℕ :=
  if seconds = 0 then none else some (clock + seconds.toNat)

/-- The new value of `results->timeout`; `base` is `tst_multiply_timeout(DEFAULT_TIMEOUT)`.
There is none in the case of `tst_brk()`. -/
def setTimeout (base maxRuntime timeout : Unsigned) : Option Unsigned :=
  if maxRuntime = unlimitedRuntime then some timeout
  else if maxRuntime.toInt < 0 then none
  else some (base + maxRuntime)

def heartbeatHandler (state : State) : State :=
  { state with
    deadline := alarm state.clock state.timeout
    sigkillRetries := 0
    beatPending := false
    lastBeat := state.clock
    armed := state.timeout
    carried := 0 }

/-- `kill(-test_pid, SIGKILL)`. -/
def kill (cause : Cause) (state : State) : State :=
  { state with kills := state.kills ++ [⟨cause, state.clock, state.lastBeat, state.armed⟩] }

def alarmHandler (state : State) : State :=
  { kill .alarmHandler state with
    deadline := alarm state.clock 5
    sigkillRetries := state.sigkillRetries + 1
    phase := if state.sigkillRetries + 1 > 10 then .gaveUp else .waiting }

/-- The alarm is set, and the test process started. -/
def forkTestrun (state : State) : State :=
  { state with
    deadline := alarm state.clock state.timeout
    phase := .waiting
    lastBeat := state.clock
    armed := state.timeout
    carried := state.sigkillRetries }

/-- The end of `fork_testrun()`. -/
def reap (killsLeftover : Bool) (state : State) : State :=
  let state := { state with deadline := none, phase := .reaped }
  if killsLeftover then kill .forkTestrun state else state

def tstSetMaxRuntime (base maxRuntime : Unsigned) (state : State) : State :=
  match setTimeout base maxRuntime state.timeout with
  | none => { state with maxRuntime := maxRuntime }
  | some timeout =>
    { state with maxRuntime := maxRuntime, timeout := timeout, beatPending := true }

def next (base : Unsigned) (state : State) : Event → Option State
  | .tick =>
    if state.phase = .waiting ∧ (state.beatPending ∨ state.deadline = some state.clock) then none
    else some { state with clock := state.clock + 1 }
  | .heartbeat =>
    if state.phase = .waiting then some { state with beatPending := true } else none
  | .tstSetMaxRuntime maxRuntime =>
    if state.phase = .waiting then some (tstSetMaxRuntime base maxRuntime state) else none
  | .sigusr1 =>
    if state.phase = .waiting ∧ state.beatPending then some (heartbeatHandler state) else none
  | .sigalrm =>
    if state.phase = .waiting ∧ state.deadline = some state.clock then some (alarmHandler state)
    else none
  | .sigint => if state.phase = .waiting then some (kill .sigintHandler state) else none
  | .waitpid killsLeftover =>
    if state.phase = .waiting then some (reap killsLeftover state) else none
  | .forkTestrun => if state.phase = .reaped then some (forkTestrun state) else none

/-- The first `fork_testrun()`, after `set_timeout()` in `tst_run_tcases()`. -/
def firstTestrun (maxRuntime timeout : Unsigned) : State where
  clock := 0
  maxRuntime := maxRuntime
  timeout := timeout
  deadline := alarm 0 timeout
  sigkillRetries := 0
  beatPending := false
  phase := .waiting
  lastBeat := 0
  armed := timeout
  carried := 0
  kills := []

def Initial (base maxRuntime : Unsigned) (state : State) : Prop :=
  ∃ timeout, setTimeout base maxRuntime 0 = some timeout ∧ state = firstTestrun maxRuntime timeout

def Step (base : Unsigned) (event : Event) (state later : State) : Prop :=
  next base state event = some later

end Code

section Invariant

variable {base maxRuntime : Unsigned} {state later : State} {event : Event}

/-- The time of the alarm. -/
def State.due (state : State) : ℕ :=
  state.lastBeat + state.armed.toNat + 5 * (state.sigkillRetries - state.carried)

/-- A `SIGKILL` is sent when the alarm has expired, or a multiple of five seconds
later. -/
def Kill.Due (kill : Kill) : Prop :=
  kill.armed ≠ 0 ∧ ∃ again ≤ 10, kill.time = kill.lastBeat + kill.armed.toNat + 5 * again

/-- The `SIGKILL` of the alarm handler so many times five seconds after the alarm has
expired. -/
def State.dueKill (state : State) (again : ℕ) : Kill :=
  ⟨.alarmHandler, state.lastBeat + state.armed.toNat + 5 * again, state.lastBeat, state.armed⟩

structure Armed (state : State) : Prop where
  off : state.armed = 0 → state.deadline = none ∧ state.phase ≠ .gaveUp
  on : state.armed ≠ 0 → state.phase = .waiting →
    state.deadline = some state.due ∧ state.clock ≤ state.due
  counted : state.carried ≤ state.sigkillRetries ∧
    (state.phase ≠ .gaveUp → state.sigkillRetries ≤ 10)
  gaveUp : state.phase = .gaveUp → state.sigkillRetries = 11 ∧
    state.lastBeat + state.armed.toNat + 50 ≤ state.clock + 5 * state.carried
  sent : ∀ again < state.sigkillRetries - state.carried, state.dueKill again ∈ state.kills
  kills : ∀ kill ∈ state.kills, kill.cause = .alarmHandler → kill.Due

theorem armed_firstTestrun (maxRuntime timeout : Unsigned) :
    Armed (firstTestrun maxRuntime timeout) where
  off hzero := ⟨if_pos hzero, Phase.noConfusion⟩
  on hzero _ := by
    refine ⟨(if_neg hzero).trans ?_, Nat.zero_le _⟩
    rw [State.due]
    rfl
  counted := ⟨Nat.zero_le _, fun _ => Nat.zero_le _⟩
  gaveUp := Phase.noConfusion
  sent _ hagain := absurd hagain (Nat.not_lt_zero _)
  kills := by simp [firstTestrun]

/-- Nothing but a `SIGKILL` that the alarm handler does not send, a signal that is pending and
the timeout of a later alarm has changed. -/
theorem Armed.of_eq (harmed : Armed state) (hdeadline : later.deadline = state.deadline)
    (hretries : later.sigkillRetries = state.sigkillRetries) (hphase : later.phase = state.phase)
    (hclock : later.clock = state.clock) (hbeat : later.lastBeat = state.lastBeat)
    (hset : later.armed = state.armed) (hcarried : later.carried = state.carried)
    (hkills : ∃ more, later.kills = state.kills ++ more ∧
      ∀ kill ∈ more, kill.cause ≠ .alarmHandler) : Armed later := by
  obtain ⟨more, hkills, hmore⟩ := hkills
  refine ⟨?_, ?_, ?_, ?_, fun again hagain => ?_, fun kill hkill halarm => ?_⟩
  · rw [hset, hdeadline, hphase]
    exact harmed.off
  · rw [State.due, hset, hdeadline, hphase, hbeat, hretries, hcarried, hclock]
    exact harmed.on
  · rw [hcarried, hretries, hphase]
    exact harmed.counted
  · rw [hphase, hretries, hbeat, hset, hclock, hcarried]
    exact harmed.gaveUp
  · rw [hretries, hcarried] at hagain
    rw [State.dueKill, hbeat, hset, hkills]
    exact List.mem_append_left _ (harmed.sent again hagain)
  · rw [hkills] at hkill
    rcases List.mem_append.mp hkill with hold | hnew
    · exact harmed.kills kill hold halarm
    · exact absurd halarm (hmore kill hnew)

/-- The alarm is set for the timeout. -/
theorem Armed.set (harmed : Armed state) (pending : Bool) {retries : ℕ} (hretries : retries ≤ 10) :
    Armed { state with
      deadline := alarm state.clock state.timeout
      sigkillRetries := retries
      beatPending := pending
      phase := .waiting
      lastBeat := state.clock
      armed := state.timeout
      carried := retries } where
  off hzero := ⟨if_pos hzero, Phase.noConfusion⟩
  on hzero _ := by
    rw [State.due, Nat.sub_self]
    exact ⟨if_neg hzero, Nat.le_add_right _ _⟩
  counted := ⟨le_rfl, fun _ => hretries⟩
  gaveUp := Phase.noConfusion
  sent again hagain := absurd hagain (by rw [Nat.sub_self]; exact Nat.not_lt_zero again)
  kills := harmed.kills

theorem Armed.alarmHandler (harmed : Armed state) (hphase : state.phase = .waiting)
    (hdeadline : state.deadline = some state.clock) : Armed (alarmHandler state) := by
  have hzero : state.armed ≠ 0 := by
    intro hzero
    rw [(harmed.off hzero).1] at hdeadline
    cases hdeadline
  obtain ⟨hcarried, hretries⟩ := harmed.counted
  have hten := hretries (by rw [hphase]; exact Phase.noConfusion)
  have hclock : state.clock = state.due :=
    Option.some.inj (hdeadline.symm.trans (harmed.on hzero hphase).1)
  have hkill : (⟨.alarmHandler, state.clock, state.lastBeat, state.armed⟩ : Kill) =
      state.dueKill (state.sigkillRetries - state.carried) := by
    rw [hclock]
    rfl
  rw [State.due] at hclock
  refine ⟨fun hoff => absurd hoff hzero, fun _ hwaiting => ?_, ⟨?_, fun hnot => ?_⟩,
    fun hgave => ?_,
    fun again hagain => ?_, fun kill hmem halarm => ?_⟩
  · simp only [Watchdog.alarmHandler, kill, alarm, State.due,
      if_neg (by decide : (5 : Unsigned) ≠ 0), show (5 : Unsigned).toNat = 5 from rfl]
    exact ⟨congrArg some (by omega), by omega⟩
  · exact hcarried.trans (Nat.le_succ _)
  · by_contra hmore
    exact hnot (if_pos (not_le.mp hmore))
  · simp only [Watchdog.alarmHandler, kill] at hgave ⊢
    split_ifs at hgave
    omega
  · refine List.mem_append.mpr ?_
    rcases Nat.lt_succ_iff_lt_or_eq.mp
      (show again < (state.sigkillRetries - state.carried) + 1 from
        hagain.trans_eq (Nat.succ_sub hcarried)) with hold | rfl
    · exact .inl (harmed.sent again hold)
    · exact .inr (List.mem_singleton.mpr hkill.symm)
  · rcases List.mem_append.mp hmem with hold | hnew
    · exact harmed.kills kill hold halarm
    · rw [List.mem_singleton.mp hnew]
      exact ⟨hzero, state.sigkillRetries - state.carried, (Nat.sub_le _ _).trans hten, hclock⟩

theorem Armed.reap (harmed : Armed state) (hphase : state.phase = .waiting)
    (killsLeftover : Bool) : Armed (reap killsLeftover state) := by
  have hreaped : Armed { state with deadline := none, phase := .reaped } :=
    ⟨fun _ => ⟨rfl, Phase.noConfusion⟩, fun _ => Phase.noConfusion,
      ⟨harmed.counted.1, fun _ => harmed.counted.2 (by rw [hphase]; exact Phase.noConfusion)⟩,
      Phase.noConfusion, harmed.sent, harmed.kills⟩
  cases killsLeftover with
  | false => exact hreaped
  | true => exact hreaped.of_eq rfl rfl rfl rfl rfl rfl rfl ⟨_, rfl, by simp⟩

theorem Armed.step (harmed : Armed state) (hstep : Step base event state later) :
    Armed later := by
  have hsame : ∃ more, state.kills = state.kills ++ more ∧
      ∀ kill ∈ more, kill.cause ≠ Cause.alarmHandler :=
    ⟨[], (List.append_nil _).symm, by simp⟩
  simp only [Step] at hstep
  cases event with
  | tick =>
    simp only [next] at hstep
    split_ifs at hstep with hpending
    cases hstep
    refine ⟨harmed.off, fun hzero hwaiting => ?_, harmed.counted, fun hgave => ?_, harmed.sent,
      harmed.kills⟩
    · obtain ⟨hdue, hclock⟩ := harmed.on hzero hwaiting
      refine ⟨hdue, lt_of_le_of_ne hclock fun heq => ?_⟩
      exact hpending ⟨hwaiting, .inr (heq ▸ hdue)⟩
    · obtain ⟨hretries, hlate⟩ := harmed.gaveUp hgave
      exact ⟨hretries, hlate.trans (Nat.add_le_add_right (Nat.le_succ _) _)⟩
  | heartbeat =>
    simp only [next] at hstep
    split_ifs at hstep
    cases hstep
    exact harmed.of_eq rfl rfl rfl rfl rfl rfl rfl hsame
  | tstSetMaxRuntime maxRuntime =>
    simp only [next] at hstep
    split_ifs at hstep
    cases hstep
    rw [Watchdog.tstSetMaxRuntime]
    cases setTimeout base maxRuntime state.timeout <;>
      exact harmed.of_eq rfl rfl rfl rfl rfl rfl rfl hsame
  | sigusr1 =>
    simp only [next] at hstep
    split_ifs at hstep with hbeat
    cases hstep
    rw [heartbeatHandler]
    have hset := harmed.set false (Nat.zero_le 10)
    rwa [← hbeat.1] at hset
  | sigalrm =>
    simp only [next] at hstep
    split_ifs at hstep with halarm
    cases hstep
    exact harmed.alarmHandler halarm.1 halarm.2
  | sigint =>
    simp only [next] at hstep
    split_ifs at hstep
    cases hstep
    exact harmed.of_eq rfl rfl rfl rfl rfl rfl rfl ⟨_, rfl, by simp⟩
  | waitpid killsLeftover =>
    simp only [next] at hstep
    split_ifs at hstep with hphase
    cases hstep
    exact harmed.reap hphase killsLeftover
  | forkTestrun =>
    simp only [next] at hstep
    split_ifs at hstep with hphase
    cases hstep
    exact harmed.set _ (harmed.counted.2 (by rw [hphase]; exact Phase.noConfusion))

theorem armed_of_reachable (hreachable : Reachable (Initial base maxRuntime) (Step base) state) :
    Armed state := by
  refine hreachable.invariant ?_ fun _ _ _ harmed hstep => harmed.step hstep
  rintro state ⟨timeout, -, rfl⟩
  exact armed_firstTestrun maxRuntime timeout

/-- A timeout that is on. -/
structure Watched (state : State) : Prop where
  timeout : state.timeout ≠ 0
  armed : state.armed ≠ 0

theorem timeout_ne_zero (hbase : 0 < base.toNat ∧ base.toNat ≤ 2 ^ 31) {timeout timeout' : Unsigned}
    (hset : setTimeout base maxRuntime timeout = some timeout')
    (hon : timeout ≠ 0 ∨ maxRuntime ≠ unlimitedRuntime) : timeout' ≠ 0 := by
  rw [setTimeout] at hset
  split_ifs at hset with hunlimited hnegative
  · cases hset
    exact hon.resolve_right (not_not.mpr hunlimited)
  · cases hset
    intro hzero
    have hlt := maxRuntime.isLt
    have hmsb : maxRuntime.toNat < 2 ^ 31 := by
      rw [BitVec.toInt_eq_toNat_cond] at hnegative
      split_ifs at hnegative with hsmall <;> omega
    have hsum := congrArg BitVec.toNat hzero
    rw [BitVec.toNat_add, Nat.mod_eq_of_lt (by omega)] at hsum
    simp at hsum
    omega

theorem Watched.step (hbase : 0 < base.toNat ∧ base.toNat ≤ 2 ^ 31) (hwatched : Watched state)
    (hstep : Step base event state later) : Watched later := by
  simp only [Step] at hstep
  cases event with
  | tstSetMaxRuntime maxRuntime =>
    simp only [next] at hstep
    split_ifs at hstep
    cases hstep
    rw [Watchdog.tstSetMaxRuntime]
    cases hset : setTimeout base maxRuntime state.timeout with
    | none => exact ⟨hwatched.timeout, hwatched.armed⟩
    | some timeout =>
      exact ⟨timeout_ne_zero hbase hset (.inl hwatched.timeout), hwatched.armed⟩
  | sigusr1 =>
    simp only [next] at hstep
    split_ifs at hstep
    cases hstep
    exact ⟨hwatched.timeout, hwatched.timeout⟩
  | forkTestrun =>
    simp only [next] at hstep
    split_ifs at hstep
    cases hstep
    exact ⟨hwatched.timeout, hwatched.timeout⟩
  | waitpid killsLeftover =>
    simp only [next] at hstep
    split_ifs at hstep
    cases hstep
    rw [reap]
    cases killsLeftover <;> exact ⟨hwatched.timeout, hwatched.armed⟩
  | _ =>
    simp only [next] at hstep
    split_ifs at hstep
    cases hstep
    exact ⟨hwatched.timeout, hwatched.armed⟩

end Invariant

section Main

variable {base maxRuntime : Unsigned} {state : State}

theorem Armed.clock_le (harmed : Armed state) (hwaiting : state.phase = .waiting)
    (hon : state.armed ≠ 0) : state.clock ≤ state.lastBeat + state.armed.toNat + 50 := by
  have hclock := (harmed.on hon hwaiting).2
  have hretries := harmed.counted.2 (by rw [hwaiting]; exact Phase.noConfusion)
  rw [State.due] at hclock
  omega

/-- A time at which the test was to be sent `SIGKILL` has not passed without it. -/
theorem Armed.dueKill_mem (harmed : Armed state) (hphase : state.phase ≠ .reaped)
    (hon : state.armed ≠ 0) {again : ℕ} (hagain : again + state.carried ≤ 10)
    (hpassed : state.lastBeat + state.armed.toNat + 5 * again < state.clock) :
    state.dueKill again ∈ state.kills := by
  apply harmed.sent
  cases hstate : state.phase with
  | waiting =>
    have hclock := (harmed.on hon hstate).2
    rw [State.due] at hclock
    omega
  | reaped => exact absurd hstate hphase
  | gaveUp =>
    have hretries := (harmed.gaveUp hstate).1
    omega

theorem trace_firstTestrun (timeout : Unsigned) (hset : setTimeout base maxRuntime 0 = some timeout)
    {events : List Event}
    (hsome : (replay (next base) (firstTestrun maxRuntime timeout) events).isSome = true) :
    Reachable (Initial base maxRuntime) (Step base)
      ((replay (next base) (firstTestrun maxRuntime timeout) events).get hsome).2 := by
  have hstart : Trace (Initial base maxRuntime) (Step base) [] (firstTestrun maxRuntime timeout) :=
    .initial ⟨timeout, hset, rfl⟩
  exact (Trace.replay (fun _ _ _ hstep => hstep) hstart (Option.some_get hsome).symm).reachable

/-- A test that is silent after two seconds, with a timeout of ten. -/
def silentTest : List Event :=
  [.heartbeat, .sigusr1, .tick, .tick, .heartbeat, .sigusr1] ++ List.replicate 10 .tick ++
    [.sigalrm] ++ List.replicate 5 .tick ++ [.sigalrm]

theorem silentTest_possible :
    (replay (next 10) (firstTestrun 0 10) silentTest).isSome = true := by
  decide +kernel

/-- A timeout that is on at the start stays on, also for a test that calls
`tst_set_max_runtime(TST_UNLIMITED_RUNTIME)`. -/
theorem limited_stays_watched (hbase : 0 < base.toNat ∧ base.toNat ≤ 2 ^ 31)
    (hlimited : maxRuntime ≠ unlimitedRuntime)
    (hreachable : Reachable (Initial base maxRuntime) (Step base) state) :
    state.armed ≠ 0 ∧ (state.phase = .waiting →
      state.clock ≤ state.lastBeat + state.armed.toNat + 50) := by
  have hwatched : Watched state := by
    refine hreachable.invariant ?_ fun _ _ _ hwatched hstep => hwatched.step hbase hstep
    rintro state ⟨timeout, hset, rfl⟩
    have hon := timeout_ne_zero hbase hset (.inr hlimited)
    exact ⟨hon, hon⟩
  exact ⟨hwatched.armed, fun hwaiting =>
    (armed_of_reachable hreachable).clock_le hwaiting hwatched.armed⟩

def unlimitedTest : List Event :=
  [.tstSetMaxRuntime unlimitedRuntime, .sigusr1] ++ List.replicate 10 .tick ++ [.sigalrm]

theorem unlimitedTest_possible :
    (replay (next 10) (firstTestrun 0 10) unlimitedTest).isSome = true := by
  decide +kernel

/-- The test asks for an unlimited runtime, and is killed all the same. -/
theorem limited_stays_watched_unlimited :
    ∃ state, Reachable (Initial 10 0) (Step 10) state ∧ state.maxRuntime = unlimitedRuntime ∧
      state.kills ≠ [] ∧ state.armed ≠ 0 := by
  have hreachable := trace_firstTestrun 10 rfl unlimitedTest_possible
  exact ⟨_, hreachable, by decide +kernel, by decide +kernel,
    (limited_stays_watched (by decide) (by decide) hreachable).1⟩

end Main

end GrapheneLtp.Watchdog
