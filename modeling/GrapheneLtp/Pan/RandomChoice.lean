import Mathlib.Tactic
import GrapheneLtp.Pan.Sequential

/-!
# Random runs of ltp-pan

Without `-S` the commands are drawn at random, and a command that could not be
started is not counted.  Everything else the driver does is bounded: a measure
over the starts left, the children alive, an idle phase and a signal to come
falls with every event, apart from failed starts, signals, and looks at orphaned
groups that still have members.
-/

namespace GrapheneLtp.Pan

open Collection (CollEntry)

section Measure

/-- The starts left, the children alive, an idle phase and a signal to come. -/
def State.burden (state : State) : ℕ := 6 * state.starts.toNat + 5 * state.children.length +
    (if state.goIdle = 0 then 0 else 1) +
      if state.recSignal = none then 0 else 2

/-- What is left to be done.  A signal that comes before `wait` costs a round. -/
def State.effort (state : State) : ℕ :=
  match state.control with
  | .schedule => 4 * state.burden + 5
  | .scheduled => 4 * state.burden + 4
  | .check => 4 * state.burden + 3 + if state.recSignal = none then 0 else 3
  | .drain => if state.orphans = [] then 1 else 2
  | .exited _ => 0

/-- A signal from outside. -/
def Event.isSignal : Event → Bool
  | .signal _ => true
  | _ => false

/-- A command is started. -/
def Event.starts : Event → Bool
  | .launch _ outcome => outcome.active
  | _ => false

/-- The events that bring the end no nearer: a start that fails, a signal, and a
look at the orphaned groups that finds one alive. -/
def held (entry : State × Event) : Bool :=
  match entry.2 with
  | .launch _ outcome => !outcome.active
  | .signal _ => true
  | .drain gone => entry.1.orphans.any fun pgrp => !gone.contains pgrp
  | _ => false

/-- The invariant of the runs with a limit on the starts. -/
structure Limited (config : Config) (state : State) : Prop where
  books : Consistent config state
  nonneg : 0 ≤ state.starts
  phase : Phase config state

variable {config : Config} {state next : State}

theorem burden_le (state : State) : state.burden ≤
      6 * state.starts.toNat + 5 * state.children.length + 3 := by
  unfold State.burden
  split_ifs <;> omega

theorem le_burden (state : State) :
    6 * state.starts.toNat + 5 * state.children.length ≤ state.burden := by
  unfold State.burden
  omega

theorem effort_endRound (state : State) : (endRound state).effort ≤ 4 * state.burden + 5 := by
  unfold endRound
  split
  · simp only [State.effort]
    split <;> omega
  · split
    · simp only [State.effort, State.burden, if_true]
      omega
    · exact le_rfl

/-- With no child left the round ends the loop or an idle phase. -/
theorem effort_endRound_idle (hactive : state.numActive = 0)
    (hend : state.stop = 0 → state.goIdle ≠ 0) :
    (endRound state).effort < 4 * state.burden + 3 := by
  unfold endRound
  split
  · simp only [State.effort]
    split <;> omega
  · rename_i hstop
    have hidle : state.goIdle ≠ 0 := hend (by_contra fun hstopped => hstop ⟨hstopped, hactive⟩)
    rw [if_pos ⟨hidle, hactive⟩]
    simp only [State.effort, State.burden, hidle, if_true, if_false]
    omega

end Measure

section Events

variable {config : Config} {state next : State}

/-- A start that failed changes nothing that is counted. -/
theorem effort_failed (hrandom : config.sequential = false) (state : State)
    (c : ℕ) (files : Files) (launched : List CollEntry) :
    (afterLaunch config false { state with
        c := c, files := files, launched := launched }).starts = state.starts ∧
      (afterLaunch config false { state with
        c := c, files := files, launched := launched }).effort = state.effort := by
  simp [State.effort, State.burden, afterLaunch, hrandom]

theorem limited_launch (hrandom : config.sequential = false) {draw : ℕ}
    {outcome : Launch} (hlimited : Limited config state)
    (hstep : step config state (.launch draw outcome) = some next) :
    Limited config next ∧ next.starts = state.starts - (if outcome.active then 1 else 0) ∧
      next.stop = state.stop ∧
      next.effort + (if outcome.active then 1 else 0) ≤ state.effort := by
  have hbooks := consistent_step hlimited.books hstep
  obtain ⟨⟨hcontrol, hwants, -, -⟩, hlaunch⟩ := step_launch_iff.mp hstep
  obtain ⟨-, hstarts, -, -, -⟩ := wantsChild_iff.mp hwants
  have hnonneg := hlimited.nonneg
  have hpositive : 0 < state.starts := by omega
  have hphase : Phase config next := by
    rw [Phase, launch_control hlaunch, hcontrol]
    trivial
  obtain ⟨colle, -, houtcome⟩ := launch_cases hlaunch
  cases outcome with
  | refused =>
    cases houtcome
    obtain ⟨hsame, heffort⟩ := effort_failed hrandom state
      (state.pick config draw) state.files state.launched
    refine ⟨⟨hbooks, hnonneg.trans hsame.ge, hphase⟩, ?_, rfl, heffort.le⟩
    simpa [Launch.active] using hsame
  | execFailed status =>
    cases houtcome
    obtain ⟨hsame, heffort⟩ := effort_failed hrandom state
      (state.pick config draw) (state.files.report config colle status.kind
        status.value (execVerdict status.value)) (state.launched ++ [colle])
    refine ⟨⟨hbooks, hnonneg.trans hsame.ge, hphase⟩, ?_, rfl, heffort.le⟩
    simpa [Launch.active] using hsame
  | started pid =>
    obtain ⟨slot, changed, -, rfl⟩ := houtcome
    refine ⟨⟨hbooks, ?_, hphase⟩, ?_, rfl, ?_⟩
    · simp only [afterLaunch, hpositive, true_or, and_self, if_true]
      omega
    · simp [afterLaunch, hpositive, Launch.active]
    · simp only [State.effort, State.burden, afterLaunch, hcontrol, hpositive,
        Launch.active, true_or, and_self, if_true, List.length_cons]
      omega

theorem limited_leave (hlimited : Limited config state)
    (hstep : step config state .leave = some next) :
    Limited config next ∧ next.starts = state.starts ∧ next.stop = state.stop ∧
      next.effort < state.effort := by
  have hbooks := consistent_step hlimited.books hstep
  obtain ⟨⟨hcontrol, hleave⟩, rfl⟩ := step_leave_iff.mp hstep
  obtain ⟨hwants, hnext⟩ := hlimited.books.leaveSchedule_eq hleave
  rw [hnext] at hbooks ⊢
  refine ⟨⟨hbooks, hlimited.nonneg, hwants⟩, rfl, rfl, ?_⟩
  simp only [State.effort, hcontrol]
  exact Nat.lt_succ_self _

theorem idleOrStop_cases (state : State) :
    (idleOrStop state).stop ≠ 0 ∨ (idleOrStop state).goIdle ≠ 0 := by
  unfold idleOrStop
  split
  · exact .inr (Nat.succ_ne_zero _)
  · exact .inl (Nat.succ_ne_zero _)

theorem idleOrStop_frame (state : State) : (idleOrStop state).starts = state.starts ∧
      (idleOrStop state).recSignal = state.recSignal ∧
      state.stop ≤ (idleOrStop state).stop := by
  unfold idleOrStop
  split
  · exact ⟨rfl, rfl, le_rfl⟩
  · exact ⟨rfl, rfl, Nat.le_succ _⟩

/-- A signal that is acted on is gone, and the driver idles or stops. -/
theorem handleSignal_cases (gone : List ℕ) (state : State) :
    state.recSignal = none ∧ handleSignal gone state = state ∨
      state.recSignal ≠ none ∧ (handleSignal gone state).recSignal = none ∧
        (handleSignal gone state).starts = state.starts ∧
        state.stop ≤ (handleSignal gone state).stop ∧
        ((handleSignal gone state).stop ≠ 0 ∨ (handleSignal gone state).goIdle ≠ 0) := by
  unfold handleSignal
  split
  · rename_i hnone
    exact .inl ⟨hnone, rfl⟩
  · rename_i hsome
    have hframe := idleOrStop_frame state
    exact .inr ⟨by simp [hsome], rfl, hframe.1, hframe.2.2, idleOrStop_cases state⟩
  · rename_i hsome
    have hframe := idleOrStop_frame (propagateSignal gone { state with forkInRoad := false })
    exact .inr ⟨by simp [hsome], hframe.2.1, hframe.1, hframe.2.2, idleOrStop_cases _⟩
  · rename_i hsome
    have hframe := idleOrStop_frame (propagateSignal gone state)
    exact .inr ⟨by simp [hsome], hframe.2.1, hframe.1, hframe.2.2, idleOrStop_cases _⟩

/-- With a limit on the starts only their end counts. -/
theorem countStop_limited (hnonneg : 0 ≤ state.starts) (stopFile : Bool) :
    countStop stopFile state =
      { state with stop := if state.starts = 0 then state.stop + 1
          else state.stop } := by
  unfold countStop
  split
  · rfl
  · rw [if_neg (by omega)]

theorem limited_handle {stopFile : Bool} {gone : List ℕ} (hlimited : Limited config state)
    (hstep : step config state (.handle stopFile gone) = some next) :
    Limited config next ∧ next.starts = state.starts ∧ (state.recSignal = none → next.stop =
        if state.starts = 0 then state.stop + 1 else state.stop) ∧
      next.effort < state.effort := by
  have hbooks := consistent_step hlimited.books hstep
  obtain ⟨hcontrol, rfl⟩ := step_handle_iff.mp hstep
  have hchildren := (sameBooks_handleSignal gone (countStop stopFile state)).children
  have hactive := (sameBooks_handleSignal gone (countStop stopFile state)).numActive
  rw [countStop_limited hlimited.nonneg] at hbooks hchildren hactive ⊢
  set counted := { state with stop := if state.starts = 0 then state.stop + 1
    else state.stop } with hcounted
  rcases handleSignal_cases gone counted with
    ⟨hquiet, hhandle⟩ | ⟨hsignal, hnone, hstarts, hstop, hend⟩
  · rw [hhandle] at hbooks ⊢
    refine ⟨⟨hbooks, hlimited.nonneg, ?_⟩, rfl, fun _ => rfl, ?_⟩
    · refine ⟨fun hzero => ?_, fun hnostop hnoidle => ?_⟩
      · have hcount : counted.stop = state.stop + 1 := if_pos hzero
        rw [hcount]
        exact Nat.succ_ne_zero _
      · have hstarts : state.starts ≠ 0 := by
          intro hzero
          have hcount : counted.stop = state.stop + 1 := if_pos hzero
          rw [hcount] at hnostop
          cases hnostop
        have hstop : state.stop = 0 := by
          have hcount : counted.stop = state.stop := if_neg hstarts
          rwa [hcount] at hnostop
        have hfull : (config.keepActive : ℤ) ≤ state.numActive :=
          full_of_unwanted (hlimited.phase.unwanted hcontrol) hstarts hstop hquiet hnoidle
        exact hfull
    · have hnone : state.recSignal = none := hquiet
      simp only [State.effort, State.burden, hcounted, hcontrol, hnone, if_true]
      omega
  · have hsome : state.recSignal ≠ none := hsignal
    refine ⟨⟨hbooks, hstarts.ge.trans' hlimited.nonneg, ?_⟩, hstarts,
      fun hquiet => absurd hquiet hsome, ?_⟩
    · refine ⟨fun hzero => ?_, fun hnostop hnoidle => ?_⟩
      · have hcount : counted.stop = state.stop + 1 :=
          if_pos (hstarts.symm.trans hzero)
        rw [hcount] at hstop
        exact Nat.ne_of_gt (Nat.lt_of_lt_of_le (Nat.succ_pos _) hstop)
      · rcases hend with hstopped | hidle
        · exact absurd hnostop hstopped
        · exact absurd hnoidle hidle
    · have hafter : State.burden { handleSignal gone counted with
          control := .check } ≤ 6 * state.starts.toNat + 5 * state.children.length + 1 := by
        have hsame : (handleSignal gone counted).starts = state.starts := hstarts
        have halive : (handleSignal gone counted).children = state.children := hchildren
        simp only [State.burden, hnone, hsame, halive, if_true]
        split <;> omega
      have hbefore : 6 * state.starts.toNat + 5 * state.children.length + 2 ≤
          state.burden := by
        simp only [State.burden, hsome, if_false]
        omega
      simp only [State.effort, hcontrol, hnone, if_true] at hafter ⊢
      omega

theorem limited_interrupted {gone : List ℕ} (hlimited : Limited config state)
    (hstep : step config state (.wait gone .interrupted) = some next) :
    Limited config next ∧ next.starts = state.starts ∧ next.stop = state.stop ∧
      next.effort < state.effort := by
  have hbooks := consistent_step hlimited.books hstep
  obtain ⟨⟨hcontrol, hsignal⟩, rfl⟩ := step_wait_iff.mp hstep
  have hround : checkRound config state gone .interrupted =
      endRound (checkOrphans gone state) := rfl
  rw [hround] at hbooks ⊢
  have hsame := sameLedger_endRound (checkOrphans gone state)
  refine ⟨⟨hbooks, hlimited.nonneg.trans hsame.starts.ge, phase_endRound _⟩,
    hsame.starts, hsame.stop, ?_⟩
  have heffort := effort_endRound (checkOrphans gone state)
  have hsome : state.recSignal ≠ none := Option.isSome_iff_ne_none.mp hsignal
  have hburden : (checkOrphans gone state).burden = state.burden := rfl
  simp only [hburden] at heffort
  simp only [State.effort, hcontrol, hsome, if_false] at heffort ⊢
  omega

theorem limited_noChild (hkeep : 0 < config.keepActive) {gone : List ℕ}
    (hlimited : Limited config state)
    (hstep : step config state (.wait gone .noChild) = some next) :
    Limited config next ∧ next.starts = state.starts ∧ next.stop = state.stop ∧
      next.effort < state.effort := by
  have hbooks := consistent_step hlimited.books hstep
  obtain ⟨⟨hcontrol, hnone⟩, rfl⟩ := step_wait_iff.mp hstep
  obtain ⟨hactive, hidle⟩ := noChild_cases hlimited.books hlimited.phase hkeep hcontrol
    (WaitResult.possible_noChild.mp hnone)
  have hround : checkRound config state gone .noChild = endRound (checkOrphans gone state) := rfl
  rw [hround] at hbooks ⊢
  have hsame := sameLedger_endRound (checkOrphans gone state)
  refine ⟨⟨hbooks, hlimited.nonneg.trans hsame.starts.ge, phase_endRound _⟩,
    hsame.starts, hsame.stop, ?_⟩
  have hafter : (endRound (checkOrphans gone state)).effort <
      4 * (checkOrphans gone state).burden + 3 := effort_endRound_idle hactive hidle
  have hbefore : 4 * state.burden + 3 ≤ state.effort := by
    rw [State.effort, hcontrol]
    exact Nat.le_add_right _ _
  exact lt_of_lt_of_le hafter hbefore

theorem limited_reaped {gone : List ℕ} {pid : ℕ} {status : WaitStatus}
    {leftover : Bool} (hlimited : Limited config state)
    (hstep : step config state (.wait gone (.reaped pid status leftover)) = some next) :
    Limited config next ∧ next.starts = state.starts ∧ next.stop = state.stop ∧
      next.effort < state.effort := by
  have hbooks := consistent_step hlimited.books hstep
  obtain ⟨⟨hcontrol, hpossible⟩, rfl⟩ := step_wait_iff.mp hstep
  obtain ⟨hpid, hended⟩ := WaitResult.possible_reaped.mp hpossible
  have horphans : Consistent config (checkOrphans gone state) :=
    ⟨hlimited.books.length, hlimited.books.watched, hlimited.books.nodup, hlimited.books.active⟩
  obtain ⟨slot, changed, -, hreap, -⟩ := horphans.reap_eq hpid hended leftover
  set checked := checkPids config state gone (.reaped pid status leftover)
    with hchecked
  have hreaped : checked = _ := hchecked.trans hreap
  have hstarts : checked.1.starts = state.starts := by
    rw [hreaped]
    rfl
  have hstop : checked.1.stop = state.stop := by
    rw [hreaped]
    rfl
  have hchildren : checked.1.children = state.children.erase pid := by
    rw [hreaped]
    rfl
  have hsame := sameLedger_afterCheck config checked
  have hround := hsame.trans (sameLedger_endRound (afterCheck config checked))
  have hafter := hround.starts.trans hstarts
  refine ⟨⟨hbooks, hlimited.nonneg.trans hafter.ge, phase_endRound _⟩, hafter,
    hround.stop.trans hstop, ?_⟩
  have heffort := effort_endRound (afterCheck config checked)
  have hburden := burden_le (afterCheck config checked)
  rw [hsame.starts, hsame.children, hstarts, hchildren, List.length_erase_of_mem hpid] at hburden
  have hpositive := List.length_pos_of_mem hpid
  have hbefore : 4 * state.burden + 3 ≤ state.effort := by
    rw [State.effort, hcontrol]
    exact Nat.le_add_right _ _
  have hatLeast := le_burden state
  refine lt_of_le_of_lt heffort ?_
  omega

theorem waitHandler_frame (signal : Signal) (state : State) :
    (waitHandler signal state).goIdle = state.goIdle ∧
      (waitHandler signal state).orphans = state.orphans ∧
      (waitHandler signal state).recSignal ≠ none := by
  unfold waitHandler
  split
  · exact ⟨rfl, rfl, Option.some_ne_none _⟩
  · exact ⟨rfl, rfl, Option.some_ne_none _⟩

/-- As long as there are orphaned groups, those that are gone are forgotten. -/
theorem drainOrphans_orphans (gone : List ℕ) (horphans : state.orphans ≠ []) :
    (drainOrphans gone state).orphans = state.orphans.filter (fun pgrp => pgrp ∉ gone) ∧
      (drainOrphans gone state).control = state.control := by
  rw [drainOrphans, if_neg horphans]
  simp only [propagateSignal, checkOrphans]
  split
  · rw [(waitHandler_frame .int state).2.1, waitHandler_control]
    exact ⟨rfl, rfl⟩
  · exact ⟨rfl, rfl⟩

theorem effort_drainOrphans (hcontrol : state.control = .drain) (gone : List ℕ) :
    (drainOrphans gone state).effort +
      (if held (state, .drain gone) then 0 else 1) ≤ state.effort := by
  by_cases horphans : state.orphans = []
  · have hexited : (drainOrphans gone state).effort = 0 := by
      rw [drainOrphans, if_pos horphans]
      rfl
    have hbefore : state.effort = 1 := by
      simp only [State.effort, hcontrol, horphans, if_true]
    rw [hexited, hbefore]
    split <;> omega
  · obtain ⟨hfiltered, hnext⟩ := drainOrphans_orphans gone horphans
    have hbefore : state.effort = 2 := by
      simp only [State.effort, hcontrol, horphans, if_false]
    simp only [State.effort, hnext, hcontrol, hfiltered, horphans, if_false]
    by_cases halive : held (state, .drain gone) = true
    · rw [if_pos halive]
      split <;> omega
    · have hgone : (state.orphans.filter fun pgrp => pgrp ∉ gone) = [] := by
        simpa [held] using halive
      rw [if_pos hgone, if_neg halive]

/-- A look at the orphaned groups. -/
theorem limited_drain {gone : List ℕ} (hlimited : Limited config state)
    (hstep : step config state (.drain gone) = some next) :
    Limited config next ∧ next.starts = state.starts ∧ next.stop = state.stop ∧
      next.effort + (if held (state, .drain gone) then 0 else 1) ≤
        state.effort := by
  have hbooks := consistent_step hlimited.books hstep
  obtain ⟨hcontrol, rfl⟩ := step_drain_iff.mp hstep
  have hsame := sameLedger_drainOrphans gone state
  refine ⟨⟨hbooks, hlimited.nonneg.trans hsame.starts.ge, ?_⟩, hsame.starts, hsame.stop, ?_⟩
  · exact hlimited.phase.drained hcontrol gone
  · exact effort_drainOrphans hcontrol gone

/-- A signal costs at most two rounds. -/
theorem limited_signal {signal : Signal} (hlimited : Limited config state)
    (hstep : step config state (.signal signal) = some next) :
    Limited config next ∧ next.starts = state.starts ∧ next.stop = state.stop ∧
      next.effort ≤ state.effort + 11 := by
  have hbooks := consistent_step hlimited.books hstep
  obtain ⟨-, rfl⟩ := step_signal_iff.mp hstep
  have hsame := sameLedger_waitHandler signal state
  have hcontrol := waitHandler_control signal state
  obtain ⟨hidle, horphans, hsignal⟩ := waitHandler_frame signal state
  refine ⟨⟨hbooks, hlimited.nonneg.trans hsame.starts.ge, ?_⟩, hsame.starts, hsame.stop, ?_⟩
  · have hphase := hlimited.phase
    unfold Phase at hphase ⊢
    rw [hcontrol, hsame.starts, hsame.stop, hsame.numActive, hidle]
    cases hwhere : state.control with
    | schedule => trivial
    | scheduled =>
      by_contra hwants
      have hnone := (wantsChild_iff.mp (Bool.eq_true_of_not_eq_false hwants)).2.2.2.1
      exact hsignal hnone
    | check => simpa only [hwhere] using hphase
    | drain => simpa only [hwhere] using hphase
    | exited status => simpa only [hwhere] using hphase
  · have hburden : (waitHandler signal state).burden ≤ state.burden + 2 := by
      simp only [State.burden, hsame.starts, hsame.children, hidle, hsignal,
        if_false]
      omega
    simp only [State.effort, hcontrol, horphans, hsignal, if_false]
    split
    · omega
    · omega
    · split <;> omega
    · omega
    · omega

/-- What one event does: only a start lowers the starts left, without a signal
the driver stops only for the end of the starts, and the effort falls unless the
event is held up. -/
structure Advances (config : Config) (state : State) (event : Event)
    (next : State) : Prop where
  limited : Limited config next
  starts : next.starts = state.starts - if event.starts then 1 else 0
  stop : state.recSignal = none → next.stop ≠ 0 →
    state.stop ≠ 0 ∨ next.starts = 0
  effort : next.effort + (if held (state, event) then 0 else 1) ≤
    state.effort + if event.isSignal then 11 else 0

/-- An event that starts nothing and is no signal. -/
theorem Advances.of_lower {event : Event} (hstarting : event.starts = false)
    (hheld : held (state, event) = false)
    (hnext : Limited config next ∧ next.starts = state.starts ∧
      next.stop = state.stop ∧ next.effort < state.effort) :
    Advances config state event next := by
  obtain ⟨hafter, hstarts, hstop, heffort⟩ := hnext
  refine ⟨hafter, ?_, fun _ hstopped => .inl (hstop ▸ hstopped), ?_⟩
  · simp [hstarting, hstarts]
  · simp only [hheld, Bool.false_eq_true, if_false]
    omega

/-- One event of a random run. -/
theorem advances_step (hkeep : 0 < config.keepActive)
    (hrandom : config.sequential = false) {event : Event}
    (hlimited : Limited config state)
    (hstep : step config state event = some next) :
    Advances config state event next := by
  cases event with
  | launch draw outcome =>
    obtain ⟨hafter, hstarts, hstop, heffort⟩ := limited_launch hrandom hlimited hstep
    refine ⟨hafter, hstarts, fun _ hstopped => .inl (hstop ▸ hstopped), ?_⟩
    refine le_trans ?_ (Nat.le_add_right _ _)
    cases hactive : outcome.active with
    | false => simpa [held, hactive] using heffort
    | true => simpa [held, hactive] using heffort
  | leave => exact .of_lower rfl rfl (limited_leave hlimited hstep)
  | handle stopFile gone =>
    obtain ⟨hafter, hstarts, hstop, heffort⟩ := limited_handle hlimited hstep
    refine ⟨hafter, by simp [Event.starts, hstarts], ?_, ?_⟩
    · intro hquiet hstopped
      rw [hstop hquiet] at hstopped
      by_cases hzero : state.starts = 0
      · exact .inr (hstarts.trans hzero)
      · rw [if_neg hzero] at hstopped
        exact .inl hstopped
    · simpa [held, Event.isSignal] using heffort
  | wait gone result =>
    cases result with
    | interrupted =>
      exact .of_lower rfl rfl (limited_interrupted hlimited hstep)
    | noChild => exact .of_lower rfl rfl (limited_noChild hkeep hlimited hstep)
    | reaped pid status leftover =>
      exact .of_lower rfl rfl (limited_reaped hlimited hstep)
  | drain gone =>
    obtain ⟨hafter, hstarts, hstop, heffort⟩ := limited_drain hlimited hstep
    exact ⟨hafter, by simp [Event.starts, hstarts],
      fun _ hstopped => .inl (hstop ▸ hstopped), heffort⟩
  | signal signal =>
    obtain ⟨hafter, hstarts, hstop, heffort⟩ := limited_signal hlimited hstep
    exact ⟨hafter, by simp [Event.starts, hstarts],
      fun _ hstopped => .inl (hstop ▸ hstopped), heffort⟩

end Events

section Progress

variable {config : Config} {state : State}

/-- A number that no child has. -/
theorem exists_fresh (children : List ℕ) : ∃ pid, pid ≠ 0 ∧ pid ∉ children := by
  obtain ⟨pid, hpid⟩ := Infinite.exists_notMem_finset (insert 0 children.toFinset)
  simp only [Finset.mem_insert, List.mem_toFinset, not_or] at hpid
  exact ⟨pid, hpid⟩

/-- With a free slot a command that can be executed is started. -/
theorem launch_started (hrandom : config.sequential = false)
    (hcoll : config.coll ≠ []) (hslot : state.hasSlot = true) (pid : ℕ) :
    ∃ next, launch config state 0 (.started pid) = some next := by
  have hpick : state.pick config 0 = 0 := by simp [State.pick, hrandom]
  obtain ⟨colle, rest, hentries⟩ := List.exists_cons_of_ne_nil hcoll
  cases hreplaced : FirstMatch.replaceFirst (fun slot => slot.pgrp == 0)
      (fun _ => (⟨pid, false, colle⟩ : TagPgrp)) state.running with
  | none =>
    obtain ⟨slot, hmem, hfree⟩ := List.any_eq_true.mp hslot
    have hmissing := FirstMatch.replaceFirst_eq_none.mp hreplaced slot hmem
    rw [hfree] at hmissing
    cases hmissing
  | some result =>
    simp only [launch, hpick, hentries, List.getElem?_cons_zero, runChild,
      hreplaced, Option.map_some]
    exact ⟨_, rfl⟩

/-- Until the driver has exited it can go on: a command that can be executed is
started, a child that runs can end, and orphaned groups can be gone. -/
theorem random_progress (hrandom : config.sequential = false) (hcoll : config.coll ≠ [])
    (halive : state.control.isExited = false) :
    ∃ event next, held (state, event) = false ∧ step config state event = some next := by
  cases hcontrol : state.control with
  | schedule =>
    by_cases hlaunch : state.wantsChild config = true ∧ state.hasSlot = true
    · obtain ⟨pid, hpid, hfresh⟩ := exists_fresh state.children
      obtain ⟨next, hnext⟩ := launch_started hrandom hcoll hlaunch.2 pid
      refine ⟨.launch 0 (.started pid), next, rfl, ?_⟩
      simp only [step, hcontrol, hlaunch.1, hlaunch.2, Launch.possible]
      simpa [hpid, hfresh] using hnext
    · exact ⟨.leave, leaveSchedule config state, rfl, by
        simp only [step, hcontrol, hlaunch, not_false_eq_true, and_self, if_true]⟩
  | scheduled =>
    exact ⟨.handle false [], { handleSignal [] (countStop false state) with
      control := .check }, rfl, by simp only [step, hcontrol, if_true]⟩
  | check =>
    cases hchildren : state.children with
    | nil =>
      refine ⟨.wait [] .noChild, checkRound config state [] .noChild, rfl, ?_⟩
      simp only [step, hcontrol, WaitResult.possible, hchildren,
        List.isEmpty_nil, and_self, if_true]
    | cons pid rest =>
      refine ⟨.wait [] (.reaped pid (.exited 0) false),
        checkRound config state [] (.reaped pid (.exited 0) false), rfl, ?_⟩
      simp only [step, hcontrol, WaitResult.possible, WaitStatus.ended,
        hchildren, List.contains_cons, beq_self_eq_true, Bool.true_or,
        Bool.and_self, and_self, if_true]
  | drain =>
    refine ⟨.drain state.orphans, drainOrphans state.orphans state, ?_, ?_⟩
    · simp [held]
    · simp only [step, hcontrol, if_true]
  | exited status => simp [hcontrol, Control.isExited] at halive

end Progress

section Runs

variable {config : Config} {total : ℕ} {past : List (State × Event)} {state : State}

/-- What holds along every run: the starts left and the commands started make up
the total, and the events that are not held up are bounded. -/
theorem random_trace (hkeep : 0 < config.keepActive) (hrandom : config.sequential = false)
    (hstarts : config.startsDefault = total) (htrace : Trace config past state) :
    Limited config state ∧ state.starts + past.countP (fun entry => entry.2.starts) = total ∧
      past.countP (fun entry => !held entry) + state.effort ≤
        24 * total + 5 + 11 * past.countP (fun entry => entry.2.isSignal) := by
  induction htrace with
  | initial hstart =>
    subst hstart
    refine ⟨⟨consistent_start, ?_, trivial⟩, ?_, ?_⟩
    · simp [State.start, hstarts]
    · simp [State.start, hstarts]
    · simp [State.effort, State.burden, State.start, hstarts]
      omega
  | @step past event state next htrace hstep ih =>
    obtain ⟨hlimited, hcount, hbound⟩ := ih
    have hadvances := advances_step hkeep hrandom hlimited hstep
    refine ⟨hadvances.limited, ?_, ?_⟩
    · have hstarted := hadvances.starts
      rw [List.countP_append, List.countP_singleton]
      dsimp only
      split_ifs at hstarted ⊢
      all_goals
        push_cast
        omega
    · have heffort := hadvances.effort
      simp only [List.countP_append, List.countP_singleton]
      cases hheld : held (state, event) <;>
        simp only [hheld, Bool.not_false, Bool.not_true, Bool.false_eq_true,
          if_true, if_false] at heffort ⊢
      all_goals
        split_ifs at heffort ⊢
        all_goals omega

/-- Without a signal the driver stops for the end of the starts only. -/
theorem stop_of_unsignalled (hkeep : 0 < config.keepActive) (hrandom : config.sequential = false)
    (hstarts : config.startsDefault = total) (htrace : Trace config past state)
    (hquiet : ∀ entry ∈ past, entry.1.recSignal = none) (hstop : state.stop ≠ 0) :
    state.starts = 0 := by
  induction htrace with
  | initial hstart =>
    subst hstart
    exact absurd rfl hstop
  | @step past event state next htrace hstep ih =>
    have hlimited := (random_trace hkeep hrandom hstarts htrace).1
    have hadvances := advances_step hkeep hrandom hlimited hstep
    have hsignal : state.recSignal = none := hquiet (state, event) (by simp)
    rcases hadvances.stop hsignal hstop with hbefore | hzero
    · have hnone := ih (fun entry hentry => hquiet entry (by simp [hentry])) hbefore
      have hstarted := hadvances.starts
      have hnonneg := hadvances.limited.nonneg
      split at hstarted <;> omega
    · exact hzero

/-- The runs without `-S` and with a limit on the starts.  Apart from starts that
fail, signals, and looks at orphaned groups that are still alive, a run has a
bounded number of events, and until the driver has exited such an event is always
possible; no more commands are started than requested, and when the main loop
has ended without a signal, exactly as many. -/
theorem random_run (hcoll : config.coll ≠ []) (hkeep : 0 < config.keepActive)
    (hrandom : config.sequential = false)
    (hstarts : config.startsDefault = total) (htrace : Trace config past state) :
    past.countP (fun entry => !held entry) ≤
        24 * total + 5 + 11 * past.countP (fun entry => entry.2.isSignal) ∧
      (state.control.isExited = false → ∃ event next,
        held (state, event) = false ∧ step config state event = some next) ∧
      past.countP (fun entry => entry.2.starts) ≤ total ∧
      ((∀ entry ∈ past, entry.1.recSignal = none) → state.control.inLoop = false →
          past.countP (fun entry => entry.2.starts) = total) := by
  obtain ⟨hlimited, hcount, hbound⟩ := random_trace hkeep hrandom hstarts htrace
  have hnonneg := hlimited.nonneg
  refine ⟨(Nat.le_add_right _ _).trans hbound, random_progress hrandom hcoll,
    by omega, ?_⟩
  intro hquiet hended
  have hstop : state.stop ≠ 0 := (hlimited.phase.ended hended).1
  have hzero := stop_of_unsignalled hkeep hrandom hstarts htrace hquiet hstop
  omega

/-- Two entries, one at a time, two starts. -/
def twoTests : Config where
  coll := [⟨['a'], "a -x".toList, false⟩, ⟨['b'], "b -y".toList, false⟩]
  keepActive := 1
  starts := 2
  timed := false
  sequential := false
  hasBrakes := false
  forkInRoad := false
  trackExitStats := true
  fmtPrint := false
  logfile := false
  failcmdfile := false
  tconfcmdfile := false

/-- The second entry cannot be executed; the first is started twice. -/
theorem random_run_twoTests : ∃ past state, Trace twoTests past state ∧
      state.control = .exited 0 ∧ state.launched.length = 3 ∧
        past.countP (fun entry => entry.2.starts) = 2 := by
  have hrun : (Transition.replay (step twoTests) (State.start twoTests)
      [.launch 4 (.started 7), .leave, .handle false [], .wait [] (.reaped 7 (.exited 0) false),
        .launch 3 (.execFailed (.exited 2)), .launch 2 (.started 8), .leave,
        .handle false [], .wait [] (.reaped 8 (.exited 0) false),
        .drain []]).map (fun result => (result.2.control, result.2.launched.length,
          result.1.all fun entry => entry.1.recSignal == none)) =
      some (.exited 0, 3, true) := by
    decide +kernel
  obtain ⟨⟨past, state⟩, hreplay, hview⟩ := Option.map_eq_some_iff.mp hrun
  obtain ⟨hexited, hview⟩ := Prod.mk.inj hview
  obtain ⟨hlaunched, hall⟩ := Prod.mk.inj hview
  have htrace := trace_of_replay hreplay
  have hquiet : ∀ entry ∈ past, entry.1.recSignal = none := by simpa using hall
  have hended : state.control.inLoop = false := by
    rw [show state.control = .exited 0 from hexited]
    rfl
  exact ⟨past, state, htrace, hexited, hlaunched,
    (random_run (List.cons_ne_nil _ _) Nat.one_pos rfl rfl htrace).2.2.2 hquiet hended⟩

/-- One entry that cannot be executed, and one start. -/
def missingTest : Config where
  coll := [⟨['a'], "a -x".toList, false⟩]
  keepActive := 1
  starts := 1
  timed := false
  sequential := false
  hasBrakes := false
  forkInRoad := false
  trackExitStats := true
  fmtPrint := false
  logfile := false
  failcmdfile := false
  tconfcmdfile := false

/-- No command can be executed, so none runs for ever; the driver tries to start
it again and again. -/
theorem random_run_missingTest :
    ∃ run : Transition.Run (· = State.start missingTest) (Step missingTest),
      ∀ time, run.actor time = .launch 0 (.execFailed (.exited 2)) ∧
        (run.state time).launched.length = time ∧
        (run.state time).control.isExited = false := by
  refine ⟨{
    state := fun time => { State.start missingTest with
      launched := List.replicate time ⟨['a'], "a -x".toList, false⟩ }
    actor := fun _ => .launch 0 (.execFailed (.exited 2))
    initial := rfl
    step := ?_ }, ?_⟩
  · intro time
    simp only [Step, List.replicate_succ']
    rfl
  · intro time
    exact ⟨rfl, List.length_replicate, rfl⟩

end Runs

end GrapheneLtp.Pan
