import Mathlib.Tactic
import GrapheneLtp.Pan.Driver

/-!
# Slots, children and files of the driver

The slot table, the counter of active children and the system's list of
children agree in every reachable state.  So a reaped child always has its
slot, a slot is free whenever the counter says so, and every event changes the
files and the exit status in one of a few ways.
-/

namespace GrapheneLtp.Pan

open Collection (CollEntry)
open FirstMatch

section Frames

variable (signal : Signal) (gone : List ℕ) (stopFile : Bool) (config : Config) (state : State)

/-- What signals, idling and orphans have no influence on. -/
structure SameBooks (state next : State) : Prop where
  slots : next.running.map (fun slot => (slot.pgrp, slot.cmd)) =
    state.running.map fun slot => (slot.pgrp, slot.cmd)
  children : next.children = state.children
  numActive : next.numActive = state.numActive
  files : next.files = state.files
  launched : next.launched = state.launched

theorem SameBooks.refl : SameBooks state state := ⟨rfl, rfl, rfl, rfl, rfl⟩

theorem SameBooks.trans {state middle next : State}
    (hfirst : SameBooks state middle) (hsecond : SameBooks middle next) :
    SameBooks state next where
  slots := hsecond.slots.trans hfirst.slots
  children := hsecond.children.trans hfirst.children
  numActive := hsecond.numActive.trans hfirst.numActive
  files := hsecond.files.trans hfirst.files
  launched := hsecond.launched.trans hfirst.launched

theorem sameBooks_waitHandler : SameBooks state (waitHandler signal state) := by
  unfold waitHandler
  split
  · exact ⟨rfl, rfl, rfl, rfl, rfl⟩
  · exact ⟨rfl, rfl, rfl, rfl, rfl⟩

@[simp]
theorem waitHandler_exitStat : (waitHandler signal state).exitStat = state.exitStat := by
  unfold waitHandler
  split <;> rfl

@[simp]
theorem waitHandler_control : (waitHandler signal state).control = state.control := by
  unfold waitHandler
  split <;> rfl

theorem sameBooks_leaveSchedule : SameBooks state (leaveSchedule config state) := by
  unfold leaveSchedule
  split
  · have hhandler := sameBooks_waitHandler .int state
    exact ⟨hhandler.slots, hhandler.children, hhandler.numActive, hhandler.files, hhandler.launched⟩
  · exact ⟨rfl, rfl, rfl, rfl, rfl⟩

theorem sameBooks_propagateSignal : SameBooks state (propagateSignal gone state) := by
  refine ⟨?_, rfl, rfl, rfl, rfl⟩
  simp only [propagateSignal, checkOrphans, List.map_map]
  apply List.map_congr_left
  intro slot _
  simp only [Function.comp_apply]
  split <;> rfl

theorem sameBooks_countStop : SameBooks state (countStop stopFile state) := by
  unfold countStop
  split
  · exact ⟨rfl, rfl, rfl, rfl, rfl⟩
  · split
    · exact ⟨rfl, rfl, rfl, rfl, rfl⟩
    · exact .refl state

@[simp]
theorem countStop_exitStat : (countStop stopFile state).exitStat = state.exitStat := by
  unfold countStop
  split
  · rfl
  · split <;> rfl

theorem sameBooks_idleOrStop : SameBooks state (idleOrStop state) := by
  unfold idleOrStop
  split
  · exact ⟨rfl, rfl, rfl, rfl, rfl⟩
  · exact ⟨rfl, rfl, rfl, rfl, rfl⟩

@[simp]
theorem idleOrStop_exitStat : (idleOrStop state).exitStat = state.exitStat := by
  unfold idleOrStop
  split <;> rfl

theorem sameBooks_handleSignal : SameBooks state (handleSignal gone state) := by
  unfold handleSignal
  split
  · exact .refl state
  · have hidle := sameBooks_idleOrStop state
    exact ⟨hidle.slots, hidle.children, hidle.numActive, hidle.files, hidle.launched⟩
  · have hpropagate := sameBooks_propagateSignal gone { state with forkInRoad := false }
    exact .trans ⟨hpropagate.slots, hpropagate.children, hpropagate.numActive,
      hpropagate.files, hpropagate.launched⟩ (sameBooks_idleOrStop _)
  · exact (sameBooks_propagateSignal gone state).trans (sameBooks_idleOrStop _)

@[simp]
theorem handleSignal_exitStat : (handleSignal gone state).exitStat = state.exitStat := by
  unfold handleSignal
  split
  · rfl
  · exact idleOrStop_exitStat state
  · rw [idleOrStop_exitStat]
    rfl
  · rw [idleOrStop_exitStat]
    rfl

theorem sameBooks_afterFailure : SameBooks state (afterFailure config state) := by
  have hcount : SameBooks state (countFailure config state) := ⟨rfl, rfl, rfl, rfl, rfl⟩
  unfold afterFailure
  split
  · exact hcount.trans (sameBooks_waitHandler .int _)
  · exact hcount

@[simp]
theorem afterFailure_exitStat : (afterFailure config state).exitStat =
      if config.trackExitStats then state.exitStat + 1 else state.exitStat := by
  unfold afterFailure
  split
  · exact waitHandler_exitStat .int _
  · rfl

theorem sameBooks_endRound : SameBooks state (endRound state) := by
  unfold endRound
  split
  · exact ⟨rfl, rfl, rfl, rfl, rfl⟩
  · split
    · exact ⟨rfl, rfl, rfl, rfl, rfl⟩
    · exact ⟨rfl, rfl, rfl, rfl, rfl⟩

@[simp]
theorem endRound_exitStat : (endRound state).exitStat = state.exitStat := by
  unfold endRound
  split
  · rfl
  · split <;> rfl

theorem sameBooks_drainOrphans : SameBooks state (drainOrphans gone state) := by
  unfold drainOrphans
  split
  · exact ⟨rfl, rfl, rfl, rfl, rfl⟩
  · split
    · exact (sameBooks_waitHandler .int state).trans (sameBooks_propagateSignal gone _)
    · exact sameBooks_propagateSignal gone state

@[simp]
theorem drainOrphans_exitStat : (drainOrphans gone state).exitStat = state.exitStat := by
  unfold drainOrphans
  split
  · rfl
  · split
    · exact waitHandler_exitStat .int state
    · rfl

end Frames

section Slots

/-- The slots in use. -/
def active (running : List TagPgrp) : List TagPgrp := running.filter fun slot => slot.pgrp ≠ 0

/-- The process groups in the slot table. -/
def watched (running : List TagPgrp) : List ℕ := (active running).map TagPgrp.pgrp

theorem active_free {slot : TagPgrp} (hfree : slot.pgrp = 0) (before after : List TagPgrp) :
    active (before ++ slot :: after) = active (before ++ after) := by
  simp [active, hfree]

theorem active_taken {slot : TagPgrp} (htaken : slot.pgrp ≠ 0) (before after : List TagPgrp) :
    (active (before ++ slot :: after)).Perm (slot :: active (before ++ after)) := by
  simp only [active, List.filter_append, List.filter_cons, ne_eq, htaken,
    not_false_eq_true, decide_true, if_true]
  exact List.perm_middle

variable {running changed : List TagPgrp} {slot fresh : TagPgrp} {pid : ℕ}

theorem active_occupied (hpid : fresh.pgrp ≠ 0)
    (hresult : replaceFirst (fun slot => slot.pgrp == 0) (fun _ => fresh)
      running = some (slot, changed)) :
    (active changed).Perm (fresh :: active running) := by
  obtain ⟨before, after, rfl, rfl, hfree, -⟩ := replaceFirst_eq_some hresult
  rw [active_free (beq_iff_eq.mp hfree)]
  exact active_taken hpid before after

theorem active_vacated (hpid : pid ≠ 0) (hresult : replaceFirst (fun slot => slot.pgrp == pid)
      (fun slot => { slot with pgrp := 0 }) running = some (slot, changed)) :
    slot.pgrp = pid ∧ (active running).Perm (slot :: active changed) := by
  obtain ⟨before, after, rfl, rfl, hfound, -⟩ := replaceFirst_eq_some hresult
  have hslot : slot.pgrp = pid := beq_iff_eq.mp hfound
  have hvacant : active (before ++ { slot with pgrp := 0 } :: after) =
      active (before ++ after) := active_free rfl before after
  rw [hvacant]
  exact ⟨hslot, active_taken (hslot ▸ hpid) before after⟩

theorem active_full (hfull : ∀ slot ∈ running, slot.pgrp ≠ 0) : active running = running :=
  List.filter_eq_self.mpr (by simpa using hfull)

theorem active_of_slots {others : List TagPgrp}
    (hslots : running.map (fun slot => (slot.pgrp, slot.cmd)) =
      others.map fun slot => (slot.pgrp, slot.cmd)) :
    (active running).map (fun slot => (slot.pgrp, slot.cmd)) =
      (active others).map fun slot => (slot.pgrp, slot.cmd) := by
  have hfilter := congrArg (List.filter fun entry : ℕ × CollEntry => decide (entry.1 ≠ 0)) hslots
  rw [List.filter_map, List.filter_map] at hfilter
  exact hfilter

theorem watched_of_slots {others : List TagPgrp}
    (hslots : running.map (fun slot => (slot.pgrp, slot.cmd)) =
      others.map fun slot => (slot.pgrp, slot.cmd)) :
    watched running = watched others := by
  have hpgrp := congrArg (List.map Prod.fst) (active_of_slots hslots)
  rw [List.map_map, List.map_map] at hpgrp
  exact hpgrp

end Slots

/-- The slot table, the counter and the system agree on the children. -/
structure Consistent (config : Config) (state : State) : Prop where
  length : state.running.length = config.keepActive
  watched : (watched state.running).Perm state.children
  nodup : state.children.Nodup
  active : state.numActive = state.children.length

section Consistency

variable {config : Config} {state next : State}

theorem SameBooks.consistent (hsame : SameBooks state next)
    (hconsistent : Consistent config state) : Consistent config next where
  length := by
    have hlength := congrArg List.length hsame.slots
    rw [List.length_map, List.length_map] at hlength
    exact hlength.trans hconsistent.length
  watched := by
    rw [watched_of_slots hsame.slots, hsame.children]
    exact hconsistent.watched
  nodup := hsame.children ▸ hconsistent.nodup
  active := by
    rw [hsame.numActive, hsame.children]
    exact hconsistent.active

theorem consistent_start : Consistent config (State.start config) where
  length := List.length_replicate
  watched := by simp [State.start, watched, active]
  nodup := List.nodup_nil
  active := rfl

theorem Consistent.pid_ne_zero (hconsistent : Consistent config state)
    {pid : ℕ} (hpid : pid ∈ state.children) : pid ≠ 0 := by
  have hwatched := hconsistent.watched.mem_iff.mpr hpid
  obtain ⟨slot, hslot, rfl⟩ := List.mem_map.mp hwatched
  simpa using (List.mem_filter.mp hslot).2

/-- While the counter is below the number of slots, one of them is free. -/
theorem Consistent.hasSlot (hconsistent : Consistent config state)
    (hactive : state.numActive < config.keepActive) :
    state.hasSlot = true := by
  by_contra hnone
  have hfull : ∀ slot ∈ state.running, slot.pgrp ≠ 0 := by
    simpa [State.hasSlot] using hnone
  have hlength := hconsistent.watched.length_eq
  rw [Pan.watched, List.length_map, active_full hfull, hconsistent.length] at hlength
  rw [hconsistent.active, ← hlength] at hactive
  exact lt_irrefl _ hactive

/-- The slot of a child. -/
def State.slotOf (state : State) (pid : ℕ) : Option TagPgrp :=
  state.running.find? fun slot => slot.pgrp == pid

/-- Every child has a slot. -/
theorem Consistent.vacate (hconsistent : Consistent config state) {pid : ℕ}
    (hpid : pid ∈ state.children) :
    ∃ slot changed, state.slotOf pid = some slot ∧
      replaceFirst (fun slot => slot.pgrp == pid)
        (fun slot => { slot with pgrp := 0 }) state.running = some (slot, changed) := by
  have hwatched := hconsistent.watched.mem_iff.mpr hpid
  obtain ⟨slot, hactive, hpgrp⟩ := List.mem_map.mp hwatched
  have hslot := (List.mem_filter.mp hactive).1
  cases hresult : replaceFirst (fun slot => slot.pgrp == pid)
      (fun slot => { slot with pgrp := 0 }) state.running with
  | none =>
    have hmissing := replaceFirst_eq_none.mp hresult slot hslot
    exact absurd hpgrp (by simpa using hmissing)
  | some result =>
    exact ⟨result.1, result.2, find?_of_replaceFirst hresult, rfl⟩

end Consistency

section Steps

variable {config : Config} {state next : State}

theorem Consistent.occupy (hconsistent : Consistent config state)
    {slot fresh : TagPgrp} {changed : List TagPgrp} (hpid : fresh.pgrp ≠ 0)
    (hfresh : fresh.pgrp ∉ state.children)
    (hresult : replaceFirst (fun slot => slot.pgrp == 0) (fun _ => fresh)
      state.running = some (slot, changed)) :
    Consistent config { state with
      running := changed
      children := fresh.pgrp :: state.children
      numActive := state.numActive + 1 } where
  length := by
    obtain ⟨before, after, htable, rfl, -, -⟩ := replaceFirst_eq_some hresult
    rw [← hconsistent.length, htable]
    simp
  watched := ((active_occupied hpid hresult).map TagPgrp.pgrp).trans
    (hconsistent.watched.cons fresh.pgrp)
  nodup := hconsistent.nodup.cons hfresh
  active := by
    simp only [List.length_cons, Nat.cast_add, Nat.cast_one]
    rw [hconsistent.active]

/-- `check_pids` in a consistent state. -/
theorem Consistent.reap_eq (hconsistent : Consistent config state) {pid : ℕ}
    (hpid : pid ∈ state.children) {status : WaitStatus}
    (hended : status.ended = true) (leftover : Bool) :
    ∃ slot changed, state.slotOf pid = some slot ∧
      reap config state pid status leftover = ({ state with
        numActive := state.numActive - 1
        children := state.children.erase pid
        running := changed
        files := slot.settle config status state.files
        orphans := if leftover then pid :: state.orphans
          else state.orphans }, slot.err status) ∧
      replaceFirst (fun slot => slot.pgrp == pid)
        (fun slot => { slot with pgrp := 0 }) state.running = some (slot, changed) := by
  obtain ⟨slot, changed, hslot, hresult⟩ := hconsistent.vacate hpid
  refine ⟨slot, changed, hslot, ?_, hresult⟩
  have hactive : activeAfter state.numActive status = state.numActive - 1 := by
    cases status with
    | signaled signal => rfl
    | exited code => rfl
    | stopped signal => cases hended
    | unknown => cases hended
  simp only [reap, hresult, hactive]

theorem Consistent.vacated (hconsistent : Consistent config state) {pid : ℕ}
    (hpid : pid ∈ state.children) {slot : TagPgrp} {changed : List TagPgrp}
    {files : Files} {orphans : List ℕ}
    (hresult : replaceFirst (fun slot => slot.pgrp == pid)
      (fun slot => { slot with pgrp := 0 }) state.running = some (slot, changed)) :
    Consistent config { state with
      numActive := state.numActive - 1
      children := state.children.erase pid
      running := changed
      files := files
      orphans := orphans } where
  length := by
    obtain ⟨before, after, htable, rfl, -, -⟩ := replaceFirst_eq_some hresult
    rw [← hconsistent.length, htable]
    simp
  watched := by
    obtain ⟨hpgrp, hold⟩ := active_vacated (hconsistent.pid_ne_zero hpid) hresult
    have hboth := ((hold.map TagPgrp.pgrp).symm.trans hconsistent.watched).erase pid
    rwa [List.map_cons, hpgrp, List.erase_cons_head] at hboth
  nodup := hconsistent.nodup.erase pid
  active := by
    have hlength := List.length_erase_of_mem hpid
    have hpositive := List.length_pos_of_mem hpid
    simp only [hlength, hconsistent.active]
    omega

/-- What a launch leads to, for each way it can turn out. -/
theorem launch_cases {draw : ℕ} {outcome : Launch}
    (hlaunch : launch config state draw outcome = some next) :
    ∃ colle, config.coll[state.pick config draw]? = some colle ∧
      match outcome with
      | .refused => next = afterLaunch config false
          { state with c := state.pick config draw }
      | .execFailed status => next = afterLaunch config false { state with
          c := state.pick config draw
          files := state.files.report config colle status.kind status.value
            (execVerdict status.value)
          launched := state.launched ++ [colle] }
      | .started pid => ∃ slot changed,
          replaceFirst (fun slot => slot.pgrp == 0) (fun _ => ⟨pid, false, colle⟩) state.running =
              some (slot, changed) ∧
          next = afterLaunch config true { state with
            c := state.pick config draw
            running := changed
            children := pid :: state.children
            launched := state.launched ++ [colle] } := by
  unfold launch at hlaunch
  cases hcolle : config.coll[state.pick config draw]? with
  | none => simp [hcolle] at hlaunch
  | some colle =>
    refine ⟨colle, rfl, ?_⟩
    simp only [hcolle, Option.map_eq_some_iff] at hlaunch
    obtain ⟨middle, hchild, rfl⟩ := hlaunch
    cases outcome with
    | refused =>
      cases hchild
      rfl
    | execFailed status =>
      cases hchild
      rfl
    | started pid =>
      simp only [runChild, Option.map_eq_some_iff] at hchild
      obtain ⟨⟨slot, changed⟩, hresult, rfl⟩ := hchild
      exact ⟨slot, changed, hresult, rfl⟩

theorem consistent_launch (hconsistent : Consistent config state) {draw : ℕ}
    {outcome : Launch} (hpossible : outcome.possible state = true)
    (hlaunch : launch config state draw outcome = some next) :
    Consistent config next := by
  obtain ⟨colle, -, houtcome⟩ := launch_cases hlaunch
  cases outcome with
  | refused =>
    cases houtcome
    exact ⟨hconsistent.length, hconsistent.watched, hconsistent.nodup, hconsistent.active⟩
  | execFailed status =>
    cases houtcome
    exact ⟨hconsistent.length, hconsistent.watched, hconsistent.nodup, hconsistent.active⟩
  | started pid =>
    obtain ⟨slot, changed, hresult, rfl⟩ := houtcome
    simp only [Launch.possible, Bool.and_eq_true, bne_iff_ne, ne_eq,
      Bool.not_eq_true', List.contains_eq_mem,
      decide_eq_false_iff_not] at hpossible
    have hoccupied := hconsistent.occupy hpossible.1 hpossible.2 hresult
    exact ⟨hoccupied.length, hoccupied.watched, hoccupied.nodup, hoccupied.active⟩

/-- What a round of `check_pids` leads to. -/
theorem consistent_checkPids (hconsistent : Consistent config state)
    (gone : List ℕ) {result : WaitResult}
    (hpossible : result.possible state = true) :
    Consistent config (checkPids config state gone result).1 := by
  have horphans : Consistent config (checkOrphans gone state) :=
    ⟨hconsistent.length, hconsistent.watched, hconsistent.nodup, hconsistent.active⟩
  cases result with
  | interrupted => exact horphans
  | noChild => exact horphans
  | reaped pid status leftover =>
    rw [WaitResult.possible_reaped] at hpossible
    obtain ⟨slot, changed, -, hreap, hresult⟩ := horphans.reap_eq hpossible.1 hpossible.2 leftover
    simp only [checkPids, hreap]
    exact horphans.vacated hpossible.1 hresult

theorem consistent_step {event : Event} (hconsistent : Consistent config state)
    (hstep : step config state event = some next) :
    Consistent config next := by
  cases event with
  | launch draw outcome =>
    rw [step_launch_iff] at hstep
    exact consistent_launch hconsistent hstep.1.2.2.2 hstep.2
  | leave =>
    obtain ⟨-, rfl⟩ := step_leave_iff.mp hstep
    exact (sameBooks_leaveSchedule config state).consistent hconsistent
  | handle stopFile gone =>
    obtain ⟨-, rfl⟩ := step_handle_iff.mp hstep
    have hhandle := ((sameBooks_countStop stopFile state).trans
      (sameBooks_handleSignal gone _)).consistent hconsistent
    exact ⟨hhandle.length, hhandle.watched, hhandle.nodup, hhandle.active⟩
  | wait gone result =>
    obtain ⟨⟨-, hpossible⟩, rfl⟩ := step_wait_iff.mp hstep
    have hchecked := consistent_checkPids hconsistent gone hpossible
    apply (sameBooks_endRound _).consistent
    unfold afterCheck
    split
    · exact hchecked
    · exact (sameBooks_afterFailure config _).consistent hchecked
  | drain gone =>
    obtain ⟨-, rfl⟩ := step_drain_iff.mp hstep
    exact (sameBooks_drainOrphans gone state).consistent hconsistent
  | signal signal =>
    obtain ⟨-, rfl⟩ := step_signal_iff.mp hstep
    exact (sameBooks_waitHandler signal state).consistent hconsistent

/-- In every reachable state the table, the counter and the system agree. -/
theorem consistent_reachable (hreachable : Reachable config state) : Consistent config state := by
  apply hreachable.invariant
  · rintro start rfl
    exact consistent_start
  · intro event before after hconsistent hstep
    exact consistent_step hconsistent hstep

end Steps

section Effects

/-- What an event writes. -/
def State.filesAfter (config : Config) (state : State) : Event → Files
  | .launch draw (.execFailed status) =>
    match config.coll[state.pick config draw]? with
    | none => state.files
    | some colle => state.files.report config colle status.kind status.value
        (execVerdict status.value)
  | .wait _ (.reaped pid status _) =>
    match state.slotOf pid with
    | none => state.files
    | some slot => slot.settle config status state.files
  | _ => state.files

/-- Whether an event makes `check_pids` return an error. -/
def State.failing (state : State) : Event → Bool
  | .wait _ (.reaped pid status _) =>
    match state.slotOf pid with
    | none => false
    | some slot => slot.err status != 0
  | _ => false

variable {config : Config} {state next : State}

theorem launch_files {draw : ℕ} {outcome : Launch}
    (hlaunch : launch config state draw outcome = some next) :
    next.files = state.filesAfter config (.launch draw outcome) ∧
      next.exitStat = state.exitStat := by
  obtain ⟨colle, hcolle, houtcome⟩ := launch_cases hlaunch
  cases outcome with
  | refused =>
    cases houtcome
    exact ⟨rfl, rfl⟩
  | execFailed status =>
    cases houtcome
    refine ⟨?_, rfl⟩
    simp only [State.filesAfter, hcolle]
    rfl
  | started pid =>
    obtain ⟨slot, changed, -, rfl⟩ := houtcome
    exact ⟨rfl, rfl⟩

/-- A reaped child is written down for its slot, and the slot decides whether
there is an error. -/
theorem checkPids_files (hconsistent : Consistent config state)
    (gone : List ℕ) {result : WaitResult}
    (hpossible : result.possible state = true) :
    (checkPids config state gone result).1.files = state.filesAfter config (.wait gone result) ∧
      (checkPids config state gone result).1.exitStat = state.exitStat ∧
      ((checkPids config state gone result).2 ≠ 0 ↔ state.failing (.wait gone result) = true) := by
  cases result with
  | interrupted => exact ⟨rfl, rfl, by simp [checkPids, State.failing]⟩
  | noChild => exact ⟨rfl, rfl, by simp [checkPids, State.failing]⟩
  | reaped pid status leftover =>
    rw [WaitResult.possible_reaped] at hpossible
    have horphans : Consistent config (checkOrphans gone state) :=
      ⟨hconsistent.length, hconsistent.watched, hconsistent.nodup, hconsistent.active⟩
    obtain ⟨slot, changed, hslot, hreap, -⟩ := horphans.reap_eq hpossible.1 hpossible.2 leftover
    have hsame : state.slotOf pid = some slot := hslot
    simp only [checkPids, hreap, State.filesAfter, State.failing, hsame]
    exact ⟨rfl, rfl, by simp⟩

/-- The abort for want of a slot is never taken. -/
theorem Consistent.leaveSchedule_eq (hconsistent : Consistent config state)
    (hleave : ¬(state.wantsChild config = true ∧ state.hasSlot = true)) :
    state.wantsChild config = false ∧
      leaveSchedule config state = { state with control := .scheduled } := by
  have hwants : state.wantsChild config = false := by
    by_contra hwants
    rw [Bool.not_eq_false] at hwants
    have hactive : state.numActive < config.keepActive := by
      simp only [State.wantsChild, Bool.and_eq_true, decide_eq_true_eq] at hwants
      exact hwants.1.1
    exact hleave ⟨hwants, hconsistent.hasSlot hactive⟩
  refine ⟨hwants, ?_⟩
  simp [leaveSchedule, hwants]

theorem step_files {event : Event} (hconsistent : Consistent config state)
    (hstep : step config state event = some next) :
    next.files = state.filesAfter config event := by
  cases event with
  | launch draw outcome =>
    exact (launch_files (step_launch_iff.mp hstep).2).1
  | leave =>
    obtain ⟨-, rfl⟩ := step_leave_iff.mp hstep
    exact (sameBooks_leaveSchedule config state).files
  | handle stopFile gone =>
    obtain ⟨-, rfl⟩ := step_handle_iff.mp hstep
    exact ((sameBooks_countStop stopFile state).trans (sameBooks_handleSignal gone _)).files
  | wait gone result =>
    obtain ⟨⟨-, hpossible⟩, rfl⟩ := step_wait_iff.mp hstep
    have hfiles := (checkPids_files hconsistent gone hpossible).1
    refine (sameBooks_endRound _).files.trans ?_
    unfold afterCheck
    split
    · exact hfiles
    · exact (sameBooks_afterFailure config _).files.trans hfiles
  | drain gone =>
    obtain ⟨-, rfl⟩ := step_drain_iff.mp hstep
    exact (sameBooks_drainOrphans gone state).files
  | signal signal =>
    obtain ⟨-, rfl⟩ := step_signal_iff.mp hstep
    exact (sameBooks_waitHandler signal state).files

/-- The exit status counts the errors of `check_pids`. -/
theorem step_exitStat {event : Event} (hconsistent : Consistent config state)
    (hstep : step config state event = some next) :
    next.exitStat = state.exitStat +
      if config.trackExitStats ∧ state.failing event then 1 else 0 := by
  cases event with
  | launch draw outcome =>
    simp [(launch_files (step_launch_iff.mp hstep).2).2, State.failing]
  | leave =>
    obtain ⟨⟨-, hleave⟩, rfl⟩ := step_leave_iff.mp hstep
    rw [(hconsistent.leaveSchedule_eq hleave).2]
    simp [State.failing]
  | handle stopFile gone =>
    obtain ⟨-, rfl⟩ := step_handle_iff.mp hstep
    simp [State.failing]
  | wait gone result =>
    obtain ⟨⟨-, hpossible⟩, rfl⟩ := step_wait_iff.mp hstep
    obtain ⟨-, hexit, herr⟩ := checkPids_files hconsistent gone hpossible
    rw [checkRound, endRound_exitStat, afterCheck]
    by_cases hzero : (checkPids config state gone result).2 = 0
    · have hquiet : state.failing (.wait gone result) = false := by
        simpa [hzero] using herr
      simp [hexit, hzero, hquiet]
    · rw [if_neg hzero, afterFailure_exitStat, hexit, herr.mp hzero]
      by_cases htrack : config.trackExitStats = true
      · simp [htrack]
      · simp [htrack]
  | drain gone =>
    obtain ⟨-, rfl⟩ := step_drain_iff.mp hstep
    simp [State.failing]
  | signal signal =>
    obtain ⟨-, rfl⟩ := step_signal_iff.mp hstep
    simp [State.failing]

theorem endRound_control : (endRound state).control = .drain ∨
      (endRound state).control = .schedule := by
  unfold endRound
  split
  · exact .inl rfl
  · split
    · exact .inr rfl
    · exact .inr rfl

theorem launch_control {draw : ℕ} {outcome : Launch}
    (hlaunch : launch config state draw outcome = some next) :
    next.control = state.control := by
  obtain ⟨colle, -, houtcome⟩ := launch_cases hlaunch
  cases outcome with
  | refused =>
    cases houtcome
    rfl
  | execFailed status =>
    cases houtcome
    rfl
  | started pid =>
    obtain ⟨slot, changed, -, rfl⟩ := houtcome
    rfl

theorem drainOrphans_control {gone : List ℕ} (hdrain : state.control = .drain) :
    (drainOrphans gone state).control = .drain ∨
      (drainOrphans gone state).control = .exited (state.exitStat % 256) := by
  unfold drainOrphans
  split
  · exact .inr rfl
  · split
    · exact .inl ((waitHandler_control .int state).trans hdrain)
    · exact .inl hdrain

end Effects

/-- A computed run is a run. -/
theorem trace_of_replay {config : Config} {events : List Event}
    {past : List (State × Event)} {state : State}
    (hreplay : Transition.replay (step config) (State.start config) events =
      some (past, state)) : Trace config past state := by
  have hstart : Trace config [] (State.start config) := .initial rfl
  exact hstart.replay (fun _ _ _ hstep => hstep) hreplay

theorem trace_of_runEvents {config : Config} {events : List Event}
    {View : Type} {view : State → View} {value : View}
    (hrun : (runEvents config events).map view = some value) :
    ∃ past state, Trace config past state ∧ view state = value := by
  obtain ⟨state, hstate, hview⟩ := Option.map_eq_some_iff.mp hrun
  obtain ⟨⟨past, final⟩, hreplay, rfl⟩ := Option.map_eq_some_iff.mp hstate
  exact ⟨past, final, trace_of_replay hreplay, hview⟩

end GrapheneLtp.Pan
