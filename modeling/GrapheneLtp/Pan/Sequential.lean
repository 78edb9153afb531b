import Mathlib.Tactic
import GrapheneLtp.Pan.Bookkeeping

/-!
# Sequential runs of ltp-pan

With `-S`, a limit on the starts and no signals, the driver goes through the
collection in order.  Every launch leads to one line in the log, and a measure
over the starts left and the children alive bounds the rounds of the main loop.
-/

namespace GrapheneLtp.Pan

open Collection (CollEntry)

section Ledger

/-- What the end of a round leaves alone. -/
structure SameLedger (state next : State) : Prop
    extends SameBooks state next where
  c : next.c = state.c
  starts : next.starts = state.starts
  stop : next.stop = state.stop

variable {config : Config} {state next : State}

theorem SameLedger.trans {middle : State} (hfirst : SameLedger state middle)
    (hsecond : SameLedger middle next) : SameLedger state next where
  toSameBooks := hfirst.toSameBooks.trans hsecond.toSameBooks
  c := hsecond.c.trans hfirst.c
  starts := hsecond.starts.trans hfirst.starts
  stop := hsecond.stop.trans hfirst.stop

theorem sameLedger_waitHandler (signal : Signal) (state : State) :
    SameLedger state (waitHandler signal state) := by
  unfold waitHandler
  split
  · exact ⟨⟨rfl, rfl, rfl, rfl, rfl⟩, rfl, rfl, rfl⟩
  · exact ⟨⟨rfl, rfl, rfl, rfl, rfl⟩, rfl, rfl, rfl⟩

theorem sameLedger_afterFailure (config : Config) (state : State) :
    SameLedger state (afterFailure config state) := by
  have hcount : SameLedger state (countFailure config state) :=
    ⟨⟨rfl, rfl, rfl, rfl, rfl⟩, rfl, rfl, rfl⟩
  unfold afterFailure
  split
  · exact hcount.trans (sameLedger_waitHandler .int _)
  · exact hcount

theorem sameLedger_endRound (state : State) : SameLedger state (endRound state) := by
  unfold endRound
  split
  · exact ⟨⟨rfl, rfl, rfl, rfl, rfl⟩, rfl, rfl, rfl⟩
  · split
    · exact ⟨⟨rfl, rfl, rfl, rfl, rfl⟩, rfl, rfl, rfl⟩
    · exact ⟨⟨rfl, rfl, rfl, rfl, rfl⟩, rfl, rfl, rfl⟩

theorem sameLedger_drainOrphans (gone : List ℕ) (state : State) :
    SameLedger state (drainOrphans gone state) := by
  have hpropagate (inner : State) : SameLedger inner (propagateSignal gone inner) :=
    ⟨sameBooks_propagateSignal gone inner, rfl, rfl, rfl⟩
  unfold drainOrphans
  split
  · exact ⟨⟨rfl, rfl, rfl, rfl, rfl⟩, rfl, rfl, rfl⟩
  · split
    · exact (sameLedger_waitHandler .int state).trans (hpropagate _)
    · exact hpropagate state

/-- The commands launched so far are the first of the collection, read round
and round; each has its line in the log or runs in a slot. -/
structure Ledger (config : Config) (total : ℕ) (state : State) : Prop where
  starts : state.starts = (total : ℤ) - state.launched.length
  within : state.launched.length ≤ total
  index : state.c = state.launched.length % config.coll.length
  order : ∀ index < state.launched.length,
    state.launched[index]? = config.coll[index % config.coll.length]?
  lines : (state.files.log.map LogLine.cmd ++
    (active state.running).map TagPgrp.cmd).Perm state.launched
  stopped : state.stop ≠ 0 → state.starts = 0

variable {total : ℕ}

theorem SameLedger.ledger (hsame : SameLedger state next)
    (hledger : Ledger config total state) : Ledger config total next where
  starts := by rw [hsame.starts, hsame.launched, hledger.starts]
  within := hsame.launched ▸ hledger.within
  index := by rw [hsame.c, hsame.launched, hledger.index]
  order := hsame.launched ▸ hledger.order
  lines := by
    have hcmds := congrArg (List.map Prod.snd) (active_of_slots hsame.slots)
    rw [List.map_map, List.map_map] at hcmds
    rw [hsame.launched, hsame.files]
    exact hcmds ▸ hledger.lines
  stopped := by
    rw [hsame.stop, hsame.starts]
    exact hledger.stopped

theorem ledger_start (hstarts : config.startsDefault = total) :
    Ledger config total (State.start config) where
  starts := by simp [State.start, hstarts]
  within := Nat.zero_le total
  index := (Nat.zero_mod _).symm
  order := by simp [State.start]
  lines := by simp [State.start, active]
  stopped := fun hstop => absurd rfl hstop

end Ledger

section Launches

variable {config : Config} {total : ℕ} {state next : State}

/-- The index goes round the collection. -/
theorem index_succ {count length : ℕ} (hlength : 0 < length) :
    (if count % length + 1 ≥ length then 0 else count % length + 1) = (count + 1) % length := by
  have hlt := Nat.mod_lt count hlength
  rw [← Nat.mod_add_mod]
  split
  · rename_i hwrap
    have hfull : count % length + 1 = length := by omega
    rw [hfull, Nat.mod_self]
  · rename_i hstay
    rw [Nat.mod_eq_of_lt (Nat.lt_of_not_ge hstay)]

theorem wantsChild_iff : state.wantsChild config = true ↔
      state.numActive < config.keepActive ∧ state.starts ≠ 0 ∧
        state.stop = 0 ∧ state.recSignal = none ∧ state.goIdle = 0 := by
  simp only [State.wantsChild, Bool.and_eq_true, Bool.not_eq_true',
    Bool.or_eq_false_iff, decide_eq_true_eq, decide_eq_false_iff_not,
    Option.isSome_eq_false_iff, Option.isNone_iff_eq_none, ne_eq, not_not,
    and_assoc]

/-- A launch is the next entry, whatever comes of it. -/
theorem Ledger.launch (hledger : Ledger config total state)
    (hsequential : config.sequential = true) (hcoll : config.coll ≠ [])
    (hstarts : state.starts ≠ 0) {colle : CollEntry}
    (hcolle : config.coll[state.c]? = some colle)
    {running : List TagPgrp} {children : List ℕ} {files : Files}
    (hstop : state.stop = 0) (started : Bool)
    (hlines : (files.log.map LogLine.cmd ++
      (active running).map TagPgrp.cmd).Perm (state.launched ++ [colle])) :
    Ledger config total (afterLaunch config started { state with
      running := running
      children := children
      files := files
      launched := state.launched ++ [colle] }) where
  starts := by
    have hpositive : 0 < state.starts := by
      have := hledger.starts
      have := hledger.within
      omega
    have hcount := hledger.starts
    simp only [afterLaunch, hsequential, or_true, hpositive, and_self, if_true,
      List.length_append, List.length_singleton]
    push_cast
    omega
  within := by
    have hcount := hledger.starts
    have hwithin := hledger.within
    simp only [afterLaunch, List.length_append, List.length_singleton]
    omega
  index := by
    have hlength : 0 < config.coll.length := List.length_pos_iff.mpr hcoll
    simp only [afterLaunch, hsequential, if_true, List.length_append, List.length_singleton]
    rw [hledger.index, index_succ hlength]
  order := by
    intro index hindex
    simp only [afterLaunch, List.length_append, List.length_singleton] at hindex
    simp only [afterLaunch]
    rcases Nat.lt_succ_iff_lt_or_eq.mp hindex with hold | hlast
    · rw [List.getElem?_append_left hold]
      exact hledger.order index hold
    · rw [hlast, List.getElem?_concat_length, ← hledger.index, hcolle]
  lines := hlines
  stopped := fun hstopped => absurd hstop hstopped

end Launches

section Lines

variable {config : Config}

theorem report_cmds (hlog : config.logfile = true) (files : Files)
    (cmd : CollEntry) (kind : Kind) (value : ℕ) (verdict : Verdict) :
    (files.report config cmd kind value verdict).log.map LogLine.cmd =
      files.log.map LogLine.cmd ++ [cmd] := by
  by_cases hformatted : config.fmtPrint = true
  · simp [Files.report, hlog, hformatted]
  · simp [Files.report, hlog, hformatted]

theorem listCommand_log (files : Files) (cmd : CollEntry) (value : ℕ) :
    (files.listCommand config cmd value).log = files.log := by
  unfold Files.listCommand
  split
  · split
    · rfl
    · split <;> rfl
  · rfl

theorem settle_cmds (hlog : config.logfile = true) (slot : TagPgrp)
    (status : WaitStatus) (files : Files) :
    (slot.settle config status files).log.map LogLine.cmd =
      files.log.map LogLine.cmd ++ [slot.cmd] := by
  rw [TagPgrp.settle, listCommand_log, report_cmds hlog]

end Lines

section Progress

/-- What each part of the main loop leaves behind. -/
def Phase (config : Config) (state : State) : Prop :=
  match state.control with
  | .schedule => True
  | .scheduled => state.wantsChild config = false
  | .check => (state.starts = 0 → state.stop ≠ 0) ∧ (state.stop = 0 → state.goIdle = 0 →
        (config.keepActive : ℤ) ≤ state.numActive)
  | .drain => state.stop ≠ 0 ∧ state.numActive = 0
  | .exited _ => state.stop ≠ 0 ∧ state.numActive = 0

/-- The invariant of sequential runs without signals. -/
structure Sequenced (config : Config) (total : ℕ) (state : State) : Prop where
  books : Consistent config state
  ledger : Ledger config total state
  phase : Phase config state

/-- The main loop has not ended. -/
def Control.inLoop : Control → Bool
  | .schedule => true
  | .scheduled => true
  | .check => true
  | .drain => false
  | .exited _ => false

/-- The starts left, the children alive, and an idle phase to come. -/
def State.load (state : State) : ℕ := 3 * state.starts.toNat + 2 * state.children.length +
    if state.goIdle = 0 then 0 else 1

/-- What every event of the main loop makes smaller. -/
def State.work (state : State) : ℕ :=
  match state.control with
  | .schedule => 4 * state.load + 3
  | .scheduled => 4 * state.load + 2
  | .check => 4 * state.load + 1
  | .drain => 0
  | .exited _ => 0

/-- The system had no process or file for the launch. -/
def Event.refused : Event → Bool
  | .launch _ .refused => true
  | _ => false

variable {config : Config} {total : ℕ} {state next : State}

theorem Phase.unwanted (hphase : Phase config state) (hcontrol : state.control = .scheduled) :
    state.wantsChild config = false := by
  rwa [Phase, hcontrol] at hphase

theorem Phase.full (hphase : Phase config state) (hcontrol : state.control = .check)
    (hstop : state.stop = 0) (hidle : state.goIdle = 0) :
    (config.keepActive : ℤ) ≤ state.numActive := by
  rw [Phase, hcontrol] at hphase
  exact hphase.2 hstop hidle

/-- Behind the main loop the driver has stopped, and no child is left. -/
theorem Phase.ended (hphase : Phase config state) (hended : state.control.inLoop = false) :
    state.stop ≠ 0 ∧ state.numActive = 0 := by
  cases hcontrol : state.control with
  | schedule | scheduled | check => simp [hcontrol, Control.inLoop] at hended
  | drain | exited status => rwa [Phase, hcontrol] at hphase

theorem Phase.drained (hphase : Phase config state) (hcontrol : state.control = .drain)
    (gone : List ℕ) : Phase config (drainOrphans gone state) := by
  have hsame := sameLedger_drainOrphans gone state
  have hended := hphase.ended (hcontrol ▸ rfl)
  rw [← hsame.stop, ← hsame.numActive] at hended
  rcases drainOrphans_control hcontrol with hnext | hnext
  · rwa [Phase, hnext]
  · rwa [Phase, hnext]

/-- With starts left and nothing in the way, no child is wanted when all slots are
in use. -/
theorem full_of_unwanted (hunwanted : state.wantsChild config = false)
    (hstarts : state.starts ≠ 0) (hstop : state.stop = 0)
    (hquiet : state.recSignal = none) (hidle : state.goIdle = 0) :
    (config.keepActive : ℤ) ≤ state.numActive := by
  by_contra hfew
  have hwants := wantsChild_iff.mpr ⟨lt_of_not_ge hfew, hstarts, hstop, hquiet, hidle⟩
  exact Bool.false_ne_true (hunwanted.symm.trans hwants)

/-- A wait that finds no child: none is counted, and the round is idle or the last. -/
theorem noChild_cases (hbooks : Consistent config state) (hphase : Phase config state)
    (hkeep : 0 < config.keepActive) (hcontrol : state.control = .check)
    (hnone : state.children = []) :
    state.numActive = 0 ∧ (state.stop = 0 → state.goIdle ≠ 0) := by
  have hactive : state.numActive = 0 := by
    rw [hbooks.active, hnone]
    rfl
  refine ⟨hactive, fun hstop hidle => ?_⟩
  have hmany := hphase.full hcontrol hstop hidle
  omega

/-- The launch events. -/
theorem sequenced_launch (hsequential : config.sequential = true)
    (hcoll : config.coll ≠ []) (hlog : config.logfile = true) {draw : ℕ}
    {outcome : Launch} (hsequenced : Sequenced config total state)
    (hallowed : (Event.launch draw outcome).refused = false)
    (hstep : step config state (.launch draw outcome) = some next) :
    Sequenced config total next ∧ next.work < state.work := by
  have hbooks := consistent_step hsequenced.books hstep
  obtain ⟨⟨hcontrol, hwants, -, hpossible⟩, hlaunch⟩ := step_launch_iff.mp hstep
  obtain ⟨-, hstarts, hstop, -, -⟩ := wantsChild_iff.mp hwants
  obtain ⟨colle, hcolle, houtcome⟩ := launch_cases hlaunch
  have hpick : state.pick config draw = state.c := by
    simp [State.pick, hsequential]
  have hpositive : 0 < state.starts := by
    have hcount := hsequenced.ledger.starts
    have hwithin := hsequenced.ledger.within
    omega
  have hlines := hsequenced.ledger.lines
  rw [hpick] at hcolle houtcome
  cases outcome with
  | refused => cases hallowed
  | execFailed status =>
    cases houtcome
    refine ⟨⟨hbooks, ?_, by simp [Phase, afterLaunch, hcontrol]⟩, ?_⟩
    · apply hsequenced.ledger.launch hsequential hcoll hstarts hcolle hstop
      rw [report_cmds hlog, List.append_assoc]
      refine .trans ?_ (hlines.append_right [colle])
      rw [List.append_assoc]
      exact List.perm_append_comm.append_left _
    · simp only [State.work, State.load, afterLaunch, hcontrol, hsequential,
        hpositive, or_true, and_self, if_true, Bool.false_eq_true, if_false]
      omega
  | started pid =>
    obtain ⟨slot, changed, hresult, rfl⟩ := houtcome
    refine ⟨⟨hbooks, ?_, by simp [Phase, afterLaunch, hcontrol]⟩, ?_⟩
    · apply hsequenced.ledger.launch hsequential hcoll hstarts hcolle hstop
      have hpid : pid ≠ 0 := by
        simp only [Launch.possible, Bool.and_eq_true, bne_iff_ne] at hpossible
        exact hpossible.1
      have hoccupied := (active_occupied hpid hresult).map TagPgrp.cmd
      refine (hoccupied.append_left _).trans ?_
      refine .trans ?_ (hlines.append_right [colle])
      rw [List.append_assoc, List.map_cons]
      exact (List.perm_append_singleton colle _).symm.append_left _
    · simp only [State.work, State.load, afterLaunch, hcontrol, hsequential,
        hpositive, or_true, and_self, if_true, List.length_cons]
      omega

theorem sequenced_leave (hsequenced : Sequenced config total state)
    (hstep : step config state .leave = some next) :
    Sequenced config total next ∧ next.work < state.work := by
  have hbooks := consistent_step hsequenced.books hstep
  obtain ⟨⟨hcontrol, hleave⟩, rfl⟩ := step_leave_iff.mp hstep
  obtain ⟨hwants, hnext⟩ := hsequenced.books.leaveSchedule_eq hleave
  rw [hnext] at hbooks ⊢
  have hledger := hsequenced.ledger
  refine ⟨⟨hbooks, ⟨hledger.starts, hledger.within, hledger.index,
    hledger.order, hledger.lines, hledger.stopped⟩, hwants⟩, ?_⟩
  simp only [State.work, hcontrol]
  exact Nat.lt_succ_self _

/-- Without a signal only the end of the starts counts. -/
theorem countStop_cases (hledger : Ledger config total state) (stopFile : Bool) :
    (state.starts = 0 ∧ countStop stopFile state = { state with stop := state.stop + 1 }) ∨
      state.starts ≠ 0 ∧ countStop stopFile state = state := by
  unfold countStop
  split
  · rename_i hzero
    exact .inl ⟨hzero, rfl⟩
  · rename_i hstarts
    have hcount := hledger.starts
    have hwithin := hledger.within
    rw [if_neg (by omega)]
    exact .inr ⟨hstarts, rfl⟩

theorem sequenced_handle {stopFile : Bool} {gone : List ℕ}
    (hsequenced : Sequenced config total state)
    (hquiet : state.recSignal = none)
    (hstep : step config state (.handle stopFile gone) = some next) :
    Sequenced config total next ∧ next.work < state.work := by
  have hbooks := consistent_step hsequenced.books hstep
  obtain ⟨hcontrol, rfl⟩ := step_handle_iff.mp hstep
  have hledger := hsequenced.ledger
  rcases countStop_cases hledger stopFile with ⟨hzero, hstop⟩ | ⟨hstarts, hstop⟩
  · have hhandle : handleSignal gone (countStop stopFile state) =
        { state with stop := state.stop + 1 } := by
      rw [hstop, handleSignal]
      simp only [hquiet]
    rw [hhandle] at hbooks ⊢
    refine ⟨⟨hbooks, ⟨hledger.starts, hledger.within, hledger.index,
      hledger.order, hledger.lines, fun _ => hzero⟩, ?_⟩, ?_⟩
    · exact ⟨fun _ => Nat.succ_ne_zero _, fun hnever => absurd hnever (Nat.succ_ne_zero _)⟩
    · simp only [State.work, State.load, hcontrol]
      exact Nat.lt_succ_self _
  · have hhandle : handleSignal gone (countStop stopFile state) = state := by
      rw [hstop, handleSignal]
      simp only [hquiet]
    rw [hhandle] at hbooks ⊢
    refine ⟨⟨hbooks, ⟨hledger.starts, hledger.within, hledger.index,
      hledger.order, hledger.lines, hledger.stopped⟩, ?_⟩, ?_⟩
    · refine ⟨fun hzero => absurd hzero hstarts, fun hnostop hnoidle => ?_⟩
      exact full_of_unwanted (hsequenced.phase.unwanted hcontrol) hstarts hnostop hquiet hnoidle
    · simp only [State.work, State.load, hcontrol]
      exact Nat.lt_succ_self _

/-- The end of a round, with no bound on how it got there. -/
theorem phase_endRound (state : State) : Phase config (endRound state) := by
  unfold endRound
  split
  · rename_i hend
    exact hend
  · split
    · trivial
    · trivial

theorem endRound_recSignal (state : State) : (endRound state).recSignal = state.recSignal := by
  unfold endRound
  split
  · rfl
  · split <;> rfl

theorem work_endRound (state : State) : (endRound state).work ≤ 4 * state.load + 3 := by
  unfold endRound
  split
  · exact Nat.zero_le _
  · split
    · simp only [State.work, State.load, if_true]
      omega
    · exact le_rfl

/-- With no child left the round ends the loop or an idle phase. -/
theorem work_endRound_idle (hactive : state.numActive = 0)
    (hend : state.stop = 0 → state.goIdle ≠ 0) :
    (endRound state).work < 4 * state.load + 1 := by
  unfold endRound
  split
  · exact Nat.succ_pos _
  · rename_i hstop
    have hidle : state.goIdle ≠ 0 := hend (by_contra fun hstopped => hstop ⟨hstopped, hactive⟩)
    rw [if_pos ⟨hidle, hactive⟩]
    simp only [State.work, State.load, hidle, if_true, if_false]
    omega

theorem sameLedger_afterCheck (config : Config) (checked : State × ℤ) :
    SameLedger checked.1 (afterCheck config checked) := by
  unfold afterCheck
  split
  · exact ⟨.refl _, rfl, rfl, rfl⟩
  · exact sameLedger_afterFailure config checked.1

theorem load_afterCheck (config : Config) (checked : State × ℤ) : (afterCheck config checked).load ≤
      3 * checked.1.starts.toNat + 2 * checked.1.children.length + 1 := by
  have hsame := sameLedger_afterCheck config checked
  rw [State.load, hsame.starts, hsame.children]
  split <;> omega

/-- A reaped child moves from its slot to the log. -/
theorem Ledger.reap (hledger : Ledger config total state)
    (hlog : config.logfile = true) {slot : TagPgrp} {changed : List TagPgrp}
    (hvacated : (active state.running).Perm (slot :: active changed))
    (status : WaitStatus) (numActive : ℤ) (children orphans : List ℕ) :
    Ledger config total { state with
      numActive := numActive
      children := children
      running := changed
      files := slot.settle config status state.files
      orphans := orphans } where
  starts := hledger.starts
  within := hledger.within
  index := hledger.index
  order := hledger.order
  lines := by
    have hlines := hledger.lines
    have hcmds := (hvacated.map TagPgrp.cmd).append_left (state.files.log.map LogLine.cmd)
    rw [settle_cmds hlog, List.append_assoc]
    exact hcmds.symm.trans hlines
  stopped := hledger.stopped

theorem sequenced_reaped (hlog : config.logfile = true) {gone : List ℕ}
    {pid : ℕ} {status : WaitStatus} {leftover : Bool}
    (hsequenced : Sequenced config total state)
    (hstep : step config state (.wait gone (.reaped pid status leftover)) = some next) :
    Sequenced config total next ∧ next.work < state.work := by
  have hbooks := consistent_step hsequenced.books hstep
  obtain ⟨⟨hcontrol, hpossible⟩, rfl⟩ := step_wait_iff.mp hstep
  obtain ⟨hpid, hended⟩ := WaitResult.possible_reaped.mp hpossible
  have hledger := hsequenced.ledger
  have horphans : Sequenced config total (checkOrphans gone state) := by
    refine ⟨?_, ?_, hsequenced.phase⟩
    · exact ⟨hsequenced.books.length, hsequenced.books.watched,
        hsequenced.books.nodup, hsequenced.books.active⟩
    · exact ⟨hledger.starts, hledger.within, hledger.index, hledger.order,
        hledger.lines, hledger.stopped⟩
  obtain ⟨slot, changed, -, hreap, hresult⟩ := horphans.books.reap_eq hpid hended leftover
  obtain ⟨-, hvacated⟩ := active_vacated (hsequenced.books.pid_ne_zero hpid) hresult
  set checked := checkPids config state gone (.reaped pid status leftover)
    with hchecked
  have hreaped : checked = _ := hchecked.trans hreap
  refine ⟨⟨hbooks, ?_, phase_endRound _⟩, ?_⟩
  · apply ((sameLedger_afterCheck config checked).trans (sameLedger_endRound _)).ledger
    rw [hreaped]
    exact horphans.ledger.reap hlog hvacated status _ _ _
  · have hload := load_afterCheck config checked
    have hwork := work_endRound (afterCheck config checked)
    have hlength := List.length_erase_of_mem hpid
    have hpositive := List.length_pos_of_mem hpid
    have hstarts : checked.1.starts = state.starts := by
      rw [hreaped]
      rfl
    have hchildren : checked.1.children = state.children.erase pid := by
      rw [hreaped]
      rfl
    rw [hstarts, hchildren, hlength] at hload
    have hbefore : state.work = 4 * state.load + 1 := by
      rw [State.work, hcontrol]
    have hatLeast : 3 * state.starts.toNat + 2 * state.children.length ≤
        state.load := Nat.le_add_right _ _
    rw [hbefore]
    refine lt_of_le_of_lt hwork ?_
    omega

theorem sequenced_noChild (hkeep : 0 < config.keepActive) {gone : List ℕ}
    (hsequenced : Sequenced config total state)
    (hstep : step config state (.wait gone .noChild) = some next) :
    Sequenced config total next ∧ next.work < state.work := by
  have hbooks := consistent_step hsequenced.books hstep
  obtain ⟨⟨hcontrol, hnone⟩, rfl⟩ := step_wait_iff.mp hstep
  have hledger := hsequenced.ledger
  obtain ⟨hactive, hidle⟩ := noChild_cases hsequenced.books hsequenced.phase hkeep hcontrol
    (WaitResult.possible_noChild.mp hnone)
  have hround : checkRound config state gone .noChild = endRound (checkOrphans gone state) := rfl
  rw [hround] at hbooks ⊢
  refine ⟨⟨hbooks, ?_, phase_endRound _⟩, ?_⟩
  · apply (sameLedger_endRound _).ledger
    exact ⟨hledger.starts, hledger.within, hledger.index, hledger.order,
      hledger.lines, hledger.stopped⟩
  · have hbefore : state.work = 4 * (checkOrphans gone state).load + 1 := by
      rw [State.work, hcontrol]
      rfl
    rw [hbefore]
    exact work_endRound_idle hactive hidle

theorem sequenced_drain {gone : List ℕ} (hsequenced : Sequenced config total state)
    (hstep : step config state (.drain gone) = some next) :
    Sequenced config total next ∧ next.work = 0 ∧ state.control.inLoop = false := by
  have hbooks := consistent_step hsequenced.books hstep
  obtain ⟨hcontrol, rfl⟩ := step_drain_iff.mp hstep
  have hsame := sameLedger_drainOrphans gone state
  have hledger := hsame.ledger hsequenced.ledger
  refine ⟨⟨hbooks, hledger, hsequenced.phase.drained hcontrol gone⟩, ?_, hcontrol ▸ rfl⟩
  rcases drainOrphans_control hcontrol with hnext | hnext
  · rw [State.work, hnext]
  · rw [State.work, hnext]

/-- One event of a sequential run without signals. -/
theorem sequenced_step (hsequential : config.sequential = true)
    (hcoll : config.coll ≠ []) (hkeep : 0 < config.keepActive)
    (hlog : config.logfile = true) {event : Event}
    (hsequenced : Sequenced config total state)
    (hallowed : event.refused = false) (hquiet : state.recSignal = none)
    (hnext : next.recSignal = none)
    (hstep : step config state event = some next) :
    Sequenced config total next ∧
      next.work + (if state.control.inLoop then 1 else 0) ≤ state.work := by
  have hloop (hwork : next.work < state.work) :
      next.work + (if state.control.inLoop then 1 else 0) ≤ state.work := by
    split <;> omega
  cases event with
  | launch draw outcome =>
    exact (sequenced_launch hsequential hcoll hlog hsequenced hallowed hstep).imp_right hloop
  | leave => exact (sequenced_leave hsequenced hstep).imp_right hloop
  | handle stopFile gone =>
    exact (sequenced_handle hsequenced hquiet hstep).imp_right hloop
  | wait gone result =>
    cases result with
    | interrupted => simp [step, WaitResult.possible, hquiet] at hstep
    | noChild =>
      exact (sequenced_noChild hkeep hsequenced hstep).imp_right hloop
    | reaped pid status leftover =>
      exact (sequenced_reaped hlog hsequenced hstep).imp_right hloop
  | drain gone =>
    obtain ⟨hafter, hwork, hcontrol⟩ := sequenced_drain hsequenced hstep
    refine ⟨hafter, ?_⟩
    rw [hwork, hcontrol]
    exact Nat.zero_le _
  | signal signal =>
    rw [← (step_signal_iff.mp hstep).2] at hnext
    unfold waitHandler at hnext
    split at hnext
    · cases hnext
    · cases hnext

/-- A child that exits with 0 raises no signal, brakes or not. -/
theorem recSignal_cleanExit (hconsistent : Consistent config state) {pid : ℕ}
    (hpid : pid ∈ state.children) :
    (checkRound config state [] (.reaped pid (.exited 0) false)).recSignal =
      state.recSignal := by
  have horphans : Consistent config (checkOrphans [] state) :=
    ⟨hconsistent.length, hconsistent.watched, hconsistent.nodup, hconsistent.active⟩
  have hended : (WaitStatus.exited 0).ended = true := rfl
  obtain ⟨slot, changed, -, hreap, -⟩ := horphans.reap_eq hpid hended false
  have herr : slot.err (.exited 0) = 0 := by
    simp [TagPgrp.err, statusErr, TagPgrp.interrupted, WaitStatus.value, WaitStatus.kind]
  rw [checkRound, endRound_recSignal]
  simp only [checkPids, hreap, afterCheck, herr, if_true]
  rfl

/-- Short of its end the main loop can go on: the next command is there to be
launched, and a child that runs can end. -/
theorem sequenced_progress (hsequential : config.sequential = true)
    (hcoll : config.coll ≠ []) (hsequenced : Sequenced config total state)
    (hquiet : state.recSignal = none)
    (hloop : state.control.inLoop = true) :
    ∃ event next, event.refused = false ∧ next.recSignal = none ∧
      step config state event = some next := by
  cases hcontrol : state.control with
  | schedule =>
    by_cases hlaunch : state.wantsChild config = true ∧ state.hasSlot = true
    · have hlength : 0 < config.coll.length := List.length_pos_iff.mpr hcoll
      have hindex : state.c < config.coll.length := by
        rw [hsequenced.ledger.index]
        exact Nat.mod_lt _ hlength
      have hstep : ∃ next, step config state (.launch 0 (.execFailed (.exited 1))) = some next ∧
            next.recSignal = state.recSignal := by
        simp only [step, hcontrol, hlaunch.1, hlaunch.2, Launch.possible,
          WaitStatus.ended, and_self, if_true]
        simp only [launch, State.pick, hsequential, if_true,
          List.getElem?_eq_getElem hindex, runChild, Option.map_some]
        exact ⟨_, rfl, rfl⟩
      obtain ⟨next, hnext, hsignal⟩ := hstep
      exact ⟨_, next, rfl, hsignal.trans hquiet, hnext⟩
    · refine ⟨.leave, leaveSchedule config state, rfl, ?_, ?_⟩
      · rw [(hsequenced.books.leaveSchedule_eq hlaunch).2]
        exact hquiet
      · simp only [step, hcontrol, hlaunch, not_false_eq_true, and_self,
          if_true]
  | scheduled =>
    refine ⟨.handle false [], { handleSignal [] (countStop false state) with
      control := .check }, rfl, ?_, ?_⟩
    · rcases countStop_cases hsequenced.ledger false with
        ⟨-, hstop⟩ | ⟨-, hstop⟩
      · rw [hstop, handleSignal]
        simp only [hquiet]
      · rw [hstop, handleSignal]
        simp only [hquiet]
    · simp only [step, hcontrol, if_true]
  | check =>
    cases hchildren : state.children with
    | nil =>
      refine ⟨.wait [] .noChild, checkRound config state [] .noChild, rfl, ?_, ?_⟩
      · exact (endRound_recSignal _).trans hquiet
      · simp only [step, hcontrol, WaitResult.possible, hchildren,
          List.isEmpty_nil, and_self, if_true]
    | cons pid rest =>
      have hpid : pid ∈ state.children := hchildren ▸ List.mem_cons_self
      refine ⟨.wait [] (.reaped pid (.exited 0) false),
        checkRound config state [] (.reaped pid (.exited 0) false), rfl,
        ?_, ?_⟩
      · exact (recSignal_cleanExit hsequenced.books hpid).trans hquiet
      · simp only [step, hcontrol, WaitResult.possible, WaitStatus.ended,
          List.contains_eq_mem, hpid, decide_true, Bool.and_self, and_self,
          if_true]
  | drain => simp [hcontrol, Control.inLoop] at hloop
  | exited status => simp [hcontrol, Control.inLoop] at hloop

end Progress

section Runs

variable {config : Config} {total : ℕ} {past : List (State × Event)} {state : State}

/-- No signal has arrived, and the system has refused no launch. -/
def Undisturbed (past : List (State × Event)) (state : State) : Prop :=
  (∀ entry ∈ past, entry.1.recSignal = none ∧ entry.2.refused = false) ∧ state.recSignal = none

theorem sequenced_trace (hcoll : config.coll ≠ [])
    (hkeep : 0 < config.keepActive) (hsequential : config.sequential = true)
    (hstarts : config.startsDefault = total) (hlog : config.logfile = true)
    (htrace : Trace config past state) (hquiet : Undisturbed past state) :
    Sequenced config total state ∧ past.countP (fun entry => entry.1.control.inLoop) + state.work ≤
        12 * total + 3 := by
  induction htrace with
  | initial hstart =>
    subst hstart
    refine ⟨⟨consistent_start, ledger_start hstarts, trivial⟩, ?_⟩
    simp [State.work, State.load, State.start, hstarts]
    omega
  | step htrace hstep ih =>
    obtain ⟨hpast, hnext⟩ := hquiet
    simp only [List.mem_append, List.mem_singleton, or_imp, forall_and, forall_eq] at hpast
    obtain ⟨⟨hsignals, hsignal⟩, hrefusals, hrefused⟩ := hpast
    obtain ⟨hsequenced, hbound⟩ := ih
      ⟨fun entry hentry => ⟨hsignals entry hentry, hrefusals entry hentry⟩, hsignal⟩
    obtain ⟨hafter, hwork⟩ := sequenced_step hsequential hcoll hkeep hlog
      hsequenced hrefused hsignal hnext hstep
    refine ⟨hafter, ?_⟩
    simp only [List.countP_append, List.countP_singleton]
    omega

/-- A sequential run without signals: the counter is the number of slots in
use, and a slot is free while it is below the limit; the commands launched are
the entries of the collection, round and round; the main loop goes on until it
ends, after a bounded number of events; and then all starts have been made and
the log has one line for each. -/
theorem sequential_run (hcoll : config.coll ≠ [])
    (hkeep : 0 < config.keepActive) (hsequential : config.sequential = true)
    (hstarts : config.startsDefault = total) (hlog : config.logfile = true)
    (htrace : Trace config past state) (hquiet : Undisturbed past state) :
    state.numActive = state.running.countP (fun slot => decide (slot.pgrp ≠ 0)) ∧
      (state.numActive < config.keepActive → state.hasSlot = true) ∧
      (∀ index < state.launched.length,
        state.launched[index]? = config.coll[index % config.coll.length]?) ∧
      past.countP (fun entry => entry.1.control.inLoop) ≤ 12 * total + 3 ∧
      (state.control.inLoop = true → ∃ event next, event.refused = false ∧
        next.recSignal = none ∧ step config state event = some next) ∧
      (state.control.inLoop = false → state.launched.length = total ∧
        (state.files.log.map LogLine.cmd).Perm state.launched) := by
  obtain ⟨hsequenced, hbound⟩ := sequenced_trace hcoll hkeep hsequential hstarts hlog htrace hquiet
  have hcount : state.numActive = (active state.running).length := by
    rw [hsequenced.books.active, ← hsequenced.books.watched.length_eq, watched, List.length_map]
  refine ⟨?_, hsequenced.books.hasSlot, hsequenced.ledger.order, ?_, ?_, ?_⟩
  · rw [hcount, List.countP_eq_length_filter, active]
  · exact (Nat.le_add_right _ _).trans hbound
  · exact sequenced_progress hsequential hcoll hsequenced hquiet.2
  · intro hended
    obtain ⟨hstop, hactive⟩ := hsequenced.phase.ended hended
    have hzero := hsequenced.ledger.stopped hstop
    have hfinal := hsequenced.ledger.starts
    have hlines := hsequenced.ledger.lines
    have hempty : active state.running = [] := by
      apply List.eq_nil_of_length_eq_zero
      omega
    rw [hempty, List.map_nil, List.append_nil] at hlines
    exact ⟨by omega, hlines⟩

/-- Three entries, two at a time, four starts. -/
def threeTests : Config where
  coll := [⟨['a'], "a -x".toList, false⟩, ⟨['b'], "b -y".toList, false⟩,
    ⟨['c'], "c -z".toList, false⟩]
  keepActive := 2
  starts := 4
  timed := false
  sequential := true
  hasBrakes := false
  forkInRoad := true
  trackExitStats := true
  fmtPrint := true
  logfile := true
  failcmdfile := false
  tconfcmdfile := false

/-- The second entry cannot be executed, and the children end out of order. -/
theorem sequential_run_threeTests :
    ∃ past state, Trace threeTests past state ∧ Undisturbed past state ∧
      state.control.inLoop = false ∧ state.launched.length = 4 ∧
        (state.files.log.map LogLine.cmd).Perm state.launched := by
  have hrun : (Transition.replay (step threeTests) (State.start threeTests)
      [.launch 0 (.started 7), .launch 0 (.execFailed (.exited 2)),
        .launch 0 (.started 8), .leave, .handle false [],
        .wait [] (.reaped 8 (.exited 1) false), .leave, .handle false [],
        .wait [] (.reaped 7 (.signaled 9) false), .launch 0 (.started 9),
        .leave, .handle false [], .wait [] (.reaped 9 (.exited 0) true),
        .drain [9]]).map (fun result => (result.2.control.inLoop,
          result.1.all fun entry => entry.1.recSignal == none &&
            !entry.2.refused, result.2.recSignal)) =
      some (false, true, none) := by
    decide +kernel
  obtain ⟨⟨past, state⟩, hreplay, hview⟩ := Option.map_eq_some_iff.mp hrun
  obtain ⟨hended, hview⟩ := Prod.mk.inj hview
  obtain ⟨hall, hsignal⟩ := Prod.mk.inj hview
  have htrace := trace_of_replay hreplay
  have hquiet : Undisturbed past state := by
    refine ⟨?_, hsignal⟩
    simpa using hall
  exact ⟨past, state, htrace, hquiet, hended,
    (sequential_run (List.cons_ne_nil _ _) Nat.two_pos rfl rfl rfl htrace hquiet).2.2.2.2.2 hended⟩

end Runs

end GrapheneLtp.Pan
