import GrapheneLtp.ShellTest.Results

/-!
# The cleanup function of a shell test

A model of `_tst_run_iterations`, `_tst_run_tests` and of the calls that `tst_run` makes
of them, one for each filesystem.  The cleanup function is entered through a flag that
is cleared when it returns.  When it is entered at the end of `_tst_run_iterations` and
calls `tst_brk`, `_tst_do_exit` finds the flag still set and enters it a second time.
-/

namespace GrapheneLtp.ShellTest

section Code

variable (world : ℕ → List Command) (setting : Setting)

/-- `_tst_do_cleanup` in `_tst_run_iterations`. -/
def doCleanup (state : State) : Outcome :=
  (if wantsCleanup setting state then
      if setting.cleanup = .defined then run world setting (.cleanup false) state
      else .returned (state.report .twarn)
    else .returned state).andThen fun after => .returned { after with doCleanup := false }

/-- A loop over some numbers. -/
def runEach (step : ℕ → State → Outcome) : List ℕ → State → Outcome
  | [], state => .returned state
  | i :: rest, state => (step i state).andThen (runEach step rest)

/-- `_tst_run_tests`. -/
def runTests (state : State) : Outcome :=
  runEach (runTest world setting) (List.range' 1 setting.cnt) { state with doCleanup := true }

/-- One turn of the loop of `_tst_run_iterations`.  With test data, `tst_require_cmds`
comes first. -/
def iteration (state : State) : Outcome :=
  match setting.fields with
  | none => runTests world setting state
  | some max => (run world setting .library state).andThen
      (runEach (fun _ => runTests world setting) (List.range' 1 max))

/-- The call of the setup function. -/
def runSetup (state : State) : Outcome :=
  match setting.setup with
  | .unset => .returned state
  | .undefined name => tstBrk world setting .tbrok ("TST_SETUP=" ++ name ++
      " declared, but function not defined (or cmd not found)") state
  | .defined => run world setting .setup { state with doCleanup := true }

/-- `_tst_run_iterations`.  The steps of the library are the device and the timer at the
beginning and the mount point at the end. -/
def runIterations (state : State) : Outcome :=
  (run world setting .library state).andThen fun state =>
    (runSetup world setting state).andThen fun state =>
      (runEach (fun _ => iteration world setting) (List.range setting.iterations) state).andThen
        fun state => (doCleanup world setting state).andThen (run world setting .library)

/-- What is entered in the calls of `_tst_run_iterations`, of which `tst_run` has still
some to make, and in `_tst_do_exit` behind the last of them. -/
def runCalls : ℕ → State → List (List Entry)
  | 0, state => match doExit world setting "" { state with trace := [] } with
    | .returned after => [after.trace]
    | .exited _ _ after => [after.trace]
  | calls + 1, state => match runIterations world setting { state with trace := [] } with
    | .exited _ _ after => [after.trace]
    | .returned after => after.trace :: runCalls calls after

/-- A test that begins, with the calls for its filesystems. -/
def tstRun (calls : ℕ) : List (List Entry) :=
  runCalls world setting calls ⟨⟨0, 0, 0, 0, 0⟩, 1, false, 0, []⟩

end Code

section Meaning

def Kind.isCleanup : Kind → Bool
  | cleanup _ => true
  | _ => false

/-- The setup function or a test function. -/
def Kind.isTest : Kind → Bool
  | setup | test _ => true
  | _ => false

/-- The cleanup function can be entered. -/
def Setting.cleansUp (setting : Setting) : Bool := setting.cleanup = .defined && !setting.noCleanup

/-- How often the cleanup function is entered. -/
def cleanups (trace : List Entry) : ℕ := trace.countP fun entry => entry.kind.isCleanup

/-- The cleanup function is entered at most once, and exactly once when a function of
the test has been entered before. -/
def CleanedUp (setting : Setting) (trace : List Entry) : Prop :=
  cleanups trace ≤ 1 ∧ (setting.cleansUp = true →
    (∃ entry ∈ trace, entry.kind.isTest = true) → cleanups trace = 1)

/-- The cleanup function does not call `tst_brk` when `_tst_run_iterations` enters it. -/
def Quiet (trace : List Entry) : Prop :=
  ∀ entry ∈ trace, entry.kind = .cleanup false → ∀ command ∈ entry.body, command.breaks = false

end Meaning

section Steps

variable {world : ℕ → List Command} {setting : Setting} {state : State}

/-- What `_tst_do_exit` enters. -/
def exitEntries (world : ℕ → List Command) (setting : Setting) (state : State) : List Entry :=
  if state.doCleanup && setting.cleansUp then
    [⟨.cleanup true, world state.entered⟩, ⟨.library, world (state.entered + 1)⟩]
  else [⟨.library, world state.entered⟩]

theorem foldl_exitingCommand (body : List Command) (state : State) :
    (body.foldl exitingCommand state).trace = state.trace ∧
      (body.foldl exitingCommand state).entered = state.entered := by
  induction body generalizing state with
  | nil => exact ⟨rfl, rfl⟩
  | cons command body ih =>
    obtain ⟨htrace, hentered⟩ := ih (exitingCommand state command)
    rw [List.foldl_cons, htrace, hentered]
    cases command with
    | res type text => cases type <;> exact ⟨rfl, rfl⟩
    | brk type text => exact ⟨rfl, rfl⟩

theorem doExit_trace (text : String) : ∃ status after,
    doExit world setting text state = .exited text status after ∧
      after.trace = state.trace ++ exitEntries world setting state := by
  refine ⟨_, _, rfl, ?_⟩
  rw [runExiting, (foldl_exitingCommand _ _).1, exitingCleanup, exitEntries]
  cases hcleanup : setting.cleanup with
  | unset => simp [wantsCleanup, Setting.cleansUp, hcleanup, State.enter]
  | undefined name =>
    simp only [wantsCleanup, Setting.cleansUp, hcleanup]
    split_ifs <;> simp_all [State.enter, State.report]
  | defined =>
    simp only [wantsCleanup, Setting.cleansUp, hcleanup]
    split_ifs with hwants hother
    · simp only [runExiting, State.enter, (foldl_exitingCommand _ _).1,
        (foldl_exitingCommand _ _).2, List.append_assoc, List.singleton_append]
    all_goals simp_all [State.enter]

theorem tstBrk_trace (type : ResType) (text : String) : ∃ reason status after,
    tstBrk world setting type text state = .exited reason status after ∧
      after.trace = state.trace ++ exitEntries world setting state := by
  cases type with
  | invalid name =>
    obtain ⟨status, after, hexit, htrace⟩ := @doExit_trace world setting (state.report .tbrok)
      ("Invalid res type '" ++ name ++ "'")
    exact ⟨_, status, after, hexit, htrace⟩
  | _ =>
    obtain ⟨status, after, hexit, htrace⟩ := @doExit_trace world setting (state.report _) text
    exact ⟨text, status, after, hexit, htrace⟩

theorem runCommand_breaks {command : Command} (hbreaks : command.breaks = true) :
    ∃ reason status after,
      runCommand world setting state command = .exited reason status after ∧
        after.trace = state.trace ++ exitEntries world setting state := by
  cases command with
  | res type text =>
    cases type with
    | invalid name => exact tstBrk_trace .tbrok _
    | _ => cases hbreaks
  | brk type text => exact tstBrk_trace type text

/-- What a function does to the trace and to the flag: nothing when it returns, and when
it calls `tst_brk` the entries of `_tst_do_exit` are added. -/
theorem runBody_cases (body : List Command) (state : State) :
    ((∀ command ∈ body, command.breaks = false) ∧ ∃ after,
        runBody world setting body state = .returned after ∧ after.trace = state.trace ∧
          after.doCleanup = state.doCleanup) ∨
      ((∃ command ∈ body, command.breaks = true) ∧ ∃ reason status after,
        runBody world setting body state = .exited reason status after ∧
          after.trace = state.trace ++ exitEntries world setting state) := by
  induction body generalizing state with
  | nil => exact .inl ⟨by simp, state, rfl, rfl, rfl⟩
  | cons command body ih =>
    cases hbreaks : command.breaks with
    | true =>
      obtain ⟨reason, status, after, hexit, htrace⟩ :=
        @runCommand_breaks world setting state command hbreaks
      refine .inr ⟨⟨command, List.mem_cons_self, hbreaks⟩, reason, status, after, ?_, htrace⟩
      rw [runBody, hexit]
      rfl
    | false =>
      rw [runBody, runCommand_of_not_breaks state hbreaks, Outcome.andThen]
      rcases ih (state.report command.type) with
        ⟨hall, hreturned⟩ | ⟨⟨other, hother, hbreak⟩, hexited⟩
      · exact .inl ⟨List.forall_mem_cons.mpr ⟨hbreaks, hall⟩, hreturned⟩
      · exact .inr ⟨⟨other, List.mem_cons_of_mem _ hother, hbreak⟩, hexited⟩

end Steps

section Rules

/-- What holds of the state when a command returns, and of the trace when the shell
exits. -/
def Ends (returns : State → Prop) (exits : List Entry → Prop) : Outcome → Prop
  | .returned state => returns state
  | .exited _ _ state => exits state.trace

variable {returns later : State → Prop} {exits : List Entry → Prop}

theorem Ends.andThen {outcome : Outcome} {next : State → Outcome}
    (houtcome : Ends returns exits outcome)
    (hnext : ∀ state, returns state → Ends later exits (next state)) :
    Ends later exits (outcome.andThen next) := by
  cases outcome with
  | returned state => exact hnext state houtcome
  | exited text status state => exact houtcome

theorem Ends.mono {outcome : Outcome} (houtcome : Ends returns exits outcome)
    (himp : ∀ state, returns state → later state) : Ends later exits outcome := by
  cases outcome with
  | returned state => exact himp state houtcome
  | exited text status state => exact houtcome

/-- What one turn of a loop keeps is kept by the loop. -/
theorem ends_runEach {step : ℕ → State → Outcome}
    (hstep : ∀ i state, returns state → Ends returns exits (step i state)) (numbers : List ℕ)
    {state : State} (hstate : returns state) : Ends returns exits (runEach step numbers state) := by
  induction numbers generalizing state with
  | nil => exact hstate
  | cons i numbers ih => exact (hstep i state hstate).andThen fun _ hnext => ih hnext

end Rules

section Traces

variable {world : ℕ → List Command} {setting : Setting} {state : State}

/-- Before the cleanup function is entered: the flag is set when a function of the test
has been entered. -/
def Before (state : State) : Prop :=
  cleanups state.trace = 0 ∧
    (state.doCleanup = false → ∀ entry ∈ state.trace, entry.kind.isTest = false)

/-- The condition decides whether the trace is right. -/
def Settled (setting : Setting) (trace : List Entry) : Prop :=
  CleanedUp setting trace ↔ Quiet trace

/-- Behind the cleanup. -/
def After (setting : Setting) (state : State) : Prop :=
  CleanedUp setting state.trace ∧ Quiet state.trace ∧ state.doCleanup = false

theorem cleanups_append (first second : List Entry) :
    cleanups (first ++ second) = cleanups first + cleanups second :=
  List.countP_append

theorem quiet_append (first second : List Entry) :
    Quiet (first ++ second) ↔ Quiet first ∧ Quiet second := by
  simp only [Quiet, List.mem_append, or_imp, forall_and]

theorem quiet_of_cleanups {trace : List Entry} (hnone : cleanups trace = 0) : Quiet trace := by
  intro entry hentry hkind
  have hnot := List.countP_eq_zero.mp hnone entry hentry
  rw [hkind] at hnot
  exact absurd rfl hnot

theorem quiet_exitEntries : Quiet (exitEntries world setting state) := by
  rw [exitEntries]
  split_ifs <;> simp [Quiet]

theorem Before.enter (hbefore : Before state) {kind : Kind} (hkind : kind.isCleanup = false)
    (hflag : kind.isTest = true → state.doCleanup = true) (body : List Command) :
    Before (state.enter kind body) := by
  obtain ⟨hnone, htests⟩ := hbefore
  refine ⟨?_, fun hclear entry hentry => ?_⟩
  · rw [State.enter, cleanups_append, hnone]
    simp [cleanups, hkind]
  · rcases List.mem_append.mp hentry with hold | hnew
    · exact htests hclear entry hold
    · rw [List.mem_singleton.mp hnew]
      cases htest : kind.isTest with
      | false => rfl
      | true => exact absurd (hflag htest) (by simpa [State.enter] using hclear)

theorem Before.set (hbefore : Before state) : Before { state with doCleanup := true } :=
  ⟨hbefore.1, fun hclear => absurd hclear (by simp)⟩

/-- An exit before the cleanup enters the cleanup function once if it is to be
entered. -/
theorem Before.exits (hbefore : Before state) :
    Settled setting (state.trace ++ exitEntries world setting state) := by
  obtain ⟨hnone, htests⟩ := hbefore
  have hquiet : Quiet (state.trace ++ exitEntries world setting state) :=
    (quiet_append _ _).mpr ⟨quiet_of_cleanups hnone, quiet_exitEntries⟩
  refine ⟨fun _ => hquiet, fun _ => ?_⟩
  rw [CleanedUp, cleanups_append, hnone, Nat.zero_add, exitEntries]
  split_ifs with hwants
  · exact ⟨by simp [cleanups, Kind.isCleanup], fun _ _ => by simp [cleanups, Kind.isCleanup]⟩
  · refine ⟨by simp [cleanups, Kind.isCleanup], ?_⟩
    rintro hcleans ⟨entry, hentry, htest⟩
    have hclear : state.doCleanup = false := by simpa [hcleans] using hwants
    rcases List.mem_append.mp hentry with hold | hnew
    · rw [htests hclear entry hold] at htest
      cases htest
    · rw [List.mem_singleton.mp hnew] at htest
      cases htest

/-- A function other than the cleanup function. -/
theorem run_before (hbefore : Before state) {kind : Kind} (hkind : kind.isCleanup = false)
    (hflag : kind.isTest = true → state.doCleanup = true) :
    Ends (fun after => Before after ∧ after.doCleanup = state.doCleanup) (Settled setting)
      (run world setting kind state) := by
  have henter := hbefore.enter hkind hflag (world state.entered)
  rcases @runBody_cases world setting (world state.entered)
      (state.enter kind (world state.entered)) with
    ⟨-, after, hrun, htrace, hcleanup⟩ | ⟨-, reason, status, after, hrun, htrace⟩
  · rw [run, hrun]
    refine ⟨?_, hcleanup⟩
    rwa [Before, htrace, hcleanup]
  · rw [run, hrun, Ends, htrace]
    exact henter.exits

theorem tstBrk_before (hbefore : Before state) (type : ResType) (text : String)
    (returns : State → Prop) :
    Ends returns (Settled setting) (tstBrk world setting type text state) := by
  obtain ⟨reason, status, after, hexit, htrace⟩ := @tstBrk_trace world setting state type text
  rw [hexit, Ends, htrace]
  exact hbefore.exits

end Traces

section Main

variable {world : ℕ → List Command} {setting : Setting} {state : State}

theorem runTest_before (i : ℕ) (hbefore : Before state ∧ state.doCleanup = true) :
    Ends (fun after => Before after ∧ after.doCleanup = true) (Settled setting)
      (runTest world setting i state) := by
  refine (run_before hbefore.1 rfl fun _ => hbefore.2).andThen fun after hafter => ?_
  have hready : Before after ∧ after.doCleanup = true := ⟨hafter.1, hafter.2.trans hbefore.2⟩
  rw [resCmp]
  split_ifs with hsame
  · exact (tstBrk_before hready.1 _ _ fun _ => False).andThen fun _ hfalse => hfalse.elim
  · exact hready

theorem runTests_before (hbefore : Before state) :
    Ends (fun after => Before after ∧ after.doCleanup = true) (Settled setting)
      (runTests world setting state) :=
  ends_runEach (fun i _ hstate => runTest_before i hstate) _ ⟨hbefore.set, rfl⟩

theorem iteration_before (hbefore : Before state) :
    Ends Before (Settled setting) (iteration world setting state) := by
  have htests (other : State) (hother : Before other) :
      Ends Before (Settled setting) (runTests world setting other) :=
    (runTests_before hother).mono fun _ hafter => hafter.1
  rw [iteration]
  cases setting.fields with
  | none => exact htests state hbefore
  | some max =>
    refine (run_before hbefore rfl fun htest => by cases htest).andThen fun after hafter => ?_
    exact ends_runEach (fun _ other hother => htests other hother) _ hafter.1

theorem runSetup_before (hbefore : Before state) :
    Ends Before (Settled setting) (runSetup world setting state) := by
  rw [runSetup]
  cases setting.setup with
  | unset => exact hbefore
  | undefined name => exact tstBrk_before hbefore _ _ _
  | defined => exact (run_before hbefore.set rfl fun _ => rfl).mono fun _ hafter => hafter.1

/-- The cleanup function is entered at the end of `_tst_run_iterations`: when it calls
`tst_brk`, it is entered twice. -/
theorem doCleanup_entered (hbefore : Before state) (hflag : state.doCleanup = true)
    (hcleans : setting.cleansUp = true) :
    Ends (After setting) (Settled setting) (doCleanup world setting state) := by
  obtain ⟨hnone, -⟩ := hbefore
  have hwants : wantsCleanup setting state = true ∧ setting.cleanup = .defined := by
    simp only [Setting.cleansUp, Bool.and_eq_true, decide_eq_true_iff] at hcleans
    simp [wantsCleanup, hflag, hcleans.1, hcleans.2]
  rw [doCleanup, if_pos hwants.1, if_pos hwants.2, run]
  rcases @runBody_cases world setting (world state.entered)
      (state.enter (.cleanup false) (world state.entered)) with
    ⟨hreturns, after, hrun, htrace, -⟩ | ⟨⟨command, hcommand, hbreaks⟩, _, _, after, hrun, htrace⟩
  · rw [hrun]
    have hone : cleanups after.trace = 1 := by
      rw [htrace, State.enter, cleanups_append, hnone]
      rfl
    refine ⟨⟨hone.le, fun _ _ => hone⟩, ?_, rfl⟩
    rw [htrace]
    refine (quiet_append _ _).mpr ⟨quiet_of_cleanups hnone, fun entry hentry _ => ?_⟩
    rw [List.mem_singleton.mp hentry]
    exact hreturns
  · rw [hrun, Outcome.andThen, Ends, htrace]
    constructor
    · rintro ⟨hle, -⟩
      rw [State.enter, cleanups_append, cleanups_append, hnone, exitEntries,
        if_pos (by simp [hflag, hcleans])] at hle
      exact absurd hle (by simp [cleanups, Kind.isCleanup])
    · intro hall
      have hentry := hall ⟨.cleanup false, world state.entered⟩ (by simp [State.enter]) rfl
      rw [hentry command hcommand] at hbreaks
      cases hbreaks

theorem doCleanup_returns (hruns : ¬(state.doCleanup = true ∧ setting.cleansUp = true)) :
    ∃ after, doCleanup world setting state = .returned after ∧ after.trace = state.trace ∧
      after.doCleanup = false := by
  rw [doCleanup]
  split_ifs with hwants hdefined
  · refine absurd ?_ hruns
    simpa [wantsCleanup, Setting.cleansUp, hdefined] using hwants
  · exact ⟨_, rfl, rfl, rfl⟩
  · exact ⟨_, rfl, rfl, rfl⟩

/-- The cleanup at the end of `_tst_run_iterations`. -/
theorem doCleanup_after (hbefore : Before state) :
    Ends (After setting) (Settled setting) (doCleanup world setting state) := by
  by_cases hruns : state.doCleanup = true ∧ setting.cleansUp = true
  · exact doCleanup_entered hbefore hruns.1 hruns.2
  · -- the function is not entered, and no function of the test has been
    obtain ⟨hnone, htests⟩ := hbefore
    obtain ⟨after, hafter, htrace, hclear⟩ := @doCleanup_returns world setting state hruns
    rw [hafter]
    refine ⟨⟨by rw [htrace, hnone]; exact Nat.zero_le 1, ?_⟩, ?_, hclear⟩
    · rintro hcleans ⟨entry, hentry, htest⟩
      rw [htrace] at hentry
      have hflag : state.doCleanup = false := by simpa [hcleans] using hruns
      rw [htests hflag entry hentry] at htest
      cases htest
    · rw [htrace]
      exact quiet_of_cleanups hnone

/-- A step of the library behind the cleanup. -/
theorem run_after (hafter : After setting state) :
    Ends (After setting) (Settled setting) (run world setting .library state) := by
  obtain ⟨⟨hle, hone⟩, hquiet, hclear⟩ := hafter
  have hmore (entries : List Entry) (hentries : ∀ entry ∈ entries, entry.kind = .library) :
      CleanedUp setting (state.trace ++ entries) ∧ Quiet (state.trace ++ entries) := by
    have hnone : cleanups entries = 0 := by
      rw [cleanups, List.countP_eq_zero]
      intro entry hentry
      rw [hentries entry hentry]
      exact Bool.false_ne_true
    rw [CleanedUp, cleanups_append, hnone, Nat.add_zero]
    refine ⟨⟨hle, ?_⟩, (quiet_append _ _).mpr ⟨hquiet, quiet_of_cleanups hnone⟩⟩
    rintro hcleans ⟨entry, hentry, htest⟩
    rcases List.mem_append.mp hentry with hold | hnew
    · exact hone hcleans ⟨entry, hold, htest⟩
    · rw [hentries entry hnew] at htest
      cases htest
  rcases @runBody_cases world setting (world state.entered)
      (state.enter .library (world state.entered)) with
    ⟨-, after, hrun, htrace, hcleanup⟩ | ⟨-, reason, status, after, hrun, htrace⟩
  · obtain ⟨hcleaned, hquiet⟩ := hmore [⟨.library, world state.entered⟩] (by simp)
    rw [run, hrun]
    refine ⟨?_, ?_, hcleanup.trans hclear⟩
    · rw [htrace]
      exact hcleaned
    · rw [htrace]
      exact hquiet
  · have hexit : exitEntries world setting (state.enter .library (world state.entered)) =
        [⟨.library, world (state.entered + 1)⟩] := by
      rw [exitEntries, if_neg (by simp [State.enter, hclear])]
      rfl
    obtain ⟨hcleaned, hquiet⟩ := hmore
      [⟨.library, world state.entered⟩, ⟨.library, world (state.entered + 1)⟩] (by simp)
    rw [run, hrun, Ends, htrace, hexit, State.enter, List.append_assoc, List.singleton_append]
    exact ⟨fun _ => hquiet, fun _ => hcleaned⟩

/-- One call of `_tst_run_iterations`. -/
theorem runIterations_after (hbefore : Before state) :
    Ends (After setting) (Settled setting) (runIterations world setting state) := by
  refine (run_before hbefore rfl fun htest => by cases htest).andThen fun first hfirst => ?_
  refine (runSetup_before hfirst.1).andThen fun second hsecond => ?_
  refine (ends_runEach (fun _ other hother => iteration_before hother) _ hsecond).andThen
    fun third hthird => ?_
  exact (doCleanup_after hthird).andThen fun _ hlast => run_after hlast

/-- All the calls, by induction on their number: each of them finds the flag cleared. -/
theorem runCalls_settled (calls : ℕ) : ∀ {state : State}, state.doCleanup = false →
    ∀ trace ∈ runCalls world setting calls state, Settled setting trace := by
  have hstart (state : State) (hclear : state.doCleanup = false) :
      Before { state with trace := [] } := ⟨rfl, by simp⟩
  induction calls with
  | zero =>
    intro state hclear trace htrace
    obtain ⟨status, after, hexit, hentries⟩ :=
      @doExit_trace world setting { state with trace := [] } ""
    rw [runCalls, hexit, List.mem_singleton] at htrace
    rw [htrace, hentries]
    exact (hstart state hclear).exits
  | succ calls ih =>
    intro state hclear trace htrace
    have hcall := @runIterations_after world setting _ (hstart state hclear)
    rw [runCalls] at htrace
    cases hrun : runIterations world setting { state with trace := [] } with
    | exited text status after =>
      rw [hrun] at hcall htrace
      rw [List.mem_singleton.mp htrace]
      exact hcall
    | returned after =>
      rw [hrun] at hcall htrace
      obtain ⟨hcleaned, hquiet, hflag⟩ := hcall
      rcases List.mem_cons.mp htrace with rfl | hlater
      · exact ⟨fun _ => hquiet, fun _ => hcleaned⟩
      · exact ih hflag trace hlater

/-- In every call the cleanup function is entered at most once, and exactly once behind
a function of the test, if and only if it does not call `tst_brk` when it is entered at
the end of a call. -/
theorem tstRun_cleanedUp_iff (world : ℕ → List Command) (setting : Setting) (calls : ℕ) :
    (∀ trace ∈ tstRun world setting calls, CleanedUp setting trace) ↔
      ∀ trace ∈ tstRun world setting calls, Quiet trace :=
  forall₂_congr (runCalls_settled calls rfl)

/-- A test that passes, and a cleanup function that calls `tst_brk`. -/
def brokenCleanup : ℕ → List Command
  | 1 => [.res .tpass "passed"]
  | 2 => [.brk .tbrok "cleanup failed"]
  | _ => []

/-- The cleanup function is entered twice. -/
theorem tstRun_brokenCleanup : tstRun brokenCleanup ⟨.unset, .defined, false, 1, 1, none⟩ 1 =
    [[⟨.library, []⟩, ⟨.test 1, [.res .tpass "passed"]⟩,
      ⟨.cleanup false, [.brk .tbrok "cleanup failed"]⟩, ⟨.cleanup true, []⟩, ⟨.library, []⟩]] ∧
    ∃ trace ∈ tstRun brokenCleanup ⟨.unset, .defined, false, 1, 1, none⟩ 1,
      cleanups trace = 2 := by
  decide +kernel

end Main

end GrapheneLtp.ShellTest
