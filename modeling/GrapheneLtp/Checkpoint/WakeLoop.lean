import Mathlib.Algebra.BigOperators.Intervals
import Mathlib.Data.BitVec
import Mathlib.Tactic

/-!
# The wake loop of the checkpoints

`tst_checkpoint_wake` calls `FUTEX_WAKE` once a millisecond and adds up what the
calls return, until the sum is exactly `nr_wake` or as many milliseconds have
gone by as the caller allows.  The sum and the milliseconds are `unsigned int`s.
-/

namespace GrapheneLtp.Checkpoint

abbrev Unsigned := BitVec 32

inductive Errno
  | eoverflow
  | etimedout
  deriving DecidableEq

/-- What a call returns: 0, or -1 with its `errno`; or it breaks the test. -/
inductive Outcome
  | success
  | failure (errno : Errno)
  | tbrok (message : String)
  deriving DecidableEq

/-- The arguments of `tst_checkpoint_wake`. -/
structure WakeCall where
  id : Unsigned
  nrWake : Unsigned
  msecTimeout : Unsigned
  deriving DecidableEq

/-- The locals of `tst_checkpoint_wake`. -/
structure Counters where
  msecs : Unsigned
  waked : Unsigned
  deriving DecidableEq

/-- The body of the loop: either it goes round again or the call returns.  The
futex call comes first and has returned `futex`. -/
def wakeBody (call : WakeCall) (counters : Counters) (futex : Unsigned) : Counters ⊕ Outcome :=
  let waked := counters.waked + futex
  if waked = call.nrWake then
    .inr .success
  else
    let msecs := counters.msecs + 1
    if call.msecTimeout ≤ msecs then
      .inr (.failure .etimedout)
    else
      .inl ⟨msecs, waked⟩

/-- The loop, with the number of futex calls it has made. -/
def wakeLoop (call : WakeCall) (futex : ℕ → Unsigned) :
    ℕ → ℕ → Counters → Option (Outcome × ℕ)
  | 0, _, _ => none
  | fuel + 1, calls, counters =>
    match wakeBody call counters (futex calls) with
    | .inl counters => wakeLoop call futex fuel (calls + 1) counters
    | .inr outcome => some (outcome, calls + 1)

def tstCheckpointWake (maxFutexes : Unsigned) (call : WakeCall) (futex : ℕ → Unsigned)
    (fuel : ℕ) : Option (Outcome × ℕ) :=
  if maxFutexes = 0 then
    some (.tbrok "Set test.needs_checkpoints = 1", 0)
  else if maxFutexes ≤ call.id then
    some (.failure .eoverflow, 0)
  else
    wakeLoop call futex fuel 0 ⟨0, 0⟩

/-- The futex calls that fit into the timeout: one is always made. -/
def WakeCall.attempts (call : WakeCall) : ℕ := max 1 call.msecTimeout.toNat

/-- What `waked` holds after so many futex calls. -/
def wakedAfter (futex : ℕ → Unsigned) (calls : ℕ) : Unsigned :=
  ∑ index ∈ Finset.range calls, futex index

section Loop

variable {call : WakeCall} {futex : ℕ → Unsigned}

theorem wakeBody_success {counters : Counters} {woken : Unsigned}
    (hsum : counters.waked + woken = call.nrWake) :
    wakeBody call counters woken = .inr .success := by
  simp [wakeBody, hsum]

theorem WakeCall.attempts_lt (call : WakeCall) : call.attempts < 2 ^ 32 := by
  have hlt := call.msecTimeout.isLt
  unfold WakeCall.attempts
  omega

/-- The millisecond counter does not wrap before the timeout is up. -/
theorem timeout_le_iff {calls : ℕ} (hcalls : calls < call.attempts) :
    call.msecTimeout ≤ BitVec.ofNat 32 calls + 1 ↔ calls + 1 = call.attempts := by
  have hlt := call.attempts_lt
  have hnext : (BitVec.ofNat 32 calls + 1).toNat = calls + 1 := by
    have hone : (1 : BitVec 32).toNat = 1 := rfl
    rw [BitVec.toNat_add, BitVec.toNat_ofNat, hone]
    omega
  rw [BitVec.le_def, hnext]
  unfold WakeCall.attempts at hcalls ⊢
  omega

/-- A call's result from the loop's head: it stops at the first futex call after
which the sum is right, and at the last one of the timeout otherwise. -/
structure Ends (call : WakeCall) (futex : ℕ → Unsigned) (start : ℕ) (outcome : Outcome)
    (calls : ℕ) : Prop where
  started : start < calls
  inTime : calls ≤ call.attempts
  first : ∀ earlier, start < earlier → earlier < calls → wakedAfter futex earlier ≠ call.nrWake
  outcome_eq : outcome = .success ∧ wakedAfter futex calls = call.nrWake ∨
    outcome = .failure .etimedout ∧ wakedAfter futex calls ≠ call.nrWake ∧
      calls = call.attempts

theorem Ends.earlier {start calls : ℕ} {outcome : Outcome}
    (hends : Ends call futex (start + 1) outcome calls)
    (hwrong : wakedAfter futex (start + 1) ≠ call.nrWake) :
    Ends call futex start outcome calls := by
  refine ⟨by have := hends.started; omega, hends.inTime, ?_, hends.outcome_eq⟩
  intro earlier hstart hlt
  rcases eq_or_lt_of_le (Nat.succ_le_of_lt hstart) with heq | hlater
  · exact heq ▸ hwrong
  · exact hends.first earlier hlater hlt

theorem wakeLoop_ends {fuel start : ℕ} (hstart : start < call.attempts)
    (hfuel : call.attempts ≤ fuel + start) :
    ∃ outcome calls,
      wakeLoop call futex fuel start ⟨BitVec.ofNat 32 start, wakedAfter futex start⟩ =
        some (outcome, calls) ∧ Ends call futex start outcome calls := by
  induction fuel generalizing start with
  | zero => omega
  | succ fuel ih =>
    have hnext : wakedAfter futex start + futex start = wakedAfter futex (start + 1) :=
      (Finset.sum_range_succ _ _).symm
    unfold wakeLoop
    by_cases hsum : wakedAfter futex (start + 1) = call.nrWake
    · refine ⟨.success, start + 1, ?_, Nat.lt_succ_self _, hstart, ?_, .inl ⟨rfl, hsum⟩⟩
      · rw [wakeBody_success (hnext.trans hsum)]
      · omega
    by_cases hlast : start + 1 = call.attempts
    · have hbody : wakeBody call ⟨BitVec.ofNat 32 start, wakedAfter futex start⟩
          (futex start) = .inr (.failure .etimedout) := by
        simp only [wakeBody, hnext, hsum, if_false, (timeout_le_iff hstart).mpr hlast, if_true]
      refine ⟨.failure .etimedout, start + 1, ?_, Nat.lt_succ_self _, hstart, ?_,
        .inr ⟨rfl, hsum, hlast⟩⟩
      · rw [hbody]
      · omega
    · have hbody : wakeBody call ⟨BitVec.ofNat 32 start, wakedAfter futex start⟩
          (futex start) =
            .inl ⟨BitVec.ofNat 32 (start + 1), wakedAfter futex (start + 1)⟩ := by
        have hmore : ¬call.msecTimeout ≤ BitVec.ofNat 32 start + 1 :=
          fun htimeout => hlast ((timeout_le_iff hstart).mp htimeout)
        simp only [wakeBody, hnext, hsum, if_false, hmore, BitVec.ofNat_add]
        rfl
      have hlater : start + 1 < call.attempts := by omega
      obtain ⟨outcome, calls, hrun, hends⟩ := ih hlater (by omega)
      refine ⟨outcome, calls, ?_, hends.earlier hsum⟩
      rw [hbody]
      exact hrun

theorem wakeLoop_mono {fuel start : ℕ} {counters : Counters} {result : Outcome × ℕ}
    (hrun : wakeLoop call futex fuel start counters = some result) (extra : ℕ) :
    wakeLoop call futex (fuel + extra) start counters = some result := by
  induction fuel generalizing start counters with
  | zero => cases hrun
  | succ fuel ih =>
    rw [Nat.add_right_comm]
    unfold wakeLoop at hrun ⊢
    cases hbody : wakeBody call counters (futex start) with
    | inl next =>
      rw [hbody] at hrun
      exact ih hrun
    | inr outcome =>
      rw [hbody] at hrun
      exact hrun

end Loop

section Main

variable (maxFutexes : Unsigned) (call : WakeCall) (futex : ℕ → Unsigned)

/-- Whatever the futex calls return, `tst_checkpoint_wake` on one of the futexes returns
within as many of them as the timeout has milliseconds, or one.  It returns 0 exactly if one
of these calls brings the sum to `nr_wake`, and right after the first that does. -/
theorem tstCheckpointWake_returns (hid : call.id < maxFutexes) :
    ∃ outcome calls,
      (∀ fuel, call.attempts ≤ fuel →
        tstCheckpointWake maxFutexes call futex fuel = some (outcome, calls)) ∧
      1 ≤ calls ∧ calls ≤ call.attempts ∧
      (outcome = .success ↔
        ∃ index, 1 ≤ index ∧ index ≤ call.attempts ∧
          wakedAfter futex index = call.nrWake) ∧
      (∀ index, 1 ≤ index → index < calls → wakedAfter futex index ≠ call.nrWake) ∧
      (outcome ≠ .success → outcome = .failure .etimedout ∧ calls = call.attempts) := by
  have hstart : 0 < call.attempts := lt_of_lt_of_le Nat.one_pos (le_max_left _ _)
  obtain ⟨outcome, calls, hrun, hends⟩ :=
    @wakeLoop_ends call futex call.attempts 0 hstart le_rfl
  refine ⟨outcome, calls, ?_, hends.started, hends.inTime, ?_, hends.first, ?_⟩
  · intro fuel hfuel
    obtain ⟨extra, rfl⟩ := Nat.exists_eq_add_of_le hfuel
    have hsome : maxFutexes ≠ 0 := by
      rintro rfl
      exact BitVec.not_lt_zero hid
    unfold tstCheckpointWake
    rw [if_neg hsome, if_neg (BitVec.not_le.mpr hid)]
    exact wakeLoop_mono hrun extra
  · constructor
    · rintro rfl
      rcases hends.outcome_eq with ⟨-, hsum⟩ | ⟨hfailure, -⟩
      · exact ⟨calls, hends.started, hends.inTime, hsum⟩
      · cases hfailure
    · rintro ⟨index, hpos, hle, hsum⟩
      rcases hends.outcome_eq with ⟨hsuccess, -⟩ | ⟨-, hwrong, rfl⟩
      · exact hsuccess
      · rcases eq_or_lt_of_le hle with rfl | hlt
        · exact absurd hsum hwrong
        · exact absurd hsum (hends.first index hpos hlt)
  · intro hfailure
    rcases hends.outcome_eq with ⟨hsuccess, -⟩ | ⟨houtcome, -, hlast⟩
    · exact absurd hsuccess hfailure
    · exact ⟨houtcome, hlast⟩

/-- Two sleepers come in the second millisecond, a third never does. -/
theorem tstCheckpointWake_returns_timedOut :
    ∃ outcome calls,
      (∀ fuel, 2 ≤ fuel →
        tstCheckpointWake 1024 ⟨0, 3, 2⟩ (fun index => if index = 1 then 2 else 0) fuel =
          some (outcome, calls)) ∧ outcome = .failure .etimedout ∧ calls = 2 := by
  obtain ⟨outcome, calls, hrun, -, -, hsuccess, -, hfailure⟩ :=
    tstCheckpointWake_returns 1024 ⟨0, 3, 2⟩ (fun index => if index = 1 then 2 else 0)
      (by decide)
  have hnever : outcome ≠ .success := by
    intro houtcome
    obtain ⟨index, hpos, hle, hsum⟩ := hsuccess.mp houtcome
    have htwo : index ≤ 2 := hle
    interval_cases index <;> exact absurd hsum (by decide)
  exact ⟨outcome, calls, hrun, hfailure hnever⟩

end Main

end GrapheneLtp.Checkpoint
