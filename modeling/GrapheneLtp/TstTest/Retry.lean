import GrapheneLtp.Core.CheckedInt
import GrapheneLtp.Core.SinglePrecision

/-!
# Retrying with a growing delay

`TST_RETRY_FN_EXP_BACKOFF` calls a function again and again, with a delay that
doubles each time, until its result satisfies a check or the delay has reached a
limit.  The delay is an `unsigned int`: a limit above `2 ^ 31` is never reached,
since the delay goes from `2 ^ 31` to zero.
-/

namespace GrapheneLtp.Retry

open CheckedInt SinglePrecision

section Limit

/-- The values that `tst_parse_float` accepts for `LTP_TIMEOUT_MUL`. -/
def AcceptedMul (rval : ℚ) : Prop := toFloat (99 / 1000) ≤ rval ∧ rval ≤ 10000

/-- `tst_multiply_timeout` with the value of `LTP_TIMEOUT_MUL`.  A timeout below 1
ends the test, and a product that is no `unsigned int` has no defined value. -/
def tstMultiplyTimeout (rval : ℚ) (timeout : BitVec 32) : Option (BitVec 32) :=
  let product := toFloat (toFloat timeout.toNat * toFloat rval)
  if timeout < 1 then none
  else if product < 2 ^ 32 then some (.ofNat 32 ⌊product⌋₊)
  else none

/-- `tst_max_delay_`, from the delay in seconds that the macro is given. -/
def tstMaxDelay (rval : ℚ) (maxDelay : ℤ) : Option (BitVec 32) := do
  let timeout ← inInt (maxDelay * 1000000)
  tstMultiplyTimeout rval (.ofInt 32 timeout)

/-- The limits that the macro can work with. -/
def Obtained (limit : BitVec 32) : Prop :=
  ∃ rval maxDelay, AcceptedMul rval ∧ tstMaxDelay rval maxDelay = some limit

end Limit

section Loop

inductive Ending where
  | satisfied
  | gaveUp (delay : BitVec 32)
  deriving DecidableEq, Repr

/-- The results of the calls and the arguments of `usleep`, in their order.  A run
that has not ended has no ending. -/
structure Run (α : Type*) where
  calls : List α
  slept : List (BitVec 32)
  ending : Option Ending

variable {α : Type*} (check : α → Bool) (results : ℕ → α) (limit : BitVec 32)

/-- The loop of the macro, for at most `fuel` calls.  `results` gives what the
function returns in each call. -/
def retryLoop : ℕ → ℕ → BitVec 32 → Run α
  | 0, _, _ => ⟨[], [], none⟩
  | fuel + 1, call, delay =>
    let ret := results call
    if check ret then ⟨[ret], [], some .satisfied⟩
    else if delay < limit then
      let rest := retryLoop fuel (call + 1) (delay * 2)
      ⟨ret :: rest.calls, delay :: rest.slept, rest.ending⟩
    else ⟨[ret], [], some (.gaveUp delay)⟩

/-- `TST_RETRY_FN_EXP_BACKOFF`, for at most `fuel` calls. -/
def retry (fuel : ℕ) : Run α := retryLoop check results limit fuel 0 1

/-- A run that ends in time. -/
structure Bounded (run : Run α) : Prop where
  ends : run.ending ≠ none
  calls : run.calls.length ≤ 34
  slept : (run.slept.map BitVec.toNat).sum < 2 * limit.toNat
  gaveUp : ∀ delay, run.ending = some (.gaveUp delay) → limit ≤ delay
  stops : ∀ ret ∈ run.calls.dropLast, check ret = false

end Loop

section Limits

/-- A timeout that is not refused is large, also if the delay is negative. -/
theorem le_timeout {maxDelay timeout : ℤ} (htimeout : inInt (maxDelay * 1000000) = some timeout)
    (hone : ¬BitVec.ofInt 32 timeout < 1) : 2 ^ 19 ≤ (BitVec.ofInt 32 timeout).toNat := by
  obtain ⟨⟨hlow, hhigh⟩, rfl⟩ := inInt_eq_some_iff.mp htimeout
  rcases lt_trichotomy maxDelay 0 with hneg | rfl | hpos
  · have hmod : maxDelay * 1000000 % (2 ^ 32 : ℕ) = maxDelay * 1000000 + 2 ^ 32 := by
      rw [← Int.add_emod_right, Int.emod_eq_of_lt] <;> push_cast <;> omega
    rw [BitVec.toNat_ofInt, hmod]
    omega
  · exact absurd (by decide) hone
  · have hmod : maxDelay * 1000000 % (2 ^ 32 : ℕ) = maxDelay * 1000000 := by
      rw [Int.emod_eq_of_lt] <;> push_cast <;> omega
    rw [BitVec.toNat_ofInt, hmod]
    omega

/-- Every limit is positive. -/
theorem Obtained.pos {limit : BitVec 32} (hlimit : Obtained limit) : 0 < limit.toNat := by
  obtain ⟨rval, maxDelay, ⟨hmul, -⟩, hmax⟩ := hlimit
  rw [tstMaxDelay, Option.bind_eq_bind, Option.bind_eq_some_iff] at hmax
  obtain ⟨timeout, htimeout, hmax⟩ := hmax
  simp only [tstMultiplyTimeout] at hmax
  split_ifs at hmax with hone hfits
  obtain rfl := Option.some.inj hmax
  have hmul' : (2 : ℚ) ^ (-4 : ℤ) ≤ toFloat rval := by
    refine zpow_le_toFloat (le_trans (zpow_le_toFloat ?_) hmul)
    norm_num
  have htimeout' : (2 : ℚ) ^ (19 : ℤ) ≤ toFloat (BitVec.ofInt 32 timeout).toNat := by
    refine zpow_le_toFloat ?_
    calc (2 : ℚ) ^ (19 : ℤ) = (2 ^ 19 : ℕ) := by norm_num
      _ ≤ _ := Nat.cast_le.mpr (le_timeout htimeout hone)
  have hproduct : (2 : ℚ) ^ (15 : ℤ) ≤
      toFloat (toFloat (BitVec.ofInt 32 timeout).toNat * toFloat rval) := by
    refine zpow_le_toFloat ?_
    calc (2 : ℚ) ^ (15 : ℤ) = 2 ^ (19 : ℤ) * 2 ^ (-4 : ℤ) := by norm_num
      _ ≤ _ := mul_le_mul htimeout' hmul' (by positivity) (le_trans (by positivity) htimeout')
  have hfloor : 2 ^ 15 ≤ ⌊toFloat (toFloat (BitVec.ofInt 32 timeout).toNat * toFloat rval)⌋₊ :=
    Nat.le_floor (le_trans (by norm_num) hproduct)
  have hlt : ⌊toFloat (toFloat (BitVec.ofInt 32 timeout).toNat * toFloat rval)⌋₊ < 2 ^ 32 := by
    refine (Nat.floor_lt (le_trans (by positivity) hproduct)).mpr (lt_of_lt_of_eq hfits ?_)
    norm_num
  rw [BitVec.toNat_ofNat, Nat.mod_eq_of_lt hlt]
  omega

/-- A limit from factors and a product that need no rounding. -/
theorem obtained_of_exact {rval : ℚ} {seconds limit : ℕ} (hmul : AcceptedMul rval)
    (hseconds : 0 < seconds ∧ seconds ≤ 2147) (hlimit : limit < 2 ^ 32)
    (hproduct : ((seconds * 1000000 : ℕ) : ℚ) * rval = limit)
    (htimeout : toFloat (seconds * 1000000 : ℕ) = (seconds * 1000000 : ℕ))
    (hrval : toFloat rval = rval) (hexact : toFloat limit = limit) :
    Obtained (.ofNat 32 limit) := by
  refine ⟨rval, seconds, hmul, ?_⟩
  have hint : inInt ((seconds : ℤ) * 1000000) = some ((seconds : ℤ) * 1000000) :=
    inInt_eq_some_iff.mpr ⟨⟨by omega, by omega⟩, rfl⟩
  have hnat : (BitVec.ofInt 32 ((seconds : ℤ) * 1000000)).toNat = seconds * 1000000 := by
    rw [BitVec.toNat_ofInt, Int.emod_eq_of_lt (by omega) (by push_cast; omega)]
    omega
  have hone : ¬BitVec.ofInt 32 ((seconds : ℤ) * 1000000) < 1 := by
    rw [BitVec.lt_def, hnat]
    have hone' : (1 : BitVec 32).toNat = 1 := rfl
    rw [hone']
    omega
  rw [tstMaxDelay, hint, Option.bind_eq_bind, Option.bind_some, tstMultiplyTimeout, hnat,
    htimeout, hrval, hproduct, hexact, if_neg hone]
  have hfits : (limit : ℚ) < 2 ^ 32 := lt_of_lt_of_eq (Nat.cast_lt.mpr hlimit) (by norm_num)
  rw [if_pos hfits, Nat.floor_natCast]

theorem acceptedMul_of_one_le {rval : ℚ} (hlow : 1 ≤ rval) (hhigh : rval ≤ 10000) :
    AcceptedMul rval := by
  refine ⟨le_trans ?_ hlow, hhigh⟩
  calc toFloat (99 / 1000) ≤ (2 : ℚ) ^ (0 : ℤ) := toFloat_le_zpow (by norm_num) (by norm_num)
    _ = 1 := zpow_zero _

theorem obtained_default : Obtained 1000000 := by
  have hseconds : ((1 * 1000000 : ℕ) : ℚ) = (16000000 : ℕ) * 2 ^ (-4 : ℤ) := by norm_num
  have hmul : (1 : ℚ) = (8388608 : ℕ) * 2 ^ (-23 : ℤ) := by norm_num
  have hproduct : ((1000000 : ℕ) : ℚ) = (16000000 : ℕ) * 2 ^ (-4 : ℤ) := by norm_num
  refine @obtained_of_exact 1 1 1000000 (acceptedMul_of_one_le le_rfl (by norm_num)) (by decide)
    (by decide) (by norm_num) ?_ ?_ ?_
  · rw [hseconds, toFloat_of_digits (by decide) (by decide)]
  · rw [hmul, toFloat_of_digits (by decide) (by decide)]
  · rw [hproduct, toFloat_of_digits (by decide) (by decide)]

theorem obtained_large : Obtained 3000000000 := by
  have hseconds : ((1 * 1000000 : ℕ) : ℚ) = (16000000 : ℕ) * 2 ^ (-4 : ℤ) := by norm_num
  have hmul : (3000 : ℚ) = (12288000 : ℕ) * 2 ^ (-12 : ℤ) := by norm_num
  have hproduct : ((3000000000 : ℕ) : ℚ) = (11718750 : ℕ) * 2 ^ (8 : ℤ) := by norm_num
  refine @obtained_of_exact 3000 1 3000000000
    (acceptedMul_of_one_le (by norm_num) (by norm_num)) (by decide) (by decide) (by norm_num)
    ?_ ?_ ?_
  · rw [hseconds, toFloat_of_digits (by decide) (by decide)]
  · rw [hmul, toFloat_of_digits (by decide) (by decide)]
  · rw [hproduct, toFloat_of_digits (by decide) (by decide)]

end Limits

section Runs

variable {α : Type*} {check : α → Bool} {results : ℕ → α} {limit : BitVec 32}

/-- The delay at a call. -/
def delayAt (call : ℕ) : BitVec 32 := .ofNat 32 (2 ^ call)

theorem delayAt_succ (call : ℕ) : delayAt call * 2 = delayAt (call + 1) := by
  apply BitVec.eq_of_toNat_eq
  simp [delayAt, pow_succ, BitVec.toNat_mul]

theorem delayAt_of_lt {call : ℕ} (hcall : call < 32) : (delayAt call).toNat = 2 ^ call := by
  rw [delayAt, BitVec.toNat_ofNat]
  exact Nat.mod_eq_of_lt (Nat.pow_lt_pow_right (by decide) hcall)

/-- From the 33rd call on there is no delay. -/
theorem delayAt_of_le {call : ℕ} (hcall : 32 ≤ call) : (delayAt call).toNat = 0 := by
  rw [delayAt, BitVec.toNat_ofNat]
  exact Nat.mod_eq_zero_of_dvd (pow_dvd_pow 2 hcall)

theorem delayAt_le (call : ℕ) : (delayAt call).toNat ≤ 2 ^ 31 := by
  rcases lt_or_ge call 32 with hsmall | hlarge
  · rw [delayAt_of_lt hsmall]
    exact Nat.pow_le_pow_right (by decide) (by omega)
  · rw [delayAt_of_le hlarge]
    exact Nat.zero_le _

/-- The delays before a call add up to less than the next power of two. -/
theorem sum_delays (calls : ℕ) :
    ((List.range calls).map fun call => (delayAt call).toNat).sum + 1 = 2 ^ min calls 32 := by
  induction calls with
  | zero => rfl
  | succ calls ih =>
    rw [List.range_succ, List.map_append, List.sum_append, List.map_singleton,
      List.sum_singleton]
    rcases lt_or_ge calls 32 with hsmall | hlarge
    · rw [min_eq_left hsmall.le] at ih
      rw [delayAt_of_lt hsmall, min_eq_left hsmall, pow_succ]
      omega
    · rw [min_eq_right hlarge] at ih
      rw [delayAt_of_le hlarge, min_eq_right (by omega)]
      omega

variable (check results limit) in
/-- The loop ends at a call. -/
def Stops (call : ℕ) : Prop := check (results call) = true ∨ limit ≤ delayAt call

theorem not_stops_iff {call : ℕ} : ¬Stops check results limit call ↔
    ¬check (results call) = true ∧ delayAt call < limit := by
  rw [Stops, not_or, BitVec.not_le]

/-- How the loop ends at a call where it does. -/
def endingAt (check : α → Bool) (results : ℕ → α) (call : ℕ) : Ending :=
  if check (results call) then .satisfied else .gaveUp (delayAt call)

/-- The run up to the first call where the loop stops. -/
theorem retryLoop_stops {first count : ℕ}
    (hbefore : ∀ call < count, ¬Stops check results limit (first + call))
    (hstop : Stops check results limit (first + count)) :
    retryLoop check results limit (count + 1) first (delayAt first) =
      ⟨(List.range (count + 1)).map fun call => results (first + call),
        (List.range count).map fun call => delayAt (first + call),
        some (endingAt check results (first + count))⟩ := by
  induction count generalizing first with
  | zero =>
    simp only [Nat.add_zero] at hstop
    by_cases hcheck : check (results first) = true
    · simp [retryLoop, endingAt, hcheck]
    · have hdelay : ¬delayAt first < limit :=
        BitVec.not_lt.mpr (hstop.resolve_left hcheck)
      simp [retryLoop, endingAt, hcheck, hdelay]
  | succ count ih =>
    have hhere := hbefore 0 (Nat.succ_pos count)
    rw [Nat.add_zero, not_stops_iff] at hhere
    have hshift (call : ℕ) : first + 1 + call = first + (call + 1) := by omega
    have hrest := @ih (first + 1)
      (fun call hcall => by rw [hshift]; exact hbefore (call + 1) (by omega))
      (by rw [hshift]; exact hstop)
    rw [retryLoop, if_neg hhere.1, if_pos hhere.2, delayAt_succ, hrest]
    simp only [hshift, List.range_succ_eq_map (n := count + 1), List.range_succ_eq_map (n := count),
      List.map_cons, List.map_map, Function.comp_def, Nat.add_zero, Nat.succ_eq_add_one]

/-- A run that ends has made more calls than those where the loop goes on. -/
theorem length_calls_of_not_stops {first count fuel : ℕ}
    (hbefore : ∀ call < count, ¬Stops check results limit (first + call))
    (hends : (retryLoop check results limit fuel first (delayAt first)).ending ≠ none) :
    count < (retryLoop check results limit fuel first (delayAt first)).calls.length := by
  induction count generalizing first fuel with
  | zero =>
    cases fuel with
    | zero => exact absurd rfl hends
    | succ fuel =>
      rw [retryLoop]
      split_ifs <;> simp
  | succ count ih =>
    cases fuel with
    | zero => exact absurd rfl hends
    | succ fuel =>
      have hhere := hbefore 0 (Nat.succ_pos count)
      rw [Nat.add_zero, not_stops_iff] at hhere
      rw [retryLoop, if_neg hhere.1, if_pos hhere.2, delayAt_succ] at hends ⊢
      refine Nat.succ_lt_succ (ih ?_ hends)
      intro call hcall
      have hshift : first + 1 + call = first + (call + 1) := by omega
      rw [hshift]
      exact hbefore (call + 1) (by omega)

/-- A loop that can stop in its first 34 calls ends in time. -/
theorem bounded_of_stops {stop : ℕ} (hpos : 0 < limit.toNat) (hlast : stop < 34)
    (hbefore : ∀ call < stop, ¬Stops check results limit call)
    (hstop : Stops check results limit stop) :
    Bounded check limit (retry check results limit (stop + 1)) := by
  have hrun := @retryLoop_stops α check results limit 0 stop (by simpa using hbefore)
    (by simpa using hstop)
  simp only [Nat.zero_add] at hrun
  have hstart : delayAt 0 = 1 := rfl
  rw [hstart] at hrun
  rw [retry, hrun]
  refine ⟨by simp, by simp; omega, ?_, ?_, ?_⟩
  · -- The last delay is below the limit, and the sum is less than twice that delay.
    rw [List.map_map]
    have hsum := sum_delays stop
    rw [Function.comp_def]
    rcases Nat.eq_zero_or_pos stop with rfl | hsome
    · simpa using hpos
    · have hdelay := hbefore (min stop 32 - 1) (by omega)
      rw [not_stops_iff, BitVec.lt_def, delayAt_of_lt (by omega)] at hdelay
      have hpow : 2 ^ min stop 32 = 2 * 2 ^ (min stop 32 - 1) := by
        rw [← pow_succ']
        congr 1
        omega
      omega
  · intro delay hdelay
    rw [Option.some_inj, endingAt] at hdelay
    split_ifs at hdelay with hcheck
    obtain rfl := Ending.gaveUp.inj hdelay
    rcases hstop with hstop | hstop
    · exact absurd hstop hcheck
    · exact hstop
  · intro ret hret
    rw [List.range_succ, List.map_append, List.map_singleton, List.dropLast_concat,
      List.mem_map] at hret
    obtain ⟨call, hcall, rfl⟩ := hret
    have hgoes := hbefore call (List.mem_range.mp hcall)
    exact Bool.eq_false_iff.mpr (not_stops_iff.mp hgoes).1

theorem not_bounded_of_not_stops (hbefore : ∀ call < 34, ¬Stops check results limit call)
    (fuel : ℕ) : ¬Bounded check limit (retry check results limit fuel) := by
  intro hbounded
  have hcalls := @length_calls_of_not_stops α check results limit 0 34 fuel
    (by simpa using hbefore) hbounded.ends
  exact absurd hbounded.calls (not_le.mpr hcalls)

/-- For every limit that the macro can work with and all results, the loop ends in
time exactly if the delay can reach the limit or one of the first results
satisfies the check. -/
theorem retry_bounded_iff (hlimit : Obtained limit) :
    (∃ fuel, Bounded check limit (retry check results limit fuel)) ↔
      limit.toNat ≤ 2 ^ 31 ∨ ∃ call < 34, check (results call) = true := by
  constructor
  · rintro ⟨fuel, hbounded⟩
    by_contra hnever
    rw [not_or, not_le] at hnever
    refine not_bounded_of_not_stops ?_ fuel hbounded
    rintro call hcall (hcheck | hdelay)
    · exact hnever.2 ⟨call, hcall, hcheck⟩
    · exact absurd ((BitVec.le_def.mp hdelay).trans (delayAt_le call)) (not_le.mpr hnever.1)
  · intro hcase
    have hexists : ∃ call < 34, Stops check results limit call := by
      rcases hcase with hreached | ⟨call, hcall, hcheck⟩
      · refine ⟨31, by decide, .inr ?_⟩
        rw [BitVec.le_def, delayAt_of_lt (by decide)]
        exact hreached
      · exact ⟨call, hcall, .inl hcheck⟩
    obtain ⟨last, hlast, hstop⟩ := hexists
    classical
    have hfound : ∃ call, Stops check results limit call := ⟨last, hstop⟩
    have hle : Nat.find hfound ≤ last := Nat.find_min' hfound hstop
    exact ⟨_, bounded_of_stops hlimit.pos (by omega) (fun call hcall => Nat.find_min hfound hcall)
      (Nat.find_spec hfound)⟩

/-- With the default delay and multiplier the loop ends in time whatever is
returned. -/
theorem retry_bounded_default : ∃ fuel,
    Bounded (fun _ : Unit => false) 1000000 (retry (fun _ => false) (fun _ => ()) 1000000 fuel) :=
  (retry_bounded_iff obtained_default).mpr (.inl (by decide))

/-- One second times 3000 is above the largest delay: a function that never
succeeds is called for ever. -/
theorem retry_unbounded : Obtained 3000000000 ∧
    ¬∃ fuel, Bounded (fun _ : Unit => false) 3000000000
      (retry (fun _ => false) (fun _ => ()) 3000000000 fuel) := by
  refine ⟨obtained_large, ?_⟩
  rintro ⟨fuel, hbounded⟩
  refine not_bounded_of_not_stops ?_ fuel hbounded
  intro call hcall
  rw [not_stops_iff, BitVec.lt_def]
  exact ⟨by simp, (delayAt_le call).trans_lt (by decide)⟩

end Runs

end GrapheneLtp.Retry
