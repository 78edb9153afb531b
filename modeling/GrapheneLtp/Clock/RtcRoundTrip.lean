import GrapheneLtp.Clock.RtcTime
import GrapheneLtp.Core.Gregorian

/-!
# The clock counts the days of the calendar

The date of a number of seconds is the day that the calendar reaches after so
many days, and the closed formula of the way back gives the number of that day.
The year that is guessed is never too small, and each round of the correcting
loop moves one year of the calendar.
-/

namespace GrapheneLtp.RtcRoundTrip

open GrapheneLtp.Rtc GrapheneLtp.Gregorian

section Conversions

theorem uint32_of_mem {value : ℤ} (hlow : 0 ≤ value)
    (hhigh : value < 4294967296) : (uint32 value : ℤ) = value := by
  unfold uint32
  omega

theorem uint32_natCast {value : ℕ} (hhigh : value < 4294967296) : uint32 value = value := by
  unfold uint32
  omega

theorem int32_of_mem {value : ℤ} (hlow : -2147483648 ≤ value)
    (hhigh : value < 2147483648) : int32 value = value := by
  unfold int32
  omega

end Conversions

section Loops

theorem rtcMonthDays_eq {month : ℕ} (hmonth : month < 12) (year : ℕ) :
    rtcMonthDays month year = monthDays year month := by
  have hleap : isLeapYear year = isLeap year := rfl
  rw [rtcMonthDays, hleap]
  interval_cases month
  case «1» =>
    rw [monthDays]
    cases isLeap year <;> rfl
  all_goals cases isLeap year <;> rfl

/-- The loop moves back to the year that the day lies in. -/
theorem yearLoop_spec (year : ℕ) (days : ℤ) (hyear : 1970 ≤ year) (hbound : year < 4294967296)
    (hafter : (yearStart 1970 : ℤ) ≤ yearStart year + days)
    (hbefore : days < yearLength year) :
    1970 ≤ (yearLoop year days).1 ∧ (yearLoop year days).1 ≤ year ∧ 0 ≤ (yearLoop year days).2 ∧
      (yearLoop year days).2 < yearLength (yearLoop year days).1 ∧
      yearStart (yearLoop year days).1 + (yearLoop year days).2 = yearStart year + days := by
  induction year, days using yearLoop.induct with
  | case1 year days hnegative ih =>
    have hlater : 1970 < year := by
      by_contra hle
      obtain rfl : year = 1970 := by omega
      omega
    have hprevious : uint32 (year - 1) = year - 1 := by
      unfold uint32
      omega
    have hstart := @yearStart_succ (year - 1) (by omega)
    rw [Nat.sub_add_cancel (by omega)] at hstart
    have hlength : 365 + (isLeapYear (year - 1)).toInt = yearLength (year - 1) := by
      have hleap : isLeapYear (year - 1) = isLeap (year - 1) := rfl
      rw [hleap, yearLength]
      cases isLeap (year - 1) <;> rfl
    rw [yearLoop, if_pos hnegative]
    rw [hprevious, hlength] at ih ⊢
    obtain ⟨hfirst, hle, hlow, hhigh, hsum⟩ := ih (by omega) (by omega) (by omega) (by omega)
    exact ⟨hfirst, by omega, hlow, hhigh, by omega⟩
  | case2 year days hnonnegative =>
    rw [yearLoop, if_neg hnonnegative]
    exact ⟨hyear, le_rfl, not_lt.mp hnonnegative, hbefore, rfl⟩

/-- The loop stops in the month that the day lies in. -/
theorem monthLoop_spec (year month : ℕ) (days : ℤ) (hmonth : month ≤ 11) (hlow : 0 ≤ days)
    (hhigh : monthStart year month + days < yearLength year) :
    (monthLoop year month days).1 ≤ 11 ∧ 0 ≤ (monthLoop year month days).2 ∧
      (monthLoop year month days).2 < monthDays year (monthLoop year month days).1 ∧
      monthStart year (monthLoop year month days).1 +
        (monthLoop year month days).2 = monthStart year month + days := by
  induction month, days using monthLoop.induct year with
  | case1 month days hloop newdays hbreak =>
    rw [monthLoop, if_pos hloop, if_pos hbreak]
    have hdays := @rtcMonthDays_eq month (by omega) year
    exact ⟨hmonth, hlow, by simp only; omega, rfl⟩
  | case2 month days hloop newdays hgo ih =>
    rw [monthLoop, if_pos hloop, if_neg hgo]
    have hdays := @rtcMonthDays_eq month (by omega) year
    have hstart : monthStart year (month + 1) = monthStart year month + monthDays year month := rfl
    obtain ⟨hle, hnext, hshort, hsum⟩ := ih (by omega) (by omega) (by omega)
    exact ⟨hle, hnext, hshort, hsum.trans (by omega)⟩
  | case3 month days hdone =>
    rw [monthLoop, if_neg hdone]
    obtain rfl : month = 11 := by omega
    have hwhole := monthStart_twelve year
    rw [monthStart] at hwhole
    exact ⟨le_rfl, hlow, show days < monthDays year 11 by omega, rfl⟩

end Loops

/-- The first of January 1970, a Thursday. -/
def epoch : Day :=
  { year := 1970, month := 0, mday := 1, wday := 4, yday := 1 }

theorem epoch_valid : epoch.Valid := by
  constructor <;> decide

theorem number_epoch : epoch.number = yearStart 1970 := rfl

/-- The fields of a time show a day and a second of it. -/
structure Shows (tm : RtcTime) (day : Day) (secs : ℤ) : Prop where
  year : tm.tmYear + 1900 = day.year
  month : tm.tmMon = day.month
  mday : tm.tmMday = day.mday
  hour : 0 ≤ tm.tmHour ∧ tm.tmHour < 24
  min : 0 ≤ tm.tmMin ∧ tm.tmMin < 60
  sec : 0 ≤ tm.tmSec ∧ tm.tmSec < 60
  secs : (tm.tmHour * 60 + tm.tmMin) * 60 + tm.tmSec = secs

section ToTm

variable {days : ℕ}

theorem leaps_guess (days : ℕ) : 477 ≤ leaps (1970 + days / 365 - 1) ∧
    leaps (1970 + days / 365 - 1) ≤ days / 365 + 1970 := by
  unfold leaps
  omega

/-- The days from the epoch to the year that is guessed. -/
theorem yearStart_guess (days : ℕ) : yearStart (1970 + days / 365) + 477 =
    yearStart 1970 + days / 365 * 365 + leaps (1970 + days / 365 - 1) := by
  have hstart : yearStart 1970 = 719162 := by decide
  rw [hstart, yearStart]
  omega

/-- The year that is guessed, and the days of it that have gone by. -/
theorem guess_spec (hdays : days < 1073741824) :
    uint32 (1970 + (days : ℤ).tdiv 365) = 1970 + days / 365 ∧
      int32 (days - uint32 (uint32 ((1970 + days / 365 : ℕ) - 1970) * 365 +
        leapsThruEndOf (uint32 ((1970 + days / 365 : ℕ) - 1)) - leapsThruEndOf (1970 - 1))) =
        (yearStart 1970 + days : ℤ) - yearStart (1970 + days / 365) := by
  have hquotient : (days : ℤ).tdiv 365 = (days / 365 : ℕ) := rfl
  have hyears : uint32 ((1970 + days / 365 : ℕ) - 1970) = days / 365 := by
    unfold uint32
    omega
  have hprevious : uint32 ((1970 + days / 365 : ℕ) - 1) = 1970 + days / 365 - 1 := by
    unfold uint32
    omega
  have hleaps : leapsThruEndOf (1970 + days / 365 - 1) = leaps (1970 + days / 365 - 1) := rfl
  have hconstant : leapsThruEndOf (1970 - 1) = 477 := rfl
  obtain ⟨hlow, hhigh⟩ := leaps_guess days
  have hguess := yearStart_guess days
  refine ⟨by rw [hquotient]; unfold uint32; omega, ?_⟩
  rw [hyears, hprevious, hleaps, hconstant,
    uint32_of_mem (by omega) (by omega), int32_of_mem (by omega) (by omega)]
  omega

/-- The guess is never too small. -/
theorem guess_before (days : ℕ) : (yearStart 1970 + days : ℤ) - yearStart (1970 + days / 365) <
      yearLength (1970 + days / 365) := by
  have hleaps := (leaps_guess days).1
  have hguess := yearStart_guess days
  have hlength : 365 ≤ yearLength (1970 + days / 365) := by
    unfold yearLength
    split_ifs <;> omega
  omega

/-- A day of a month of a year is the one that the calendar reaches. -/
theorem reached_eq {year month : ℕ} {yday mday : ℤ} (hyear : 1970 ≤ year)
    (hyday : 0 ≤ yday) (hsum : yearStart year + yday = yearStart 1970 + days)
    (hmonth : month ≤ 11) (hmday : 0 ≤ mday)
    (hshort : mday < monthDays year month)
    (hinside : monthStart year month + mday = yday) :
    Day.mk year month (mday.toNat + 1) ((4 + days) % 7) (yday.toNat + 1) =
      Day.next^[days] epoch := by
  obtain ⟨hreached, hnumber, hwday⟩ := epoch_valid.iterate days
  refine Day.Valid.eq_of_number ⟨?_, ?_, ?_, ?_, ?_, ?_⟩ hreached ?_ hwday.symm
  · exact lt_of_lt_of_le (by decide) hyear
  · exact Nat.lt_succ_of_le hmonth
  · exact Nat.succ_pos _
  · simp only
    omega
  · exact Nat.mod_lt _ (by decide)
  · simp only
    omega
  · rw [hnumber, number_epoch]
    simp only [Day.number]
    omega

/-- The two loops, for a number of days. -/
theorem loops_spec (days : ℕ) (hdays : days < 1073741824) : ∃ year month : ℕ, ∃ yday mday : ℤ,
      yearLoop (1970 + days / 365) (yearStart 1970 + days -
        yearStart (1970 + days / 365)) = (year, yday) ∧
      monthLoop year 0 yday = (month, mday) ∧
      0 ≤ yday ∧ 0 ≤ mday ∧ year ≤ 1970 + days / 365 ∧
      Day.mk year month (mday.toNat + 1) ((4 + days) % 7) (yday.toNat + 1) =
        Day.next^[days] epoch := by
  have hyears := yearLoop_spec (1970 + days / 365) (yearStart 1970 + days -
    yearStart (1970 + days / 365)) (by omega) (by omega) (by omega)
    (guess_before days)
  rcases hloop : yearLoop (1970 + days / 365) (yearStart 1970 + days -
    yearStart (1970 + days / 365)) with ⟨year, yday⟩
  simp only [hloop] at hyears
  obtain ⟨hyear, hyearLe, hyday, hydayLt, hsum⟩ := hyears
  have hstart : monthStart year 0 = 0 := rfl
  have hmonths := monthLoop_spec year 0 yday (by decide) hyday (by omega)
  rcases hmonthLoop : monthLoop year 0 yday with ⟨month, mday⟩
  simp only [hmonthLoop] at hmonths
  obtain ⟨hmonth, hmday, hshort, hinside⟩ := hmonths
  exact ⟨year, month, yday, mday, rfl, hmonthLoop, hyday, hmday, hyearLe,
    reached_eq hyear hyday (by omega) hmonth hmday hshort (by omega)⟩

/-- The date and the time of day of a number of seconds. -/
theorem tstRtcTimeToTm_shows {time : ℤ} (hlow : 0 ≤ time) (hhigh : time < 86400 * 2 ^ 30) :
    Shows (tstRtcTimeToTm time) (Day.next^[(time / 86400).toNat] epoch) (time % 86400) ∧
      (tstRtcTimeToTm time).tmWday = (Day.next^[(time / 86400).toNat] epoch).wday ∧
      (tstRtcTimeToTm time).tmYday = (Day.next^[(time / 86400).toNat] epoch).yday := by
  obtain ⟨seconds, rfl⟩ := Int.eq_ofNat_of_zero_le hlow
  have hdays : int32 ((seconds : ℤ).tdiv 86400) = (seconds / 86400 : ℕ) := by
    have hquotient : (seconds : ℤ).tdiv 86400 = (seconds / 86400 : ℕ) := rfl
    rw [hquotient, int32_of_mem (by omega) (by omega)]
  have hsecs : uint32 ((seconds : ℤ).tmod 86400) = seconds % 86400 := by
    have hrest : (seconds : ℤ).tmod 86400 = (seconds % 86400 : ℕ) := rfl
    rw [hrest, uint32_natCast (by omega)]
  have hcount : ((seconds : ℤ) / 86400).toNat = seconds / 86400 := by omega
  have hsmall : seconds / 86400 < 1073741824 := by omega
  obtain ⟨hguess, hstart⟩ := guess_spec hsmall
  obtain ⟨year, month, yday, mday, hyears, hmonths, hyday, hmday, hyear,
    hreached⟩ := loops_spec _ hsmall
  have hweek : ((seconds / 86400 : ℕ) + 4 : ℤ).tmod 7 = ((4 + seconds / 86400) % 7 : ℕ) := by
    rw [Nat.add_comm 4]
    rfl
  simp only [tstRtcTimeToTm, hdays, hsecs, hguess, hstart, hyears, hmonths,
    hcount, ← hreached, hweek]
  refine ⟨⟨?_, rfl, ?_, ?_, ?_, ?_, ?_⟩, trivial, by omega⟩
  · simp only
    rw [int32_of_mem (by omega) (by omega)]
    omega
  all_goals
    simp only
    omega

end ToTm

section ToTime

variable {year month : ℕ}

/-- The formula for January and February, which belong to the year before. -/
theorem monthFormula_early (hmonth : month < 2) :
    leaps (year - 1) + 367 * (month + 11) / 12 + (year - 1) * 365 =
      yearStart year + monthStart year month + 336 := by
  rw [yearStart]
  interval_cases month
  · simp only [monthStart]
    omega
  · simp only [monthStart, monthDays]
    omega

/-- The formula for the other months. -/
theorem monthFormula_late (hyear : 0 < year) (hlow : 2 ≤ month) (hhigh : month < 12) :
    leaps year + 367 * (month - 1) / 12 + year * 365 =
      yearStart year + monthStart year month + 336 := by
  have hnext := yearStart_succ hyear
  rw [yearStart, Nat.add_sub_cancel, yearLength] at hnext
  interval_cases month <;> simp only [monthStart, monthDays] <;>
    split_ifs at hnext ⊢ <;> omega

theorem leaps_cast (year : ℕ) : (year / 4 - year / 100 + year / 400 : ℤ) = leaps year := by
  unfold leaps
  omega

theorem shift_early (hmonth : month < 2) : 0 ≥ int32 (uint32 ((month + 1 : ℕ) - 2)) ∧
      uint32 (uint32 ((month + 1 : ℕ) - 2) + 12) = month + 11 := by
  unfold int32 uint32
  omega

theorem shift_late (hlow : 2 ≤ month) (hhigh : month < 12) :
    ¬0 ≥ int32 (uint32 ((month + 1 : ℕ) - 2)) ∧ uint32 ((month + 1 : ℕ) - 2) = month - 1 := by
  unfold int32 uint32
  omega

/-- The days of the closed formula, within the range of `unsigned int`. -/
theorem formula_eq {day : ℕ} (hyear : year ≤ 8000000) (hmonth : month ≤ 12) (hday : day ≤ 31) :
    (uint32 (year / 4 - year / 100 + year / 400 +
      (uint32 (367 * month) / 12 : ℕ) + day) : ℤ) + uint32 (year * 365) =
      (leaps year + 367 * month / 12 + year * 365 : ℕ) + day := by
  have hleaps : leaps year ≤ year := by
    unfold leaps
    omega
  have hmonths : uint32 (367 * month) = 367 * month := by
    unfold uint32
    omega
  rw [leaps_cast, hmonths, uint32_of_mem (by omega) (by omega), uint32_of_mem (by omega) (by omega)]
  push_cast
  ring

/-- The closed formula gives the number of the day. -/
theorem tstMktime_eq {day hour min sec : ℕ} (hyear : 0 < year)
    (hbound : year ≤ 8000000) (hmonth : month < 12) (hday : day ≤ 31) :
    tstMktime year (month + 1) day hour min sec =
      (((yearStart year + monthStart year month + day - 1 - yearStart 1970 : ℤ) *
        24 + hour) * 60 + min) * 60 + sec := by
  have hstart : yearStart 1970 = 719162 := by decide
  unfold tstMktime
  by_cases hearly : month < 2
  · obtain ⟨hshifted, hmon⟩ := shift_early hearly
    have hprevious : uint32 (year - 1) = year - 1 := by
      unfold uint32
      omega
    have hformula := @monthFormula_early year month hearly
    simp only [hshifted, if_true, hmon, hprevious]
    rw [formula_eq (by omega) (by omega) hday, hformula, hstart]
    push_cast
    ring
  · obtain ⟨hplain, hmon⟩ := shift_late (Nat.le_of_not_lt hearly) hmonth
    have hformula := monthFormula_late hyear (Nat.le_of_not_lt hearly) hmonth
    rw [hmon] at hplain
    simp only [hmon, hplain, if_false]
    rw [formula_eq hbound (by omega) hday, hformula, hstart]
    push_cast
    ring

/-- A time that shows a day is converted to the number of that day. -/
theorem tstRtcTmToTime_eq {tm : RtcTime} {day : Day} {secs : ℤ}
    (hshows : Shows tm day secs) (hvalid : day.Valid)
    (hbound : day.year ≤ 8000000) :
    tstRtcTmToTime tm = (day.number - yearStart 1970 : ℤ) * 86400 + secs := by
  have hyear : uint32 (uint32 tm.tmYear + 1900) = day.year := by
    have heq := hshows.year
    unfold uint32
    omega
  have hmonth : uint32 (tm.tmMon + 1) = day.month + 1 := by
    have heq := hshows.month
    have hlt := hvalid.month_lt
    unfold uint32
    omega
  have hmonthDays : monthDays day.year day.month ≤ 31 := by
    unfold monthDays
    split <;> first | split_ifs <;> omega | omega
  have hmday : day.mday ≤ 31 := hvalid.mday_le.trans hmonthDays
  have hmdayEq : uint32 tm.tmMday = day.mday := by
    have heq := hshows.mday
    unfold uint32
    omega
  have htime := hshows.secs
  have hhour := hshows.hour
  have hmin := hshows.min
  have hsec := hshows.sec
  rw [tstRtcTmToTime, hyear, hmonth, hmdayEq,
    tstMktime_eq hvalid.year_pos hbound hvalid.month_lt hmday,
    uint32_of_mem hhour.1 (by omega), uint32_of_mem hmin.1 (by omega),
    uint32_of_mem hsec.1 (by omega), ← htime, Day.number]
  have hpos := hvalid.mday_pos
  omega

end ToTime

/-- The fields of a date and time from 1970 on are in their ranges. -/
structure ValidDateTime (tm : RtcTime) : Prop where
  year : 70 ≤ tm.tmYear
  month : 0 ≤ tm.tmMon ∧ tm.tmMon ≤ 11
  mday : 1 ≤ tm.tmMday ∧
    tm.tmMday ≤ monthDays (tm.tmYear + 1900).toNat tm.tmMon.toNat
  hour : 0 ≤ tm.tmHour ∧ tm.tmHour < 24
  min : 0 ≤ tm.tmMin ∧ tm.tmMin < 60
  sec : 0 ≤ tm.tmSec ∧ tm.tmSec < 60

/-- Two times have the same date and time of day. -/
def SameDateTime (first second : RtcTime) : Prop :=
  first.tmYear = second.tmYear ∧ first.tmMon = second.tmMon ∧
    first.tmMday = second.tmMday ∧ first.tmHour = second.tmHour ∧
    first.tmMin = second.tmMin ∧ first.tmSec = second.tmSec

section Dates

variable {tm other : RtcTime} {day : Day} {secs : ℤ}

theorem Shows.same (hfirst : Shows tm day secs)
    (hsecond : Shows other day secs) : SameDateTime tm other := by
  have hyear := hfirst.year.trans hsecond.year.symm
  have hsecs := hfirst.secs.trans hsecond.secs.symm
  obtain ⟨-, hmonth, hmday, hhour, hmin, hsec, -⟩ := hfirst
  obtain ⟨-, hmonth', hmday', hhour', hmin', hsec', -⟩ := hsecond
  exact ⟨by omega, hmonth.trans hmonth'.symm, hmday.trans hmday'.symm,
    by omega, by omega, by omega⟩

/-- The days up to a number have years that the formula can handle. -/
theorem year_le_of_count {count : ℕ} (hcount : count < 1073741824) :
    (Day.next^[count] epoch).year ≤ 8000000 := by
  obtain ⟨hreached, hnumber, -⟩ := epoch_valid.iterate count
  have hstart : yearStart 1970 = 719162 := by decide
  rw [number_epoch, Day.number, yearStart, hstart] at hnumber
  omega

/-- Every valid date is one that the calendar reaches. -/
theorem ValidDateTime.exists_shows (hvalid : ValidDateTime tm) :
    ∃ count, Shows tm (Day.next^[count] epoch) ((tm.tmHour * 60 + tm.tmMin) * 60 + tm.tmSec) := by
  obtain ⟨hyear, hmonth, hmday, hhour, hmin, hsec⟩ := hvalid
  have hfirst : 1970 ≤ (tm.tmYear + 1900).toNat := by omega
  have hmono := yearStart_mono hfirst
  set days := yearStart (tm.tmYear + 1900).toNat +
    monthStart (tm.tmYear + 1900).toNat tm.tmMon.toNat +
      (tm.tmMday.toNat - 1) - yearStart 1970 with hdays
  refine ⟨days, ?_⟩
  rw [← @reached_eq days (tm.tmYear + 1900).toNat tm.tmMon.toNat
    (monthStart (tm.tmYear + 1900).toNat tm.tmMon.toNat + (tm.tmMday - 1))
    (tm.tmMday - 1) hfirst (by omega) (by omega) (by omega) (by omega)
    (by omega) rfl]
  refine ⟨?_, ?_, ?_, hhour, hmin, hsec, rfl⟩
  all_goals
    simp only
    omega

end Dates

/-- For every time of the span the conversion gives the day of the proleptic
Gregorian calendar and the time of day, and the way back gives the number of
seconds.  Every valid date from 1970 on is a day of the calendar, and if it lies
in the span it is what its number of seconds is converted to. -/
theorem tstRtcTime_gregorian : (∀ time : ℤ, 0 ≤ time → time < 86400 * 2 ^ 30 →
      Shows (tstRtcTimeToTm time) (Day.next^[(time / 86400).toNat] epoch) (time % 86400) ∧
        (Day.next^[(time / 86400).toNat] epoch).Valid ∧
        (tstRtcTimeToTm time).tmWday = (Day.next^[(time / 86400).toNat] epoch).wday ∧
        (tstRtcTimeToTm time).tmYday = (Day.next^[(time / 86400).toNat] epoch).yday ∧
        tstRtcTmToTime (tstRtcTimeToTm time) = time) ∧
    (∀ tm, ValidDateTime tm → ∃ count secs, Shows tm (Day.next^[count] epoch) secs ∧
        (count * 86400 + secs < 86400 * 2 ^ 30 → tstRtcTmToTime tm = count * 86400 + secs ∧
            SameDateTime (tstRtcTimeToTm (tstRtcTmToTime tm)) tm)) := by
  have hback {tm : RtcTime} {count : ℕ} {secs : ℤ} (hcount : count < 1073741824)
      (hshows : Shows tm (Day.next^[count] epoch) secs) :
      tstRtcTmToTime tm = count * 86400 + secs := by
    obtain ⟨hreached, hnumber, -⟩ := epoch_valid.iterate count
    rw [tstRtcTmToTime_eq hshows hreached (year_le_of_count hcount), hnumber, number_epoch]
    push_cast
    ring
  constructor
  · intro time hlow hhigh
    obtain ⟨hshows, hwday, hyday⟩ := tstRtcTimeToTm_shows hlow hhigh
    refine ⟨hshows, (epoch_valid.iterate _).1, hwday, hyday, ?_⟩
    rw [hback (by omega) hshows]
    omega
  · intro tm hvalid
    obtain ⟨count, hshows⟩ := hvalid.exists_shows
    have hhour := hvalid.hour
    have hmin := hvalid.min
    have hsec := hvalid.sec
    refine ⟨count, _, hshows, fun hspan => ?_⟩
    have htime := hback (by omega) hshows
    refine ⟨htime, ?_⟩
    obtain ⟨himage, -⟩ := tstRtcTimeToTm_shows (show 0 ≤ tstRtcTmToTime tm by omega) (by omega)
    have hday : (tstRtcTmToTime tm / 86400).toNat = count := by omega
    have hrest : tstRtcTmToTime tm % 86400 = (tm.tmHour * 60 + tm.tmMin) * 60 + tm.tmSec := by omega
    rw [hday, hrest] at himage
    exact himage.same hshows

/-- The last second of the leap day of 2000. -/
def leapDay : RtcTime :=
  { tmSec := 59, tmMin := 59, tmHour := 23, tmMday := 29, tmMon := 1
    tmYear := 100, tmWday := 2, tmYday := 60, tmIsdst := 0 }

theorem tstRtcTime_gregorian_leapDay : tstRtcTmToTime (tstRtcTimeToTm 951868799) = 951868799 ∧
      tstRtcTimeToTm 951868799 = leapDay ∧
      ∃ count secs, Shows leapDay (Day.next^[count] epoch) secs := by
  obtain ⟨hforth, hback⟩ := tstRtcTime_gregorian
  obtain ⟨count, secs, hshows, -⟩ := hback leapDay
    ⟨by decide, by decide, by decide, by decide, by decide, by decide⟩
  exact ⟨(hforth 951868799 (by decide) (by decide)).2.2.2.2,
    by decide +kernel, count, secs, hshows⟩

end GrapheneLtp.RtcRoundTrip
