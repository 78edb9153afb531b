import Mathlib.Tactic

/-!
# Seconds and dates of the real-time clock

`tst_rtc_time_to_tm` guesses the year from the number of days, corrects it in a
loop and walks through the months.  `tst_rtc_tm_to_time` goes back with a closed
formula in which the year begins in March.  Values of type `int` are integers,
values of type `unsigned int` natural numbers, and the conversions between them
are written out where a value may leave its type.
-/

namespace GrapheneLtp.Rtc

/-- The conversion to `unsigned int`. -/
def uint32 (value : ℤ) : ℕ := (value % 4294967296).toNat

/-- The conversion to `int`. -/
def int32 (value : ℤ) : ℤ := (value + 2147483648) % 4294967296 - 2147483648

/-- `struct rtc_time`. -/
structure RtcTime where
  tmSec : ℤ
  tmMin : ℤ
  tmHour : ℤ
  tmMday : ℤ
  tmMon : ℤ
  tmYear : ℤ
  tmWday : ℤ
  tmYday : ℤ
  tmIsdst : ℤ
  deriving DecidableEq, Repr

/-- `LEAPS_THRU_END_OF`. -/
def leapsThruEndOf (year : ℕ) : ℕ := year / 4 - year / 100 + year / 400

def rtcDaysInMonth : List ℕ := [31, 28, 31, 30, 31, 30, 31, 31, 30, 31, 30, 31]

def isLeapYear (year : ℕ) : Bool := (year % 4 = 0 && year % 100 ≠ 0) || year % 400 = 0

/-- `tst_mktime`. -/
def tstMktime (year0 mon0 day hour min sec : ℕ) : ℤ :=
  let mon := uint32 (mon0 - 2)
  -- February comes last, since it has the leap day
  let shifted := 0 ≥ int32 mon
  let year := if shifted then uint32 (year0 - 1) else year0
  let mon := if shifted then uint32 (mon + 12) else mon
  let days := uint32 (year / 4 - year / 100 + year / 400 + (uint32 (367 * mon) / 12 : ℕ) + day)
  (((days + uint32 (year * 365) - 719499) * 24 + hour) * 60 + min) * 60 + sec

def rtcMonthDays (month year : ℕ) : ℤ :=
  rtcDaysInMonth.getD month 0 + (isLeapYear year && month == 1).toInt

/-- The loop that corrects the year. -/
def yearLoop (year : ℕ) (days : ℤ) : ℕ × ℤ :=
  if days < 0 then
    yearLoop (uint32 (year - 1)) (days + (365 + (isLeapYear (uint32 (year - 1))).toInt))
  else (year, days)
termination_by (-days).toNat
decreasing_by
  have hleap : 0 ≤ (isLeapYear (uint32 (year - 1))).toInt := by
    cases isLeapYear (uint32 (year - 1)) <;> decide
  omega

/-- The loop over the months. -/
def monthLoop (year month : ℕ) (days : ℤ) : ℕ × ℤ :=
  if month < 11 then
    let newdays := days - rtcMonthDays month year
    if newdays < 0 then (month, days)
    else monthLoop year (month + 1) newdays
  else (month, days)
termination_by 11 - month

/-- `tst_rtc_time_to_tm`. -/
def tstRtcTimeToTm (time : ℤ) : RtcTime :=
  let days := int32 (time.tdiv 86400)
  let secs := uint32 (time.tmod 86400)
  let guess := uint32 (1970 + days.tdiv 365)
  let before := uint32 (uint32 (guess - 1970) * 365 +
    leapsThruEndOf (uint32 (guess - 1)) - leapsThruEndOf (1970 - 1))
  let yearDay := yearLoop guess (int32 (days - before))
  let monthDay := monthLoop yearDay.1 0 yearDay.2
  let hour := secs / 3600
  let min := (secs - hour * 3600) / 60
  { tmSec := (secs - hour * 3600 - min * 60 : ℕ)
    tmMin := min
    tmHour := hour
    tmMday := monthDay.2 + 1
    tmMon := monthDay.1
    tmYear := int32 (yearDay.1 - 1900)
    tmWday := (days + 4).tmod 7
    tmYday := yearDay.2 + 1
    tmIsdst := 0 }

/-- `tst_rtc_tm_to_time`. -/
def tstRtcTmToTime (tm : RtcTime) : ℤ :=
  tstMktime (uint32 (uint32 tm.tmYear + 1900)) (uint32 (tm.tmMon + 1))
    (uint32 tm.tmMday) (uint32 tm.tmHour) (uint32 tm.tmMin) (uint32 tm.tmSec)

end GrapheneLtp.Rtc
