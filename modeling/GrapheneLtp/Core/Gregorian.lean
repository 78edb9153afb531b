import Mathlib.Tactic

/-!
# The proleptic Gregorian calendar

The calendar is given by its successor: what the day after a day is.  A day has
a number that the successor raises by one, in closed form from the leap years
before it, and a valid day is determined by its number and its weekday.  Months
are counted from zero, weekdays from Sunday, and the days of a year from one.
-/

namespace GrapheneLtp.Gregorian

def isLeap (year : ℕ) : Bool := (year % 4 = 0 && year % 100 ≠ 0) || year % 400 = 0

def monthDays (year : ℕ) : ℕ → ℕ
  | 1 => if isLeap year then 29 else 28
  | 3 | 5 | 8 | 10 => 30
  | _ => 31

def yearLength (year : ℕ) : ℕ := if isLeap year then 366 else 365

structure Day where
  year : ℕ
  month : ℕ
  mday : ℕ
  wday : ℕ
  yday : ℕ
  deriving DecidableEq, Repr

/-- The day after a day. -/
def Day.next (day : Day) : Day :=
  let wday := (day.wday + 1) % 7
  if day.mday < monthDays day.year day.month then
    { day with mday := day.mday + 1, wday := wday, yday := day.yday + 1 }
  else if day.month < 11 then
    { day with
      month := day.month + 1, mday := 1, wday := wday, yday := day.yday + 1 }
  else
    { year := day.year + 1, month := 0, mday := 1, wday := wday, yday := 1 }

/-- The days of a year before a month. -/
def monthStart (year : ℕ) : ℕ → ℕ
  | 0 => 0
  | month + 1 => monthStart year month + monthDays year month

/-- The leap years up to the end of a year. -/
def leaps (year : ℕ) : ℕ := year / 4 - year / 100 + year / 400

/-- The days before a year, from the year one on. -/
def yearStart (year : ℕ) : ℕ := 365 * (year - 1) + leaps (year - 1)

def Day.number (day : Day) : ℕ :=
  yearStart day.year + monthStart day.year day.month + (day.mday - 1)

/-- The fields of a day fit together. -/
structure Day.Valid (day : Day) : Prop where
  year_pos : 0 < day.year
  month_lt : day.month < 12
  mday_pos : 0 < day.mday
  mday_le : day.mday ≤ monthDays day.year day.month
  wday_lt : day.wday < 7
  yday : day.yday = monthStart day.year day.month + day.mday

theorem isLeap_iff (year : ℕ) : isLeap year = true ↔ 4 ∣ year ∧ ¬100 ∣ year ∨ 400 ∣ year := by
  simp [isLeap, Nat.dvd_iff_mod_eq_zero]

theorem leaps_succ (year : ℕ) :
    leaps (year + 1) = leaps year + if isLeap (year + 1) then 1 else 0 := by
  have hcentury : 100 ∣ year + 1 → 4 ∣ year + 1 := Nat.dvd_trans ⟨25, rfl⟩
  have hfourth : 400 ∣ year + 1 → 100 ∣ year + 1 := Nat.dvd_trans ⟨4, rfl⟩
  have hle : year / 100 ≤ year / 4 := Nat.div_le_div_left (by decide) (by decide)
  simp only [leaps, isLeap_iff, Nat.succ_div]
  generalize year / 4 = quarters at hle ⊢
  generalize year / 100 = centuries at hle ⊢
  by_cases hfour : 4 ∣ year + 1 <;> by_cases hhundred : 100 ∣ year + 1 <;>
    by_cases hcycle : 400 ∣ year + 1 <;>
    simp only [hfour, hhundred, hcycle, true_implies, false_implies, if_true,
      if_false, not_true, not_false_eq_true, and_true, and_false, or_true,
      or_false, and_self, or_self] at hcentury hfourth ⊢ <;> omega

theorem yearStart_succ {year : ℕ} (hyear : 0 < year) :
    yearStart (year + 1) = yearStart year + yearLength year := by
  obtain ⟨before, rfl⟩ := Nat.exists_eq_add_of_lt hyear
  simp only [yearStart, Nat.zero_add, Nat.add_sub_cancel, leaps_succ, yearLength]
  split_ifs <;> omega

theorem yearStart_mono : Monotone yearStart := by
  apply monotone_nat_of_le_succ
  intro year
  rcases Nat.eq_zero_or_pos year with rfl | hyear
  · decide
  · rw [yearStart_succ hyear]
    exact Nat.le_add_right _ _

theorem monthStart_mono (year : ℕ) : Monotone (monthStart year) :=
  monotone_nat_of_le_succ fun _ => Nat.le_add_right _ _

theorem monthStart_twelve (year : ℕ) : monthStart year 12 = yearLength year := by
  simp only [monthStart, monthDays, yearLength]
  split_ifs <;> rfl

namespace Day

variable {day other : Day}

/-- A day lies inside its month, and so inside its year. -/
theorem Valid.inside (hvalid : day.Valid) : monthStart day.year day.month + (day.mday - 1) <
      monthStart day.year (day.month + 1) := by
  have hpos := hvalid.mday_pos
  have hle := hvalid.mday_le
  rw [monthStart]
  omega

theorem Valid.number_lt (hvalid : day.Valid) : day.number < yearStart (day.year + 1) := by
  have hinside := hvalid.inside
  have hyear : monthStart day.year (day.month + 1) ≤ monthStart day.year 12 :=
    monthStart_mono _ hvalid.month_lt
  rw [monthStart_twelve] at hyear
  rw [yearStart_succ hvalid.year_pos, number]
  omega

theorem Valid.next (hvalid : day.Valid) : day.next.Valid := by
  have hyear := hvalid.year_pos
  have hwday : (day.wday + 1) % 7 < 7 := Nat.mod_lt _ (by decide)
  have hyday := hvalid.yday
  have hpos := hvalid.mday_pos
  have hle := hvalid.mday_le
  unfold Day.next
  split_ifs with hmonth hlast
  · exact ⟨hyear, hvalid.month_lt, Nat.succ_pos _, hmonth, hwday,
      by simp only [hyday]; omega⟩
  · refine ⟨hyear, Nat.succ_lt_succ hlast, Nat.one_pos, ?_, hwday, ?_⟩
    · simp only [monthDays]
      split <;> first | split_ifs <;> omega | omega
    · simp only [hyday, monthStart]
      omega
  · exact ⟨Nat.succ_pos _, by simp, Nat.one_pos, by simp [monthDays], hwday,
      rfl⟩

theorem Valid.number_next (hvalid : day.Valid) : day.next.number = day.number + 1 := by
  have hpos := hvalid.mday_pos
  have hle := hvalid.mday_le
  unfold Day.next
  split_ifs with hmonth hlast
  · simp only [number]
    omega
  · simp only [number, monthStart]
    omega
  · have hmonth : day.month = 11 := by
      have hlt := hvalid.month_lt
      omega
    have hwhole := monthStart_twelve day.year
    rw [monthStart, ← hmonth] at hwhole
    simp only [number, monthStart, yearStart_succ hvalid.year_pos]
    omega

theorem next_wday : day.next.wday = (day.wday + 1) % 7 := by
  unfold Day.next
  split_ifs <;> rfl

/-- The days after a valid day are valid, and their numbers and weekdays go on
from its own. -/
theorem Valid.iterate (hvalid : day.Valid) (count : ℕ) : (Day.next^[count] day).Valid ∧
      (Day.next^[count] day).number = day.number + count ∧
      (Day.next^[count] day).wday = (day.wday + count) % 7 := by
  induction count with
  | zero => exact ⟨hvalid, rfl, (Nat.mod_eq_of_lt hvalid.wday_lt).symm⟩
  | succ count ih =>
    obtain ⟨hlater, hnumber, hwday⟩ := ih
    rw [Function.iterate_succ_apply']
    refine ⟨hlater.next, ?_, ?_⟩
    · rw [hlater.number_next, hnumber, Nat.add_assoc]
    · rw [next_wday, hwday]
      omega

theorem Valid.year_le (hvalid : day.Valid) (hnumber : day.number = other.number) :
    other.year ≤ day.year := by
  by_contra hless
  have hmono : yearStart (day.year + 1) ≤ yearStart other.year :=
    yearStart_mono (Nat.lt_of_not_ge hless)
  have hlt := hvalid.number_lt
  have hle : yearStart other.year ≤ other.number := by
    rw [number, Nat.add_assoc]
    exact Nat.le_add_right _ _
  omega

theorem Valid.month_le (hvalid : day.Valid) (hyear : day.year = other.year)
    (hnumber : day.number = other.number) : other.month ≤ day.month := by
  by_contra hless
  have hmono : monthStart day.year (day.month + 1) ≤ monthStart day.year other.month :=
    monthStart_mono _ (Nat.lt_of_not_ge hless)
  have hinside := hvalid.inside
  simp only [number, ← hyear] at hnumber
  omega

/-- A valid day is determined by its number and its weekday. -/
theorem Valid.eq_of_number (hday : day.Valid) (hother : other.Valid)
    (hnumber : day.number = other.number) (hwday : day.wday = other.wday) :
    day = other := by
  have hyear : day.year = other.year :=
    le_antisymm (hother.year_le hnumber.symm) (hday.year_le hnumber)
  have hmonth : day.month = other.month := le_antisymm (hother.month_le hyear.symm hnumber.symm)
      (hday.month_le hyear hnumber)
  have hmday : day.mday = other.mday := by
    have hpos := hday.mday_pos
    have hpos' := hother.mday_pos
    simp only [number, hyear, hmonth] at hnumber
    omega
  have hyday : day.yday = other.yday := by
    rw [hday.yday, hother.yday, hyear, hmonth, hmday]
  cases day
  cases other
  exact Day.mk.injEq .. ▸ ⟨hyear, hmonth, hmday, hwday, hyday⟩

end Day

end GrapheneLtp.Gregorian
