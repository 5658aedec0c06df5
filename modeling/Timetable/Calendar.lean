import Timetable.TimeUnit

/-!
# The calendar

The proleptic Gregorian calendar: every fourth year has a leap day, except the centuries that are
not multiples of 400.  Days are numbered so that the first day of year 1, a Monday, has number 1;
the day of the week follows from the number.

## Main definitions

* `Calendar.monthLength`, `Calendar.dayNumber`, `Calendar.weekdayOf`: on all integers.
* `Calendar.daysInMonth`, `Calendar.weekday`: the same with a check of the month and the day.
-/

namespace Timetable

/-- Why a question to the calendar has no answer. -/
inductive CalendarError where
  /-- There is no such month to measure. -/
  | noSuchMonth (month : Int)
  /-- The month of a date does not exist. -/
  | monthOfDate
  /-- The day of a date does not exist in its month. -/
  | dayOfDate
  /-- The values are not those of a wall clock. -/
  | noSuchClock
  deriving DecidableEq, Repr

/-- The wording of a calendar error. -/
def CalendarError.message : CalendarError → String
  | noSuchMonth month => s!"bad month number {month}; must be 1-12"
  | monthOfDate => "month must be in 1..12"
  | dayOfDate => "day is out of range for month"
  | noSuchClock => "not the values of a wall clock"

namespace Calendar

/-! ## Lengths -/

/-- Whether a year has a leap day. -/
def isLeap (year : Int) : Bool :=
  year % 4 == 0 && (year % 100 != 0 || year % 400 == 0)

/-- The number of days of a month of a year. -/
def monthLength (year month : Int) : Int :=
  if month = 2 then if isLeap year then 29 else 28
  else if month = 4 ∨ month = 6 ∨ month = 9 ∨ month = 11 then 30
  else 31

theorem monthLength_pos (year month : Int) : 28 ≤ monthLength year month := by
  simp only [monthLength]
  split <;> split <;> omega

theorem monthLength_le (year month : Int) : monthLength year month ≤ 31 := by
  simp only [monthLength]
  split <;> split <;> omega

/-- The number of days of a month that exists. -/
def daysInMonth (year month : Int) : Except CalendarError Int :=
  if TimeUnit.months.Holds month then .ok (monthLength year month)
  else .error (.noSuchMonth month)

/-! ## Day numbers and days of the week -/

/-- The number of days before a year. -/
def daysBeforeYear (year : Int) : Int :=
  365 * (year - 1) + (year - 1) / 4 - (year - 1) / 100 + (year - 1) / 400

/-- The number of days of a year before a month. -/
def daysBeforeMonth (year month : Int) : Int :=
  (Ordinals.interval 1 (month - 1)).foldr (fun m days => monthLength year m + days) 0

/-- The number of a day, counted from the first day of year 1. -/
def dayNumber (year month day : Int) : Int :=
  daysBeforeYear year + daysBeforeMonth year month + day

/-- The day of the week of a date, from 1 for Sunday to 7 for Saturday. -/
def weekdayOf (year month day : Int) : Int :=
  dayNumber year month day % 7 + 1

/-- A day of the week lies in its domain. -/
theorem holds_weekdayOf (year month day : Int) :
    TimeUnit.daysOfWeek.Holds (weekdayOf year month day) := by
  simp only [TimeUnit.Holds, TimeUnit.lo, TimeUnit.hi, weekdayOf]
  omega

/-- The day of the week of a date that exists. -/
def weekday (year month day : Int) : Except CalendarError Int :=
  if TimeUnit.months.Holds month then
    if 1 ≤ day ∧ day ≤ monthLength year month then .ok (weekdayOf year month day)
    else .error .dayOfDate
  else .error .monthOfDate

end Calendar
end Timetable
