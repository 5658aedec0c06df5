import Timetable.Calendar

/-!
# Wall clocks

A wall clock shows a date and a time of day to the second.  Dates run from the first day of year 1
to the last day of year 9999; each form has its successor, which is missing at the end.

## Main definitions

* `Date.next?`, `TimeOfDay.next?`, `WallClock.next?`: the following day or second.
* `WallClock.toList`: the six values from year to second, by which wall clocks are ordered.
* `WallClock.shift?`: the clock of another time zone.
-/

namespace Timetable

/-- A date of the calendar between the years 1 and 9999. -/
structure Date where
  year : Int
  month : Int
  day : Int
  year_holds : TimeUnit.years.Holds year
  month_holds : TimeUnit.months.Holds month
  day_holds : 1 ≤ day ∧ day ≤ Calendar.monthLength year month
  deriving DecidableEq

namespace Date

/-- The date with the given values, if there is one. -/
def of? (year month day : Int) : Option Date :=
  if h : TimeUnit.years.Holds year ∧ TimeUnit.months.Holds month ∧
      1 ≤ day ∧ day ≤ Calendar.monthLength year month then
    some ⟨year, month, day, h.1, h.2.1, h.2.2⟩
  else none

/-- The day after a date: the next of the month, the first of the next month, or New Year. -/
def next? (d : Date) : Option Date :=
  if d.day < Calendar.monthLength d.year d.month then of? d.year d.month (d.day + 1)
  else if d.month < 12 then of? d.year (d.month + 1) 1
  else of? (d.year + 1) 1 1

/-- The day before a date. -/
def previous? (d : Date) : Option Date :=
  if 1 < d.day then of? d.year d.month (d.day - 1)
  else if 1 < d.month then of? d.year (d.month - 1) (Calendar.monthLength d.year (d.month - 1))
  else of? (d.year - 1) 12 31

/-- The day of the week of a date. -/
def weekday (d : Date) : Int :=
  Calendar.weekdayOf d.year d.month d.day

theorem of?_eq_some_iff {year month day : Int} {d : Date} :
    of? year month day = some d ↔ d.year = year ∧ d.month = month ∧ d.day = day := by
  obtain ⟨y, m, n, hy, hm, hn⟩ := d
  simp only [of?]
  split
  · simp [Date.mk.injEq, eq_comm]
  · rename_i h
    simp only [reduceCtorEq, false_iff]
    rintro ⟨rfl, rfl, rfl⟩
    exact h ⟨hy, hm, hn⟩

end Date

/-- A time of day to the second. -/
structure TimeOfDay where
  hour : Int
  minute : Int
  second : Int
  hour_holds : TimeUnit.hours.Holds hour
  minute_holds : TimeUnit.minutes.Holds minute
  second_holds : TimeUnit.seconds.Holds second
  deriving DecidableEq

namespace TimeOfDay

/-- The time of day with the given values, if there is one. -/
def of? (hour minute second : Int) : Option TimeOfDay :=
  if h : TimeUnit.hours.Holds hour ∧ TimeUnit.minutes.Holds minute ∧
      TimeUnit.seconds.Holds second then
    some ⟨hour, minute, second, h.1, h.2.1, h.2.2⟩
  else none

/-- The first second of a day. -/
def midnight : TimeOfDay where
  hour := 0
  minute := 0
  second := 0
  hour_holds := by decide
  minute_holds := by decide
  second_holds := by decide

/-- The following second of the same day. -/
def next? (t : TimeOfDay) : Option TimeOfDay :=
  if t.second < 59 then of? t.hour t.minute (t.second + 1)
  else if t.minute < 59 then of? t.hour (t.minute + 1) 0
  else of? (t.hour + 1) 0 0

/-- The number of seconds since midnight. -/
def secondOfDay (t : TimeOfDay) : Int :=
  3600 * t.hour + 60 * t.minute + t.second

theorem holds_hourOfSeconds (n : Int) : TimeUnit.hours.Holds (n % 86400 / 3600) := by
  simp only [TimeUnit.Holds, TimeUnit.lo, TimeUnit.hi]
  omega

theorem holds_minuteOfSeconds (n : Int) : TimeUnit.minutes.Holds (n % 3600 / 60) := by
  simp only [TimeUnit.Holds, TimeUnit.lo, TimeUnit.hi]
  omega

theorem holds_secondOfSeconds (n : Int) : TimeUnit.seconds.Holds (n % 60) := by
  simp only [TimeUnit.Holds, TimeUnit.lo, TimeUnit.hi]
  omega

/-- The time of day a number of seconds after midnight, whole days apart. -/
def ofSeconds (n : Int) : TimeOfDay where
  hour := n % 86400 / 3600
  minute := n % 3600 / 60
  second := n % 60
  hour_holds := holds_hourOfSeconds n
  minute_holds := holds_minuteOfSeconds n
  second_holds := holds_secondOfSeconds n

theorem of?_eq_some_iff {hour minute second : Int} {t : TimeOfDay} :
    of? hour minute second = some t ↔ t.hour = hour ∧ t.minute = minute ∧ t.second = second := by
  obtain ⟨h, m, s, hh, hm, hs⟩ := t
  simp only [of?]
  split
  · simp [TimeOfDay.mk.injEq, eq_comm]
  · rename_i hn
    simp only [reduceCtorEq, false_iff]
    rintro ⟨rfl, rfl, rfl⟩
    exact hn ⟨hh, hm, hs⟩

end TimeOfDay

/-- A date and a time of day to the second. -/
structure WallClock where
  date : Date
  time : TimeOfDay
  deriving DecidableEq

namespace WallClock

/-- The six values of a wall clock, the most significant first. -/
def toList (w : WallClock) : List Int :=
  [w.date.year, w.date.month, w.date.day, w.time.hour, w.time.minute, w.time.second]

/-- The wall clock with the given six values, if there is one. -/
def ofList? : List Int → Option WallClock
  | [year, month, day, hour, minute, second] => do
    let date ← Date.of? year month day
    let time ← TimeOfDay.of? hour minute second
    some ⟨date, time⟩
  | _ => none

/-- Wall clocks are ordered by their most significant value that differs. -/
instance : LT WallClock := ⟨fun v w => v.toList < w.toList⟩

instance : LE WallClock := ⟨fun v w => ¬w < v⟩

/-- The following second. -/
def next? (w : WallClock) : Option WallClock :=
  match w.time.next? with
  | some time => some ⟨w.date, time⟩
  | none => w.date.next?.map fun date => ⟨date, .midnight⟩

/-- The wall clock where it is later by less than a day, or earlier for a negative number of
seconds. -/
def shift? (w : WallClock) (seconds : Int) : Option WallClock :=
  let n := w.time.secondOfDay + seconds
  let date :=
    if n < 0 then w.date.previous? else if 86400 ≤ n then w.date.next? else some w.date
  date.map fun date => ⟨date, .ofSeconds n⟩

theorem ofList?_toList (w : WallClock) : ofList? w.toList = some w := by
  have hd : Date.of? w.date.year w.date.month w.date.day = some w.date :=
    Date.of?_eq_some_iff.2 ⟨rfl, rfl, rfl⟩
  have ht : TimeOfDay.of? w.time.hour w.time.minute w.time.second = some w.time :=
    TimeOfDay.of?_eq_some_iff.2 ⟨rfl, rfl, rfl⟩
  simp [ofList?, toList, hd, ht]

/-- Six values determine a wall clock. -/
theorem toList_inj {v w : WallClock} : v.toList = w.toList ↔ v = w := by
  constructor
  · intro h
    have := ofList?_toList v
    rw [h, ofList?_toList] at this
    exact (Option.some.inj this).symm
  · rintro rfl
    rfl

end WallClock
end Timetable
