import Timetable.Proofs.Cycle
import Timetable.Proofs.Succession

/-!
# Days of the week

The lengths of months say which dates there are and which day follows which; the days of the week
come from the numbers of days.  Both describe one calendar: there is a day of the week for the dates
that exist, and it moves on by one from each day to the following, across the ends of months, of
leap years and of centuries.  Since every date is reached from the first one day by day, and that is
a Monday, all days of the week are known.

## Main definitions

* `Date.first`: the first day of the calendar.
* `Date.DaysAfter`: a date is some number of days after the first one.

## Main statements

* `Date.next?_of_previous?_eq_some`: a date follows the day before it.
* `Date.weekday_of_next?_eq_some`: the following day is the following day of the week.
* `Date.exists_daysAfter`, `Date.DaysAfter.weekday_eq`: every date is reached from the first, and
  the number of days says its day of the week.
* `Calendar.weekdays_consistent`: lengths of months and days of the week describe one calendar.
-/

namespace Timetable

namespace Date

variable {d e : Date}

/-! ## The following day -/

theorem calendarWeekday_eq (d : Date) :
    Calendar.weekday d.year d.month d.day = .ok d.weekday := by
  rw [Calendar.weekday, if_pos d.month_holds, if_pos d.day_holds]
  rfl

/-- The following day is the following day of the week; after a Saturday comes a Sunday. -/
theorem weekday_of_next?_eq_some (h : d.next? = some e) : e.weekday = d.weekday % 7 + 1 := by
  have hnumber := dayNumber_of_next?_eq_some h
  simp only [dayNumber] at hnumber
  rw [weekday, weekday, Calendar.weekdayOf, Calendar.weekdayOf, hnumber]
  omega

/-- The day of the week of the following day, where the lengths of months say which one that is. -/
theorem calendarWeekday_next {year month day : Int} (h : d.next? = of? year month day)
    (hyear : TimeUnit.years.Holds year) (hmonth : TimeUnit.months.Holds month)
    (hday : 1 ≤ day ∧ day ≤ Calendar.monthLength year month) :
    Calendar.weekday year month day = .ok (d.weekday % 7 + 1) := by
  let e : Date := ⟨year, month, day, hyear, hmonth, hday⟩
  have he : d.next? = some e := by
    rw [h]
    exact of?_eq_some_iff.2 ⟨rfl, rfl, rfl⟩
  rw [← weekday_of_next?_eq_some he]
  exact e.calendarWeekday_eq

/-! ## From the first day on -/

/-- The first day of the calendar. -/
def first : Date where
  year := 1
  month := 1
  day := 1
  year_holds := by decide
  month_holds := by decide
  day_holds := by decide

/-- A date is some number of days after the first one. -/
inductive DaysAfter : Nat → Date → Prop where
  | first : DaysAfter 0 first
  | next {k : Nat} {d e : Date} (hd : DaysAfter k d) (h : d.next? = some e) : DaysAfter (k + 1) e

/-- A date follows the day before it, whatever month or year that belongs to. -/
theorem next?_of_previous?_eq_some (h : d.previous? = some e) : e.next? = some d := by
  have hd := d.bounds
  have hday := d.day_holds
  simp only [previous?] at h
  split at h
  · obtain ⟨hyear, hmonth, hbefore⟩ := of?_eq_some_iff.1 h
    have hlt : e.day < Calendar.monthLength e.year e.month := by
      rw [hyear, hmonth]
      omega
    rw [next?, if_pos hlt, of?_eq_some_iff]
    omega
  · split at h
    · obtain ⟨hyear, hmonth, hlast⟩ := of?_eq_some_iff.1 h
      have hlt : ¬e.day < Calendar.monthLength e.year e.month := by
        rw [hyear, hmonth]
        omega
      rw [next?, if_neg hlt, if_pos (by omega), of?_eq_some_iff]
      omega
    · obtain ⟨hyear, hmonth, hlast⟩ := of?_eq_some_iff.1 h
      have hdecember : Calendar.monthLength e.year e.month = 31 := by
        rw [hmonth]
        rfl
      rw [next?, if_neg (by omega), if_neg (by omega), of?_eq_some_iff]
      omega

/-- There is a day before every date but the first. -/
theorem eq_first_of_previous?_eq_none (h : d.previous? = none) : d = first := by
  have hd := d.bounds
  have hday := d.day_holds
  have hbefore := Calendar.monthLength_pos d.year (d.month - 1)
  have hdecember : Calendar.monthLength (d.year - 1) 12 = 31 := rfl
  have hvalues : d.year = 1 ∧ d.month = 1 ∧ d.day = 1 := by
    simp only [previous?] at h
    split at h
    · rw [of?_eq_none_iff] at h
      exact absurd ⟨d.year_holds, d.month_holds, by omega, by omega⟩ h
    · split at h
      · rw [of?_eq_none_iff] at h
        refine absurd ⟨d.year_holds, ⟨?_, ?_⟩, by omega, le_rfl⟩ h
        · simp only [TimeUnit.lo]
          omega
        · simp only [TimeUnit.hi]
          omega
      · rw [of?_eq_none_iff] at h
        simp only [TimeUnit.Holds, TimeUnit.lo, TimeUnit.hi] at h
        omega
  exact Option.some.inj ((of?_eq_some_iff.2 hvalues).symm.trans rfl)

/-- Every date is reached from the first one. -/
theorem exists_daysAfter (d : Date) : ∃ k, DaysAfter k d := by
  generalize hn : d.index.toNat = n
  induction n using Nat.strong_induction_on generalizing d with
  | _ n ih =>
    cases hprevious : d.previous? with
    | none =>
      rw [eq_first_of_previous?_eq_none hprevious]
      exact ⟨0, .first⟩
    | some e =>
      have he := next?_of_previous?_eq_some hprevious
      have hlt : e.index < d.index := (index_lt_iff_of_next?_eq_some he d).2 le_rfl
      have hindex := e.index_bounds
      obtain ⟨k, hk⟩ := ih e.index.toNat (by omega) e rfl
      exact ⟨k + 1, .next hk he⟩

/-- The first day is a Monday, and the days of the week go on from there. -/
theorem DaysAfter.weekday_eq {k : Nat} (h : DaysAfter k d) : d.weekday = (k + 1) % 7 + 1 := by
  induction h with
  | first => rfl
  | next _ h ih =>
    rw [weekday_of_next?_eq_some h, ih]
    omega

end Date

namespace Calendar

variable {year month day last : Int}

theorem daysInMonth_eq_ok_iff : daysInMonth year month = .ok last ↔
    TimeUnit.months.Holds month ∧ monthLength year month = last := by
  simp only [daysInMonth]
  split <;> simp_all

/-- There is a day of the week exactly for the days that the length of the month admits. -/
theorem exists_weekday_iff : (∃ n, weekday year month day = .ok n) ↔
    ∃ last, daysInMonth year month = .ok last ∧ 1 ≤ day ∧ day ≤ last := by
  simp only [weekday, daysInMonth_eq_ok_iff]
  by_cases hmonth : TimeUnit.months.Holds month
  · by_cases hday : 1 ≤ day ∧ day ≤ monthLength year month <;> simp [hmonth, hday]
  · simp [hmonth]

/-- The lengths of months and the days of the week describe one calendar.  A day of the week is
known for the days of the months that exist, and for no others.  It lies between 1 and 7, and
whichever day follows, the next of the month, the first of the next month or New Year, is the next
day of the week.  Every date is reached in this way from the first one, which is a Monday, and the
week begins on Sunday.  After 400 years lengths and days of the week are the same again. -/
theorem weekdays_consistent :
    (∀ year month day, (∃ n, weekday year month day = .ok n) ↔
      ∃ last, daysInMonth year month = .ok last ∧ 1 ≤ day ∧ day ≤ last) ∧
    (∀ year month day last, TimeUnit.years.Holds year → daysInMonth year month = .ok last →
      1 ≤ day → day ≤ last →
        ∃ n, weekday year month day = .ok n ∧ TimeUnit.daysOfWeek.Holds n ∧
          (day < last → weekday year month (day + 1) = .ok (n % 7 + 1)) ∧
          (day = last → month < 12 → weekday year (month + 1) 1 = .ok (n % 7 + 1)) ∧
          (day = last → month = 12 → year < 9999 → weekday (year + 1) 1 1 = .ok (n % 7 + 1))) ∧
    (∀ d : Date, ∃ k : Nat, d.DaysAfter k ∧
      weekday d.year d.month d.day = .ok ((k + 1) % 7 + 1)) ∧
    TimeUnit.daysOfWeek.ordinalOfName? "sunday".toList = some 1 ∧
    TimeUnit.daysOfWeek.ordinalOfName? "monday".toList = some Date.first.weekday ∧
    ∀ year month day, daysInMonth (year + 400) month = daysInMonth year month ∧
      weekday (year + 400) month day = weekday year month day := by
  refine ⟨fun _ _ _ => exists_weekday_iff, ?_, ?_, by decide, by decide, ?_⟩
  · intro year month day last hyear hlast hfirst hday
    obtain ⟨hmonth, rfl⟩ := daysInMonth_eq_ok_iff.1 hlast
    let d : Date := ⟨year, month, day, hyear, hmonth, hfirst, hday⟩
    have hnext : d.next? = if day < monthLength year month then Date.of? year month (day + 1)
        else if month < 12 then Date.of? year (month + 1) 1 else Date.of? (year + 1) 1 1 := rfl
    refine ⟨d.weekday, d.calendarWeekday_eq, holds_weekdayOf _ _ _, ?_, ?_, ?_⟩
    · intro hlt
      rw [if_pos hlt] at hnext
      exact Date.calendarWeekday_next hnext hyear hmonth ⟨by omega, by omega⟩
    · intro heq hlt
      rw [if_neg (by omega), if_pos hlt] at hnext
      have hlength := monthLength_pos year (month + 1)
      have hlater : TimeUnit.months.Holds (month + 1) := ⟨hmonth.1.trans (by omega), hlt⟩
      exact Date.calendarWeekday_next hnext hyear hlater ⟨le_rfl, by omega⟩
    · intro heq hdecember hlt
      rw [if_neg (by omega), if_neg (by omega)] at hnext
      have hlength := monthLength_pos (year + 1) 1
      have hlater : TimeUnit.years.Holds (year + 1) := ⟨hyear.1.trans (by omega), hlt⟩
      exact Date.calendarWeekday_next hnext hlater (by decide) ⟨le_rfl, by omega⟩
  · intro d
    obtain ⟨k, hk⟩ := d.exists_daysAfter
    exact ⟨k, hk, by rw [d.calendarWeekday_eq, hk.weekday_eq]⟩
  · intro year month day
    have hlength := monthLength_add_cycles year 1
    have hweekday := weekdayOf_add_cycles year 1
    simp only [Int.mul_one] at hlength hweekday
    simp only [daysInMonth, weekday, hlength, hweekday, and_self]

end Calendar
end Timetable
