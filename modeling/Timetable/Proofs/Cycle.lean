import Timetable.Proofs.NextAfter
import Timetable.Proofs.Progression

/-!
# The cycle of the calendar

The calendar repeats after 400 years, days of the week included.  So where the selected years are
evenly spaced, what happens in one of them happens 400 selected years before too, and a search that
tries 400 years after its first, which begins within the year, loses nothing by giving up.

## Main statements

* `Calendar.monthLength_add_cycles`, `Calendar.weekdayOf_add_cycles`: lengths of months and days of
  the week after any number of cycles.
* `Fields.exists_eligible`: if there is an occurrence at all, then there is one in the years that
  are tried.
* `Fields.nextAfter_complete`: with the default limit, no answer means no occurrence.
-/

namespace Timetable

/-! ## Cycles of 400 years -/

namespace Calendar

theorem isLeap_add_cycles (year k : Int) : isLeap (year + 400 * k) = isLeap year := by
  have h4 : (year + 400 * k) % 4 = year % 4 := by omega
  have h100 : (year + 400 * k) % 100 = year % 100 := by omega
  have h400 : (year + 400 * k) % 400 = year % 400 := by omega
  rw [isLeap, isLeap, h4, h100, h400]

theorem monthLength_add_cycles (year k month : Int) :
    monthLength (year + 400 * k) month = monthLength year month := by
  rw [monthLength, monthLength, isLeap_add_cycles]

theorem daysBeforeMonth_add_cycles (year k month : Int) :
    daysBeforeMonth (year + 400 * k) month = daysBeforeMonth year month := by
  simp only [daysBeforeMonth, monthLength_add_cycles]

/-- A cycle has 146097 days. -/
theorem dayNumber_add_cycles (year k month day : Int) :
    dayNumber (year + 400 * k) month day = dayNumber year month day + 146097 * k := by
  have hyear : daysBeforeYear (year + 400 * k) = daysBeforeYear year + 146097 * k := by
    simp only [daysBeforeYear]
    omega
  rw [dayNumber, dayNumber, hyear, daysBeforeMonth_add_cycles]
  omega

/-- The days of a cycle make whole weeks. -/
theorem weekdayOf_add_cycles (year k month day : Int) :
    weekdayOf (year + 400 * k) month day = weekdayOf year month day := by
  rw [weekdayOf, weekdayOf, dayNumber_add_cycles]
  omega

end Calendar

/-- The wall clock some cycles later, or earlier, with the same month, day and time. -/
def WallClock.addCycles (w : WallClock) (k : Int)
    (h : TimeUnit.years.Holds (w.date.year + 400 * k)) : WallClock where
  date :=
    { year := w.date.year + 400 * k
      month := w.date.month
      day := w.date.day
      year_holds := h
      month_holds := w.date.month_holds
      day_holds := by
        rw [Calendar.monthLength_add_cycles]
        exact w.date.day_holds }
  time := w.time

namespace Fields

variable {F : Fields} {limit d : Int} {reference w : WallClock}

/-- Fields that are satisfied by a wall clock are satisfied some cycles later, in a selected
year. -/
theorem includes_addCycles {k : Int} (h : F.includes w = true)
    (hyear : F.years.includes (w.date.year + 400 * k) = true) :
    F.includes (w.addCycles k (Selection.holds_of_includes hyear)) = true := by
  rw [includes_iff] at h ⊢
  intro u
  cases u with
  | years => exact hyear
  | daysOfWeek =>
    have hweekday := h .daysOfWeek
    rw [WallClock.ordinal, Date.weekday] at hweekday ⊢
    simpa only [WallClock.addCycles, Calendar.weekdayOf_add_cycles] using hweekday
  | _ => exact h _

/-- Four hundred selected years before one that is not tried there is another one, and it is not the
first. -/
theorem lt_sub_cycles_of_notMem_yearsFrom {first year : Int} (hd : 0 < d)
    (hyears : Ordinals.Progression d F.years.toList) (hlimit : defaultYearLimit ≤ limit)
    (hincl : F.years.includes year = true) (hfirst : first ≤ year)
    (htried : year ∉ F.yearsFrom limit first) :
    first < year + 400 * -d ∧ F.years.includes (year + 400 * -d) = true := by
  rw [defaultYearLimit] at hlimit
  have hmem : year ∈ F.years.toList.filter (first ≤ ·) :=
    List.mem_filter.2 ⟨Selection.mem_toList.2 hincl, by simpa using hfirst⟩
  obtain ⟨hearlier, hhead⟩ := (hyears.filter_ge hd first).sub_mul_mem hd hmem htried
    (by omega : 400 < (limit + 1).toNat)
  have hsub : year + 400 * -d = year - (400 : Nat) * d := by omega
  rw [hsub]
  refine ⟨?_, Selection.mem_toList.1 (List.mem_filter.1 hearlier).1⟩
  obtain ⟨z, zs, hcons⟩ := List.exists_cons_of_ne_nil (List.ne_nil_of_mem hmem)
  have hz : z ∈ F.years.toList.filter (first ≤ ·) := by
    rw [hcons]
    exact List.mem_cons_self
  have hle : first ≤ z := by simpa using (List.mem_filter.1 hz).2
  exact Int.lt_of_le_of_lt hle (hhead z (by rw [hcons]; rfl))

/-- Where the selected years are evenly spaced, a wall clock that satisfies the fields has another
one before it, or is itself one, in the years that are tried. -/
theorem exists_eligible (hd : 0 < d) (hyears : Ordinals.Progression d F.years.toList)
    (hlimit : defaultYearLimit ≤ limit) (hle : reference ≤ w) (hincl : F.includes w = true) :
    ∃ v, F.Eligible limit reference v := by
  generalize hn : w.date.year.toNat = n
  induction n using Nat.strong_induction_on generalizing w with
  | _ n ih =>
    have hyear : F.years.includes w.date.year = true := includes_iff.1 hincl .years
    by_cases htried : w.date.year ∈ F.yearsFrom limit reference.date.year
    · exact ⟨w, hle, hincl, htried⟩
    · -- the same wall clock 400 selected years earlier is not before the reference
      obtain ⟨hlt, hearlier⟩ := lt_sub_cycles_of_notMem_yearsFrom hd hyears hlimit hyear
        (WallClock.year_le_of_le hle) htried
      have hholds := Selection.holds_of_includes hearlier
      refine ih _ ?_ ?_ (includes_addCycles hincl hearlier) rfl
      · have hlo : 1 ≤ w.date.year + 400 * -d := hholds.1
        simp only [WallClock.addCycles]
        omega
      · by_contra hbefore
        have hyear_le := WallClock.year_le_of_le (not_le.1 hbefore).le
        simp only [WallClock.addCycles] at hyear_le
        omega

/-- The default limit loses nothing: where the years are unrestricted or come from a single term,
the search finds nothing exactly when no later whole second satisfies the fields. -/
theorem nextAfter_complete (F : Fields) (a : Instant) (limit : Int)
    (hyears : F.years.SingleTerm) (hlimit : defaultYearLimit ≤ limit) :
    F.nextAfter a limit = .ok none ↔
      ∀ r : Instant, r.microsecond = 0 → a.Precedes r → F.includes r.clock = false := by
  obtain ⟨d, hd, hprogression⟩ := hyears.exists_progression
  constructor
  · intro hnone r hwhole hprecedes
    by_contra hincl
    rw [Bool.not_eq_false] at hincl
    have hlt := hprecedes.clock_lt hwhole
    cases hnext : a.nextWholeSecond? with
    | none => exact Instant.not_clock_lt_of_nextWholeSecond?_eq_none hnext hlt
    | some j =>
      have hle := (Instant.clock_lt_iff_of_nextWholeSecond? hnext).1 hlt
      obtain ⟨v, hv⟩ := exists_eligible hd hprogression hlimit hle hincl
      exact ((nextAfter_eq_none_iff hnext).1 hnone).1 v hv
  · intro hnone
    have hnonneg : 0 ≤ limit := Int.le_trans (by decide) hlimit
    obtain ⟨answer, hanswer⟩ :=
      exists_nextAfter_eq_ok_iff.2 (F.not_untoldAfter_of_nonneg a hnonneg)
    cases answer with
    | none => exact hanswer
    | some r =>
      obtain ⟨hprecedes, hwhole, -⟩ := precedes_of_nextAfter hanswer
      obtain ⟨first, w, -, hw, rfl⟩ := isLeast_of_nextAfter hanswer
      exact absurd ((hnone _ hwhole hprecedes).symm.trans hw.1.satisfies) Bool.false_ne_true

/-- Leap days in every fourth year around a century that has none: from the one in 2096 on there is
a later one, and the search finds that in 2104. -/
theorem nextAfter_complete_leap_days :
    ∃ (F : Fields) (a r : Instant), parse "0 0 0 29 2 * 2096-2112/4".toList = .ok F ∧
      F.years.SingleTerm ∧ defaultYearLimit ≤ 400 ∧
      (F.nextAfter a 400 = .ok none ↔
        ∀ r : Instant, r.microsecond = 0 → a.Precedes r → F.includes r.clock = false) ∧
      a.clock.toList = [2096, 2, 29, 0, 0, 0] ∧ F.nextAfter a 400 = .ok (some r) ∧
      r.clock.toList = [2104, 2, 29, 0, 0, 0] := by
  let a : Instant :=
    .ofClock ⟨⟨2096, 2, 29, by decide, by decide, by decide⟩, .midnight⟩ none
  let r : Instant :=
    .ofClock ⟨⟨2104, 2, 29, by decide, by decide, by decide⟩, .midnight⟩ none
  have hsearch : ∃ F, parse "0 0 0 29 2 * 2096-2112/4".toList = .ok F ∧ F.years.SingleTerm ∧
      F.nextAfter a 400 = .ok (some r) :=
    ⟨_, rfl, .inr ⟨.period (.range 2096 2112) 4, (by decide : (0 : Int) < 4), rfl⟩, by decide⟩
  obtain ⟨F, hparse, hyears, hnext⟩ := hsearch
  exact ⟨F, a, r, hparse, hyears, by decide, nextAfter_complete F a 400 hyears (by decide), rfl,
    hnext, rfl⟩

end Fields
end Timetable
