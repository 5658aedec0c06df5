import Timetable.Proofs.Order

/-!
# The following second

The second after a wall clock may carry into the minute, the hour, the day, the month or the year,
and each carry depends on the length of what has ended.  Counted in days from the first day of the
calendar it is always one second more, and in the order of the values nothing lies between.  So the
whole second that follows an instant is the earliest later one, whatever the fraction of a second
that is left out.

## Main definitions

* `WallClock.elapsed`: the seconds from the beginning of the calendar to a wall clock.
* `Instant.universal?`: the microseconds of universal time to an instant with a zone.

## Main statements

* `Date.dayNumber_of_next?_eq_some`: the following day has the following number.
* `WallClock.elapsed_of_next?_eq_some`: the following second comes after one second.
* `Instant.nextWholeSecond_successor`: the following whole second in the order of instants.
-/

namespace Timetable

/-! ## Days -/

namespace Ordinals

theorem interval_eq_append_singleton {a b : Int} (h : a ≤ b) :
    interval a b = interval a (b - 1) ++ [b] := by
  have hlength : (b + 1 - a).toNat = (b - 1 + 1 - a).toNat + 1 := by omega
  rw [interval, interval, hlength, List.range_succ, List.map_append, List.map_singleton]
  congr 2
  omega

end Ordinals

namespace Calendar

/-- A year has 365 days, and one more if it is a leap year. -/
def yearLength (year : Int) : Int :=
  if isLeap year then 366 else 365

theorem daysBeforeYear_succ (year : Int) :
    daysBeforeYear (year + 1) = daysBeforeYear year + yearLength year := by
  simp only [daysBeforeYear, yearLength, isLeap, Bool.and_eq_true, Bool.or_eq_true, beq_iff_eq,
    bne_iff_ne]
  split <;> omega

theorem daysBeforeMonth_succ {month : Int} (year : Int) (h : 1 ≤ month) :
    daysBeforeMonth year (month + 1) = daysBeforeMonth year month + monthLength year month := by
  have hsum : ∀ m, daysBeforeMonth year m =
      ((Ordinals.interval 1 (m - 1)).map (monthLength year)).sum := by
    intro m
    rw [daysBeforeMonth, List.sum_eq_foldr, List.foldr_map]
  have hmonths : Ordinals.interval 1 (month + 1 - 1) =
      Ordinals.interval 1 (month - 1) ++ [month] := by
    rw [Int.add_sub_cancel, Ordinals.interval_eq_append_singleton h]
  rw [hsum, hsum, hmonths, List.map_append, List.sum_append]
  simp

/-- The twelve months make up the year. -/
theorem daysBeforeMonth_thirteen (year : Int) : daysBeforeMonth year 13 = yearLength year := by
  have hmonths : Ordinals.interval 1 (13 - 1) = [1, 2, 3, 4, 5, 6, 7, 8, 9, 10, 11, 12] := by
    decide
  rw [daysBeforeMonth, hmonths, yearLength]
  cases h : isLeap year <;> simp [monthLength, h]

end Calendar

namespace Date

variable {d e : Date}

/-- The number of a date, counted from the first day of year 1. -/
def dayNumber (d : Date) : Int :=
  Calendar.dayNumber d.year d.month d.day

/-- The following day has the following number, whatever it carries into. -/
theorem dayNumber_of_next?_eq_some (h : d.next? = some e) : e.dayNumber = d.dayNumber + 1 := by
  have hd := d.bounds
  have hday := d.day_holds
  have hmonth := Calendar.daysBeforeMonth_succ d.year hd.2.1.1
  simp only [next?] at h
  simp only [dayNumber, Calendar.dayNumber]
  split at h
  · obtain ⟨hyear, hsame, hnext⟩ := of?_eq_some_iff.1 h
    rw [hyear, hsame, hnext]
    omega
  · rename_i hlast
    split at h
    · obtain ⟨hyear, hnext, hfirst⟩ := of?_eq_some_iff.1 h
      rw [hyear, hnext, hfirst, hmonth]
      omega
    · obtain ⟨hnext, hjanuary, hfirst⟩ := of?_eq_some_iff.1 h
      have hdecember : d.month + 1 = 13 := by omega
      have hnone : Calendar.daysBeforeMonth (d.year + 1) 1 = 0 := rfl
      rw [hdecember, Calendar.daysBeforeMonth_thirteen] at hmonth
      rw [hnext, hjanuary, hfirst, Calendar.daysBeforeYear_succ, hnone, hmonth]
      omega

end Date

/-! ## Seconds -/

namespace WallClock

variable {v w x : WallClock}

/-- The number of seconds from the midnight before the first day of year 1. -/
def elapsed (w : WallClock) : Int :=
  86400 * w.date.dayNumber + w.time.secondOfDay

/-- The following second comes after one second, whatever it carries into. -/
theorem elapsed_of_next?_eq_some (h : v.next? = some w) : w.elapsed = v.elapsed + 1 := by
  simp only [next?] at h
  split at h
  · rename_i time htime
    have hsecond := TimeOfDay.next?_eq_some_iff.1 htime
    obtain rfl := Option.some.inj h
    simp only [elapsed]
    omega
  · rename_i htime
    have hsecond := TimeOfDay.next?_eq_none_iff.1 htime
    obtain ⟨date, hdate, rfl⟩ := Option.map_eq_some_iff.1 h
    have hday := Date.dayNumber_of_next?_eq_some hdate
    simp only [elapsed, TimeOfDay.secondOfDay_midnight]
    omega

/-- The year 1900 has no leap day. -/
example : (ofList? [1900, 2, 28, 23, 59, 59]).bind next? = ofList? [1900, 3, 1, 0, 0, 0] := by
  decide

theorem next?_eq_none_iff_toList : w.next? = none ↔ w.toList = [9999, 12, 31, 23, 59, 59] := by
  have ht := w.time.bounds
  rw [next?_eq_none_iff, TimeOfDay.secondOfDay]
  simp only [toList, List.cons.injEq, and_true]
  omega

end WallClock

/-! ## Whole seconds -/

namespace Instant

variable {i j k : Instant}

theorem nextWholeSecond?_eq_none_iff :
    i.nextWholeSecond? = none ↔ i.clock.toList = [9999, 12, 31, 23, 59, 59] := by
  rw [nextWholeSecond?, Option.map_eq_none_iff, WallClock.next?_eq_none_iff_toList]

/-- The whole seconds after an instant are the following one and those after it. -/
theorem precedes_iff_of_nextWholeSecond? (h : i.nextWholeSecond? = some j)
    (hk : k.microsecond = 0) : i.Precedes k ↔ j.NotAfter k := by
  obtain ⟨w, hw, rfl⟩ := Option.map_eq_some_iff.1 h
  obtain ⟨clock, microsecond, zone, _⟩ := k
  obtain rfl : microsecond = 0 := hk
  have hlater : i.Precedes (ofClock clock zone) ↔ i.zone = zone ∧ (w = clock ∨ w < clock) := by
    rw [precedes_ofClock_iff, WallClock.lt_iff_of_next?_eq_some hw, le_iff_eq_or_lt]
  have hnext : (ofClock w i.zone).NotAfter (ofClock clock zone) ↔
      i.zone = zone ∧ (w = clock ∨ w < clock) := by
    rw [NotAfter, precedes_ofClock_iff, zone_ofClock, clock_ofClock]
    simp only [ofClock, Instant.mk.injEq, true_and]
    tauto
  exact hlater.trans hnext.symm

theorem not_precedes_of_notAfter (h : i.NotAfter j) : ¬j.Precedes i := by
  intro hprecedes
  rcases h with rfl | h
  · exact absurd (hprecedes.2.resolve_left (lt_irrefl _)).2 (lt_irrefl _)
  · exact absurd (h.trans hprecedes).2 (by simp)

theorem microsecond_of_nextWholeSecond? (h : i.nextWholeSecond? = some j) :
    j.microsecond = 0 := by
  obtain ⟨w, -, rfl⟩ := Option.map_eq_some_iff.1 h
  rfl

theorem precedes_of_nextWholeSecond? (h : i.nextWholeSecond? = some j) : i.Precedes j :=
  (precedes_iff_of_nextWholeSecond? h (microsecond_of_nextWholeSecond? h)).2 (.inl rfl)

/-- The following whole second is the only later one with no whole second before it. -/
theorem nextWholeSecond?_eq_some_iff : i.nextWholeSecond? = some j ↔
    j.microsecond = 0 ∧ i.Precedes j ∧
      ∀ k : Instant, k.microsecond = 0 → ¬(i.Precedes k ∧ k.Precedes j) := by
  constructor
  · intro h
    refine ⟨microsecond_of_nextWholeSecond? h, precedes_of_nextWholeSecond? h, ?_⟩
    rintro k hk ⟨hik, hkj⟩
    exact not_precedes_of_notAfter ((precedes_iff_of_nextWholeSecond? h hk).1 hik) hkj
  · rintro ⟨hwhole, hlater, hgap⟩
    cases h : i.nextWholeSecond? with
    | none => exact absurd (hlater.clock_lt hwhole) (not_clock_lt_of_nextWholeSecond?_eq_none h)
    | some n =>
      rcases (precedes_iff_of_nextWholeSecond? h hwhole).1 hlater with rfl | hnj
      · rfl
      · have hbetween : i.Precedes n ∧ n.Precedes j := ⟨precedes_of_nextWholeSecond? h, hnj⟩
        exact absurd hbetween (hgap n (microsecond_of_nextWholeSecond? h))

/-- The microseconds of universal time since the beginning of the calendar, where the zone of an
instant is known. -/
def universal? (i : Instant) : Option Int :=
  i.zone.map fun offset => 1000000 * (i.clock.elapsed - offset) + i.microsecond

theorem elapsed_of_nextWholeSecond? (h : i.nextWholeSecond? = some j) :
    j.clock.elapsed = i.clock.elapsed + 1 := by
  obtain ⟨w, hw, rfl⟩ := Option.map_eq_some_iff.1 h
  exact WallClock.elapsed_of_next?_eq_some hw

/-- In universal time too no whole second of any zone comes before the following one. -/
theorem not_between_of_nextWholeSecond? {a b c : Int} (h : i.nextWholeSecond? = some j)
    (hk : k.microsecond = 0) (hi : i.universal? = some a) (hj : j.universal? = some b)
    (hkc : k.universal? = some c) : ¬(a < c ∧ c < b) := by
  have hzone : j.zone = i.zone := (precedes_of_nextWholeSecond? h).1.symm
  obtain ⟨offset, hoffset, rfl⟩ := Option.map_eq_some_iff.1 hi
  obtain ⟨offset', hoffset', rfl⟩ := Option.map_eq_some_iff.1 hj
  obtain ⟨other, -, rfl⟩ := Option.map_eq_some_iff.1 hkc
  obtain rfl : offset' = offset := by
    rw [hzone, hoffset] at hoffset'
    exact (Option.some.inj hoffset').symm
  have hfraction := i.microsecond_holds
  rw [hk, microsecond_of_nextWholeSecond? h, elapsed_of_nextWholeSecond? h]
  omega

/-- The following whole second is missing exactly when the wall clock shows the last second of year
9999, whatever the fraction.  Otherwise it is the one whole second of the same zone that is later
than the instant and has no whole second between the two, not even one of another zone; and its wall
clock is one second on from that of the instant, counted in days from the beginning of the
calendar. -/
theorem nextWholeSecond_successor (i : Instant) :
    (i.nextWholeSecond? = none ↔ i.clock.toList = [9999, 12, 31, 23, 59, 59]) ∧
      (∀ j, i.nextWholeSecond? = some j ↔
        j.microsecond = 0 ∧ j.zone = i.zone ∧ i.Precedes j ∧
          ∀ k : Instant, k.microsecond = 0 → ¬(i.Precedes k ∧ k.Precedes j)) ∧
      (∀ j k : Instant, ∀ a b c, i.nextWholeSecond? = some j → k.microsecond = 0 →
        i.universal? = some a → j.universal? = some b → k.universal? = some c →
          ¬(a < c ∧ c < b)) ∧
      ∀ j, i.nextWholeSecond? = some j → j.clock.elapsed = i.clock.elapsed + 1 := by
  refine ⟨nextWholeSecond?_eq_none_iff, ?_, ?_, fun j h => elapsed_of_nextWholeSecond? h⟩
  · intro j
    rw [nextWholeSecond?_eq_some_iff]
    constructor
    · rintro ⟨hwhole, hlater, hgap⟩
      exact ⟨hwhole, hlater.1.symm, hlater, hgap⟩
    · rintro ⟨hwhole, -, hlater, hgap⟩
      exact ⟨hwhole, hlater, hgap⟩
  · intro j k a b c h hk hi hj hkc
    exact not_between_of_nextWholeSecond? h hk hi hj hkc

end Instant
end Timetable
