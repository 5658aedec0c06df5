import Timetable.Instant
import Mathlib.Data.List.Lex
import Mathlib.Order.Bounds.Basic

/-!
# The order of wall clocks and instants

Wall clocks are linearly ordered by their values, the most significant first.  The order is also
that of one number, so that steps of it are arithmetic, and the following second of a wall clock
is the least later one.  Instants of one zone are ordered by their wall clocks and then by their
fractions of a second.

## Main definitions

* `WallClock.index`, `WallClock.lastIndex`: a number that is larger for later wall clocks, and the
  largest of them.
* `Instant.Precedes`, `Instant.NotAfter`: an instant is earlier than another one of the same zone,
  or not later.

## Main statements

* `WallClock.lt_iff_of_next?_eq_some`: no wall clock lies between a second and the following one.
* `WallClock.next?_eq_none_iff`: the following second is missing at the end of year 9999 only.
-/

namespace Timetable

/-! ## Dates -/

namespace Date

theorem of?_eq_none_iff {year month day : Int} :
    of? year month day = none ↔ ¬(TimeUnit.years.Holds year ∧ TimeUnit.months.Holds month ∧
      1 ≤ day ∧ day ≤ Calendar.monthLength year month) := by
  simp only [of?]
  split <;> simp_all

/-- The numbers of a date in their domains. -/
theorem bounds (d : Date) : (1 ≤ d.year ∧ d.year ≤ 9999) ∧ (1 ≤ d.month ∧ d.month ≤ 12) ∧
    1 ≤ d.day ∧ d.day ≤ 31 :=
  ⟨d.year_holds, d.month_holds, d.day_holds.1,
    d.day_holds.2.trans (Calendar.monthLength_le d.year d.month)⟩

/-- A number that is larger for later dates. -/
def index (d : Date) : Int :=
  372 * d.year + 31 * d.month + d.day

theorem index_bounds (d : Date) : 404 ≤ d.index ∧ d.index ≤ 3720031 := by
  have hd := d.bounds
  rw [index]
  omega

/-- The day after a date is missing for the last day of year 9999 only. -/
theorem next?_eq_none_iff {d : Date} :
    d.next? = none ↔ d.year = 9999 ∧ d.month = 12 ∧ d.day = 31 := by
  have hd := d.bounds
  have hday := d.day_holds
  have hlen := Calendar.monthLength_pos d.year (d.month + 1)
  have hdec : d.month = 12 → Calendar.monthLength d.year d.month = 31 := by
    intro h
    simp [Calendar.monthLength, h]
  have hjan : Calendar.monthLength (d.year + 1) 1 = 31 := by simp [Calendar.monthLength]
  simp only [next?]
  split
  · rw [of?_eq_none_iff]
    simp only [TimeUnit.Holds, TimeUnit.lo, TimeUnit.hi]
    omega
  · split
    · rw [of?_eq_none_iff]
      simp only [TimeUnit.Holds, TimeUnit.lo, TimeUnit.hi]
      omega
    · rw [of?_eq_none_iff]
      simp only [TimeUnit.Holds, TimeUnit.lo, TimeUnit.hi]
      omega

/-- No date lies between a day and the following one. -/
theorem index_lt_iff_of_next?_eq_some {d e : Date} (h : d.next? = some e) (x : Date) :
    d.index < x.index ↔ e.index ≤ x.index := by
  have hx := x.bounds
  have hd := d.bounds
  have hday := d.day_holds
  -- a date of the same month is bounded by the length of that month
  have hlast : d.year = x.year → d.month = x.month →
      x.day ≤ Calendar.monthLength d.year d.month := by
    intro hy hm
    rw [hy, hm]
    exact x.day_holds.2
  simp only [next?] at h
  simp only [index]
  split at h
  · rw [of?_eq_some_iff] at h
    omega
  · split at h
    · rw [of?_eq_some_iff] at h
      omega
    · rw [of?_eq_some_iff] at h
      omega

end Date

/-! ## Times of day -/

namespace TimeOfDay

theorem of?_eq_none_iff {hour minute second : Int} :
    of? hour minute second = none ↔ ¬(TimeUnit.hours.Holds hour ∧ TimeUnit.minutes.Holds minute ∧
      TimeUnit.seconds.Holds second) := by
  simp only [of?]
  split <;> simp_all

/-- The numbers of a time of day in their domains. -/
theorem bounds (t : TimeOfDay) : (0 ≤ t.hour ∧ t.hour ≤ 23) ∧ (0 ≤ t.minute ∧ t.minute ≤ 59) ∧
    0 ≤ t.second ∧ t.second ≤ 59 :=
  ⟨t.hour_holds, t.minute_holds, t.second_holds⟩

theorem secondOfDay_bounds (t : TimeOfDay) : 0 ≤ t.secondOfDay ∧ t.secondOfDay ≤ 86399 := by
  have ht := t.bounds
  rw [secondOfDay]
  omega

@[simp] theorem secondOfDay_midnight : midnight.secondOfDay = 0 := rfl

theorem next?_eq_some_iff {t u : TimeOfDay} :
    t.next? = some u ↔ u.secondOfDay = t.secondOfDay + 1 := by
  have ht := t.bounds
  have hu := u.bounds
  simp only [next?, secondOfDay]
  split
  · rw [of?_eq_some_iff]
    omega
  · split
    · rw [of?_eq_some_iff]
      omega
    · rw [of?_eq_some_iff]
      omega

theorem next?_eq_none_iff {t : TimeOfDay} : t.next? = none ↔ t.secondOfDay = 86399 := by
  have ht := t.bounds
  simp only [next?, secondOfDay]
  split
  · rw [of?_eq_none_iff]
    simp only [TimeUnit.Holds, TimeUnit.lo, TimeUnit.hi]
    omega
  · split
    · rw [of?_eq_none_iff]
      simp only [TimeUnit.Holds, TimeUnit.lo, TimeUnit.hi]
      omega
    · rw [of?_eq_none_iff]
      simp only [TimeUnit.Holds, TimeUnit.lo, TimeUnit.hi]
      omega

end TimeOfDay

/-! ## Wall clocks -/

namespace WallClock

variable {v w x : WallClock}

theorem lt_iff_toList_lt : v < w ↔ v.toList < w.toList := Iff.rfl

theorem le_iff_toList_le : v ≤ w ↔ v.toList ≤ w.toList := by
  change ¬w.toList < v.toList ↔ _
  exact not_lt

instance : LinearOrder WallClock where
  le_refl v := lt_irrefl v.toList
  le_trans u v w huv hvw := by
    rw [le_iff_toList_le] at *
    exact le_trans huv hvw
  le_antisymm u v huv hvu := by
    rw [le_iff_toList_le] at huv hvu
    exact toList_inj.1 (le_antisymm huv hvu)
  le_total u v := by
    rw [le_iff_toList_le, le_iff_toList_le]
    exact le_total u.toList v.toList
  lt_iff_le_not_ge u v := by
    rw [le_iff_toList_le, le_iff_toList_le, lt_iff_toList_lt]
    exact lt_iff_le_not_ge
  toDecidableLE u v := inferInstanceAs (Decidable (¬v.toList < u.toList))

/-- A number that is larger for later wall clocks. -/
def index (w : WallClock) : Int :=
  86400 * w.date.index + w.time.secondOfDay

theorem lt_iff_index_lt : v < w ↔ v.index < w.index := by
  have hv := v.date.bounds
  have hv' := v.time.bounds
  have hw := w.date.bounds
  have hw' := w.time.bounds
  simp only [lt_iff_toList_lt, toList, List.cons_lt_cons_iff, List.not_lt_nil, and_false,
    or_false, index, Date.index, TimeOfDay.secondOfDay]
  omega

theorem le_iff_index_le : v ≤ w ↔ v.index ≤ w.index := by
  rw [← not_lt, lt_iff_index_lt]
  omega

/-- The index of the last second of year 9999. -/
def lastIndex : Int :=
  321410764799

theorem index_le (w : WallClock) : w.index ≤ lastIndex := by
  have hd := w.date.index_bounds
  have ht := w.time.secondOfDay_bounds
  simp only [index, lastIndex]
  omega

/-- The later of two wall clocks is not of an earlier year. -/
theorem year_le_of_le (h : v ≤ w) : v.date.year ≤ w.date.year := by
  by_contra hlt
  have hwv : w < v := List.cons_lt_cons_iff.2 (.inl (not_le.1 hlt))
  exact not_lt.2 h hwv

/-- The following second is missing for the last second of year 9999 only. -/
theorem next?_eq_none_iff :
    w.next? = none ↔
      w.date.year = 9999 ∧ w.date.month = 12 ∧ w.date.day = 31 ∧ w.time.secondOfDay = 86399 := by
  cases h : w.time.next? with
  | some t =>
    have ht := TimeOfDay.next?_eq_some_iff.1 h
    have := t.secondOfDay_bounds
    simp only [next?, h, reduceCtorEq, false_iff]
    omega
  | none =>
    have ht := TimeOfDay.next?_eq_none_iff.1 h
    simp only [next?, h, Option.map_eq_none_iff, Date.next?_eq_none_iff, ht, and_true]

/-- No wall clock lies between a second and the following one. -/
theorem lt_iff_of_next?_eq_some (h : v.next? = some w) : v < x ↔ w ≤ x := by
  have hv := v.time.secondOfDay_bounds
  have hx := x.time.secondOfDay_bounds
  rw [lt_iff_index_lt, le_iff_index_le]
  simp only [next?] at h
  split at h
  · rename_i t ht
    rw [TimeOfDay.next?_eq_some_iff] at ht
    simp only [Option.some.injEq] at h
    subst h
    simp only [index]
    omega
  · rename_i ht
    rw [TimeOfDay.next?_eq_none_iff] at ht
    obtain ⟨date, hdate, rfl⟩ := Option.map_eq_some_iff.1 h
    have hnext := Date.index_lt_iff_of_next?_eq_some hdate x.date
    simp only [index, TimeOfDay.secondOfDay_midnight]
    omega

end WallClock

/-! ## Instants -/

namespace Instant

variable {i j k : Instant}

/-- An instant is earlier than another one of the same zone when its wall clock is or, within one
second, its fraction. -/
def Precedes (i j : Instant) : Prop :=
  i.zone = j.zone ∧ (i.clock < j.clock ∨ i.clock = j.clock ∧ i.microsecond < j.microsecond)

instance (i j : Instant) : Decidable (i.Precedes j) :=
  inferInstanceAs (Decidable (_ ∧ _))

/-- An instant is not later than another one of the same zone. -/
def NotAfter (i j : Instant) : Prop :=
  i = j ∨ i.Precedes j

instance (i j : Instant) : Decidable (i.NotAfter j) :=
  inferInstanceAs (Decidable (_ ∨ _))

theorem Precedes.trans (hij : i.Precedes j) (hjk : j.Precedes k) : i.Precedes k := by
  obtain ⟨hz, h⟩ := hij
  obtain ⟨hz', h'⟩ := hjk
  refine ⟨hz.trans hz', ?_⟩
  rcases h with h | ⟨h, hm⟩
  · rcases h' with h' | ⟨h', -⟩
    · exact .inl (h.trans h')
    · exact .inl (h' ▸ h)
  · rcases h' with h' | ⟨h', hm'⟩
    · exact .inl (h ▸ h')
    · exact .inr ⟨h.trans h', hm.trans hm'⟩

theorem NotAfter.zone_eq (h : i.NotAfter j) : i.zone = j.zone := by
  rcases h with rfl | h
  · rfl
  · exact h.1

theorem NotAfter.clock_le (h : i.NotAfter j) : i.clock ≤ j.clock := by
  rcases h with rfl | ⟨-, h | ⟨h, -⟩⟩
  · exact le_rfl
  · exact h.le
  · exact h.le

/-- Of two instants of one zone, one is not later than the other. -/
theorem notAfter_of_not_precedes (hzone : i.zone = j.zone) (h : ¬i.Precedes j) :
    j.NotAfter i := by
  rcases lt_trichotomy i.clock j.clock with hlt | heq | hgt
  · exact absurd ⟨hzone, .inl hlt⟩ h
  · rcases lt_trichotomy i.microsecond j.microsecond with hlt | hmicrosecond | hgt
    · exact absurd ⟨hzone, .inr ⟨heq, hlt⟩⟩ h
    · obtain ⟨clock, microsecond, zone, _⟩ := i
      subst heq hmicrosecond hzone
      exact .inl rfl
    · exact .inr ⟨hzone.symm, .inr ⟨heq.symm, hgt⟩⟩
  · exact .inr ⟨hzone.symm, .inl hgt⟩

/-- A whole second is later than an instant when its wall clock is. -/
@[simp] theorem precedes_ofClock_iff {w : WallClock} {z : Option Int} :
    i.Precedes (ofClock w z) ↔ i.zone = z ∧ i.clock < w := by
  have hm := i.microsecond_holds
  simp only [Precedes, zone_ofClock, clock_ofClock, microsecond_ofClock]
  constructor
  · rintro ⟨hz, h | ⟨-, h⟩⟩
    · exact ⟨hz, h⟩
    · omega
  · rintro ⟨hz, h⟩
    exact ⟨hz, .inl h⟩

/-- What precedes a whole second has an earlier wall clock. -/
theorem Precedes.clock_lt (h : i.Precedes j) (hj : j.microsecond = 0) : i.clock < j.clock := by
  obtain ⟨-, h | ⟨-, h⟩⟩ := h
  · exact h
  · have := i.microsecond_holds
    omega

/-- The whole seconds after an instant are those from the following whole second on. -/
theorem clock_lt_iff_of_nextWholeSecond? (h : i.nextWholeSecond? = some j) {w : WallClock} :
    i.clock < w ↔ j.clock ≤ w := by
  obtain ⟨clock, hclock, rfl⟩ := Option.map_eq_some_iff.1 h
  exact WallClock.lt_iff_of_next?_eq_some hclock

/-- At the end of the last year no wall clock is later. -/
theorem not_clock_lt_of_nextWholeSecond?_eq_none (h : i.nextWholeSecond? = none) {w : WallClock} :
    ¬i.clock < w := by
  rw [nextWholeSecond?, Option.map_eq_none_iff, WallClock.next?_eq_none_iff] at h
  have hle := w.index_le
  rw [WallClock.lastIndex] at hle
  rw [WallClock.lt_iff_index_lt, WallClock.index, Date.index]
  omega

theorem zone_of_nextWholeSecond? (h : i.nextWholeSecond? = some j) : j.zone = i.zone := by
  obtain ⟨clock, -, rfl⟩ := Option.map_eq_some_iff.1 h
  rfl

end Instant
end Timetable
