import Timetable.WallClock

/-!
# Instants

An instant is a wall clock with a fraction of a second and, unless it is local, the offset of its
time zone from universal time.  A timetable looks at the wall clock alone.
-/

namespace Timetable

/-- A wall clock with a fraction of a second and the offset of its zone in seconds. -/
structure Instant where
  clock : WallClock
  microsecond : Int
  zone : Option Int
  microsecond_holds : 0 ≤ microsecond ∧ microsecond < 1000000
  deriving DecidableEq

namespace Instant

/-- The instant with the given fraction of a second, if there is one. -/
def of? (clock : WallClock) (microsecond : Int) (zone : Option Int) : Option Instant :=
  if h : 0 ≤ microsecond ∧ microsecond < 1000000 then some ⟨clock, microsecond, zone, h⟩
  else none

/-- The beginning of a whole second. -/
def ofClock (clock : WallClock) (zone : Option Int) : Instant :=
  ⟨clock, 0, zone, by decide⟩

/-- The whole second that follows an instant, in the same zone. -/
def nextWholeSecond? (i : Instant) : Option Instant :=
  i.clock.next?.map fun clock => ofClock clock i.zone

/-- The same instant of universal time in a zone with the given offset. -/
def inZone? (universal : Instant) (offset : Int) : Option Instant :=
  (universal.clock.shift? offset).map fun clock =>
    ⟨clock, universal.microsecond, some offset, universal.microsecond_holds⟩

@[simp] theorem clock_ofClock (w : WallClock) (z : Option Int) : (ofClock w z).clock = w := rfl

@[simp] theorem zone_ofClock (w : WallClock) (z : Option Int) : (ofClock w z).zone = z := rfl

@[simp] theorem microsecond_ofClock (w : WallClock) (z : Option Int) :
    (ofClock w z).microsecond = 0 := rfl

end Instant
end Timetable
