import Timetable.Instant

/-!
# Queries

A search for the next instant goes through six positions of a wall clock, from the year to the
second.  It begins at a reference; until a position has been asked for its bound or started over,
it is pending and its bound is the value of the reference.  Afterwards the bound is the lowest
value of its unit.

## Main statements

* `mem_pending_lowerBound`: asking a position for its bound settles that position alone.
* `mem_pending_reset`: starting over from a position settles it and all less significant ones.
-/

namespace Timetable

/-- The positions of a wall clock that a search goes through. -/
inductive Position where
  | year
  | month
  | day
  | hour
  | minute
  | second
  deriving DecidableEq, Repr

namespace Position

/-- All positions, the most significant first. -/
def inOrder : List Position :=
  [year, month, day, hour, minute, second]

/-- The place of a position in that order. -/
def rank : Position → Nat
  | year => 0
  | month => 1
  | day => 2
  | hour => 3
  | minute => 4
  | second => 5

/-- The unit that restricts a position.  The day of the week has no position of its own. -/
def unit : Position → TimeUnit
  | year => .years
  | month => .months
  | day => .daysOfMonth
  | hour => .hours
  | minute => .minutes
  | second => .seconds

theorem mem_inOrder (p : Position) : p ∈ inOrder := by
  cases p <;> decide

theorem rank_inj {p q : Position} : p.rank = q.rank ↔ p = q := by
  cases p <;> cases q <;> decide

end Position

/-- The value of a wall clock at a position. -/
def WallClock.get (w : WallClock) : Position → Int
  | .year => w.date.year
  | .month => w.date.month
  | .day => w.date.day
  | .hour => w.time.hour
  | .minute => w.time.minute
  | .second => w.time.second

/-- Where a search begins, and the positions that still begin there. -/
structure Query where
  reference : Instant
  pending : List Position
  deriving DecidableEq

namespace Query

/-- The query that begins at an instant, with every position pending. -/
def ofReference (reference : Instant) : Query :=
  ⟨reference, Position.inOrder⟩

/-- The query for instants after a given one, if there is a later second. -/
def after? (i : Instant) : Option Query :=
  i.nextWholeSecond?.map Query.ofReference

/-- The lowest value to consider at a position, and the query once that has been asked. -/
def lowerBound (q : Query) (p : Position) : Int × Query :=
  if p ∈ q.pending then
    (q.reference.clock.get p, { q with pending := q.pending.filter (· ≠ p) })
  else (p.unit.lo, q)

/-- The query where a position and all less significant ones start over from their lowest value. -/
def reset (q : Query) (p : Position) : Query :=
  { q with pending := q.pending.filter fun r => r.rank < p.rank }

/-- The query where the first of some positions and all less significant ones start over. -/
def resetFrom (q : Query) : List Position → Query
  | [] => q
  | p :: _ => q.reset p

/-- What may be done to a query. -/
inductive Step where
  /-- Asks a position for its bound. -/
  | bound (p : Position)
  /-- Starts over from a position. -/
  | reset (p : Position)
  deriving DecidableEq, Repr

/-- The bound that a step asks for, if it does, and the query after it. -/
def perform (q : Query) : Step → Option Int × Query
  | .bound p =>
    let (bound, q) := q.lowerBound p
    (some bound, q)
  | .reset p => (none, q.reset p)

/-- The bounds and queries after each of some steps in sequence. -/
def performAll (q : Query) : List Step → List (Option Int × Query)
  | [] => []
  | step :: steps =>
    let result := q.perform step
    result :: performAll result.2 steps

@[simp] theorem reference_lowerBound (q : Query) (p : Position) :
    (q.lowerBound p).2.reference = q.reference := by
  simp only [lowerBound]
  split <;> rfl

@[simp] theorem reference_reset (q : Query) (p : Position) :
    (q.reset p).reference = q.reference := rfl

theorem lowerBound_of_mem {q : Query} {p : Position} (h : p ∈ q.pending) :
    (q.lowerBound p).1 = q.reference.clock.get p := by
  simp [lowerBound, h]

theorem lowerBound_of_notMem {q : Query} {p : Position} (h : p ∉ q.pending) :
    (q.lowerBound p).1 = p.unit.lo := by
  simp [lowerBound, h]

/-- Asking a position for its bound settles that position alone. -/
@[simp] theorem mem_pending_lowerBound {q : Query} {p r : Position} :
    r ∈ (q.lowerBound p).2.pending ↔ r ∈ q.pending ∧ r ≠ p := by
  simp only [lowerBound]
  split
  · simp
  · rename_i h
    exact ⟨fun hr => ⟨hr, fun e => h (e ▸ hr)⟩, fun hr => hr.1⟩

/-- Starting over from a position settles it and all less significant ones. -/
@[simp] theorem mem_pending_reset {q : Query} {p r : Position} :
    r ∈ (q.reset p).pending ↔ r ∈ q.pending ∧ r.rank < p.rank := by
  simp [reset]

end Query
end Timetable
