import Timetable.Fields
import Timetable.Query
import Timetable.Text.Numeral

/-!
# The search for the next instant

The search goes through the positions of a wall clock from the year to the second.  At each it
tries the selected values from the bound that its query gives, and for each value the positions
below.  A value that leads nowhere makes the positions below start over; so does a bound that is
not itself selected.  A day whose day of the week is not selected leads nowhere.

Lengths of months and days of the week come from the calendar, which answers for existing months
and days only; the search asks for no others.  The search is generic in the monad of its almanac, so
that it may be carried out with an account of what it asks.

## Main definitions

* `Almanac`, `Calendar.almanac`: where a search learns about the calendar.
* `Search.Walk`: the query during a search and the account of the bounds it has given.
* `Search.descend`: the values of the first wall clock in lexicographic order.
* `Search.failure`: the end of a search that has found nothing.
* `Fields.search`, `Fields.nextAfter`: the search after an instant.
-/

namespace Timetable

/-- The number of years of the selection that a search visits, after the first, unless told
otherwise.  The calendar repeats after 400 years. -/
def defaultYearLimit : Int := 400

/-- Where a search learns what it has to know of the calendar, each answer in a monad: the lengths
of months, the days of the week of dates, and at its end the wall clock with some values. -/
structure Almanac (m : Type → Type) where
  lastDay (year month : Int) : m Int
  weekday (year month day : Int) : m Int
  clock (values : List Int) : m WallClock

/-- The almanac that answers for what exists. -/
def Calendar.almanac : Almanac (Except CalendarError) where
  lastDay := daysInMonth
  weekday := weekday
  clock values :=
    match WallClock.ofList? values with
    | some clock => .ok clock
    | none => .error .noSuchClock

/-- Why a search has no answer. -/
inductive SearchError where
  /-- The calendar has refused a question. -/
  | calendar (error : CalendarError)
  /-- The search gives up, and its limit cannot be written. -/
  | overlong
  deriving DecidableEq, Repr

/-- The wording of a search error. -/
def SearchError.message : SearchError → String
  | calendar error => error.message
  | overlong => Text.overlongMessage

namespace Search

/-- A bound that was given: the position, the values chosen for more significant positions, the
bound, and the positions pending when it was asked. -/
structure Consultation where
  position : Position
  chosen : List Int
  bound : Int
  pending : List Position
  deriving DecidableEq

/-- The query during a search, and the bounds it has given, the latest first. -/
structure Walk where
  query : Query
  consulted : List Consultation
  deriving DecidableEq

namespace Walk

/-- Asks for the bound of a position and keeps account of it. -/
def consult (w : Walk) (p : Position) (chosen : List Int) : Int × Walk :=
  let (bound, query) := w.query.lowerBound p
  (bound, ⟨query, ⟨p, chosen, bound, w.query.pending⟩ :: w.consulted⟩)

/-- Makes the first of some positions and all less significant ones start over. -/
def resetFrom (w : Walk) (ps : List Position) : Walk :=
  { w with query := w.query.resetFrom ps }

end Walk

/-- How a search ends. -/
inductive Outcome where
  /-- The instant before which there is no other. -/
  | found (instant : Instant)
  /-- There is no second after the given one. -/
  | noLaterSecond
  /-- No year that was tried led anywhere; `year` would have been the next. -/
  | gaveUp (year : Int)
  /-- The same, with a limit that cannot be written, so that there is no message about it. -/
  | untold (year : Int)
  /-- No year from `year` on led anywhere. -/
  | exhausted (year : Int)
  deriving DecidableEq

/-- The answer of a search: the instant that it has found, if there is one. -/
def Outcome.answer : Outcome → Except SearchError (Option Instant)
  | found i => .ok (some i)
  | untold _ => .error .overlong
  | noLaterSecond | gaveUp _ | exhausted _ => .ok none

/-- The end of a search that has found nothing.  The message about giving up is worded even where
nobody reads it, so that a limit that cannot be written is an error. -/
def failure (F : Fields) (limit : Int) (year : Int) : Outcome :=
  match (F.years.range year TimeUnit.years.hi).drop (limit + 1).toNat with
  | [] => .exhausted year
  | next :: _ => if Text.Writable limit then .gaveUp next else .untold next

section Almanac

variable {m : Type → Type} [Monad m]

/-- The selected values to try at a position, from a bound upwards.  Days end with their month, and
of the years at most `limit + 1` are tried. -/
def candidates (almanac : Almanac m) (F : Fields) (limit : Int) (p : Position) (chosen : List Int)
    (bound : Int) : m (List Int) :=
  match p, chosen with
  | .day, [year, month] => do
    let last ← almanac.lastDay year month
    pure (F.daysOfMonth.range bound last)
  | .year, _ => pure ((F.years.range bound TimeUnit.years.hi).take (limit + 1).toNat)
  | p, _ => pure ((F.get p.unit).range bound p.unit.hi)

/-- Whether a value of a position may lead anywhere: a day has to be a selected day of the week. -/
def admits (almanac : Almanac m) (F : Fields) (p : Position) (chosen : List Int) (value : Int) :
    m Bool :=
  match p, chosen with
  | .day, [year, month] => do
    let weekday ← almanac.weekday year month value
    pure (F.daysOfWeek.includes weekday)
  | _, _ => pure true

/-- The result of the first value that leads somewhere, and the state then; after a value that
does not, `onward` prepares the state for the next one. -/
def firstOf {α σ : Type} (attempt : Int → σ → m (Option α × σ)) (onward : σ → σ) :
    List Int → σ → m (Option α × σ)
  | [], state => pure (none, state)
  | value :: values, state => do
    match ← attempt value state with
    | (some result, state) => pure (some result, state)
    | (none, state) => firstOf attempt onward values (onward state)

/-- Chooses a value for each of the given positions, below those that are already chosen. -/
def descend (almanac : Almanac m) (F : Fields) (limit : Int) :
    List Position → List Int → Walk → m (Option (List Int) × Walk)
  | [], chosen, walk => pure (some chosen, walk)
  | p :: below, chosen, walk => do
    let (bound, walk) := walk.consult p chosen
    let walk := if (F.get p.unit).includes bound then walk else walk.resetFrom below
    let values ← candidates almanac F limit p chosen bound
    let attempt := fun value walk => do
      if ← admits almanac F p chosen value then
        descend almanac F limit below (chosen ++ [value]) walk
      else pure (none, walk)
    firstOf attempt (fun walk => walk.resetFrom below) values walk

/-- Searches from a query, and gives an account of the way. -/
def run (almanac : Almanac m) (F : Fields) (limit : Int) (q : Query) : m (Outcome × Walk) := do
  let (values?, walk) ← descend almanac F limit Position.inOrder [] ⟨q, []⟩
  match values? with
  | none => pure (failure F limit q.reference.clock.date.year, walk)
  | some values => do
    let clock ← almanac.clock values
    pure (.found (.ofClock clock q.reference.zone), walk)

/-- Searches for the first instant after a given one that satisfies the fields, trying `limit + 1`
years. -/
def after (almanac : Almanac m) (F : Fields) (i : Instant) (limit : Int) : m Outcome :=
  match Query.after? i with
  | none => pure .noLaterSecond
  | some q => do
    let (outcome, _) ← run almanac F limit q
    pure outcome

end Almanac
end Search

namespace Fields

/-- Searches for the first instant after a given one that satisfies the fields. -/
def search (F : Fields) (i : Instant) (limit : Int) : Except CalendarError Search.Outcome :=
  Search.after Calendar.almanac F i limit

/-- The first instant after a given one that satisfies the fields, if the search finds one. -/
def nextAfter (F : Fields) (i : Instant) (limit : Int) : Except SearchError (Option Instant) := do
  let outcome ← (F.search i limit).mapError .calendar
  outcome.answer

end Fields
end Timetable
