import Timetable.Expression
import Timetable.Selection
import Timetable.WallClock

/-!
# Fields

The fields of a timetable are one selection for each of the seven units.  A wall clock satisfies
them when each of its values is selected; since its day is looked up both in the month and in the
week, restricting both keeps only the days that satisfy both.
-/

namespace Timetable

/-- One selection for each unit. -/
structure Fields where
  seconds : Selection .seconds
  minutes : Selection .minutes
  hours : Selection .hours
  daysOfMonth : Selection .daysOfMonth
  months : Selection .months
  daysOfWeek : Selection .daysOfWeek
  years : Selection .years

/-- A selection of one unit was given in the place of another. -/
structure UnitMismatch where
  slot : TimeUnit
  given : TimeUnit
  deriving DecidableEq, Repr

/-- The wording of a unit mismatch. -/
def UnitMismatch.message (m : UnitMismatch) : String :=
  s!"{m.slot.slotName} must be {m.slot.word}, got {m.given.word}"

namespace Fields

/-! ## Building fields -/

/-- The selection of a unit. -/
def get (F : Fields) : (u : TimeUnit) → Selection u
  | .seconds => F.seconds
  | .minutes => F.minutes
  | .hours => F.hours
  | .daysOfMonth => F.daysOfMonth
  | .months => F.months
  | .daysOfWeek => F.daysOfWeek
  | .years => F.years

/-- Builds fields from one selection after the other, in the order of an expression. -/
def collect {m : Type → Type} [Monad m] (selection : (u : TimeUnit) → m (Selection u)) :
    m Fields := do
  let seconds ← selection .seconds
  let minutes ← selection .minutes
  let hours ← selection .hours
  let daysOfMonth ← selection .daysOfMonth
  let months ← selection .months
  let daysOfWeek ← selection .daysOfWeek
  let years ← selection .years
  pure { seconds, minutes, hours, daysOfMonth, months, daysOfWeek, years }

/-- The selection given for a unit, which has to be of that unit; every ordinal if none is given. -/
def slot (given : TimeUnit → Option AnySelection) (u : TimeUnit) :
    Except UnitMismatch (Selection u) :=
  match given u with
  | none => .ok .every
  | some s => if h : s.unit = u then .ok (h ▸ s.selection) else .error ⟨u, s.unit⟩

/-- The fields with the given selections; the first that is of a wrong unit is reported. -/
def assemble (given : TimeUnit → Option AnySelection) : Except UnitMismatch Fields :=
  collect (slot given)

/-- One field for each unit. -/
def perUnit (seconds minutes hours daysOfMonth months daysOfWeek years : Field) :
    TimeUnit → Field
  | .seconds => seconds
  | .minutes => minutes
  | .hours => hours
  | .daysOfMonth => daysOfMonth
  | .months => months
  | .daysOfWeek => daysOfWeek
  | .years => years

/-- Assigns six or seven fields in the order of an expression to the units; without a field for
years every year is selected. -/
def arrange : List Field → Except Problem (TimeUnit → Field)
  | [s, mi, h, d, mo, w] => .ok (perUnit s mi h d mo w ⟨[.base .all]⟩)
  | [s, mi, h, d, mo, w, y] => .ok (perUnit s mi h d mo w y)
  | fields => .error (.fieldCount fields.length)

/-- Resolves six or seven fields in the order of an expression. -/
def ofFieldList (fields : List Field) : Except Problem Fields := do
  let fieldOf ← arrange fields
  collect fun u => Selection.ofField u (fieldOf u)

/-- The fields of an expression.  A rejection names the expression where its text is at fault. -/
def parse (expression : Text) : Except Rejection Fields := do
  let fields ← Expression.parse expression
  (ofFieldList fields).mapError fun problem => ⟨problem, none⟩

/-! ## Views -/

/-- Whether a wall clock satisfies all fields. -/
def includes (F : Fields) (w : WallClock) : Bool :=
  F.seconds.includes w.time.second && F.minutes.includes w.time.minute &&
    F.hours.includes w.time.hour && F.daysOfMonth.includes w.date.day &&
    F.months.includes w.date.month && F.daysOfWeek.includes w.date.weekday &&
    F.years.includes w.date.year

/-- The seven selections in order. -/
def selections (F : Fields) : List AnySelection :=
  TimeUnit.inOrder.map fun u => ⟨u, F.get u⟩

instance : BEq Fields := ⟨fun F G => F.selections == G.selections⟩

/-- What tells fields apart: the keys of their selections. -/
def key (F : Fields) : List AnySelection.Key :=
  F.selections.map AnySelection.key

/-- The text of fields. -/
def text (F : Fields) : String :=
  let slots := TimeUnit.inOrder.map fun u => s!"{u.slotName}={(F.get u).text}"
  "ScheduleFields(" ++ ", ".intercalate slots ++ ")"

end Fields
end Timetable
