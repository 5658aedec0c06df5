import Timetable.Term
import Timetable.Text.Quoted

/-!
# Problems with an expression

A `Problem` is a cause: why a text is not a timetable, or why terms select nothing.  A `Report` is
what its reader sees of it, a message and its details.  A `Rejection` is a problem together with
the expression it was found in, where that is known.
-/

namespace Timetable

/-- What the reader of a message sees of a problem. -/
inductive Report where
  | general (message : String)
  | malformed (message : String)
  | fieldCount (count : Int)
  | outOfRange (unit : String) (value lo hi : Int)
  | unknownName (unit : String) (name : Text)
  | rangeOrder (unit : String) (first last : Int)
  | noStep (message : String)
  /-- The message would hold an integer that cannot be written. -/
  | overlong
  deriving DecidableEq, Repr

namespace Report

/-- The wording of a report. -/
def message : Report → String
  | general text => text
  | malformed text => text
  | fieldCount count =>
    s!"Expression has {count} fields. Valid cron expressions have 6 or 7."
  | outOfRange unit value lo hi => s!"{unit} must be between {lo} and {hi}: {value}"
  | unknownName unit name => s!"'{String.ofList name}' is not a known name for {unit}"
  | rangeOrder unit first last =>
    s!"Range start must not be after range end for {unit}: {first}-{last}"
  | noStep text => text
  | overlong => Text.overlongMessage

/-- The wording of a report, followed by the expression it is about where that is known. -/
def text (report : Report) : Option Text → String
  | none => report.message
  | some expression =>
    s!"{report.message} (expression: {String.ofList (Text.quote expression)})"

end Report

/-- Why a text is not a timetable, or why terms do not select ordinals of a unit. -/
inductive Problem where
  /-- The text begins with the mark of a shorthand but is not one. -/
  | unknownShorthand
  /-- A text is not a field. -/
  | malformedField (text : Text)
  /-- The field of a unit in an expression is malformed. -/
  | malformedFieldOf (unit : TimeUnit) (text : Text)
  /-- An expression has neither six nor seven fields. -/
  | fieldCount (count : Nat)
  /-- No ordinal is selected. -/
  | emptySelection (unit : TimeUnit)
  /-- An ordinal lies outside the domain of its unit. -/
  | outOfRange (unit : TimeUnit) (value : Int)
  /-- A name stands for no ordinal of the unit. -/
  | unknownName (unit : TimeUnit) (name : Text)
  /-- A range starts after it ends. -/
  | rangeOrder (unit : TimeUnit) (first last : Int)
  /-- A period has step zero. -/
  | zeroStep (base : Base)
  /-- A term cannot be written where a trace tells of it. -/
  | unwritable (term : Term)
  deriving DecidableEq, Repr

namespace Problem

/-- What the reader sees of a problem.  An ordinal outside the domain may be any integer, so that
there may be no message about it. -/
def report : Problem → Report
  | unknownShorthand => .malformed "Unknown shorthand expression"
  | malformedField text => .malformed s!"Could not parse field: {String.ofList text}"
  | malformedFieldOf unit text =>
    .malformed s!"Could not parse {unit.fieldName} field: {String.ofList text}"
  | fieldCount count => .fieldCount count
  | emptySelection unit => .general s!"{unit.label} must select at least one value"
  | outOfRange unit value =>
    if Text.Writable value then .outOfRange unit.label value unit.lo unit.hi else .overlong
  | unknownName unit name => .unknownName unit.label name
  | rangeOrder unit first last => .rangeOrder unit.label first last
  | zeroStep base =>
    .noStep (if base.isPoint then "range() arg 3 must not be zero" else "slice step cannot be zero")
  | unwritable _ => .overlong

end Problem

/-- A problem and the expression it was found in, where that is known. -/
structure Rejection where
  problem : Problem
  expression : Option Text
  deriving DecidableEq, Repr

namespace Rejection

/-- The message of a rejection. -/
def text (r : Rejection) : String :=
  r.problem.report.text r.expression

/-- Names the expression of a rejection that has none yet. -/
def inExpression (r : Rejection) (expression : Text) : Rejection :=
  { r with expression := some (r.expression.getD expression) }

@[simp] theorem problem_inExpression (r : Rejection) (e : Text) :
    (r.inExpression e).problem = r.problem := rfl

end Rejection
end Timetable
