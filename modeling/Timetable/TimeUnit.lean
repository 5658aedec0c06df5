import Timetable.Ordinals
import Timetable.Text.CodeRanges

/-!
# Time units

A timetable restricts seven units of time.  A unit has a domain, the integers from `lo` to `hi`,
and months and days of the week also have names for their ordinals.

## Main definitions

* `TimeUnit.lo`, `TimeUnit.hi`, `TimeUnit.Holds`, `TimeUnit.domain`: the domain.
* `TimeUnit.ordinalOfName?`: the ordinal that a name stands for, in any letter case.
-/

namespace Timetable

/-- The units of time that a timetable restricts. -/
inductive TimeUnit where
  | seconds
  | minutes
  | hours
  | daysOfMonth
  | months
  | daysOfWeek
  | years
  deriving DecidableEq, Repr

namespace TimeUnit

/-- All units, in the order in which an expression writes its fields. -/
def inOrder : List TimeUnit :=
  [seconds, minutes, hours, daysOfMonth, months, daysOfWeek, years]

theorem mem_inOrder (u : TimeUnit) : u ∈ inOrder := by
  cases u <;> decide

/-! ## Domains -/

/-- The lowest ordinal of a unit. -/
def lo : TimeUnit → Int
  | seconds | minutes | hours => 0
  | daysOfMonth | months | daysOfWeek | years => 1

/-- The highest ordinal of a unit. -/
def hi : TimeUnit → Int
  | seconds | minutes => 59
  | hours => 23
  | daysOfMonth => 31
  | months => 12
  | daysOfWeek => 7
  | years => 9999

theorem lo_le_hi (u : TimeUnit) : u.lo ≤ u.hi := by
  cases u <;> decide

/-- An integer in the domain of a unit. -/
def Holds (u : TimeUnit) (n : Int) : Prop :=
  u.lo ≤ n ∧ n ≤ u.hi

instance (u : TimeUnit) (n : Int) : Decidable (u.Holds n) :=
  inferInstanceAs (Decidable (_ ∧ _))

/-- The ordinals of a unit, ascending. -/
def domain (u : TimeUnit) : List Int :=
  Ordinals.interval u.lo u.hi

@[simp] theorem mem_domain {u : TimeUnit} {n : Int} : n ∈ u.domain ↔ u.Holds n :=
  Ordinals.mem_interval

theorem pairwise_domain (u : TimeUnit) : u.domain.Pairwise (· < ·) :=
  Ordinals.pairwise_interval u.lo u.hi

/-- The number of ordinals of a unit. -/
def size (u : TimeUnit) : Nat :=
  (u.hi + 1 - u.lo).toNat

@[simp] theorem length_domain (u : TimeUnit) : u.domain.length = u.size :=
  Ordinals.length_interval u.lo u.hi

/-! ## Names of ordinals -/

/-- The months in order. -/
def monthNames : List String :=
  ["january", "february", "march", "april", "may", "june", "july", "august", "september",
   "october", "november", "december"]

/-- The days of the week in order; the week starts on Sunday. -/
def weekdayNames : List String :=
  ["sunday", "monday", "tuesday", "wednesday", "thursday", "friday", "saturday"]

/-- Pairs each name with its place in the list, counted from one. -/
def numbered (names : List Text) : List (Text × Int) :=
  names.zipIdx.map fun (name, i) => (name, (i : Int) + 1)

/-- The full names in order and their first three letters. -/
def namesAndAbbreviations (names : List String) : List (Text × Int) :=
  numbered (names.map String.toList) ++ numbered (names.map fun name => name.toList.take 3)

/-- The lower-case names of a unit with the ordinals they stand for.  Months and days of the week
have full names, abbreviations to three letters, and a few longer abbreviations. -/
def names : TimeUnit → List (Text × Int)
  | months => namesAndAbbreviations monthNames ++ [("sept".toList, 9)]
  | daysOfWeek =>
    namesAndAbbreviations weekdayNames ++
      [("tues".toList, 3), ("thur".toList, 5), ("thurs".toList, 5)]
  | _ => []

/-- The ordinal that a name stands for.  The letter case of a name has no meaning; names are
written in ASCII letters, so lower case is that of ASCII. -/
def ordinalOfName? (u : TimeUnit) (name : Text) : Option Int :=
  u.names.lookup (name.map Char.toLower)

/-- Names stand for ordinals of their unit. -/
theorem holds_of_mem_names {u : TimeUnit} : ∀ entry ∈ u.names, u.Holds entry.2 := by
  cases u <;> decide

/-! ## How a unit is called -/

/-- The name of a unit in messages. -/
def label : TimeUnit → String
  | seconds => "Seconds"
  | minutes => "Minutes"
  | hours => "Hours"
  | daysOfMonth => "Days of Month"
  | months => "Months"
  | daysOfWeek => "Days of Week"
  | years => "Years"

/-- The name of a unit in one word. -/
def word : TimeUnit → String
  | daysOfMonth => "DaysOfMonth"
  | daysOfWeek => "DaysOfWeek"
  | u => u.label

/-- The name of the field of an expression that restricts a unit. -/
def fieldName : TimeUnit → String
  | seconds => "seconds"
  | minutes => "minutes"
  | hours => "hours"
  | daysOfMonth => "days of month"
  | months => "months"
  | daysOfWeek => "days of week"
  | years => "years"

/-- The name of the slot that keeps the selection of a unit. -/
def slotName : TimeUnit → String
  | daysOfMonth => "days_of_month"
  | daysOfWeek => "days_of_week"
  | u => u.fieldName

/-- The two fields that restrict days also admit the mark `?` for every value. -/
def admitsAnyMark : TimeUnit → Bool
  | daysOfMonth | daysOfWeek => true
  | _ => false

end TimeUnit
end Timetable
