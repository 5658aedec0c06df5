import Timetable.Text.Blank
import Timetable.Text.DecimalDigit
import Timetable.Text.Numeral

/-!
# Integers in settings

A setting writes an integer as decimal digits of any script with an optional sign, white space
around them and single underscores between digits.  The bound on the number of digits is the same
as for numerals.
-/

namespace Timetable.Text.Integer

/-- The number that a list of digit values stands for, most significant first. -/
def ofDigitValues (ds : List Nat) : Nat :=
  ds.foldl (fun n d => 10 * n + d) 0

/-- The values of a non-empty group of digits. -/
def group? (s : Text) : Option (List Nat) :=
  if s = [] then none else s.mapM digitValue?

/-- An integer without its sign: groups of digits with one underscore between two groups. -/
def magnitude? (s : Text) : Option Nat := do
  let ds := (← (s.splitOn '_').mapM group?).flatten
  if ds.length ≤ longestNumeral then some (ofDigitValues ds) else none

/-- The integer that the text of a setting stands for. -/
def read? (s : Text) : Option Int :=
  match strip s with
  | '+' :: rest => (magnitude? rest).map fun n : Nat => (n : Int)
  | '-' :: rest => (magnitude? rest).map fun n : Nat => -(n : Int)
  | rest => (magnitude? rest).map fun n : Nat => (n : Int)

end Timetable.Text.Integer
