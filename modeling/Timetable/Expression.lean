import Timetable.Grammar

/-!
# Expressions

An expression has six or seven fields between white space, one for each time unit in order; the
last one, for years, may be missing.  A text that begins with `@` is a shorthand that stands for an
expression.
-/

namespace Timetable.Expression

/-- The mark that begins a shorthand. -/
def shorthandMark : Char := '@'

/-- The shorthands and the expressions they stand for. -/
def shorthands : List (Text × Text) :=
  [("@yearly".toList, "0 0 0 1 1 * *".toList),
   ("@monthly".toList, "0 0 0 1 * * *".toList),
   ("@weekly".toList, "0 0 0 * * 1 *".toList),
   ("@daily".toList, "0 0 0 * * * *".toList),
   ("@hourly".toList, "0 0 * * * * *".toList)]

/-- The expression that a shorthand stands for. -/
def expand (text : Text) : Except Problem Text :=
  match shorthands.lookup text with
  | some expression => .ok expression
  | none => .error .unknownShorthand

/-- Reads the field of one unit in an expression. -/
def readField (unit : TimeUnit) (text : Text) : Except Problem Field :=
  match Field.read? unit.admitsAnyMark text with
  | some f => .ok f
  | none => .error (.malformedFieldOf unit text)

/-- Reads an expression that is not a shorthand. -/
def readLonghand (text : Text) : Except Problem (List Field) :=
  let pieces := Text.splitFields text
  if pieces.length = 6 ∨ pieces.length = 7 then
    (TimeUnit.inOrder.zip pieces).mapM fun (unit, piece) => readField unit piece
  else .error (.fieldCount pieces.length)

/-- Reads the fields of an expression or a shorthand. -/
def read (text : Text) : Except Problem (List Field) :=
  if text.head? = some shorthandMark then expand text >>= readLonghand else readLonghand text

/-- Reads the fields of an expression; a rejection names the expression. -/
def parse (text : Text) : Except Rejection (List Field) :=
  (read text).mapError fun problem => ⟨problem, some text⟩

end Timetable.Expression
