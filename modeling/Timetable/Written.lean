import Timetable.Fields

/-!
# Written fields

Fields are written as an expression that stands for them: a selection of the whole domain as `*`,
any other as the list of its ordinals.
-/

namespace Timetable

/-- The text of a selection in an expression. -/
def Selection.write {u : TimeUnit} (s : Selection u) : Text :=
  if s.isAll then ['*']
  else [','].intercalate (s.toList.map fun n => Text.Numeral.write n.toNat)

/-- The expression of fields, with one field for each unit. -/
def Fields.write (F : Fields) : Text :=
  [' '].intercalate (TimeUnit.inOrder.map fun u => (F.get u).write)

end Timetable
