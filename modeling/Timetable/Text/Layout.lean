import Timetable.Text.Blank

/-!
# White space in an expression

White space separates the fields of an expression, but next to one of the operators `,`, `-` and
`/`, and at the ends of the text, it has no meaning.  `tighten` removes it there and `splitFields`
cuts the text at what is left.
-/

namespace Timetable.Text

/-- The characters that join the parts of a field. -/
def isOperator (c : Char) : Bool :=
  c == ',' || c == '-' || c == '/'

/-- Removes the white space that follows an operator, and, when `joined`, that at the start. -/
def dropJoined : Bool → Text → Text
  | _, [] => []
  | joined, c :: rest =>
    if joined && isBlank c then dropJoined true rest else c :: dropJoined (isOperator c) rest

/-- Removes the white space at either end of a text and on either side of an operator. -/
def tighten (s : Text) : Text :=
  (dropJoined true (dropJoined true s).reverse).reverse

/-- The texts of the fields of an expression. -/
def splitFields (s : Text) : List Text :=
  words (tighten s)

/-- An operator is not white space. -/
theorem isBlank_eq_false_of_isOperator {c : Char} (h : isOperator c = true) :
    isBlank c = false := by
  simp only [isOperator, Bool.or_eq_true, beq_iff_eq] at h
  rcases h with (rfl | rfl) | rfl <;> decide

/-- Only white space is removed after operators. -/
theorem filter_dropJoined (joined : Bool) (s : Text) :
    (dropJoined joined s).filter (fun c => !isBlank c) = s.filter (fun c => !isBlank c) := by
  induction s generalizing joined with
  | nil => rfl
  | cons c rest ih =>
    simp only [dropJoined]
    split
    · rename_i h
      simp only [Bool.and_eq_true] at h
      simp [h.2, ih]
    · by_cases hb : isBlank c = true <;> simp [hb, ih]

/-- Only white space is removed by tightening. -/
theorem filter_tighten (s : Text) :
    (tighten s).filter (fun c => !isBlank c) = s.filter (fun c => !isBlank c) := by
  rw [tighten, List.filter_reverse, filter_dropJoined, List.filter_reverse, filter_dropJoined,
    List.reverse_reverse]

/-- The fields of an expression hold its characters other than white space, in order. -/
theorem flatten_splitFields (s : Text) :
    (splitFields s).flatten = s.filter (fun c => !isBlank c) := by
  rw [splitFields, flatten_words, filter_tighten]

end Timetable.Text
