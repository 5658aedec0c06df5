/-!
# Classes of characters by code point

A class of characters is written as the inclusive ranges of its code points, in ascending order.
-/

namespace Timetable

/-- Text is handled as its list of characters, so that every rule is a recursion on that list. -/
abbrev Text := List Char

namespace Text

/-- A class of characters, as inclusive ranges of code points. -/
abbrev CodeRanges := List (Nat × Nat)

/-- A character belongs to a class when one of the ranges holds its code point. -/
def CodeRanges.contains (ranges : CodeRanges) (c : Char) : Bool :=
  ranges.any fun (first, last) => first ≤ c.toNat && c.toNat ≤ last

theorem CodeRanges.contains_iff {ranges : CodeRanges} {c : Char} :
    ranges.contains c = true ↔ ∃ r ∈ ranges, r.1 ≤ c.toNat ∧ c.toNat ≤ r.2 := by
  simp [CodeRanges.contains]

end Text
end Timetable
