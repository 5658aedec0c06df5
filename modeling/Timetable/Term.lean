import Timetable.Text.Numeral
import Timetable.TimeUnit

/-!
# Terms of a field

A field of an expression is a list of terms, as written and before any unit gives them a meaning.
`Mon-Fri/2` is the period of step two over a range of names; whether these are names, and of which
ordinals, depends on the unit that the field restricts.
-/

namespace Timetable

/-- What a term selects from before any step: every value, one value, or a range between two
values or two names. -/
inductive Base where
  | all
  | point (value : Int)
  | range (first last : Int)
  | namedRange (first last : Text)
  deriving DecidableEq, Repr

/-- A term of a field: a base, a single name, or every `step`-th value of a base. -/
inductive Term where
  | base (base : Base)
  | name (name : Text)
  | period (base : Base) (step : Int)
  deriving DecidableEq, Repr

/-- The terms of one field, in the order in which they are written. -/
structure Field where
  terms : List Term
  deriving DecidableEq, Repr

namespace Base

/-- Whether a base is a single value. -/
def isPoint : Base → Bool
  | point _ => true
  | _ => false

/-- The numbers in a base. -/
def numbers : Base → List Int
  | point value => [value]
  | range first last => [first, last]
  | _ => []

end Base

namespace Term

/-- The numbers in a term. -/
def numbers : Term → List Int
  | base b => b.numbers
  | name _ => []
  | period b step => b.numbers ++ [step]

/-- A term can be written when each of its numbers can. -/
def Writable (t : Term) : Prop :=
  ∀ n ∈ t.numbers, Text.Writable n

instance (t : Term) : Decidable t.Writable :=
  inferInstanceAs (Decidable (∀ n ∈ _, _))

end Term

namespace Field

/-- A field is unrestricted when its only term stands for every value. -/
def isAll (f : Field) : Bool :=
  f.terms == [.base .all]

@[simp] theorem isAll_iff {f : Field} : f.isAll = true ↔ f.terms = [.base .all] := by
  simp [isAll]

end Field
end Timetable
