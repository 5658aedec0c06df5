import Timetable.Problem
import Timetable.Text.Layout
import Timetable.Text.Numeral

/-!
# The grammar of a field

A field is a list of terms between commas.

* `*`, a numeral, a range of numerals `a-b` and a range of names `s-t` are bases; days also have
  the mark `?` for `*`.
* A term is a base, a single name, or a base followed by `/` and a positive numeral.

A name is a run of ASCII letters.  Since neither a numeral nor a name holds an operator, cutting at
the operators decides the form of a term.
-/

namespace Timetable

/-- A name is a non-empty run of ASCII letters. -/
def Text.isName (s : Text) : Bool :=
  !s.isEmpty && s.all Char.isAlpha

/-- Whether a text is the mark for every value; `?` is one only where `anyMark` admits it. -/
def Text.isAllMark (anyMark : Bool) (s : Text) : Bool :=
  s == ['*'] || anyMark && s == ['?']

namespace Base

/-- Reads a base without a range: the mark for every value or a single numeral. -/
def readSingle? (anyMark : Bool) (s : Text) : Option Base :=
  if s.isAllMark anyMark then some .all
  else (Text.Numeral.read? s).map fun n => .point n

/-- Reads a range between two numerals or two names. -/
def readRange? (s t : Text) : Option Base :=
  match Text.Numeral.read? s, Text.Numeral.read? t with
  | some a, some b => some (.range a b)
  | _, _ => if s.isName && t.isName then some (.namedRange s t) else none

/-- Reads a base. -/
def read? (anyMark : Bool) (s : Text) : Option Base :=
  match s.splitOn '-' with
  | [s] => readSingle? anyMark s
  | [s, t] => readRange? s t
  | _ => none

end Base

namespace Term

/-- Reads a term without a step: a base or a single name. -/
def readPlain? (anyMark : Bool) (s : Text) : Option Term :=
  match Base.read? anyMark s with
  | some b => some (.base b)
  | none => if s.isName then some (.name s) else none

/-- Reads a period from its base and its step, which has to be positive. -/
def readPeriod? (anyMark : Bool) (s k : Text) : Option Term :=
  match Base.read? anyMark s, Text.Numeral.read? k with
  | some b, some step => if 1 ≤ step then some (.period b step) else none
  | _, _ => none

/-- Reads a term. -/
def read? (anyMark : Bool) (s : Text) : Option Term :=
  match s.splitOn '/' with
  | [s] => readPlain? anyMark s
  | [s, k] => readPeriod? anyMark s k
  | _ => none

end Term

namespace Field

/-- Reads a field; white space around it and next to its operators has no meaning. -/
def read? (anyMark : Bool) (s : Text) : Option Field :=
  (((Text.tighten s).splitOn ',').mapM (Term.read? anyMark)).map Field.mk

/-- Reads a field or says that the text is none. -/
def parse (anyMark : Bool) (s : Text) : Except Problem Field :=
  match read? anyMark s with
  | some f => .ok f
  | none => .error (.malformedField s)

end Field
end Timetable
