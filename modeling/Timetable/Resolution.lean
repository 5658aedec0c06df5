import Timetable.Problem

/-!
# Resolution of terms

Against a time unit a term stands for a list of ordinals.  A term that names an ordinal outside
the domain, an unknown name, or a range that starts after it ends has none and is a problem.
-/

namespace Timetable

namespace TimeUnit

/-- An ordinal of the unit, checked.  The problem names the integer that is refused, whether or not
its report can (`Problem.report`). -/
def check (u : TimeUnit) (n : Int) : Except Problem Int :=
  if u.Holds n then .ok n else .error (.outOfRange u n)

/-- The ordinal that a name stands for, checked. -/
def ordinalOfName (u : TimeUnit) (name : Text) : Except Problem Int :=
  match u.ordinalOfName? name with
  | some n => .ok n
  | none => .error (.unknownName u name)

/-- The ordinals of a range; its ends are checked before their order. -/
def span (u : TimeUnit) (first last : Int) : Except Problem (List Int) := do
  let first ← u.check first
  let last ← u.check last
  if last < first then .error (.rangeOrder u first last)
  else .ok (Ordinals.interval first last)

theorem check_eq_ok_iff {u : TimeUnit} {n m : Int} : u.check n = .ok m ↔ u.Holds n ∧ m = n := by
  simp only [check]
  split <;> simp_all [eq_comm]

end TimeUnit

namespace Base

/-- The ordinals that a base stands for. -/
def ordinals (u : TimeUnit) : Base → Except Problem (List Int)
  | all => .ok u.domain
  | point value => do
    let value ← u.check value
    .ok [value]
  | range first last => u.span first last
  | namedRange first last => do
    let first ← u.ordinalOfName first
    let last ← u.ordinalOfName last
    u.span first last

/-- The ordinals that a period over a base steps through: those of the base, and after a single
value all that follow it in the domain. -/
def reach (u : TimeUnit) : Base → Except Problem (List Int)
  | point value => do
    let value ← u.check value
    .ok (Ordinals.interval value u.hi)
  | base => base.ordinals u

/-- Steps through the reach of a base.  A negative step walks backwards from the last ordinal, and
from a single value it goes nowhere. -/
def step (base : Base) (reach : List Int) (step : Int) : Except Problem (List Int) :=
  if step = 0 then .error (.zeroStep base)
  else if 0 < step then .ok (Ordinals.everyNth step.toNat reach)
  else if base.isPoint then .ok []
  else .ok (Ordinals.everyNth (-step).toNat reach.reverse)

end Base

namespace Term

/-- The ordinals that a term stands for. -/
def ordinals (u : TimeUnit) : Term → Except Problem (List Int)
  | base b => b.ordinals u
  | name s => do
    let n ← u.ordinalOfName s
    let n ← u.check n
    .ok [n]
  | period b k => do
    let reach ← b.reach u
    b.step reach k

end Term
end Timetable
