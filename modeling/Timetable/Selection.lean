import Timetable.Resolution

/-!
# Selections

A selection holds the ordinals of one unit that a timetable admits: every one of them, or a listed
set.  All views of a selection agree with `includes`, whichever of the two forms it has.

## Main definitions

* `OrdinalSet`: a non-empty ascending list of ordinals of a unit.
* `Selection`: every ordinal, or those of a set.
* `Selection.ofOrdinals`, `Selection.ofField`: the ways to build one.
* `AnySelection`: a selection together with its unit.
-/

namespace Timetable

/-- A non-empty set of ordinals of a unit, as an ascending list. -/
structure OrdinalSet (u : TimeUnit) where
  values : List Int
  ascending : values.Pairwise (· < ·)
  nonempty : values ≠ []
  holds : ∀ n ∈ values, u.Holds n

/-- The ordinals of a unit that a timetable admits. -/
inductive Selection (u : TimeUnit) where
  /-- Every ordinal of the unit. -/
  | every
  /-- The ordinals of a set, which may be the whole domain. -/
  | only (set : OrdinalSet u)

namespace Selection

variable {u : TimeUnit}

/-! ## Building a selection -/

/-- Selects the ordinals that occur in any of the lists.  None at all is a problem, and so is an
ordinal outside the domain, of which the first is named, whether or not the report of the problem
can name it too (`Problem.report`). -/
def ofLists (u : TimeUnit) (lists : List (List Int)) : Except Problem (Selection u) :=
  match hout : lists.flatten.find? fun n => !decide (u.Holds n) with
  | some n => .error (.outOfRange u n)
  | none =>
    if hne : Ordinals.gather lists = [] then .error (.emptySelection u)
    else .ok (.only
      { values := Ordinals.gather lists
        ascending := Ordinals.pairwise_gather lists
        nonempty := hne
        holds := fun n hn => by
          obtain ⟨xs, hxs, hn⟩ := Ordinals.mem_gather.1 hn
          simpa using List.find?_eq_none.1 hout n (List.mem_flatten.2 ⟨xs, hxs, hn⟩) })

/-- Selects the given ordinals, in any order and with any repetition. -/
def ofOrdinals (u : TimeUnit) (ordinals : List Int) : Except Problem (Selection u) :=
  ofLists u [ordinals]

/-- Selects one ordinal. -/
def ofOrdinal (u : TimeUnit) (n : Int) : Except Problem (Selection u) :=
  ofOrdinals u [n]

/-- Selects what the terms of a field stand for; an unrestricted field selects every ordinal. -/
def ofField (u : TimeUnit) (f : Field) : Except Problem (Selection u) :=
  if f.isAll then .ok .every
  else do
    let lists ← f.terms.mapM (Term.ordinals u)
    ofLists u lists

/-! ## Views -/

/-- Whether an integer is a selected ordinal. -/
def includes : Selection u → Int → Bool
  | every, n => decide (u.Holds n)
  | only set, n => set.values.contains n

/-- The selected ordinals, ascending. -/
def toList : Selection u → List Int
  | every => u.domain
  | only set => set.values

/-- The number of selected ordinals. -/
def count : Selection u → Nat
  | every => u.size
  | only set => set.values.length

/-- Whether the whole domain is selected, which is decided by counting. -/
def isAll : Selection u → Bool
  | every => true
  | only set => set.values.length == u.size

/-- Whether the ordinals are listed. -/
def isListed : Selection u → Bool
  | every => false
  | only _ => true

/-- The selected ordinals from `a` up to and including `b`, ascending. -/
def range : Selection u → Int → Int → List Int
  | every, a, b => Ordinals.interval (max a u.lo) (min b u.hi)
  | only set, a, b => (set.values.dropWhile (· < a)).takeWhile (· ≤ b)

/-- The selected ordinals one after the other: the window from one end of the domain to the
other. -/
def iterate (s : Selection u) : List Int :=
  s.range u.lo u.hi

/-- Whether a value is a selected ordinal, which a value that is no integer never is. -/
def contains (s : Selection u) (value : Option Int) : Bool :=
  value.elim false s.includes

/-- The text of a selection. -/
def text (s : Selection u) : String :=
  if s.isAll then s!"{u.word}(all)" else s!"{u.word}({Ordinals.listing s.toList})"

@[simp] theorem mem_toList {s : Selection u} {n : Int} : n ∈ s.toList ↔ s.includes n = true := by
  cases s <;> simp [toList, includes]

theorem pairwise_toList (s : Selection u) : s.toList.Pairwise (· < ·) := by
  cases s with
  | every => exact u.pairwise_domain
  | only set => exact set.ascending

@[simp] theorem length_toList (s : Selection u) : s.toList.length = s.count := by
  cases s <;> simp [toList, count]

/-- What is selected lies in the domain. -/
theorem holds_of_includes {s : Selection u} {n : Int} (h : s.includes n = true) : u.Holds n := by
  cases s with
  | every => simpa [includes] using h
  | only set => exact set.holds n (by simpa [includes] using h)

end Selection

/-! ## Selections of any unit -/

/-- A selection together with its unit. -/
structure AnySelection where
  unit : TimeUnit
  selection : Selection unit

namespace AnySelection

/-- What tells selections apart: the unit and, unless all of them are selected, the ordinals. -/
structure Key where
  unit : TimeUnit
  ordinals : Option (List Int)
  deriving DecidableEq, Repr

/-- The key of a selection. -/
def key (s : AnySelection) : Key :=
  ⟨s.unit, if s.selection.isAll then none else some s.selection.toList⟩

/-- Selections are equal when they are of one unit and both select all of it or the same
ordinals. -/
def same (s t : AnySelection) : Bool :=
  s.unit == t.unit &&
    ((s.selection.isAll && t.selection.isAll) || s.selection.toList == t.selection.toList)

instance : BEq AnySelection := ⟨same⟩

end AnySelection

/-- Selections of one unit are compared as selections of any unit. -/
instance {u : TimeUnit} : BEq (Selection u) := ⟨fun s t => AnySelection.same ⟨u, s⟩ ⟨u, t⟩⟩

end Timetable
