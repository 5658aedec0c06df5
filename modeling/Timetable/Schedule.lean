import Timetable.Settings

/-!
# Schedules and their occurrences

A schedule is an expression together with its fields.  Its occurrences after an instant are walked
through one by one; the walk remembers the last of them and the limit that was set when it began.
-/

namespace Timetable

/-- An expression and the fields it stands for. -/
structure Schedule where
  source : Text
  fields : Fields

namespace Schedule

/-- The schedule of an expression.  Every rejection names the expression. -/
def parse (expression : Text) : Except Rejection Schedule :=
  match Fields.parse expression with
  | .ok fields => .ok ⟨expression, fields⟩
  | .error r => .error (r.inExpression expression)

/-- Why a schedule does not tell its next occurrence. -/
inductive Failure where
  | setting (error : SettingError)
  | search (error : SearchError)
  deriving DecidableEq, Repr

/-- The first occurrence after an instant, with a limit of its own or that of the environment. -/
def nextAfter (s : Schedule) (env : Environment) (i : Instant) (limit : Option Int) :
    Except Failure (Option Instant) := do
  let limit ← (env.limitFor limit).mapError .setting
  (s.fields.nextAfter i limit).mapError .search

/-- Once there is a limit, the search is that of the fields. -/
theorem nextAfter_of_limitFor {s : Schedule} {env : Environment} {i : Instant} {own : Option Int}
    {limit : Int} (h : env.limitFor own = .ok limit) :
    s.nextAfter env i own = (s.fields.nextAfter i limit).mapError .search := by
  rw [nextAfter, h]
  rfl

/-- Without a limit there is no search. -/
theorem nextAfter_of_limitFor_eq_error {s : Schedule} {env : Environment} {i : Instant}
    {own : Option Int} {e : SettingError} (h : env.limitFor own = .error e) :
    s.nextAfter env i own = .error (.setting e) := by
  rw [nextAfter, h]
  rfl

/-- Whether an instant is an occurrence, leaving its fraction of a second aside. -/
def includes (s : Schedule) (i : Instant) : Bool :=
  s.fields.includes i.clock

instance : BEq Schedule := ⟨fun s t => s.source == t.source && s.fields == t.fields⟩

/-- What tells schedules apart: the source and the key of the fields. -/
def key (s : Schedule) : Text × List AnySelection.Key :=
  (s.source, s.fields.key)

/-- How two schedules compare: by their values and by their keys, with and without the source. -/
structure Comparison where
  equal : Bool
  equalFields : Bool
  sameKey : Bool
  sameFieldsKey : Bool
  deriving DecidableEq, Repr

/-- Compares two schedules. -/
def compare (s t : Schedule) : Comparison where
  equal := s == t
  equalFields := s.fields == t.fields
  sameKey := s.key == t.key
  sameFieldsKey := s.fields.key == t.fields.key

/-- The text of a schedule. -/
def text (s : Schedule) : String :=
  "Schedule(source=" ++ String.ofList (Text.quote s.source) ++ ", fields=" ++ s.fields.text ++ ")"

end Schedule

/-- A walk through the occurrences of a schedule: the instant to go on from, which is missing once
the walk has ended, and the limit of its searches. -/
structure Occurrences where
  schedule : Schedule
  previous : Option Instant
  limit : Int

namespace Occurrences

/-- The next occurrence, and the walk from there on, which is the same after an error. -/
def next (o : Occurrences) : Except SearchError (Option Instant) × Occurrences :=
  match o.previous with
  | none => (.ok none, o)
  | some i =>
    match o.schedule.fields.nextAfter i o.limit with
    | .ok result => (.ok result, { o with previous := result })
    | .error e => (.error e, o)

/-- The next `n` occurrences, or those that there are, and the walk from there on. -/
def take : Nat → Occurrences → Except SearchError (List Instant) × Occurrences
  | 0, o => (.ok [], o)
  | n + 1, o =>
    match o.next with
    | (.error e, o) => (.error e, o)
    | (.ok none, o) => (.ok [], o)
    | (.ok (some i), o) =>
      let (rest, o) := take n o
      (rest.map (i :: ·), o)

/-- A walk that has ended stays so. -/
theorem next_of_ended {o : Occurrences} (h : o.previous = none) : o.next = (.ok none, o) := by
  simp [next, h]

/-- A walk keeps its schedule. -/
@[simp] theorem schedule_next (o : Occurrences) : o.next.2.schedule = o.schedule := by
  simp only [next]
  split
  · rfl
  · split <;> rfl

/-- A walk keeps its limit. -/
@[simp] theorem limit_next (o : Occurrences) : o.next.2.limit = o.limit := by
  simp only [next]
  split
  · rfl
  · split <;> rfl

variable {s : Schedule} {i : Instant} {limit : Int}

/-- A walk goes on with what its search answers. -/
theorem next_of_nextAfter {answer : Option Instant} (h : s.fields.nextAfter i limit = .ok answer) :
    (⟨s, some i, limit⟩ : Occurrences).next = (.ok answer, ⟨s, answer, limit⟩) := by
  simp only [next, h]

/-- A walk whose search fails stays as it is. -/
theorem next_of_error {e : SearchError} (h : s.fields.nextAfter i limit = .error e) :
    (⟨s, some i, limit⟩ : Occurrences).next = (.error e, ⟨s, some i, limit⟩) := by
  simp only [next, h]

end Occurrences

namespace Schedule

/-- The occurrences after an instant; the limit of the searches is that of the environment now. -/
def upcoming (s : Schedule) (env : Environment) (start : Instant) :
    Except SettingError Occurrences :=
  env.yearLimit.map fun limit => ⟨s, some start, limit⟩

end Schedule
end Timetable
