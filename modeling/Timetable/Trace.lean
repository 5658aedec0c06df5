import Timetable.Schedule

/-!
# Tracing

A trace explains how an expression was resolved and why a search found nothing, one entry at a
time.  Entries are kept at the level `debug` only.  A traced run goes through the same steps as the
plain one and has the same outcome, unless a trace would have to tell of a term that cannot be
written.

## Main definitions

* `Trace.Entry`, `Trace.Entry.text`: what a trace says.
* `Traced`: an outcome together with the entries on the way to it.
* `Schedule.parseTraced`, `Schedule.nextAfterTraced`: reading and searching with a trace.
-/

namespace Timetable

/-! ## Entries -/

namespace Base

/-- The text of a base in a trace. -/
def text : Base → String
  | all => "CronAll()"
  | point value => s!"CronPoint(value={value})"
  | range first last => s!"CronRange(start={first}, end={last})"
  | namedRange first last =>
    "CronNamedRange(start=" ++ String.ofList (Text.quote first) ++ ", end=" ++
      String.ofList (Text.quote last) ++ ")"

end Base

namespace Term

/-- The text of a term in a trace. -/
def text : Term → String
  | base b => b.text
  | name s => "CronNamedPoint(name=" ++ String.ofList (Text.quote s) ++ ")"
  | period b step => s!"CronPeriod(base={b.text}, step={step})"

end Term

namespace Trace

/-- How much a trace keeps. -/
inductive Level where
  | debug
  | info
  deriving DecidableEq, Repr

/-- The level that the environment sets. -/
def Level.ofEnvironment (env : Environment) : Level :=
  if env.traces then debug else info

/-- What a trace says. -/
inductive Entry where
  /-- A term was resolved to these ordinals. -/
  | resolved (unit : TimeUnit) (term : Term) (ordinals : List Int)
  /-- An expression was rejected. -/
  | rejected (expression : Text) (problem : Problem)
  /-- A search stopped before this year. -/
  | gaveUp (limit : Int) (year : Int)
  /-- A search has tried all selected years from this one on. -/
  | exhausted (year : Int)
  deriving DecidableEq, Repr

/-- The wording of an entry. -/
def Entry.text : Entry → String
  | resolved unit term ordinals =>
    unit.label ++ ": " ++ term.text ++ " resolves to " ++ Ordinals.listing ordinals
  | rejected expression problem =>
    "Rejected cron expression " ++ String.ofList (Text.quote expression) ++ ": " ++
      problem.report.message
  | gaveUp limit year => s!"No match within {limit} searched years, giving up at {year}"
  | exhausted year => s!"No match on or after year {year}"

/-- The entries that a level keeps. -/
def Level.keep : Level → List Entry → List Entry
  | debug, entries => entries
  | info, _ => []

@[simp] theorem Level.keep_debug (entries : List Entry) : debug.keep entries = entries := rfl

@[simp] theorem Level.keep_info (entries : List Entry) : info.keep entries = [] := rfl

@[simp] theorem Level.keep_nil (level : Level) : level.keep [] = [] := by
  cases level <;> rfl

theorem Level.keep_append (level : Level) (entries others : List Entry) :
    level.keep (entries ++ others) = level.keep entries ++ level.keep others := by
  cases level <;> rfl

end Trace

/-! ## Traced runs -/

/-- The outcome of a run together with the entries on the way to it. -/
structure Traced (α : Type) where
  outcome : Except Problem α
  entries : List Trace.Entry

namespace Traced

instance : Monad Traced where
  pure a := ⟨.ok a, []⟩
  bind x f :=
    match x.outcome with
    | .error problem => ⟨.error problem, x.entries⟩
    | .ok a => ⟨(f a).outcome, x.entries ++ (f a).entries⟩

/-- A run without entries. -/
def lift {α : Type} (outcome : Except Problem α) : Traced α :=
  ⟨outcome, []⟩

/-- A run that only makes an entry, if the level keeps it. -/
def note (level : Trace.Level) (entry : Trace.Entry) : Traced Unit :=
  ⟨.ok (), level.keep [entry]⟩

variable {α β : Type}

@[simp] theorem outcome_pure (a : α) : (pure a : Traced α).outcome = .ok a := rfl

@[simp] theorem entries_pure (a : α) : (pure a : Traced α).entries = [] := rfl

@[simp] theorem outcome_lift (x : Except Problem α) : (lift x).outcome = x := rfl

@[simp] theorem entries_lift (x : Except Problem α) : (lift x).entries = [] := rfl

@[simp] theorem outcome_note (level : Trace.Level) (e : Trace.Entry) :
    (note level e).outcome = .ok () := rfl

@[simp] theorem entries_note (level : Trace.Level) (e : Trace.Entry) :
    (note level e).entries = level.keep [e] := rfl

/-- The outcomes of two runs in sequence do not depend on their entries. -/
@[simp] theorem outcome_bind (x : Traced α) (f : α → Traced β) :
    (x >>= f).outcome = x.outcome >>= fun a => (f a).outcome := by
  obtain ⟨outcome, entries⟩ := x
  cases outcome <;> rfl

/-- The entries of the second run follow those of the first, unless that has failed. -/
theorem entries_bind (x : Traced α) (f : α → Traced β) :
    (x >>= f).entries =
      x.entries ++ match x.outcome with
        | .ok a => (f a).entries
        | .error _ => [] := by
  obtain ⟨outcome, entries⟩ := x
  cases outcome with
  | ok a => rfl
  | error problem => exact (List.append_nil entries).symm

/-- Entries of runs in sequence stand in sequence, however the runs are grouped. -/
instance : LawfulMonad Traced := LawfulMonad.mk' Traced
  (by
    intro α x
    obtain ⟨outcome, entries⟩ := x
    cases outcome
    · rfl
    · exact congrArg (Traced.mk _) (List.append_nil entries))
  (fun _ _ => rfl)
  (by
    intro α β γ x f g
    obtain ⟨outcome, entries⟩ := x
    cases outcome with
    | error problem => rfl
    | ok a =>
      simp only [bind]
      cases (f a).outcome <;> simp)

end Traced

/-- Resolves a term and notes the ordinals it stands for.  A term that cannot be written is an error
where the entry would be kept. -/
def Term.ordinalsTraced (level : Trace.Level) (u : TimeUnit) (t : Term) : Traced (List Int) := do
  let ordinals ← Traced.lift (t.ordinals u)
  if level = .info ∨ t.Writable then
    Traced.note level (.resolved u t (Ordinals.ascending ordinals))
    pure ordinals
  else
    Traced.lift (.error (.unwritable t))

/-- Resolves a field and notes its terms, unless it is unrestricted. -/
def Selection.ofFieldTraced (level : Trace.Level) (u : TimeUnit) (f : Field) :
    Traced (Selection u) :=
  if f.isAll then pure .every
  else do
    let lists ← f.terms.mapM (Term.ordinalsTraced level u)
    Traced.lift (Selection.ofLists u lists)

/-- Resolves the fields of an expression and notes their terms. -/
def Fields.ofFieldListTraced (level : Trace.Level) (fields : List Field) : Traced Fields := do
  let fieldOf ← Traced.lift (Fields.arrange fields)
  Fields.collect fun u => Selection.ofFieldTraced level u (fieldOf u)

/-- Reads and resolves an expression, and notes the terms and a rejection. -/
def Schedule.parseTraced (level : Trace.Level) (expression : Text) :
    Except Rejection Schedule × List Trace.Entry :=
  let run : Traced Fields := do
    let fields ← Traced.lift (Expression.read expression)
    Fields.ofFieldListTraced level fields
  match run.outcome with
  | .ok fields => (.ok ⟨expression, fields⟩, run.entries)
  | .error problem =>
    (.error ⟨problem, some expression⟩, run.entries ++ level.keep [.rejected expression problem])

/-- What a trace says of the end of a search. -/
def Search.Outcome.entries (limit : Int) : Search.Outcome → List Trace.Entry
  | found _ => []
  | noLaterSecond => []
  | untold _ => []
  | gaveUp year => [.gaveUp limit year]
  | exhausted year => [.exhausted year]

/-- Searches, and notes why nothing was found. -/
def Fields.nextAfterTraced (level : Trace.Level) (F : Fields) (i : Instant) (limit : Int) :
    Except SearchError (Option Instant) × List Trace.Entry :=
  match F.search i limit with
  | .ok outcome => (outcome.answer, level.keep (outcome.entries limit))
  | .error error => (.error (.calendar error), [])

/-- The first occurrence after an instant, and why there is none.  The entries tell the limit that
the search has had, its own or that of the environment. -/
def Schedule.nextAfterTraced (level : Trace.Level) (s : Schedule) (env : Environment)
    (i : Instant) (limit : Option Int) :
    Except Schedule.Failure (Option Instant) × List Trace.Entry :=
  match env.limitFor limit with
  | .ok limit =>
    let (answer, entries) := s.fields.nextAfterTraced level i limit
    (answer.mapError .search, entries)
  | .error error => (.error (.setting error), [])

end Timetable
