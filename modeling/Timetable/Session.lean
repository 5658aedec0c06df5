import Timetable.Schedule

/-!
# Sessions

A session keeps named schedules and named walks through occurrences, and an environment that may
change between its steps.  A step either answers and leaves a new session, or fails and leaves the
session as it was.
-/

namespace Timetable

/-- Named schedules, named walks, and the environment. -/
structure Session where
  environment : Environment
  schedules : List (String × Schedule)
  walks : List (String × Occurrences)

namespace Session

/-- The session at its beginning. -/
def start (environment : Environment) : Session :=
  ⟨environment, [], []⟩

/-- What may be done in a session. -/
inductive Step where
  /-- Keeps the schedule of an expression. -/
  | parse (name : String) (expression : Text)
  /-- Keeps a schedule with a source of its own. -/
  | make (name : String) (source expression : Text)
  /-- Changes the environment. -/
  | setEnvironment (environment : Environment)
  /-- Keeps a walk through the occurrences of a schedule after an instant. -/
  | walkFrom (walk schedule : String) (start : Instant)
  /-- Keeps a walk from the present, given in universal time, in the zone with an offset. -/
  | walkFromNow (walk schedule : String) (now : Instant) (offset : Int)
  /-- Goes on with a walk. -/
  | take (walk : String) (n : Nat)
  /-- Asks for the source of the schedule of a walk. -/
  | sourceOfWalk (walk : String)
  /-- Searches once, with a limit of its own or that of the environment. -/
  | nextAfter (schedule : String) (start : Instant) (limit : Option Int)
  /-- Asks whether an instant is an occurrence. -/
  | includes (schedule : String) (instant : Instant)
  /-- Asks for one selection. -/
  | selection (schedule : String) (unit : TimeUnit)
  /-- Asks for the source of a schedule. -/
  | source (schedule : String)
  /-- Asks for the text of a schedule. -/
  | text (schedule : String)
  /-- Compares two schedules. -/
  | compare (first second : String)

/-- What a step answers. -/
inductive Answer where
  | nothing
  | fields (fields : Fields)
  | text (text : String)
  | instants (instants : List Instant)
  | instant (instant : Option Instant)
  | truth (truth : Bool)
  | selection (selection : AnySelection)
  | comparison (comparison : Schedule.Comparison)

/-- Why a step fails. -/
inductive Failure where
  | rejection (rejection : Rejection)
  | setting (error : SettingError)
  | search (error : SearchError)
  | unknownName (name : String)
  | noSuchClock
  deriving DecidableEq

/-- The failure of a step that is that of a schedule. -/
def Failure.ofSchedule : Schedule.Failure → Failure
  | .setting error => setting error
  | .search error => search error

/-- Keeps a value under a name, in the place of an earlier one. -/
def keep {α : Type} (name : String) (value : α) (named : List (String × α)) : List (String × α) :=
  (name, value) :: named.filter (·.1 != name)

/-- The value with a name. -/
def find {α : Type} (named : List (String × α)) (name : String) : Except Failure α :=
  match named.lookup name with
  | some value => .ok value
  | none => .error (.unknownName name)

/-- Begins a walk through the occurrences of a schedule. -/
def beginWalk (s : Session) (walk schedule : String) (start : Instant) :
    Except Failure (Answer × Session) := do
  let schedule ← find s.schedules schedule
  let occurrences ← (schedule.upcoming s.environment start).mapError Failure.setting
  .ok (.nothing, { s with walks := keep walk occurrences s.walks })

/-- The answer of a step and the session after it. -/
def perform (s : Session) : Step → Except Failure (Answer × Session)
  | .parse name expression => do
    let schedule ← (Schedule.parse expression).mapError Failure.rejection
    .ok (.fields schedule.fields, { s with schedules := keep name schedule s.schedules })
  | .make name source expression => do
    let fields ← (Fields.parse expression).mapError Failure.rejection
    .ok (.text (String.ofList source),
      { s with schedules := keep name ⟨source, fields⟩ s.schedules })
  | .setEnvironment environment => .ok (.nothing, { s with environment })
  | .walkFrom walk schedule start => s.beginWalk walk schedule start
  | .walkFromNow walk schedule now offset =>
    match now.inZone? offset with
    | some start => s.beginWalk walk schedule start
    | none => .error .noSuchClock
  | .take walk n => do
    let occurrences ← find s.walks walk
    let (instants, occurrences) := occurrences.take n
    let instants ← instants.mapError Failure.search
    .ok (.instants instants, { s with walks := keep walk occurrences s.walks })
  | .sourceOfWalk walk => do
    let occurrences ← find s.walks walk
    .ok (.text (String.ofList occurrences.schedule.source), s)
  | .nextAfter schedule start limit => do
    let schedule ← find s.schedules schedule
    let instant ← (schedule.nextAfter s.environment start limit).mapError Failure.ofSchedule
    .ok (.instant instant, s)
  | .includes schedule instant => do
    let schedule ← find s.schedules schedule
    .ok (.truth (schedule.includes instant), s)
  | .selection schedule unit => do
    let schedule ← find s.schedules schedule
    .ok (.selection ⟨unit, schedule.fields.get unit⟩, s)
  | .source schedule => do
    let schedule ← find s.schedules schedule
    .ok (.text (String.ofList schedule.source), s)
  | .text schedule => do
    let schedule ← find s.schedules schedule
    .ok (.text schedule.text, s)
  | .compare first second => do
    let first ← find s.schedules first
    let second ← find s.schedules second
    .ok (.comparison (first.compare second), s)

/-- The result of a step and the session after it, which is the same after a failure. -/
def step (s : Session) (action : Step) : Except Failure Answer × Session :=
  match s.perform action with
  | .ok (answer, s) => (.ok answer, s)
  | .error failure => (.error failure, s)

/-- The results of steps in sequence, and the session after them. -/
def steps (s : Session) : List Step → List (Except Failure Answer) × Session
  | [] => ([], s)
  | action :: actions =>
    let (result, s) := s.step action
    let (results, s) := s.steps actions
    (result :: results, s)

end Session
end Timetable
