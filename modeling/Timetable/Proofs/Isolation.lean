import Timetable.Proofs.Integers
import Timetable.Proofs.Occurrences
import Timetable.Session
import Mathlib.Data.List.SplitLengths

/-!
# Walks apart from each other

The walks of a session share nothing.  Each of them has its schedule and the limit that was in
force when it began, and whatever is done in between, it gives what it would give if nothing else
were done.  The environment is looked at when a walk begins and when a search is asked for without
a limit, and at no other time; where it cannot be read just these steps fail, and they leave no
trace.

## Main definitions

* `Occurrences.Gives`: a walk gives the instants of a list, and then nothing any more.
* `Session.Effect`: what a step that answers does to a session.
* `Session.Continues`: a walk of a session gives the instants of a list, whatever else is done.

## Main statements

* `Session.effect_of_perform`: every step that answers has one of five effects.
* `Session.resultsOf_history`: the answers of one walk are the pieces of what it gives alone.
* `Session.walks_isolated`: walks, searches and failures against the environment in force.
-/

namespace Timetable

/-! ## Walks that are advanced by pieces -/

namespace Occurrences

variable {o : Occurrences} {ts : List Instant}

/-- A walk gives the instants of a list one by one, and then nothing any more. -/
def Gives (o : Occurrences) (ts : List Instant) : Prop :=
  ∀ n, o.call n = .ok ts[n]?

theorem gives_iff : o.Gives ts ↔ o.next.1 = .ok ts.head? ∧ o.next.2.Gives ts.tail := by
  rw [List.head?_eq_getElem?]
  constructor
  · exact fun h => ⟨h 0, fun n => by rw [List.getElem?_tail]; exact h (n + 1)⟩
  · intro h n
    cases n with
    | zero => exact h.1
    | succ n => simpa using h.2 n

theorem take_succ (o : Occurrences) (n : Nat) : o.take (n + 1) =
    match o.next.1 with
    | .error e => (.error e, o.next.2)
    | .ok none => (.ok [], o.next.2)
    | .ok (some i) => ((o.next.2.take n).1.map (i :: ·), (o.next.2.take n).2) := by
  rw [take]
  rcases o.next with ⟨_ | _ | i, o'⟩ <;> rfl

/-- A walk gives its instants in pieces as it gives them one by one. -/
theorem Gives.take (h : o.Gives ts) (n : Nat) :
    (o.take n).1 = .ok (ts.take n) ∧ (o.take n).2.Gives (ts.drop n) := by
  induction n generalizing o ts with
  | zero => exact ⟨rfl, h⟩
  | succ n ih =>
    obtain ⟨hfirst, hnext⟩ := gives_iff.1 h
    rw [take_succ, hfirst]
    cases ts with
    | nil => exact ⟨rfl, hnext⟩
    | cons i ts =>
      obtain ⟨hpiece, hrest⟩ := ih hnext
      exact ⟨congrArg (Except.map (i :: ·)) hpiece, hrest⟩

/-- A walk gives its instants or fails at once, and then it stays as it is. -/
theorem gives_or_next_of_error (o : Occurrences) :
    (∃ ts, o.Gives ts) ∨ ∃ e, o.next = (.error e, o) := by
  obtain ⟨s, _ | i, limit⟩ := o
  · exact .inl ⟨[], call_of_ended rfl⟩
  · cases hnext : s.fields.nextAfter i limit with
    | error e => exact .inr ⟨e, next_of_error hnext⟩
    | ok answer =>
      obtain ⟨ts, hrun⟩ := Fields.exists_run_of_nextAfter hnext
      exact .inl ⟨ts, hrun.call_eq⟩

/-- No instant is lost when a walk fails to give as many as it is asked for. -/
theorem take_of_error {e : SearchError} {n : Nat} (h : (o.take n).1 = .error e) :
    o.take n = (.error e, o) := by
  rcases gives_or_next_of_error o with ⟨ts, hgives⟩ | ⟨e', hnext⟩
  · rw [(hgives.take n).1] at h
    cases h
  · cases n with
    | zero => cases h
    | succ n =>
      rw [take_succ, hnext] at h ⊢
      cases h
      rfl

end Occurrences

namespace Session

/-! ## Names -/

section Names

variable {α : Type} {named : List (String × α)} {name other : String} {value : α}

theorem find_keep_self : find (keep name value named) name = .ok value := by
  simp [find, keep]

theorem lookup_filter_of_ne (h : other ≠ name) :
    (named.filter (·.1 != name)).lookup other = named.lookup other := by
  induction named with
  | nil => rfl
  | cons entry named ih =>
    by_cases hentry : entry.1 = name
    · have hother : (other == entry.1) = false := by simpa [hentry] using h
      rw [List.filter_cons_of_neg (by simpa using hentry), ih, List.lookup_cons, hother]
    · rw [List.filter_cons_of_pos (by simpa using hentry), List.lookup_cons, List.lookup_cons, ih]

theorem find_keep_of_ne (h : other ≠ name) :
    find (keep name value named) other = find named other := by
  have hother : (other == name) = false := by simpa using h
  rw [find, find, keep, List.lookup_cons, hother, lookup_filter_of_ne h]

end Names

/-! ## What steps are about -/

namespace Step

/-- The walk that a step begins, the schedule, and the instant that the walk begins from. -/
def begins? : Step → Option (String × String × Instant)
  | walkFrom walk schedule start => some (walk, schedule, start)
  | walkFromNow walk schedule now offset =>
    (now.inZone? offset).map fun start => (walk, schedule, start)
  | _ => none

/-- How many instants a step asks a walk for. -/
def asks? (walk : String) : Step → Option Nat
  | take name n => if name = walk then some n else none
  | _ => none

/-- The environment that a step sets. -/
def sets? : Step → Option Environment
  | setEnvironment environment => some environment
  | _ => none

/-- The schedule for which a step needs the limit of the environment. -/
def consults? : Step → Option String
  | nextAfter schedule _ none => some schedule
  | action => action.begins?.map fun begun => begun.2.1

theorem asks?_eq_some_iff {action : Step} {walk : String} {n : Nat} :
    action.asks? walk = some n ↔ action = take walk n := by
  cases action with
  | take name m => simp [asks?]
  | _ => simp [asks?]

end Step

/-! ## One step -/

variable {s s' : Session} {action : Step} {answer : Answer} {walk schedule : String}
  {start : Instant} {o : Occurrences} {ts : List Instant}

/-- What a step that answers does to a session. -/
inductive Effect (s : Session) : Step → Answer → Session → Prop where
  | nothing {action : Step} {answer : Answer} (hsets : action.sets? = none)
      (hasks : ∀ walk, action.asks? walk = none) : Effect s action answer s
  | schedule {action : Step} {answer : Answer} (hsets : action.sets? = none)
      (hasks : ∀ walk, action.asks? walk = none) (name : String) (t : Schedule) :
      Effect s action answer { s with schedules := keep name t s.schedules }
  | environment (environment : Environment) :
      Effect s (.setEnvironment environment) .nothing { s with environment }
  | begin {action : Step} {walk schedule : String} {start : Instant} {t : Schedule} {limit : Int}
      (hbegins : action.begins? = some (walk, schedule, start))
      (hschedule : find s.schedules schedule = .ok t)
      (hlimit : s.environment.yearLimit = .ok limit) :
      Effect s action .nothing { s with walks := keep walk ⟨t, some start, limit⟩ s.walks }
  | take {walk : String} {o : Occurrences} {instants : List Instant} (n : Nat)
      (hwalk : find s.walks walk = .ok o) (hinstants : (o.take n).1 = .ok instants) :
      Effect s (.take walk n) (.instants instants)
        { s with walks := keep walk (o.take n).2 s.walks }

theorem perform_of_begins? (h : action.begins? = some (walk, schedule, start)) :
    s.perform action = s.beginWalk walk schedule start := by
  cases action with
  | walkFrom =>
    cases h
    rfl
  | walkFromNow walk schedule now offset =>
    obtain ⟨start, hstart, h⟩ := Option.map_eq_some_iff.1 h
    cases h
    simp only [perform, hstart]
  | _ => cases h

/-- A walk begins when the schedule is known and the limit of the environment can be read. -/
theorem beginWalk_eq_ok_iff : s.beginWalk walk schedule start = .ok (answer, s') ↔
    ∃ t limit, find s.schedules schedule = .ok t ∧ s.environment.yearLimit = .ok limit ∧
      answer = .nothing ∧ s' = { s with walks := keep walk ⟨t, some start, limit⟩ s.walks } := by
  simp only [beginWalk, bind_eq_ok_iff, mapError_eq_ok_iff, Schedule.upcoming]
  constructor
  · rintro ⟨t, ht, o, ho, h⟩
    cases hlimit : s.environment.yearLimit with
    | error e => simp [hlimit, Except.map] at ho
    | ok limit =>
      rw [hlimit] at ho
      cases ho
      cases h
      exact ⟨t, limit, ht, rfl, rfl, rfl⟩
  · rintro ⟨t, limit, ht, hlimit, rfl, rfl⟩
    exact ⟨t, ht, _, by rw [hlimit]; rfl, rfl⟩

theorem effect_of_beginWalk (hbegins : action.begins? = some (walk, schedule, start))
    (h : s.beginWalk walk schedule start = .ok (answer, s')) : Effect s action answer s' := by
  obtain ⟨t, limit, ht, hlimit, rfl, rfl⟩ := beginWalk_eq_ok_iff.1 h
  exact .begin hbegins ht hlimit

/-- Every step that answers has one of the effects. -/
theorem effect_of_perform (h : s.perform action = .ok (answer, s')) :
    Effect s action answer s' := by
  cases action with
  | parse name expression =>
    obtain ⟨t, -, h⟩ := bind_eq_ok_iff.1 h
    cases h
    exact .schedule rfl (fun _ => rfl) name t
  | make name source expression =>
    obtain ⟨fields, -, h⟩ := bind_eq_ok_iff.1 h
    cases h
    exact .schedule rfl (fun _ => rfl) name ⟨source, fields⟩
  | setEnvironment environment =>
    cases h
    exact .environment environment
  | walkFrom walk schedule start => exact effect_of_beginWalk rfl h
  | walkFromNow walk schedule now offset =>
    simp only [perform] at h
    split at h
    · rename_i start hstart
      exact effect_of_beginWalk (by simp [Step.begins?, hstart]) h
    · cases h
  | take walk n =>
    obtain ⟨o, ho, h⟩ := bind_eq_ok_iff.1 h
    obtain ⟨instants, hinstants, h⟩ := bind_eq_ok_iff.1 h
    cases h
    exact .take n ho (mapError_eq_ok_iff.1 hinstants)
  | nextAfter schedule start limit =>
    obtain ⟨t, -, h⟩ := bind_eq_ok_iff.1 h
    obtain ⟨instant, -, h⟩ := bind_eq_ok_iff.1 h
    cases h
    exact .nothing rfl fun _ => rfl
  | compare first second =>
    obtain ⟨t, -, h⟩ := bind_eq_ok_iff.1 h
    obtain ⟨t', -, h⟩ := bind_eq_ok_iff.1 h
    cases h
    exact .nothing rfl fun _ => rfl
  | _ =>
    obtain ⟨t, -, h⟩ := bind_eq_ok_iff.1 h
    cases h
    exact .nothing rfl fun _ => rfl

/-- A step fails and leaves the session as it was, or answers and has one of the effects. -/
theorem step_cases (s : Session) (action : Step) :
    (∃ failure, s.perform action = .error failure ∧ s.step action = (.error failure, s)) ∨
      ∃ answer s', Effect s action answer s' ∧ s.step action = (.ok answer, s') := by
  rw [step]
  cases h : s.perform action with
  | ok result => exact .inr ⟨result.1, result.2, effect_of_perform h, rfl⟩
  | error failure => exact .inl ⟨failure, rfl, rfl⟩

theorem step_of_perform (h : s.perform action = .ok (answer, s')) :
    s.step action = (.ok answer, s') := by
  rw [step, h]

theorem step_eq_error_iff {failure : Failure} :
    (s.step action).1 = .error failure ↔ s.perform action = .error failure := by
  rw [step]
  cases s.perform action <;> simp

/-- Beginning a walk, where that is possible. -/
theorem step_of_begins? {t : Schedule} {limit : Int}
    (hbegins : action.begins? = some (walk, schedule, start))
    (hschedule : find s.schedules schedule = .ok t) (hlimit : s.environment.yearLimit = .ok limit) :
    s.step action =
      (.ok .nothing, { s with walks := keep walk ⟨t, some start, limit⟩ s.walks }) := by
  apply step_of_perform
  rw [perform_of_begins? hbegins]
  exact beginWalk_eq_ok_iff.2 ⟨t, limit, hschedule, hlimit, rfl, rfl⟩

theorem step_take {instants : List Instant} {n : Nat} (h : find s.walks walk = .ok o)
    (hinstants : (o.take n).1 = .ok instants) : s.step (.take walk n) =
      (.ok (.instants instants), { s with walks := keep walk (o.take n).2 s.walks }) := by
  refine step_of_perform (bind_eq_ok_iff.2 ⟨o, h, bind_eq_ok_iff.2 ⟨instants, ?_, rfl⟩⟩)
  exact mapError_eq_ok_iff.2 hinstants

/-- A walk stays as it is while other things are done. -/
theorem find_walks_step (h : find s.walks walk = .ok o) (hasks : action.asks? walk = none)
    (hkeeps : ∀ schedule start, action.begins? = some (walk, schedule, start) →
      ∃ failure, (s.step action).1 = .error failure) :
    find (s.step action).2.walks walk = .ok o := by
  rcases step_cases s action with ⟨failure, -, hstep⟩ | ⟨answer, s', heffect, hstep⟩
  · rw [hstep]
    exact h
  · rw [hstep] at hkeeps ⊢
    cases heffect with
    | nothing => exact h
    | schedule => exact h
    | environment => exact h
    | @begin _ other _ _ _ _ hbegins =>
      have hne : walk ≠ other := by
        intro heq
        obtain ⟨failure, hfailure⟩ := hkeeps _ _ (heq ▸ hbegins)
        cases hfailure
      exact (find_keep_of_ne hne).trans h
    | @take other _ n =>
      have hne : walk ≠ other := by
        intro heq
        simp [Step.asks?, heq] at hasks
      exact (find_keep_of_ne hne).trans h

/-- The environment is what a step sets, or stays as it is. -/
theorem environment_step : (s.step action).2.environment = action.sets?.getD s.environment := by
  rcases step_cases s action with ⟨failure, hperform, hstep⟩ | ⟨answer, s', heffect, hstep⟩
  · rw [hstep]
    cases action with
    | setEnvironment environment => cases hperform
    | _ => rfl
  · rw [hstep]
    cases heffect with
    | nothing hsets => rw [hsets]; rfl
    | schedule hsets => rw [hsets]; rfl
    | environment environment => rfl
    | @begin action _ _ _ _ _ hbegins =>
      cases action with
      | setEnvironment environment => cases hbegins
      | _ => rfl
    | take => rfl

/-! ## Many steps -/

/-- Steps with what came of each of them. -/
def history (s : Session) (actions : List Step) : List (Step × Except Failure Answer) :=
  actions.zip (s.steps actions).1

theorem history_cons (actions : List Step) : s.history (action :: actions) =
    (action, (s.step action).1) :: (s.step action).2.history actions := rfl

theorem steps_cons (actions : List Step) :
    (s.steps (action :: actions)).2 = ((s.step action).2.steps actions).2 := rfl

/-- No other walk has begun under a name. -/
def Keeps (walk : String) (history : List (Step × Except Failure Answer)) : Prop :=
  ∀ entry ∈ history, ∀ schedule start, entry.1.begins? = some (walk, schedule, start) →
    ∃ failure, entry.2 = .error failure

/-- What came of asking a walk for instants. -/
def resultsOf (walk : String) (history : List (Step × Except Failure Answer)) :
    List (Except Failure Answer) :=
  (history.filter fun entry => (entry.1.asks? walk).isSome).map Prod.snd

/-- A walk goes on to give the instants of a list.  Whatever is done, among it beginning and
advancing other walks and changing the environment, the answers under its name are the pieces of
the list that are asked for, one after the other. -/
def Continues (s : Session) (walk : String) (ts : List Instant) : Prop :=
  ∀ actions, Keeps walk (s.history actions) →
    resultsOf walk (s.history actions) =
      ((actions.filterMap (Step.asks? walk)).splitLengths ts).map fun piece =>
        .ok (.instants piece)

/-- A walk that is kept under a name goes on with what it gives alone. -/
theorem continues_of_gives (h : find s.walks walk = .ok o) (hgives : o.Gives ts) :
    s.Continues walk ts := by
  intro actions hkeeps
  induction actions generalizing s o ts with
  | nil => rfl
  | cons action actions ih =>
    rw [history_cons] at hkeeps ⊢
    obtain ⟨hhead, htail⟩ := List.forall_mem_cons.1 hkeeps
    cases hasks : action.asks? walk with
    | none =>
      rw [resultsOf, List.filter_cons_of_neg (by simp [hasks]), List.filterMap_cons_none hasks]
      exact ih (find_walks_step h hasks hhead) hgives htail
    | some n =>
      obtain rfl := Step.asks?_eq_some_iff.1 hasks
      obtain ⟨hpiece, hrest⟩ := hgives.take n
      rw [resultsOf, List.filter_cons_of_pos (by simp [hasks]), List.filterMap_cons_some hasks,
        List.splitLengths_cons, List.map_cons, List.map_cons, step_take h hpiece]
      rw [step_take h hpiece] at htail
      exact congrArg _ (ih find_keep_self hrest htail)

/-- The environment in force is the one that was set last. -/
theorem environment_steps (s : Session) (actions : List Step) : (s.steps actions).2.environment =
    (actions.filterMap Step.sets?).getLast?.getD s.environment := by
  induction actions generalizing s with
  | nil => rfl
  | cons action actions ih =>
    rw [steps_cons, ih, environment_step]
    cases hsets : action.sets? with
    | none => rw [List.filterMap_cons_none hsets]; rfl
    | some environment => rw [List.filterMap_cons_some hsets, List.getLast?_cons]; rfl

/-! ## Searches -/

/-- What a step answers that searches once. -/
def answerOf (result : Except SearchError (Option Instant)) : Except Failure Answer :=
  (result.mapError Failure.search).map Answer.instant

/-- A search with the limit that is its own or, without one, that of the environment. -/
theorem step_nextAfter {t : Schedule} {own : Option Int} {limit : Int}
    (h : find s.schedules schedule = .ok t) (hlimit : s.environment.limitFor own = .ok limit) :
    s.step (.nextAfter schedule start own) = (answerOf (t.fields.nextAfter start limit), s) := by
  simp only [step, perform, h, Schedule.nextAfter_of_limitFor hlimit, answerOf, bind, Except.bind]
  cases t.fields.nextAfter start limit <;> rfl

/-! ## Reading the environment -/

@[simp] theorem find_ne_setting {α : Type} {named : List (String × α)} {name : String}
    {e : SettingError} : find named name ≠ .error (.setting e) := by
  rw [find]
  split <;> simp

theorem beginWalk_eq_setting_iff {e : SettingError} :
    s.beginWalk walk schedule start = .error (.setting e) ↔
      ∃ t, find s.schedules schedule = .ok t ∧ s.environment.yearLimit = .error e := by
  have hupcoming : ∀ t : Schedule, t.upcoming s.environment start = .error e ↔
      s.environment.yearLimit = .error e := by
    intro t
    rw [Schedule.upcoming]
    cases s.environment.yearLimit <;> simp [Except.map]
  simp [beginWalk, bind_eq_error_iff, mapError_eq_error_iff, hupcoming]

/-- A search fails for the setting when it needs the setting and that cannot be read. -/
theorem nextAfter_eq_setting_iff {t : Schedule} {env : Environment} {limit : Option Int}
    {e : SettingError} : (t.nextAfter env start limit).mapError Failure.ofSchedule =
      .error (.setting e) ↔ limit = none ∧ env.yearLimit = .error e := by
  have hlimit : env.limitFor limit = .error e ↔ limit = none ∧ env.yearLimit = .error e := by
    cases limit <;> simp [Environment.limitFor]
  rw [← hlimit, mapError_eq_error_iff]
  cases h : env.limitFor limit with
  | error e' => simp [Schedule.nextAfter_of_limitFor_eq_error h, Failure.ofSchedule]
  | ok n =>
    simp only [Schedule.nextAfter_of_limitFor h, mapError_eq_error_iff, reduceCtorEq, iff_false]
    rintro ⟨_, ⟨_, -, rfl⟩, hfailure⟩
    cases hfailure

/-- The setting is what makes a step fail exactly where it is needed and cannot be read. -/
theorem perform_eq_setting_iff {e : SettingError} : s.perform action = .error (.setting e) ↔
    ∃ schedule t, action.consults? = some schedule ∧ find s.schedules schedule = .ok t ∧
      s.environment.yearLimit = .error e := by
  cases action with
  | walkFrom walk schedule start =>
    simp [perform, beginWalk_eq_setting_iff, Step.consults?, Step.begins?]
  | walkFromNow walk schedule now offset =>
    simp only [perform]
    cases hstart : now.inZone? offset with
    | none => simp [Step.consults?, Step.begins?, hstart]
    | some start => simp [beginWalk_eq_setting_iff, Step.consults?, Step.begins?, hstart]
  | nextAfter schedule start limit =>
    cases limit <;>
      simp [perform, bind_eq_error_iff, nextAfter_eq_setting_iff, Step.consults?, Step.begins?]
  | _ => simp [perform, bind_eq_error_iff, mapError_eq_error_iff, Step.consults?, Step.begins?]

/-- What a step answers that needs no limit is the same in every environment. -/
theorem step_of_environment (h : action.consults? = none) (environment : Environment) :
    ({ s with environment }.step action).1 = (s.step action).1 := by
  cases action with
  | parse name expression =>
    simp only [step, perform]
    cases Schedule.parse expression <;> rfl
  | make name source expression =>
    simp only [step, perform]
    cases Fields.parse expression <;> rfl
  | setEnvironment environment => rfl
  | walkFrom walk schedule start => cases h
  | walkFromNow walk schedule now offset =>
    have hnone : now.inZone? offset = none := by
      simpa [Step.consults?, Step.begins?] using h
    simp only [step, perform, hnone]
  | take walk n =>
    simp only [step, perform]
    cases find s.walks walk with
    | error failure => rfl
    | ok o =>
      simp only [bind, Except.bind]
      cases (o.take n).1 <;> rfl
  | sourceOfWalk walk =>
    simp only [step, perform]
    cases find s.walks walk <;> rfl
  | nextAfter schedule start limit =>
    cases limit with
    | none => cases h
    | some limit =>
      cases hschedule : find s.schedules schedule with
      | error failure => simp only [step, perform, hschedule, bind, Except.bind]
      | ok t =>
        have hlimit (env : Environment) : env.limitFor (some limit) = .ok limit := rfl
        rw [step_nextAfter hschedule (hlimit _),
          step_nextAfter (s := { s with environment }) hschedule (hlimit _)]
  | compare first second =>
    simp only [step, perform]
    cases find s.schedules first with
    | error failure => rfl
    | ok t => cases find s.schedules second <;> rfl
  | includes schedule | selection schedule | source schedule | text schedule =>
    simp only [step, perform]
    cases find s.schedules schedule <;> rfl

/-- Walks are isolated from each other and from the environment.  The environment in force is the
one that was set last.  A walk that begins, which it does if the schedule is known and the
environment in force gives a limit, goes on to give what it gives alone with that limit.  A search
has a limit of its own, or that in force, with which it always has an answer, and steps that need no
limit are answered alike in every environment.  An environment gives one limit or is refused, for
the text of its setting.  That makes just those steps fail that need the limit, and a step that
fails changes nothing. -/
theorem walks_isolated (s : Session) :
    (∀ actions, (s.steps actions).2.environment =
      (actions.filterMap Step.sets?).getLast?.getD s.environment) ∧
    (∀ action walk schedule start t limit, action.begins? = some (walk, schedule, start) →
      find s.schedules schedule = .ok t → s.environment.Gives limit →
      ∃ s' ts, s.step action = (.ok .nothing, s') ∧
        (⟨t, some start, limit⟩ : Occurrences).Gives ts ∧ s'.Continues walk ts) ∧
    (∀ schedule start t limit, find s.schedules schedule = .ok t →
      s.step (.nextAfter schedule start (some limit)) =
        (answerOf (t.fields.nextAfter start limit), s) ∧
      (s.environment.Gives limit →
        ∃ answer, t.fields.nextAfter start limit = .ok answer ∧
          s.step (.nextAfter schedule start none) = (.ok (.instant answer), s))) ∧
    (∀ action, action.consults? = none → ∀ environment,
      ({ s with environment }.step action).1 = (s.step action).1) ∧
    (∀ env : Environment, (∃! limit, env.Gives limit) ∧ (∀ e, ¬env.Refused e) ∨
      (∀ limit, ¬env.Gives limit) ∧ ∃! e, env.Refused e) ∧
    (∀ action e, (s.step action).1 = .error (.setting e) ↔
      ∃ schedule t, action.consults? = some schedule ∧ find s.schedules schedule = .ok t ∧
        s.environment.Refused e) ∧
    ∀ action failure, (s.step action).1 = .error failure → (s.step action).2 = s := by
  simp only [← Environment.yearLimit_eq_ok_iff, ← Environment.yearLimit_eq_error_iff]
  refine ⟨environment_steps s, ?_, ?_, fun _ => step_of_environment, ?_, ?_, ?_⟩
  · intro action walk schedule start t limit hbegins hschedule hlimit
    have hpos := Environment.one_le_of_yearLimit hlimit
    obtain ⟨ts, hrun⟩ := t.fields.exists_run start (by omega : 0 ≤ limit)
    exact ⟨_, ts, step_of_begins? hbegins hschedule hlimit, hrun.call_eq,
      continues_of_gives find_keep_self hrun.call_eq⟩
  · intro schedule start t limit hschedule
    refine ⟨step_nextAfter hschedule rfl, fun hlimit => ?_⟩
    have hwritable := (Environment.yearLimit_eq_ok_iff.1 hlimit).writable
    obtain ⟨answer, hanswer⟩ := Fields.exists_nextAfter_eq_ok_iff.2
      (t.fields.not_untoldAfter_of_writable start hwritable)
    have hinForce : s.environment.limitFor none = .ok limit := hlimit
    refine ⟨answer, hanswer, ?_⟩
    rw [step_nextAfter hschedule hinForce, hanswer]
    rfl
  · intro env
    cases env.yearLimit <;> simp
  · intro action e
    rw [step_eq_error_iff, perform_eq_setting_iff]
  · intro action failure h
    rcases step_cases s action with ⟨_, -, hstep⟩ | ⟨_, _, -, hstep⟩
    · rw [hstep]
    · rw [hstep] at h
      cases h

/-- A walk goes on while the setting is malformed, when no other one can begin. -/
example :
    let i : Instant := .ofClock ⟨⟨2023, 1, 31, by decide, by decide, by decide⟩, .midnight⟩ none
    let j : Instant := .ofClock ⟨⟨2024, 2, 29, by decide, by decide, by decide⟩, .midnight⟩ none
    ((Session.start .unset).steps
      [.parse "leap" "0 0 0 29 2 * 2023-2027".toList, .walkFrom "first" "leap" i,
        .setEnvironment ⟨some "x".toList, none⟩, .walkFrom "second" "leap" i,
        .take "first" 2, .nextAfter "leap" j (some 0)]).1.drop 3 =
      [.error (.setting (.notInteger Environment.maxSearchYearsName "x".toList)),
        .ok (.instants [j]), .ok (.instant none)] := by
  rfl

end Session
end Timetable
