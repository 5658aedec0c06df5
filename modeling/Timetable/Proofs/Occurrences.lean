import Timetable.Proofs.NextAfter
import Timetable.Schedule
import Mathlib.Logic.Function.Iterate

/-!
# The occurrences of a schedule

A walk through the occurrences of a schedule goes on from the last one it has given, so all that
it ever gives is a run of searches.  A run ascends and leaves out no occurrence between its
members; since there are finitely many wall clocks, it ends.

## Main definitions

* `Occurrences.call`: what a walk gives when it is asked for the `n`-th time.
* `Schedule.Follows`: an instant is the first occurrence after another one.
* `Fields.Run`: the searches that a walk makes from an instant on.
* `Occurrences.Exact`: a walk gives just the occurrences after an instant.

## Main statements

* `Fields.exists_run`: the run from an instant is finite.
* `Fields.Run.call_eq`: a walk gives its run and then nothing any more.
* `Occurrences.run_exact`: walks are exact.
-/

namespace Timetable

/-! ## Calls of a walk -/

namespace Occurrences

/-- What a walk gives when it is asked for the `n`-th time, counted from zero. -/
def call (o : Occurrences) (n : Nat) : Except SearchError (Option Instant) :=
  ((fun o => o.next.2)^[n] o).next.1

@[simp] theorem call_zero (o : Occurrences) : o.call 0 = o.next.1 := rfl

@[simp] theorem call_succ (o : Occurrences) (n : Nat) : o.call (n + 1) = o.next.2.call n := rfl

/-- A walk that has ended gives nothing. -/
theorem call_of_ended {o : Occurrences} (h : o.previous = none) (n : Nat) :
    o.call n = .ok none := by
  induction n with
  | zero => simp [next_of_ended h]
  | succ n ih => simpa [next_of_ended h] using ih

/-- A walk whose search fails gives the same error whenever it is asked. -/
theorem call_of_error {s : Schedule} {i : Instant} {limit : Int} {e : SearchError}
    (h : s.fields.nextAfter i limit = .error e) (n : Nat) :
    (⟨s, some i, limit⟩ : Occurrences).call n = .error e := by
  induction n with
  | zero => rw [call_zero, next_of_error h]
  | succ n ih => rwa [call_succ, next_of_error h]

end Occurrences

/-! ## Runs of searches -/

/-- An instant is the first occurrence after another one: it is a later whole second that satisfies
the schedule, and no whole second between them does. -/
structure Schedule.Follows (s : Schedule) (i j : Instant) : Prop where
  precedes : i.Precedes j
  whole : j.microsecond = 0
  includes : s.includes j = true
  gapless : ∀ k : Instant, k.microsecond = 0 → i.Precedes k → k.Precedes j → s.includes k = false

namespace Fields

variable {F : Fields} {limit : Int} {i j : Instant} {ts : List Instant}

/-- No whole second that satisfies the fields lies before the answer of a search. -/
theorem includes_eq_false_of_nextAfter (h : F.nextAfter i limit = .ok (some j)) {k : Instant}
    (hk : k.microsecond = 0) (hik : i.Precedes k) (hkj : k.Precedes j) :
    F.includes k.clock = false := by
  by_contra hincl
  rw [Bool.not_eq_false] at hincl
  obtain ⟨first, w, hnext, hw, rfl⟩ := isLeast_of_nextAfter h
  have hfirst : first.clock ≤ k.clock :=
    (Instant.clock_lt_iff_of_nextWholeSecond? hnext).1 (hik.clock_lt hk)
  have hlt : k.clock < w := hkj.clock_lt rfl
  have hyear : F.years.includes k.clock.date.year = true := Fields.includes_iff.1 hincl .years
  have heligible : F.Eligible limit first.clock k.clock :=
    ⟨hfirst, hincl, mem_yearsFrom_of_le hw.1.year_mem (WallClock.year_le_of_le hfirst)
      (WallClock.year_le_of_le hlt.le) hyear⟩
  exact absurd (hw.2 heligible) (not_le.2 hlt)

/-- What a search answers satisfies the fields. -/
theorem includes_of_nextAfter (h : F.nextAfter i limit = .ok (some j)) :
    F.includes j.clock = true := by
  obtain ⟨first, w, -, hw, rfl⟩ := isLeast_of_nextAfter h
  exact hw.1.satisfies

/-- The searches from an instant on, each from the answer of the one before, until one finds
nothing. -/
inductive Run (F : Fields) (limit : Int) : Instant → List Instant → Prop
  | ended {i : Instant} (h : F.nextAfter i limit = .ok none) : Run F limit i []
  | found {i j : Instant} {ts : List Instant} (h : F.nextAfter i limit = .ok (some j))
      (run : Run F limit j ts) : Run F limit i (j :: ts)

/-- The wall clocks after an instant are finitely many, so that the run from it ends. -/
theorem exists_run (F : Fields) (i : Instant) (hlimit : 0 ≤ limit) : ∃ ts, Run F limit i ts := by
  generalize hn : (WallClock.lastIndex - i.clock.index).toNat = n
  induction n using Nat.strong_induction_on generalizing i with
  | _ n ih =>
    obtain ⟨answer, h⟩ :=
      exists_nextAfter_eq_ok_iff.2 (F.not_untoldAfter_of_nonneg i hlimit)
    cases answer with
    | none => exact ⟨[], .ended h⟩
    | some j =>
      obtain ⟨hprecedes, hwhole, -⟩ := precedes_of_nextAfter h
      have hlt := WallClock.lt_iff_index_lt.1 (hprecedes.clock_lt hwhole)
      have hle := j.clock.index_le
      obtain ⟨ts, hts⟩ := ih _ (by omega) j rfl
      exact ⟨j :: ts, .found h hts⟩

/-- Where the first search has an answer, all of them have. -/
theorem exists_run_of_nextAfter {answer : Option Instant} (h : F.nextAfter i limit = .ok answer) :
    ∃ ts, Run F limit i ts := by
  cases answer with
  | none => exact ⟨[], .ended h⟩
  | some j =>
    obtain ⟨ts, hts⟩ := F.exists_run j (nonneg_of_nextAfter h)
    exact ⟨j :: ts, .found h hts⟩

namespace Run

/-- A run ascends. -/
theorem pairwise_precedes (h : Run F limit i ts) : (i :: ts).Pairwise Instant.Precedes := by
  induction h with
  | ended h => exact List.pairwise_singleton _ _
  | found h run ih =>
    have hlater := (precedes_of_nextAfter h).1
    refine List.pairwise_cons.2 ⟨?_, ih⟩
    intro k hk
    rcases List.mem_cons.1 hk with rfl | hk
    · exact hlater
    · exact hlater.trans ((List.pairwise_cons.1 ih).1 k hk)

/-- Each member of a run is the first occurrence after the one before. -/
theorem isChain_follows {source : Text} (h : Run F limit i ts) :
    (i :: ts).IsChain (Schedule.Follows ⟨source, F⟩) := by
  induction h with
  | ended h => exact .singleton _
  | found h run ih =>
    obtain ⟨hprecedes, hwhole, -⟩ := precedes_of_nextAfter h
    exact .cons_cons ⟨hprecedes, hwhole, includes_of_nextAfter h,
      fun k hk hik hkj => includes_eq_false_of_nextAfter h hk hik hkj⟩ ih

/-- After each of its members a run goes on with what the search from it finds. -/
theorem nextAfter_eq_getElem? (h : Run F limit i ts) {n : Nat} {k : Instant}
    (hk : (i :: ts)[n]? = some k) : F.nextAfter k limit = .ok ts[n]? := by
  induction h generalizing n with
  | ended h =>
    cases n with
    | zero =>
      obtain rfl := Option.some.inj hk
      exact h
    | succ n => simp at hk
  | found h run ih =>
    cases n with
    | zero =>
      obtain rfl := Option.some.inj hk
      exact h
    | succ n => exact ih hk

/-- A walk gives its run and then nothing any more. -/
theorem call_eq {s : Schedule} (h : Run s.fields limit i ts) (n : Nat) :
    (⟨s, some i, limit⟩ : Occurrences).call n = .ok ts[n]? := by
  induction h generalizing n with
  | ended h =>
    cases n with
    | zero => rw [Occurrences.call_zero, Occurrences.next_of_nextAfter h, List.getElem?_nil]
    | succ n =>
      rw [Occurrences.call_succ, Occurrences.next_of_nextAfter h]
      exact Occurrences.call_of_ended rfl n
  | found h run ih =>
    cases n with
    | zero => rw [Occurrences.call_zero, Occurrences.next_of_nextAfter h, List.getElem?_cons_zero]
    | succ n =>
      rw [Occurrences.call_succ, Occurrences.next_of_nextAfter h]
      exact ih n

end Run

/-- Where a walk ever gives an answer, its first search has one. -/
theorem exists_run_of_call {s : Schedule} {n : Nat} {answer : Option Instant}
    (h : (⟨s, some i, limit⟩ : Occurrences).call n = .ok answer) :
    ∃ ts, Run s.fields limit i ts := by
  cases hnext : s.fields.nextAfter i limit with
  | ok first => exact exists_run_of_nextAfter hnext
  | error e =>
    rw [Occurrences.call_of_error hnext] at h
    cases h

end Fields

/-! ## What walks give -/

namespace Occurrences

/-- A walk from an instant gives the instants of a list one by one, and then nothing any more.  They
ascend, each of them is the first occurrence after the one before, and the search from each finds
the one after it, so that the walk ends exactly where the search finds nothing. -/
structure Exact (o : Occurrences) (start : Instant) (ts : List Instant) : Prop where
  gives : ∀ n, o.call n = .ok ts[n]?
  ascending : (start :: ts).Pairwise Instant.Precedes
  follows : (start :: ts).IsChain o.schedule.Follows
  goes_on : ∀ (n : Nat) (i : Instant), (start :: ts)[n]? = some i →
    o.schedule.fields.nextAfter i o.limit = .ok ts[n]?

theorem exact_of_run {s : Schedule} {start : Instant} {limit : Int} {ts : List Instant}
    (h : s.fields.Run limit start ts) :
    (⟨s, some start, limit⟩ : Occurrences).Exact start ts where
  gives := h.call_eq
  ascending := h.pairwise_precedes
  follows := h.isChain_follows
  goes_on _ _ hi := h.nextAfter_eq_getElem? hi

/-- The occurrences after an instant.  With the limit that the environment gives when the walk
begins there are finitely many, which the walk gives exactly.  So it does with any limit with which
the first search has an answer; with another one it gives nothing but the error of that search. -/
theorem run_exact (s : Schedule) (start : Instant) :
    (∀ env, s.upcoming env start = env.yearLimit.map fun limit => ⟨s, some start, limit⟩) ∧
      (∀ env o, s.upcoming env start = .ok o → ∃ ts, o.Exact start ts) ∧
      ∀ limit : Int, match s.fields.nextAfter start limit with
        | .ok _ => ∃ ts, (⟨s, some start, limit⟩ : Occurrences).Exact start ts
        | .error e => ∀ n, (⟨s, some start, limit⟩ : Occurrences).call n = .error e := by
  refine ⟨fun env => rfl, ?_, ?_⟩
  · intro env o ho
    rw [Schedule.upcoming] at ho
    cases hlimit : env.yearLimit with
    | error e =>
      rw [hlimit] at ho
      cases ho
    | ok limit =>
      rw [hlimit] at ho
      cases ho
      have hpos := Environment.one_le_of_yearLimit hlimit
      obtain ⟨ts, hrun⟩ := s.fields.exists_run start (by omega : 0 ≤ limit)
      exact ⟨ts, exact_of_run hrun⟩
  · intro limit
    cases hanswer : s.fields.nextAfter start limit with
    | error e => exact call_of_error hanswer
    | ok answer =>
      obtain ⟨ts, hrun⟩ := Fields.exists_run_of_nextAfter hanswer
      exact ⟨ts, exact_of_run hrun⟩

end Occurrences
end Timetable
