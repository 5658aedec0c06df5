import Timetable.Query

/-!
# Steps on a query

Steps on a query ask positions for their bounds and start over from positions, in any order.  Each
step settles some positions for good: the one that it asks, or those that start over.  A query
only forgets: it keeps its reference, and what is pending in the end are the positions that no step
has settled, in whatever order the steps came.

## Main definitions

* `Query.Step.Settles`: the positions that a step settles.
* `Query.Unsettled`: a position that none of some steps settles.
* `Query.performed`: the query after some steps.

## Main statements

* `Query.pending_perform`: what one step leaves pending.
* `Query.pending_performed`: what steps in sequence leave pending.
* `Query.steps_settle`: the bounds that are given on the way, and the query in the end.
-/

namespace Timetable

namespace Query

/-! ## One step -/

/-- A step settles the position that it asks for its bound, or the one that it starts over from
and all less significant ones. -/
def Step.Settles : Step → Position → Prop
  | .bound r, p => r = p
  | .reset r, p => r.rank ≤ p.rank

instance : ∀ (step : Step) (p : Position), Decidable (step.Settles p)
  | .bound r, p => inferInstanceAs (Decidable (r = p))
  | .reset r, p => inferInstanceAs (Decidable (r.rank ≤ p.rank))

variable {q : Query} {p : Position}

@[simp] theorem reference_perform (q : Query) (step : Step) :
    (q.perform step).2.reference = q.reference := by
  cases step with
  | bound p => exact reference_lowerBound q p
  | reset p => rfl

/-- What is pending after a step was pending before and is not settled by it. -/
theorem pending_perform (q : Query) (step : Step) :
    (q.perform step).2.pending = q.pending.filter fun p => ¬step.Settles p := by
  cases step with
  | bound r =>
    simp only [perform, lowerBound]
    split
    · exact List.filter_congr fun p _ => decide_eq_decide.2 ne_comm
    · rename_i h
      refine (List.filter_eq_self.2 fun p hp => decide_eq_true ?_).symm
      exact fun e : r = p => h (e ▸ hp)
  | reset r => exact List.filter_congr fun p _ => decide_eq_decide.2 Nat.not_le.symm

/-- A position is given the value of the reference while it is pending, and the lowest value of its
unit afterwards. -/
theorem perform_bound (q : Query) (p : Position) :
    (q.perform (.bound p)).1 =
      some (if p ∈ q.pending then q.reference.clock.get p else p.unit.lo) := by
  simp only [perform, lowerBound]
  split <;> rfl

/-! ## Steps in sequence -/

/-- The query after some steps in sequence. -/
def performed (q : Query) (steps : List Step) : Query :=
  steps.foldl (fun q step => (q.perform step).2) q

/-- None of some steps settles a position. -/
def Unsettled (steps : List Step) (p : Position) : Prop :=
  ∀ step ∈ steps, ¬step.Settles p

instance (steps : List Step) (p : Position) : Decidable (Unsettled steps p) :=
  inferInstanceAs (Decidable (∀ step ∈ steps, ¬step.Settles p))

@[simp] theorem performed_nil (q : Query) : q.performed [] = q := rfl

@[simp] theorem performed_cons (q : Query) (step : Step) (steps : List Step) :
    q.performed (step :: steps) = (q.perform step).2.performed steps := rfl

/-- Steps never change where a search begins. -/
@[simp] theorem reference_performed (q : Query) (steps : List Step) :
    (q.performed steps).reference = q.reference := by
  induction steps generalizing q with
  | nil => rfl
  | cons step steps ih => rw [performed_cons, ih, reference_perform]

/-- What is pending after some steps was pending before and is not settled by any of them. -/
theorem pending_performed (q : Query) (steps : List Step) :
    (q.performed steps).pending = q.pending.filter fun p => Unsettled steps p := by
  induction steps generalizing q with
  | nil => exact (List.filter_eq_self.2 fun p _ => decide_eq_true (by simp [Unsettled])).symm
  | cons step steps ih =>
    rw [performed_cons, ih, pending_perform, List.filter_filter]
    refine List.filter_congr fun p _ => ?_
    rw [← Bool.decide_and, decide_eq_decide, Unsettled, Unsettled, List.forall_mem_cons]
    exact and_comm

/-- The query in the end depends neither on the order of the steps nor on their repetition. -/
theorem performed_congr {steps other : List Step} (h : ∀ step, step ∈ other ↔ step ∈ steps) :
    q.performed other = q.performed steps := by
  have hunsettled : ∀ p, Unsettled other p ↔ Unsettled steps p := by
    intro p
    simp only [Unsettled, h]
  have hpending : (q.performed other).pending = (q.performed steps).pending := by
    simp only [pending_performed, hunsettled]
  have hreference : (q.performed other).reference = (q.performed steps).reference := by
    rw [reference_performed, reference_performed]
  calc q.performed other
      = ⟨(q.performed other).reference, (q.performed other).pending⟩ := rfl
    _ = ⟨(q.performed steps).reference, (q.performed steps).pending⟩ := by
      rw [hreference, hpending]
    _ = q.performed steps := rfl

/-- Each step is performed on the query that the steps before it have left. -/
theorem getElem?_performAll (q : Query) (steps : List Step) (k : Nat) :
    (q.performAll steps)[k]? = steps[k]?.map (q.performed (steps.take k)).perform := by
  induction steps generalizing q k with
  | nil => rfl
  | cons step steps ih =>
    cases k with
    | zero => rfl
    | succ k =>
      rw [performAll, List.getElem?_cons_succ, ih, List.getElem?_cons_succ, List.take_succ_cons,
        performed_cons]

/-! ## The query after an instant -/

/-- Every position is pending at the beginning, and the reference is the following second. -/
theorem nextWholeSecond?_of_after? {i : Instant} (h : after? i = some q) :
    i.nextWholeSecond? = some q.reference ∧ q.pending = Position.inOrder := by
  obtain ⟨j, hj, rfl⟩ := Option.map_eq_some_iff.1 h
  exact ⟨hj, rfl⟩

theorem mem_pending_performed {i : Instant} (h : after? i = some q) {steps : List Step} :
    p ∈ (q.performed steps).pending ↔ Unsettled steps p := by
  rw [pending_performed, (nextWholeSecond?_of_after? h).2, List.mem_filter]
  simp [Position.mem_inOrder]

/-- A bound is the value of the reference as long as no step before has settled the position. -/
theorem bound_performAll {i : Instant} (h : after? i = some q) {steps : List Step} {k : Nat}
    (hk : steps[k]? = some (.bound p)) :
    (q.performAll steps)[k]?.map (·.1) = some (some
      (if Unsettled (steps.take k) p then q.reference.clock.get p else p.unit.lo)) := by
  rw [getElem?_performAll, hk, Option.map_some, Option.map_some, perform_bound,
    reference_performed]
  simp only [mem_pending_performed h]

/-- Asking a position for its bound settles it. -/
theorem not_unsettled_of_bound {steps : List Step} {j k : Nat} (hjk : j < k)
    (hj : steps[j]? = some (.bound p)) : ¬Unsettled (steps.take k) p := by
  intro hunsettled
  have hmem : Step.bound p ∈ steps.take k := by
    refine List.mem_of_getElem? (i := j) ?_
    rwa [List.getElem?_take_of_lt hjk]
  exact hunsettled _ hmem rfl

/-- Steps on the query after an instant, any number of them in any order.  The query begins at the
following second, and each step is performed on what the steps before it have left.  The reference
never changes, and what is pending at any time are the positions that none of the steps until then
has settled.  A position is given the value of the reference while it is pending and the lowest
value of its unit from then on; in particular it is so the second time it is asked.  The query in
the end depends neither on the order of the steps nor on their repetition. -/
theorem steps_settle (i : Instant) (q : Query) (h : after? i = some q) (steps : List Step) :
    i.nextWholeSecond? = some q.reference ∧
      (∀ k, (q.performAll steps)[k]? = steps[k]?.map (q.performed (steps.take k)).perform) ∧
      (∀ k, (q.performed (steps.take k)).reference = q.reference ∧
        ∀ p, p ∈ (q.performed (steps.take k)).pending ↔ Unsettled (steps.take k) p) ∧
      (∀ (k : Nat) (p : Position), steps[k]? = some (.bound p) →
        (q.performAll steps)[k]?.map (·.1) = some (some
          (if Unsettled (steps.take k) p then q.reference.clock.get p else p.unit.lo))) ∧
      (∀ (p : Position) (j k : Nat), j < k → steps[j]? = some (.bound p) →
        steps[k]? = some (.bound p) →
        (q.performAll steps)[k]?.map (·.1) = some (some p.unit.lo)) ∧
      ∀ other : List Step, (∀ step, step ∈ other ↔ step ∈ steps) →
        q.performed other = q.performed steps := by
  refine ⟨(nextWholeSecond?_of_after? h).1, getElem?_performAll q steps, ?_, ?_, ?_, ?_⟩
  · intro k
    exact ⟨reference_performed q _, fun p => mem_pending_performed h⟩
  · intro k p hk
    exact bound_performAll h hk
  · intro p j k hjk hj hk
    rw [bound_performAll h hk, if_neg (not_unsettled_of_bound hjk hj)]
  · intro other hother
    exact performed_congr hother

/-- A day that is asked twice, and a minute that has started over before it is asked. -/
theorem steps_settle_june :
    ∃ (i : Instant) (q : Query) (steps : List Step), after? i = some q ∧
      steps = [.bound .day, .reset .minute, .bound .minute, .bound .day, .bound .hour] ∧
      (q.performAll steps).map (·.1) = [some 15, none, some 0, some 1, some 9] ∧
      (q.performAll steps)[3]?.map (·.1) = some (some Position.day.unit.lo) ∧
      q.performed steps.reverse = q.performed steps := by
  let june : Date := ⟨2018, 6, 15, by decide, by decide, by decide⟩
  let i : Instant := .ofClock ⟨june, ⟨9, 30, 0, by decide, by decide, by decide⟩⟩ none
  let q : Query :=
    ofReference (.ofClock ⟨june, ⟨9, 30, 1, by decide, by decide, by decide⟩⟩ none)
  let steps : List Step :=
    [.bound .day, .reset .minute, .bound .minute, .bound .day, .bound .hour]
  have h : after? i = some q := rfl
  obtain ⟨-, -, -, -, htwice, horder⟩ := steps_settle i q h steps
  exact ⟨i, q, steps, h, rfl, by decide, htwice .day 0 3 (by decide) rfl rfl,
    horder steps.reverse fun _ => List.mem_reverse⟩

end Query
end Timetable
