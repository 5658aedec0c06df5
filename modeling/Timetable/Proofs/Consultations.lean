import Timetable.Proofs.NextAfter
import Timetable.Proofs.Traversal

/-!
# The bounds that a search gives

A search asks each position for its bound below many choices of the more significant values.  The
bound is the value of the reference below the reference's own values only; below any others it is
the lowest value of the unit, and then no position is pending any more.  So no search starts a
position from the reference elsewhere.  The invariant of the search is that the positions left are
all pending as long as the chosen values are those of the reference, and that none is afterwards.

## Main definitions

* `Search.Consultation.Lawful`: a bound as the reference demands it.
* `Search.Kept`, `Search.OnCourse`: the invariant after and before the search of some positions.

## Main statements

* `Search.firstOf_keeps`: the state of a loop with early exit, from an invariant.
* `Search.onCourse_enter`, `Search.onCourse_resetFrom`: the invariant below a value that is tried.
* `Search.kept_descend`: the search below some values keeps the invariant.
* `Fields.bounds_follow_reference`: all bounds of a search are lawful.
-/

namespace Timetable

namespace WallClock

/-- Some values are the most significant ones of a wall clock. -/
def BeginsWith (w : WallClock) (values : List Int) : Prop :=
  values <+: w.toList

theorem beginsWith_nil (w : WallClock) : w.BeginsWith [] :=
  List.nil_prefix

theorem getElem?_toList (w : WallClock) (p : Position) : w.toList[p.rank]? = some (w.get p) := by
  cases p <;> rfl

/-- One more value belongs to the beginning when it is the one at the next position. -/
theorem beginsWith_concat_iff {w : WallClock} {p : Position} {chosen : List Int} {v : Int}
    (h : p.rank = chosen.length) :
    w.BeginsWith (chosen ++ [v]) ↔ w.BeginsWith chosen ∧ v = w.get p := by
  have hget := w.getElem?_toList p
  rw [h] at hget
  constructor
  · intro hbegins
    refine ⟨(List.prefix_append chosen [v]).trans hbegins, ?_⟩
    obtain ⟨rest, hrest⟩ := hbegins
    rw [← hrest] at hget
    simpa using hget
  · rintro ⟨⟨rest, hrest⟩, rfl⟩
    rw [BeginsWith, ← hrest]
    rw [← hrest] at hget
    cases rest with
    | nil => simp at hget
    | cons x rest =>
      obtain rfl : x = w.get p := by simpa using hget
      exact ⟨rest, by simp⟩

end WallClock

namespace Search

/-! ## Lawful bounds -/

/-- A bound was given as the reference demands.  Below the values of the reference it is that of
the reference, and the position and all less significant ones were pending.  Below any others it is
the lowest of the unit, and none was. -/
structure Consultation.Lawful (reference : WallClock) (c : Consultation) : Prop where
  length_chosen : c.chosen.length = c.position.rank
  at_reference : reference.BeginsWith c.chosen →
    c.bound = reference.get c.position ∧ ∀ r, r ∈ c.pending ↔ c.position.rank ≤ r.rank
  elsewhere : ¬reference.BeginsWith c.chosen → c.bound = c.position.unit.lo ∧ c.pending = []

/-- Some positions are all that are left below the chosen values. -/
structure Remaining (ps : List Position) (chosen : List Int) : Prop extends Below ps chosen where
  mem_iff : ∀ r, r ∈ ps ↔ chosen.length ≤ r.rank

theorem remaining_inOrder : Remaining Position.inOrder [] where
  toBelow := below_inOrder
  mem_iff r := by simp [Position.mem_inOrder]

theorem Remaining.snoc {F : Fields} {p : Position} {ps : List Position} {chosen : List Int}
    {v : Int} (h : Remaining (p :: ps) chosen) (hv : (F.get p.unit).includes v = true) :
    Remaining ps (chosen ++ [v]) where
  toBelow := h.toBelow.snoc hv
  mem_iff r := by
    have hp := h.rank_head
    have hless := (List.pairwise_cons.1 h.pairwise_rank).1
    rw [List.length_append, List.length_singleton]
    constructor
    · intro hr
      have := hless r hr
      omega
    · intro hr
      rcases List.mem_cons.1 ((h.mem_iff r).2 (by omega)) with rfl | hmem
      · omega
      · exact hmem

/-! ## The invariant of the search -/

/-- What the search of some positions keeps: the reference, nothing pending but those positions,
and bounds that are lawful. -/
structure Kept (reference : Instant) (ps : List Position) (walk : Walk) : Prop where
  reference_eq : walk.query.reference = reference
  mem_of_pending : ∀ r ∈ walk.query.pending, r ∈ ps
  lawful : ∀ c ∈ walk.consulted, c.Lawful reference.clock

/-- A walk is on course below the chosen values: as long as they are those of the reference, the
positions left are pending, and otherwise nothing is. -/
structure OnCourse (reference : Instant) (ps : List Position) (chosen : List Int)
    (walk : Walk) : Prop extends Kept reference ps walk where
  pending_of_begins : reference.clock.BeginsWith chosen → ∀ r ∈ ps, r ∈ walk.query.pending
  pending_eq_nil : ¬reference.clock.BeginsWith chosen → walk.query.pending = []

section Loop

variable {α σ ε : Type}

/-- A loop with early exit ends in a state that each of its attempts keeps. -/
theorem firstOf_keeps (ready : Int → σ → Prop) (kept : σ → Prop) (before : Int → Int → Prop)
    {attempt : Int → σ → Except ε (Option α × σ)} {onward : σ → σ} {values : List Int}
    {state state' : σ} {o : Option α} (hvalues : values.Pairwise before) (hkept : kept state)
    (hstart : ∀ v, values.head? = some v → ready v state)
    (hstep : ∀ v ∈ values, ∀ s o s', ready v s → attempt v s = .ok (o, s') →
      kept s' ∧ kept (onward s') ∧ ∀ u, before v u → ready u (onward s'))
    (h : firstOf attempt onward values state = .ok (o, state')) : kept state' := by
  induction values generalizing state with
  | nil =>
    cases h
    exact hkept
  | cons v values ih =>
    obtain ⟨hv, hvalues⟩ := List.pairwise_cons.1 hvalues
    rw [firstOf] at h
    obtain ⟨⟨o', s⟩, hattempt, h⟩ := bind_eq_ok_iff.1 h
    obtain ⟨hs, honward, hready⟩ := hstep v List.mem_cons_self state o' s (hstart v rfl) hattempt
    cases o' with
    | some a =>
      cases h
      exact hs
    | none =>
      exact ih hvalues honward (fun u hu => hready u (hv u (List.mem_of_head? hu)))
        (fun u hu => hstep u (List.mem_cons_of_mem v hu)) h

end Loop

variable {F : Fields} {limit : Int} {reference : Instant} {p : Position} {ps : List Position}
  {chosen values : List Int} {v : Int} {walk walk' : Walk} {o : Option (List Int)}

@[simp] theorem reference_resetFrom (q : Query) (ps : List Position) :
    (q.resetFrom ps).reference = q.reference := by
  cases ps <;> rfl

theorem mem_pending_of_resetFrom {q : Query} {r : Position} (h : r ∈ (q.resetFrom ps).pending) :
    r ∈ q.pending := by
  cases ps with
  | nil => exact h
  | cons p ps => exact (Query.mem_pending_reset.1 h).1

/-- Once the positions that may be pending start over, none of them is. -/
theorem pending_resetFrom {q : Query} (hps : ps.Pairwise (·.rank < ·.rank))
    (hq : ∀ r ∈ q.pending, r ∈ ps) : (q.resetFrom ps).pending = [] := by
  rw [List.eq_nil_iff_forall_not_mem]
  intro r hr
  cases ps with
  | nil => exact absurd (hq r hr) List.not_mem_nil
  | cons p ps =>
    obtain ⟨hpending, hrank⟩ := Query.mem_pending_reset.1 hr
    rcases List.mem_cons.1 (hq r hpending) with rfl | hmem
    · omega
    · have := (List.pairwise_cons.1 hps).1 r hmem
      omega

theorem Kept.resetFrom (h : Kept reference ps walk) : Kept reference ps (walk.resetFrom ps) where
  reference_eq := (reference_resetFrom walk.query ps).trans h.reference_eq
  mem_of_pending r hr := h.mem_of_pending r (mem_pending_of_resetFrom hr)
  lawful := h.lawful

/-- Where the positions left have started over, the walk is on course below values that are not
those of the reference. -/
theorem onCourse_resetFrom (hps : ps.Pairwise (·.rank < ·.rank)) (h : Kept reference ps walk)
    (hchosen : ¬reference.clock.BeginsWith chosen) :
    OnCourse reference ps chosen (walk.resetFrom ps) where
  toKept := h.resetFrom
  pending_of_begins hbegins := absurd hbegins hchosen
  pending_eq_nil _ := pending_resetFrom hps h.mem_of_pending

/-- On course, the bound of the next position is the value of the reference below the values of the
reference, and the lowest of its unit below others. -/
theorem OnCourse.lawful_consult (hps : Remaining (p :: ps) chosen)
    (h : OnCourse reference (p :: ps) chosen walk) :
    Consultation.Lawful reference.clock
      ⟨p, chosen, (walk.query.lowerBound p).1, walk.query.pending⟩ where
  length_chosen := hps.rank_head.symm
  at_reference hbegins := by
    have hpending := h.pending_of_begins hbegins
    refine ⟨?_, fun r => ?_⟩
    · rw [Query.lowerBound_of_mem (hpending p List.mem_cons_self), h.reference_eq]
    · rw [hps.rank_head, ← hps.mem_iff]
      exact ⟨h.mem_of_pending r, hpending r⟩
  elsewhere hbegins := by
    have hnil := h.pending_eq_nil hbegins
    refine ⟨Query.lowerBound_of_notMem ?_, hnil⟩
    rw [hnil]
    exact List.not_mem_nil

theorem bound_of_begins (h : OnCourse reference (p :: ps) chosen walk)
    (hbegins : reference.clock.BeginsWith chosen) :
    (walk.query.lowerBound p).1 = reference.clock.get p := by
  rw [Query.lowerBound_of_mem (h.pending_of_begins hbegins p List.mem_cons_self), h.reference_eq]

/-- Asking a position for its bound leaves at most the positions below it pending. -/
theorem OnCourse.kept_consult (hps : Remaining (p :: ps) chosen)
    (h : OnCourse reference (p :: ps) chosen walk) :
    Kept reference ps (walk.consult p chosen).2 where
  reference_eq := (Query.reference_lowerBound walk.query p).trans h.reference_eq
  mem_of_pending r hr := by
    obtain ⟨hpending, hne⟩ := Query.mem_pending_lowerBound.1 hr
    exact (List.mem_cons.1 (h.mem_of_pending r hpending)).resolve_left hne
  lawful c hc := by
    rcases List.mem_cons.1 hc with rfl | hc
    · exact h.lawful_consult hps
    · exact h.lawful c hc

theorem OnCourse.kept_enter (hps : Remaining (p :: ps) chosen)
    (h : OnCourse reference (p :: ps) chosen walk) :
    Kept reference ps (enter F p ps chosen walk) := by
  rw [enter]
  split
  · exact h.kept_consult hps
  · exact (h.kept_consult hps).resetFrom

/-- Above the bound of a position the chosen values are not those of the reference. -/
theorem not_begins_of_lt (hps : Remaining (p :: ps) chosen)
    (h : OnCourse reference (p :: ps) chosen walk) (hv : (walk.query.lowerBound p).1 < v) :
    ¬reference.clock.BeginsWith (chosen ++ [v]) := by
  rw [WallClock.beginsWith_concat_iff hps.rank_head]
  rintro ⟨hbegins, rfl⟩
  exact absurd (bound_of_begins h hbegins) hv.ne

/-- The walk is on course below the first value that is tried: that is the bound, and the positions
left have kept theirs, or the bound is not selected and they have started over. -/
theorem onCourse_enter {years : List Int} (hps : Remaining (p :: ps) chosen)
    (h : OnCourse reference (p :: ps) chosen walk)
    (hoffers : Offers F years p chosen (walk.query.lowerBound p).1 values)
    (hv : values.head? = some v) :
    OnCourse reference ps (chosen ++ [v]) (enter F p ps chosen walk) := by
  have hpairwise := List.pairwise_cons.1 hps.pairwise_rank
  rcases hoffers.head_cases hv with ⟨hincl, rfl⟩ | ⟨hincl, hlt⟩
  · have henter : enter F p ps chosen walk = (walk.consult p chosen).2 := by
      simp only [enter, hincl, if_true]
    rw [henter]
    refine { toKept := h.kept_consult hps, pending_of_begins := ?_, pending_eq_nil := ?_ }
    · intro hbegins r hr
      obtain ⟨hbegins, -⟩ := (WallClock.beginsWith_concat_iff hps.rank_head).1 hbegins
      have hne : r ≠ p := by
        rintro rfl
        exact Nat.lt_irrefl _ (hpairwise.1 r hr)
      exact Query.mem_pending_lowerBound.2
        ⟨h.pending_of_begins hbegins r (List.mem_cons_of_mem p hr), hne⟩
    · intro hbegins
      have hchosen : ¬reference.clock.BeginsWith chosen := fun hchosen => hbegins
        ((WallClock.beginsWith_concat_iff hps.rank_head).2 ⟨hchosen, bound_of_begins h hchosen⟩)
      rw [List.eq_nil_iff_forall_not_mem]
      intro r hr
      have hpending := (Query.mem_pending_lowerBound.1 hr).1
      rw [h.pending_eq_nil hchosen] at hpending
      exact List.not_mem_nil hpending
  · simp only [enter, hincl, Bool.false_eq_true, if_false]
    exact onCourse_resetFrom hpairwise.2 (h.kept_consult hps) (not_begins_of_lt hps h hlt)

/-! ## Whole searches -/

/-- The search of some positions keeps the invariant, whatever comes of it. -/
theorem kept_descend (hps : Remaining ps chosen) (h : OnCourse reference ps chosen walk)
    (hrun : descend Calendar.almanac F limit ps chosen walk = .ok (o, walk')) :
    Kept reference ps walk' := by
  induction ps generalizing chosen walk walk' o with
  | nil =>
    cases hrun
    exact h.toKept
  | cons p ps ih =>
    have hpairwise := (List.pairwise_cons.1 hps.pairwise_rank).2
    -- which years are tried does not matter here, so that they may be those from the bound on
    obtain ⟨values, hvalues, hoffers⟩ := exists_candidates F limit (walk.query.lowerBound p).1
      hps.toBelow fun _ => rfl
    rw [descend_cons, hvalues] at hrun
    have hstep : ∀ v ∈ values, ∀ s o s', OnCourse reference ps (chosen ++ [v]) s →
        attempt Calendar.almanac F limit p ps chosen v s = .ok (o, s') →
        Kept reference ps s' ∧ Kept reference ps (s'.resetFrom ps) ∧
          ∀ u, v < u → OnCourse reference ps (chosen ++ [u]) (s'.resetFrom ps) := by
      intro v hv s o s' hs hattempt
      obtain ⟨hbound, hselected⟩ := hoffers.selected v hv
      have hs' : Kept reference ps s' := by
        obtain ⟨b, -, hb⟩ := bind_eq_ok_iff.1 hattempt
        cases b with
        | true => exact ih (hps.snoc hselected) hs hb
        | false =>
          cases hb
          exact hs.toKept
      refine ⟨hs', hs'.resetFrom, fun u hu => ?_⟩
      exact onCourse_resetFrom hpairwise hs' (not_begins_of_lt hps h (by omega))
    have hkept : Kept reference ps walk' := firstOf_keeps
      (fun v => OnCourse reference ps (chosen ++ [v])) (Kept reference ps) (· < ·)
      hoffers.ascending (h.kept_enter hps) (fun v hv => onCourse_enter hps h hoffers hv) hstep hrun
    exact { hkept with mem_of_pending := fun r hr =>
      List.mem_cons_of_mem p (hkept.mem_of_pending r hr) }

/-- A search only adds to its account of the bounds, at least that of its first position. -/
theorem suffix_descend_cons
    (hbelow : ∀ {chosen walk o walk'},
      descend Calendar.almanac F limit ps chosen walk = .ok (o, walk') →
        walk.consulted <:+ walk'.consulted)
    (hrun : descend Calendar.almanac F limit (p :: ps) chosen walk = .ok (o, walk')) :
    (walk.consult p chosen).2.consulted <:+ walk'.consulted := by
  obtain ⟨values, -, hrun⟩ := bind_eq_ok_iff.1 hrun
  have henter : (enter F p ps chosen walk).consulted = (walk.consult p chosen).2.consulted := by
    rw [enter]
    split <;> rfl
  have hattempt : ∀ v s o s', attempt Calendar.almanac F limit p ps chosen v s = .ok (o, s') →
      s.consulted <:+ s'.consulted := by
    intro v s o s' h
    obtain ⟨b, -, h⟩ := bind_eq_ok_iff.1 h
    cases b with
    | true => exact hbelow h
    | false =>
      cases h
      exact List.suffix_rfl
  let kept (s : Walk) : Prop := (walk.consult p chosen).2.consulted <:+ s.consulted
  have hstart : kept (enter F p ps chosen walk) := by
    simp only [kept, henter, List.suffix_rfl]
  refine firstOf_keeps (fun _ => kept) kept (fun _ _ => True)
    (List.pairwise_of_forall fun _ _ => trivial) hstart (fun _ _ => hstart) ?_ hrun
  intro v _ s o s' hs h
  have hs' : kept s' := List.IsSuffix.trans hs (hattempt v s o s' h)
  exact ⟨hs', hs', fun _ _ => hs'⟩

theorem suffix_descend (hrun : descend Calendar.almanac F limit ps chosen walk = .ok (o, walk')) :
    walk.consulted <:+ walk'.consulted := by
  induction ps generalizing chosen walk walk' o with
  | nil =>
    cases hrun
    exact List.suffix_rfl
  | cons p ps ih => exact (List.suffix_cons _ _).trans (suffix_descend_cons ih hrun)

theorem exists_descend_of_run {q : Query} {outcome : Outcome}
    (hrun : run Calendar.almanac F limit q = .ok (outcome, walk)) :
    ∃ o, descend Calendar.almanac F limit Position.inOrder [] ⟨q, []⟩ = .ok (o, walk) := by
  obtain ⟨⟨o, walk'⟩, hdescend, hend⟩ := bind_eq_ok_iff.1 hrun
  refine ⟨o, ?_⟩
  cases o with
  | none =>
    cases hend
    exact hdescend
  | some values =>
    obtain ⟨clock, -, hend⟩ := bind_eq_ok_iff.1 hend
    cases hend
    exact hdescend

end Search

namespace Fields

variable {F : Fields} {limit : Int} {a j : Instant} {outcome : Search.Outcome}

/-- A search that has a reference ends. -/
theorem exists_search (F : Fields) (limit : Int) (h : a.nextWholeSecond? = some j) :
    ∃ outcome, F.search a limit = .ok outcome := by
  rcases search_cases F limit h with ⟨_, -, hsearch⟩ | ⟨-, hsearch⟩
  · exact ⟨_, hsearch⟩
  · exact ⟨_, hsearch⟩

theorem exists_run_of_search (h : a.nextWholeSecond? = some j)
    (hsearch : F.search a limit = .ok outcome) :
    ∃ walk, Search.run Calendar.almanac F limit (Query.ofReference j) = .ok (outcome, walk) := by
  rw [search_eq_map_run F limit h] at hsearch
  cases hrun : Search.run Calendar.almanac F limit (Query.ofReference j) with
  | error e =>
    rw [hrun] at hsearch
    cases hsearch
  | ok result =>
    rw [hrun] at hsearch
    cases hsearch
    exact ⟨result.2, rfl⟩

/-- The bounds of a search follow its reference.  After an instant with a later second the search
begins at that second, with its year, and comes to an end.  Each time a position is asked for its
bound, all more significant values have been chosen.  As long as they are those of the
reference, the bound is that of the reference, and the position and all less significant ones are
pending until then; otherwise the bound is the lowest value of the unit, and nothing is pending any
more. -/
theorem bounds_follow_reference (F : Fields) (a : Instant) (limit : Int) :
    match a.nextWholeSecond? with
    | none => F.search a limit = .ok .noLaterSecond
    | some j => ∃ outcome walk,
        Search.run Calendar.almanac F limit (Query.ofReference j) = .ok (outcome, walk) ∧
        F.search a limit = .ok outcome ∧
        walk.consulted.getLast? =
          some ⟨.year, [], j.clock.date.year, Position.inOrder⟩ ∧
        ∀ c ∈ walk.consulted, c.Lawful j.clock := by
  cases hnext : a.nextWholeSecond? with
  | none => exact search_of_no_later_second F limit hnext
  | some j =>
    obtain ⟨outcome, hsearch⟩ := exists_search F limit hnext
    obtain ⟨walk, hrun⟩ := exists_run_of_search hnext hsearch
    obtain ⟨o, hdescend⟩ := Search.exists_descend_of_run hrun
    have hcourse : Search.OnCourse j Position.inOrder [] ⟨Query.ofReference j, []⟩ := {
      reference_eq := rfl
      mem_of_pending := fun r hr => hr
      lawful := by simp
      pending_of_begins := fun _ r hr => hr
      pending_eq_nil := fun h => absurd j.clock.beginsWith_nil h }
    refine ⟨outcome, walk, hrun, hsearch, ?_, ?_⟩
    · obtain ⟨later, hlater⟩ := Search.suffix_descend_cons Search.suffix_descend hdescend
      rw [← hlater]
      exact List.getLast?_concat
    · exact (Search.kept_descend Search.remaining_inOrder hcourse hdescend).lawful

/-- The last hour of a month has passed, so that the next day and hour start from their lowest. -/
example : ((parse "0 0 8 * * * 2018".toList).toOption.bind fun F =>
      (Search.run Calendar.almanac F 400 (Query.ofReference (.ofClock
        ⟨⟨2018, 6, 30, by decide, by decide, by decide⟩,
          ⟨9, 0, 1, by decide, by decide, by decide⟩⟩ none))).toOption).map
      (fun result => result.2.consulted.reverse.map fun c => (c.chosen, c.bound)) =
    some [([], 2018), ([2018], 6), ([2018, 6], 30), ([2018, 6, 30], 9), ([2018, 7], 1),
      ([2018, 7, 1], 0), ([2018, 7, 1, 8], 0), ([2018, 7, 1, 8, 0], 0)] := by
  rfl

end Fields
end Timetable
