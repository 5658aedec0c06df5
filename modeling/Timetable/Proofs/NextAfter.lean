import Timetable.Proofs.Descent
import Timetable.Proofs.Order
import Timetable.Proofs.Traversal

/-!
# The first instant after a given one

The search after an instant answers with the earliest whole second that is later, satisfies the
fields and lies in one of the years that are tried.  It finds nothing only when there is none, and
the calendar never refuses what it asks.  But a search that gives up has a message about its limit
to word, and where the limit has too many digits for that it ends with an error.

## Main definitions

* `Fields.Eligible`: a search may answer a wall clock.
* `Fields.Untold`, `Fields.UntoldAfter`: nothing can be told of a search.
* `Fields.AnswersExactly`: the answer of a search is exact.

## Main statements

* `Fields.search_cases`: how a search ends.
* `Fields.nextAfter_eq_some_iff`, `Fields.nextAfter_eq_none_iff`, `Fields.nextAfter_eq_error_iff`:
  what it answers.
* `Fields.nextAfter_exact`: searches are exact except where nothing can be told of them.
-/

namespace Timetable

namespace Fields

/-- A search that begins at a wall clock may answer another one: that is not before it, satisfies
the fields and lies in a year that is tried. -/
structure Eligible (F : Fields) (limit : Int) (reference w : WallClock) : Prop where
  not_before : reference ≤ w
  satisfies : F.includes w = true
  year_mem : w.date.year ∈ F.yearsFrom limit reference.date.year

variable {F : Fields} {limit : Int} {i j r : Instant}

/-- No year is tried with a negative limit. -/
theorem Eligible.nonneg {reference w : WallClock} (h : F.Eligible limit reference w) :
    0 ≤ limit := by
  by_contra hlimit
  have hzero : (limit + 1).toNat = 0 := by omega
  have hyear := h.year_mem
  rw [yearsFrom, hzero, List.take_zero] at hyear
  exact List.not_mem_nil hyear

theorem mem_completions_inOrder_iff {reference : WallClock} {values : List Int} :
    values ∈ Search.completions F (F.yearsFrom limit reference.date.year) Position.inOrder []
        reference.toList ↔
      ∃ w : WallClock, w.toList = values ∧ F.Eligible limit reference w := by
  simp only [Search.completions, Set.mem_ofPred_eq, Search.completes_inOrder_iff]
  constructor
  · rintro ⟨⟨w, rfl, hincl, hyear⟩, hle⟩
    exact ⟨w, rfl, WallClock.le_iff_toList_le.2 hle, hincl, hyear⟩
  · rintro ⟨w, rfl, hw⟩
    exact ⟨⟨w, rfl, hw.satisfies, hw.year_mem⟩, WallClock.le_iff_toList_le.1 hw.not_before⟩

/-- Nothing can be told of a search from a year on: its limit is negative, so that it gives up at
once, before a selected year, and the limit has too many digits for the message about that. -/
structure Untold (F : Fields) (limit year : Int) : Prop where
  negative : limit < 0
  not_writable : ¬Text.Writable limit
  year_left : ∃ y, F.years.includes y = true ∧ year ≤ y

/-! ## How a search ends -/

theorem search_eq_map_run (F : Fields) (limit : Int) (h : i.nextWholeSecond? = some j) :
    F.search i limit =
      (Search.run Calendar.almanac F limit (Query.ofReference j)).map (·.1) := by
  have hafter : Query.after? i = some (Query.ofReference j) := by simp [Query.after?, h]
  simp only [search, Search.after, hafter]
  cases Search.run Calendar.almanac F limit (Query.ofReference j) <;> rfl

/-- The search ends without a question to the calendar that has no answer: with the least eligible
wall clock, or because there is none. -/
theorem search_cases (F : Fields) (limit : Int) (h : i.nextWholeSecond? = some j) :
    (∃ w, IsLeast {w | F.Eligible limit j.clock w} w ∧
        F.search i limit = .ok (.found (.ofClock w i.zone))) ∨
      ((∀ w, ¬F.Eligible limit j.clock w) ∧
        F.search i limit = .ok (Search.failure F limit j.clock.date.year)) := by
  have hbounds : (Query.ofReference j).bounds Position.inOrder = j.clock.toList := rfl
  obtain ⟨o, walk, hdescend, hanswers⟩ := Search.descend_answers F limit j.clock.date.year
    ⟨Query.ofReference j, []⟩ Search.below_inOrder fun _ => rfl
  rw [hbounds] at hanswers
  rw [search_eq_map_run F limit h, Search.run, hdescend]
  cases o with
  | none =>
    refine .inr ⟨?_, rfl⟩
    intro w hw
    exact Set.notMem_empty w.toList (hanswers ▸ mem_completions_inOrder_iff.2 ⟨w, rfl, hw⟩)
  | some values =>
    obtain ⟨rest, ⟨hmem, hleast⟩, rfl⟩ := hanswers
    obtain ⟨w, rfl, hw⟩ := mem_completions_inOrder_iff.1 hmem
    refine .inl ⟨w, ⟨hw, ?_⟩, ?_⟩
    · intro x hx
      exact WallClock.le_iff_toList_le.2
        (hleast (mem_completions_inOrder_iff.2 ⟨x, rfl, hx⟩))
    · have hclock : Calendar.almanac.clock w.toList = .ok w := by
        simp only [Calendar.almanac, WallClock.ofList?_toList]
      simp only [bind, Except.bind, hclock, ← Instant.zone_of_nextWholeSecond? h]
      rfl

theorem search_of_no_later_second (F : Fields) (limit : Int) (h : i.nextWholeSecond? = none) :
    F.search i limit = .ok .noLaterSecond := by
  simp only [search, Search.after, Query.after?, h, Option.map_none]
  rfl

/-- A limit that is not negative admits all selected years, or it can be written. -/
theorem length_years_le_of_not_writable (hlimit : 0 ≤ limit) (h : ¬Text.Writable limit)
    (year : Int) : (F.years.toList.filter (year ≤ ·)).length ≤ (limit + 1).toNat := by
  have hlength := (List.length_filter_le (year ≤ ·) F.years.toList).trans
    (F.years.length_toList.trans_le F.years.count_le_size)
  have hsize : TimeUnit.years.size = 9999 := rfl
  have hlarge : ¬limit.natAbs < 10000 := fun hsmall => h (Text.writable_of_natAbs_lt hsmall)
  omega

/-- A search that finds nothing has an answer unless nothing can be told of it. -/
theorem answer_failure (F : Fields) (limit year : Int) :
    F.Untold limit year ∧ (Search.failure F limit year).answer = .error .overlong ∨
      ¬F.Untold limit year ∧ (Search.failure F limit year).answer = .ok none := by
  rw [Search.failure, F.range_years]
  cases hdrop : (F.years.toList.filter (year ≤ ·)).drop (limit + 1).toNat with
  | nil =>
    refine .inr ⟨?_, rfl⟩
    rintro ⟨hnegative, -, y, hincl, hle⟩
    have hmem : y ∈ F.years.toList.filter (year ≤ ·) :=
      List.mem_filter.2 ⟨Selection.mem_toList.2 hincl, by simpa using hle⟩
    have hzero : (limit + 1).toNat = 0 := by omega
    rw [hzero, List.drop_zero] at hdrop
    exact List.not_mem_nil (hdrop ▸ hmem)
  | cons next rest =>
    by_cases hwritable : Text.Writable limit
    · exact .inr ⟨fun h => h.not_writable hwritable, by simp only [hwritable, if_true]; rfl⟩
    · refine .inl ⟨⟨?_, hwritable, next, ?_⟩, by simp only [hwritable, if_false]; rfl⟩
      · by_contra hlimit
        have hnil := List.drop_eq_nil_iff.2
          (length_years_le_of_not_writable (F := F) (not_lt.1 hlimit) hwritable year)
        rw [hnil] at hdrop
        cases hdrop
      · have hmem : next ∈ F.years.toList.filter (year ≤ ·) :=
          List.mem_of_mem_drop (hdrop ▸ List.mem_cons_self)
        obtain ⟨hincl, hle⟩ := List.mem_filter.1 hmem
        exact ⟨Selection.mem_toList.1 hincl, by simpa using hle⟩

/-! ## What a search answers -/

theorem nextAfter_of_search {outcome : Search.Outcome} (h : F.search i limit = .ok outcome) :
    F.nextAfter i limit = outcome.answer := by
  rw [nextAfter, h]
  rfl

theorem nextAfter_of_no_later_second (F : Fields) (limit : Int) (h : i.nextWholeSecond? = none) :
    F.nextAfter i limit = .ok none :=
  nextAfter_of_search (search_of_no_later_second F limit h)

/-- Where nothing can be told of a search, no year is tried. -/
theorem Untold.not_eligible {reference w : WallClock} (h : F.Untold limit reference.date.year) :
    ¬F.Eligible limit reference w :=
  fun hw => not_lt.2 hw.nonneg h.negative

/-- The answer of a search is the least eligible wall clock, that there is none, or an error. -/
theorem nextAfter_cases (F : Fields) (limit : Int) (h : i.nextWholeSecond? = some j) :
    (∃ w, IsLeast {w | F.Eligible limit j.clock w} w ∧
        F.nextAfter i limit = .ok (some (.ofClock w i.zone))) ∨
      (∀ w, ¬F.Eligible limit j.clock w) ∧
        (F.Untold limit j.clock.date.year ∧ F.nextAfter i limit = .error .overlong ∨
          ¬F.Untold limit j.clock.date.year ∧ F.nextAfter i limit = .ok none) := by
  rcases search_cases F limit h with ⟨w, hw, hsearch⟩ | ⟨hnone, hsearch⟩
  · exact .inl ⟨w, hw, nextAfter_of_search hsearch⟩
  · rw [nextAfter_of_search hsearch]
    exact .inr ⟨hnone, F.answer_failure limit j.clock.date.year⟩

theorem nextAfter_eq_some_iff (h : i.nextWholeSecond? = some j) :
    F.nextAfter i limit = .ok (some r) ↔
      ∃ w, IsLeast {w | F.Eligible limit j.clock w} w ∧ r = .ofClock w i.zone := by
  rcases nextAfter_cases F limit h with ⟨w, hw, hanswer⟩ | ⟨hnone, hanswer⟩
  · rw [hanswer, Except.ok.injEq, Option.some.injEq]
    constructor
    · rintro rfl
      exact ⟨w, hw, rfl⟩
    · rintro ⟨x, hx, rfl⟩
      rw [hw.unique hx]
  · have hne : F.nextAfter i limit ≠ .ok (some r) := by
      rcases hanswer with ⟨-, hanswer⟩ | ⟨-, hanswer⟩ <;> simp [hanswer]
    refine ⟨fun hsome => absurd hsome hne, ?_⟩
    rintro ⟨w, hw, -⟩
    exact absurd hw.1 (hnone w)

theorem nextAfter_eq_none_iff (h : i.nextWholeSecond? = some j) :
    F.nextAfter i limit = .ok none ↔
      (∀ w, ¬F.Eligible limit j.clock w) ∧ ¬F.Untold limit j.clock.date.year := by
  rcases nextAfter_cases F limit h with
    ⟨w, hw, hanswer⟩ | ⟨hnone, ⟨huntold, hanswer⟩ | ⟨htold, hanswer⟩⟩
  · simp only [hanswer, Except.ok.injEq, reduceCtorEq, false_iff]
    exact fun hnone => hnone.1 w hw.1
  · simp [hanswer, huntold]
  · simp only [hanswer, true_iff]
    exact ⟨hnone, htold⟩

theorem nextAfter_eq_error_iff {e : SearchError} (h : i.nextWholeSecond? = some j) :
    F.nextAfter i limit = .error e ↔ e = .overlong ∧ F.Untold limit j.clock.date.year := by
  rcases nextAfter_cases F limit h with
    ⟨w, hw, hanswer⟩ | ⟨-, ⟨huntold, hanswer⟩ | ⟨htold, hanswer⟩⟩
  · simp only [hanswer, reduceCtorEq, false_iff]
    exact fun huntold => huntold.2.not_eligible hw.1
  · simp [hanswer, huntold, eq_comm]
  · simp [hanswer, htold]

/-- There is a later second, and nothing can be told of the search from there. -/
def UntoldAfter (F : Fields) (a : Instant) (limit : Int) : Prop :=
  ∃ i, a.nextWholeSecond? = some i ∧ F.Untold limit i.clock.date.year

theorem nextAfter_eq_error_iff_untoldAfter {e : SearchError} :
    F.nextAfter i limit = .error e ↔ e = .overlong ∧ F.UntoldAfter i limit := by
  cases hnext : i.nextWholeSecond? with
  | none => simp [nextAfter_of_no_later_second F limit hnext, UntoldAfter, hnext]
  | some j => simp [nextAfter_eq_error_iff hnext, UntoldAfter, hnext]

/-- A search has an answer except where nothing can be told of it. -/
theorem exists_nextAfter_eq_ok_iff :
    (∃ answer, F.nextAfter i limit = .ok answer) ↔ ¬F.UntoldAfter i limit := by
  rw [exists_ok_iff]
  simp only [ne_eq, nextAfter_eq_error_iff_untoldAfter, not_and, forall_eq]

theorem not_untoldAfter_of_nonneg (F : Fields) (i : Instant) (h : 0 ≤ limit) :
    ¬F.UntoldAfter i limit :=
  fun ⟨_, _, huntold⟩ => not_lt.2 h huntold.negative

theorem not_untoldAfter_of_writable (F : Fields) (i : Instant) (h : Text.Writable limit) :
    ¬F.UntoldAfter i limit :=
  fun ⟨_, _, huntold⟩ => huntold.not_writable h

/-- What a search answers is the least eligible wall clock. -/
theorem isLeast_of_nextAfter (h : F.nextAfter i limit = .ok (some r)) :
    ∃ first w, i.nextWholeSecond? = some first ∧
      IsLeast {w | F.Eligible limit first.clock w} w ∧ r = .ofClock w i.zone := by
  cases hnext : i.nextWholeSecond? with
  | none => simp [nextAfter_of_no_later_second F limit hnext] at h
  | some first =>
    obtain ⟨w, hw, rfl⟩ := (nextAfter_eq_some_iff hnext).1 h
    exact ⟨first, w, rfl, hw, rfl⟩

/-- A search finds nothing with a negative limit. -/
theorem nonneg_of_nextAfter (h : F.nextAfter i limit = .ok (some r)) : 0 ≤ limit := by
  obtain ⟨first, w, -, hw, -⟩ := isLeast_of_nextAfter h
  exact hw.1.nonneg

/-- What a search answers is a later whole second of the same zone. -/
theorem precedes_of_nextAfter (h : F.nextAfter i limit = .ok (some r)) :
    i.Precedes r ∧ r.microsecond = 0 ∧ r.zone = i.zone := by
  obtain ⟨first, w, hnext, hw, rfl⟩ := isLeast_of_nextAfter h
  refine ⟨Instant.precedes_ofClock_iff.2 ⟨rfl, ?_⟩, rfl, rfl⟩
  exact (Instant.clock_lt_iff_of_nextWholeSecond? hnext).2 hw.1.not_before

/-- The answer of a search depends on the wall clock only, apart from its zone. -/
theorem nextAfter_eq_map (F : Fields) (limit : Int) (h : j.clock = i.clock) :
    F.nextAfter j limit =
      (F.nextAfter i limit).map (Option.map fun r => .ofClock r.clock j.zone) := by
  cases hnext : i.clock.next? with
  | none =>
    have hi : i.nextWholeSecond? = none := by simp [Instant.nextWholeSecond?, hnext]
    have hj : j.nextWholeSecond? = none := by simp [Instant.nextWholeSecond?, h, hnext]
    rw [nextAfter_of_no_later_second F limit hi, nextAfter_of_no_later_second F limit hj]
    rfl
  | some w =>
    have hi : i.nextWholeSecond? = some (.ofClock w i.zone) := by
      simp [Instant.nextWholeSecond?, hnext]
    have hj : j.nextWholeSecond? = some (.ofClock w j.zone) := by
      simp [Instant.nextWholeSecond?, h, hnext]
    cases hanswer : F.nextAfter i limit with
    | error e => exact (nextAfter_eq_error_iff hj).2 ((nextAfter_eq_error_iff hi).1 hanswer)
    | ok o =>
      cases o with
      | none => exact (nextAfter_eq_none_iff hj).2 ((nextAfter_eq_none_iff hi).1 hanswer)
      | some r =>
        obtain ⟨x, hx, rfl⟩ := (nextAfter_eq_some_iff hi).1 hanswer
        exact (nextAfter_eq_some_iff hj).2 ⟨x, hx, rfl⟩

/-! ## Exact answers -/

/-- The answer of a search is exact: nothing if there is no later second, and otherwise the earliest
eligible wall clock, or nothing when there is none. -/
def AnswersExactly (F : Fields) (a : Instant) (limit : Int) : Prop :=
  match a.nextWholeSecond? with
  | none => F.nextAfter a limit = .ok none
  | some i =>
    (∀ r, F.nextAfter a limit = .ok (some r) ↔
      ∃ w, IsLeast {w | F.Eligible limit i.clock w} w ∧ r = .ofClock w a.zone) ∧
    (F.nextAfter a limit = .ok none ↔ ∀ w, ¬F.Eligible limit i.clock w)

theorem answersExactly_iff : F.AnswersExactly i limit ↔ ¬F.UntoldAfter i limit := by
  rw [AnswersExactly]
  cases hnext : i.nextWholeSecond? with
  | none => simp [nextAfter_of_no_later_second F limit hnext, UntoldAfter, hnext]
  | some j =>
    simp only [UntoldAfter, hnext, Option.some.injEq, exists_eq_left', nextAfter_eq_none_iff hnext]
    constructor
    · rintro ⟨-, hnone⟩ huntold
      exact (hnone.2 fun w => huntold.not_eligible).2 huntold
    · intro htold
      exact ⟨fun r => nextAfter_eq_some_iff hnext, and_iff_left htold⟩

/-- A limit with one digit too many, taken below zero, leaves nothing to tell of the search after an
instant whose next year is selected. -/
theorem untold_neg_leastOverlong {year : Int} (hyear : F.years.includes year = true) :
    F.Untold (-Text.leastOverlong) year where
  negative := Int.neg_neg_of_pos (Int.natCast_pos.2 Text.leastOverlong_pos)
  not_writable hwritable := Text.not_writable_leastOverlong (Text.writable_neg.1 hwritable)
  year_left := ⟨year, hyear, le_rfl⟩

/-- The fields without any restriction. -/
def unrestricted : Fields :=
  ⟨.every, .every, .every, .every, .every, .every, .every⟩

/-- Without any restriction that happens after every second but the last, as after this one. -/
theorem exists_untold_unrestricted :
    ∃ a i : Instant, a.clock.toList = [2018, 6, 15, 9, 30, 0] ∧ a.nextWholeSecond? = some i ∧
      i.clock.date.year = 2018 ∧
      unrestricted.Untold (-Text.leastOverlong) i.clock.date.year := by
  let clock (second : Int) (h : TimeUnit.seconds.Holds second) : WallClock :=
    ⟨⟨2018, 6, 15, by decide, by decide, by decide⟩, ⟨9, 30, second, by decide, by decide, h⟩⟩
  exact ⟨.ofClock (clock 0 (by decide)) none, .ofClock (clock 1 (by decide)) none, rfl, by decide,
    rfl, untold_neg_leastOverlong rfl⟩

end Fields
end Timetable
