import Timetable.Proofs.Selection
import Timetable.Search
import Mathlib.Data.List.Lex
import Mathlib.Order.Bounds.Basic

/-!
# The least values of a search

A search chooses a value at each position of a wall clock, the most significant first, and goes
back when a value leads nowhere.  The values it ends with are the least, in lexicographic order, of
all that may stand at the positions and are not below the bounds of its query.  What carries the
induction is that, whichever positions have started over, the bounds of the walk below a value that
is tried leave the same completions as the bounds at the beginning of its position.

## Main definitions

* `Fields.yearsFrom`: the years that a search tries.
* `Search.Allows`, `Search.Completes`: what may stand at one position and at all that are left.
* `Search.Ready`: the bounds of a walk suit a value that is tried.

## Main statements

* `Search.firstOf_spec`: the answer of a loop with early exit, from an invariant of its state.
* `Search.descend_answers`: the search finds the least completion, without an error.
* `Search.completes_inOrder_iff`: complete lists of values are wall clocks that satisfy the fields.
-/

namespace Timetable

/-- The lowest values to consider at some positions. -/
def Query.bounds (q : Query) (ps : List Position) : List Int :=
  ps.map fun p => (q.lowerBound p).1

/-- The years that a search from a year on tries: the first `limit + 1` selected ones. -/
def Fields.yearsFrom (F : Fields) (limit year : Int) : List Int :=
  (F.years.toList.filter (year ≤ ·)).take (limit + 1).toNat

/-- A beginning of an ascending list has every member up to each of its own. -/
theorem Ordinals.mem_take_of_le {xs : List Int} (hxs : xs.Pairwise (· < ·)) {k : Nat} {m n : Int}
    (hn : n ∈ xs.take k) (hm : m ∈ xs) (hle : m ≤ n) : m ∈ xs.take k := by
  rw [← List.take_append_drop k xs] at hm hxs
  rcases List.mem_append.1 hm with hm | hm
  · exact hm
  · have := (List.pairwise_append.1 hxs).2.2 n hn m hm
    omega

namespace Fields

variable {F : Fields} {limit first year : Int}

/-- The window of years that ends with the domain is bounded below only. -/
theorem range_years (F : Fields) (bound : Int) :
    F.years.range bound TimeUnit.years.hi = F.years.toList.filter (bound ≤ ·) := by
  rw [Selection.range_eq_filter]
  apply List.filter_congr
  intro y hy
  have := (Selection.holds_of_includes (Selection.mem_toList.1 hy)).2
  simp [this]

theorem mem_yearsFrom (h : year ∈ F.yearsFrom limit first) :
    first ≤ year ∧ F.years.includes year = true := by
  have hmem := List.mem_filter.1 (List.mem_of_mem_take h)
  exact ⟨by simpa using hmem.2, Selection.mem_toList.1 hmem.1⟩

/-- Before a year that is tried every selected one is tried. -/
theorem mem_yearsFrom_of_le {y : Int} (h : year ∈ F.yearsFrom limit first) (hfirst : first ≤ y)
    (hle : y ≤ year) (hincl : F.years.includes y = true) : y ∈ F.yearsFrom limit first := by
  refine Ordinals.mem_take_of_le (F.years.pairwise_toList.filter _) h ?_ hle
  exact List.mem_filter.2 ⟨Selection.mem_toList.2 hincl, by simpa using hfirst⟩

theorem pairwise_yearsFrom (F : Fields) (limit first : Int) :
    (F.yearsFrom limit first).Pairwise (· < ·) :=
  (F.years.pairwise_toList.filter _).sublist (List.take_sublist _ _)

end Fields

namespace Search

/-! ## The first value that leads somewhere -/

variable {α σ ε : Type}

theorem firstOf_cons_of_some {attempt : Int → σ → Except ε (Option α × σ)} {onward : σ → σ}
    {v : Int} {values : List Int} {s s' : σ} {a : α} (h : attempt v s = .ok (some a, s')) :
    firstOf attempt onward (v :: values) s = .ok (some a, s') := by
  rw [firstOf, h]
  rfl

theorem firstOf_cons_of_none {attempt : Int → σ → Except ε (Option α × σ)} {onward : σ → σ}
    {v : Int} {values : List Int} {s s' : σ} (h : attempt v s = .ok (none, s')) :
    firstOf attempt onward (v :: values) s = firstOf attempt onward values (onward s') := by
  rw [firstOf, h]
  rfl

/-- The answer of the first value that has one is that of the whole list. -/
theorem firstOf_spec {attempt : Int → σ → Except ε (Option α × σ)} {onward : σ → σ}
    {ready : Int → σ → Prop} {answers : Int → Option α → Prop} {values : List Int} {state : σ}
    (hasc : values.Pairwise (· < ·))
    (hstart : ∀ v, values.head? = some v → ready v state)
    (hstep : ∀ v ∈ values, ∀ s, ready v s → ∃ o s', attempt v s = .ok (o, s') ∧ answers v o ∧
      (o = none → ∀ u, v < u → ready u (onward s'))) :
    ∃ o s', firstOf attempt onward values state = .ok (o, s') ∧
      ((o = none ∧ ∀ v ∈ values, answers v none) ∨
        ∃ v ∈ values, ∃ a, o = some a ∧ answers v (some a) ∧
          ∀ u ∈ values, u < v → answers u none) := by
  induction values generalizing state with
  | nil => exact ⟨none, state, rfl, .inl ⟨rfl, by simp⟩⟩
  | cons v values ih =>
    obtain ⟨hv, hasc⟩ := List.pairwise_cons.1 hasc
    obtain ⟨o, s, hattempt, hanswer, honward⟩ :=
      hstep v List.mem_cons_self state (hstart v rfl)
    cases o with
    | some a =>
      refine ⟨some a, s, firstOf_cons_of_some hattempt, .inr ?_⟩
      refine ⟨v, List.mem_cons_self, a, rfl, hanswer, ?_⟩
      intro u hu huv
      rcases List.mem_cons.1 hu with rfl | hu
      · omega
      · have := hv u hu
        omega
    | none =>
      obtain ⟨o, s', hrest, hcases⟩ := ih hasc
        (fun u hu => honward rfl u (hv u (List.mem_of_head? hu)))
        (fun u hu => hstep u (List.mem_cons_of_mem v hu))
      refine ⟨o, s', (firstOf_cons_of_none hattempt).trans hrest, ?_⟩
      rcases hcases with ⟨ho, hnone⟩ | ⟨w, hw, a, ho, ha, hbefore⟩
      · exact .inl ⟨ho, by simpa using ⟨hanswer, hnone⟩⟩
      · refine .inr ⟨w, List.mem_cons_of_mem v hw, a, ho, ha, ?_⟩
        intro u hu huw
        rcases List.mem_cons.1 hu with rfl | hu
        · exact hanswer
        · exact hbefore u hu huw

/-! ## Lists of values -/

theorem cons_le_cons_iff {a b : Int} {l m : List Int} :
    a :: l ≤ b :: m ↔ a < b ∨ a = b ∧ l ≤ m := by
  rw [← not_lt, List.cons_lt_cons_iff, ← not_lt]
  grind

/-- Some positions are those below the chosen values, the most significant first. -/
structure Below (ps : List Position) (chosen : List Int) : Prop where
  rank_eq : ∀ i p, ps[i]? = some p → p.rank = chosen.length + i
  month_holds : ∀ m, chosen[1]? = some m → TimeUnit.months.Holds m

theorem below_inOrder : Below Position.inOrder [] where
  rank_eq i p h := by
    obtain ⟨hi, rfl⟩ := List.getElem?_eq_some_iff.1 h
    have : ∀ i : Fin 6, (Position.inOrder[i.val]).rank = 0 + i.val := by decide
    exact this ⟨i, hi⟩
  month_holds := by simp

namespace Below

variable {F : Fields} {p r : Position} {ps : List Position} {chosen : List Int} {v : Int}

theorem rank_head (h : Below (p :: ps) chosen) : p.rank = chosen.length :=
  h.rank_eq 0 p rfl

theorem pairwise_rank (h : Below ps chosen) : ps.Pairwise (·.rank < ·.rank) := by
  rw [List.pairwise_iff_getElem]
  intro i j hi hj hij
  have hr := h.rank_eq i ps[i] (List.getElem?_eq_getElem hi)
  have hr' := h.rank_eq j ps[j] (List.getElem?_eq_getElem hj)
  omega

theorem snoc (h : Below (p :: ps) chosen) (hv : (F.get p.unit).includes v = true) :
    Below ps (chosen ++ [v]) where
  rank_eq i r hr := by
    have := h.rank_eq (i + 1) r hr
    simp only [List.length_append, List.length_singleton]
    omega
  month_holds m hm := by
    match chosen, h, hm with
    | [], _, hm => simp at hm
    | [_], h, hm =>
      obtain rfl : p = .month := Position.rank_inj.1 h.rank_head
      obtain rfl : v = m := by simpa using hm
      exact Selection.holds_of_includes hv
    | _ :: _ :: _, h, hm => exact h.month_holds m (by simpa using hm)

theorem eq_pair (h : Below (.day :: ps) chosen) :
    ∃ year month, chosen = [year, month] ∧ TimeUnit.months.Holds month := by
  obtain ⟨year, month, rfl⟩ := List.length_eq_two.1 h.rank_head.symm
  exact ⟨year, month, rfl, h.month_holds month rfl⟩

end Below

/-! ## Values that may stand at a position -/

/-- A value may stand at a position below the chosen ones: it is selected; a year is among those
tried; a day exists in its month and falls on a selected day of the week. -/
def Allows (F : Fields) (years : List Int) (p : Position) (chosen : List Int) (v : Int) : Prop :=
  (F.get p.unit).includes v = true ∧
    match p, chosen with
    | .year, _ => v ∈ years
    | .day, [year, month] =>
      v ≤ Calendar.monthLength year month ∧
        F.daysOfWeek.includes (Calendar.weekdayOf year month v) = true
    | _, _ => True

/-- The values may stand at the positions below the chosen ones, one at each. -/
def Completes (F : Fields) (years : List Int) : List Position → List Int → List Int → Prop
  | [], _, values => values = []
  | p :: ps, chosen, values =>
    ∃ v rest, values = v :: rest ∧ Allows F years p chosen v ∧
      Completes F years ps (chosen ++ [v]) rest

/-- The values to try at a position are selected ones from the bound on, among them all that may
stand there, and the search finds out of each whether it may. -/
structure Offers (F : Fields) (years : List Int) (p : Position) (chosen : List Int) (bound : Int)
    (values : List Int) : Prop where
  ascending : values.Pairwise (· < ·)
  selected : ∀ v ∈ values, bound ≤ v ∧ (F.get p.unit).includes v = true
  decided : ∀ v ∈ values,
    ∃ b, admits Calendar.almanac F p chosen v = .ok b ∧ (b = true ↔ Allows F years p chosen v)
  complete : ∀ v, bound ≤ v → Allows F years p chosen v → v ∈ values
  closed : ∀ v ∈ values, ∀ u, bound ≤ u → u ≤ v → (F.get p.unit).includes u = true → u ∈ values

/-- The first value to try is the bound, or the bound is not selected and the value is above it. -/
theorem Offers.head_cases {F : Fields} {years : List Int} {p : Position} {chosen : List Int}
    {bound v : Int} {values : List Int} (h : Offers F years p chosen bound values)
    (hv : values.head? = some v) :
    (F.get p.unit).includes bound = true ∧ v = bound ∨
      (F.get p.unit).includes bound = false ∧ bound < v := by
  have hmem := List.mem_of_head? hv
  obtain ⟨hle, hselected⟩ := h.selected v hmem
  cases hincl : (F.get p.unit).includes bound with
  | true =>
    refine .inl ⟨rfl, ?_⟩
    obtain ⟨rest, rfl⟩ := List.head?_eq_some_iff.1 hv
    rcases List.mem_cons.1 (h.closed v hmem _ le_rfl hle hincl) with heq | hbound
    · exact heq.symm
    · have := (List.pairwise_cons.1 h.ascending).1 _ hbound
      omega
  | false =>
    refine .inr ⟨rfl, ?_⟩
    rcases Int.lt_or_eq_of_le hle with hlt | rfl
    · exact hlt
    · rw [hselected] at hincl
      cases hincl

/-- The years to try are the first selected ones from the bound on. -/
theorem candidates_year (F : Fields) (limit : Int) (chosen : List Int) (bound : Int) :
    candidates Calendar.almanac F limit .year chosen bound = .ok (F.yearsFrom limit bound) ∧
      Offers F (F.yearsFrom limit bound) .year chosen bound (F.yearsFrom limit bound) := by
  refine ⟨?_, F.pairwise_yearsFrom limit bound, fun y hy => Fields.mem_yearsFrom hy, ?_, ?_, ?_⟩
  · simp only [candidates, F.range_years]
    rfl
  · intro y hy
    exact ⟨true, rfl, by simp [Allows, Position.unit, Fields.get, Fields.mem_yearsFrom hy, hy]⟩
  · intro y _ hallows
    exact hallows.2
  · intro y hy x hbound hle hincl
    exact Fields.mem_yearsFrom_of_le hy hbound hle hincl

/-- The days to try end with their month, and the calendar knows the day of the week of each. -/
theorem candidates_day (F : Fields) (limit : Int) {year month : Int} (years : List Int)
    (hmonth : TimeUnit.months.Holds month) (bound : Int) :
    candidates Calendar.almanac F limit .day [year, month] bound =
        .ok (F.daysOfMonth.range bound (Calendar.monthLength year month)) ∧
      Offers F years .day [year, month] bound
        (F.daysOfMonth.range bound (Calendar.monthLength year month)) := by
  refine ⟨?_, Selection.pairwise_range _ _ _, ?_, ?_, ?_, ?_⟩
  · have hlast : Calendar.almanac.lastDay year month = .ok (Calendar.monthLength year month) :=
      if_pos hmonth
    simp only [candidates, hlast]
    rfl
  · intro day hday
    obtain ⟨hbound, -, hincl⟩ := Selection.mem_range.1 hday
    exact ⟨hbound, hincl⟩
  · intro day hday
    obtain ⟨-, hlast, hincl⟩ := Selection.mem_range.1 hday
    have hexists : 1 ≤ day ∧ day ≤ Calendar.monthLength year month :=
      ⟨(Selection.holds_of_includes hincl).1, hlast⟩
    refine ⟨F.daysOfWeek.includes (Calendar.weekdayOf year month day), ?_, ?_⟩
    · have hweekday : Calendar.almanac.weekday year month day =
          .ok (Calendar.weekdayOf year month day) :=
        (if_pos hmonth).trans (if_pos hexists)
      simp only [admits, hweekday]
      rfl
    · simp [Allows, Position.unit, Fields.get, hincl, hlast]
  · intro day hbound hallows
    exact Selection.mem_range.2 ⟨hbound, hallows.2.1, hallows.1⟩
  · intro day hday earlier hbound hle hincl
    exact Selection.mem_range.2 ⟨hbound, hle.trans (Selection.mem_range.1 hday).2.1, hincl⟩

/-- At the other positions all selected values from the bound on are tried. -/
theorem candidates_other (F : Fields) (limit : Int) {p : Position} (years chosen : List Int)
    (hyear : p ≠ .year) (hday : p ≠ .day) (bound : Int) :
    candidates Calendar.almanac F limit p chosen bound =
        .ok ((F.get p.unit).range bound p.unit.hi) ∧
      Offers F years p chosen bound ((F.get p.unit).range bound p.unit.hi) := by
  refine ⟨by cases p <;> first | rfl | contradiction, Selection.pairwise_range _ _ _, ?_, ?_, ?_,
    ?_⟩
  · intro v hv
    obtain ⟨hbound, -, hincl⟩ := Selection.mem_range.1 hv
    exact ⟨hbound, hincl⟩
  · intro v hv
    have hincl := (Selection.mem_range.1 hv).2.2
    exact ⟨true, by cases p <;> first | rfl | contradiction, by cases p <;> simp_all [Allows]⟩
  · intro v hbound hallows
    exact Selection.mem_range.2 ⟨hbound, (Selection.holds_of_includes hallows.1).2, hallows.1⟩
  · intro v hv u hbound hle hincl
    exact Selection.mem_range.2 ⟨hbound, hle.trans (Selection.mem_range.1 hv).2.1, hincl⟩

/-- The values to try at a position below the chosen ones are found without an error. -/
theorem exists_candidates (F : Fields) (limit bound : Int) {first : Int} {p : Position}
    {ps : List Position} {chosen : List Int} (h : Below (p :: ps) chosen)
    (hfirst : p = .year → bound = first) :
    ∃ values, candidates Calendar.almanac F limit p chosen bound = .ok values ∧
      Offers F (F.yearsFrom limit first) p chosen bound values := by
  by_cases hyear : p = .year
  · subst hyear
    rw [← hfirst rfl]
    exact ⟨_, candidates_year F limit chosen bound⟩
  · by_cases hday : p = .day
    · subst hday
      obtain ⟨year, month, rfl, hmonth⟩ := h.eq_pair
      exact ⟨_, candidates_day F limit _ hmonth bound⟩
    · exact ⟨_, candidates_other F limit _ chosen hyear hday bound⟩

/-! ## Bounds -/

theorem bounds_lowerBound {q : Query} {p : Position} {ps : List Position} (h : p ∉ ps) :
    (q.lowerBound p).2.bounds ps = q.bounds ps := by
  apply List.map_congr_left
  intro r hr
  have hne : r ≠ p := fun e => h (e ▸ hr)
  by_cases hpending : r ∈ q.pending
  · rw [Query.lowerBound_of_mem hpending,
      Query.lowerBound_of_mem (Query.mem_pending_lowerBound.2 ⟨hpending, hne⟩),
      Query.reference_lowerBound]
  · rw [Query.lowerBound_of_notMem hpending,
      Query.lowerBound_of_notMem fun hr => hpending (Query.mem_pending_lowerBound.1 hr).1]

/-- Positions that have started over have the lowest bounds. -/
theorem bounds_resetFrom {q : Query} {ps : List Position} (h : ps.Pairwise (·.rank < ·.rank)) :
    (q.resetFrom ps).bounds ps = ps.map (·.unit.lo) := by
  cases ps with
  | nil => rfl
  | cons p ps =>
    apply List.map_congr_left
    intro r hr
    apply Query.lowerBound_of_notMem
    intro hpending
    have hrank := (Query.mem_pending_reset.1 hpending).2
    rcases List.mem_cons.1 hr with rfl | hr
    · omega
    · have := (List.pairwise_cons.1 h).1 r hr
      omega

theorem map_lo_le_of_completes {F : Fields} {years : List Int} {ps : List Position}
    {chosen values : List Int} (h : Completes F years ps chosen values) :
    ps.map (·.unit.lo) ≤ values := by
  induction ps generalizing chosen values with
  | nil => simp [show values = [] from h]
  | cons p ps ih =>
    obtain ⟨v, rest, rfl, hallows, hrest⟩ := h
    have hlo := (Selection.holds_of_includes hallows.1).1
    rw [List.map_cons, cons_le_cons_iff]
    rcases Int.lt_or_eq_of_le hlo with hlt | heq
    · exact .inl hlt
    · exact .inr ⟨heq, ih hrest⟩

/-! ## The least values -/

/-- The answer continues the chosen values by the least of some lists, if there is one. -/
def Answers (chosen : List Int) (lists : Set (List Int)) : Option (List Int) → Prop
  | none => lists = ∅
  | some values => ∃ rest, IsLeast lists rest ∧ values = chosen ++ rest

/-- The completions that are not below some bounds and begin with a given value. -/
def completionsAt (F : Fields) (years : List Int) (p : Position) (ps : List Position)
    (chosen bounds : List Int) (v : Int) : Set (List Int) :=
  {values | ∃ rest, values = v :: rest ∧ Allows F years p chosen v ∧
    Completes F years ps (chosen ++ [v]) rest ∧ bounds ≤ values}

/-- The completions that are not below some bounds. -/
def completions (F : Fields) (years : List Int) (ps : List Position) (chosen bounds : List Int) :
    Set (List Int) :=
  {values | Completes F years ps chosen values ∧ bounds ≤ values}

theorem mem_completions_cons {F : Fields} {years : List Int} {p : Position} {ps : List Position}
    {chosen bounds values : List Int} :
    values ∈ completions F years (p :: ps) chosen bounds ↔
      ∃ v, values ∈ completionsAt F years p ps chosen bounds v := by
  simp only [completions, completionsAt, Completes, Set.mem_ofPred_eq]
  grind

/-- The answer below a value answers for the lists that begin with it. -/
theorem Answers.cons {F : Fields} {years : List Int} {p : Position} {ps : List Position}
    {chosen bounds below : List Int} {v : Int} {o : Option (List Int)}
    (hallows : Allows F years p chosen v)
    (hbounds : ∀ rest, Completes F years ps (chosen ++ [v]) rest →
      (below ≤ rest ↔ bounds ≤ v :: rest))
    (h : Answers (chosen ++ [v]) (completions F years ps (chosen ++ [v]) below) o) :
    Answers chosen (completionsAt F years p ps chosen bounds v) o := by
  cases o with
  | none =>
    refine Set.eq_empty_of_forall_notMem ?_
    rintro _ ⟨rest, rfl, -, hrest, hle⟩
    exact Set.notMem_empty rest (h ▸ ⟨hrest, (hbounds rest hrest).2 hle⟩)
  | some values =>
    obtain ⟨rest, ⟨⟨hrest, hle⟩, hleast⟩, rfl⟩ := h
    refine ⟨v :: rest, ⟨⟨rest, rfl, hallows, hrest, (hbounds rest hrest).1 hle⟩, ?_⟩, by simp⟩
    rintro _ ⟨rest', rfl, -, hrest', hle'⟩
    exact cons_le_cons_iff.2 (.inr ⟨rfl, hleast ⟨hrest', (hbounds rest' hrest').2 hle'⟩⟩)

/-! ## One position of the search -/

/-- The walk after a position has been asked for its bound; the positions below it start over
unless the bound is selected. -/
def enter (F : Fields) (p : Position) (ps : List Position) (chosen : List Int) (walk : Walk) :
    Walk :=
  let walk' := (walk.consult p chosen).2
  if (F.get p.unit).includes (walk.query.lowerBound p).1 then walk' else walk'.resetFrom ps

section Almanac

variable {m : Type → Type} [Monad m]

/-- The search below a value that is tried at a position. -/
def attempt (almanac : Almanac m) (F : Fields) (limit : Int) (p : Position) (ps : List Position)
    (chosen : List Int) (v : Int) (walk : Walk) : m (Option (List Int) × Walk) := do
  if ← admits almanac F p chosen v then descend almanac F limit ps (chosen ++ [v]) walk
  else pure (none, walk)

theorem descend_cons (almanac : Almanac m) (F : Fields) (limit : Int) (p : Position)
    (ps : List Position) (chosen : List Int) (walk : Walk) :
    descend almanac F limit (p :: ps) chosen walk =
      (candidates almanac F limit p chosen (walk.query.lowerBound p).1) >>= fun values =>
        firstOf (attempt almanac F limit p ps chosen) (fun walk => walk.resetFrom ps) values
          (enter F p ps chosen walk) := rfl

end Almanac

/-- The bounds below a value that is tried leave the completions that the bounds of the position
leave: at its own bound they are those of the walk, and above it they are the lowest. -/
def Ready (F : Fields) (years : List Int) (ps : List Position) (chosen bounds : List Int)
    (v : Int) (walk : Walk) : Prop :=
  ∀ rest, Completes F years ps (chosen ++ [v]) rest →
    (walk.query.bounds ps ≤ rest ↔ bounds ≤ v :: rest)

variable {F : Fields} {years : List Int} {p : Position} {ps : List Position}
  {chosen below : List Int} {bound v : Int} {walk : Walk}

/-- Below a value above the bound the positions have to start over. -/
theorem ready_resetFrom (h : Below (p :: ps) chosen) (hv : bound < v) :
    Ready F years ps chosen (bound :: below) v (walk.resetFrom ps) := by
  intro rest hrest
  have hbounds : (walk.resetFrom ps).query.bounds ps = ps.map (·.unit.lo) :=
    bounds_resetFrom (List.pairwise_cons.1 h.pairwise_rank).2
  rw [hbounds]
  exact ⟨fun _ => cons_le_cons_iff.2 (.inl hv), fun _ => map_lo_le_of_completes hrest⟩

/-- The walk is ready for the first value that is tried: if that is the bound, the positions below
have kept theirs, and otherwise the bound is not selected and they have started over. -/
theorem ready_enter (h : Below (p :: ps) chosen) {values : List Int}
    (hvalues : Offers F years p chosen (walk.query.lowerBound p).1 values)
    (hv : values.head? = some v) :
    Ready F years ps chosen (walk.query.bounds (p :: ps)) v (enter F p ps chosen walk) := by
  have hbounds : walk.query.bounds (p :: ps) =
      (walk.query.lowerBound p).1 :: walk.query.bounds ps := rfl
  have hp : p ∉ ps := fun hp => Nat.lt_irrefl _ ((List.pairwise_cons.1 h.pairwise_rank).1 p hp)
  rw [hbounds]
  rcases hvalues.head_cases hv with ⟨hincl, rfl⟩ | ⟨hincl, hlt⟩
  · intro rest _
    have hkept : (enter F p ps chosen walk).query.bounds ps = walk.query.bounds ps := by
      simp only [enter, hincl, if_true]
      exact bounds_lowerBound hp
    rw [hkept, cons_le_cons_iff]
    simp
  · simp only [enter, hincl, Bool.false_eq_true, if_false]
    exact ready_resetFrom h hlt

/-- The answer of the first tried value that has one is the least of all completions, since they
begin with the values that are tried. -/
theorem answers_completions_cons {values : List Int} {o : Option (List Int)}
    (hoffers : Offers F years p chosen bound values)
    (hcases : (o = none ∧
        ∀ v ∈ values, Answers chosen (completionsAt F years p ps chosen (bound :: below) v) none) ∨
      ∃ v ∈ values, ∃ a, o = some a ∧
        Answers chosen (completionsAt F years p ps chosen (bound :: below) v) (some a) ∧
        ∀ u ∈ values, u < v →
          Answers chosen (completionsAt F years p ps chosen (bound :: below) u) none) :
    Answers chosen (completions F years (p :: ps) chosen (bound :: below)) o := by
  have hmem : ∀ v list, list ∈ completionsAt F years p ps chosen (bound :: below) v →
      v ∈ values ∧ list.head? = some v := by
    rintro v _ ⟨rest, rfl, hallows, -, hle⟩
    have hbound : bound ≤ v := by
      rcases cons_le_cons_iff.1 hle with hlt | ⟨heq, -⟩
      · omega
      · omega
    exact ⟨hoffers.complete v hbound hallows, rfl⟩
  rcases hcases with ⟨rfl, hnone⟩ | ⟨v, hv, _, rfl, ⟨list, hleast, rfl⟩, hbefore⟩
  · apply Set.eq_empty_of_forall_notMem
    intro list hlist
    obtain ⟨u, hu⟩ := mem_completions_cons.1 hlist
    exact Set.notMem_empty list (hnone u (hmem u list hu).1 ▸ hu)
  · refine ⟨list, ⟨mem_completions_cons.2 ⟨v, hleast.1⟩, ?_⟩, rfl⟩
    intro other hother
    obtain ⟨u, hu⟩ := mem_completions_cons.1 hother
    obtain ⟨huvalues, huhead⟩ := hmem u other hu
    rcases lt_trichotomy u v with hlt | rfl | hgt
    · exact absurd hu (hbefore u huvalues hlt ▸ Set.notMem_empty other)
    · exact hleast.2 hu
    · obtain ⟨rest, rfl⟩ := List.head?_eq_some_iff.1 huhead
      obtain ⟨rest', rfl⟩ := List.head?_eq_some_iff.1 (hmem v list hleast.1).2
      exact cons_le_cons_iff.2 (.inl hgt)

/-- The search below some values finds the least values that may stand at the positions left, and
it does so without an error. -/
theorem descend_answers (F : Fields) (limit first : Int) {ps : List Position} {chosen : List Int}
    (walk : Walk) (h : Below ps chosen)
    (hfirst : .year ∈ ps → (walk.query.lowerBound .year).1 = first) :
    ∃ o walk', descend Calendar.almanac F limit ps chosen walk = .ok (o, walk') ∧
      Answers chosen
        (completions F (F.yearsFrom limit first) ps chosen (walk.query.bounds ps)) o := by
  induction ps generalizing chosen walk with
  | nil =>
    refine ⟨some chosen, walk, rfl, [], ⟨⟨rfl, le_rfl⟩, ?_⟩, by simp⟩
    rintro values ⟨rfl, -⟩
    exact le_rfl
  | cons p ps ih =>
    have hp : ∀ r ∈ ps, p.rank < r.rank := (List.pairwise_cons.1 h.pairwise_rank).1
    obtain ⟨values, hvalues, hoffers⟩ := exists_candidates F limit (walk.query.lowerBound p).1 h
      fun hyear => by subst hyear; exact hfirst List.mem_cons_self
    -- below a value that is tried the induction hypothesis answers for the lists that begin with it
    have hstep : ∀ v ∈ values, ∀ s,
        Ready F (F.yearsFrom limit first) ps chosen (walk.query.bounds (p :: ps)) v s →
        ∃ o s', attempt Calendar.almanac F limit p ps chosen v s = .ok (o, s') ∧
          Answers chosen (completionsAt F (F.yearsFrom limit first) p ps chosen
            (walk.query.bounds (p :: ps)) v) o ∧
          (o = none → ∀ u, v < u → Ready F (F.yearsFrom limit first) ps chosen
            (walk.query.bounds (p :: ps)) u (s'.resetFrom ps)) := by
      intro v hv s hready
      obtain ⟨hbound, hselected⟩ := hoffers.selected v hv
      obtain ⟨b, hadmits, hb⟩ := hoffers.decided v hv
      have honward : ∀ s' : Walk, ∀ u, v < u → Ready F (F.yearsFrom limit first) ps chosen
          (walk.query.bounds (p :: ps)) u (s'.resetFrom ps) :=
        fun s' u hu => ready_resetFrom h (lt_of_le_of_lt hbound hu)
      cases b with
      | false =>
        have hrefused : ¬Allows F (F.yearsFrom limit first) p chosen v := by simp [← hb]
        refine ⟨none, s, by rw [attempt, hadmits]; rfl, ?_, fun _ => honward s⟩
        refine Set.eq_empty_of_forall_notMem ?_
        rintro _ ⟨rest, -, hallows, -, -⟩
        exact hrefused hallows
      | true =>
        have hyear : .year ∈ ps → (s.query.lowerBound .year).1 = first := by
          intro hyear
          have := hp .year hyear
          simp [Position.rank] at this
        obtain ⟨o, s', hdescend, hanswers⟩ := ih s (h.snoc hselected) hyear
        refine ⟨o, s', by rw [attempt, hadmits]; exact hdescend, ?_, fun _ => honward s'⟩
        exact hanswers.cons (hb.1 rfl) hready
    obtain ⟨o, walk', hfirstOf, hcases⟩ := firstOf_spec hoffers.ascending
      (fun v hv => ready_enter h hoffers hv) hstep
    refine ⟨o, walk', by rw [descend_cons, hvalues]; exact hfirstOf, ?_⟩
    exact answers_completions_cons hoffers hcases

/-! ## Wall clocks -/

/-- Six values may stand at the positions when they are those of a wall clock that satisfies the
fields, in a year that is tried. -/
theorem completes_inOrder_iff {values : List Int} :
    Completes F years Position.inOrder [] values ↔
      ∃ w : WallClock, w.toList = values ∧ F.includes w = true ∧ w.date.year ∈ years := by
  constructor
  · rintro ⟨year, _, rfl, ⟨hyear, hyears⟩, month, _, rfl, ⟨hmonth, -⟩, day, _, rfl,
      ⟨hday, hlast, hweekday⟩, hour, _, rfl, ⟨hhour, -⟩, minute, _, rfl, ⟨hminute, -⟩, second, _,
      rfl, ⟨hsecond, -⟩, rfl⟩
    have hdate : TimeUnit.daysOfMonth.Holds day := Selection.holds_of_includes hday
    let date : Date := ⟨year, month, day, Selection.holds_of_includes hyear,
      Selection.holds_of_includes hmonth, ⟨hdate.1, hlast⟩⟩
    let time : TimeOfDay := ⟨hour, minute, second, Selection.holds_of_includes hhour,
      Selection.holds_of_includes hminute, Selection.holds_of_includes hsecond⟩
    refine ⟨⟨date, time⟩, rfl, ?_, hyears⟩
    simp only [Fields.includes, Bool.and_eq_true]
    exact ⟨⟨⟨⟨⟨⟨hsecond, hminute⟩, hhour⟩, hday⟩, hmonth⟩, hweekday⟩, hyear⟩
  · rintro ⟨w, rfl, hincl, hyears⟩
    simp only [Fields.includes, Bool.and_eq_true] at hincl
    obtain ⟨⟨⟨⟨⟨⟨hsecond, hminute⟩, hhour⟩, hday⟩, hmonth⟩, hweekday⟩, hyear⟩ := hincl
    exact ⟨_, _, rfl, ⟨hyear, hyears⟩, _, _, rfl, ⟨hmonth, trivial⟩, _, _, rfl,
      ⟨hday, w.date.day_holds.2, hweekday⟩, _, _, rfl, ⟨hhour, trivial⟩, _, _, rfl,
      ⟨hminute, trivial⟩, _, _, rfl, ⟨hsecond, trivial⟩, rfl⟩

end Search

end Timetable
