import Timetable.Fields
import Mathlib.Data.List.Perm.Subperm
import Mathlib.Data.List.Sort

/-!
# Windows of a selection

The ordinals that a selection has between two bounds are its members there, in ascending order,
whether it lists them or selects every ordinal of its unit.  Fields are looked at one unit after
the other in the same way: a wall clock has an ordinal in each, which is selected or not.

## Main definitions

* `WallClock.ordinal`: the ordinal of a wall clock in a unit.

## Main statements

* `Selection.mem_range`: a window has exactly the selected ordinals between its bounds.
* `Selection.pairwise_range`: a window ascends.
* `Selection.range_eq_filter`: a window filters the list of all selected ordinals.
* `Fields.includes_iff`: a wall clock satisfies fields unit by unit.
-/

namespace Timetable

namespace Ordinals

/-- Leaving out a lower part of an ascending list keeps the members from the bound on. -/
theorem dropWhile_lt_eq_filter {xs : List Int} (hxs : xs.Pairwise (· < ·)) (a : Int) :
    xs.dropWhile (· < a) = xs.filter (a ≤ ·) := by
  induction xs with
  | nil => rfl
  | cons x xs ih =>
    obtain ⟨hx, hxs⟩ := List.pairwise_cons.1 hxs
    by_cases h : x < a
    · rw [List.dropWhile_cons_of_pos (by simpa using h), ih hxs,
        List.filter_cons_of_neg (by simpa using h)]
    · have hall : ∀ y ∈ x :: xs, a ≤ y := by
        intro y hy
        rcases List.mem_cons.1 hy with rfl | hy
        · omega
        · have := hx y hy
          omega
      rw [List.dropWhile_cons_of_neg (by simpa using h)]
      exact (List.filter_eq_self.2 (by simpa using hall)).symm

/-- The part of an ascending list up to a bound has its members up to the bound. -/
theorem takeWhile_le_eq_filter {xs : List Int} (hxs : xs.Pairwise (· < ·)) (b : Int) :
    xs.takeWhile (· ≤ b) = xs.filter (· ≤ b) := by
  induction xs with
  | nil => rfl
  | cons x xs ih =>
    obtain ⟨hx, hxs⟩ := List.pairwise_cons.1 hxs
    by_cases h : x ≤ b
    · rw [List.takeWhile_cons_of_pos (by simpa using h), ih hxs,
        List.filter_cons_of_pos (by simpa using h)]
    · have hall : ∀ y ∈ x :: xs, ¬y ≤ b := by
        intro y hy
        rcases List.mem_cons.1 hy with rfl | hy
        · exact h
        · have := hx y hy
          omega
      rw [List.takeWhile_cons_of_neg (by simpa using h)]
      exact (List.filter_eq_nil_iff.2 (by simpa using hall)).symm

end Ordinals

namespace Selection

variable {u : TimeUnit} {s : Selection u} {a b n : Int}

theorem holds_of_mem_toList (h : n ∈ s.toList) : u.Holds n :=
  holds_of_includes (mem_toList.1 h)

theorem toList_subperm_domain (s : Selection u) : s.toList.Subperm u.domain := by
  have hnodup : s.toList.Nodup := s.pairwise_toList.imp fun h => Int.ne_of_lt h
  exact List.subperm_of_subset hnodup fun n hn => TimeUnit.mem_domain.2 (holds_of_mem_toList hn)

theorem count_le_size (s : Selection u) : s.count ≤ u.size := by
  rw [← length_toList, ← u.length_domain]
  exact s.toList_subperm_domain.length_le

/-- The window of a listed selection. -/
theorem range_only (set : OrdinalSet u) (a b : Int) :
    (only set).range a b = (set.values.filter (a ≤ ·)).filter (· ≤ b) := by
  rw [range, Ordinals.dropWhile_lt_eq_filter set.ascending,
    Ordinals.takeWhile_le_eq_filter (set.ascending.filter _)]

@[simp] theorem mem_range : n ∈ s.range a b ↔ a ≤ n ∧ n ≤ b ∧ s.includes n = true := by
  cases s with
  | every =>
    simp only [range, Ordinals.mem_interval, includes, decide_eq_true_eq]
    simp only [TimeUnit.Holds]
    omega
  | only set =>
    simp only [range_only, List.mem_filter, decide_eq_true_eq, includes, List.contains_iff_mem]
    grind

theorem pairwise_range (s : Selection u) (a b : Int) : (s.range a b).Pairwise (· < ·) := by
  cases s with
  | every => exact Ordinals.pairwise_interval _ _
  | only set =>
    rw [range_only]
    exact (set.ascending.filter _).filter _

/-- A window has the selected ordinals between its bounds, in their order. -/
theorem range_eq_filter (s : Selection u) (a b : Int) :
    s.range a b = s.toList.filter fun n => a ≤ n ∧ n ≤ b := by
  apply (s.pairwise_range a b).eq_of_mem_iff (s.pairwise_toList.filter _)
  intro n
  simp only [mem_range, List.mem_filter, mem_toList, decide_eq_true_eq]
  grind

end Selection

/-- The ordinal that a wall clock has in a unit. -/
def WallClock.ordinal (w : WallClock) : TimeUnit → Int
  | .seconds => w.time.second
  | .minutes => w.time.minute
  | .hours => w.time.hour
  | .daysOfMonth => w.date.day
  | .months => w.date.month
  | .daysOfWeek => w.date.weekday
  | .years => w.date.year

/-- A wall clock satisfies fields when its ordinals are selected in every unit. -/
theorem Fields.includes_iff {F : Fields} {w : WallClock} :
    F.includes w = true ↔ ∀ u, (F.get u).includes (w.ordinal u) = true := by
  simp only [includes, Bool.and_eq_true]
  constructor
  · rintro ⟨⟨⟨⟨⟨⟨hsecond, hminute⟩, hhour⟩, hday⟩, hmonth⟩, hweekday⟩, hyear⟩ u
    cases u <;> assumption
  · intro h
    exact ⟨⟨⟨⟨⟨⟨h .seconds, h .minutes⟩, h .hours⟩, h .daysOfMonth⟩, h .months⟩,
      h .daysOfWeek⟩, h .years⟩

end Timetable
