import Timetable.Proofs.Equality
import Mathlib.Data.Set.Card

/-!
# The views of a selection

A selection of the whole domain counts and clips, any other looks through its list.  Whichever it
does, all its views say the same as `includes`: windows, the iteration, the count, the question
whether all is selected and membership tests.  So no view tells the two forms of the whole domain
apart.

## Main statements

* `Selection.eq_range_iff`: a window is the one ascending list of the selected ordinals in it.
* `Selection.ncard_includes`: the count is the number of integers that are included.
* `Selection.views_coherent`: all views agree with `includes`.
-/

namespace Timetable
namespace Selection

variable {u : TimeUnit} {s t : Selection u} {a b : Int} {xs : List Int}

/-! ## Each view by itself -/

/-- A window is the ascending list of the selected ordinals between its bounds. -/
theorem eq_range_iff : xs = s.range a b ↔
    xs.Pairwise (· < ·) ∧ ∀ n, n ∈ xs ↔ a ≤ n ∧ n ≤ b ∧ s.includes n = true := by
  constructor
  · rintro rfl
    exact ⟨s.pairwise_range a b, fun n => mem_range⟩
  · rintro ⟨hascending, hmem⟩
    apply hascending.eq_of_mem_iff (s.pairwise_range a b)
    intro n
    rw [hmem, mem_range]

/-- Nothing is selected outside the domain, so the iteration leaves nothing out. -/
theorem iterate_eq_toList (s : Selection u) : s.iterate = s.toList := by
  rw [iterate, range_eq_filter, List.filter_eq_self]
  intro n hn
  exact decide_eq_true (holds_of_mem_toList hn)

theorem ncard_includes (s : Selection u) : {n : Int | s.includes n = true}.ncard = s.count := by
  have hset : {n : Int | s.includes n = true} = s.toList.toFinset := by
    ext n
    simp
  have hnodup : s.toList.Nodup := s.pairwise_toList.imp fun h => Int.ne_of_lt h
  rw [hset, Set.ncard_coe_finset, List.toFinset_card_of_nodup hnodup, length_toList]

theorem isAll_iff_forall_holds : s.isAll = true ↔ ∀ n, u.Holds n → s.includes n = true := by
  rw [isAll_iff]
  constructor
  · intro h n hn
    rw [← mem_toList, h]
    exact TimeUnit.mem_domain.2 hn
  · intro h
    apply s.pairwise_toList.eq_of_mem_iff u.pairwise_domain
    intro n
    rw [mem_toList, TimeUnit.mem_domain]
    exact ⟨holds_of_includes, h n⟩

/-! ## Two selections -/

section Congruence

variable (h : ∀ n, s.includes n = t.includes n)

include h

theorem range_congr (a b : Int) : s.range a b = t.range a b := by
  rw [range_eq_filter, range_eq_filter, toList_eq_iff.2 h]

theorem count_congr : s.count = t.count := by
  rw [← length_toList, ← length_toList, toList_eq_iff.2 h]

theorem contains_congr (value : Option Int) : s.contains value = t.contains value := by
  cases value with
  | none => rfl
  | some n => exact h n

theorem text_congr : s.text = t.text := by
  rw [text, text, isAll_congr h, toList_eq_iff.2 h]

end Congruence

/-- All views of a selection agree with what it includes.  A window is the one ascending list of the
selected ordinals between its bounds, whatever these are; the iteration is the window of the whole
domain and lists the selected ordinals; the count is its length and the number of included integers;
all is selected when every ordinal of the unit is included; and an integer passes the membership
test when it is included.  Two selections that include the same integers have the same views, even
if only one of them lists its ordinals. -/
theorem views_coherent (s : Selection u) :
    (∀ a b xs, xs = s.range a b ↔
      xs.Pairwise (· < ·) ∧ ∀ n, n ∈ xs ↔ a ≤ n ∧ n ≤ b ∧ s.includes n = true) ∧
    (s.iterate = s.range u.lo u.hi ∧ s.iterate = s.toList) ∧
    (s.count = s.iterate.length ∧ s.count = {n : Int | s.includes n = true}.ncard) ∧
    (s.isAll = true ↔ ∀ n, u.Holds n → s.includes n = true) ∧
    (∀ n : Int, s.contains (some n) = s.includes n) ∧
    ∀ t : Selection u, (∀ n, s.includes n = t.includes n) →
      (∀ a b, s.range a b = t.range a b) ∧ s.iterate = t.iterate ∧ s.toList = t.toList ∧
        s.count = t.count ∧ s.isAll = t.isAll ∧ (∀ value, s.contains value = t.contains value) ∧
        s.text = t.text := by
  refine ⟨fun a b xs => eq_range_iff, ⟨rfl, s.iterate_eq_toList⟩, ⟨?_, s.ncard_includes.symm⟩,
    isAll_iff_forall_holds, fun n => rfl, ?_⟩
  · rw [iterate_eq_toList, length_toList]
  · intro t h
    exact ⟨range_congr h, range_congr h u.lo u.hi, toList_eq_iff.2 h, count_congr h, isAll_congr h,
      contains_congr h, text_congr h⟩

/-- Days of the week that are listed out of order and more than once, but all of them. -/
theorem views_coherent_weekdays :
    ∃ s : Selection .daysOfWeek, ofOrdinals .daysOfWeek [7, 3, 1, 2, 4, 6, 5, 5] = .ok s ∧
      s.isListed = true ∧ s.range (-3) 3 = [1, 2, 3] ∧ s.range 5 2 = [] ∧
      (every : Selection .daysOfWeek).range (-3) 3 = s.range (-3) 3 ∧
      (every : Selection .daysOfWeek).count = s.count ∧
      (every : Selection .daysOfWeek).isAll = s.isAll ∧
      (every : Selection .daysOfWeek).text = s.text := by
  have hs : ∃ s : Selection .daysOfWeek,
      ofOrdinals .daysOfWeek [7, 3, 1, 2, 4, 6, 5, 5] = .ok s ∧ s.isListed = true ∧
        s.range (-3) 3 = [1, 2, 3] ∧ s.range 5 2 = [] ∧ TimeUnit.daysOfWeek.domain = s.toList :=
    ⟨_, rfl, rfl, by decide, by decide, by decide⟩
  obtain ⟨s, hs, hlisted, hwindow, hempty, hlist⟩ := hs
  have hsame : ∀ n, (every : Selection .daysOfWeek).includes n = s.includes n :=
    toList_eq_iff.1 hlist
  obtain ⟨hrange, -, -, hcount, hall, -, htext⟩ :=
    (views_coherent (every : Selection .daysOfWeek)).2.2.2.2.2 s hsame
  exact ⟨s, hs, hlisted, hwindow, hempty, hrange (-3) 3, hcount, hall, htext⟩

end Selection
end Timetable
