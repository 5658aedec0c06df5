import Timetable.Proofs.NextAfter

/-!
# Equal selections and fields

A selection of the whole domain has two forms, and it is told to be one by counting.  Equality and
keys do not see the form: they agree exactly when the units and the included integers do.  A search
looks at fields through what they include, so equal fields have the same searches.

## Main statements

* `Selection.isAll_iff`: counting tells whether the whole domain is selected.
* `AnySelection.beq_iff`, `AnySelection.key_eq_iff`: equality and keys are extensional.
* `Fields.search_congr`: searches do not tell equal fields apart.
-/

namespace Timetable

/-! ## Selections -/

namespace Selection

variable {u : TimeUnit} {s t : Selection u}

/-- Selections that include the same integers list the same ordinals. -/
theorem toList_eq_iff : s.toList = t.toList ↔ ∀ n, s.includes n = t.includes n := by
  constructor
  · intro h n
    rw [Bool.eq_iff_iff, ← mem_toList, ← mem_toList, h]
  · intro h
    apply s.pairwise_toList.eq_of_mem_iff t.pairwise_toList
    intro n
    rw [mem_toList, mem_toList, h]

theorem isAll_iff_count : s.isAll = true ↔ s.count = u.size := by
  cases s <;> simp [isAll, count]

/-- A selection has the number of ordinals of its unit exactly when it has all of them. -/
theorem isAll_iff : s.isAll = true ↔ s.toList = u.domain := by
  rw [isAll_iff_count, ← length_toList, ← u.length_domain]
  constructor
  · intro hlength
    have hperm := s.toList_subperm_domain.perm_of_length_le hlength.ge
    exact s.pairwise_toList.eq_of_mem_iff u.pairwise_domain fun _ => hperm.mem_iff
  · intro h
    rw [h]

/-- What includes the same integers has the whole domain or has it not. -/
theorem isAll_congr (h : ∀ n, s.includes n = t.includes n) : s.isAll = t.isAll := by
  rw [Bool.eq_iff_iff, isAll_iff, isAll_iff, toList_eq_iff.2 h]

end Selection

namespace AnySelection

variable {u : TimeUnit} {s t : Selection u}

theorem beq_mk_iff :
    ((⟨u, s⟩ : AnySelection) == ⟨u, t⟩) = true ↔ ∀ n, s.includes n = t.includes n := by
  have hsame : ((⟨u, s⟩ : AnySelection) == ⟨u, t⟩) =
      ((s.isAll && t.isAll) || s.toList == t.toList) := by
    change same _ _ = _
    simp [same]
  rw [hsame, Bool.or_eq_true, Bool.and_eq_true, beq_iff_eq, Selection.isAll_iff,
    Selection.isAll_iff, ← Selection.toList_eq_iff]
  constructor
  · rintro (⟨hs, ht⟩ | h)
    · rw [hs, ht]
    · exact h
  · exact .inr

/-- Selections are equal when they are of one unit and include the same integers. -/
theorem beq_iff {s t : AnySelection} : (s == t) = true ↔
    s.unit = t.unit ∧ ∀ n, s.selection.includes n = t.selection.includes n := by
  obtain ⟨u, s⟩ := s
  obtain ⟨v, t⟩ := t
  by_cases h : u = v
  · subst h
    simp [beq_mk_iff]
  · have hsame : ((⟨u, s⟩ : AnySelection) == ⟨v, t⟩) = false := by
      change same _ _ = _
      simp [same, h]
    simp [hsame, h]

theorem key_mk_eq_iff : key ⟨u, s⟩ = key ⟨u, t⟩ ↔ ∀ n, s.includes n = t.includes n := by
  simp only [key, Key.mk.injEq, true_and]
  constructor
  · intro h
    rw [← Selection.toList_eq_iff]
    by_cases hs : s.isAll = true
    · by_cases ht : t.isAll = true
      · rw [Selection.isAll_iff.1 hs, Selection.isAll_iff.1 ht]
      · simp [hs, ht] at h
    · by_cases ht : t.isAll = true
      · simp [hs, ht] at h
      · simpa [hs, ht] using h
  · intro h
    rw [Selection.isAll_congr h, Selection.toList_eq_iff.2 h]

/-- Selections have one key when they are equal. -/
theorem key_eq_iff {s t : AnySelection} : s.key = t.key ↔ (s == t) = true := by
  rw [beq_iff]
  obtain ⟨u, s⟩ := s
  obtain ⟨v, t⟩ := t
  by_cases h : u = v
  · subst h
    simp [key_mk_eq_iff]
  · simp [key, h]

end AnySelection

/-! ## Fields -/

namespace Fields

variable {F G : Fields} {limit : Int} {w : WallClock}

/-- Fields are equal when their selections of each unit include the same integers. -/
theorem beq_iff : (F == G) = true ↔ ∀ u n, (F.get u).includes n = (G.get u).includes n := by
  have hbeq : (F == G) = (F.selections == G.selections) := rfl
  rw [hbeq]
  simp only [selections, TimeUnit.inOrder, List.map_cons, List.map_nil, List.cons_beq_cons,
    List.beq_nil_eq, List.isEmpty_nil, Bool.and_true, Bool.and_eq_true, AnySelection.beq_mk_iff]
  constructor
  · intro h u
    cases u <;> grind
  · intro h
    grind

theorem includes_congr (h : (F == G) = true) (w : WallClock) : F.includes w = G.includes w := by
  rw [Bool.eq_iff_iff, includes_iff, includes_iff]
  simp only [beq_iff.1 h]

theorem toList_years_congr (h : (F == G) = true) : F.years.toList = G.years.toList :=
  Selection.toList_eq_iff.2 (beq_iff.1 h .years)

/-- Equal fields admit the same wall clocks as answers. -/
theorem eligible_congr (h : (F == G) = true) (reference : WallClock) :
    F.Eligible limit reference w ↔ G.Eligible limit reference w := by
  have hyears : F.yearsFrom limit reference.date.year = G.yearsFrom limit reference.date.year := by
    rw [yearsFrom, yearsFrom, toList_years_congr h]
  constructor
  · intro hw
    exact ⟨hw.not_before, includes_congr h w ▸ hw.satisfies, hyears ▸ hw.year_mem⟩
  · intro hw
    exact ⟨hw.not_before, includes_congr h w ▸ hw.satisfies, hyears ▸ hw.year_mem⟩

theorem failure_congr (h : (F == G) = true) (year : Int) :
    Search.failure F limit year = Search.failure G limit year := by
  simp only [Search.failure, Selection.range_eq_filter, toList_years_congr h]

/-- A search does not tell equal fields apart, however it ends. -/
theorem search_congr (h : (F == G) = true) (i : Instant) (limit : Int) :
    F.search i limit = G.search i limit := by
  cases hnext : i.nextWholeSecond? with
  | none => rw [search_of_no_later_second F limit hnext, search_of_no_later_second G limit hnext]
  | some j =>
    rcases search_cases F limit hnext with ⟨v, hv, hF⟩ | ⟨hnone, hF⟩
    · rcases search_cases G limit hnext with ⟨w, hw, hG⟩ | ⟨hnone, -⟩
      · simp only [eligible_congr h] at hv
        rw [hF, hG, hv.unique hw]
      · exact absurd ((eligible_congr h j.clock).1 hv.1) (hnone v)
    · rcases search_cases G limit hnext with ⟨w, hw, -⟩ | ⟨-, hG⟩
      · exact absurd ((eligible_congr h j.clock).2 hw.1) (hnone w)
      · rw [hF, hG, failure_congr h]

theorem nextAfter_congr (h : (F == G) = true) (i : Instant) (limit : Int) :
    F.nextAfter i limit = G.nextAfter i limit := by
  rw [nextAfter, nextAfter, search_congr h]

end Fields

/-- Equality of selections is extensional, in whichever of its two forms the whole domain is
selected, and keys agree exactly with it.  Equal fields include the same instants, and the searches
in them end in the same way. -/
theorem AnySelection.equality_extensional :
    (∀ s t : AnySelection,
      ((s == t) = true ↔
        s.unit = t.unit ∧ ∀ n, s.selection.includes n = t.selection.includes n) ∧
      (s.key = t.key ↔ (s == t) = true)) ∧
    ∀ F G : Fields, (F == G) = true → ∀ (i : Instant) (limit : Int),
      F.includes i.clock = G.includes i.clock ∧ F.search i limit = G.search i limit ∧
        F.nextAfter i limit = G.nextAfter i limit := by
  refine ⟨fun s t => ⟨beq_iff, key_eq_iff⟩, ?_⟩
  intro F G h i limit
  exact ⟨Fields.includes_congr h i.clock, Fields.search_congr h i limit,
    Fields.nextAfter_congr h i limit⟩

end Timetable
