import Timetable.Proofs.Equality
import Timetable.Proofs.Rendering
import Timetable.Written

/-!
# Written fields

Fields are written as an expression that stands for equal fields.  Where the whole domain of a unit
is selected this brings back the unrestricted selection, whichever form it had before; elsewhere the
listed ordinals come back as a union of single ones.

## Main statements

* `Selection.exists_ofField_written`: the written form of a selection stands for an equal one.
* `Fields.rendered_write`: the written form of fields renders them.
-/

namespace Timetable

/-! ## Selections -/

/-- The shortest numeral of a number stands for it unless it is too long. -/
theorem Text.Numeral.spelled_write {n : Nat} (h : (Numeral.write n).length ≤ longestNumeral) :
    Numeral.Spelled n (Numeral.write n) where
  ne_nil := Nat.toDigits_ne_nil
  length_le := h
  isDigit c hc := Nat.isDigit_of_mem_toDigits (by decide) (by decide) hc
  value := Nat.ofDigitChars_toDigits (by decide) (by decide)

/-- The ordinals of a unit are natural numbers with numerals of at most four digits. -/
theorem TimeUnit.toNat_of_holds {u : TimeUnit} {n : Int} (h : u.Holds n) :
    (n.toNat : Int) = n ∧ (Text.Numeral.write n.toNat).length ≤ 4 := by
  have hbounds : 0 ≤ u.lo ∧ u.hi < 10000 := by
    cases u <;> decide
  rw [Holds] at h
  exact ⟨by omega, (Nat.length_toDigits_le_iff (by decide) (by decide)).2 (by omega)⟩

namespace Selection

variable {u : TimeUnit} (s : Selection u)

/-- The field that a selection is written as. -/
def written : Field :=
  if s.isAll then ⟨[.base .all]⟩ else ⟨s.toList.map fun n => .base (.point n)⟩

theorem spelled_write (anyMark : Bool) : s.written.Spelled anyMark s.write := by
  by_cases hall : s.isAll = true
  · rw [written, write, if_pos hall, if_pos hall]
    exact ⟨[['*']], by simp, .cons (.base .all) .nil,
      .refl (List.forall_mem_singleton.2 rfl)⟩
  · rw [written, write, if_neg hall, if_neg hall]
    have hterms : List.Forall₂ (Term.Spelled anyMark) (s.toList.map fun n => .base (.point n))
        (s.toList.map fun n => Text.Numeral.write n.toNat) := by
      rw [List.forall₂_map_left_iff, List.forall₂_map_right_iff, List.forall₂_same]
      intro n hn
      obtain ⟨hnat, hlength⟩ := TimeUnit.toNat_of_holds (holds_of_mem_toList hn)
      have hpoint : Base.Spelled anyMark (.point n.toNat) (Text.Numeral.write n.toNat) :=
        .point (Text.Numeral.spelled_write (hlength.trans (by decide)))
      exact .base (hnat ▸ hpoint)
    have hsolid := Field.solid_intercalate (Field.solid_of_mem hterms)
    exact ⟨_, by simp [s.toList_ne_nil], hterms, .refl hsolid.isBlank_eq_false⟩

/-- Single ordinals stand for themselves. -/
theorem mapM_ordinals_points {xs : List Int} (h : ∀ n ∈ xs, u.Holds n) :
    (xs.map fun n => Term.base (.point n)).mapM (Term.ordinals u) = .ok (xs.map fun n => [n]) := by
  rw [mapM_eq_ok_iff, List.forall₂_map_left_iff, List.forall₂_map_right_iff, List.forall₂_same]
  intro n hn
  simp [Term.ordinals, Base.ordinals, TimeUnit.check, h n hn, bind, Except.bind]

/-- The written form of a selection stands for a selection of the same ordinals. -/
theorem exists_ofField_written :
    ∃ t, ofField u s.written = .ok t ∧ ∀ n, t.includes n = s.includes n := by
  by_cases hall : s.isAll = true
  · have hwritten : s.written = ⟨[.base .all]⟩ := by rw [written, if_pos hall]
    refine ⟨every, by rw [hwritten]; rfl, ?_⟩
    rw [← toList_eq_iff, isAll_iff.1 hall]
    rfl
  · have hwritten : s.written = ⟨s.toList.map fun n => .base (.point n)⟩ := by
      rw [written, if_neg hall]
    have hlisted : s.written.isAll = false := by
      rw [hwritten, Bool.eq_false_iff, Ne, Field.isAll_iff]
      intro h
      obtain ⟨n, -, hn⟩ := List.exists_of_mem_map (h ▸ List.mem_singleton_self (Term.base .all))
      cases hn
    have hselectable : ∀ xs ∈ s.toList.map fun n => [n], u.Selectable xs := by
      intro xs hxs
      obtain ⟨n, hn, rfl⟩ := List.mem_map.1 hxs
      exact ⟨List.cons_ne_nil n [], by simpa using holds_of_mem_toList hn⟩
    obtain ⟨t, ht⟩ := exists_ofLists_eq_ok (by simpa using s.toList_ne_nil) hselectable
    refine ⟨t, ?_, ?_⟩
    · rw [ofField, if_neg (by simp [hlisted]), hwritten,
        mapM_ordinals_points fun n hn => holds_of_mem_toList hn]
      exact ht
    · intro n
      rw [Bool.eq_iff_iff, ← mem_toList, toList_of_ofLists ht, Ordinals.mem_gather, ← mem_toList]
      simp

end Selection

/-! ## Fields -/

namespace Fields

/-- The written form of fields renders the written forms of their selections. -/
theorem rendered_write (F : Fields) :
    Expression.Rendered (TimeUnit.inOrder.map fun u => (F.get u).written) F.write := by
  have hrendered : ∀ u units, Expression.RenderedFor (u :: units)
      ((u :: units).map fun u => (F.get u).written)
      ([' '].intercalate ((u :: units).map fun u => (F.get u).write)) := by
    intro u units
    induction units generalizing u with
    | nil =>
      rw [List.map_singleton, List.map_singleton, List.intercalate_singleton]
      exact .last ((F.get u).spelled_write _)
    | cons next units ih =>
      have hcons : [' '].intercalate ((u :: next :: units).map fun u => (F.get u).write) =
          (F.get u).write ++ [' '] ++
            [' '].intercalate ((next :: units).map fun u => (F.get u).write) :=
        List.intercalate_cons_cons
      rw [hcons]
      exact .cons ((F.get u).spelled_write _) (by simp) (List.forall_mem_singleton.2 rfl) (ih next)
  exact ⟨.inr rfl, hrendered _ _⟩

theorem arrange_inOrder (fieldOf : TimeUnit → Field) :
    arrange (TimeUnit.inOrder.map fieldOf) = .ok fieldOf := by
  have hperUnit : perUnit (fieldOf .seconds) (fieldOf .minutes) (fieldOf .hours)
      (fieldOf .daysOfMonth) (fieldOf .months) (fieldOf .daysOfWeek) (fieldOf .years) =
      fieldOf := by
    funext u
    cases u <;> rfl
  simp [TimeUnit.inOrder, arrange, hperUnit]

/-- The written form of fields stands for equal fields. -/
theorem exists_parse_write (F : Fields) : ∃ G, parse F.write = .ok G ∧ (G == F) = true := by
  have hget : ∀ u, ∃ t, Selection.ofField u (F.get u).written = .ok t ∧
      ∀ n, t.includes n = (F.get u).includes n := fun u => (F.get u).exists_ofField_written
  choose selection hselection hincludes using hget
  let G : Fields := ⟨selection .seconds, selection .minutes, selection .hours,
    selection .daysOfMonth, selection .months, selection .daysOfWeek, selection .years⟩
  have hG : ∀ u, G.get u = selection u := by
    intro u
    cases u <;> rfl
  refine ⟨G, ?_, ?_⟩
  · have hcollect : collect (fun u => Selection.ofField u (F.get u).written) = .ok G := by
      rw [collect_eq_ok_iff]
      intro u
      rw [hG, hselection]
    rw [parse, F.rendered_write.parse_eq_ok]
    simp only [ofFieldList, arrange_inOrder, bind, Except.bind]
    rw [hcollect]
    rfl
  · rw [beq_iff]
    intro u n
    rw [hG, hincludes]

/-- Every expression that fields are written as is parsed as equal fields, with the same searches.
So what an expression stands for may be written and read back. -/
theorem write_readable :
    (∀ F : Fields, ∃ G, parse F.write = .ok G ∧ (G == F) = true ∧
      ∀ i limit, G.nextAfter i limit = F.nextAfter i limit) ∧
    ∀ (e : Text) (s : Schedule), Schedule.parse e = .ok s →
      ∃ t, Schedule.parse s.fields.write = .ok t ∧ (t.fields == s.fields) = true ∧
        ∀ env i limit, t.nextAfter env i limit = s.nextAfter env i limit := by
  have hwrite : ∀ F : Fields, ∃ G, parse F.write = .ok G ∧ (G == F) = true ∧
      ∀ i limit, G.nextAfter i limit = F.nextAfter i limit := by
    intro F
    obtain ⟨G, hparse, hG⟩ := exists_parse_write F
    exact ⟨G, hparse, hG, fun i limit => nextAfter_congr hG i limit⟩
  refine ⟨hwrite, ?_⟩
  intro e s _
  obtain ⟨G, hparse, hG, hnext⟩ := hwrite s.fields
  refine ⟨⟨s.fields.write, G⟩, ?_, hG, ?_⟩
  · rw [Schedule.parse, hparse]
  · intro env i limit
    simp only [Schedule.nextAfter, hnext]

end Fields
end Timetable
