import Timetable.Proofs.Equality
import Timetable.Proofs.Rejection

/-!
# Commas are unions

A comma puts the terms of two texts one after the other, whatever white space there is around it,
and what the terms select is united.  So a field is as good as the set of its terms: neither their
order nor how often one is repeated makes a difference, although a field that is `*` alone is
resolved in another way than one with further terms.

## Main statements

* `Field.read?_append_comma`: what is read on both sides of a comma.
* `Selection.exists_ofField_append_iff`, `Selection.includes_append`: the selection of both sides.
* `Selection.exists_ofField_eq_of_mem_iff`: fields with the same terms select the same.
* `Field.comma_is_union`: commas in texts and the selections of what is read.
-/

namespace Timetable

/-! ## Texts -/

namespace Field

variable {anyMark : Bool} {f g h : Field} {s t : Text}

/-- What is read from two texts with a comma between them is what is read from each, one after the
other. -/
theorem read?_append_comma : read? anyMark (s ++ ',' :: t) = some f ↔
    ∃ g h, read? anyMark s = some g ∧ read? anyMark t = some h ∧ f = ⟨g.terms ++ h.terms⟩ := by
  rw [read?, read?, read?, Text.tighten_append_operator (by decide), List.splitOn_append_cons_self,
    List.mapM_append]
  cases ((Text.tighten s).splitOn ',').mapM (Term.read? anyMark) with
  | none => simp
  | some gs =>
    cases ((Text.tighten t).splitOn ',').mapM (Term.read? anyMark) with
    | none => simp
    | some hs => simp [eq_comm]

theorem parse_append_comma : parse anyMark (s ++ ',' :: t) = .ok f ↔
    ∃ g h, parse anyMark s = .ok g ∧ parse anyMark t = .ok h ∧ f = ⟨g.terms ++ h.terms⟩ := by
  simp only [parse_eq_ok_iff, ← read?_eq_some_iff, read?_append_comma]

end Field

/-! ## Selections -/

namespace Selection

variable {u : TimeUnit} {f g h : Field} {s t : Selection u} {n : Int}

/-- Terms of both fields are resolved exactly when those of each field are. -/
theorem exists_ofField_append_iff (hg : g.WellFormed) (hh : h.WellFormed) :
    (∃ s, ofField u ⟨g.terms ++ h.terms⟩ = .ok s) ↔
      (∃ s, ofField u g = .ok s) ∧ ∃ s, ofField u h = .ok s := by
  have happend : Field.WellFormed ⟨g.terms ++ h.terms⟩ := by
    refine ⟨List.append_ne_nil_of_left_ne_nil hg.ne_nil _, ?_⟩
    rw [List.forall_mem_append]
    exact ⟨hg.stepsForward, hh.stepsForward⟩
  rw [exists_ofField_iff_of_wellFormed happend, exists_ofField_iff_of_wellFormed hg,
    exists_ofField_iff_of_wellFormed hh, List.forall_mem_append]

/-- Terms of both fields select what those of either field select. -/
theorem includes_append {r : Selection u} (hr : ofField u ⟨g.terms ++ h.terms⟩ = .ok r)
    (hs : ofField u g = .ok s) (ht : ofField u h = .ok t) (n : Int) :
    r.includes n = (s.includes n || t.includes n) := by
  rw [Bool.eq_iff_iff, Bool.or_eq_true, includes_iff_selects hr, includes_iff_selects hs,
    includes_iff_selects ht]
  simp only [List.mem_append, or_and_right, exists_or]

/-- A field with the terms of one that is resolved, in any order and number, is resolved to an equal
selection. -/
theorem exists_ofField_eq_of_mem_iff (hmem : ∀ a, a ∈ g.terms ↔ a ∈ f.terms)
    (hs : ofField u f = .ok s) : ∃ t, ofField u g = .ok t ∧ (t == s) = true := by
  obtain ⟨t, ht⟩ : ∃ t, ofField u g = .ok t := by
    rw [exists_ofField_iff]
    simp only [hmem]
    exact exists_ofField_iff.1 ⟨s, hs⟩
  refine ⟨t, ht, AnySelection.beq_mk_iff.2 fun n => ?_⟩
  rw [Bool.eq_iff_iff, includes_iff_selects ht, includes_iff_selects hs]
  simp only [hmem]

end Selection

namespace Field

/-- A comma is a union.  Two texts with a comma between them are accepted exactly when both are
accepted, and stand for the terms of one after those of the other.  In every unit these are resolved
exactly when both fields are, and then select what one of the two selects.  So terms that are
repeated or in another order are resolved as well, to an equal selection. -/
theorem comma_is_union :
    (∀ (anyMark : Bool) (s t : Text) (f : Field), parse anyMark (s ++ ',' :: t) = .ok f ↔
      ∃ g h, parse anyMark s = .ok g ∧ parse anyMark t = .ok h ∧ f = ⟨g.terms ++ h.terms⟩) ∧
    (∀ (anyMark : Bool) (s t : Text) (f g h : Field), parse anyMark (s ++ ',' :: t) = .ok f →
      parse anyMark s = .ok g → parse anyMark t = .ok h → ∀ u : TimeUnit,
      ((∃ r, Selection.ofField u f = .ok r) ↔
        (∃ p, Selection.ofField u g = .ok p) ∧ ∃ q, Selection.ofField u h = .ok q) ∧
      ∀ r p q, Selection.ofField u f = .ok r → Selection.ofField u g = .ok p →
        Selection.ofField u h = .ok q → ∀ n, r.includes n = (p.includes n || q.includes n)) ∧
    ∀ (u : TimeUnit) (f g : Field) (s : Selection u), (∀ a, a ∈ g.terms ↔ a ∈ f.terms) →
      Selection.ofField u f = .ok s → ∃ t, Selection.ofField u g = .ok t ∧ (t == s) = true := by
  refine ⟨fun anyMark s t f => parse_append_comma, ?_,
    fun u f g s hmem hs => Selection.exists_ofField_eq_of_mem_iff hmem hs⟩
  intro anyMark s t f g h hf hg hh u
  obtain ⟨g', h', hg', hh', rfl⟩ := parse_append_comma.1 hf
  obtain rfl := Except.ok.inj (hg.symm.trans hg')
  obtain rfl := Except.ok.inj (hh.symm.trans hh')
  have hgWell := Spelled.wellFormed (parse_eq_ok_iff.1 hg)
  have hhWell := Spelled.wellFormed (parse_eq_ok_iff.1 hh)
  exact ⟨Selection.exists_ofField_append_iff hgWell hhWell,
    fun r p q hr hp hq => Selection.includes_append hr hp hq⟩

/-- White space around the comma, a range next to every value, and the terms in another order with
one of them repeated. -/
theorem comma_is_union_hours :
    ∃ (f g h : Field) (r p q : Selection .hours),
      parse false " 9-11 , * ".toList = .ok f ∧ parse false " 9-11 ".toList = .ok g ∧
      parse false " * ".toList = .ok h ∧ f.terms = g.terms ++ h.terms ∧
      Selection.ofField .hours f = .ok r ∧ Selection.ofField .hours g = .ok p ∧
      Selection.ofField .hours h = .ok q ∧ q.isListed = false ∧ r.isListed = true ∧
      (∀ n, r.includes n = (p.includes n || q.includes n)) ∧
      ∃ t, Selection.ofField .hours ⟨[.base .all, .base (.range 9 11), .base .all]⟩ = .ok t ∧
        (t == r) = true := by
  obtain ⟨hparse, hunion, hset⟩ := comma_is_union
  have hg : parse false " 9-11 ".toList = .ok ⟨[.base (.range 9 11)]⟩ := by decide
  have hh : parse false " * ".toList = .ok ⟨[.base .all]⟩ := by decide
  have hf := (hparse false " 9-11 ".toList " * ".toList _).2 ⟨_, _, hg, hh, rfl⟩
  obtain ⟨p, hp⟩ : ∃ p, Selection.ofField .hours ⟨[.base (.range 9 11)]⟩ = .ok p := ⟨_, rfl⟩
  obtain ⟨q, hq, hall⟩ :
      ∃ q, Selection.ofField .hours ⟨[.base .all]⟩ = .ok q ∧ q.isListed = false := ⟨_, rfl, rfl⟩
  obtain ⟨r, hr, hlisted⟩ : ∃ r, Selection.ofField .hours
      ⟨[.base (.range 9 11)] ++ [.base .all]⟩ = .ok r ∧ r.isListed = true := ⟨_, rfl, rfl⟩
  obtain ⟨-, hincludes⟩ := hunion false _ _ _ _ _ hf hg hh .hours
  exact ⟨_, _, _, r, p, q, hf, hg, hh, rfl, hr, hp, hq, hall, hlisted, hincludes r p q hr hp hq,
    hset .hours _ ⟨[.base .all, .base (.range 9 11), .base .all]⟩ r (by simp) hr⟩

end Field
end Timetable
