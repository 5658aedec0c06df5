import Timetable.Proofs.Rejection
import Timetable.Proofs.Splitting

/-!
# Expressions and their renderings

A rendering writes the fields of an expression one after the other with white space between two of
them: each of them as a text that spells it at its place, so with any leading zeros of a numeral,
either mark for every value where both are admitted, and any white space around operators and at
the ends.  Parsing finds the fields of every rendering, and what it accepts, shorthands apart, is a
rendering of what it finds.

What is spelled neither begins nor ends with an operator and holds no white space but the one that
is added to it, which is why the white space between two fields is never taken for part of one.

## Main definitions

* `Expression.Rendered`: a text renders fields.

## Main statements

* `Field.Spelled.exists_closed`: what spells a field is a closed text and white space around it.
* `Expression.readLonghand_eq_ok_iff`: an expression is read as the fields that it renders.
-/

namespace Timetable

/-! ## Renderings -/

namespace Expression

/-- A text renders fields for the first of some units: each is spelled at its place, and there is
white space between two. -/
inductive RenderedFor : List TimeUnit → List Field → Text → Prop where
  | last {u : TimeUnit} {units : List TimeUnit} {f : Field} {s : Text}
      (hf : f.Spelled u.admitsAnyMark s) : RenderedFor (u :: units) [f] s
  | cons {u : TimeUnit} {units : List TimeUnit} {f : Field} {fields : List Field} {s w e : Text}
      (hf : f.Spelled u.admitsAnyMark s) (hne : w ≠ []) (hw : ∀ c ∈ w, Text.isBlank c = true)
      (h : RenderedFor units fields e) : RenderedFor (u :: units) (f :: fields) (s ++ w ++ e)

/-- A text renders six or seven fields in the order of the units. -/
structure Rendered (fields : List Field) (e : Text) : Prop where
  wellCounted : fields.length = 6 ∨ fields.length = 7
  rendered : RenderedFor TimeUnit.inOrder fields e

end Expression

/-! ## What is spelled is closed -/

namespace Text

variable {c : Char} {joined : Bool} {s t rest : Text}

theorem Solid.closed (hs : Solid [] s) (hne : s ≠ []) : Closed s where
  ne_nil := hne
  isBlank_eq_false := hs.isBlank_eq_false
  head c hc := by
    by_contra hop
    rw [Bool.not_eq_false] at hop
    exact List.not_mem_nil ((hs c (List.mem_of_head? hc)).2 hop)
  last c hc := by
    by_contra hop
    rw [Bool.not_eq_false] at hop
    exact List.not_mem_nil ((hs c (List.mem_of_getLast? hc)).2 hop)

theorem closed_of_isName (h : s.isName = true) : Closed s :=
  (solid_of_isName h).closed (isName_iff.1 h).1

theorem Numeral.Spelled.closed {n : Nat} (h : Numeral.Spelled n s) : Closed s :=
  h.solid.closed h.ne_nil

/-- A padded closed text does not begin with an operator. -/
theorem Padded.opensJoined_eq_false (h : Padded joined t s) (ht : Closed t) :
    opensJoined (s ++ rest) = false := by
  cases h with
  | nil => exact absurd rfl ht.ne_nil
  | @cons _ c t w s hw _ _ =>
    rw [List.append_assoc, opensJoined_blanks_append hw, List.cons_append, opensJoined_cons,
      ht.isBlank_eq_false c List.mem_cons_self, if_neg Bool.false_ne_true]
    exact ht.head c rfl

/-- Padding adds white space only. -/
theorem Padded.mem_or_isBlank (h : Padded joined t s) (hc : c ∈ s) :
    c ∈ t ∨ isBlank c = true := by
  induction h with
  | nil hw => exact .inr (hw c hc)
  | cons hw _ _ ih =>
    rcases List.mem_append.1 hc with hc | hc
    · exact .inr (hw c hc)
    · rcases List.mem_cons.1 hc with rfl | hc
      · exact .inl List.mem_cons_self
      · exact (ih hc).imp_left (List.mem_cons_of_mem _)

end Text

variable {anyMark : Bool} {s t : Text}

theorem Text.closed_of_isAllMark (h : s.isAllMark anyMark = true) : Text.Closed s := by
  refine (Base.solid_of_isAllMark h).closed ?_
  rintro rfl
  simp [Text.isAllMark] at h

theorem Base.Spelled.closed {b : Base} (h : b.Spelled anyMark s) : Text.Closed s := by
  cases h with
  | all => exact Text.closed_of_isAllMark (Base.spelled_all_iff.1 (@Base.Spelled.all anyMark))
  | any h => exact Text.closed_of_isAllMark (Base.spelled_all_iff.1 (.any h))
  | point hs => exact hs.closed
  | range hs ht => exact hs.closed.append_cons ht.closed rfl
  | namedRange hs ht =>
    exact (Text.closed_of_isName hs).append_cons (Text.closed_of_isName ht) rfl

theorem Term.Spelled.closed {a : Term} (h : a.Spelled anyMark s) : Text.Closed s := by
  cases h with
  | base hb => exact hb.closed
  | name hs => exact Text.closed_of_isName hs
  | period hb ht _ => exact hb.closed.append_cons ht.closed rfl

namespace Field

variable {f : Field}

/-- What spells a field is a closed text that spells it, with white space added. -/
theorem Spelled.exists_closed (h : f.Spelled anyMark s) :
    ∃ t, Text.Closed t ∧ Text.Padded true t s ∧ f.Spelled anyMark t := by
  obtain ⟨pieces, hne, hterms, hpad⟩ := h
  have hclosed : Text.Closed ([','].intercalate pieces) := by
    refine Text.intercalate_induction (fun s t hs ht => hs.append_cons ht rfl) hne ?_
    intro piece hpiece
    obtain ⟨a, -, ha⟩ := exists_mem_of_forall₂ hterms hpiece
    exact ha.closed
  exact ⟨_, hclosed, hpad, pieces, hne, hterms, .refl hclosed.isBlank_eq_false⟩

/-- White space may be added to a text that spells a field. -/
theorem Spelled.of_padded (h : f.Spelled anyMark t) (ht : ∀ c ∈ t, Text.isBlank c = false)
    (hpad : Text.Padded true t s) : f.Spelled anyMark s := by
  obtain ⟨pieces, hne, hterms, htight⟩ := h
  have hsolid := solid_intercalate (solid_of_mem hterms)
  rw [htight.eq_of_isBlank_eq_false hsolid.isBlank_eq_false ht] at hpad
  exact ⟨pieces, hne, hterms, hpad⟩

end Field

/-! ## Reading renderings -/

namespace Expression

variable {units : List TimeUnit} {fields : List Field} {e : Text}

/-- A rendering is cut into texts that spell its fields. -/
theorem RenderedFor.splitFields_spelled (h : RenderedFor units fields e) :
    (Text.splitFields e).length = fields.length ∧ Text.opensJoined e = false ∧
      List.Forall₂ SpelledAt (units.zip (Text.splitFields e)) fields := by
  induction h with
  | @last u units f s hf =>
    obtain ⟨t, hclosed, hpad, ht⟩ := hf.exists_closed
    have hsplit := Text.splitFields_append hpad hclosed (.inl rfl)
    have hopens : Text.opensJoined (s ++ []) = false := hpad.opensJoined_eq_false hclosed
    rw [List.append_nil] at hsplit hopens
    rw [hsplit, Text.splitFields_nil]
    refine ⟨rfl, hopens, ?_⟩
    rw [List.zip_cons_cons, List.zip_nil_right]
    exact .cons ht .nil
  | @cons u units f fields s w e hf hne hw _ ih =>
    obtain ⟨hlength, hopens, hfields⟩ := ih
    obtain ⟨t, hclosed, hpad, ht⟩ := hf.exists_closed
    have hrest : Text.startsBlank (w ++ e) = true ∧ Text.opensJoined (w ++ e) = false := by
      rw [Text.startsBlank_blanks_append hw, Text.opensJoined_blanks_append hw]
      exact ⟨by simp [hne], hopens⟩
    rw [List.append_assoc, Text.splitFields_append hpad hclosed (.inr hrest),
      Text.splitFields_blanks_append hw]
    exact ⟨by simp [hlength], hpad.opensJoined_eq_false hclosed, .cons ht hfields⟩

/-- What is cut into texts that spell fields renders them. -/
theorem renderedFor_of_splitFields {pieces : List Text} (hsplit : Text.splitFields e = pieces)
    (hne : pieces ≠ []) (hlength : pieces.length ≤ units.length)
    (hfields : List.Forall₂ SpelledAt (units.zip pieces) fields) : RenderedFor units fields e := by
  induction pieces generalizing e units fields with
  | nil => exact absurd rfl hne
  | cons p ps ih =>
    obtain ⟨s, rest, rfl, -, hpad, hstarts, hrest⟩ :=
      Text.exists_append_of_splitFields_eq_cons hsplit
    have hp : ∀ c ∈ p, Text.isBlank c = false :=
      fun c hc => Text.isBlank_eq_false_of_mem_splitFields (hsplit ▸ List.mem_cons_self) hc
    obtain ⟨u, units, rfl⟩ : ∃ u units', units = u :: units' :=
      List.exists_cons_of_length_pos (by simp at hlength; omega)
    rw [List.zip_cons_cons, List.forall₂_cons_left_iff] at hfields
    obtain ⟨f, fields, hf, hfields, rfl⟩ := hfields
    cases ps with
    | nil =>
      rw [List.zip_nil_right, List.forall₂_nil_left_iff] at hfields
      subst hfields
      exact .last (hf.of_padded hp (hpad.append_blanks (Text.splitFields_eq_nil_iff.1 hrest)))
    | cons q qs =>
      cases rest with
      | nil => cases hrest
      | cons x rest =>
        have hx : Text.isBlank x = true := hstarts
        rw [Text.splitFields_blank_cons hx] at hrest
        have htail := ih hrest (List.cons_ne_nil q qs) (by simpa using hlength) hfields
        rw [List.append_cons]
        exact .cons (hf.of_padded hp hpad) (List.cons_ne_nil x []) (by simpa using hx) htail

/-- An expression that is no shorthand is read as the fields that it renders. -/
theorem readLonghand_eq_ok_iff : readLonghand e = .ok fields ↔ Rendered fields e := by
  constructor
  · intro h
    obtain ⟨hcount, h⟩ := spelledAt_of_readLonghand h
    have hlength := h.length_eq
    rw [length_places hcount] at hlength
    rw [WellCounted] at hcount
    refine ⟨hlength ▸ hcount, renderedFor_of_splitFields rfl ?_ ?_ h⟩
    · intro hnil
      simp [hnil] at hcount
    · simp only [TimeUnit.inOrder, List.length_cons, List.length_nil]
      omega
  · rintro ⟨hcount, h⟩
    obtain ⟨hlength, -, hfields⟩ := h.splitFields_spelled
    rw [← hlength] at hcount
    rw [readLonghand_of_wellCounted hcount, mapM_eq_ok_iff]
    simp only [readField_eq_ok_iff]
    exact hfields

end Expression

/-! ## The characters of a rendering -/

/-- The characters that fields are written with. -/
def Text.isFieldChar (anyMark : Bool) (c : Char) : Bool :=
  c.isAlphanum || c == '*' || anyMark && c == '?' || isOperator c || isBlank c

section FieldChar

variable {c : Char}

theorem Text.isFieldChar_of_isAlphanum (h : c.isAlphanum = true) :
    Text.isFieldChar anyMark c = true := by
  simp [Text.isFieldChar, h]

theorem Text.isFieldChar_of_isOperator (h : Text.isOperator c = true) :
    Text.isFieldChar anyMark c = true := by
  simp [Text.isFieldChar, h]

theorem Text.Numeral.Spelled.isFieldChar {n : Nat} (h : Text.Numeral.Spelled n s) (hc : c ∈ s) :
    Text.isFieldChar anyMark c = true :=
  Text.isFieldChar_of_isAlphanum (by simp [Char.isAlphanum, h.isDigit c hc])

theorem Text.isFieldChar_of_isName (h : s.isName = true) (hc : c ∈ s) :
    Text.isFieldChar anyMark c = true :=
  Text.isFieldChar_of_isAlphanum (by simp [Char.isAlphanum, (Text.isName_iff.1 h).2 c hc])

/-- An operator between texts that are made of such characters. -/
theorem Text.isFieldChar_of_mem_append_cons {op : Char} (hop : Text.isOperator op = true)
    (hs : ∀ c ∈ s, Text.isFieldChar anyMark c = true)
    (ht : ∀ c ∈ t, Text.isFieldChar anyMark c = true) :
    ∀ c ∈ s ++ op :: t, Text.isFieldChar anyMark c = true := by
  rw [List.forall_mem_append, List.forall_mem_cons]
  exact ⟨hs, Text.isFieldChar_of_isOperator hop, ht⟩

theorem Base.Spelled.isFieldChar {b : Base} (h : b.Spelled anyMark s) :
    ∀ c ∈ s, Text.isFieldChar anyMark c = true := by
  cases h with
  | all => simp [Text.isFieldChar]
  | any h => simp [Text.isFieldChar, h]
  | point hs => exact fun c => hs.isFieldChar
  | range hs ht =>
    exact Text.isFieldChar_of_mem_append_cons rfl (fun c => hs.isFieldChar) fun c => ht.isFieldChar
  | namedRange hs ht =>
    exact Text.isFieldChar_of_mem_append_cons rfl (fun c => Text.isFieldChar_of_isName hs)
      fun c => Text.isFieldChar_of_isName ht

theorem Term.Spelled.isFieldChar {a : Term} (h : a.Spelled anyMark s) :
    ∀ c ∈ s, Text.isFieldChar anyMark c = true := by
  cases h with
  | base hb => exact hb.isFieldChar
  | name hs => exact fun c => Text.isFieldChar_of_isName hs
  | period hb ht _ =>
    exact Text.isFieldChar_of_mem_append_cons rfl hb.isFieldChar fun c => ht.isFieldChar

/-- What spells a field is made of such characters. -/
theorem Field.Spelled.isFieldChar {f : Field} (h : f.Spelled anyMark s) (hc : c ∈ s) :
    Text.isFieldChar anyMark c = true := by
  obtain ⟨pieces, hne, hterms, hpad⟩ := h
  have hpieces : ∀ c ∈ [','].intercalate pieces, Text.isFieldChar anyMark c = true := by
    refine Text.intercalate_induction
      (P := fun s => ∀ c ∈ s, Text.isFieldChar anyMark c = true)
      (fun s t => Text.isFieldChar_of_mem_append_cons rfl) hne ?_
    intro piece hpiece
    obtain ⟨a, -, ha⟩ := exists_mem_of_forall₂ hterms hpiece
    exact ha.isFieldChar
  rcases hpad.mem_or_isBlank hc with hc | hc
  · exact hpieces c hc
  · simp [Text.isFieldChar, hc]

end FieldChar

namespace Expression

variable {units : List TimeUnit} {fields : List Field} {e : Text}

/-- No rendering holds the mark of a shorthand. -/
theorem RenderedFor.shorthandMark_notMem (h : RenderedFor units fields e) :
    shorthandMark ∉ e := by
  have hmark : ∀ anyMark, Text.isFieldChar anyMark shorthandMark = false := by decide
  have hfield : ∀ {u : TimeUnit} {f : Field} {s : Text}, f.Spelled u.admitsAnyMark s →
      shorthandMark ∉ s := by
    intro u f s hf hmem
    exact Bool.false_ne_true ((hmark _).symm.trans (hf.isFieldChar hmem))
  induction h with
  | last hf => exact hfield hf
  | cons hf _ hw _ ih =>
    simp only [List.mem_append, not_or]
    refine ⟨⟨hfield hf, ?_⟩, ih⟩
    intro hmem
    exact absurd (hw _ hmem) (by decide)

/-- An expression without the mark of a shorthand in front is parsed as the fields it renders. -/
theorem parse_eq_ok_iff_rendered (hmark : e.head? ≠ some shorthandMark) :
    parse e = .ok fields ↔ Rendered fields e := by
  rw [← readLonghand_eq_ok_iff, parse, read, if_neg hmark]
  cases readLonghand e <;> simp [Except.mapError]

theorem Rendered.parse_eq_ok (h : Rendered fields e) : parse e = .ok fields := by
  have hmark : e.head? ≠ some shorthandMark :=
    fun hhead => h.rendered.shorthandMark_notMem (List.mem_of_head? hhead)
  exact (parse_eq_ok_iff_rendered hmark).2 h

/-- Parsing finds the fields of every rendering, and every expression without the mark of a
shorthand in front that is accepted is a rendering of the fields that are found. -/
theorem parse_rendering (fields : List Field) (e : Text) :
    (Rendered fields e → parse e = .ok fields) ∧
      (e.head? ≠ some shorthandMark → parse e = .ok fields → Rendered fields e) :=
  ⟨fun h => h.parse_eq_ok, fun hmark h => (parse_eq_ok_iff_rendered hmark).1 h⟩

/-- White space next to operators and between fields, zeros in front of numerals, both marks for
every value, and names as they are written. -/
theorem rendered_winter_weekdays :
    Rendered
        [⟨[.base (.point 0)]⟩, ⟨[.base (.point 7), .base (.point 30)]⟩,
          ⟨[.period (.range 9 12) 2]⟩, ⟨[.period .all 2]⟩, ⟨[.name "DEC".toList,
          .base (.namedRange "jan".toList "Feb".toList)]⟩, ⟨[.base .all]⟩]
        " 0\t007 , 30  9- 12 /02 ? / 2\nDEC ,jan -Feb ? ".toList ∧
      (parse " 0\t007 , 30  9- 12 /02 ? / 2\nDEC ,jan -Feb ? ".toList).toOption.isSome = true := by
  have hparse : parse " 0\t007 , 30  9- 12 /02 ? / 2\nDEC ,jan -Feb ? ".toList =
      .ok [⟨[.base (.point 0)]⟩, ⟨[.base (.point 7), .base (.point 30)]⟩,
        ⟨[.period (.range 9 12) 2]⟩, ⟨[.period .all 2]⟩, ⟨[.name "DEC".toList,
        .base (.namedRange "jan".toList "Feb".toList)]⟩, ⟨[.base .all]⟩] := by
    rfl
  have hrendered := (parse_rendering _ _).2 (by decide) hparse
  exact ⟨hrendered, by rw [(parse_rendering _ _).1 hrendered]; rfl⟩

end Expression
end Timetable
