import Timetable.Proofs.Cuts
import Timetable.Proofs.Rendering

/-!
# The field that may be missing

An expression of six fields selects every year.  Written out this is a seventh field `*` after white
space, and nothing else changes when it is added, as long as there is no operator before the white
space.  After an operator the white space would have no meaning: the `*` would become a part of the
last field, and six fields would stay six.

## Main statements

* `Text.splitFields_append_blanks_append`: texts with white space between them are cut apart there.
* `Expression.readLonghand_append_star`: one more field `*` after six.
* `Fields.years_default`: six fields and the same with `*` for the years.
-/

namespace Timetable

/-! ## The white space before the last field -/

namespace Text

variable {c d : Char} {s t w : Text} {ps : List Text}

/-- What follows a text does not matter for the first character of it that is not white space. -/
theorem opensJoined_append (h : ∃ c ∈ s, isBlank c = false) :
    opensJoined (s ++ t) = opensJoined s := by
  induction s with
  | nil =>
    obtain ⟨c, hc, -⟩ := h
    cases hc
  | cons c s ih =>
    rw [List.cons_append, opensJoined_cons, opensJoined_cons]
    split
    · rename_i hblank
      obtain ⟨d, hd, hd'⟩ := h
      rcases List.mem_cons.1 hd with rfl | hd
      · rw [hblank] at hd'
        cases hd'
      · exact ih ⟨d, hd, hd'⟩
    · rfl

/-- Neither does it for the end of a field before that character. -/
theorem endsField_append (h : ∃ c ∈ s, isBlank c = false) :
    endsField c (s ++ t) = endsField c s := by
  have hstarts : startsBlank (s ++ t) = startsBlank s := by
    cases s with
    | nil =>
      obtain ⟨c, hc, -⟩ := h
      cases hc
    | cons d s => rfl
  have hall : s.all isBlank = false := by
    rw [List.all_eq_false]
    obtain ⟨d, hd, hblank⟩ := h
    exact ⟨d, hd, by simp [hblank]⟩
  rw [endsField, endsField, List.all_append, hall, Bool.false_and, hstarts, opensJoined_append h]

/-- White space between two texts cuts them apart unless there is an operator before or after it. -/
theorem splitFields_append_blanks_append
    (hs : ∀ c, (withoutBlanks s).getLast? = some c → isOperator c = false) (hne : w ≠ [])
    (hw : ∀ c ∈ w, isBlank c = true) (ht : opensJoined t = false) :
    splitFields (s ++ w ++ t) = splitFields s ++ splitFields t := by
  induction s with
  | nil => exact splitFields_blanks_append hw
  | cons c s ih =>
    rw [List.cons_append, List.cons_append]
    by_cases hc : isBlank c = true
    · rw [withoutBlanks_blank_cons hc] at hs
      rw [splitFields_blank_cons hc, splitFields_blank_cons hc, ih hs]
    · rw [Bool.not_eq_true] at hc
      rw [withoutBlanks_cons hc] at hs
      have htail : ∀ d, (withoutBlanks s).getLast? = some d → isOperator d = false := by
        intro d hd
        apply hs
        rw [List.getLast?_cons, hd, Option.getD_some]
      rw [splitFields_cons hc, splitFields_cons hc, ih htail]
      by_cases hblanks : ∀ x ∈ s, isBlank x = true
      · -- the character is the last one of its field, in either text
        have hop : isOperator c = false := by
          apply hs
          rw [withoutBlanks_of_blanks hblanks]
          rfl
        have hrest : startsBlank (w ++ t) = true ∧ opensJoined (w ++ t) = false := by
          rw [startsBlank_blanks_append hw, opensJoined_blanks_append hw]
          exact ⟨by simp [hne], ht⟩
        have hpad : Padded true [] s := .nil hblanks
        rw [List.append_assoc, endsField_of_padded_nil hpad hop (.inr hrest),
          endsField_of_blanks hblanks, if_pos rfl, if_pos rfl, List.cons_append]
      · have hmore : ∃ x ∈ s, isBlank x = false := by simpa using hblanks
        rw [List.append_assoc, endsField_append hmore]
        split
        · rw [List.cons_append]
        · cases hsplit : splitFields s with
          | nil => exact absurd (splitFields_eq_nil_iff.1 hsplit) hblanks
          | cons p ps => rfl

/-- After an operator there is no cut: the last field goes on. -/
example : splitFields "0 0 0 1 1 2, *".toList = splitFields "0 0 0 1 1 2,*".toList := by
  decide

/-- Closed texts do not end with an operator when they are put together. -/
theorem isOperator_getLast?_flatten (h : ∀ p ∈ ps, Closed p) (hc : ps.flatten.getLast? = some c) :
    isOperator c = false := by
  induction ps with
  | nil => cases hc
  | cons p ps ih =>
    obtain ⟨hp, hps⟩ := List.forall_mem_cons.1 h
    rw [List.flatten_cons, List.getLast?_append] at hc
    cases hlast : ps.flatten.getLast? with
    | none =>
      rw [hlast, Option.none_or] at hc
      exact hp.last c hc
    | some d =>
      rw [hlast, Option.some_or] at hc
      exact ih hps (hlast.trans hc)

end Text

/-- What spells a field is closed if it holds no white space. -/
theorem Field.Spelled.closed {anyMark : Bool} {f : Field} {s : Text} (h : f.Spelled anyMark s)
    (hs : ∀ c ∈ s, Text.isBlank c = false) : Text.Closed s := by
  obtain ⟨t, hclosed, hpad, -⟩ := h.exists_closed
  rwa [hpad.eq_of_isBlank_eq_false hclosed.isBlank_eq_false hs]

/-! ## Six fields and seven -/

namespace Expression

variable {e w : Text} {fields : List Field}

/-- An expression that is accepted does not end with an operator. -/
theorem Rendered.isOperator_getLast? {c : Char} (h : Rendered fields e)
    (hc : (Text.withoutBlanks e).getLast? = some c) : Text.isOperator c = false := by
  obtain ⟨hlength, -, hspelled⟩ := h.rendered.splitFields_spelled
  have hclosed : ∀ p ∈ Text.splitFields e, Text.Closed p := by
    intro p hp
    have hplaces : (places e).map Prod.snd = Text.splitFields e := by
      have hcount : WellCounted e := by
        rw [WellCounted, hlength]
        exact h.wellCounted
      exact List.map_snd_zip hcount.length_le
    rw [← hplaces] at hp
    obtain ⟨place, hplace, rfl⟩ := List.mem_map.1 hp
    obtain ⟨f, -, hf⟩ := exists_mem_of_forall₂ hspelled.flip hplace
    have hmem : place.2 ∈ Text.splitFields e := (List.of_mem_zip hplace).2
    exact Field.Spelled.closed hf fun c hc => Text.isBlank_eq_false_of_mem_splitFields hmem hc
  apply Text.isOperator_getLast?_flatten hclosed
  rw [Text.flatten_splitFields]
  exact hc

/-- One more field `*` after six is read as such. -/
theorem readLonghand_append_star {e' : Text} (hlength : (Text.splitFields e).length = 6)
    (hsplit : Text.splitFields e' = Text.splitFields e ++ [['*']]) :
    readLonghand e' = (readLonghand e).map (· ++ [⟨[.base .all]⟩]) := by
  have hcount : WellCounted e := .inl hlength
  have hcount' : WellCounted e' := .inr (by rw [hsplit, List.length_append, hlength]; rfl)
  -- the first six units have a field each, and the years have what is left
  have hzip : ∀ rest, TimeUnit.inOrder.zip (Text.splitFields e ++ rest) =
      (TimeUnit.inOrder.take 6).zip (Text.splitFields e) ++ [TimeUnit.years].zip rest := by
    intro rest
    rw [← List.zip_append (by rw [hlength]; rfl)]
    rfl
  have hsix := hzip []
  rw [List.append_nil, List.zip_nil_right, List.append_nil] at hsix
  have hplaces : places e' = places e ++ [(.years, ['*'])] := by
    rw [places, places, hsplit, hzip, hsix]
    rfl
  have hstar : readField .years ['*'] = .ok ⟨[.base .all]⟩ := by decide
  rw [readLonghand_of_wellCounted hcount, readLonghand_of_wellCounted hcount', hplaces,
    List.mapM_append, List.mapM_cons, hstar]
  cases (places e).mapM fun place => readField place.1 place.2 <;> rfl

/-- Shorthands stand for seven fields. -/
theorem length_shorthands : ∀ entry ∈ shorthands,
    (readLonghand entry.2).toOption.map List.length = some 7 := by
  decide

/-- No shorthand ends with `*`. -/
theorem getLast?_shorthands : ∀ entry ∈ shorthands, entry.1.getLast? ≠ some '*' := by
  decide

/-- Fields that are read from a text with the mark of a shorthand are those of the expression that
it stands for. -/
theorem exists_shorthand (h : parse e = .ok fields) (hmark : e.head? = some shorthandMark) :
    ∃ expression, (e, expression) ∈ shorthands ∧ readLonghand expression = .ok fields := by
  rw [parse, read, if_pos hmark, mapError_eq_ok_iff, bind_eq_ok_iff] at h
  obtain ⟨expression, hexpand, hread⟩ := h
  rw [expand] at hexpand
  split at hexpand
  · rename_i hlookup
    cases hexpand
    exact ⟨_, mem_of_lookup_eq_some hlookup, hread⟩
  · cases hexpand

/-- An expression of six fields is no shorthand. -/
theorem head?_ne_of_length_eq_six (h : parse e = .ok fields) (hlength : fields.length = 6) :
    e.head? ≠ some shorthandMark := by
  intro hmark
  obtain ⟨expression, hmem, hread⟩ := exists_shorthand h hmark
  have hseven := length_shorthands _ hmem
  rw [hread] at hseven
  simp [Except.toOption, hlength] at hseven

/-- An expression that ends with `*` is no shorthand. -/
theorem head?_ne_of_getLast? (h : parse e = .ok fields) (hlast : e.getLast? = some '*') :
    e.head? ≠ some shorthandMark := by
  intro hmark
  obtain ⟨expression, hmem, -⟩ := exists_shorthand h hmark
  exact getLast?_shorthands _ hmem hlast

end Expression

namespace Fields

variable {e w : Text} {fields : List Field} {F : Fields}

/-- The years of six fields are those of a seventh field `*`. -/
theorem ofFieldList_append_all (h : fields.length = 6) :
    ofFieldList (fields ++ [⟨[.base .all]⟩]) = ofFieldList fields := by
  match fields, h with
  | [_, _, _, _, _, _], _ => rfl

/-- Six fields stand for the same with `*` for the years added after white space. -/
theorem parse_append_star_iff (hmark : e.head? ≠ some Expression.shorthandMark)
    (hlast : ∀ c, (Text.withoutBlanks e).getLast? = some c → Text.isOperator c = false)
    (hne : w ≠ []) (hw : ∀ c ∈ w, Text.isBlank c = true)
    (hlength : (Text.splitFields e).length = 6) :
    parse (e ++ w ++ ['*']) = .ok F ↔ parse e = .ok F := by
  have hsplit : Text.splitFields (e ++ w ++ ['*']) = Text.splitFields e ++ [['*']] :=
    Text.splitFields_append_blanks_append hlast hne hw rfl
  have hnonempty : e ≠ [] := by
    rintro rfl
    cases hlength
  have hmark' : (e ++ w ++ ['*']).head? ≠ some Expression.shorthandMark := by
    rwa [List.append_assoc, List.head?_append_of_ne_nil _ hnonempty]
  rw [parse_eq_ok_iff, parse_eq_ok_iff, Expression.read, Expression.read, if_neg hmark,
    if_neg hmark', Expression.readLonghand_append_star hlength hsplit]
  cases hread : Expression.readLonghand e with
  | error p => rfl
  | ok fields =>
    have hfields : fields.length = 6 := by
      rw [← (Expression.readLonghand_eq_ok_iff.1 hread).rendered.splitFields_spelled.1, hlength]
    change ofFieldList (fields ++ [⟨[.base .all]⟩]) = .ok F ↔ ofFieldList fields = .ok F
    rw [ofFieldList_append_all hfields]

/-- An expression of six fields stands for the same seven selections when white space and `*` are
added to it.  Conversely, what stands for seven fields and ends with white space and `*` stands for
the same selections without them, unless there is an operator before the white space. -/
theorem years_default :
    (∀ (e w : Text) (fields : List Field) (F : Fields), w ≠ [] →
      (∀ c ∈ w, Text.isBlank c = true) → Expression.parse e = .ok fields → fields.length = 6 →
      parse e = .ok F → parse (e ++ w ++ ['*']) = .ok F) ∧
    ∀ (e w : Text) (fields : List Field) (F : Fields), w ≠ [] →
      (∀ c ∈ w, Text.isBlank c = true) →
      (∀ c, (Text.withoutBlanks e).getLast? = some c → Text.isOperator c = false) →
      Expression.parse (e ++ w ++ ['*']) = .ok fields → fields.length = 7 →
      parse (e ++ w ++ ['*']) = .ok F → parse e = .ok F := by
  constructor
  · intro e w fields F hne hw hread hlength hparse
    have hmark := Expression.head?_ne_of_length_eq_six hread hlength
    have hrendered := (Expression.parse_eq_ok_iff_rendered hmark).1 hread
    have hpieces := hrendered.rendered.splitFields_spelled.1
    have hlast := fun c => @Expression.Rendered.isOperator_getLast? e fields c hrendered
    exact (parse_append_star_iff hmark hlast hne hw (hpieces.trans hlength)).2 hparse
  · intro e w fields F hne hw hlast hread hlength hparse
    have hstar : (e ++ w ++ ['*']).getLast? = some '*' := by simp
    have hmark := Expression.head?_ne_of_getLast? hread hstar
    have hrendered := (Expression.parse_eq_ok_iff_rendered hmark).1 hread
    have hpieces := hrendered.rendered.splitFields_spelled.1
    rw [Text.splitFields_append_blanks_append hlast hne hw rfl, List.length_append] at hpieces
    have hsix : (Text.splitFields e).length = 6 := by
      have hone : (Text.splitFields ['*']).length = 1 := by decide
      omega
    have hnonempty : e ≠ [] := by
      rintro rfl
      cases hsix
    rw [List.append_assoc, List.head?_append_of_ne_nil _ hnonempty] at hmark
    exact (parse_append_star_iff hmark hlast hne hw hsix).1 hparse

/-- Six fields with white space around them get a seventh after a line break, and seven lose the
last one with two blanks before it. -/
theorem years_default_weekdays :
    (∃ F, parse "\t0 30 9 ? * Mon - Fri ".toList = .ok F ∧
      parse "\t0 30 9 ? * Mon - Fri \n*".toList = .ok F) ∧
    ∃ F, parse "0 0 9 1,15 * ?  *".toList = .ok F ∧ parse "0 0 9 1,15 * ?".toList = .ok F := by
  obtain ⟨hadd, hleave⟩ := years_default
  have hsix : Expression.parse "\t0 30 9 ? * Mon - Fri ".toList =
      .ok [⟨[.base (.point 0)]⟩, ⟨[.base (.point 30)]⟩, ⟨[.base (.point 9)]⟩, ⟨[.base .all]⟩,
        ⟨[.base .all]⟩, ⟨[.base (.namedRange "Mon".toList "Fri".toList)]⟩] := rfl
  have hseven : Expression.parse "0 0 9 1,15 * ?  *".toList =
      .ok [⟨[.base (.point 0)]⟩, ⟨[.base (.point 0)]⟩, ⟨[.base (.point 9)]⟩,
        ⟨[.base (.point 1), .base (.point 15)]⟩, ⟨[.base .all]⟩, ⟨[.base .all]⟩,
        ⟨[.base .all]⟩] := rfl
  obtain ⟨F, hF⟩ : ∃ F, parse "\t0 30 9 ? * Mon - Fri ".toList = .ok F :=
    exists_ok_of_isSome (by decide)
  obtain ⟨G, hG⟩ : ∃ G, parse "0 0 9 1,15 * ?  *".toList = .ok G :=
    exists_ok_of_isSome (by decide)
  have hlast : ∀ c, (Text.withoutBlanks "0 0 9 1,15 * ?".toList).getLast? = some c →
      Text.isOperator c = false := by
    rintro c ⟨⟩
    decide
  exact ⟨⟨F, hF, hadd _ ['\n'] _ F (by simp) (List.all_eq_true.1 rfl) hsix rfl hF⟩,
    G, hG, hleave _ [' ', ' '] _ G (by simp) (List.all_eq_true.1 rfl) hlast hseven rfl hG⟩

end Fields
end Timetable
