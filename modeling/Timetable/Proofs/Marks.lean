import Timetable.Proofs.Rendering

/-!
# The mark for any day

In the two fields that restrict days the mark `?` is another spelling of `*`: a text is read there
as it is read elsewhere once every `?` in it has become `*`.  In the other fields no text with a `?`
is read at all.  So an expression keeps its meaning when every `?` in it is exchanged for `*`.

A field is read by looking at its white space and operators first.  Exchanging characters commutes
with that as long as it leaves these alone, so only the pieces that are left have to be compared.

## Main definitions

* `Text.KeepsLayout`: an exchange of characters that leaves white space and operators alone.
* `Text.starred`: a text with `*` in the place of every `?`.

## Main statements

* `Field.read?_starred`: the reader that admits `?` reads what the other one reads with `*`.
* `Field.Spelled.starred`: with `*` in the place of `?` a text spells the same field at its place.
* `Expression.anyMark_spells_all`: the mark `?` in fields and in expressions.
-/

namespace Timetable

/-! ## Exchanging characters -/

namespace Text

/-- An exchange of characters that leaves white space and operators alone: white space stays white
space, other characters do not become white space, and no operator comes or goes. -/
structure KeepsLayout (g : Char → Char) : Prop where
  isBlank_eq : ∀ c, isBlank (g c) = isBlank c
  eq_of_isOperator : ∀ c, isOperator c = true ∨ isOperator (g c) = true → g c = c

namespace KeepsLayout

variable {g : Char → Char} (hg : KeepsLayout g)

include hg

theorem isOperator_eq (c : Char) : isOperator (g c) = isOperator c := by
  by_cases h : isOperator c = true ∨ isOperator (g c) = true
  · rw [hg.eq_of_isOperator c h]
  · simp only [not_or, Bool.not_eq_true] at h
    rw [h.1, h.2]

theorem beq_eq {op : Char} (hop : isOperator op = true) (c : Char) : (g c == op) = (c == op) := by
  rw [Bool.eq_iff_iff, beq_iff_eq, beq_iff_eq]
  constructor
  · rintro rfl
    exact (hg.eq_of_isOperator c (.inr hop)).symm
  · rintro rfl
    exact hg.eq_of_isOperator c (.inl hop)

theorem dropJoined_map (joined : Bool) (s : Text) :
    dropJoined joined (s.map g) = (dropJoined joined s).map g := by
  induction s generalizing joined with
  | nil => rfl
  | cons c s ih =>
    rw [List.map_cons, dropJoined, dropJoined, hg.isBlank_eq, hg.isOperator_eq, ih, ih]
    split <;> rfl

theorem tighten_map (s : Text) : tighten (s.map g) = (tighten s).map g := by
  rw [tighten, tighten, hg.dropJoined_map, ← List.map_reverse, hg.dropJoined_map, List.map_reverse]

/-- Cutting at an operator. -/
theorem splitOn_map {op : Char} (hop : isOperator op = true) (s : Text) :
    (s.map g).splitOn op = (s.splitOn op).map (List.map g) := by
  induction s with
  | nil => simp
  | cons c s ih =>
    rw [List.map_cons, List.splitOn_cons_eq_if_modifyHead, List.splitOn_cons_eq_if_modifyHead,
      hg.beq_eq hop, ih]
    split
    · rfl
    · cases s.splitOn op <;> rfl

end KeepsLayout

/-! ## One mark for the other -/

/-- The mark `*` for the mark `?`. -/
def star (c : Char) : Char :=
  if c = '?' then '*' else c

/-- A text with `*` in the place of every `?`. -/
def starred (s : Text) : Text :=
  s.map star

section Star

variable {c : Char} {s : Text}

@[simp] theorem star_mark : star '?' = '*' := rfl

theorem star_of_ne (h : c ≠ '?') : star c = c := if_neg h

/-- What tells neither mark from the other does not see the exchange. -/
theorem star_congr {p : Char → Bool} (hp : p '?' = p '*') (c : Char) : p (star c) = p c := by
  by_cases h : c = '?'
  · rw [h, star_mark, hp]
  · rw [star_of_ne h]

theorem keepsLayout_star : KeepsLayout star where
  isBlank_eq := @star_congr isBlank (by decide)
  eq_of_isOperator c h := by
    rw [@star_congr isOperator (by decide), or_self] at h
    apply star_of_ne
    rintro rfl
    exact absurd h (by decide)

theorem starred_eq_self (h : '?' ∉ s) : starred s = s := by
  rw [starred, List.map_congr_left fun c hc => star_of_ne fun hmark => h (hmark ▸ hc), List.map_id']

theorem all_starred {p : Char → Bool} (hp : p '?' = p '*') (s : Text) :
    (starred s).all p = s.all p := by
  rw [starred, List.all_map]
  congr 1
  funext c
  exact star_congr hp c

theorem starred_of_all {p : Char → Bool} (hp : p '?' = false) (h : s.all p = true) :
    starred s = s := by
  apply starred_eq_self
  intro hmem
  rw [List.all_eq_true.1 h _ hmem] at hp
  cases hp

theorem isName_starred (s : Text) : (starred s).isName = s.isName := by
  rw [isName, isName, all_starred (by decide), starred, List.isEmpty_map]

theorem starred_of_isName (h : s.isName = true) : starred s = s :=
  starred_of_all (by decide) (Bool.and_eq_true_iff.1 h).2

/-- No numeral has a mark in it. -/
theorem Numeral.read?_starred (s : Text) : Numeral.read? (starred s) = Numeral.read? s := by
  by_cases h : s.all Char.isDigit = true
  · rw [starred_of_all (by decide) h]
  · have hstarred : ¬(starred s).all Char.isDigit = true := by
      rwa [all_starred (by decide)]
    rw [read?, if_neg fun hall => hstarred hall.2.2, read?, if_neg fun hall => h hall.2.2]

/-- Either mark has become `*`. -/
theorem isAllMark_starred (s : Text) : (starred s).isAllMark false = s.isAllMark true := by
  rw [Bool.eq_iff_iff]
  simp only [isAllMark, Bool.false_and, Bool.or_false, Bool.true_and, Bool.or_eq_true, beq_iff_eq]
  constructor
  · intro h
    obtain ⟨c, rfl, hc⟩ := List.map_eq_singleton_iff.1 h
    by_cases hmark : c = '?'
    · exact .inr (by rw [hmark])
    · exact .inl (by rw [← hc, star_of_ne hmark])
  · rintro (rfl | rfl) <;> rfl

end Star
end Text

/-! ## Readers -/

namespace Base

variable (s t : Text)

theorem readSingle?_starred : readSingle? false (Text.starred s) = readSingle? true s := by
  rw [readSingle?, readSingle?, Text.isAllMark_starred, Text.Numeral.read?_starred]

theorem readRange?_starred : readRange? (Text.starred s) (Text.starred t) = readRange? s t := by
  rw [readRange?, readRange?, Text.Numeral.read?_starred, Text.Numeral.read?_starred,
    Text.isName_starred, Text.isName_starred]
  by_cases h : (s.isName && t.isName) = true
  · obtain ⟨hs, ht⟩ := Bool.and_eq_true_iff.1 h
    rw [Text.starred_of_isName hs, Text.starred_of_isName ht]
  · simp only [if_neg h]

theorem read?_starred : read? false (Text.starred s) = read? true s := by
  rw [read?, read?, Text.starred, Text.keepsLayout_star.splitOn_map (by decide)]
  rcases s.splitOn '-' with _ | ⟨p, _ | ⟨q, _ | ⟨r, rest⟩⟩⟩
  · rfl
  · exact readSingle?_starred p
  · exact readRange?_starred p q
  · rfl

end Base

namespace Term

variable (s t : Text)

theorem readPlain?_starred : readPlain? false (Text.starred s) = readPlain? true s := by
  rw [readPlain?, readPlain?, Base.read?_starred, Text.isName_starred]
  by_cases h : s.isName = true
  · rw [Text.starred_of_isName h]
  · simp only [if_neg h]

theorem readPeriod?_starred :
    readPeriod? false (Text.starred s) (Text.starred t) = readPeriod? true s t := by
  rw [readPeriod?, readPeriod?, Base.read?_starred, Text.Numeral.read?_starred]

theorem read?_starred : read? false (Text.starred s) = read? true s := by
  rw [read?, read?, Text.starred, Text.keepsLayout_star.splitOn_map (by decide)]
  rcases s.splitOn '/' with _ | ⟨p, _ | ⟨q, _ | ⟨r, rest⟩⟩⟩
  · rfl
  · exact readPlain?_starred p
  · exact readPeriod?_starred p q
  · rfl

end Term

namespace Field

variable {s : Text} {f : Field}

/-- What is read with the mark `?` is what is read without it once it has become `*`. -/
theorem read?_starred (s : Text) : read? false (Text.starred s) = read? true s := by
  rw [read?, read?, Text.starred, Text.keepsLayout_star.tighten_map,
    Text.keepsLayout_star.splitOn_map (by decide), List.mapM_map]
  congr 2
  funext piece
  exact Term.read?_starred piece

theorem spelled_starred_iff : f.Spelled false (Text.starred s) ↔ f.Spelled true s := by
  rw [← read?_eq_some_iff, ← read?_eq_some_iff, read?_starred]

/-- Without the mark `?` in the grammar it is in no text that spells a field. -/
theorem Spelled.anyMark_notMem (h : f.Spelled false s) : '?' ∉ s := by
  intro hmem
  exact absurd (h.isFieldChar hmem) (by decide)

/-- What is read without the mark `?` is read with it. -/
theorem Spelled.of_false (h : f.Spelled false s) (anyMark : Bool) : f.Spelled anyMark s := by
  cases anyMark with
  | false => exact h
  | true =>
    rw [← spelled_starred_iff, Text.starred_eq_self h.anyMark_notMem]
    exact h

/-- A text keeps what it spells when `*` takes the place of every `?`. -/
theorem Spelled.starred {anyMark : Bool} (h : f.Spelled anyMark s) :
    f.Spelled anyMark (Text.starred s) := by
  cases anyMark with
  | false =>
    rw [Text.starred_eq_self h.anyMark_notMem]
    exact h
  | true => exact (spelled_starred_iff.2 h).of_false true

end Field

/-! ## Expressions -/

theorem TimeUnit.admitsAnyMark_iff {u : TimeUnit} :
    u.admitsAnyMark = true ↔ u = .daysOfMonth ∨ u = .daysOfWeek := by
  cases u <;> decide

namespace Expression

variable {e : Text}

/-- A rendering stays one when `*` takes the place of every `?`. -/
theorem RenderedFor.starred {units : List TimeUnit} {fields : List Field}
    (h : RenderedFor units fields e) : RenderedFor units fields (Text.starred e) := by
  induction h with
  | last hf => exact .last hf.starred
  | @cons u units f fields s w e hf hne hw _ ih =>
    have hblanks : ∀ c ∈ Text.starred w, Text.isBlank c = true := by
      rw [← List.all_eq_true, Text.all_starred (by decide), List.all_eq_true]
      exact hw
    have hsplit : Text.starred (s ++ w ++ e) =
        Text.starred s ++ Text.starred w ++ Text.starred e := by
      simp only [Text.starred, List.map_append]
    rw [hsplit]
    exact .cons hf.starred (by simpa [Text.starred] using hne) hblanks ih

/-- Where the mark `?` is not admitted a field with one is malformed, and so is the first malformed
field of the expression. -/
theorem exists_malformed {u : TimeUnit} {piece : Text} (hmark : e.head? ≠ some shorthandMark)
    (hcount : WellCounted e) (hplace : (u, piece) ∈ places e) (hu : u.admitsAnyMark = false)
    (hmem : '?' ∈ piece) :
    ∃ v t, (v, t) ∈ places e ∧ parse e = .error ⟨.malformedFieldOf v t, some e⟩ := by
  have hread : read e = (places e).mapM fun place => readField place.1 place.2 := by
    rw [read, if_neg hmark, readLonghand_of_wellCounted hcount]
  cases hresult : (places e).mapM fun place => readField place.1 place.2 with
  | ok fields =>
    obtain ⟨f, -, hf⟩ := exists_mem_of_forall₂ (mapM_eq_ok_iff.1 hresult).flip hplace
    have hspelled : f.Spelled u.admitsAnyMark piece := readField_eq_ok_iff.1 hf
    rw [hu] at hspelled
    exact absurd hmem hspelled.anyMark_notMem
  | error p =>
    obtain ⟨⟨v, t⟩, hfault, hp⟩ := (mapM_eq_error_iff.1 hresult).exists_mem
    obtain ⟨rfl, -⟩ := readField_eq_error_iff.1 hp
    exact ⟨v, t, hfault, by rw [parse, hread, hresult]; rfl⟩

/-- The mark `?` spells what `*` spells, where it is admitted: a text is read there as the field
that is read elsewhere once `*` has taken the place of every `?`, and what is read elsewhere at all
is read there too and holds no `?`.  So an expression stands for the same fields after this
exchange; and if one of its six or seven fields that restricts no days has a `?`, it is rejected as
malformed at one of its fields. -/
theorem anyMark_spells_all :
    (∀ (s : Text) (f : Field),
      Field.parse true s = .ok f ↔ Field.parse false (Text.starred s) = .ok f) ∧
    (∀ (s : Text) (f : Field), Field.parse false s = .ok f → Field.parse true s = .ok f) ∧
    (∀ s : Text, '?' ∈ s → Field.parse false s = .error (.malformedField s)) ∧
    (∀ (e : Text) (F : Fields), e.head? ≠ some shorthandMark → Fields.parse e = .ok F →
      Fields.parse (Text.starred e) = .ok F) ∧
    ∀ (e piece : Text) (u : TimeUnit), e.head? ≠ some shorthandMark → WellCounted e →
      (u, piece) ∈ places e → u ≠ .daysOfMonth → u ≠ .daysOfWeek → '?' ∈ piece →
      ∃ v t, (v, t) ∈ places e ∧ Fields.parse e = .error ⟨.malformedFieldOf v t, some e⟩ ∧
        Schedule.parse e = .error ⟨.malformedFieldOf v t, some e⟩ := by
  refine ⟨?_, ?_, ?_, ?_, ?_⟩
  · intro s f
    rw [Field.parse_eq_ok_iff, Field.parse_eq_ok_iff, Field.spelled_starred_iff]
  · intro s f h
    rw [Field.parse_eq_ok_iff] at h ⊢
    exact h.of_false true
  · intro s hmem
    exact Field.parse_eq_error_iff.2 ⟨rfl, fun f hf => hf.anyMark_notMem hmem⟩
  · intro e F hmark h
    obtain ⟨fields, hparse, hfields⟩ := bind_eq_ok_iff.1 h
    obtain ⟨hcount, hrendered⟩ := (parse_eq_ok_iff_rendered hmark).1 hparse
    have hstarred : Rendered fields (Text.starred e) := ⟨hcount, hrendered.starred⟩
    exact bind_eq_ok_iff.2 ⟨fields, hstarred.parse_eq_ok, hfields⟩
  · intro e piece u hmark hcount hplace hmonth hweek hmem
    have hu : u.admitsAnyMark = false := by
      rw [Bool.eq_false_iff, Ne, TimeUnit.admitsAnyMark_iff]
      exact not_or.2 ⟨hmonth, hweek⟩
    obtain ⟨v, t, hfault, hparse⟩ := exists_malformed hmark hcount hplace hu hmem
    have hfields : Fields.parse e = .error ⟨.malformedFieldOf v t, some e⟩ := by
      rw [Fields.parse, hparse]
      rfl
    refine ⟨v, t, hfault, hfields, ?_⟩
    rw [Schedule.parse, hfields]
    rfl

/-- Both marks in a list of days of the week and as the base of a period, and the mark `?` in the
place of a month. -/
theorem anyMark_spells_all_noon :
    (∃ F, Fields.parse "0 0 12 ? / 2 1-6 Mon , ?".toList = .ok F ∧
      Fields.parse "0 0 12 * / 2 1-6 Mon , *".toList = .ok F) ∧
    ∃ v t, (v, t) ∈ places "0 0 12 ? ? Mon".toList ∧
      Fields.parse "0 0 12 ? ? Mon".toList =
        .error ⟨.malformedFieldOf v t, some "0 0 12 ? ? Mon".toList⟩ := by
  obtain ⟨-, -, -, hstarred, hmalformed⟩ := anyMark_spells_all
  have hparse : (Fields.parse "0 0 12 ? / 2 1-6 Mon , ?".toList).toOption.isSome = true := by
    decide
  obtain ⟨F, hF⟩ : ∃ F, Fields.parse "0 0 12 ? / 2 1-6 Mon , ?".toList = .ok F := by
    cases h : Fields.parse "0 0 12 ? / 2 1-6 Mon , ?".toList with
    | error r =>
      rw [h] at hparse
      cases hparse
    | ok F => exact ⟨F, rfl⟩
  obtain ⟨v, t, hplace, hfields, -⟩ := hmalformed "0 0 12 ? ? Mon".toList ['?'] .months
    (by decide) (Or.inl (by decide)) (by decide) (by decide) (by decide) (by decide)
  exact ⟨⟨F, hF, hstarred _ F (by decide) hF⟩, v, t, hplace, hfields⟩

end Expression
end Timetable
