import Timetable.Proofs.Integers
import Timetable.Proofs.Resolution
import Timetable.Schedule

/-!
# Why an expression is rejected

What is wrong with an expression is said without a way to find it: an unknown shorthand, a number
of fields, the first text that spells no field at its place, or, once all of them are fields, the
first fault of their terms.  Later checks only matter where the earlier ones leave nothing to say,
so an expression has at most one fault.  Parsing ends with that fault, about the whole expression,
and succeeds when there is none.

## Main definitions

* `Expression.LonghandFault`, `Expression.Fault`: what is wrong with an expression.

## Main statements

* `Fields.ofFieldList_eq_error_iff`: the problem of a list of fields is the first fault of its
  terms.
* `Schedule.parse_classified`: the rejections of an expression are its faults.
-/

namespace Timetable

namespace Expression

/-- The texts of the fields of an expression, each with the unit that it restricts. -/
def places (e : Text) : List (TimeUnit × Text) :=
  TimeUnit.inOrder.zip (Text.splitFields e)

/-- The terms of fields in the order in which they are written, each with the unit that it
restricts. -/
def placedTerms (fields : List Field) : List (TimeUnit × Term) :=
  (TimeUnit.inOrder.zip fields).flatMap fun place => place.2.terms.map fun a => (place.1, a)

/-- A text spells a field at its place. -/
def SpelledAt (place : TimeUnit × Text) (f : Field) : Prop :=
  f.Spelled place.1.admitsAnyMark place.2

/-- A text spells no field at its place. -/
def Malformed (place : TimeUnit × Text) (p : Problem) : Prop :=
  p = .malformedFieldOf place.1 place.2 ∧ ∀ f, ¬SpelledAt place f

/-- A term has a fault in the unit of its place. -/
def Unresolved (place : TimeUnit × Term) (p : Problem) : Prop :=
  place.2.Fault place.1 p

/-- An expression has six or seven fields. -/
def WellCounted (e : Text) : Prop :=
  (Text.splitFields e).length = 6 ∨ (Text.splitFields e).length = 7

/-- What is wrong with an expression that is not a shorthand. -/
inductive LonghandFault (e : Text) : Problem → Prop where
  /-- It has neither six nor seven fields. -/
  | fieldCount (h : ¬WellCounted e) : LonghandFault e (.fieldCount (Text.splitFields e).length)
  /-- One of its fields is malformed. -/
  | field {p : Problem} (hcount : WellCounted e) (h : FirstFault Malformed (places e) p) :
      LonghandFault e p
  /-- It is well-formed, and one of its terms has no ordinals. -/
  | term {fields : List Field} {p : Problem} (hcount : WellCounted e)
      (hfields : List.Forall₂ SpelledAt (places e) fields)
      (h : FirstFault Unresolved (placedTerms fields) p) : LonghandFault e p

/-- What is wrong with an expression. -/
inductive Fault (e : Text) : Problem → Prop where
  /-- It has the mark of a shorthand but is none. -/
  | shorthand (hmark : e.head? = some shorthandMark) (h : e ∉ shorthands.map Prod.fst) :
      Fault e .unknownShorthand
  /-- It is no shorthand and has a fault as it stands. -/
  | longhand {p : Problem} (hmark : e.head? ≠ some shorthandMark) (h : LonghandFault e p) :
      Fault e p

end Expression

/-! ## Lists of fields -/

namespace Fields

theorem collect_eq_error_iff {selection : (u : TimeUnit) → Except Problem (Selection u)}
    {p : Problem} : collect selection = .error p ↔
      FirstFault (fun u q => selection u = .error q) TimeUnit.inOrder p := by
  simp only [collect, bind_eq_error_iff, pure, Except.pure, reduceCtorEq, and_false, exists_false,
    or_false, exists_and_right, exists_ok_iff, TimeUnit.inOrder, firstFault_cons_iff,
    not_firstFault_nil, ne_eq]

theorem collect_eq_ok_iff {selection : (u : TimeUnit) → Except Problem (Selection u)}
    {F : Fields} : collect selection = .ok F ↔ ∀ u, selection u = .ok (F.get u) := by
  simp only [collect, bind_eq_ok_iff]
  constructor
  · rintro ⟨s, hs, mi, hmi, h, hh, d, hd, mo, hmo, w, hw, y, hy, hF⟩ u
    cases hF
    cases u <;> assumption
  · intro h
    exact ⟨_, h .seconds, _, h .minutes, _, h .hours, _, h .daysOfMonth, _, h .months, _,
      h .daysOfWeek, _, h .years, rfl⟩

/-- Seven fields are those of the units in order; of six, the years are unrestricted. -/
theorem exists_arrange {fields : List Field} (h : fields.length = 6 ∨ fields.length = 7) :
    ∃ fieldOf rest, arrange fields = .ok fieldOf ∧ (rest = [] ∨ rest = [(.years, ⟨[.base .all]⟩)]) ∧
      TimeUnit.inOrder.map (fun u => (u, fieldOf u)) = TimeUnit.inOrder.zip fields ++ rest := by
  match fields, h with
  | [_, _, _, _, _, _], _ => exact ⟨_, _, rfl, .inr rfl, rfl⟩
  | [_, _, _, _, _, _, _], _ => exact ⟨_, _, rfl, .inl rfl, rfl⟩
  | [], h | [_], h | [_, _], h | [_, _, _], h | [_, _, _, _], h | [_, _, _, _, _], h => simp at h
  | _ :: _ :: _ :: _ :: _ :: _ :: _ :: _ :: _, h =>
    simp only [List.length_cons] at h
    omega

/-- What holds of all fields that are written, and of an unrestricted one, holds of the field of
each unit. -/
theorem forall_arranged {P : Field → Prop} {fields : List Field} {fieldOf : TimeUnit → Field}
    {rest : List (TimeUnit × Field)} (hall : P ⟨[.base .all]⟩) (hfields : ∀ f ∈ fields, P f)
    (hrest : rest = [] ∨ rest = [(.years, ⟨[.base .all]⟩)])
    (hplaces : TimeUnit.inOrder.map (fun u => (u, fieldOf u)) =
      TimeUnit.inOrder.zip fields ++ rest) (u : TimeUnit) : P (fieldOf u) := by
  have hmem : (u, fieldOf u) ∈ TimeUnit.inOrder.zip fields ++ rest := by
    rw [← hplaces]
    exact List.mem_map_of_mem (TimeUnit.mem_inOrder u)
  rcases List.mem_append.1 hmem with hmem | hmem
  · exact hfields _ (List.of_mem_zip hmem).2
  · rcases hrest with rfl | rfl
    · cases hmem
    · obtain ⟨-, hfield⟩ := Prod.mk.inj (List.mem_singleton.1 hmem)
      exact hfield ▸ hall

/-- The problem of a list of fields is the first fault of its terms. -/
theorem ofFieldList_eq_error_iff {fields : List Field} {p : Problem}
    (hlength : fields.length = 6 ∨ fields.length = 7) (hfields : ∀ f ∈ fields, f.WellFormed) :
    ofFieldList fields = .error p ↔
      FirstFault Expression.Unresolved (Expression.placedTerms fields) p := by
  obtain ⟨fieldOf, rest, harrange, hrest, hplaces⟩ := exists_arrange hlength
  have hwellFormed := forall_arranged Field.wellFormed_all hfields hrest hplaces
  have hselection : ofFieldList fields = .error p ↔
      FirstFault (fun u => (fieldOf u).Fault u) TimeUnit.inOrder p := by
    have hcollect : ofFieldList fields = collect fun u => Selection.ofField u (fieldOf u) := by
      rw [ofFieldList, harrange]
      rfl
    rw [hcollect, collect_eq_error_iff]
    apply firstFault_congr
    intro u _ q
    exact Selection.ofField_eq_error_iff (hwellFormed u)
  have hunits : FirstFault (fun u => (fieldOf u).Fault u) TimeUnit.inOrder p ↔
      FirstFault (fun place => Field.Fault place.1 place.2)
        (TimeUnit.inOrder.zip fields ++ rest) p := by
    rw [← hplaces, firstFault_map_iff]
  have hdefault : ¬FirstFault (fun place => Field.Fault place.1 place.2) rest p := by
    intro h
    obtain ⟨place, hplace, hfault⟩ := h.exists_mem
    rcases hrest with rfl | rfl
    · cases hplace
    · obtain rfl := List.mem_singleton.1 hplace
      exact Field.not_fault_all hfault
  rw [hselection, hunits, firstFault_append_iff, or_iff_left fun h => hdefault h.2,
    Expression.placedTerms, firstFault_flatMap_iff]
  apply firstFault_congr
  intro place _ q
  rw [firstFault_map_iff]
  rfl

/-- The fields of an expression are found by reading it and resolving what is read. -/
theorem mapError_problem_parse (e : Text) :
    (parse e).mapError Rejection.problem = Expression.read e >>= ofFieldList := by
  rw [parse, Expression.parse]
  cases Expression.read e with
  | error p => rfl
  | ok fields => cases h : ofFieldList fields <;> simp [bind, Except.bind, Except.mapError, h]

theorem parse_eq_ok_iff {e : Text} {F : Fields} :
    parse e = .ok F ↔ (Expression.read e >>= ofFieldList) = .ok F := by
  rw [← mapError_problem_parse, mapError_eq_ok_iff]

end Fields

/-! ## Expressions -/

theorem Base.Spelled.writable {anyMark : Bool} {b : Base} {s : Text} (h : b.Spelled anyMark s) :
    ∀ n ∈ b.numbers, Text.Writable n := by
  cases h with
  | all | any _ | namedRange _ _ => exact List.forall_mem_nil _
  | point hs => exact List.forall_mem_singleton.2 (Text.Integer.writable_of_numeral hs)
  | range hs ht =>
    exact List.forall_mem_cons.2 ⟨Text.Integer.writable_of_numeral hs,
      List.forall_mem_singleton.2 (Text.Integer.writable_of_numeral ht)⟩

namespace Term

/-- The numbers of a term that is read from a text can be written again. -/
theorem Spelled.writable {anyMark : Bool} {a : Term} {s : Text} (h : a.Spelled anyMark s) :
    a.Writable := by
  cases h with
  | base hb => exact hb.writable
  | name _ => exact List.forall_mem_nil _
  | period hb ht _ =>
    exact List.forall_mem_append.2 ⟨hb.writable,
      List.forall_mem_singleton.2 (Text.Integer.writable_of_numeral ht)⟩

theorem Spelled.stepsForward {anyMark : Bool} {a : Term} {s : Text} (h : a.Spelled anyMark s) :
    a.StepsForward := by
  cases h with
  | base _ => trivial
  | name _ => trivial
  | period _ _ hk => exact Int.natCast_pos.2 hk

end Term

namespace Field

theorem Spelled.wellFormed {anyMark : Bool} {f : Field} {s : Text} (h : f.Spelled anyMark s) :
    f.WellFormed := by
  obtain ⟨pieces, hne, hterms, -⟩ := h
  constructor
  · intro hnil
    rw [hnil] at hterms
    exact hne (List.forall₂_nil_left_iff.1 hterms)
  · intro a ha
    obtain ⟨piece, -, hpiece⟩ := exists_mem_of_forall₂ hterms.flip ha
    exact Term.Spelled.stepsForward hpiece

theorem Spelled.writable {anyMark : Bool} {f : Field} {s : Text} (h : f.Spelled anyMark s) :
    f.Writable := by
  obtain ⟨pieces, -, hterms, -⟩ := h
  intro a ha
  obtain ⟨piece, -, hpiece⟩ := exists_mem_of_forall₂ hterms.flip ha
  exact Term.Spelled.writable hpiece

end Field

namespace Expression

variable {e : Text} {p : Problem}

theorem readField_eq_ok_iff {place : TimeUnit × Text} {f : Field} :
    readField place.1 place.2 = .ok f ↔ SpelledAt place f := by
  rw [SpelledAt, ← Field.read?_eq_some_iff, readField]
  cases Field.read? place.1.admitsAnyMark place.2 <;> simp

theorem readField_eq_error_iff {place : TimeUnit × Text} :
    readField place.1 place.2 = .error p ↔ Malformed place p := by
  simp only [Malformed, SpelledAt, ← Field.read?_eq_some_iff, readField]
  cases Field.read? place.1.admitsAnyMark place.2 <;> simp [eq_comm]

/-- There is a unit for each of the fields. -/
theorem WellCounted.length_le (h : WellCounted e) :
    (Text.splitFields e).length ≤ TimeUnit.inOrder.length := by
  rcases h with h | h <;> rw [h] <;> decide

theorem length_places (h : WellCounted e) : (places e).length = (Text.splitFields e).length := by
  rw [places, List.length_zip, Nat.min_eq_right h.length_le]

theorem readLonghand_of_wellCounted (h : WellCounted e) :
    readLonghand e = (places e).mapM fun place => readField place.1 place.2 := by
  rw [WellCounted] at h
  rw [readLonghand, if_pos h]
  rfl

theorem readLonghand_of_not_wellCounted (h : ¬WellCounted e) :
    readLonghand e = .error (.fieldCount (Text.splitFields e).length) := by
  rw [WellCounted] at h
  rw [readLonghand, if_neg h]

theorem length_of_spelledAt {fields : List Field} (hcount : WellCounted e)
    (hfields : List.Forall₂ SpelledAt (places e) fields) :
    fields.length = 6 ∨ fields.length = 7 := by
  rwa [← hfields.length_eq, length_places hcount]

theorem wellFormed_of_spelledAt {fields : List Field}
    (hfields : List.Forall₂ SpelledAt (places e) fields) : ∀ f ∈ fields, f.WellFormed := by
  intro f hf
  obtain ⟨place, -, hspelled⟩ := exists_mem_of_forall₂ hfields hf
  exact Field.Spelled.wellFormed hspelled

theorem writable_of_spelledAt {fields : List Field}
    (hfields : List.Forall₂ SpelledAt (places e) fields) : ∀ f ∈ fields, f.Writable := by
  intro f hf
  obtain ⟨place, -, hspelled⟩ := exists_mem_of_forall₂ hfields hf
  exact Field.Spelled.writable hspelled

/-- The terms of fields are among those of the fields, each in its unit. -/
theorem exists_mem_of_mem_placedTerms {fields : List Field} {place : TimeUnit × Term}
    (h : place ∈ placedTerms fields) : ∃ f ∈ fields, place.2 ∈ f.terms := by
  obtain ⟨⟨u, f⟩, hf, h⟩ := List.mem_flatMap.1 h
  obtain ⟨a, ha, rfl⟩ := List.mem_map.1 h
  exact ⟨f, (List.of_mem_zip hf).2, ha⟩

theorem spelledAt_of_readLonghand {fields : List Field} (h : readLonghand e = .ok fields) :
    WellCounted e ∧ List.Forall₂ SpelledAt (places e) fields := by
  by_cases hcount : WellCounted e
  · rw [readLonghand_of_wellCounted hcount, mapM_eq_ok_iff] at h
    simp only [readField_eq_ok_iff] at h
    exact ⟨hcount, h⟩
  · rw [readLonghand_of_not_wellCounted hcount] at h
    cases h

/-- The problem of the fields of an expression is the first fault of their terms. -/
theorem ofFieldList_eq_error_iff_of_spelledAt {fields : List Field} (hcount : WellCounted e)
    (hfields : List.Forall₂ SpelledAt (places e) fields) :
    Fields.ofFieldList fields = .error p ↔ FirstFault Unresolved (placedTerms fields) p :=
  Fields.ofFieldList_eq_error_iff (length_of_spelledAt hcount hfields)
    (wellFormed_of_spelledAt hfields)

/-- The problem of an expression that is not a shorthand is its fault. -/
theorem readLonghand_bind_eq_error_iff :
    (readLonghand e >>= Fields.ofFieldList) = .error p ↔ LonghandFault e p := by
  by_cases hcount : WellCounted e
  · rw [readLonghand_of_wellCounted hcount, bind_eq_error_iff, mapM_eq_error_iff]
    simp only [mapM_eq_ok_iff, readField_eq_ok_iff, readField_eq_error_iff]
    constructor
    · rintro (h | ⟨fields, hfields, h⟩)
      · exact .field hcount h
      · exact .term hcount hfields ((ofFieldList_eq_error_iff_of_spelledAt hcount hfields).1 h)
    · intro h
      cases h with
      | fieldCount h => exact absurd hcount h
      | field _ h => exact .inl h
      | term _ hfields h =>
        exact .inr ⟨_, hfields, (ofFieldList_eq_error_iff_of_spelledAt hcount hfields).2 h⟩
  · rw [readLonghand_of_not_wellCounted hcount]
    constructor
    · intro h
      cases h
      exact .fieldCount hcount
    · intro h
      cases h with
      | fieldCount _ => rfl
      | field h _ => exact absurd h hcount
      | term h _ _ => exact absurd h hcount

/-- A malformed field comes before an ordinal outside the domain in an earlier one. -/
example : readLonghand "61 0 0 1 Jan* *".toList =
    .error (.malformedFieldOf .months "Jan*".toList) := by
  rfl

/-- Every shorthand stands for an expression without a fault. -/
theorem shorthands_resolve : ∀ entry ∈ shorthands,
    (readLonghand entry.2 >>= Fields.ofFieldList).toOption.isSome = true := by
  decide

/-- The problem of an expression or a shorthand is its fault. -/
theorem read_bind_eq_error_iff :
    (read e >>= Fields.ofFieldList) = .error p ↔ Fault e p := by
  by_cases hmark : e.head? = some shorthandMark
  · have hread : read e = expand e >>= readLonghand := by
      rw [read, if_pos hmark]
    rw [hread, expand]
    cases hlookup : shorthands.lookup e with
    | none =>
      have hunknown : e ∉ shorthands.map Prod.fst := by
        rw [List.lookup_eq_none_iff] at hlookup
        intro hmem
        obtain ⟨entry, hentry, rfl⟩ := List.mem_map.1 hmem
        simpa using hlookup entry hentry
      constructor
      · intro h
        cases h
        exact .shorthand hmark hunknown
      · intro h
        cases h with
        | shorthand _ _ => rfl
        | longhand h _ => exact absurd hmark h
    | some expression =>
      have hmem : (e, expression) ∈ shorthands := mem_of_lookup_eq_some hlookup
      have hsome := shorthands_resolve (e, expression) hmem
      constructor
      · intro h
        have h : (readLonghand expression >>= Fields.ofFieldList) = .error p := h
        rw [h] at hsome
        cases hsome
      · intro h
        cases h with
        | shorthand _ hunknown => exact absurd (List.mem_map_of_mem hmem) hunknown
        | longhand h _ => exact absurd hmark h
  · rw [read, if_neg hmark, readLonghand_bind_eq_error_iff]
    constructor
    · exact .longhand hmark
    · intro h
      cases h with
      | shorthand h _ => exact absurd h hmark
      | longhand _ h => exact h

/-- Every fault of an expression has a message: the numbers of its text can be written. -/
theorem Fault.classified (h : Fault e p) : p.Classified := by
  cases h with
  | shorthand _ _ => simp [Problem.Classified, Problem.report]
  | longhand _ h =>
    cases h with
    | fieldCount _ => simp [Problem.Classified, Problem.report]
    | field _ h =>
      obtain ⟨place, -, rfl, -⟩ := h.exists_mem
      simp [Problem.Classified, Problem.report]
    | term _ hfields h =>
      obtain ⟨place, hplace, h⟩ := h.exists_mem
      obtain ⟨f, hf, ha⟩ := exists_mem_of_mem_placedTerms hplace
      exact Term.Fault.classified (writable_of_spelledAt hfields f hf place.2 ha) h

end Expression

/-! ## Schedules -/

namespace Schedule

variable {e : Text}

/-- An expression is read and what is read is resolved; any problem is one with the expression. -/
theorem parse_eq (e : Text) : parse e =
    match Expression.read e >>= Fields.ofFieldList with
    | .ok fields => .ok ⟨e, fields⟩
    | .error p => .error ⟨p, some e⟩ := by
  rw [parse, Fields.parse, Expression.parse]
  cases Expression.read e with
  | error q => rfl
  | ok fields =>
    simp only [Except.mapError, bind, Except.bind]
    cases Fields.ofFieldList fields <;> rfl

/-- A rejection is a problem with the expression, and it names the expression. -/
theorem parse_eq_error_iff {r : Rejection} :
    parse e = .error r ↔ ∃ p, Expression.Fault e p ∧ r = ⟨p, some e⟩ := by
  simp only [← Expression.read_bind_eq_error_iff, parse_eq]
  cases Expression.read e >>= Fields.ofFieldList <;> simp [eq_comm]

theorem exists_parse_eq_ok_iff :
    (∃ s : Schedule, parse e = .ok s) ↔ ∀ p, ¬Expression.Fault e p := by
  rw [exists_ok_iff]
  constructor
  · intro h p hp
    exact h ⟨p, some e⟩ (parse_eq_error_iff.2 ⟨p, hp, rfl⟩)
  · intro h r hr
    obtain ⟨p, hp, -⟩ := parse_eq_error_iff.1 hr
    exact h p hp

/-- An expression is rejected exactly for its fault, of which there is one at most, and is a
schedule exactly when it has none.  Steps of zero and empty selections are never the reason: a text
with such a step is malformed, and a term without a fault always selects something.  Nor does a
rejection ever lack its message for a number that is too long. -/
theorem parse_classified (e : Text) :
    (∀ r, parse e = .error r ↔ ∃ p, Expression.Fault e p ∧ r = ⟨p, some e⟩) ∧
      (∀ p q, Expression.Fault e p → Expression.Fault e q → p = q) ∧
      ((∃ s : Schedule, parse e = .ok s) ↔ ∀ p, ¬Expression.Fault e p) ∧
      ∀ p, Expression.Fault e p → p.Classified := by
  refine ⟨fun r => parse_eq_error_iff, ?_, exists_parse_eq_ok_iff, ?_⟩
  · intro p q hp hq
    have hparse := parse_eq_error_iff.2 ⟨p, hp, rfl⟩
    rw [parse_eq_error_iff.2 ⟨q, hq, rfl⟩] at hparse
    cases hparse
    rfl
  · intro p hp
    exact hp.classified

end Schedule
end Timetable
