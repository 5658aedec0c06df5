import Timetable.Proofs.Denotation
import Timetable.Proofs.NextAfter
import Timetable.Proofs.Rejection
import Timetable.Trace

/-!
# What a trace explains

A trace is an account of a run that has no part in it.  What it says can be told from the fields of
the expression alone: the terms of the restricted fields with the values that they denote, one entry
for each, up to the term with the fault if there is one, and a rejection after that.  Of a search
that finds nothing it says where the search stopped, by counting the selected years.  At the level
`info` nothing is said, and all results are the same.

## Main definitions

* `Expression.toldTerms`: the terms that a trace tells of.
* `Trace.Tells`, `Trace.Accounts`: what an entry says of a term, and entries of several terms.
* `Traced.Explains`: a traced run has the outcome of the plain one and accounts for its terms.
* `Trace.OfParse`, `Trace.OfSearch`: the traces of reading an expression and of a search.

## Main statements

* `Traced.Explains.bind`, `Traced.Explains.mapM`: runs in sequence account for their terms in
  sequence.
* `Schedule.explains_parse`, `Fields.explains_nextAfter`: the traces of reading and of searching.
* `Schedule.trace_faithful`: traces say what has happened and do not change it.
-/

namespace Timetable

/-! ## Accounts of terms -/

/-- The terms of a field that a trace tells of: none if the only one stands for every value. -/
def Field.toldTerms (u : TimeUnit) (f : Field) : List (TimeUnit × Term) :=
  if f.terms = [.base .all] then [] else f.terms.map fun a => (u, a)

/-- The terms of fields that a trace tells of, in the order in which they are written, each with the
unit that it restricts. -/
def Expression.toldTerms (fields : List Field) : List (TimeUnit × Term) :=
  (TimeUnit.inOrder.zip fields).flatMap fun place => place.2.toldTerms place.1

/-- A problem with the text of an expression and not with what its terms stand for: an unknown
shorthand, a malformed field or a wrong number of fields. -/
def Problem.OfText (p : Problem) : Prop :=
  (∃ message, p.report = .malformed message) ∨ ∃ count, p.report = .fieldCount count

namespace Trace

/-- An entry says that a term has been resolved in its unit: it has a meaning there, and its values
are listed, ascending. -/
def Tells (place : TimeUnit × Term) (e : Entry) : Prop :=
  ∃ ordinals, e = .resolved place.1 place.2 ordinals ∧ place.2.Valid place.1 ∧
    ordinals.Pairwise (· < ·) ∧ ∀ n, n ∈ ordinals ↔ place.2.Denotes place.1 n

/-- Entries account for terms and for the outcome of resolving them: all are told of, or those
before the one with a fault. -/
inductive Accounts {α : Type} :
    List (TimeUnit × Term) → Except Problem α → List Entry → Prop where
  | resolved {told : List (TimeUnit × Term)} {entries : List Entry} (a : α)
      (htold : List.Forall₂ Tells told entries) : Accounts told (.ok a) entries
  | stopped {told rest : List (TimeUnit × Term)} {place : TimeUnit × Term}
      {entries : List Entry} {p : Problem} (htold : List.Forall₂ Tells told entries)
      (hfault : Expression.Unresolved place p) :
      Accounts (told ++ place :: rest) (.error p) entries

theorem Accounts.append {α : Type} {x : Except Problem α} {terms others : List (TimeUnit × Term)}
    {entries more : List Entry} (htold : List.Forall₂ Tells terms entries)
    (h : Accounts others x more) : Accounts (terms ++ others) x (entries ++ more) := by
  cases h with
  | resolved a hothers => exact .resolved a (List.rel_append htold hothers)
  | stopped hothers hfault =>
    rw [← List.append_assoc]
    exact .stopped (List.rel_append htold hothers) hfault

end Trace

/-! ## Traced runs -/

namespace Traced

open Trace

variable {α β : Type} {level : Level}

/-- A traced run has the outcome of a plain one, and its entries, as far as the level keeps them,
account for some terms. -/
structure Explains (level : Level) (terms : List (TimeUnit × Term)) (plain : Except Problem α)
    (run : Traced α) : Prop where
  outcome_eq : run.outcome = plain
  accounts : ∃ entries, run.entries = level.keep entries ∧ Accounts terms plain entries

namespace Explains

theorem pure (a : α) : Explains level [] (.ok a) (Pure.pure a) where
  outcome_eq := rfl
  accounts := ⟨[], level.keep_nil.symm, .resolved a .nil⟩

/-- A run of which there is nothing to tell. -/
theorem lift {x : Except Problem α} {a : α} (h : x = .ok a) : Explains level [] x (lift x) := by
  subst h
  exact pure a

/-- Runs in sequence account for their terms in sequence. -/
theorem bind {terms others : List (TimeUnit × Term)} {plain : Except Problem α}
    {run : Traced α} {onward : α → Except Problem β} {onwardTraced : α → Traced β}
    (h : Explains level terms plain run)
    (hall : ∀ a, plain = .ok a → Explains level others (onward a) (onwardTraced a)) :
    Explains level (terms ++ others) (plain >>= onward) (run >>= onwardTraced) := by
  obtain ⟨entries, hentries, haccounts⟩ := h.accounts
  have houtcome := h.outcome_eq
  cases haccounts with
  | resolved a htold =>
    obtain ⟨more, hmore, hothers⟩ := (hall a rfl).accounts
    constructor
    · rw [outcome_bind, houtcome]
      exact (hall a rfl).outcome_eq
    · refine ⟨entries ++ more, ?_, hothers.append htold⟩
      rw [entries_bind, houtcome, hentries, level.keep_append, ← hmore]
  | stopped htold hfault =>
    constructor
    · rw [outcome_bind, houtcome]
      rfl
    · refine ⟨entries, ?_, ?_⟩
      · rw [entries_bind, houtcome, hentries, List.append_nil]
      · rw [List.append_assoc, List.cons_append]
        exact .stopped htold hfault

theorem mapM {γ : Type} {xs : List γ} {terms : γ → List (TimeUnit × Term)}
    {f : γ → Except Problem α} {traced : γ → Traced α}
    (h : ∀ x ∈ xs, Explains level (terms x) (f x) (traced x)) :
    Explains level (xs.flatMap terms) (xs.mapM f) (xs.mapM traced) := by
  induction xs with
  | nil => exact pure []
  | cons x xs ih =>
    simp only [List.forall_mem_cons] at h
    simp only [List.mapM_cons, List.flatMap_cons]
    refine h.1.bind fun y _ => ?_
    rw [← List.append_nil (xs.flatMap terms)]
    exact (ih h.2).bind fun ys _ => pure (y :: ys)

/-- Fields account for the terms of one unit after the other. -/
theorem collect {terms : TimeUnit → List (TimeUnit × Term)}
    {selection : (u : TimeUnit) → Except Problem (Selection u)}
    {traced : (u : TimeUnit) → Traced (Selection u)}
    (h : ∀ u, Explains level (terms u) (selection u) (traced u)) :
    Explains level (TimeUnit.inOrder.flatMap terms) (Fields.collect selection)
      (Fields.collect traced) := by
  simp only [TimeUnit.inOrder, List.flatMap_cons, List.flatMap_nil]
  exact (h _).bind fun _ _ => (h _).bind fun _ _ => (h _).bind fun _ _ => (h _).bind fun _ _ =>
    (h _).bind fun _ _ => (h _).bind fun _ _ => (h _).bind fun _ _ => pure _

end Explains

/-! ## Resolving with a trace -/

theorem explains_ordinals {u : TimeUnit} {a : Term} (ha : a.StepsForward)
    (hwritable : a.Writable) :
    Explains level [(u, a)] (a.ordinals u) (a.ordinalsTraced level u) := by
  have htold : level = .info ∨ a.Writable := .inr hwritable
  simp only [Term.ordinalsTraced, if_pos htold]
  cases h : a.ordinals u with
  | error p =>
    have hfault : Expression.Unresolved (u, a) p := (Term.ordinals_eq_error_iff ha).1 h
    have haccounts : Accounts ([] ++ [(u, a)]) (.error p : Except Problem (List Int)) [] :=
      .stopped .nil hfault
    exact ⟨rfl, [], level.keep_nil.symm, haccounts⟩
  | ok xs =>
    obtain ⟨hvalid, -, hmem, -⟩ := Term.ordinals_spec ha h
    have htells : Tells (u, a) (.resolved u a (Ordinals.ascending xs)) :=
      ⟨_, rfl, hvalid, Ordinals.pairwise_ascending xs,
        fun n => Ordinals.mem_ascending.trans (hmem n)⟩
    refine ⟨rfl, [.resolved u a (Ordinals.ascending xs)], ?_, .resolved xs (.cons htells .nil)⟩
    simp only [entries_bind, outcome_lift, entries_lift, outcome_note, entries_note, entries_pure,
      List.nil_append, List.append_nil]

theorem explains_ofField {u : TimeUnit} {f : Field} (hf : f.WellFormed)
    (hwritable : f.Writable) :
    Explains level (f.toldTerms u) (Selection.ofField u f) (Selection.ofFieldTraced level u f) := by
  rw [Field.toldTerms, Selection.ofField, Selection.ofFieldTraced]
  by_cases hall : f.terms = [.base .all]
  · rw [if_pos hall, if_pos (Field.isAll_iff.2 hall), if_pos (Field.isAll_iff.2 hall)]
    exact .pure _
  · have hrestricted : ¬f.isAll = true := fun h => hall (Field.isAll_iff.1 h)
    rw [if_neg hall, if_neg hrestricted, if_neg hrestricted, List.map_eq_flatMap,
      ← List.append_nil (f.terms.flatMap _)]
    refine .bind (.mapM fun a ha => explains_ordinals (hf.stepsForward a ha) (hwritable a ha))
      fun lists hlists => ?_
    obtain ⟨s, hs⟩ := Selection.exists_ofLists_of_mapM hf hlists
    exact .lift hs

theorem explains_ofFieldList {fields : List Field} (hlength : fields.length = 6 ∨ fields.length = 7)
    (hfields : ∀ f ∈ fields, f.WellFormed) (hwritable : ∀ f ∈ fields, f.Writable) :
    Explains level (Expression.toldTerms fields) (Fields.ofFieldList fields)
      (Fields.ofFieldListTraced level fields) := by
  obtain ⟨fieldOf, rest, harrange, hrest, hplaces⟩ := Fields.exists_arrange hlength
  have hwellFormed := Fields.forall_arranged Field.wellFormed_all hfields hrest hplaces
  have hwritable := Fields.forall_arranged Field.writable_all hwritable hrest hplaces
  -- the field for years that may be missing has nothing to tell
  have hdefault : rest.flatMap (fun place => place.2.toldTerms place.1) = [] := by
    rcases hrest with rfl | rfl <;> rfl
  have hterms : Expression.toldTerms fields =
      TimeUnit.inOrder.flatMap fun u => (fieldOf u).toldTerms u := by
    have hmap : (TimeUnit.inOrder.map fun u => (u, fieldOf u)).flatMap
        (fun place => place.2.toldTerms place.1) =
          TimeUnit.inOrder.flatMap fun u => (fieldOf u).toldTerms u := by
      rw [List.flatMap_map]
    rw [Expression.toldTerms, ← hmap, hplaces, List.flatMap_append, hdefault, List.append_nil]
  rw [Fields.ofFieldList, Fields.ofFieldListTraced, harrange, hterms,
    ← List.nil_append (TimeUnit.inOrder.flatMap _)]
  refine .bind (.lift rfl) fun _ h => ?_
  cases h
  exact .collect fun u => explains_ofField (hwellFormed u) (hwritable u)

end Traced

/-! ## Reading an expression -/

namespace Expression

variable {e : Text} {p : Problem}

theorem ofText_of_readLonghand (h : readLonghand e = .error p) : p.OfText := by
  by_cases hcount : WellCounted e
  · rw [readLonghand_of_wellCounted hcount, mapM_eq_error_iff] at h
    obtain ⟨place, -, hplace⟩ := h.exists_mem
    rw [(readField_eq_error_iff.1 hplace).1]
    exact .inl ⟨_, rfl⟩
  · rw [readLonghand_of_not_wellCounted hcount] at h
    cases h
    exact .inr ⟨_, rfl⟩

/-- Reading looks at the text only. -/
theorem ofText_of_read (h : read e = .error p) : p.OfText := by
  rw [read, expand] at h
  split at h
  · cases hlookup : shorthands.lookup e with
    | none =>
      rw [hlookup] at h
      cases h
      exact .inl ⟨_, rfl⟩
    | some text =>
      rw [hlookup] at h
      exact ofText_of_readLonghand (e := text) h
  · exact ofText_of_readLonghand h

/-- What is read stands in a text with six or seven fields, which is the expression itself or what
its shorthand stands for. -/
theorem exists_spelledAt_of_read {fields : List Field} (h : read e = .ok fields) :
    ∃ text, WellCounted text ∧ List.Forall₂ SpelledAt (places text) fields := by
  rw [read] at h
  split at h
  · obtain ⟨text, -, htext⟩ := bind_eq_ok_iff.1 h
    exact ⟨text, spelledAt_of_readLonghand htext⟩
  · exact ⟨e, spelledAt_of_readLonghand h⟩

/-- A fault of a term is not one of the text. -/
theorem Unresolved.not_ofText {place : TimeUnit × Term} (h : Unresolved place p) : ¬p.OfText := by
  obtain ⟨n, -, rfl⟩ | ⟨_, rfl⟩ | ⟨_, _, rfl⟩ := Term.Fault.cases_problem h
  · simp only [Problem.OfText, Problem.report]
    split <;> simp
  · simp [Problem.OfText, Problem.report]
  · simp [Problem.OfText, Problem.report]

end Expression

namespace Trace

/-- The trace of reading an expression, by the result: all terms are told of; or those before the
first with a fault, and the rejection; or the rejection alone, where it is the text that has a
fault. -/
inductive OfParse (e : Text) : Except Rejection Schedule → List Entry → Prop where
  | malformed {p : Problem} (hread : Expression.read e = .error p) (htext : p.OfText) :
      OfParse e (.error ⟨p, some e⟩) [.rejected e p]
  | unresolved {fields : List Field} {told rest : List (TimeUnit × Term)}
      {place : TimeUnit × Term} {entries : List Entry} {p : Problem}
      (hread : Expression.read e = .ok fields)
      (hterms : Expression.toldTerms fields = told ++ place :: rest)
      (htold : List.Forall₂ Tells told entries) (hfault : Expression.Unresolved place p) :
      OfParse e (.error ⟨p, some e⟩) (entries ++ [.rejected e p])
  | resolved {fields : List Field} {entries : List Entry} (s : Schedule)
      (hread : Expression.read e = .ok fields)
      (htold : List.Forall₂ Tells (Expression.toldTerms fields) entries) :
      OfParse e (.ok s) entries

/-- The trace of a search, by the answer: nothing if there is one or no later second, and otherwise
the selected year that comes after those that were tried, or that no selected year was left. -/
inductive OfSearch (F : Fields) (i : Instant) (limit : Int) :
    Option Instant → List Entry → Prop where
  | found (r : Instant) : OfSearch F i limit (some r) []
  | noLaterSecond (h : i.nextWholeSecond? = none) : OfSearch F i limit none []
  | gaveUp {j : Instant} {year : Int} (h : i.nextWholeSecond? = some j)
      (hyear : (F.years.toList.filter (j.clock.date.year ≤ ·))[(max 0 (limit + 1)).toNat]? =
        some year) : OfSearch F i limit none [.gaveUp limit year]
  | exhausted {j : Instant} (h : i.nextWholeSecond? = some j)
      (hyears : (F.years.toList.filter (j.clock.date.year ≤ ·)).length ≤
        (max 0 (limit + 1)).toNat) : OfSearch F i limit none [.exhausted j.clock.date.year]

/-- A traced search says what has happened: it has an answer, and its trace is that of a search with
this answer. -/
def TellsSearch {ε : Type} (F : Fields) (i : Instant) (limit : Int)
    (run : Except ε (Option Instant) × List Entry) : Prop :=
  ∃ answer, run.1 = .ok answer ∧ OfSearch F i limit answer run.2

theorem OfParse.eq_rejected {e : Text} {r : Rejection} {entries : List Entry}
    (h : OfParse e (.error r) entries) (htext : r.problem.OfText) :
    entries = [.rejected e r.problem] := by
  cases h with
  | malformed _ _ => rfl
  | unresolved _ _ _ hfault => exact absurd htext hfault.not_ofText

end Trace

namespace Schedule

open Trace

/-- Reading with a trace has the result of reading without one. -/
theorem explains_parse (level : Level) (e : Text) :
    (parseTraced level e).1 = parse e ∧
      ∃ entries, (parseTraced level e).2 = level.keep entries ∧ OfParse e (parse e) entries := by
  rw [parse_eq, parseTraced]
  cases hread : Expression.read e with
  | error p =>
    exact ⟨rfl, [.rejected e p], List.nil_append _,
      .malformed hread (Expression.ofText_of_read hread)⟩
  | ok fields =>
    obtain ⟨text, hcount, hspelled⟩ := Expression.exists_spelledAt_of_read hread
    have hlift : (Traced.lift (.ok fields) >>= Fields.ofFieldListTraced level) =
        Fields.ofFieldListTraced level fields := pure_bind fields _
    have hrun : Traced.Explains level (Expression.toldTerms fields) (Fields.ofFieldList fields)
        (Fields.ofFieldListTraced level fields) := Traced.explains_ofFieldList
      (Expression.length_of_spelledAt hcount hspelled)
      (Expression.wellFormed_of_spelledAt hspelled) (Expression.writable_of_spelledAt hspelled)
    obtain ⟨houtcome, entries, hentries, haccounts⟩ := hrun
    have hplain : (Except.ok fields >>= Fields.ofFieldList) = Fields.ofFieldList fields := rfl
    simp only [hlift, hplain, houtcome, hentries]
    generalize hterms : Expression.toldTerms fields = terms at haccounts
    cases hresult : Fields.ofFieldList fields with
    | ok F =>
      rw [hresult] at haccounts
      cases haccounts with
      | resolved _ htold => exact ⟨rfl, entries, rfl, .resolved _ hread (hterms ▸ htold)⟩
    | error p =>
      rw [hresult] at haccounts
      cases haccounts with
      | stopped htold hfault =>
        exact ⟨rfl, entries ++ [.rejected e p], (level.keep_append _ _).symm,
          .unresolved hread hterms htold hfault⟩

end Schedule

/-- A search that has no answer has nothing to say. -/
theorem Search.entries_of_answer_eq_error {outcome : Search.Outcome} {limit : Int} {e : SearchError}
    (h : outcome.answer = .error e) : outcome.entries limit = [] := by
  cases outcome with
  | untold _ => rfl
  | _ => cases h

namespace Fields

open Trace

variable {F : Fields} {i j : Instant} {limit : Int}

/-- A search that finds nothing says which selected year follows those that were tried, if there is
one, unless nothing can be told of it. -/
theorem ofSearch_failure (F : Fields) (limit : Int) (h : i.nextWholeSecond? = some j)
    (hanswer : (Search.failure F limit j.clock.date.year).answer = .ok none) :
    OfSearch F i limit none ((Search.failure F limit j.clock.date.year).entries limit) := by
  have hcount : (limit + 1).toNat = (max 0 (limit + 1)).toNat := by omega
  rw [Search.failure, F.range_years, hcount] at hanswer ⊢
  cases hdrop : (F.years.toList.filter (j.clock.date.year ≤ ·)).drop (max 0 (limit + 1)).toNat with
  | nil => exact .exhausted h (List.drop_eq_nil_iff.1 hdrop)
  | cons year years =>
    have hyear : (F.years.toList.filter (j.clock.date.year ≤ ·))[(max 0 (limit + 1)).toNat]? =
        some year := by
      rw [← List.head?_drop, hdrop]
      rfl
    by_cases hwritable : Text.Writable limit
    · simp only [if_pos hwritable]
      exact .gaveUp h hyear
    · simp only [hdrop, if_neg hwritable] at hanswer
      cases hanswer

/-- A search with a trace has the answer of the one without, and the trace says nothing if there is
none but an error. -/
theorem explains_nextAfter (level : Level) (F : Fields) (i : Instant) (limit : Int) :
    ∃ entries, F.nextAfterTraced level i limit = (F.nextAfter i limit, level.keep entries) ∧
      match F.nextAfter i limit with
      | .ok answer => OfSearch F i limit answer entries
      | .error _ => entries = [] := by
  cases hnext : i.nextWholeSecond? with
  | none =>
    rw [nextAfter_of_no_later_second F limit hnext, nextAfterTraced,
      search_of_no_later_second F limit hnext]
    exact ⟨[], rfl, .noLaterSecond hnext⟩
  | some j =>
    rcases search_cases F limit hnext with ⟨w, -, hsearch⟩ | ⟨-, hsearch⟩
    · rw [nextAfter_of_search hsearch, nextAfterTraced, hsearch]
      exact ⟨[], rfl, .found _⟩
    · rw [nextAfter_of_search hsearch, nextAfterTraced, hsearch]
      refine ⟨_, rfl, ?_⟩
      rcases F.answer_failure limit j.clock.date.year with ⟨-, hanswer⟩ | ⟨-, hanswer⟩
      · rw [hanswer]
        exact Search.entries_of_answer_eq_error hanswer
      · rw [hanswer]
        exact F.ofSearch_failure limit hnext hanswer

end Fields

namespace Schedule

open Trace

variable {s : Schedule} {env : Environment} {i : Instant} {own : Option Int} {limit : Int}

/-- A search with a trace is that of the fields once there is a limit. -/
theorem nextAfterTraced_of_limitFor (level : Level) (h : env.limitFor own = .ok limit) :
    ∃ entries, s.nextAfterTraced level env i own =
        ((s.fields.nextAfter i limit).mapError .search, level.keep entries) ∧
      match s.fields.nextAfter i limit with
      | .ok answer => OfSearch s.fields i limit answer entries
      | .error _ => entries = [] := by
  obtain ⟨entries, htraced, hentries⟩ := s.fields.explains_nextAfter level i limit
  refine ⟨entries, ?_, hentries⟩
  simp only [nextAfterTraced, h, htraced]

theorem nextAfterTraced_of_limitFor_eq_error (level : Level) {e : SettingError}
    (h : env.limitFor own = .error e) :
    s.nextAfterTraced level env i own = (.error (.setting e), []) := by
  simp only [nextAfterTraced, h]

/-- A search with a trace has the result of the one without. -/
theorem fst_nextAfterTraced (level : Level) (s : Schedule) (env : Environment) (i : Instant)
    (own : Option Int) : (s.nextAfterTraced level env i own).1 = s.nextAfter env i own := by
  cases h : env.limitFor own with
  | error e => rw [nextAfterTraced_of_limitFor_eq_error level h, nextAfter_of_limitFor_eq_error h]
  | ok limit =>
    obtain ⟨entries, htraced, -⟩ := nextAfterTraced_of_limitFor (s := s) (i := i) level h
    rw [htraced, nextAfter_of_limitFor h]

theorem snd_nextAfterTraced_info (s : Schedule) (env : Environment) (i : Instant)
    (own : Option Int) : (s.nextAfterTraced .info env i own).2 = [] := by
  cases h : env.limitFor own with
  | error e => rw [nextAfterTraced_of_limitFor_eq_error .info h]
  | ok limit =>
    obtain ⟨entries, htraced, -⟩ := nextAfterTraced_of_limitFor (s := s) (i := i) .info h
    rw [htraced, Level.keep_info]

/-- The trace of a search says what has happened, except where nothing can be told of it. -/
theorem tellsSearch_iff (h : env.limitFor own = .ok limit) :
    TellsSearch s.fields i limit (s.nextAfterTraced .debug env i own) ↔
      ¬s.fields.UntoldAfter i limit := by
  obtain ⟨entries, htraced, hentries⟩ := nextAfterTraced_of_limitFor (s := s) (i := i) .debug h
  rw [← Fields.exists_nextAfter_eq_ok_iff, htraced]
  constructor
  · rintro ⟨answer, hresult, -⟩
    exact ⟨answer, mapError_eq_ok_iff.1 hresult⟩
  · rintro ⟨answer, hanswer⟩
    rw [hanswer] at hentries ⊢
    exact ⟨answer, rfl, hentries⟩

/-- Where nothing can be told of a search, it fails, and its trace says nothing. -/
theorem nextAfterTraced_of_untoldAfter (level : Level) (h : env.limitFor own = .ok limit)
    (huntold : s.fields.UntoldAfter i limit) :
    s.nextAfterTraced level env i own = (.error (.search .overlong), []) := by
  obtain ⟨entries, htraced, hentries⟩ := nextAfterTraced_of_limitFor (s := s) (i := i) level h
  rw [Fields.nextAfter_eq_error_iff_untoldAfter.2 ⟨rfl, huntold⟩] at htraced hentries
  obtain rfl : entries = [] := hentries
  rw [htraced, Level.keep_nil]
  rfl

/-- An unrestricted field is passed over, and fields after the fault are not told of. -/
example : (parseTraced .debug "0 0 */9 ? dec-jan 2".toList).2 =
    [.resolved .seconds (.base (.point 0)) [0], .resolved .minutes (.base (.point 0)) [0],
     .resolved .hours (.period .all 9) [0, 9, 18],
     .rejected "0 0 */9 ? dec-jan 2".toList (.rangeOrder .months 12 1)] := by
  rfl

end Schedule
end Timetable
