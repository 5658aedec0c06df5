import Timetable.Selection
import Timetable.Proofs.Traversal

/-!
# The faults of terms

A term has a fault in a unit when it does not stand for ordinals of the unit.  The first fault in a
field, in the order of its terms, is the problem that its resolution ends with, and a field without
one selects something.  The steps of the periods in question are positive, as they are in every
field that is read from a text.

What a field selects, once it is resolved, is what one of its terms selects, with steps of any sign.

## Main definitions

* `TimeUnit.SpanFault`, `Base.Fault`, `Term.Fault`, `Field.Fault`: what can be wrong.
* `Field.WellFormed`: the fields that texts stand for.
* `Term.Selects`: what a term selects.

## Main statements

* `Term.ordinals_eq_error_iff`, `Selection.ofField_eq_error_iff`: the problems of a term and of a
  field are their faults.
* `Selection.exists_ofField_iff`, `Selection.includes_iff_selects`: a field by what its terms
  select.
-/

namespace Timetable

/-! ## What can be wrong -/

/-- A problem whose report has a kind of its own: neither an empty selection nor a step of zero, and
no number is in the way of its message. -/
def Problem.Classified (p : Problem) : Prop :=
  (∀ message, p.report ≠ .general message) ∧ (∀ message, p.report ≠ .noStep message) ∧
    p.report ≠ .overlong

/-- What is wrong with a range of a unit: its start is looked at before its end, its order last. -/
inductive TimeUnit.SpanFault (u : TimeUnit) (first last : Int) : Problem → Prop where
  | first (h : ¬u.Holds first) : SpanFault u first last (.outOfRange u first)
  | last (hfirst : u.Holds first) (h : ¬u.Holds last) : SpanFault u first last (.outOfRange u last)
  | order (hfirst : u.Holds first) (hlast : u.Holds last) (h : last < first) :
      SpanFault u first last (.rangeOrder u first last)

/-- What is wrong with a base: an ordinal outside the domain, an unknown name, or a range. -/
inductive Base.Fault (u : TimeUnit) : Base → Problem → Prop where
  | point {n : Int} (h : ¬u.Holds n) : Fault u (.point n) (.outOfRange u n)
  | range {first last : Int} {p : Problem} (h : u.SpanFault first last p) :
      Fault u (.range first last) p
  | firstName {s t : Text} (hs : u.ordinalOfName? s = none) :
      Fault u (.namedRange s t) (.unknownName u s)
  | lastName {s t : Text} {m : Int} (hs : u.ordinalOfName? s = some m)
      (ht : u.ordinalOfName? t = none) : Fault u (.namedRange s t) (.unknownName u t)
  | namedRange {s t : Text} {m n : Int} {p : Problem} (hs : u.ordinalOfName? s = some m)
      (ht : u.ordinalOfName? t = some n) (h : u.SpanFault m n p) : Fault u (.namedRange s t) p

/-- What is wrong with a term: an unknown name, or what is wrong with its base. -/
inductive Term.Fault (u : TimeUnit) : Term → Problem → Prop where
  | base {b : Base} {p : Problem} (h : b.Fault u p) : Fault u (.base b) p
  | name {s : Text} (h : u.ordinalOfName? s = none) : Fault u (.name s) (.unknownName u s)
  | period {b : Base} {k : Int} {p : Problem} (h : b.Fault u p) : Fault u (.period b k) p

/-- What is wrong with a field is what is wrong with the first of its terms that has a fault. -/
def Field.Fault (u : TimeUnit) (f : Field) (p : Problem) : Prop :=
  FirstFault (fun a q => a.Fault u q) f.terms p

/-- A term steps forward: it is no period, or one with a positive step. -/
def Term.StepsForward : Term → Prop
  | .period _ k => 0 < k
  | _ => True

/-- A field that a text may stand for: it has a term, and its terms step forward. -/
structure Field.WellFormed (f : Field) : Prop where
  ne_nil : f.terms ≠ []
  stepsForward : ∀ a ∈ f.terms, a.StepsForward

/-- A field can be written when each of its terms can. -/
def Field.Writable (f : Field) : Prop :=
  ∀ a ∈ f.terms, a.Writable

theorem Base.not_fault_all {u : TimeUnit} {p : Problem} : ¬Base.Fault u .all p := by
  intro h
  cases h

/-- An unrestricted field has no fault. -/
theorem Field.not_fault_all {u : TimeUnit} {p : Problem} : ¬Field.Fault u ⟨[.base .all]⟩ p := by
  intro h
  obtain ⟨a, ha, h⟩ := h.exists_mem
  obtain rfl := List.mem_singleton.1 ha
  cases h with
  | base h => exact Base.not_fault_all h

theorem Field.wellFormed_all : Field.WellFormed ⟨[.base .all]⟩ where
  ne_nil := List.cons_ne_nil _ _
  stepsForward a ha := by
    obtain rfl := List.mem_singleton.1 ha
    trivial

theorem Field.writable_all : Field.Writable ⟨[.base .all]⟩ := by
  intro a ha
  obtain rfl := List.mem_singleton.1 ha
  exact List.forall_mem_nil _

/-! ## The problems of terms are their faults -/

namespace TimeUnit

variable {u : TimeUnit} {n : Int}

theorem check_eq_error_iff {p : Problem} :
    u.check n = .error p ↔ ¬u.Holds n ∧ p = .outOfRange u n := by
  by_cases h : u.Holds n
  · simp [check, h]
  · simp [check, h, eq_comm]

theorem ordinalOfName_eq_ok_iff {name : Text} :
    u.ordinalOfName name = .ok n ↔ u.ordinalOfName? name = some n := by
  rw [ordinalOfName]
  cases u.ordinalOfName? name <;> simp

theorem ordinalOfName_eq_error_iff {name : Text} {p : Problem} :
    u.ordinalOfName name = .error p ↔ u.ordinalOfName? name = none ∧ p = .unknownName u name := by
  rw [ordinalOfName]
  cases u.ordinalOfName? name <;> simp [eq_comm]

/-- A known name stands for an ordinal of the unit. -/
theorem holds_of_ordinalOfName? {name : Text} (h : u.ordinalOfName? name = some n) :
    u.Holds n :=
  holds_of_mem_names _ (mem_of_lookup_eq_some h)

theorem span_eq_ok_iff {first last : Int} {xs : List Int} : u.span first last = .ok xs ↔
    u.Holds first ∧ u.Holds last ∧ first ≤ last ∧ xs = Ordinals.interval first last := by
  simp only [span, bind_eq_ok_iff, check_eq_ok_iff]
  by_cases h : last < first
  · simp [h, Int.not_le.2 h]
  · simp [h, Int.not_lt.1 h, eq_comm]

theorem span_eq_error_iff {first last : Int} {p : Problem} :
    u.span first last = .error p ↔ u.SpanFault first last p := by
  simp only [span, bind_eq_error_iff, check_eq_error_iff, check_eq_ok_iff]
  constructor
  · rintro (⟨h, rfl⟩ | ⟨_, ⟨hfirst, rfl⟩, ⟨h, rfl⟩ | ⟨_, ⟨hlast, rfl⟩, h⟩⟩)
    · exact .first h
    · exact .last hfirst h
    · split at h
      · rename_i hlt
        cases h
        exact .order hfirst hlast hlt
      · cases h
  · intro h
    cases h with
    | first h => exact .inl ⟨h, rfl⟩
    | last hfirst h => exact .inr ⟨_, ⟨hfirst, rfl⟩, .inl ⟨h, rfl⟩⟩
    | order hfirst hlast h => exact .inr ⟨_, ⟨hfirst, rfl⟩, .inr ⟨_, ⟨hlast, rfl⟩, if_pos h⟩⟩

end TimeUnit

namespace Base

variable {u : TimeUnit} {b : Base} {p : Problem}

theorem ordinals_eq_error_iff : b.ordinals u = .error p ↔ b.Fault u p := by
  cases b with
  | all =>
    simp only [ordinals, reduceCtorEq, false_iff]
    exact not_fault_all
  | point n =>
    simp only [ordinals, bind_eq_error_iff, TimeUnit.check_eq_error_iff, reduceCtorEq, and_false,
      exists_false, or_false]
    constructor
    · rintro ⟨h, rfl⟩
      exact .point h
    · intro h
      cases h with
      | point h => exact ⟨h, rfl⟩
  | range first last =>
    rw [ordinals, TimeUnit.span_eq_error_iff]
    constructor
    · exact .range
    · intro h
      cases h with
      | range h => exact h
  | namedRange s t =>
    simp only [ordinals, bind_eq_error_iff, TimeUnit.ordinalOfName_eq_error_iff,
      TimeUnit.ordinalOfName_eq_ok_iff, TimeUnit.span_eq_error_iff]
    constructor
    · rintro (⟨hs, rfl⟩ | ⟨m, hm, ⟨ht, rfl⟩ | ⟨n, hn, h⟩⟩)
      · exact .firstName hs
      · exact .lastName hm ht
      · exact .namedRange hm hn h
    · intro h
      cases h with
      | firstName hs => exact .inl ⟨hs, rfl⟩
      | lastName hm ht => exact .inr ⟨_, hm, .inl ⟨ht, rfl⟩⟩
      | namedRange hm hn h => exact .inr ⟨_, hm, .inr ⟨_, hn, h⟩⟩

theorem reach_eq_ordinals (h : b.isPoint = false) : b.reach u = b.ordinals u := by
  cases b with
  | point n => cases h
  | _ => rfl

theorem reach_eq_error_iff : b.reach u = .error p ↔ b.Fault u p := by
  rw [← ordinals_eq_error_iff]
  cases b with
  | point n => simp [reach, ordinals, bind_eq_error_iff]
  | _ => rw [reach_eq_ordinals rfl]

end Base

/-! ## Terms without a fault -/

/-- A list to select from: it has a member, and ordinals of the unit only. -/
structure TimeUnit.Selectable (u : TimeUnit) (xs : List Int) : Prop where
  ne_nil : xs ≠ []
  holds : ∀ n ∈ xs, u.Holds n

namespace TimeUnit

variable {u : TimeUnit} {xs : List Int}

theorem selectable_interval {first last : Int} (hfirst : u.Holds first) (hlast : u.Holds last)
    (hle : first ≤ last) : u.Selectable (Ordinals.interval first last) where
  ne_nil := by
    rw [Ordinals.interval_eq_cons hle]
    exact List.cons_ne_nil _ _
  holds n hn := by
    rw [Ordinals.mem_interval] at hn
    rw [Holds] at hfirst hlast ⊢
    omega

theorem selectable_domain (u : TimeUnit) : u.Selectable u.domain :=
  selectable_interval ⟨Int.le_refl _, u.lo_le_hi⟩ ⟨u.lo_le_hi, Int.le_refl _⟩ u.lo_le_hi

theorem selectable_span {first last : Int} (h : u.span first last = .ok xs) : u.Selectable xs := by
  obtain ⟨hfirst, hlast, hle, rfl⟩ := span_eq_ok_iff.1 h
  exact selectable_interval hfirst hlast hle

theorem Selectable.everyNth (h : u.Selectable xs) (k : Nat) :
    u.Selectable (Ordinals.everyNth k xs) where
  ne_nil := by
    obtain ⟨x, rest, rfl⟩ := List.exists_cons_of_ne_nil h.ne_nil
    exact List.cons_ne_nil _ _
  holds n hn := h.holds n ((Ordinals.everyNth_sublist k xs).subset hn)

end TimeUnit

namespace Base

variable {u : TimeUnit} {b : Base} {xs : List Int}

theorem selectable_ordinals (h : b.ordinals u = .ok xs) : u.Selectable xs := by
  cases b with
  | all =>
    cases h
    exact u.selectable_domain
  | point n =>
    simp only [ordinals, bind_eq_ok_iff, TimeUnit.check_eq_ok_iff] at h
    obtain ⟨_, ⟨hn, rfl⟩, h⟩ := h
    cases h
    exact ⟨List.cons_ne_nil _ _, by simpa using hn⟩
  | range first last => exact TimeUnit.selectable_span h
  | namedRange s t =>
    simp only [ordinals, bind_eq_ok_iff] at h
    obtain ⟨m, -, n, -, h⟩ := h
    exact TimeUnit.selectable_span h

theorem selectable_reach (h : b.reach u = .ok xs) : u.Selectable xs := by
  cases b with
  | point n =>
    simp only [reach, bind_eq_ok_iff, TimeUnit.check_eq_ok_iff] at h
    obtain ⟨_, ⟨hn, rfl⟩, h⟩ := h
    cases h
    exact TimeUnit.selectable_interval hn ⟨u.lo_le_hi, Int.le_refl _⟩ hn.2
  | _ =>
    rw [reach_eq_ordinals rfl] at h
    exact selectable_ordinals h

theorem step_of_pos {reach : List Int} {k : Int} (hk : 0 < k) :
    b.step reach k = .ok (Ordinals.everyNth k.toNat reach) := by
  have hne : k ≠ 0 := by omega
  simp [step, hne, hk]

end Base

namespace Term

variable {u : TimeUnit} {a : Term} {p : Problem} {xs : List Int}

/-- The problems of a term are its faults. -/
theorem ordinals_eq_error_iff (ha : a.StepsForward) : a.ordinals u = .error p ↔ a.Fault u p := by
  cases a with
  | base b =>
    rw [ordinals, Base.ordinals_eq_error_iff]
    constructor
    · exact .base
    · intro h
      cases h with
      | base h => exact h
  | name s =>
    have hcheck : ∀ n, u.ordinalOfName s = .ok n → u.check n = .ok n := by
      intro n hn
      have hholds := TimeUnit.holds_of_ordinalOfName? (TimeUnit.ordinalOfName_eq_ok_iff.1 hn)
      exact TimeUnit.check_eq_ok_iff.2 ⟨hholds, rfl⟩
    rw [ordinals, bind_eq_error_iff, TimeUnit.ordinalOfName_eq_error_iff]
    constructor
    · rintro (⟨hs, rfl⟩ | ⟨n, hn, h⟩)
      · exact .name hs
      · rw [hcheck n hn] at h
        cases h
    · intro h
      cases h with
      | name hs => exact .inl ⟨hs, rfl⟩
  | period b k =>
    simp only [ordinals, bind_eq_error_iff, Base.reach_eq_error_iff, Base.step_of_pos ha,
      reduceCtorEq, and_false, exists_false, or_false]
    constructor
    · exact .period
    · intro h
      cases h with
      | period h => exact h

/-- A fault of a term is one of its numbers outside the domain, an unknown name or the order of a
range. -/
theorem Fault.cases_problem (h : a.Fault u p) :
    (∃ n ∈ a.numbers, p = .outOfRange u n) ∨ (∃ s, p = .unknownName u s) ∨
      ∃ m n, p = .rangeOrder u m n := by
  have hbase : ∀ {b : Base} {q : Problem}, b.Fault u q →
      (∃ n ∈ b.numbers, q = .outOfRange u n) ∨ (∃ s, q = .unknownName u s) ∨
        ∃ m n, q = .rangeOrder u m n := by
    intro b q h
    cases h with
    | range h => cases h <;> simp [Base.numbers]
    | namedRange hs ht h =>
      -- names stand for ordinals of the domain
      cases h with
      | first h => exact absurd (TimeUnit.holds_of_ordinalOfName? hs) h
      | last _ h => exact absurd (TimeUnit.holds_of_ordinalOfName? ht) h
      | order => simp
    | _ => simp [Base.numbers]
  cases h with
  | base h => exact hbase h
  | name _ => simp
  | period h =>
    rcases hbase h with ⟨n, hn, rfl⟩ | hother
    · exact .inl ⟨n, List.mem_append_left _ hn, rfl⟩
    · exact .inr hother

theorem Fault.classified (ha : a.Writable) (h : a.Fault u p) : p.Classified := by
  obtain ⟨n, hn, rfl⟩ | ⟨_, rfl⟩ | ⟨_, _, rfl⟩ := h.cases_problem
  · simp [Problem.Classified, Problem.report, ha n hn]
  · simp [Problem.Classified, Problem.report]
  · simp [Problem.Classified, Problem.report]

theorem selectable_ordinals (ha : a.StepsForward) (h : a.ordinals u = .ok xs) :
    u.Selectable xs := by
  cases a with
  | base b => exact Base.selectable_ordinals h
  | name s =>
    simp only [ordinals, bind_eq_ok_iff, TimeUnit.check_eq_ok_iff] at h
    obtain ⟨_, -, _, ⟨hn, rfl⟩, h⟩ := h
    cases h
    exact ⟨List.cons_ne_nil _ _, by simpa using hn⟩
  | period b k =>
    simp only [ordinals, bind_eq_ok_iff, Base.step_of_pos ha] at h
    obtain ⟨reach, hreach, h⟩ := h
    cases h
    exact (Base.selectable_reach hreach).everyNth k.toNat

end Term

/-! ## Fields -/

namespace Selection

variable {u : TimeUnit} {f : Field} {p : Problem}

theorem toList_ne_nil (s : Selection u) : s.toList ≠ [] := by
  cases s with
  | every => exact u.selectable_domain.ne_nil
  | only set => exact set.nonempty

/-- What is selected from lists is what they hold, ascending. -/
theorem toList_of_ofLists {lists : List (List Int)} {s : Selection u}
    (h : ofLists u lists = .ok s) : s.toList = Ordinals.gather lists := by
  rw [ofLists] at h
  split at h
  · cases h
  · split at h
    · cases h
    · cases h
      rfl

/-- Lists of ordinals of the unit are a selection unless all of them are empty. -/
theorem exists_ofLists_iff {lists : List (List Int)} (h : ∀ n ∈ lists.flatten, u.Holds n) :
    (∃ s, ofLists u lists = .ok s) ↔ ∃ n, n ∈ lists.flatten := by
  have hmem : ∀ n, n ∈ Ordinals.gather lists ↔ n ∈ lists.flatten := by
    intro n
    rw [Ordinals.mem_gather, List.mem_flatten]
  constructor
  · rintro ⟨s, hs⟩
    obtain ⟨n, hn⟩ := List.exists_mem_of_ne_nil _ s.toList_ne_nil
    rw [toList_of_ofLists hs, hmem] at hn
    exact ⟨n, hn⟩
  · rintro ⟨n, hn⟩
    rw [ofLists]
    split
    · rename_i m hout
      have hholds := List.find?_some hout
      simp [h m (List.mem_of_find?_eq_some hout)] at hholds
    · rw [dif_neg (List.ne_nil_of_mem ((hmem n).2 hn))]
      exact ⟨_, rfl⟩

/-- Lists to select from leave nothing to complain about. -/
theorem exists_ofLists_eq_ok {lists : List (List Int)} (hne : lists ≠ [])
    (h : ∀ xs ∈ lists, u.Selectable xs) : ∃ s, ofLists u lists = .ok s := by
  have hholds : ∀ n ∈ lists.flatten, u.Holds n := by
    intro n hn
    obtain ⟨xs, hxs, hn⟩ := List.mem_flatten.1 hn
    exact (h xs hxs).holds n hn
  obtain ⟨xs, hxs⟩ := List.exists_mem_of_ne_nil lists hne
  obtain ⟨n, hn⟩ := List.exists_mem_of_ne_nil xs (h xs hxs).ne_nil
  exact (exists_ofLists_iff hholds).2 ⟨n, List.mem_flatten.2 ⟨xs, hxs, hn⟩⟩

/-- The lists of the terms of a field leave nothing to complain about. -/
theorem exists_ofLists_of_mapM {lists : List (List Int)} (hf : f.WellFormed)
    (h : f.terms.mapM (Term.ordinals u) = .ok lists) : ∃ s, ofLists u lists = .ok s := by
  have hresults := mapM_eq_ok_iff.1 h
  apply exists_ofLists_eq_ok
  · rintro rfl
    exact hf.ne_nil (List.forall₂_nil_right_iff.1 hresults)
  · intro xs hxs
    obtain ⟨a, ha, hordinals⟩ := exists_mem_of_forall₂ hresults hxs
    exact Term.selectable_ordinals (hf.stepsForward a ha) hordinals

/-- The problem of a field is its fault. -/
theorem ofField_eq_error_iff (hf : f.WellFormed) : ofField u f = .error p ↔ f.Fault u p := by
  by_cases hall : f.isAll = true
  · rw [ofField, if_pos hall]
    obtain ⟨terms⟩ := f
    obtain rfl : terms = [.base .all] := Field.isAll_iff.1 hall
    simp [Field.not_fault_all]
  · rw [ofField, if_neg hall, bind_eq_error_iff, mapM_eq_error_iff, Field.Fault,
      firstFault_congr fun a ha q => Term.ordinals_eq_error_iff (hf.stepsForward a ha)]
    constructor
    · rintro (h | ⟨lists, hterms, h⟩)
      · exact h
      · obtain ⟨s, hs⟩ := exists_ofLists_of_mapM hf hterms
        rw [hs] at h
        cases h
    · exact .inl

end Selection

/-! ## What terms select

Steps may go in any direction here, and a period may select nothing. -/

namespace Term

/-- A term has a list in a unit, and the list has an ordinal. -/
def Selects (u : TimeUnit) (a : Term) (n : Int) : Prop :=
  ∃ xs, a.ordinals u = .ok xs ∧ n ∈ xs

theorem selects_iff_mem {u : TimeUnit} {a : Term} {n : Int} {xs : List Int}
    (h : a.ordinals u = .ok xs) : a.Selects u n ↔ n ∈ xs := by
  constructor
  · rintro ⟨ys, hys, hn⟩
    obtain rfl := Except.ok.inj (h.symm.trans hys)
    exact hn
  · exact fun hn => ⟨xs, h, hn⟩

/-- A term that steps forward selects something if it has a list. -/
theorem exists_selects {u : TimeUnit} {a : Term} {xs : List Int} (ha : a.StepsForward)
    (h : a.ordinals u = .ok xs) : ∃ n, a.Selects u n := by
  obtain ⟨n, hn⟩ := List.exists_mem_of_ne_nil xs (selectable_ordinals ha h).ne_nil
  exact ⟨n, xs, h, hn⟩

/-- Whichever way a term steps, it selects ordinals of the unit. -/
theorem Selects.holds {u : TimeUnit} {a : Term} {n : Int} (h : a.Selects u n) : u.Holds n := by
  obtain ⟨xs, h, hn⟩ := h
  cases a with
  | base b => exact (Base.selectable_ordinals h).holds n hn
  | name s =>
    have hsteps : (name s).StepsForward := trivial
    exact (selectable_ordinals hsteps h).holds n hn
  | period b k =>
    obtain ⟨reach, hreach, h⟩ := bind_eq_ok_iff.1 h
    have hholds := (Base.selectable_reach hreach).holds
    rw [Base.step] at h
    split at h
    · cases h
    · split at h
      · cases h
        exact hholds n ((Ordinals.everyNth_sublist _ _).subset hn)
      · split at h
        · cases h
          cases hn
        · cases h
          exact hholds n (List.mem_reverse.1 ((Ordinals.everyNth_sublist _ _).subset hn))

end Term

namespace Selection

variable {u : TimeUnit} {f : Field} {s : Selection u} {n : Int}

theorem mem_flatten_ordinals_iff {terms : List Term} {lists : List (List Int)}
    (h : terms.mapM (Term.ordinals u) = .ok lists) :
    n ∈ lists.flatten ↔ ∃ a ∈ terms, a.Selects u n := by
  rw [List.mem_flatten]
  constructor
  · rintro ⟨xs, hxs, hn⟩
    obtain ⟨a, ha, hordinals⟩ := exists_mem_of_forall₂ (mapM_eq_ok_iff.1 h) hxs
    exact ⟨a, ha, xs, hordinals, hn⟩
  · rintro ⟨a, ha, hn⟩
    obtain ⟨xs, hxs, hordinals⟩ := exists_mem_of_forall₂ (mapM_eq_ok_iff.1 h).flip ha
    exact ⟨xs, hxs, (Term.selects_iff_mem hordinals).1 hn⟩

theorem holds_of_mem_flatten {terms : List Term} {lists : List (List Int)}
    (h : terms.mapM (Term.ordinals u) = .ok lists) : ∀ n ∈ lists.flatten, u.Holds n := by
  intro n hn
  obtain ⟨a, -, ha⟩ := (mem_flatten_ordinals_iff h).1 hn
  exact ha.holds

theorem selects_all_iff : Term.Selects u (.base .all) n ↔ u.Holds n := by
  constructor
  · exact Term.Selects.holds
  · intro h
    exact ⟨u.domain, rfl, TimeUnit.mem_domain.2 h⟩

/-- A field is resolved when each of its terms has a list and one of them selects something. -/
theorem exists_ofField_iff : (∃ s, ofField u f = .ok s) ↔
    (∀ a ∈ f.terms, ∃ xs, a.ordinals u = .ok xs) ∧ ∃ a ∈ f.terms, ∃ n, a.Selects u n := by
  by_cases hall : f.isAll = true
  · rw [ofField, if_pos hall, Field.isAll_iff.1 hall]
    simp only [List.mem_singleton, forall_eq, exists_eq_left, selects_all_iff]
    exact ⟨fun _ => ⟨⟨u.domain, rfl⟩, u.lo, Int.le_refl _, u.lo_le_hi⟩, fun _ => ⟨every, rfl⟩⟩
  · rw [ofField, if_neg hall, ← exists_mapM_eq_ok_iff]
    simp only [bind_eq_ok_iff]
    constructor
    · rintro ⟨s, lists, hlists, hs⟩
      obtain ⟨n, hn⟩ := (exists_ofLists_iff (holds_of_mem_flatten hlists)).1 ⟨s, hs⟩
      obtain ⟨a, ha, hselects⟩ := (mem_flatten_ordinals_iff hlists).1 hn
      exact ⟨⟨lists, hlists⟩, a, ha, n, hselects⟩
    · rintro ⟨⟨lists, hlists⟩, a, ha, n, hselects⟩
      obtain ⟨s, hs⟩ :=
        (exists_ofLists_iff (holds_of_mem_flatten hlists)).2
          ⟨n, (mem_flatten_ordinals_iff hlists).2 ⟨a, ha, hselects⟩⟩
      exact ⟨s, lists, hlists, hs⟩

/-- A field that a text may stand for is resolved when each of its terms has a list. -/
theorem exists_ofField_iff_of_wellFormed (hf : f.WellFormed) :
    (∃ s, ofField u f = .ok s) ↔ ∀ a ∈ f.terms, ∃ xs, a.ordinals u = .ok xs := by
  rw [exists_ofField_iff, and_iff_left_iff_imp]
  intro hterms
  obtain ⟨a, ha⟩ := List.exists_mem_of_ne_nil f.terms hf.ne_nil
  obtain ⟨xs, hxs⟩ := hterms a ha
  exact ⟨a, ha, Term.exists_selects (hf.stepsForward a ha) hxs⟩

/-- A selection that comes from a field includes what one of the terms selects. -/
theorem includes_iff_selects (h : ofField u f = .ok s) :
    s.includes n = true ↔ ∃ a ∈ f.terms, a.Selects u n := by
  rw [ofField] at h
  split at h
  · rename_i hall
    cases h
    rw [Field.isAll_iff.1 hall, includes, decide_eq_true_eq]
    simp only [List.mem_singleton, exists_eq_left, selects_all_iff]
  · obtain ⟨lists, hlists, h⟩ := bind_eq_ok_iff.1 h
    rw [← mem_toList, toList_of_ofLists h, Ordinals.mem_gather, ← List.mem_flatten,
      mem_flatten_ordinals_iff hlists]

end Selection
end Timetable
