import Timetable.Proofs.Resolution
import Timetable.Proofs.Selection

/-!
# What terms denote

A term denotes a set of integers, said without a list: a base the values from its first to its
last, a period those of them that a whole number of steps takes it to from the first.  Resolution
builds lists in three ways, by counting from one end of a range to the other, by keeping every
`k`-th member, and by not listing an unrestricted field at all.  All of them have the denoted
values, and resolution succeeds exactly for the fields whose terms are valid in the unit.

## Main definitions

* `TimeUnit.Names`: a name stands for an ordinal.
* `Base.Spans`, `Base.furthest`: the first and the last value of a base, and how far a period goes.
* `Term.Valid`, `Term.Denotes`: whether a term has a meaning in a unit, and which.

## Main statements

* `Ordinals.mem_everyNth_interval`: every `k`-th member of an interval, by divisibility.
* `Term.ordinals_spec`: the list of a term is the ascending one of its values.
* `Selection.ofField_denotes`: resolution agrees with the sets.
-/

namespace Timetable

/-! ## Steps through an interval -/

namespace Ordinals

/-- Steps through an interval begin after what is skipped and go on by whole steps. -/
theorem mem_stride_interval {step skip : Nat} {a b n : Int} :
    n ∈ stride step skip (interval a b) ↔
      a + skip ≤ n ∧ n ≤ b ∧ (step + 1 : Int) ∣ n - (a + skip) := by
  generalize hm : (b + 1 - a).toNat = m
  induction m generalizing a skip with
  | zero =>
    rw [interval_eq_nil (by omega)]
    simp only [stride, List.not_mem_nil, false_iff]
    omega
  | succ m ih =>
    rw [interval_eq_cons (by omega)]
    cases skip with
    | zero =>
      -- the values after the first are those that are left when one step is taken
      have hshift : (step + 1 : Int) ∣ n - (a + 1 + step) ↔ (step + 1 : Int) ∣ n - a := by
        rw [show n - a = n - (a + 1 + step) + (step + 1) by omega]
        exact (Int.dvd_add_left (Int.dvd_refl _)).symm
      simp only [stride, List.mem_cons, ih (by omega : (b + 1 - (a + 1)).toNat = m), hshift,
        Int.natCast_zero, Int.add_zero]
      constructor
      · rintro (rfl | ⟨hfirst, hlast, hdvd⟩)
        · exact ⟨le_rfl, by omega, by simp⟩
        · exact ⟨by omega, hlast, hdvd⟩
      · rintro ⟨hfirst, hlast, hdvd⟩
        rcases hfirst.eq_or_lt with heq | hlt
        · exact .inl heq.symm
        · have hstep := Int.le_of_dvd (by omega) hdvd
          exact .inr ⟨by omega, hlast, hdvd⟩
    | succ skip =>
      have hskip : a + (skip + 1 : Nat) = a + 1 + skip := by omega
      rw [hskip]
      exact ih (by omega)

/-- Every `k`-th member of an interval. -/
theorem mem_everyNth_interval {k : Nat} (hk : 0 < k) {a b n : Int} :
    n ∈ everyNth k (interval a b) ↔ a ≤ n ∧ n ≤ b ∧ (k : Int) ∣ n - a := by
  have hcast : ((k - 1 : Nat) : Int) + 1 = k := by omega
  rw [everyNth, mem_stride_interval, hcast, Int.natCast_zero, Int.add_zero]

/-- Steps through an interval start at its first member. -/
theorem head?_everyNth_interval (k : Nat) {a b : Int} (h : a ≤ b) :
    (everyNth k (interval a b)).head? = some a := by
  rw [interval_eq_cons h]
  rfl

end Ordinals

/-! ## Meanings -/

/-- A name stands for an ordinal: it is in the table of the unit, in whatever letter case. -/
def TimeUnit.Names (u : TimeUnit) (name : Text) (n : Int) : Prop :=
  (name.map Char.toLower, n) ∈ u.names

/-- A base goes from its first value to its last, whether or not these are ordinals of the unit. -/
inductive Base.Spans (u : TimeUnit) : Base → Int → Int → Prop where
  | all : Spans u .all u.lo u.hi
  | point (value : Int) : Spans u (.point value) value value
  | range (first last : Int) : Spans u (.range first last) first last
  | namedRange {s t : Text} {first last : Int} (hs : u.Names s first) (ht : u.Names t last) :
      Spans u (.namedRange s t) first last

/-- How far a period over a base goes: up to the last value, and over a single value up to the end
of the domain. -/
def Base.furthest (u : TimeUnit) (b : Base) (last : Int) : Int :=
  if b.isPoint then u.hi else last

/-- A base has a meaning in a unit: both ends are ordinals, and they are in order. -/
def Base.Valid (u : TimeUnit) (b : Base) : Prop :=
  ∃ first last, b.Spans u first last ∧ u.Holds first ∧ u.Holds last ∧ first ≤ last

namespace Term

/-- A term has a meaning in a unit. -/
def Valid (u : TimeUnit) : Term → Prop
  | base b => b.Valid u
  | name s => ∃ n, u.Names s n
  | period b _ => b.Valid u

/-- The values that a term stands for in a unit. -/
inductive Denotes (u : TimeUnit) : Term → Int → Prop where
  | base {b : Base} {first last n : Int} (h : b.Spans u first last) (hfirst : first ≤ n)
      (hlast : n ≤ last) : Denotes u (.base b) n
  | name {s : Text} {n : Int} (h : u.Names s n) : Denotes u (.name s) n
  | period {b : Base} {first last k n : Int} (h : b.Spans u first last) (hfirst : first ≤ n)
      (hlast : n ≤ b.furthest u last) (hstep : k ∣ n - first) : Denotes u (.period b k) n

/-- The value that the list of a term starts with: the first one of its base. -/
inductive Starts (u : TimeUnit) : Term → Int → Prop where
  | base {b : Base} {first last : Int} (h : b.Spans u first last) : Starts u (.base b) first
  | name {s : Text} {n : Int} (h : u.Names s n) : Starts u (.name s) n
  | period {b : Base} {first last k : Int} (h : b.Spans u first last) : Starts u (.period b k) first

end Term

/-! ## Names -/

namespace TimeUnit

variable {u : TimeUnit} {s : Text} {m n : Int}

/-- No name is in a table twice with different ordinals. -/
theorem lookup_names : ∀ entry ∈ u.names, u.names.lookup entry.1 = some entry.2 := by
  cases u <;> decide

theorem ordinalOfName?_eq_some_iff : u.ordinalOfName? s = some n ↔ u.Names s n :=
  ⟨mem_of_lookup_eq_some, fun h => lookup_names _ h⟩

theorem ordinalOfName_eq_ok_iff_names : u.ordinalOfName s = .ok n ↔ u.Names s n := by
  rw [ordinalOfName_eq_ok_iff, ordinalOfName?_eq_some_iff]

theorem Names.unique (hm : u.Names s m) (hn : u.Names s n) : m = n := by
  have h := ordinalOfName?_eq_some_iff.2 hm
  rw [ordinalOfName?_eq_some_iff.2 hn] at h
  exact (Option.some.inj h).symm

/-- A name stands for an ordinal of its unit. -/
theorem Names.holds (h : u.Names s n) : u.Holds n :=
  holds_of_ordinalOfName? (ordinalOfName?_eq_some_iff.2 h)

end TimeUnit

/-! ## Lists of a base -/

namespace Base

variable {u : TimeUnit} {b : Base} {first last first' last' : Int} {xs : List Int}

theorem Spans.unique (h : b.Spans u first last) (h' : b.Spans u first' last') :
    first = first' ∧ last = last' := by
  cases h with
  | all =>
    cases h'
    exact ⟨rfl, rfl⟩
  | point value =>
    cases h'
    exact ⟨rfl, rfl⟩
  | range first last =>
    cases h'
    exact ⟨rfl, rfl⟩
  | namedRange hs ht =>
    cases h' with
    | namedRange hs' ht' => exact ⟨hs.unique hs', ht.unique ht'⟩

/-- The list of a base goes from its first value to its last. -/
theorem ordinals_eq_ok_iff : b.ordinals u = .ok xs ↔
    ∃ first last, b.Spans u first last ∧ u.Holds first ∧ u.Holds last ∧ first ≤ last ∧
      xs = Ordinals.interval first last := by
  cases b with
  | all =>
    constructor
    · intro h
      cases h
      exact ⟨_, _, .all, ⟨le_rfl, u.lo_le_hi⟩, ⟨u.lo_le_hi, le_rfl⟩, u.lo_le_hi, rfl⟩
    · rintro ⟨_, _, ⟨⟩, -, -, -, rfl⟩
      rfl
  | point value =>
    have hsingle : Ordinals.interval value value = [value] := by
      rw [Ordinals.interval_eq_cons le_rfl, Ordinals.interval_eq_nil (by omega)]
    simp only [ordinals, bind_eq_ok_iff, TimeUnit.check_eq_ok_iff]
    constructor
    · rintro ⟨_, ⟨hholds, rfl⟩, h⟩
      cases h
      exact ⟨_, _, .point _, hholds, hholds, le_rfl, hsingle.symm⟩
    · rintro ⟨_, _, ⟨⟩, hholds, -, -, rfl⟩
      exact ⟨value, ⟨hholds, rfl⟩, by rw [hsingle]⟩
  | range first last =>
    rw [ordinals, TimeUnit.span_eq_ok_iff]
    constructor
    · exact fun h => ⟨_, _, .range first last, h⟩
    · rintro ⟨_, _, ⟨⟩, h⟩
      exact h
  | namedRange s t =>
    simp only [ordinals, bind_eq_ok_iff, TimeUnit.ordinalOfName_eq_ok_iff_names,
      TimeUnit.span_eq_ok_iff]
    constructor
    · rintro ⟨first, hs, last, ht, h⟩
      exact ⟨first, last, .namedRange hs ht, h⟩
    · rintro ⟨first, last, ⟨⟩, h⟩
      exact ⟨first, ‹_›, last, ‹_›, h⟩

/-- The list that a period steps through goes as far as the period does. -/
theorem reach_eq_ok_iff : b.reach u = .ok xs ↔
    ∃ first last, b.Spans u first last ∧ u.Holds first ∧ u.Holds last ∧ first ≤ last ∧
      xs = Ordinals.interval first (b.furthest u last) := by
  cases b with
  | point value =>
    simp only [reach, bind_eq_ok_iff, TimeUnit.check_eq_ok_iff, furthest, isPoint, if_true]
    constructor
    · rintro ⟨_, ⟨hholds, rfl⟩, h⟩
      cases h
      exact ⟨_, _, .point _, hholds, hholds, le_rfl, rfl⟩
    · rintro ⟨_, _, ⟨⟩, hholds, -, -, rfl⟩
      exact ⟨value, ⟨hholds, rfl⟩, rfl⟩
  | _ => rw [reach_eq_ordinals rfl, ordinals_eq_ok_iff]; rfl

theorem le_furthest (h : u.Holds last) : last ≤ b.furthest u last := by
  rw [furthest]
  split
  · exact h.2
  · exact le_rfl

end Base

/-! ## Lists of a term -/

namespace Term

variable {u : TimeUnit} {a : Term} {xs : List Int} {n : Int}

theorem denotes_base_iff {b : Base} {first last : Int} (h : b.Spans u first last) :
    Denotes u (.base b) n ↔ first ≤ n ∧ n ≤ last := by
  constructor
  · intro hn
    cases hn with
    | base h' hfirst hlast =>
      obtain ⟨rfl, rfl⟩ := h.unique h'
      exact ⟨hfirst, hlast⟩
  · exact fun hn => .base h hn.1 hn.2

theorem denotes_name_iff {s : Text} : Denotes u (.name s) n ↔ u.Names s n := by
  constructor
  · intro hn
    cases hn with
    | name h => exact h
  · exact .name

theorem denotes_period_iff {b : Base} {first last k : Int} (h : b.Spans u first last) :
    Denotes u (.period b k) n ↔ first ≤ n ∧ n ≤ b.furthest u last ∧ k ∣ n - first := by
  constructor
  · intro hn
    cases hn with
    | period h' hfirst hlast hstep =>
      obtain ⟨rfl, rfl⟩ := h.unique h'
      exact ⟨hfirst, hlast, hstep⟩
  · exact fun hn => .period h hn.1 hn.2.1 hn.2.2

/-- The list of a term has its values, ascending, and starts with the first one of its base. -/
theorem ordinals_spec (ha : a.StepsForward) (h : a.ordinals u = .ok xs) :
    a.Valid u ∧ xs.Pairwise (· < ·) ∧ (∀ n, n ∈ xs ↔ a.Denotes u n) ∧
      ∃ first, a.Starts u first ∧ xs.head? = some first := by
  cases a with
  | base b =>
    obtain ⟨first, last, hspans, hfirst, hlast, hle, rfl⟩ := Base.ordinals_eq_ok_iff.1 h
    refine ⟨⟨first, last, hspans, hfirst, hlast, hle⟩, Ordinals.pairwise_interval _ _, ?_, first,
      .base hspans, by rw [Ordinals.interval_eq_cons hle]; rfl⟩
    intro n
    rw [Ordinals.mem_interval, denotes_base_iff hspans]
  | name s =>
    simp only [ordinals, bind_eq_ok_iff, TimeUnit.ordinalOfName_eq_ok_iff_names,
      TimeUnit.check_eq_ok_iff] at h
    obtain ⟨n, hs, m, ⟨-, rfl⟩, h⟩ := h
    cases h
    refine ⟨⟨m, hs⟩, List.pairwise_singleton _ _, ?_, m, .name hs, rfl⟩
    intro n
    rw [List.mem_singleton, denotes_name_iff]
    exact ⟨fun hn => hn ▸ hs, fun hn => hn.unique hs⟩
  | period b k =>
    have hk : 0 < k := ha
    simp only [ordinals, bind_eq_ok_iff, Base.step_of_pos hk, Base.reach_eq_ok_iff] at h
    obtain ⟨_, ⟨first, last, hspans, hfirst, hlast, hle, rfl⟩, h⟩ := h
    cases h
    have hcast : (k.toNat : Int) = k := Int.toNat_of_nonneg hk.le
    refine ⟨⟨first, last, hspans, hfirst, hlast, hle⟩,
      (Ordinals.pairwise_interval _ _).sublist (Ordinals.everyNth_sublist _ _), ?_, first,
      .period hspans, Ordinals.head?_everyNth_interval _ (hle.trans (Base.le_furthest hlast))⟩
    intro n
    rw [Ordinals.mem_everyNth_interval (by omega), denotes_period_iff hspans, hcast]

/-- A term has a list exactly when it has a meaning. -/
theorem exists_ordinals_eq_ok_iff (ha : a.StepsForward) :
    (∃ xs, a.ordinals u = .ok xs) ↔ a.Valid u := by
  constructor
  · rintro ⟨xs, h⟩
    exact (ordinals_spec ha h).1
  · intro h
    cases a with
    | base b =>
      obtain ⟨first, last, hspans, hfirst, hlast, hle⟩ := h
      exact ⟨_, Base.ordinals_eq_ok_iff.2 ⟨first, last, hspans, hfirst, hlast, hle, rfl⟩⟩
    | name s =>
      obtain ⟨n, hs⟩ := h
      have hcheck : u.check n = .ok n := TimeUnit.check_eq_ok_iff.2 ⟨hs.holds, rfl⟩
      exact ⟨[n], bind_eq_ok_iff.2 ⟨n, TimeUnit.ordinalOfName_eq_ok_iff_names.2 hs,
        bind_eq_ok_iff.2 ⟨n, hcheck, rfl⟩⟩⟩
    | period b k =>
      have hk : 0 < k := ha
      obtain ⟨first, last, hspans, hfirst, hlast, hle⟩ := h
      have hreach := Base.reach_eq_ok_iff.2 ⟨first, last, hspans, hfirst, hlast, hle, rfl⟩
      exact ⟨_, bind_eq_ok_iff.2 ⟨_, hreach, Base.step_of_pos hk⟩⟩

end Term

/-! ## Fields -/

namespace Selection

variable {u : TimeUnit} {f : Field} {s : Selection u} {n : Int}

/-- What a selection has that comes from a field is what its terms stand for. -/
theorem includes_iff_of_ofField (hf : f.WellFormed) (h : ofField u f = .ok s) :
    s.includes n = true ↔ ∃ a ∈ f.terms, a.Denotes u n := by
  rw [includes_iff_selects h]
  refine exists_congr fun a => and_congr_right fun ha => ?_
  obtain ⟨xs, hxs⟩ := (exists_ofField_iff.1 ⟨s, h⟩).1 a ha
  rw [Term.selects_iff_mem hxs, (Term.ordinals_spec (hf.stepsForward a ha) hxs).2.2.1]

/-- A field selects something exactly when its terms have a meaning. -/
theorem exists_ofField_eq_ok_iff (hf : f.WellFormed) :
    (∃ s, ofField u f = .ok s) ↔ ∀ a ∈ f.terms, a.Valid u := by
  rw [exists_ofField_iff_of_wellFormed hf]
  exact forall₂_congr fun a ha => Term.exists_ordinals_eq_ok_iff (hf.stepsForward a ha)

/-- Resolution agrees with the sets that terms denote: a field is resolved exactly when each of its
terms has a meaning in the unit, and then it selects what one of them denotes.  The list of a term
that has a meaning ascends, has the values that the term denotes, and starts with the first value
of its base. -/
theorem ofField_denotes (u : TimeUnit) (f : Field) (hf : f.WellFormed) :
    ((∃ s, ofField u f = .ok s) ↔ ∀ a ∈ f.terms, a.Valid u) ∧
      (∀ s, ofField u f = .ok s →
        ∀ n, s.includes n = true ↔ ∃ a ∈ f.terms, a.Denotes u n) ∧
      ∀ a : Term, a.StepsForward → a.Valid u →
        ∃ xs, a.ordinals u = .ok xs ∧ xs.Pairwise (· < ·) ∧ (∀ n, n ∈ xs ↔ a.Denotes u n) ∧
          ∃ first, a.Starts u first ∧ xs.head? = some first := by
  refine ⟨exists_ofField_eq_ok_iff hf, fun s h n => includes_iff_of_ofField hf h, ?_⟩
  intro a ha hvalid
  obtain ⟨xs, hxs⟩ := (Term.exists_ordinals_eq_ok_iff ha).2 hvalid
  exact ⟨xs, hxs, (Term.ordinals_spec ha hxs).2⟩

/-- Months given by names in several letter cases, by steps through a range that do not meet its
end, and by steps that leave the domain at once. -/
theorem ofField_denotes_months :
    ∃ (f : Field) (s : Selection .months),
      f.terms = [.period (.namedRange "feb".toList "OCT".toList) 3, .name "Sept".toList,
        .period (.point 11) 400] ∧
      f.WellFormed ∧ ofField .months f = .ok s ∧ s.toList = [2, 5, 8, 9, 11] ∧
      ∀ n, s.includes n = true ↔ ∃ a ∈ f.terms, a.Denotes .months n := by
  let f : Field := ⟨[.period (.namedRange "feb".toList "OCT".toList) 3, .name "Sept".toList,
    .period (.point 11) 400]⟩
  have hf : f.WellFormed := ⟨by simp [f], by simp [f, Term.StepsForward]⟩
  have hs : ∃ s, ofField .months f = .ok s ∧ s.toList = [2, 5, 8, 9, 11] := ⟨_, rfl, by decide⟩
  obtain ⟨s, hs, hlist⟩ := hs
  exact ⟨f, s, rfl, hf, hs, hlist, (ofField_denotes .months f hf).2.1 s hs⟩

end Selection
end Timetable
