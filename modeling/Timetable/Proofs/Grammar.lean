import Timetable.Grammar
import Timetable.Proofs.Layout
import Timetable.Proofs.Traversal

/-!
# The texts of fields

The grammar of a field relates a field to the texts that spell it, without a way to find either
from the other.  A reader cuts a text at its operators and tries one form after another; it gives a
field exactly when that field is related to the text.  So a text spells at most one field, although
a text has many readings as a list of terms while it is being cut.

Numerals, names and marks are *solid*: they hold neither white space nor operators.  Cutting a text
that is put together from solid ones gives back its parts.

## Main definitions

* `Text.Numeral.Spelled`, `Base.Spelled`, `Term.Spelled`, `Field.Spelled`: the grammar.

## Main statements

* `Base.read?_eq_some_iff`, `Term.read?_eq_some_iff`, `Field.read?_eq_some_iff`: the readers find
  what a text spells.
* `Field.parse_exact`: a text is accepted exactly when it spells a field, and it spells no other.
-/

namespace Timetable

/-! ## The grammar -/

/-- The numerals of a number: up to `longestNumeral` decimal digits, leading zeros allowed. -/
structure Text.Numeral.Spelled (n : Nat) (s : Text) : Prop where
  ne_nil : s ≠ []
  length_le : s.length ≤ longestNumeral
  isDigit : ∀ c ∈ s, c.isDigit = true
  value : Nat.ofDigitChars 10 s 0 = n

/-- The texts of a base. -/
inductive Base.Spelled (anyMark : Bool) : Base → Text → Prop where
  | all : Spelled anyMark .all ['*']
  | any (h : anyMark = true) : Spelled anyMark .all ['?']
  | point {n : Nat} {s : Text} (hs : Text.Numeral.Spelled n s) : Spelled anyMark (.point n) s
  | range {m n : Nat} {s t : Text} (hs : Text.Numeral.Spelled m s)
      (ht : Text.Numeral.Spelled n t) : Spelled anyMark (.range m n) (s ++ '-' :: t)
  | namedRange {s t : Text} (hs : s.isName = true) (ht : t.isName = true) :
      Spelled anyMark (.namedRange s t) (s ++ '-' :: t)

/-- The texts of a term; a name keeps its spelling. -/
inductive Term.Spelled (anyMark : Bool) : Term → Text → Prop where
  | base {b : Base} {s : Text} (hb : b.Spelled anyMark s) : Spelled anyMark (.base b) s
  | name {s : Text} (hs : s.isName = true) : Spelled anyMark (.name s) s
  | period {b : Base} {k : Nat} {s t : Text} (hb : b.Spelled anyMark s)
      (ht : Text.Numeral.Spelled k t) (hk : 1 ≤ k) : Spelled anyMark (.period b k) (s ++ '/' :: t)

/-- The texts of a field: those of its terms, of which there is one at least, with commas between
them and white space added at the ends and next to operators. -/
def Field.Spelled (anyMark : Bool) (f : Field) (s : Text) : Prop :=
  ∃ pieces, pieces ≠ [] ∧ List.Forall₂ (Term.Spelled anyMark) f.terms pieces ∧
    Text.Padded true ([','].intercalate pieces) s

/-! ## Solid texts -/

namespace Text

/-- What holds of texts and is kept by putting a character between two of them holds of all of
them with that character between. -/
theorem intercalate_induction {P : Text → Prop} {c : Char}
    (hjoin : ∀ s t, P s → P t → P (s ++ c :: t)) {pieces : List Text} (hne : pieces ≠ [])
    (h : ∀ piece ∈ pieces, P piece) : P ([c].intercalate pieces) := by
  induction pieces with
  | nil => exact absurd rfl hne
  | cons piece pieces ih =>
    obtain ⟨hpiece, hpieces⟩ := List.forall_mem_cons.1 h
    cases pieces with
    | nil => simpa [List.intercalate] using hpiece
    | cons next pieces =>
      have hcons : [c].intercalate (piece :: next :: pieces) =
          piece ++ c :: [c].intercalate (next :: pieces) := by
        simp [List.intercalate]
      rw [hcons]
      exact hjoin piece _ hpiece (ih (List.cons_ne_nil next pieces) hpieces)

/-- A text without white space, and with no operators but the given ones. -/
def Solid (operators : List Char) (s : Text) : Prop :=
  ∀ c ∈ s, isBlank c = false ∧ (isOperator c = true → c ∈ operators)

namespace Solid

variable {operators : List Char} {c : Char} {s t : Text}

theorem isBlank_eq_false (h : Solid operators s) : ∀ c ∈ s, isBlank c = false :=
  fun c hc => (h c hc).1

theorem notMem (h : Solid operators s) (hc : isOperator c = true) (hout : c ∉ operators) :
    c ∉ s := by
  intro hmem
  exact hout ((h c hmem).2 hc)

theorem mono {more : List Char} (h : Solid operators s) (hsub : operators ⊆ more) :
    Solid more s := by
  intro c hc
  exact ⟨(h c hc).1, fun hop => hsub ((h c hc).2 hop)⟩

theorem append_cons (hs : Solid operators s) (ht : Solid operators t) (hmem : c ∈ operators)
    (hblank : isBlank c = false) : Solid operators (s ++ c :: t) := by
  rw [Solid, List.forall_mem_append, List.forall_mem_cons]
  exact ⟨hs, ⟨hblank, fun _ => hmem⟩, ht⟩

end Solid

theorem solid_of_toNat {s : Text} (h : ∀ c ∈ s, 48 ≤ c.toNat ∧ c.toNat ≤ 122) : Solid [] s := by
  intro c hc
  obtain ⟨hlo, hhi⟩ := h c hc
  constructor
  · simp only [isBlank, blankRanges, CodeRanges.contains, List.any_cons, List.any_nil,
      Bool.or_false, Bool.or_eq_false_iff, Bool.and_eq_false_iff, decide_eq_false_iff_not]
    omega
  · intro hop
    simp only [isOperator, Bool.or_eq_true, beq_iff_eq] at hop
    rcases hop with (rfl | rfl) | rfl <;> exact absurd hlo (by decide)

theorem toNat_of_isAlpha {c : Char} (h : c.isAlpha = true) : 65 ≤ c.toNat ∧ c.toNat ≤ 122 := by
  have hA : 'A'.val.toNat = 65 := rfl
  have hZ : 'Z'.val.toNat = 90 := rfl
  have ha : 'a'.val.toNat = 97 := rfl
  have hz : 'z'.val.toNat = 122 := rfl
  delta Char.isAlpha Char.isUpper Char.isLower at h
  simp only [Bool.decide_and, Bool.or_eq_true, Bool.and_eq_true, decide_eq_true_eq, ge_iff_le,
    UInt32.le_iff_toNat_le] at h
  rw [Char.toNat]
  omega

theorem toNat_of_isDigit {c : Char} (h : c.isDigit = true) : 48 ≤ c.toNat ∧ c.toNat ≤ 57 :=
  Char.isDigit_iff_toNat.1 h

theorem isName_iff {s : Text} : s.isName = true ↔ s ≠ [] ∧ ∀ c ∈ s, c.isAlpha = true := by
  simp [isName]

theorem solid_of_isName {s : Text} (h : s.isName = true) : Solid [] s := by
  apply solid_of_toNat
  intro c hc
  have := toNat_of_isAlpha ((isName_iff.1 h).2 c hc)
  omega

namespace Numeral

variable {s : Text} {n : Nat}

theorem Spelled.solid (h : Spelled n s) : Solid [] s := by
  apply solid_of_toNat
  intro c hc
  have := toNat_of_isDigit (h.isDigit c hc)
  omega

theorem read?_eq_some_iff_spelled : read? s = some n ↔ Spelled n s := by
  rw [read?_eq_some_iff, List.all_eq_true]
  exact ⟨fun ⟨h₁, h₂, h₃, h₄⟩ => ⟨h₁, h₂, h₃, h₄⟩, fun ⟨h₁, h₂, h₃, h₄⟩ => ⟨h₁, h₂, h₃, h₄⟩⟩

/-- A name is no numeral. -/
theorem read?_eq_none_of_isName (h : s.isName = true) : read? s = none := by
  rw [Option.eq_none_iff_forall_ne_some]
  intro n hn
  have hs := read?_eq_some_iff_spelled.1 hn
  obtain ⟨c, hc⟩ := List.exists_mem_of_ne_nil s hs.ne_nil
  have hlo := toNat_of_isAlpha ((isName_iff.1 h).2 c hc)
  have hhi := toNat_of_isDigit (hs.isDigit c hc)
  omega

end Numeral

/-! ## Cutting -/

section Cutting

variable {operators : List Char} {c : Char} {s t : Text}

theorem splitOn_of_solid (hs : Solid operators s) (hc : isOperator c = true)
    (hout : c ∉ operators) : s.splitOn c = [s] :=
  List.splitOn_eq_singleton (hs.notMem hc hout)

theorem splitOn_append_cons (hs : Solid operators s) (ht : Solid operators t)
    (hc : isOperator c = true) (hout : c ∉ operators) : (s ++ c :: t).splitOn c = [s, t] := by
  rw [List.splitOn_append_cons_self_of_not_mem (hs.notMem hc hout), splitOn_of_solid ht hc hout]

theorem eq_of_splitOn_eq_singleton (h : s.splitOn c = [t]) : s = t := by
  have := @List.intercalate_splitOn _ s _ _ c
  rw [h] at this
  simpa using this.symm

theorem eq_of_splitOn_eq_pair {p q : Text} (h : s.splitOn c = [p, q]) : s = p ++ c :: q := by
  have := @List.intercalate_splitOn _ s _ _ c
  rw [h] at this
  simpa [List.intercalate] using this.symm

end Cutting
end Text

/-! ## Bases -/

namespace Base

variable {anyMark : Bool} {s t : Text} {b : Base}

/-- A mark for every value is no numeral. -/
theorem read?_eq_none_of_isAllMark (h : s.isAllMark anyMark = true) :
    Text.Numeral.read? s = none := by
  simp only [Text.isAllMark, Bool.or_eq_true, Bool.and_eq_true, beq_iff_eq] at h
  rcases h with rfl | ⟨-, rfl⟩ <;> decide

theorem solid_of_isAllMark (h : s.isAllMark anyMark = true) : Text.Solid [] s := by
  simp only [Text.isAllMark, Bool.or_eq_true, Bool.and_eq_true, beq_iff_eq] at h
  rcases h with rfl | ⟨-, rfl⟩ <;> simp only [Text.Solid, List.mem_singleton, forall_eq] <;> decide

theorem spelled_all_iff : Spelled anyMark .all s ↔ s.isAllMark anyMark = true := by
  simp only [Text.isAllMark, Bool.or_eq_true, Bool.and_eq_true, beq_iff_eq]
  constructor
  · intro h
    cases h with
    | all => exact .inl rfl
    | any h => exact .inr ⟨h, rfl⟩
  · rintro (rfl | ⟨h, rfl⟩)
    · exact .all
    · exact .any h

theorem readSingle?_eq_some_iff : readSingle? anyMark s = some b ↔
    s.isAllMark anyMark = true ∧ b = .all ∨ ∃ n : Nat, Text.Numeral.Spelled n s ∧ b = .point n := by
  simp only [← Text.Numeral.read?_eq_some_iff_spelled]
  by_cases h : s.isAllMark anyMark = true
  · simp [readSingle?, h, read?_eq_none_of_isAllMark h, eq_comm]
  · cases hs : Text.Numeral.read? s <;> simp [readSingle?, h, hs, eq_comm]

theorem readRange?_eq_some_iff : readRange? s t = some b ↔
    (∃ m n : Nat, Text.Numeral.Spelled m s ∧ Text.Numeral.Spelled n t ∧ b = .range m n) ∨
      s.isName = true ∧ t.isName = true ∧ b = .namedRange s t := by
  simp only [← Text.Numeral.read?_eq_some_iff_spelled]
  by_cases h : (s.isName && t.isName) = true
  · obtain ⟨hs, ht⟩ := Bool.and_eq_true_iff.1 h
    have hnone := Text.Numeral.read?_eq_none_of_isName hs
    simp [readRange?, hnone, hs, ht, eq_comm]
  · have hname : ¬(s.isName = true ∧ t.isName = true ∧ b = .namedRange s t) := by
      rintro ⟨hs, ht, -⟩
      exact h (Bool.and_eq_true_iff.2 ⟨hs, ht⟩)
    rw [or_iff_left hname]
    cases hm : Text.Numeral.read? s with
    | none => simp [readRange?, hm, h]
    | some m => cases hn : Text.Numeral.read? t <;> simp [readRange?, hm, hn, h, eq_comm]

theorem spelled_of_read? (h : read? anyMark s = some b) : b.Spelled anyMark s := by
  rw [read?] at h
  split at h
  · rename_i p hp
    obtain rfl := Text.eq_of_splitOn_eq_singleton hp
    rcases readSingle?_eq_some_iff.1 h with ⟨hmark, rfl⟩ | ⟨n, hn, rfl⟩
    · exact spelled_all_iff.2 hmark
    · exact .point hn
  · rename_i p q hpq
    obtain rfl := Text.eq_of_splitOn_eq_pair hpq
    rcases readRange?_eq_some_iff.1 h with ⟨m, n, hm, hn, rfl⟩ | ⟨hp, hq, rfl⟩
    · exact .range hm hn
    · exact .namedRange hp hq
  · cases h

theorem read?_of_solid (hs : Text.Solid [] s) : read? anyMark s = readSingle? anyMark s := by
  rw [read?, Text.splitOn_of_solid hs rfl List.not_mem_nil]

theorem read?_append_cons (hs : Text.Solid [] s) (ht : Text.Solid [] t) :
    read? anyMark (s ++ '-' :: t) = readRange? s t := by
  rw [read?, Text.splitOn_append_cons hs ht rfl List.not_mem_nil]

theorem Spelled.read?_eq (h : b.Spelled anyMark s) : read? anyMark s = some b := by
  have hmark : ∀ {t : Text}, t.isAllMark anyMark = true → read? anyMark t = some .all := by
    intro t ht
    rw [read?_of_solid (solid_of_isAllMark ht), readSingle?_eq_some_iff]
    exact .inl ⟨ht, rfl⟩
  cases h with
  | all => exact hmark (spelled_all_iff.1 .all)
  | any h => exact hmark (spelled_all_iff.1 (.any h))
  | point hs =>
    rw [read?_of_solid hs.solid, readSingle?_eq_some_iff]
    exact .inr ⟨_, hs, rfl⟩
  | range hs ht =>
    rw [read?_append_cons hs.solid ht.solid, readRange?_eq_some_iff]
    exact .inl ⟨_, _, hs, ht, rfl⟩
  | namedRange hs ht =>
    rw [read?_append_cons (Text.solid_of_isName hs) (Text.solid_of_isName ht),
      readRange?_eq_some_iff]
    exact .inr ⟨hs, ht, rfl⟩

/-- Reading a base finds what its text spells. -/
theorem read?_eq_some_iff : read? anyMark s = some b ↔ b.Spelled anyMark s :=
  ⟨spelled_of_read?, Spelled.read?_eq⟩

theorem Spelled.solid (h : b.Spelled anyMark s) : Text.Solid ['-'] s := by
  have hrange : ∀ {t u : Text}, Text.Solid [] t → Text.Solid [] u →
      Text.Solid ['-'] (t ++ '-' :: u) := by
    intro t u ht hu
    exact (ht.mono (by simp)).append_cons (hu.mono (by simp)) (by simp) rfl
  cases h with
  | all => exact (solid_of_isAllMark (spelled_all_iff.1 (@Spelled.all anyMark))).mono (by simp)
  | any h => exact (solid_of_isAllMark (spelled_all_iff.1 (.any h))).mono (by simp)
  | point hs => exact hs.solid.mono (by simp)
  | range hs ht => exact hrange hs.solid ht.solid
  | namedRange hs ht => exact hrange (Text.solid_of_isName hs) (Text.solid_of_isName ht)

end Base

/-! ## Terms -/

namespace Term

variable {anyMark : Bool} {s t : Text} {a : Term}

/-- A name is no base. -/
theorem base_read?_eq_none_of_isName (h : s.isName = true) : Base.read? anyMark s = none := by
  rw [Base.read?_of_solid (Text.solid_of_isName h), Option.eq_none_iff_forall_ne_some]
  intro b hb
  rcases Base.readSingle?_eq_some_iff.1 hb with ⟨hmark, -⟩ | ⟨n, hn, -⟩
  · simp only [Text.isAllMark, Bool.or_eq_true, Bool.and_eq_true, beq_iff_eq] at hmark
    rcases hmark with rfl | ⟨-, rfl⟩ <;> exact absurd h (by decide)
  · rw [← Text.Numeral.read?_eq_some_iff_spelled, Text.Numeral.read?_eq_none_of_isName h] at hn
    cases hn

theorem readPlain?_eq_some_iff : readPlain? anyMark s = some a ↔
    (∃ b : Base, b.Spelled anyMark s ∧ a = .base b) ∨ s.isName = true ∧ a = .name s := by
  simp only [← Base.read?_eq_some_iff]
  by_cases h : s.isName = true
  · simp [readPlain?, h, base_read?_eq_none_of_isName h, eq_comm]
  · cases hb : Base.read? anyMark s <;> simp [readPlain?, h, hb, eq_comm]

theorem readPeriod?_eq_some_iff : readPeriod? anyMark s t = some a ↔
    ∃ (b : Base) (k : Nat), b.Spelled anyMark s ∧ Text.Numeral.Spelled k t ∧ 1 ≤ k ∧
      a = .period b k := by
  simp only [← Base.read?_eq_some_iff, ← Text.Numeral.read?_eq_some_iff_spelled]
  cases hb : Base.read? anyMark s with
  | none => simp [readPeriod?, hb]
  | some b =>
    cases hk : Text.Numeral.read? t with
    | none => simp [readPeriod?, hb, hk]
    | some k => by_cases hpos : 1 ≤ k <;> simp [readPeriod?, hb, hk, hpos, eq_comm]

/-- Reading a term finds what its text spells. -/
theorem read?_eq_some_iff : read? anyMark s = some a ↔ a.Spelled anyMark s := by
  constructor
  · intro h
    rw [read?] at h
    split at h
    · rename_i p hp
      obtain rfl := Text.eq_of_splitOn_eq_singleton hp
      rcases readPlain?_eq_some_iff.1 h with ⟨b, hb, rfl⟩ | ⟨hname, rfl⟩
      · exact .base hb
      · exact .name hname
    · rename_i p q hpq
      obtain rfl := Text.eq_of_splitOn_eq_pair hpq
      obtain ⟨b, k, hb, hk, hpos, rfl⟩ := readPeriod?_eq_some_iff.1 h
      exact .period hb hk hpos
    · cases h
  · intro h
    cases h with
    | base hb =>
      rw [read?, Text.splitOn_of_solid hb.solid rfl (by decide), readPlain?_eq_some_iff]
      exact .inl ⟨_, hb, rfl⟩
    | name hs =>
      rw [read?, Text.splitOn_of_solid (Text.solid_of_isName hs) rfl List.not_mem_nil,
        readPlain?_eq_some_iff]
      exact .inr ⟨hs, rfl⟩
    | period hb hk hpos =>
      rw [read?, Text.splitOn_append_cons hb.solid (hk.solid.mono (by simp)) rfl (by decide),
        readPeriod?_eq_some_iff]
      exact ⟨_, _, hb, hk, hpos, rfl⟩

theorem Spelled.solid (h : a.Spelled anyMark s) : Text.Solid ['-', '/'] s := by
  cases h with
  | base hb => exact hb.solid.mono (by simp)
  | name hs => exact (Text.solid_of_isName hs).mono (by simp)
  | period hb hk _ =>
    exact (hb.solid.mono (by simp)).append_cons (hk.solid.mono (by simp)) (by simp) rfl

end Term

/-! ## Fields -/

namespace Field

variable {anyMark : Bool} {s : Text} {f : Field}

theorem solid_of_mem {terms : List Term} {pieces : List Text}
    (h : List.Forall₂ (Term.Spelled anyMark) terms pieces) :
    ∀ piece ∈ pieces, Text.Solid ['-', '/'] piece := by
  intro piece hpiece
  obtain ⟨a, -, ha⟩ := exists_mem_of_forall₂ h hpiece
  exact ha.solid

theorem solid_intercalate {pieces : List Text}
    (h : ∀ piece ∈ pieces, Text.Solid ['-', '/'] piece) :
    Text.Solid [',', '-', '/'] ([','].intercalate pieces) := by
  by_cases hne : pieces = []
  · subst hne
    simp [Text.Solid]
  · refine Text.intercalate_induction (fun s t hs ht => hs.append_cons ht (by simp) rfl) hne ?_
    intro piece hpiece
    exact (h piece hpiece).mono (by simp)

/-- Reading a field finds what its text spells. -/
theorem read?_eq_some_iff : read? anyMark s = some f ↔ f.Spelled anyMark s := by
  have hread : ∀ pieces : List Text, pieces.mapM (Term.read? anyMark) = some f.terms ↔
      List.Forall₂ (Term.Spelled anyMark) f.terms pieces := by
    intro pieces
    rw [mapM_eq_some_iff]
    simp only [Term.read?_eq_some_iff]
  have hmk : read? anyMark s = some f ↔
      ((Text.tighten s).splitOn ',').mapM (Term.read? anyMark) = some f.terms := by
    rw [read?, Option.map_eq_some_iff]
    constructor
    · rintro ⟨terms, hterms, rfl⟩
      exact hterms
    · intro h
      exact ⟨f.terms, h, rfl⟩
  rw [hmk, hread]
  constructor
  · intro h
    refine ⟨(Text.tighten s).splitOn ',', List.splitOn_ne_nil _ _, h, ?_⟩
    have hsolid := solid_intercalate (solid_of_mem h)
    rw [← Text.tighten_eq_iff_padded hsolid.isBlank_eq_false, List.intercalate_splitOn]
  · rintro ⟨pieces, hne, hterms, hpad⟩
    have hsolid := solid_of_mem hterms
    have hcomma : ∀ piece ∈ pieces, ',' ∉ piece :=
      fun piece hpiece => (hsolid piece hpiece).notMem rfl (by decide)
    rw [(Text.tighten_eq_iff_padded (solid_intercalate hsolid).isBlank_eq_false).2 hpad,
      List.splitOn_intercalate ',' hcomma hne]
    exact hterms

example : read? true " ? / 02 , MON - fri".toList =
    some ⟨[.period .all 2, .base (.namedRange "MON".toList "fri".toList)]⟩ := by
  decide

/-- A text spells at most one field. -/
theorem Spelled.unique {g : Field} (hf : f.Spelled anyMark s) (hg : g.Spelled anyMark s) :
    f = g := by
  rw [← read?_eq_some_iff] at hf hg
  exact Option.some.inj (hf.symm.trans hg)

theorem parse_eq_ok_iff : parse anyMark s = .ok f ↔ f.Spelled anyMark s := by
  rw [← read?_eq_some_iff, parse]
  cases read? anyMark s <;> simp

theorem parse_eq_error_iff {p : Problem} :
    parse anyMark s = .error p ↔ p = .malformedField s ∧ ∀ f : Field, ¬f.Spelled anyMark s := by
  simp only [← read?_eq_some_iff, parse]
  cases read? anyMark s <;> simp [eq_comm]

/-- A text is accepted exactly when it spells a field, which is then the one that is read and the
only one it spells; every other text is malformed. -/
theorem parse_exact (anyMark : Bool) (s : Text) :
    (∀ f : Field, parse anyMark s = .ok f ↔ f.Spelled anyMark s) ∧
      (∀ p : Problem, parse anyMark s = .error p ↔
        p = .malformedField s ∧ ∀ f : Field, ¬f.Spelled anyMark s) ∧
      ∀ f g : Field, f.Spelled anyMark s → g.Spelled anyMark s → f = g := by
  refine ⟨fun f => parse_eq_ok_iff, fun p => parse_eq_error_iff, ?_⟩
  intro f g hf hg
  exact hf.unique hg

end Field
end Timetable
