import Timetable.Settings
import Timetable.Proofs.Grammar
import Mathlib.Data.Nat.Digits.Defs
import Mathlib.Data.Nat.Digits.Lemmas
import Mathlib.Data.List.Pairwise
import Mathlib.Data.List.TakeWhile

/-!
# Numbers in texts and settings

The digits of a number stand in a text with the most significant first, so that what they stand for
is less than the power of ten that their number gives.  Texts have at most `longestNumeral` digits,
and hence whatever number is read from one can be written again.

Settings admit more than the fields of an expression do: a sign, digits of any script, underscores
between two digits, white space around all of that.  Which texts stand for an integer, and for which
one, is said here without a way to find it; the reader of settings finds it.

## Main definitions

* `Text.DigitOf`: the digits of all scripts and their values.
* `Text.Integer.Magnitude`, `Text.Integer.Signed`, `Text.Integer.Spelled`: the texts of integers.
* `Environment.Gives`, `Environment.Refused`: the limit of an environment, or why it has none.

## Main statements

* `Text.Integer.read?_eq_some_iff_spelled`: the reader finds what a text stands for.
* `Environment.yearLimit_eq_ok_iff`, `Environment.yearLimit_eq_error_iff`: the limit by the text of
  its setting.
-/

namespace Timetable

namespace Text

/-! ## The value of digits -/

theorem Integer.ofDigitValues_eq_ofDigits (ds : List Nat) :
    ofDigitValues ds = Nat.ofDigits 10 ds.reverse := by
  rw [ofDigitValues, Nat.ofDigits_eq_foldr, List.foldr_reverse]
  simp only [Nat.cast_id, Nat.add_comm]

theorem Integer.ofDigitValues_lt {ds : List Nat} {k : Nat} (h : ∀ d ∈ ds, d < 10)
    (hlength : ds.length ≤ k) : ofDigitValues ds < Numeral.leastLonger k := by
  rw [ofDigitValues_eq_ofDigits]
  have hlt : Nat.ofDigits 10 ds.reverse < 10 ^ ds.reverse.length :=
    Nat.ofDigits_lt_base_pow_length (by decide) fun d hd => h d (List.mem_reverse.1 hd)
  rw [List.length_reverse] at hlt
  exact hlt.trans_le (Nat.pow_le_pow_right (by decide) hlength)

/-- A number of few enough digits can be written. -/
theorem Integer.writable_ofDigitValues {ds : List Nat} (h : ∀ d ∈ ds, d < 10)
    (hlength : ds.length ≤ longestNumeral) : Writable (ofDigitValues ds : Nat) := by
  rw [writable_iff, Int.natAbs_natCast]
  exact ofDigitValues_lt h hlength

/-! ## The digits of all scripts -/

/-- A character is a digit with some value: it is that far from the zero of its script. -/
def DigitOf (d : Nat) (c : Char) : Prop :=
  d < 10 ∧ ∃ first ∈ zeroCodes, c.toNat = first + d

/-- The scripts are listed in ascending order of their digits. -/
theorem pairwise_zeroCodes : zeroCodes.Pairwise fun first other => first + 10 ≤ other := by
  decide

/-- No digit of one script is a digit of another. -/
theorem zeroCodes_apart {first other : Nat} (hfirst : first ∈ zeroCodes)
    (hother : other ∈ zeroCodes) :
    first = other ∨ first + 10 ≤ other ∨ other + 10 ≤ first := by
  refine List.Pairwise.forall_of_forall_of_flip
    (R := fun a b => a = b ∨ a + 10 ≤ b ∨ b + 10 ≤ a) ?_ ?_ ?_ hfirst hother
  · exact fun a _ => .inl rfl
  · exact pairwise_zeroCodes.imp fun h => .inr (.inl h)
  · exact pairwise_zeroCodes.imp fun h => .inr (.inr h)

theorem digitValue?_eq_some_iff {c : Char} {d : Nat} : digitValue? c = some d ↔ DigitOf d c := by
  rw [digitValue?, Option.map_eq_some_iff]
  constructor
  · rintro ⟨first, hfind, rfl⟩
    have hrange := List.find?_some hfind
    simp only [Bool.and_eq_true, decide_eq_true_eq] at hrange
    exact ⟨by omega, first, List.mem_of_find?_eq_some hfind, by omega⟩
  · rintro ⟨hd, first, hfirst, hc⟩
    cases hfind : zeroCodes.find? fun other => other ≤ c.toNat && c.toNat < other + 10 with
    | none =>
      have hout := List.find?_eq_none.1 hfind first hfirst
      simp only [Bool.and_eq_true, decide_eq_true_eq] at hout
      omega
    | some other =>
      have hrange := List.find?_some hfind
      simp only [Bool.and_eq_true, decide_eq_true_eq] at hrange
      have hsame := zeroCodes_apart hfirst (List.mem_of_find?_eq_some hfind)
      exact ⟨other, rfl, by omega⟩

/-- Digits stand clear of white space, signs and the underscore. -/
theorem zeroCodes_clear : ∀ first ∈ zeroCodes,
    (∀ r ∈ blankRanges, first + 10 ≤ r.1 ∨ r.2 < first) ∧
      '-'.toNat < first ∧ (first + 10 ≤ '_'.toNat ∨ '_'.toNat < first) := by
  decide

namespace DigitOf

variable {d : Nat} {c : Char}

theorem of_isDigit (h : c.isDigit = true) : DigitOf (c.toNat - 48) c :=
  digitValue?_eq_some_iff.1 (digitValue?_of_isDigit h)

theorem isBlank_eq_false (h : DigitOf d c) : isBlank c = false := by
  obtain ⟨hd, first, hfirst, hc⟩ := h
  rw [isBlank, Bool.eq_false_iff, ne_eq, CodeRanges.contains_iff]
  rintro ⟨r, hr, hlo, hhi⟩
  have hclear := (zeroCodes_clear first hfirst).1 r hr
  omega

theorem minus_lt (h : DigitOf d c) : '-'.toNat < c.toNat := by
  obtain ⟨hd, first, hfirst, hc⟩ := h
  have hclear := (zeroCodes_clear first hfirst).2.1
  omega

theorem ne_underscore (h : DigitOf d c) : c ≠ '_' := by
  rintro rfl
  obtain ⟨hd, first, hfirst, hc⟩ := h
  have hclear := (zeroCodes_clear first hfirst).2.2
  omega

end DigitOf

/-! ## White space around a text -/

/-- What is left of a text after the removal of white space stands in it between white space. -/
theorem exists_eq_append_strip (s : Text) : ∃ before after : Text,
    (∀ c ∈ before, isBlank c = true) ∧ (∀ c ∈ after, isBlank c = true) ∧
      s = before ++ strip s ++ after := by
  refine ⟨s.takeWhile isBlank, ((s.dropWhile isBlank).reverse.takeWhile isBlank).reverse,
    fun c hc => List.mem_takeWhile_imp hc,
    fun c hc => List.mem_takeWhile_imp (List.mem_reverse.1 hc), ?_⟩
  rw [strip, List.append_assoc, ← List.reverse_append, List.takeWhile_append_dropWhile,
    List.reverse_reverse, List.takeWhile_append_dropWhile]

theorem dropWhile_isBlank_append {before s : Text} (hbefore : ∀ c ∈ before, isBlank c = true)
    (h : ∀ c ∈ s.head?, isBlank c = false) : (before ++ s).dropWhile isBlank = s := by
  rw [List.dropWhile_append_of_pos hbefore]
  cases s with
  | nil => rfl
  | cons c rest => exact List.dropWhile_cons_of_neg (by simp [h c rfl])

/-- White space around a text without any is removed, and nothing else. -/
theorem strip_append {before s after : Text} (hbefore : ∀ c ∈ before, isBlank c = true)
    (hafter : ∀ c ∈ after, isBlank c = true) (hne : s ≠ []) (h : ∀ c ∈ s, isBlank c = false) :
    strip (before ++ s ++ after) = s := by
  have hhead : ∀ c ∈ (s ++ after).head?, isBlank c = false := by
    intro c hc
    rw [List.head?_append_of_ne_nil _ hne] at hc
    exact h c (List.mem_of_mem_head? hc)
  have hlast : ∀ c ∈ s.reverse.head?, isBlank c = false :=
    fun c hc => h c (List.mem_reverse.1 (List.mem_of_mem_head? hc))
  rw [strip, List.append_assoc, dropWhile_isBlank_append hbefore hhead, List.reverse_append,
    dropWhile_isBlank_append (fun c hc => hafter c (List.mem_reverse.1 hc)) hlast,
    List.reverse_reverse]

/-! ## The texts of integers -/

namespace Integer

/-- A group of digits. -/
structure Group (ds : List Nat) (s : Text) : Prop where
  ne_nil : s ≠ []
  digits : List.Forall₂ DigitOf ds s

/-- The texts of an integer without its sign: groups of digits with one underscore between two
groups, up to `longestNumeral` digits, leading zeros allowed. -/
def Magnitude (n : Nat) (s : Text) : Prop :=
  ∃ groups pieces, pieces ≠ [] ∧ List.Forall₂ Group groups pieces ∧ ['_'].intercalate pieces = s ∧
    groups.flatten.length ≤ longestNumeral ∧ Nat.ofDigits 10 groups.flatten.reverse = n

/-- The texts of an integer with an optional sign, which negative integers need and zero may
have. -/
inductive Signed : Int → Text → Prop where
  | bare {n : Nat} {s : Text} (h : Magnitude n s) : Signed n s
  | plus {n : Nat} {s : Text} (h : Magnitude n s) : Signed n ('+' :: s)
  | minus {n : Nat} {s : Text} (h : Magnitude n s) : Signed (-n) ('-' :: s)

/-- The texts of an integer: white space may surround it. -/
def Spelled (n : Int) (s : Text) : Prop :=
  ∃ before body after, (∀ c ∈ before, isBlank c = true) ∧ (∀ c ∈ after, isBlank c = true) ∧
    Signed n body ∧ s = before ++ body ++ after

variable {n : Nat} {ds : List Nat} {s : Text}

theorem group?_eq_some_iff : group? s = some ds ↔ Group ds s := by
  rw [group?]
  split
  · rename_i hnil
    simp only [reduceCtorEq, false_iff]
    exact fun h => h.ne_nil hnil
  · rename_i hne
    simp only [mapM_eq_some_iff, digitValue?_eq_some_iff]
    exact ⟨fun h => ⟨hne, h⟩, fun h => h.digits⟩

theorem Group.digitOf (h : Group ds s) : ∀ c ∈ s, ∃ d, DigitOf d c := by
  intro c hc
  obtain ⟨d, -, hd⟩ := exists_mem_of_forall₂ h.digits hc
  exact ⟨d, hd⟩

theorem Group.lt_ten (h : Group ds s) : ∀ d ∈ ds, d < 10 := by
  intro d hd
  obtain ⟨c, -, hc⟩ := exists_mem_of_forall₂ h.digits.flip hd
  exact hc.1

theorem magnitude?_eq_some_iff : magnitude? s = some n ↔ Magnitude n s := by
  have hread : magnitude? s = some n ↔ ∃ groups, List.Forall₂ Group groups (s.splitOn '_') ∧
      groups.flatten.length ≤ longestNumeral ∧ Nat.ofDigits 10 groups.flatten.reverse = n := by
    simp only [magnitude?, Option.bind_eq_bind, Option.bind_eq_some_iff, mapM_eq_some_iff,
      group?_eq_some_iff, Option.ite_none_right_eq_some, Option.some.injEq,
      ofDigitValues_eq_ofDigits]
  rw [hread]
  constructor
  · rintro ⟨groups, hgroups, hlength, hvalue⟩
    exact ⟨groups, s.splitOn '_', List.splitOn_ne_nil _ _, hgroups, List.intercalate_splitOn _,
      hlength, hvalue⟩
  · rintro ⟨groups, pieces, hne, hgroups, rfl, hlength, hvalue⟩
    have hpieces : ∀ piece ∈ pieces, '_' ∉ piece := by
      intro piece hpiece hmem
      obtain ⟨ds, -, hds⟩ := exists_mem_of_forall₂ hgroups hpiece
      obtain ⟨d, hd⟩ := hds.digitOf '_' hmem
      exact hd.ne_underscore rfl
    rw [List.splitOn_intercalate '_' hpieces hne]
    exact ⟨groups, hgroups, hlength, hvalue⟩

namespace Magnitude

/-- A magnitude begins with a digit and has no white space. -/
theorem head_and_chars (h : Magnitude n s) :
    (∃ c rest d, s = c :: rest ∧ DigitOf d c) ∧ ∀ c ∈ s, isBlank c = false := by
  obtain ⟨groups, pieces, hne, hgroups, rfl, -, -⟩ := h
  refine intercalate_induction (P := fun t : Text =>
    (∃ c rest d, t = c :: rest ∧ DigitOf d c) ∧ ∀ c ∈ t, isBlank c = false) ?_ hne ?_
  · rintro s t ⟨⟨c, rest, d, rfl, hd⟩, hs⟩ ⟨-, ht⟩
    refine ⟨⟨c, _, d, rfl, hd⟩, ?_⟩
    rw [List.forall_mem_append]
    exact ⟨hs, List.forall_mem_cons.2 ⟨rfl, ht⟩⟩
  · intro piece hpiece
    obtain ⟨ds, -, hds⟩ := exists_mem_of_forall₂ hgroups hpiece
    refine ⟨?_, fun c hc => ?_⟩
    · obtain ⟨c, rest, rfl⟩ := List.exists_cons_of_ne_nil hds.ne_nil
      obtain ⟨d, hd⟩ := hds.digitOf c List.mem_cons_self
      exact ⟨c, rest, d, rfl, hd⟩
    · obtain ⟨d, hd⟩ := hds.digitOf c hc
      exact hd.isBlank_eq_false

theorem isBlank_eq_false (h : Magnitude n s) : ∀ c ∈ s, isBlank c = false :=
  h.head_and_chars.2

/-- No magnitude begins with a sign. -/
theorem ne_cons {c : Char} {rest : Text} (h : Magnitude n s) (hc : c.toNat ≤ '-'.toNat) :
    s ≠ c :: rest := by
  obtain ⟨⟨c', rest', d, rfl, hd⟩, -⟩ := h.head_and_chars
  intro heq
  cases heq
  exact absurd hd.minus_lt (Nat.not_lt_of_le hc)

theorem ne_nil (h : Magnitude n s) : s ≠ [] := by
  obtain ⟨⟨c, rest, d, rfl, -⟩, -⟩ := h.head_and_chars
  exact List.cons_ne_nil _ _

/-- What has a magnitude can be written. -/
theorem writable (h : Magnitude n s) : Writable n := by
  obtain ⟨groups, pieces, -, hgroups, -, hlength, rfl⟩ := h
  rw [← ofDigitValues_eq_ofDigits]
  refine writable_ofDigitValues ?_ hlength
  intro d hd
  obtain ⟨ds, hds, hd⟩ := List.mem_flatten.1 hd
  obtain ⟨piece, -, hgroup⟩ := exists_mem_of_forall₂ hgroups.flip hds
  exact hgroup.lt_ten d hd

/-- A numeral is a magnitude with the same number. -/
theorem of_numeral (h : Numeral.Spelled n s) : Magnitude n s := by
  refine ⟨[s.map fun c => c.toNat - 48], [s], List.cons_ne_nil _ _,
    .cons ⟨h.ne_nil, ?_⟩ .nil, by simp, by simpa using h.length_le, ?_⟩
  · rw [List.forall₂_map_left_iff, List.forall₂_same]
    exact fun c hc => DigitOf.of_isDigit (h.isDigit c hc)
  · rw [List.flatten_singleton, ← ofDigitValues_eq_ofDigits, ← h.value, ofDigitValues,
      List.foldl_map]
    rfl

end Magnitude

/-- What has a numeral can be written, although the numeral may not be the shortest. -/
theorem writable_of_numeral (h : Numeral.Spelled n s) : Writable n :=
  (Magnitude.of_numeral h).writable

namespace Signed

variable {n : Int}

theorem ne_nil (h : Signed n s) : s ≠ [] := by
  cases h with
  | bare h => exact h.ne_nil
  | plus h | minus h => exact List.cons_ne_nil _ _

theorem isBlank_eq_false (h : Signed n s) : ∀ c ∈ s, isBlank c = false := by
  cases h with
  | bare h => exact h.isBlank_eq_false
  | plus h | minus h => exact List.forall_mem_cons.2 ⟨rfl, h.isBlank_eq_false⟩

theorem writable (h : Signed n s) : Writable n := by
  cases h with
  | bare h | plus h => exact h.writable
  | minus h => exact writable_neg.2 h.writable

theorem plus_iff : Signed n ('+' :: s) ↔ ∃ m : Nat, Magnitude m s ∧ (m : Int) = n := by
  constructor
  · intro h
    generalize ht : '+' :: s = t at h
    cases h with
    | bare h => exact absurd ht.symm (h.ne_cons (by decide))
    | plus h =>
      cases ht
      exact ⟨_, h, rfl⟩
    | minus h => cases ht
  · rintro ⟨m, hm, rfl⟩
    exact .plus hm

theorem minus_iff : Signed n ('-' :: s) ↔ ∃ m : Nat, Magnitude m s ∧ -(m : Int) = n := by
  constructor
  · intro h
    generalize ht : '-' :: s = t at h
    cases h with
    | bare h => exact absurd ht.symm (h.ne_cons (by decide))
    | plus h => cases ht
    | minus h =>
      cases ht
      exact ⟨_, h, rfl⟩
  · rintro ⟨m, hm, rfl⟩
    exact .minus hm

theorem bare_iff (hplus : ∀ rest, s ≠ '+' :: rest) (hminus : ∀ rest, s ≠ '-' :: rest) :
    Signed n s ↔ ∃ m : Nat, Magnitude m s ∧ (m : Int) = n := by
  constructor
  · intro h
    cases h with
    | bare h => exact ⟨_, h, rfl⟩
    | plus h => exact absurd rfl (hplus _)
    | minus h => exact absurd rfl (hminus _)
  · rintro ⟨m, hm, rfl⟩
    exact .bare hm

end Signed

variable {n : Int}

theorem read?_eq_some_iff_signed : read? s = some n ↔ Signed n (strip s) := by
  rw [read?]
  split
  · rename_i rest hs
    simp only [Option.map_eq_some_iff, magnitude?_eq_some_iff, hs, Signed.plus_iff]
  · rename_i rest hs
    simp only [Option.map_eq_some_iff, magnitude?_eq_some_iff, hs, Signed.minus_iff]
  · rename_i hplus hminus
    simp only [Option.map_eq_some_iff, magnitude?_eq_some_iff, Signed.bare_iff hplus hminus]

/-- Reading a setting finds the integer that its text stands for. -/
theorem read?_eq_some_iff_spelled : read? s = some n ↔ Spelled n s := by
  rw [read?_eq_some_iff_signed]
  constructor
  · intro h
    obtain ⟨before, after, hbefore, hafter, hs⟩ := exists_eq_append_strip s
    exact ⟨before, strip s, after, hbefore, hafter, h, hs⟩
  · rintro ⟨before, body, after, hbefore, hafter, hbody, rfl⟩
    rw [strip_append hbefore hafter hbody.ne_nil hbody.isBlank_eq_false]
    exact hbody

/-- A text stands for at most one integer. -/
theorem Spelled.unique {m : Int} (hn : Spelled n s) (hm : Spelled m s) : n = m :=
  Option.some.inj ((read?_eq_some_iff_spelled.2 hn).symm.trans (read?_eq_some_iff_spelled.2 hm))

/-- What is read from a text can be written. -/
theorem Spelled.writable (h : Spelled n s) : Writable n := by
  obtain ⟨before, body, after, -, -, hbody, -⟩ := h
  exact hbody.writable

/-- A numeral stands for its number as a setting, too. -/
theorem Spelled.of_numeral {n : Nat} (h : Numeral.Spelled n s) : Spelled n s :=
  ⟨[], s, [], by simp, by simp, .bare (.of_numeral h), by simp⟩

example : read? " +1_0٣\t".toList = some 103 := by
  decide

end Integer

end Text

/-! ## The limit of an environment -/

namespace Environment

/-- An environment gives a limit: the default one where it sets none, or else the positive integer
that its setting stands for. -/
inductive Gives (env : Environment) : Int → Prop where
  | unset (h : env.maxSearchYears = none) : env.Gives defaultYearLimit
  | set {value : Text} {limit : Int} (h : env.maxSearchYears = some value)
      (hvalue : Text.Integer.Spelled limit value) (hlimit : 1 ≤ limit) : env.Gives limit

/-- An environment has no limit: its setting stands for no integer, or for one that is not
positive. -/
inductive Refused (env : Environment) : SettingError → Prop where
  | notInteger {value : Text} (h : env.maxSearchYears = some value)
      (hvalue : ∀ n : Int, ¬Text.Integer.Spelled n value) :
      env.Refused (.notInteger maxSearchYearsName value)
  | notPositive {value : Text} {n : Int} (h : env.maxSearchYears = some value)
      (hvalue : Text.Integer.Spelled n value) (hn : n < 1) :
      env.Refused (.notPositive maxSearchYearsName value)

variable {env : Environment}

/-- The limit of an environment can be written. -/
theorem Gives.writable {limit : Int} (h : env.Gives limit) : Text.Writable limit := by
  cases h with
  | unset _ => exact Text.writable_of_natAbs_lt (by decide)
  | set _ hvalue _ => exact hvalue.writable

theorem yearLimit_eq_ok_iff {limit : Int} : env.yearLimit = .ok limit ↔ env.Gives limit := by
  rw [yearLimit]
  constructor
  · intro h
    split at h
    · rename_i hunset
      cases h
      exact .unset hunset
    · rename_i value hset
      rw [Setting.readPositive] at h
      split at h
      · cases h
      · rename_i n hread
        split at h
        · cases h
          exact .set hset (Text.Integer.read?_eq_some_iff_spelled.1 hread) ‹1 ≤ limit›
        · cases h
  · intro h
    cases h with
    | unset h => rw [h]
    | set h hvalue hlimit =>
      simp only [h, Setting.readPositive, Text.Integer.read?_eq_some_iff_spelled.2 hvalue,
        if_pos hlimit]

theorem yearLimit_eq_error_iff {p : SettingError} :
    env.yearLimit = .error p ↔ env.Refused p := by
  rw [yearLimit]
  constructor
  · intro h
    split at h
    · cases h
    · rename_i value hset
      rw [Setting.readPositive] at h
      split at h
      · rename_i hread
        cases h
        refine .notInteger hset fun n hn => ?_
        rw [Text.Integer.read?_eq_some_iff_spelled.2 hn] at hread
        cases hread
      · rename_i n hread
        split at h
        · cases h
        · rename_i hn
          cases h
          exact .notPositive hset (Text.Integer.read?_eq_some_iff_spelled.1 hread)
            (Int.not_le.1 hn)
  · intro h
    cases h with
    | notInteger h hvalue =>
      have hread := Option.eq_none_iff_forall_ne_some.2 fun n hn =>
        hvalue n (Text.Integer.read?_eq_some_iff_spelled.1 hn)
      simp only [h, Setting.readPositive, hread]
    | notPositive h hvalue hn =>
      simp only [h, Setting.readPositive, Text.Integer.read?_eq_some_iff_spelled.2 hvalue,
        if_neg (Int.not_le.2 hn)]

end Environment
end Timetable
