import Timetable.Proofs.Layout

/-!
# Cutting an expression into its fields

The fields of an expression are found in one pass: a character other than white space ends its
field when white space or nothing follows it that is not next to an operator.  So a text may be put
in front of others and is cut off again, provided that it does not end with an operator and the next
one does not begin with one.

## Main definitions

* `Text.endsField`: a field ends after a character.
* `Text.Closed`: a text that stays in one piece between white space.

## Main statements

* `Text.splitFields_cons`: one character of the pass.
* `Text.splitFields_append`: a padded closed text in front of others is cut off as the first field.
* `Text.exists_append_of_splitFields_eq_cons`: the first field is such a padded text.
-/

namespace Timetable.Text

/-! ## One pass -/

/-- Whether a field ends after a character: only white space follows, or there is white space
between it and the next character and neither of these is an operator. -/
def endsField (c : Char) (rest : Text) : Bool :=
  rest.all isBlank || startsBlank rest && !isOperator c && !opensJoined rest

section Ends

variable {c : Char} {s w rest : Text}

/-- A field ends before white space at the end. -/
theorem endsField_of_blanks (h : ∀ x ∈ rest, isBlank x = true) : endsField c rest = true := by
  simp [endsField, List.all_eq_true.2 h]

theorem startsBlank_of_endsField (h : endsField c rest = true) : startsBlank rest = true := by
  cases rest with
  | nil => rfl
  | cons x rest =>
    simp only [endsField, Bool.or_eq_true, Bool.and_eq_true, List.all_cons] at h
    rcases h with ⟨hx, -⟩ | ⟨⟨hx, -⟩, -⟩
    · exact hx
    · exact hx

theorem startsBlank_blanks_append (hw : ∀ x ∈ w, isBlank x = true) :
    startsBlank (w ++ s) = (!w.isEmpty || startsBlank s) := by
  cases w with
  | nil => rfl
  | cons x w => exact hw x List.mem_cons_self

end Ends

theorem startsBlank_tightenFrom (joined : Bool) (s : Text) :
    startsBlank (tightenFrom joined s) =
      (s.all isBlank || startsBlank s && !joined && !opensJoined s) := by
  induction s with
  | nil => rfl
  | cons c rest ih =>
    by_cases hc : isBlank c = true
    · by_cases hdrop : (joined || opensJoined rest) = true
      · have hkept : (!joined && !opensJoined rest) = false := by
          rw [← Bool.not_or, hdrop, Bool.not_true]
        rw [tightenFrom, hc, hdrop, Bool.and_self, if_pos rfl, ih, opensJoined_cons, if_pos hc,
          Bool.and_assoc, Bool.and_assoc, hkept, Bool.and_false, Bool.and_false, List.all_cons, hc,
          Bool.true_and]
      · rw [Bool.not_eq_true, Bool.or_eq_false_iff] at hdrop
        simp [tightenFrom, startsBlank, opensJoined_cons, hc, hdrop]
    · rw [Bool.not_eq_true] at hc
      simp [tightenFrom_cons hc, startsBlank, hc]

theorem tightenFrom_true_blank_cons {c : Char} {rest : Text} (hc : isBlank c = true) :
    tightenFrom true (c :: rest) = tightenFrom true rest := by
  simp [tightenFrom, hc]

/-- The words of a tightened text do not depend on what stands before it. -/
theorem words_tightenFrom (joined : Bool) (s : Text) :
    words (tightenFrom joined s) = splitFields s := by
  rw [splitFields, tighten_eq_tightenFrom]
  induction s generalizing joined with
  | nil => rfl
  | cons c rest ih =>
    by_cases hc : isBlank c = true
    · rw [tightenFrom_true_blank_cons hc, tightenFrom]
      split
      · exact ih joined
      · rw [words_blank_cons hc, ih]
    · rw [Bool.not_eq_true] at hc
      rw [tightenFrom_cons hc, tightenFrom_cons hc]

@[simp] theorem splitFields_nil : splitFields [] = [] := rfl

section Pass

variable {c : Char} {s t w rest : Text}

theorem splitFields_blank_cons (hc : isBlank c = true) :
    splitFields (c :: rest) = splitFields rest := by
  rw [← words_tightenFrom true, tightenFrom_true_blank_cons hc, words_tightenFrom]

theorem splitFields_blanks_append (hw : ∀ x ∈ w, isBlank x = true) :
    splitFields (w ++ rest) = splitFields rest := by
  induction w with
  | nil => rfl
  | cons x w ih =>
    obtain ⟨hx, hw⟩ := List.forall_mem_cons.1 hw
    rw [List.cons_append, splitFields_blank_cons hx, ih hw]

/-- A character other than white space is a field by itself or belongs to the first of those that
follow. -/
theorem splitFields_cons (hc : isBlank c = false) : splitFields (c :: rest) =
    if endsField c rest then [c] :: splitFields rest
    else (splitFields rest).modifyHead (c :: ·) := by
  rw [← words_tightenFrom true, tightenFrom_cons hc, words, hc, if_neg Bool.false_ne_true,
    startsBlank_tightenFrom, words_tightenFrom]
  rfl

theorem splitFields_eq_nil_iff : splitFields s = [] ↔ ∀ c ∈ s, isBlank c = true := by
  constructor
  · intro h
    have hfilter : s.filter (fun c => !isBlank c) = [] := by
      rw [← flatten_splitFields, h, List.flatten_nil]
    simpa using hfilter
  · intro h
    rw [← List.append_nil s, splitFields_blanks_append h, splitFields_nil]

/-- The fields of an expression hold no white space. -/
theorem isBlank_eq_false_of_mem_splitFields (ht : t ∈ splitFields s) (hc : c ∈ t) :
    isBlank c = false := by
  have hmem : c ∈ s.filter fun c => !isBlank c := by
    rw [← flatten_splitFields]
    exact List.mem_flatten.2 ⟨t, ht, hc⟩
  simpa using (List.mem_filter.1 hmem).2

end Pass

/-! ## Closed texts -/

/-- A text that stays in one piece and apart from others when there is white space around it: it
holds none itself and neither begins nor ends with an operator. -/
structure Closed (t : Text) : Prop where
  ne_nil : t ≠ []
  isBlank_eq_false : ∀ c ∈ t, isBlank c = false
  head : ∀ c, t.head? = some c → isOperator c = false
  last : ∀ c, t.getLast? = some c → isOperator c = false

namespace Closed

variable {c : Char} {s t : Text}

/-- Closed texts on both sides of an operator are one closed text. -/
theorem append_cons (hs : Closed s) (ht : Closed t) (hc : isBlank c = false) :
    Closed (s ++ c :: t) where
  ne_nil := by simp
  isBlank_eq_false := by
    rw [List.forall_mem_append, List.forall_mem_cons]
    exact ⟨hs.isBlank_eq_false, hc, ht.isBlank_eq_false⟩
  head d hd := by
    rw [List.head?_append_of_ne_nil _ hs.ne_nil] at hd
    exact hs.head d hd
  last d hd := by
    rw [List.getLast?_append_of_ne_nil _ (List.cons_ne_nil c t),
      List.getLast?_cons_of_ne_nil ht.ne_nil] at hd
    exact ht.last d hd

end Closed

/-! ## The first field -/

section First

variable {joined : Bool} {c d : Char} {s t w rest : Text}

/-- A text without white space is padded by itself. -/
theorem Padded.refl (ht : ∀ c ∈ t, isBlank c = false) : Padded joined t t := by
  induction t generalizing joined with
  | nil => exact .nil (by simp)
  | cons c t ih =>
    exact (ih (List.forall_mem_cons.1 ht).2).tight_cons

theorem tighten_eq_self (ht : ∀ c ∈ t, isBlank c = false) : tighten t = t :=
  (tighten_eq_iff_padded ht).2 (.refl ht)

/-- A padded text without white space is not padded at all. -/
theorem Padded.eq_of_isBlank_eq_false (h : Padded true t s)
    (ht : ∀ c ∈ t, isBlank c = false) (hs : ∀ c ∈ s, isBlank c = false) : s = t := by
  rw [← tighten_eq_self hs]
  exact (tighten_eq_iff_padded ht).2 h

/-- More white space at the end of a padded text. -/
theorem Padded.append_blanks (h : Padded joined t s) (hrest : ∀ c ∈ rest, isBlank c = true) :
    Padded joined t (s ++ rest) := by
  induction h with
  | nil hw => exact .nil fun c hc => (List.mem_append.1 hc).elim (hw c) (hrest c)
  | cons hw hplace _ ih =>
    rw [List.append_assoc, List.cons_append]
    exact .cons hw hplace ih

/-- Between two characters a field ends when there is white space and neither is an operator. -/
theorem endsField_blanks_cons (hw : ∀ x ∈ w, isBlank x = true) (hd : isBlank d = false) :
    endsField c (w ++ d :: s) = (!w.isEmpty && !isOperator c && !isOperator d) := by
  have hall : (w ++ d :: s).all isBlank = false := by simp [hd]
  have hopens : opensJoined (w ++ d :: s) = isOperator d := by
    rw [opensJoined_blanks_append hw, opensJoined_cons, hd, if_neg Bool.false_ne_true]
  have hstarts : startsBlank (w ++ d :: s) = !w.isEmpty := by
    rw [startsBlank_blanks_append hw, startsBlank, hd, Bool.or_false]
  rw [endsField, hall, hopens, hstarts, Bool.false_or]

/-- No field ends between two characters of a padded text. -/
theorem Padded.endsField_eq_false (h : Padded (isOperator c) (d :: t) s)
    (hd : isBlank d = false) : endsField c (s ++ rest) = false := by
  cases h with
  | cons hw hplace _ =>
    rw [List.append_assoc, List.cons_append, endsField_blanks_cons hw hd]
    rcases hplace with rfl | hop | hop
    · rfl
    · simp [hop]
    · simp [hop]

/-- Where no field ends the white space before a padded text is next to an operator. -/
theorem Padded.of_endsField_eq_false (h : Padded joined (d :: t) s) (hd : isBlank d = false)
    (hends : endsField c (s ++ rest) = false) : Padded (isOperator c) (d :: t) s := by
  cases h with
  | @cons _ _ _ w s hw _ hpad =>
    refine .cons hw ?_ hpad
    rw [List.append_assoc, List.cons_append, endsField_blanks_cons hw hd, Bool.and_eq_false_iff,
      Bool.and_eq_false_iff, Bool.not_eq_false', Bool.not_eq_false', Bool.not_eq_false',
      List.isEmpty_iff, or_assoc] at hends
    exact hends

/-- A field ends after a closed text when white space separates it from what follows. -/
theorem endsField_of_padded_nil (h : Padded joined [] s) (hc : isOperator c = false)
    (hrest : rest = [] ∨ startsBlank rest = true ∧ opensJoined rest = false) :
    endsField c (s ++ rest) = true := by
  cases h with
  | nil hw =>
    rcases hrest with rfl | ⟨hstarts, hopens⟩
    · rw [List.append_nil]
      exact endsField_of_blanks hw
    · rw [endsField, startsBlank_blanks_append hw, hstarts, hc, opensJoined_blanks_append hw,
        hopens]
      simp

/-- A padded closed text is cut off in front of others that do not begin with an operator. -/
theorem splitFields_append (h : Padded joined t s) (ht : Closed t)
    (hrest : rest = [] ∨ startsBlank rest = true ∧ opensJoined rest = false) :
    splitFields (s ++ rest) = t :: splitFields rest := by
  obtain ⟨hne, hblank, -, hlast⟩ := ht
  induction h with
  | nil => exact absurd rfl hne
  | @cons joined c t w s hw hplace h ih =>
    obtain ⟨hc, hblank⟩ := List.forall_mem_cons.1 hblank
    rw [List.append_assoc, List.cons_append, splitFields_blanks_append hw, splitFields_cons hc]
    cases t with
    | nil =>
      have hs : ∀ x ∈ s, isBlank x = true := by
        cases h with
        | nil hw => exact hw
      rw [endsField_of_padded_nil h (hlast c rfl) hrest, if_pos rfl, splitFields_blanks_append hs]
    | cons d t =>
      have htail := ih (List.cons_ne_nil d t) hblank fun x hx =>
        hlast x (by rw [List.getLast?_cons_of_ne_nil (List.cons_ne_nil d t), hx])
      rw [h.endsField_eq_false (hblank d List.mem_cons_self), if_neg Bool.false_ne_true, htail]
      rfl

/-- White space divides fields and has no meaning next to operators. -/
example : splitFields " 1 , 2\t* / 3 -\n4 ".toList = ["1,2".toList, "*/3-4".toList] := by
  decide

/-- The first field of an expression is a padded text at its beginning, and what is left begins
with white space or is empty. -/
theorem exists_append_of_splitFields_eq_cons {e p : Text} {ps : List Text}
    (h : splitFields e = p :: ps) : ∃ s rest, e = s ++ rest ∧ p ≠ [] ∧ Padded true p s ∧
      startsBlank rest = true ∧ splitFields rest = ps := by
  induction e generalizing p with
  | nil => cases h
  | cons c e ih =>
    by_cases hc : isBlank c = true
    · have hp : ∀ x ∈ p, isBlank x = false :=
        fun x hx => isBlank_eq_false_of_mem_splitFields (h ▸ List.mem_cons_self) hx
      rw [splitFields_blank_cons hc] at h
      obtain ⟨s, rest, rfl, hne, hpad, hrest⟩ := ih h
      exact ⟨c :: s, rest, rfl, hne, hpad.blank_cons hp hc (.inl rfl), hrest⟩
    · rw [Bool.not_eq_true] at hc
      rw [splitFields_cons hc] at h
      split at h
      · rename_i hends
        cases h
        exact ⟨[c], e, rfl, List.cons_ne_nil _ _, .refl (by simpa using hc),
          startsBlank_of_endsField hends, rfl⟩
      · rename_i hends
        cases hsplit : splitFields e with
        | nil => exact absurd (endsField_of_blanks (splitFields_eq_nil_iff.1 hsplit)) hends
        | cons q qs =>
          rw [hsplit] at h
          cases h
          obtain ⟨s, rest, rfl, hne, hpad, hrest⟩ := ih hsplit
          obtain ⟨d, q, rfl⟩ := List.exists_cons_of_ne_nil hne
          have hd : isBlank d = false :=
            isBlank_eq_false_of_mem_splitFields (hsplit ▸ List.mem_cons_self) List.mem_cons_self
          have hpad := hpad.of_endsField_eq_false hd (Bool.not_eq_true _ ▸ hends)
          exact ⟨c :: s, rest, rfl, List.cons_ne_nil _ _, hpad.tight_cons, hrest⟩

end First
end Timetable.Text
