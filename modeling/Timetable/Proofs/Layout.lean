import Timetable.Text.Layout
import Mathlib.Data.List.Basic

/-!
# White space without a meaning

Tightening a text takes one pass: white space is left out after an operator or at the start, and
before an operator or at the end.  A text without white space is what is left of exactly those
texts that add white space to it at these places.

## Main definitions

* `Text.tightenFrom`: tightening in one pass.
* `Text.Padded`: a text with white space added where it has no meaning.

## Main statements

* `Text.tighten_eq_tightenFrom`: one pass is enough.
* `Text.tighten_eq_iff_padded`: what is left is what white space was added to.
-/

namespace Timetable.Text

/-! ## One pass -/

/-- White space is not an operator. -/
theorem isOperator_eq_false_of_isBlank {c : Char} (h : isBlank c = true) :
    isOperator c = false := by
  by_contra hop
  rw [Bool.not_eq_false] at hop
  simp [isBlank_eq_false_of_isOperator hop] at h

/-- Whether white space before a text has no meaning: an operator or nothing follows. -/
def opensJoined (s : Text) : Bool :=
  (s.dropWhile isBlank).head?.all isOperator

/-- The text without the white space that has no meaning; `joined` says so of the start. -/
def tightenFrom : Bool → Text → Text
  | _, [] => []
  | joined, c :: rest =>
    if isBlank c && (joined || opensJoined rest) then tightenFrom joined rest
    else c :: tightenFrom (isOperator c) rest

theorem opensJoined_cons (c : Char) (rest : Text) :
    opensJoined (c :: rest) = if isBlank c then opensJoined rest else isOperator c := by
  by_cases h : isBlank c = true
  · simp [opensJoined, h]
  · simp [opensJoined, h]

/-- Whether white space after a text has no meaning. -/
def joinedAfter (joined : Bool) (s : Text) : Bool :=
  (s.getLast?.map isOperator).getD joined

theorem dropJoined_concat (joined : Bool) (s : Text) (c : Char) :
    dropJoined joined (s ++ [c]) = dropJoined joined s ++
      if joinedAfter joined (dropJoined joined s) && isBlank c then [] else [c] := by
  induction s generalizing joined with
  | nil => cases h : joined && isBlank c <;> simp [dropJoined, joinedAfter, h]
  | cons x s ih =>
    by_cases h : (joined && isBlank x) = true
    · obtain ⟨rfl, -⟩ := Bool.and_eq_true_iff.1 h
      simp only [List.cons_append, dropJoined, h, if_true, ih]
    · have hlast : joinedAfter joined (x :: dropJoined (isOperator x) s) =
          joinedAfter (isOperator x) (dropJoined (isOperator x) s) := by
        cases dropJoined (isOperator x) s with
        | nil => rfl
        | cons y ys => simp [joinedAfter, List.getLast?_cons]
      simp only [List.cons_append, dropJoined, h, Bool.false_eq_true, if_false, ih, hlast]

/-- The text without the white space before operators and at the end. -/
def dropBefore (s : Text) : Text :=
  (dropJoined true s.reverse).reverse

theorem dropBefore_cons (c : Char) (rest : Text) :
    dropBefore (c :: rest) =
      if (dropBefore rest).head?.all isOperator && isBlank c then dropBefore rest
      else c :: dropBefore rest := by
  have hlast : joinedAfter true (dropJoined true rest.reverse) =
      (dropBefore rest).head?.all isOperator := by
    rw [dropBefore, List.head?_reverse, joinedAfter]
    cases (dropJoined true rest.reverse).getLast? <;> rfl
  rw [dropBefore, List.reverse_cons, dropJoined_concat, hlast]
  split
  · simp [dropBefore]
  · simp [dropBefore]

/-- Leaving out white space before operators does not change whether one comes first. -/
theorem head?_dropBefore (s : Text) : (dropBefore s).head?.all isOperator = opensJoined s := by
  induction s with
  | nil => rfl
  | cons c rest ih =>
    rw [dropBefore_cons, ih, opensJoined_cons]
    by_cases hblank : isBlank c = true
    · by_cases hopens : opensJoined rest = true
      · simpa [hblank, hopens] using ih
      · simp [hblank, hopens, isOperator_eq_false_of_isBlank hblank]
    · simp [hblank]

theorem opensJoined_dropJoined (joined : Bool) (s : Text) :
    opensJoined (dropJoined joined s) = opensJoined s := by
  induction s generalizing joined with
  | nil => rfl
  | cons c rest ih =>
    simp only [dropJoined]
    split
    · rename_i h
      rw [ih, opensJoined_cons, (Bool.and_eq_true_iff.1 h).2, if_pos rfl]
    · rw [opensJoined_cons, opensJoined_cons, ih]

theorem dropBefore_dropJoined (joined : Bool) (s : Text) :
    dropBefore (dropJoined joined s) = tightenFrom joined s := by
  induction s generalizing joined with
  | nil => rfl
  | cons c rest ih =>
    by_cases h : (joined && isBlank c) = true
    · obtain ⟨rfl, hblank⟩ := Bool.and_eq_true_iff.1 h
      simp only [dropJoined, if_true, tightenFrom, hblank, Bool.true_or, Bool.and_self, ih]
    · have hopens : (tightenFrom (isOperator c) rest).head?.all isOperator = opensJoined rest := by
        rw [← ih, head?_dropBefore, opensJoined_dropJoined]
      rw [dropJoined, if_neg h, dropBefore_cons, ih, hopens, tightenFrom]
      by_cases hblank : isBlank c = true
      · have hstart : joined = false := by simpa [hblank] using h
        have hc : isOperator c = false := isOperator_eq_false_of_isBlank hblank
        simp [hblank, hstart, hc]
      · simp [hblank]

/-- Tightening takes one pass. -/
theorem tighten_eq_tightenFrom (s : Text) : tighten s = tightenFrom true s := by
  rw [← dropBefore_dropJoined]
  rfl

theorem tightenFrom_cons {joined : Bool} {c : Char} {s : Text} (hc : isBlank c = false) :
    tightenFrom joined (c :: s) = c :: tightenFrom (isOperator c) s := by
  simp [tightenFrom, hc]

section Operator

variable {op : Char} (hop : isOperator op = true)

include hop

theorem opensJoined_append_operator (s t : Text) :
    opensJoined (s ++ op :: t) = opensJoined s := by
  induction s with
  | nil =>
    rw [List.nil_append, opensJoined_cons, isBlank_eq_false_of_isOperator hop,
      if_neg Bool.false_ne_true, hop]
    rfl
  | cons c s ih => rw [List.cons_append, opensJoined_cons, opensJoined_cons, ih]

theorem tightenFrom_append_operator (joined : Bool) (s t : Text) :
    tightenFrom joined (s ++ op :: t) = tightenFrom joined s ++ op :: tightenFrom true t := by
  induction s generalizing joined with
  | nil =>
    rw [List.nil_append, tightenFrom_cons (isBlank_eq_false_of_isOperator hop), hop]
    rfl
  | cons c s ih =>
    rw [List.cons_append, tightenFrom, tightenFrom, opensJoined_append_operator hop, ih, ih]
    split <;> rfl

/-- The texts on either side of an operator are tightened by themselves. -/
theorem tighten_append_operator (s t : Text) :
    tighten (s ++ op :: t) = tighten s ++ op :: tighten t := by
  simp only [tighten_eq_tightenFrom, tightenFrom_append_operator hop]

end Operator

/-! ## Added white space -/

/-- A text and what it is with white space added at its ends and next to its operators; `joined`
says so of the start. -/
inductive Padded : Bool → Text → Text → Prop where
  /-- White space at the end. -/
  | nil {joined : Bool} {w : Text} (hw : ∀ x ∈ w, isBlank x = true) : Padded joined [] w
  /-- White space before a character, of which there is none inside a run of other characters. -/
  | cons {joined : Bool} {c : Char} {t w s : Text} (hw : ∀ x ∈ w, isBlank x = true)
      (hplace : w = [] ∨ joined = true ∨ isOperator c = true) (h : Padded (isOperator c) t s) :
      Padded joined (c :: t) (w ++ c :: s)

section Padded

variable {joined : Bool} {c : Char} {t w s : Text}

theorem opensJoined_blanks_append (hw : ∀ x ∈ w, isBlank x = true) :
    opensJoined (w ++ s) = opensJoined s := by
  rw [opensJoined, List.dropWhile_append_of_pos hw, opensJoined]

theorem tightenFrom_blanks_append (hw : ∀ x ∈ w, isBlank x = true)
    (h : joined = true ∨ opensJoined s = true) :
    tightenFrom joined (w ++ s) = tightenFrom joined s := by
  induction w with
  | nil => rfl
  | cons x w ih =>
    obtain ⟨hx, hw⟩ := List.forall_mem_cons.1 hw
    have hdrop : (joined || opensJoined (w ++ s)) = true := by
      rw [opensJoined_blanks_append hw, Bool.or_eq_true]
      exact h
    rw [List.cons_append, tightenFrom, hx, hdrop, Bool.and_self, if_pos rfl, ih hw]

/-- A character with no white space before it. -/
theorem Padded.tight_cons (hpad : Padded (isOperator c) t s) : Padded joined (c :: t) (c :: s) :=
  @Padded.cons joined c t [] s (by simp) (.inl rfl) hpad

/-- One more white space character at a place for white space. -/
theorem Padded.blank_cons (hpad : Padded joined t s) (ht : ∀ x ∈ t, isBlank x = false)
    (hc : isBlank c = true) (h : joined = true ∨ opensJoined s = true) :
    Padded joined t (c :: s) := by
  cases hpad with
  | nil hw => exact .nil (List.forall_mem_cons.2 ⟨hc, hw⟩)
  | @cons _ d t w s hw hplace hpad =>
    have hd : isBlank d = false := ht d List.mem_cons_self
    rw [opensJoined_blanks_append hw, opensJoined_cons, hd] at h
    have hplace : joined = true ∨ isOperator d = true := by simpa using h
    exact @Padded.cons joined d t (c :: w) s (List.forall_mem_cons.2 ⟨hc, hw⟩) (.inr hplace) hpad

theorem padded_of_tightenFrom (ht : ∀ x ∈ t, isBlank x = false) (h : tightenFrom joined s = t) :
    Padded joined t s := by
  induction s generalizing joined t with
  | nil =>
    subst h
    exact .nil (by simp)
  | cons c rest ih =>
    rw [tightenFrom] at h
    split at h
    · rename_i hdrop
      obtain ⟨hblank, hplace⟩ := Bool.and_eq_true_iff.1 hdrop
      exact (ih ht h).blank_cons ht hblank (Bool.or_eq_true_iff.1 hplace)
    · subst h
      exact (ih (fun x hx => ht x (List.mem_cons_of_mem c hx)) rfl).tight_cons

theorem Padded.tightenFrom_eq (hpad : Padded joined t s) (ht : ∀ x ∈ t, isBlank x = false) :
    tightenFrom joined s = t := by
  induction hpad with
  | @nil joined w hw =>
    rw [← List.append_nil w, tightenFrom_blanks_append hw (.inr rfl)]
    rfl
  | @cons joined c t w s hw hplace _ ih =>
    obtain ⟨hc, ht⟩ := List.forall_mem_cons.1 ht
    have hopens : opensJoined (c :: s) = isOperator c := by
      rw [opensJoined_cons, hc, if_neg Bool.false_ne_true]
    rcases hplace with rfl | hplace
    · rw [List.nil_append, tightenFrom_cons hc, ih ht]
    · rw [tightenFrom_blanks_append hw (by rwa [hopens]), tightenFrom_cons hc, ih ht]

/-- A text without white space is what is left of exactly those texts that pad it. -/
theorem tighten_eq_iff_padded (ht : ∀ x ∈ t, isBlank x = false) :
    tighten s = t ↔ Padded true t s := by
  rw [tighten_eq_tightenFrom]
  exact ⟨padded_of_tightenFrom ht, fun hpad => hpad.tightenFrom_eq ht⟩

end Padded
end Timetable.Text
