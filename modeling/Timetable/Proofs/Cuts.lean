import Timetable.Proofs.Splitting

/-!
# Cuts between fields

The characters of an expression other than white space all go to its fields, in order.  Two of them
that follow each other are cut apart exactly when there is white space between them and neither is
an operator; what stands before or after them does not matter.

A field is then a text without white space.  Nothing is left in it to tighten or to cut at.

## Main definitions

* `Text.withoutBlanks`: a text without its white space.
* `Text.pieceOf`: the piece that a character falls into.

## Main statements

* `Text.pieceOf_splitFields_ne_iff`: where the cuts are.
* `Text.splitFields_eq_singleton`: a text without white space is one field.
* `Text.splitFields_cuts`: the fields of an expression by their characters and cuts.
-/

namespace Timetable.Text

/-! ## Pieces -/

/-- What is left of a text when all white space is left out. -/
def withoutBlanks (s : Text) : Text :=
  s.filter fun c => !isBlank c

/-- The number of the piece that the `i`-th character falls into when the pieces are put together,
both counted from zero. -/
def pieceOf : List Text → Nat → Nat
  | [], _ => 0
  | p :: ps, i => if i < p.length then 0 else pieceOf ps (i - p.length) + 1

section Pieces

variable {c : Char} {p rest s w t : Text} {ps : List Text} {i : Nat}

theorem withoutBlanks_append : withoutBlanks (s ++ t) = withoutBlanks s ++ withoutBlanks t :=
  List.filter_append s t

theorem withoutBlanks_blank_cons (hc : isBlank c = true) :
    withoutBlanks (c :: s) = withoutBlanks s :=
  List.filter_cons_of_neg (by simp [hc])

theorem withoutBlanks_cons (hc : isBlank c = false) :
    withoutBlanks (c :: s) = c :: withoutBlanks s :=
  List.filter_cons_of_pos (by simp [hc])

theorem withoutBlanks_of_blanks (hw : ∀ c ∈ w, isBlank c = true) : withoutBlanks w = [] :=
  List.filter_eq_nil_iff.2 fun c hc => by simp [hw c hc]

theorem pieceOf_zero (h : ∀ p ∈ ps, p ≠ []) : pieceOf ps 0 = 0 := by
  cases ps with
  | nil => rfl
  | cons p ps => rw [pieceOf, if_pos (List.length_pos_iff.2 (h p List.mem_cons_self))]

/-- A character in front that is a piece by itself. -/
theorem pieceOf_singleton_cons : pieceOf ([c] :: ps) (i + 1) = pieceOf ps i + 1 := by
  simp [pieceOf]

/-- A character in front that belongs to the first piece. -/
theorem pieceOf_modifyHead : pieceOf (ps.modifyHead (c :: ·)) (i + 1) = pieceOf ps i := by
  cases ps with
  | nil => rfl
  | cons p ps => simp [pieceOf]

/-- A character in front of the first piece leaves none empty. -/
theorem ne_nil_of_mem_modifyHead (hps : ∀ p ∈ ps, p ≠ []) (hp : p ∈ ps.modifyHead (c :: ·)) :
    p ≠ [] := by
  cases ps with
  | nil => cases hp
  | cons q qs =>
    rcases List.mem_cons.1 hp with rfl | hp
    · exact List.cons_ne_nil c q
    · exact hps p (List.mem_cons_of_mem q hp)

/-- No field is empty. -/
theorem ne_nil_of_mem_splitFields (hp : p ∈ splitFields s) : p ≠ [] := by
  induction s generalizing p with
  | nil => cases hp
  | cons c rest ih =>
    by_cases hc : isBlank c = true
    · rw [splitFields_blank_cons hc] at hp
      exact ih hp
    · rw [splitFields_cons (Bool.not_eq_true _ ▸ hc)] at hp
      split at hp
      · rcases List.mem_cons.1 hp with rfl | hp
        · exact List.cons_ne_nil c []
        · exact ih hp
      · exact ne_nil_of_mem_modifyHead (fun _ => ih) hp

/-- One character of the pass moves the fields of the others by one or leaves them as they are. -/
theorem pieceOf_splitFields_succ (hc : isBlank c = false) (i : Nat) :
    pieceOf (splitFields (c :: rest)) (i + 1) =
      pieceOf (splitFields rest) i + if endsField c rest then 1 else 0 := by
  rw [splitFields_cons hc]
  split
  · exact pieceOf_singleton_cons
  · exact pieceOf_modifyHead

/-- What stands in front moves the fields of all characters after it by the same number. -/
theorem exists_pieceOf_splitFields_append (s rest : Text) : ∃ m, ∀ i,
    pieceOf (splitFields (s ++ rest)) ((withoutBlanks s).length + i) =
      pieceOf (splitFields rest) i + m := by
  induction s with
  | nil => exact ⟨0, fun i => by simp [withoutBlanks]⟩
  | cons c s ih =>
    obtain ⟨m, hm⟩ := ih
    by_cases hc : isBlank c = true
    · refine ⟨m, fun i => ?_⟩
      rw [List.cons_append, splitFields_blank_cons hc, withoutBlanks_blank_cons hc, hm]
    · rw [Bool.not_eq_true] at hc
      refine ⟨m + if endsField c (s ++ rest) then 1 else 0, fun i => ?_⟩
      rw [List.cons_append, withoutBlanks_cons hc, List.length_cons, Nat.add_right_comm,
        pieceOf_splitFields_succ hc, hm, Nat.add_assoc]

end Pieces

/-! ## Cuts -/

section Cuts

variable {s w t : Text} {x y : Char}

/-- Two characters with at most white space between them fall into different fields exactly when
there is some and neither is an operator. -/
theorem pieceOf_splitFields_ne_iff (hx : isBlank x = false) (hy : isBlank y = false)
    (hw : ∀ c ∈ w, isBlank c = true) :
    pieceOf (splitFields (s ++ x :: (w ++ y :: t))) (withoutBlanks s).length ≠
        pieceOf (splitFields (s ++ x :: (w ++ y :: t))) ((withoutBlanks s).length + 1) ↔
      w ≠ [] ∧ isOperator x = false ∧ isOperator y = false := by
  obtain ⟨m, hm⟩ := exists_pieceOf_splitFields_append s (x :: (w ++ y :: t))
  have hfirst : pieceOf (splitFields (x :: (w ++ y :: t))) 0 = 0 :=
    pieceOf_zero fun _ => ne_nil_of_mem_splitFields
  have hsecond : pieceOf (splitFields (x :: (w ++ y :: t))) 1 =
      if !w.isEmpty && !isOperator x && !isOperator y then 1 else 0 := by
    rw [pieceOf_splitFields_succ hx, endsField_blanks_cons hw hy,
      pieceOf_zero fun _ => ne_nil_of_mem_splitFields, Nat.zero_add]
  rw [← Nat.add_zero (withoutBlanks s).length, hm, Nat.add_zero, hm, hfirst, hsecond]
  cases w <;> cases isOperator x <;> cases isOperator y <;> simp

end Cuts

/-! ## Texts without white space -/

section Tight

variable {t : Text}

theorem words_eq_singleton (hne : t ≠ []) (ht : ∀ c ∈ t, isBlank c = false) : words t = [t] := by
  induction t with
  | nil => exact absurd rfl hne
  | cons c t ih =>
    obtain ⟨hc, ht⟩ := List.forall_mem_cons.1 ht
    cases t with
    | nil => simp [words, hc, startsBlank]
    | cons d t =>
      have hd : isBlank d = false := ht d List.mem_cons_self
      rw [words, hc, if_neg Bool.false_ne_true, startsBlank, hd, if_neg Bool.false_ne_true,
        ih (List.cons_ne_nil d t) ht, List.modifyHead_cons]

theorem splitFields_eq_singleton (hne : t ≠ []) (ht : ∀ c ∈ t, isBlank c = false) :
    splitFields t = [t] := by
  rw [splitFields, tighten_eq_self ht, words_eq_singleton hne ht]

end Tight

/-- The fields of an expression are non-empty texts that hold its characters other than white
space, in order.  Two of these that follow each other fall into different fields exactly when there
is white space between them and neither is an operator.  There are no fields exactly when there is
nothing but white space; and in a field there is nothing left to tighten or to cut at. -/
theorem splitFields_cuts (e : Text) :
    (splitFields e).flatten = withoutBlanks e ∧
      (∀ p ∈ splitFields e, p ≠ []) ∧
      (∀ (s w t : Text) (x y : Char), e = s ++ x :: (w ++ y :: t) → isBlank x = false →
        isBlank y = false → (∀ c ∈ w, isBlank c = true) →
        (splitFields e).flatten = withoutBlanks s ++ x :: y :: withoutBlanks t ∧
          (pieceOf (splitFields e) (withoutBlanks s).length ≠
              pieceOf (splitFields e) ((withoutBlanks s).length + 1) ↔
            w ≠ [] ∧ isOperator x = false ∧ isOperator y = false)) ∧
      (splitFields e = [] ↔ ∀ c ∈ e, isBlank c = true) ∧
      ∀ p ∈ splitFields e, tighten p = p ∧ splitFields p = [p] := by
  refine ⟨flatten_splitFields e, fun p => ne_nil_of_mem_splitFields, ?_, splitFields_eq_nil_iff, ?_⟩
  · rintro s w t x y rfl hx hy hw
    refine ⟨?_, pieceOf_splitFields_ne_iff hx hy hw⟩
    calc (splitFields (s ++ x :: (w ++ y :: t))).flatten
        = withoutBlanks (s ++ x :: (w ++ y :: t)) := flatten_splitFields _
      _ = withoutBlanks s ++ x :: withoutBlanks (w ++ y :: t) := by
        rw [withoutBlanks_append, withoutBlanks_cons hx]
      _ = withoutBlanks s ++ x :: y :: withoutBlanks t := by
        rw [withoutBlanks_append, withoutBlanks_of_blanks hw, List.nil_append,
          withoutBlanks_cons hy]
  · intro p hp
    have hblank : ∀ c ∈ p, isBlank c = false :=
      fun c hc => isBlank_eq_false_of_mem_splitFields hp hc
    exact ⟨tighten_eq_self hblank, splitFields_eq_singleton (ne_nil_of_mem_splitFields hp) hblank⟩

/-- A cut at a tabulator, and none at the white space before a comma. -/
theorem splitFields_cuts_around_comma :
    splitFields " 7\t* , 3".toList = ["7".toList, "*,3".toList] ∧
      pieceOf (splitFields " 7\t* , 3".toList) 0 ≠ pieceOf (splitFields " 7\t* , 3".toList) 1 ∧
      pieceOf (splitFields " 7\t* , 3".toList) 1 = pieceOf (splitFields " 7\t* , 3".toList) 2 := by
  have hcuts := (splitFields_cuts " 7\t* , 3".toList).2.2.1
  have htab := (hcuts [' '] ['\t'] " , 3".toList '7' '*' rfl rfl rfl
    (List.forall_mem_singleton.2 rfl)).2
  have hcomma := (hcuts " 7\t".toList [' '] " 3".toList '*' ',' rfl rfl rfl
    (List.forall_mem_singleton.2 rfl)).2
  refine ⟨by decide, htab.2 (by decide), ?_⟩
  by_contra hne
  exact absurd (hcomma.1 hne).2.2 (by decide)

end Timetable.Text
