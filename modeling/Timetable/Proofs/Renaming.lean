import Timetable.Proofs.Cuts
import Timetable.Proofs.Grammar

/-!
# Exchanging names

A name in an expression is a run of letters that is as long as it can be.  Other names or numerals
may take the places of the names: white space and operators are left alone by that, so the fields
stay as many as they are, and each of them is the old one with its own names exchanged.

Which text may take the place of a name depends on the field that the name stands in.  Since a text
is taken apart from its beginning, this field is known by how many there are from the name on.

## Main definitions

* `Text.Renamed`: a text with other texts in the places of its names.
* `Text.RenamedFields`: the same for the texts of fields one after the other.

## Main statements

* `Text.Renamed.splitFields`: exchanging names commutes with cutting an expression into its fields.
* `Text.exists_renamed`: all names can be exchanged.
* `Text.Renamed.append_cons`, `Text.Renamed.flip`: exchanging names in parts of a text, and back.
-/

namespace Timetable.Text

/-! ## Words -/

/-- A text of letters and digits, such as a name or a numeral. -/
structure IsWord (s : Text) : Prop where
  ne_nil : s ≠ []
  isAlphanum : ∀ c ∈ s, c.isAlphanum = true

section Words

variable {c : Char} {n s : Text}

theorem isWord_of_isName (h : s.isName = true) : IsWord s where
  ne_nil := (isName_iff.1 h).1
  isAlphanum c hc := by simp [Char.isAlphanum, (isName_iff.1 h).2 c hc]

theorem Numeral.Spelled.isWord {k : Nat} (h : Numeral.Spelled k s) : IsWord s where
  ne_nil := h.ne_nil
  isAlphanum c hc := by simp [Char.isAlphanum, h.isDigit c hc]

theorem IsWord.solid (h : IsWord s) : Solid [] s := by
  apply solid_of_toNat
  intro c hc
  rcases Bool.or_eq_true_iff.1 (h.isAlphanum c hc) with halpha | hdigit
  · have := toNat_of_isAlpha halpha
    omega
  · have := toNat_of_isDigit hdigit
    omega

/-- A word begins with a character that is neither white space nor an operator. -/
theorem IsWord.exists_cons (h : IsWord n) :
    ∃ c rest, n = c :: rest ∧ isBlank c = false ∧ isOperator c = false := by
  obtain ⟨c, rest, rfl⟩ := List.exists_cons_of_ne_nil h.ne_nil
  obtain ⟨hblank, hop⟩ := h.solid c List.mem_cons_self
  exact ⟨c, rest, rfl, hblank, Bool.eq_false_iff.2 fun h => List.not_mem_nil (hop h)⟩

theorem isAlpha_eq_false_of_isOperator (h : isOperator c = true) : c.isAlpha = false := by
  simp only [isOperator, Bool.or_eq_true, beq_iff_eq] at h
  rcases h with (rfl | rfl) | rfl <;> decide

end Words

/-! ## Names exchanged for words -/

/-- Whether a text begins with a letter. -/
def startsName : Text → Bool
  | [] => false
  | c :: _ => c.isAlpha

/-- A text, and what it is with other texts in the places of its names; `R` says which text may be
in the place of a name, given the number of fields from the name to the end. -/
inductive Renamed (R : Nat → Text → Text → Prop) : Text → Text → Prop where
  | nil : Renamed R [] []
  /-- A character that is no letter stays. -/
  | keep {c : Char} {s t : Text} (hc : c.isAlpha = false) (h : Renamed R s t) :
      Renamed R (c :: s) (c :: t)
  /-- A name goes on for as long as there are letters. -/
  | name {n m s t : Text} (hn : n.isName = true) (hs : startsName s = false)
      (hm : R (splitFields (n ++ s)).length n m) (h : Renamed R s t) : Renamed R (n ++ s) (m ++ t)

/-- The texts of fields with other texts in the places of their names, field by field. -/
inductive RenamedFields (R : Nat → Text → Text → Prop) : List Text → List Text → Prop where
  | nil : RenamedFields R [] []
  | cons {p q : Text} {ps qs : List Text} (hp : Renamed (fun _ => R (ps.length + 1)) p q)
      (h : RenamedFields R ps qs) : RenamedFields R (p :: ps) (q :: qs)

section Renamed

variable {R R' : Nat → Text → Text → Prop} {c : Char} {n s t : Text}

theorem Renamed.mono (hR : ∀ k n m, n.isName = true → R k n m → R' k n m) (h : Renamed R s t) :
    Renamed R' s t := by
  induction h with
  | nil => exact .nil
  | keep hc _ ih => exact .keep hc ih
  | name hn hs hm _ ih => exact .name hn hs (hR _ _ _ hn hm) ih

theorem Renamed.keep_append {w : Text} (hw : w.any Char.isAlpha = false) (h : Renamed R s t) :
    Renamed R (w ++ s) (w ++ t) := by
  induction w with
  | nil => exact h
  | cons c w ih =>
    obtain ⟨hc, hw⟩ := Bool.or_eq_false_iff.1 hw
    exact .keep hc (ih hw)

/-- Where there are no letters nothing is exchanged. -/
theorem Renamed.eq_of_isAlpha_eq_false (h : Renamed R s t) (hs : ∀ c ∈ s, c.isAlpha = false) :
    t = s := by
  induction h with
  | nil => rfl
  | keep hc _ ih => rw [ih (List.forall_mem_cons.1 hs).2]
  | name hn _ _ _ _ =>
    obtain ⟨hne, halpha⟩ := isName_iff.1 hn
    obtain ⟨c, hc⟩ := List.exists_mem_of_ne_nil _ hne
    have hout := hs c (List.mem_append_left _ hc)
    rw [halpha c hc] at hout
    cases hout

/-- Names come from names only. -/
theorem Renamed.startsName_eq_false (h : Renamed R s t) (hs : startsName s = false) :
    startsName t = false := by
  cases h with
  | nil => rfl
  | keep hc _ => exact hc
  | name hn _ _ _ =>
    obtain ⟨hne, halpha⟩ := isName_iff.1 hn
    obtain ⟨c, rest, rfl⟩ := List.exists_cons_of_ne_nil hne
    have hletter : c.isAlpha = false := hs
    rw [halpha c List.mem_cons_self] at hletter
    cases hletter

/-- A text that begins with a letter begins with a name. -/
theorem exists_name_append (hc : c.isAlpha = true) (s : Text) :
    ∃ n rest : Text, c :: s = n ++ rest ∧ n.isName = true ∧ startsName rest = false := by
  induction s generalizing c with
  | nil => exact ⟨[c], [], rfl, by simpa [isName] using hc, rfl⟩
  | cons d s ih =>
    by_cases hd : d.isAlpha = true
    · obtain ⟨n, rest, hsplit, hn, hrest⟩ := ih hd
      refine ⟨c :: n, rest, by rw [hsplit, List.cons_append], ?_, hrest⟩
      exact isName_iff.2 ⟨List.cons_ne_nil c n, List.forall_mem_cons.2 ⟨hc, (isName_iff.1 hn).2⟩⟩
    · exact ⟨[c], d :: s, rfl, by simpa [isName] using hc, Bool.not_eq_true _ ▸ hd⟩

/-- Every name can be exchanged if there is something to take its place. -/
theorem exists_renamed (hR : ∀ k n, n.isName = true → ∃ m, R k n m) (s : Text) :
    ∃ t, Renamed R s t := by
  -- what is left after a name is shorter, but it is not the tail of the text
  induction hlength : s.length using Nat.strongRecOn generalizing s with
  | ind k ih =>
    cases s with
    | nil => exact ⟨[], .nil⟩
    | cons c s =>
      by_cases hc : c.isAlpha = true
      · obtain ⟨n, rest, hsplit, hn, hrest⟩ := exists_name_append hc s
        have hshorter : rest.length < k := by
          have := List.length_pos_iff.2 (isName_iff.1 hn).1
          rw [← hlength, hsplit, List.length_append]
          omega
        obtain ⟨t, ht⟩ := ih rest.length hshorter rest rfl
        obtain ⟨m, hm⟩ := hR (splitFields (n ++ rest)).length n hn
        exact ⟨m ++ t, hsplit ▸ .name hn hrest hm ht⟩
      · obtain ⟨t, ht⟩ := ih s.length (by rw [← hlength]; simp) s rfl
        exact ⟨c :: t, .keep (Bool.not_eq_true _ ▸ hc) ht⟩

end Renamed

/-! ## Cutting into fields -/

section Cutting

variable {c d : Char} {n p rest s : Text} {ps : List Text}

theorem endsField_congr (h : isOperator c = isOperator d) : endsField c s = endsField d s := by
  rw [endsField, endsField, h]

/-- A word at the beginning is a field by itself or belongs to the first of those that follow. -/
theorem splitFields_word_append (hn : IsWord n) (hc : isOperator c = false) :
    splitFields (n ++ s) =
      if endsField c s then n :: splitFields s else (splitFields s).modifyHead (n ++ ·) := by
  obtain ⟨hne, hsolid⟩ := And.intro hn.ne_nil hn.solid
  clear hn
  induction n with
  | nil => exact absurd rfl hne
  | cons d n ih =>
    obtain ⟨⟨hblank, hop⟩, hrest⟩ := List.forall_mem_cons.1 hsolid
    have hd : isOperator d = isOperator c := by
      rw [hc]
      exact Bool.eq_false_iff.2 fun h => List.not_mem_nil (hop h)
    rw [List.cons_append, splitFields_cons hblank]
    cases n with
    | nil => rw [List.nil_append, endsField_congr hd]; rfl
    | cons x n =>
      have hx : isBlank x = false := (hrest x List.mem_cons_self).1
      have hgoes : endsField d (x :: n ++ s) = false := by
        simp [endsField, startsBlank, hx]
      rw [hgoes, if_neg Bool.false_ne_true, ih (List.cons_ne_nil x n) hrest]
      split
      · rfl
      · cases splitFields s <;> rfl

/-- A field begins with the first character that is not white space. -/
theorem exists_cons_of_splitFields (hc : isBlank c = false)
    (h : splitFields (c :: rest) = p :: ps) : ∃ q, p = c :: q := by
  rw [splitFields_cons hc] at h
  split at h
  · cases h
    exact ⟨[], rfl⟩
  · cases hsplit : splitFields rest with
    | nil =>
      rw [hsplit] at h
      cases h
    | cons q qs =>
      rw [hsplit] at h
      cases h
      exact ⟨q, rfl⟩

/-- A field that begins with an operator begins with no name. -/
theorem startsName_of_opensJoined (hopens : opensJoined s = true)
    (h : splitFields s = p :: ps) : startsName p = false := by
  induction s with
  | nil => cases h
  | cons c s ih =>
    rw [opensJoined_cons] at hopens
    split at hopens
    · rename_i hc
      rw [splitFields_blank_cons hc] at h
      exact ih hopens h
    · rename_i hc
      obtain ⟨q, rfl⟩ := exists_cons_of_splitFields (Bool.not_eq_true _ ▸ hc) h
      exact isAlpha_eq_false_of_isOperator hopens

/-- A name that is as long as it can be in an expression is so in its field. -/
theorem startsName_of_splitFields (hs : startsName s = false) (hends : endsField c s = false)
    (hc : isOperator c = false) (h : splitFields s = p :: ps) : startsName p = false := by
  cases s with
  | nil => cases h
  | cons d s =>
    by_cases hd : isBlank d = true
    · apply startsName_of_opensJoined _ h
      simpa [endsField, startsBlank, hd, hc] using (Bool.or_eq_false_iff.1 hends).2
    · obtain ⟨q, rfl⟩ := exists_cons_of_splitFields (Bool.not_eq_true _ ▸ hd) h
      exact hs

end Cutting

section Fields

variable {R : Nat → Text → Text → Prop} {c : Char} {s t : Text} {ps qs : List Text}

theorem RenamedFields.length_eq (h : RenamedFields R ps qs) : qs.length = ps.length := by
  induction h with
  | nil => rfl
  | cons _ _ ih => rw [List.length_cons, List.length_cons, ih]

theorem RenamedFields.modifyHead {f g : Text → Text} (h : RenamedFields R ps qs)
    (hhead : ∀ p q rest, ps = p :: rest → Renamed (fun _ => R ps.length) p q →
      Renamed (fun _ => R ps.length) (f p) (g q)) :
    RenamedFields R (ps.modifyHead f) (qs.modifyHead g) := by
  cases h with
  | nil => exact .nil
  | cons hp hps => exact .cons (hhead _ _ _ rfl hp) hps

variable (hR : ∀ k n m, n.isName = true → R k n m → IsWord m)

include hR

theorem Renamed.startsBlank_eq (h : Renamed R s t) : startsBlank t = startsBlank s := by
  cases h with
  | nil => rfl
  | keep _ _ => rfl
  | name hn _ hm _ =>
    obtain ⟨c, rest, rfl, hc, -⟩ := (isWord_of_isName hn).exists_cons
    obtain ⟨d, rest', rfl, hd, -⟩ := (hR _ _ _ hn hm).exists_cons
    exact hd.trans hc.symm

theorem Renamed.opensJoined_eq (h : Renamed R s t) : opensJoined t = opensJoined s := by
  induction h with
  | nil => rfl
  | keep _ _ ih => rw [opensJoined_cons, opensJoined_cons, ih]
  | name hn _ hm _ _ =>
    obtain ⟨c, rest, rfl, hc, hop⟩ := (isWord_of_isName hn).exists_cons
    obtain ⟨d, rest', rfl, hd, hop'⟩ := (hR _ _ _ hn hm).exists_cons
    simp [opensJoined_cons, hc, hd, hop, hop']

theorem Renamed.all_isBlank_eq (h : Renamed R s t) : t.all isBlank = s.all isBlank := by
  induction h with
  | nil => rfl
  | keep _ _ ih => rw [List.all_cons, List.all_cons, ih]
  | name hn _ hm _ _ =>
    obtain ⟨c, rest, rfl, hc, -⟩ := (isWord_of_isName hn).exists_cons
    obtain ⟨d, rest', rfl, hd, -⟩ := (hR _ _ _ hn hm).exists_cons
    simp [hc, hd]

/-- Fields end at the same places. -/
theorem Renamed.endsField_eq (h : Renamed R s t) : endsField c t = endsField c s := by
  rw [endsField, endsField, h.startsBlank_eq hR, h.opensJoined_eq hR, h.all_isBlank_eq hR]

/-- What begins with neither a letter nor a digit begins as it did. -/
theorem Renamed.head?_ne (h : Renamed R s t) (hc : c.isAlphanum = false)
    (hs : s.head? ≠ some c) : t.head? ≠ some c := by
  cases h with
  | nil => exact hs
  | keep _ _ => exact hs
  | name hn _ hm _ =>
    have hword := hR _ _ _ hn hm
    rw [List.head?_append_of_ne_nil _ hword.ne_nil]
    intro hhead
    have halphanum := hword.isAlphanum c (List.mem_of_mem_head? hhead)
    rw [hc] at halphanum
    cases halphanum

/-- When names are exchanged in an expression they are exchanged in each of its fields. -/
theorem Renamed.splitFields (h : Renamed R s t) :
    RenamedFields R (splitFields s) (splitFields t) := by
  induction h with
  | nil => exact .nil
  | @keep c s t hc h ih =>
    by_cases hblank : isBlank c = true
    · rw [splitFields_blank_cons hblank, splitFields_blank_cons hblank]
      exact ih
    · rw [Bool.not_eq_true] at hblank
      rw [splitFields_cons hblank, splitFields_cons hblank, h.endsField_eq hR]
      split
      · exact .cons (.keep hc .nil) ih
      · exact ih.modifyHead fun p q _ _ hp => .keep hc hp
  | @name n m s t hn hs hm h ih =>
    obtain ⟨c, -, -, -, hc⟩ := (isWord_of_isName hn).exists_cons
    have hsplit := splitFields_word_append (s := s) (isWord_of_isName hn) hc
    rw [hsplit] at hm ⊢
    rw [splitFields_word_append (hR _ _ _ hn hm) hc, h.endsField_eq hR]
    split at hm
    · rename_i hends
      rw [if_pos hends, if_pos hends]
      have hname : Renamed (fun _ => R ((Text.splitFields s).length + 1)) (n ++ []) (m ++ []) :=
        .name hn rfl hm .nil
      rw [List.append_nil, List.append_nil] at hname
      exact .cons hname ih
    · rename_i hends
      rw [if_neg hends, if_neg hends]
      rw [List.length_modifyHead] at hm
      apply ih.modifyHead
      intro p q rest hfirst hp
      exact .name hn (startsName_of_splitFields hs (Bool.not_eq_true _ ▸ hends) hc hfirst) hm hp

end Fields

/-! ## Parts of a text -/

section Parts

variable {Q : Text → Text → Prop} {c : Char} {n q s t : Text}

/-- The place of a name that is the whole text. -/
theorem Renamed.of_isName (h : Renamed (fun _ => Q) n t) (hn : n.isName = true) : Q n t := by
  obtain ⟨hne, halpha⟩ := isName_iff.1 hn
  cases h with
  | nil => exact absurd rfl hne
  | @keep c s t hc _ =>
    rw [halpha c List.mem_cons_self] at hc
    cases hc
  | @name n m s t _ hs hm h =>
    have hnil : s = [] := by
      cases s with
      | nil => rfl
      | cons d s =>
        have hletter : d.isAlpha = false := hs
        rw [halpha d (by simp)] at hletter
        cases hletter
    subst hnil
    cases h.eq_of_isAlpha_eq_false (by simp)
    rwa [List.append_nil, List.append_nil]

/-- A text around a character that is no letter has its names before or after it. -/
theorem Renamed.append_cons (hc : c.isAlpha = false) (h : Renamed (fun _ => Q) (s ++ c :: t) q) :
    ∃ s' t', q = s' ++ c :: t' ∧ Renamed (fun _ => Q) s s' ∧ Renamed (fun _ => Q) t t' := by
  generalize hsplit : s ++ c :: t = e at h
  induction h generalizing s with
  | nil => simp at hsplit
  | @keep d e q hd h ih =>
    cases s with
    | nil =>
      cases hsplit
      exact ⟨[], q, rfl, .nil, h⟩
    | cons x s =>
      cases hsplit
      obtain ⟨s', t', rfl, hs, ht⟩ := ih rfl
      exact ⟨d :: s', t', rfl, .keep hd hs, ht⟩
  | @name n m e q hn he hm h ih =>
    rcases List.append_eq_append_iff.1 hsplit with ⟨x, rfl, hx⟩ | ⟨x, rfl, rfl⟩
    · cases x with
      | nil =>
        obtain ⟨s', t', rfl, hs, ht⟩ := ih (s := []) hx
        cases hs.eq_of_isAlpha_eq_false (by simp)
        exact ⟨m, t', rfl, by simpa using Renamed.name hn rfl hm .nil, ht⟩
      | cons d x =>
        cases hx
        have hletter := (isName_iff.1 hn).2 c (by simp)
        rw [hc] at hletter
        cases hletter
    · obtain ⟨s', t', rfl, hs, ht⟩ := ih rfl
      refine ⟨m ++ s', t', (List.append_assoc _ _ _).symm, .name hn ?_ hm hs, ht⟩
      cases x with
      | nil => rfl
      | cons d x => exact he

/-- Names that take the places of names can be exchanged back. -/
theorem Renamed.flip (hQ : ∀ n m, n.isName = true → Q n m → m.isName = true)
    (h : Renamed (fun _ => Q) s t) : Renamed (fun _ m n => Q n m) t s := by
  induction h with
  | nil => exact .nil
  | keep hc _ ih => exact .keep hc ih
  | name hn hs hm h ih => exact .name (hQ _ _ hn hm) (h.startsName_eq_false hs) hm ih

end Parts
end Timetable.Text
