import Timetable.Proofs.Rejection

/-!
# Expressions that end alike

Two expressions end alike when both stand for the same fields or both are rejected, with problems
of one kind that are about the same unit and the same numbers.  What a problem quotes may differ.
This is shown from the inside out: computations that go on alike from results that are alike end
alike, and so do traversals of lists with members that do.

## Main definitions

* `Problem.withoutTexts`: a problem without what it quotes.
* `Agrees`: two computations end alike.
* `Placewise`: a relation of two lists that have one member for each unit.
* `Base.Alike`, `Term.Alike`: terms that stand for the same ordinals or have the same fault.

## Main statements

* `Agrees.bind`, `Agrees.mapM_zip`: computations one after the other.
* `Selection.agrees_ofField`, `Fields.agrees_ofFieldList`: resolution of terms that are alike.
-/

namespace Timetable

/-! ## Ending alike -/

/-- A problem without what it quotes: its kind, its unit and its numbers. -/
def Problem.withoutTexts : Problem → Problem
  | malformedField _ => .malformedField []
  | malformedFieldOf unit _ => .malformedFieldOf unit []
  | unknownName unit _ => .unknownName unit []
  | p => p

/-- Two computations end alike: with related results, or with problems that differ in what they
quote at most. -/
inductive Agrees {α β : Type} (S : α → β → Prop) : Except Problem α → Except Problem β → Prop where
  | ok {a : α} {b : β} (h : S a b) : Agrees S (.ok a) (.ok b)
  | error {p q : Problem} (h : q.withoutTexts = p.withoutTexts) : Agrees S (.error p) (.error q)

namespace Agrees

variable {α β γ δ : Type} {S : α → β → Prop} {T : γ → δ → Prop}

theorem refl (x : Except Problem α) : Agrees Eq x x := by
  cases x with
  | error p => exact .error rfl
  | ok a => exact .ok rfl

theorem bind {x : Except Problem α} {y : Except Problem β} {f : α → Except Problem γ}
    {g : β → Except Problem δ} (h : Agrees S x y) (hrest : ∀ a b, S a b → Agrees T (f a) (g b)) :
    Agrees T (x >>= f) (y >>= g) := by
  cases h with
  | ok h => exact hrest _ _ h
  | error h => exact .error h

/-- Computations that go on alike from the same result. -/
theorem bind_same {x y : Except Problem α} {f g : α → Except Problem γ} (h : Agrees Eq x y)
    (hrest : ∀ a, Agrees Eq (f a) (g a)) : Agrees Eq (x >>= f) (y >>= g) := by
  apply h.bind
  rintro a _ rfl
  exact hrest a

theorem mapM {f g : α → Except Problem γ} {xs ys : List α}
    (h : List.Forall₂ (fun x y => Agrees Eq (f x) (g y)) xs ys) :
    Agrees Eq (xs.mapM f) (ys.mapM g) := by
  induction h with
  | nil => exact .refl _
  | cons h _ ih =>
    rw [List.mapM_cons, List.mapM_cons]
    exact h.bind_same fun _ => ih.bind_same fun _ => .refl _

/-- Computations that end alike succeed with the same result or fail for problems of one kind. -/
theorem eq_iff {x y : Except Problem α} : Agrees Eq x y ↔
    (∀ a, x = .ok a ↔ y = .ok a) ∧
      ∀ p, x = .error p → ∃ q, y = .error q ∧ q.withoutTexts = p.withoutTexts := by
  constructor
  · intro h
    cases h with
    | ok h => simp [h]
    | error h => simp [h]
  · rintro ⟨hok, herror⟩
    cases x with
    | ok a =>
      rw [(hok a).1 rfl]
      exact .refl _
    | error p =>
      obtain ⟨q, rfl, h⟩ := herror p rfl
      exact .error h

end Agrees

/-! ## One member for each unit -/

/-- Two lists have as many members as each other, one for each of the units as far as they go, and
the members at each unit are related. -/
inductive Placewise {α β : Type} (S : TimeUnit → α → β → Prop) :
    List TimeUnit → List α → List β → Prop where
  | nil {units : List TimeUnit} : Placewise S units [] []
  | cons {u : TimeUnit} {units : List TimeUnit} {a : α} {b : β} {as : List α} {bs : List β}
      (h : S u a b) (hs : Placewise S units as bs) : Placewise S (u :: units) (a :: as) (b :: bs)

namespace Placewise

variable {α β γ δ : Type} {S : TimeUnit → α → β → Prop} {units : List TimeUnit} {as : List α}
  {bs : List β}

theorem length_eq (h : Placewise S units as bs) : bs.length = as.length := by
  induction h with
  | nil => rfl
  | cons _ _ ih => rw [List.length_cons, List.length_cons, ih]

theorem imp {T : TimeUnit → α → β → Prop} (h : Placewise S units as bs)
    (himp : ∀ u a b, (u, a) ∈ units.zip as → (u, b) ∈ units.zip bs → S u a b → T u a b) :
    Placewise T units as bs := by
  induction h with
  | nil => exact .nil
  | @cons u units a b as bs h _ ih =>
    refine .cons (himp u a b (by simp) (by simp) h) (ih fun v x y hx hy => himp v x y ?_ ?_)
    · exact List.mem_cons_of_mem _ hx
    · exact List.mem_cons_of_mem _ hy

/-- A relation between the members at each unit, as one between a list with its units and the other
list. -/
theorem of_forall₂_zip (hlength : as.length ≤ units.length)
    (h : List.Forall₂ (fun place b => S place.1 place.2 b) (units.zip as) bs) :
    Placewise S units as bs := by
  induction as generalizing units bs with
  | nil =>
    rw [List.zip_nil_right, List.forall₂_nil_left_iff] at h
    subst h
    exact .nil
  | cons a as ih =>
    cases units with
    | nil => simp at hlength
    | cons u units =>
      rw [List.zip_cons_cons, List.forall₂_cons_left_iff] at h
      obtain ⟨b, bs, hb, hbs, rfl⟩ := h
      exact .cons hb (ih (by simpa using hlength) hbs)

theorem forall₂_zip (h : Placewise S units as bs) :
    List.Forall₂ (fun place b => S place.1 place.2 b) (units.zip as) bs := by
  induction h with
  | nil =>
    rw [List.zip_nil_right]
    exact .nil
  | cons h _ ih => exact .cons h ih

/-- Where members of two lists at a unit lead to something together, lists of that are found. -/
theorem exists_placewise {S' : TimeUnit → α → γ → Prop} {T : TimeUnit → β → δ → Prop}
    {U : TimeUnit → γ → δ → Prop} {cs : List γ} (h : Placewise S units as bs)
    (h' : Placewise S' units as cs)
    (hnext : ∀ u a b c, S u a b → S' u a c → ∃ d, T u b d ∧ U u c d) :
    ∃ ds, Placewise T units bs ds ∧ Placewise U units cs ds := by
  induction h generalizing cs with
  | nil =>
    cases h'
    exact ⟨[], .nil, .nil⟩
  | cons hab _ ih =>
    cases h' with
    | cons hac h' =>
      obtain ⟨d, hT, hU⟩ := hnext _ _ _ _ hab hac
      obtain ⟨ds, hTs, hUs⟩ := ih h'
      exact ⟨d :: ds, .cons hT hTs, .cons hU hUs⟩

end Placewise

/-- Traversals of lists with a member for each unit. -/
theorem Agrees.mapM_zip {α γ : Type} {S : TimeUnit → γ → γ → Prop}
    {f : TimeUnit → α → Except Problem γ} {units : List TimeUnit} {as bs : List α}
    (h : Placewise (fun u a b => Agrees (S u) (f u a) (f u b)) units as bs) :
    Agrees (Placewise S units) ((units.zip as).mapM fun place => f place.1 place.2)
      ((units.zip bs).mapM fun place => f place.1 place.2) := by
  induction h with
  | nil =>
    rw [List.zip_nil_right, List.mapM_nil]
    exact .ok .nil
  | cons h _ ih =>
    rw [List.zip_cons_cons, List.zip_cons_cons, List.mapM_cons, List.mapM_cons]
    exact h.bind fun _ _ hab => ih.bind fun _ _ hrest => .ok (.cons hab hrest)

/-! ## Terms that are alike -/

/-- Bases that stand for the same ordinals and reach the same, or have the same fault. -/
structure Base.Alike (u : TimeUnit) (b c : Base) : Prop where
  ordinals : Agrees Eq (b.ordinals u) (c.ordinals u)
  reach : Agrees Eq (b.reach u) (c.reach u)
  all_iff : b = .all ↔ c = .all

/-- Terms that stand for the same ordinals or have the same fault. -/
structure Term.Alike (u : TimeUnit) (a b : Term) : Prop where
  ordinals : Agrees Eq (a.ordinals u) (b.ordinals u)
  all_iff : a = .base .all ↔ b = .base .all

section Alike

variable {u : TimeUnit}

theorem Base.Alike.refl (b : Base) : b.Alike u b where
  ordinals := .refl _
  reach := .refl _
  all_iff := .rfl

theorem Base.Alike.term {b c : Base} (h : b.Alike u c) : (Term.base b).Alike u (.base c) where
  ordinals := h.ordinals
  all_iff := by rw [Term.base.injEq, Term.base.injEq, h.all_iff]

theorem Base.Alike.period {b c : Base} {k : Int} (h : b.Alike u c) (hk : 0 < k) :
    (Term.period b k).Alike u (.period c k) where
  ordinals := by
    apply h.reach.bind_same
    intro xs
    rw [Base.step_of_pos hk, Base.step_of_pos hk]
    exact .refl _
  all_iff := by simp

/-- Fields of terms that are alike are resolved alike. -/
theorem Selection.agrees_ofField {f g : Field} (h : List.Forall₂ (Term.Alike u) f.terms g.terms) :
    Agrees Eq (ofField u f) (ofField u g) := by
  obtain ⟨terms⟩ := f
  obtain ⟨terms'⟩ := g
  have hall : Field.isAll ⟨terms⟩ = Field.isAll ⟨terms'⟩ := by
    rw [Bool.eq_iff_iff, Field.isAll_iff, Field.isAll_iff]
    cases h with
    | nil => rfl
    | cons h hrest =>
      cases hrest with
      | nil => simp [h.all_iff]
      | cons _ _ => simp
  rw [ofField, ofField, hall]
  split
  · exact .refl _
  · exact (Agrees.mapM (h.imp fun _ _ h => h.ordinals)).bind_same fun _ => .refl _

end Alike

namespace Fields

theorem agrees_collect {selection selection' : (u : TimeUnit) → Except Problem (Selection u)}
    (h : ∀ u, Agrees Eq (selection u) (selection' u)) :
    Agrees Eq (collect selection) (collect selection') :=
  (h .seconds).bind_same fun _ => (h .minutes).bind_same fun _ =>
    (h .hours).bind_same fun _ => (h .daysOfMonth).bind_same fun _ =>
      (h .months).bind_same fun _ => (h .daysOfWeek).bind_same fun _ =>
        (h .years).bind_same fun _ => .refl _

theorem arrange_eq_error {fields : List Field} (hsix : fields.length ≠ 6)
    (hseven : fields.length ≠ 7) : arrange fields = .error (.fieldCount fields.length) := by
  rw [arrange.eq_def]
  split
  · exact absurd rfl hsix
  · exact absurd rfl hseven
  · rfl

/-- Fields that are related place by place are so unit by unit when they are arranged. -/
theorem agrees_arrange {S : TimeUnit → Field → Field → Prop} {fields fields' : List Field}
    (hS : S .years ⟨[.base .all]⟩ ⟨[.base .all]⟩)
    (h : Placewise S TimeUnit.inOrder fields fields') :
    Agrees (fun fieldOf fieldOf' => ∀ u, S u (fieldOf u) (fieldOf' u)) (arrange fields)
      (arrange fields') := by
  by_cases hsix : fields.length = 6
  · match fields, hsix, h with
    | [_, _, _, _, _, _], _, .cons h₁ (.cons h₂ (.cons h₃ (.cons h₄ (.cons h₅ (.cons h₆ .nil))))) =>
      refine .ok fun u => ?_
      cases u <;> assumption
  by_cases hseven : fields.length = 7
  · match fields, hseven, h with
    | [_, _, _, _, _, _, _], _,
      .cons h₁ (.cons h₂ (.cons h₃ (.cons h₄ (.cons h₅ (.cons h₆ (.cons h₇ .nil)))))) =>
      refine .ok fun u => ?_
      cases u <;> assumption
  · have hlength := h.length_eq
    rw [arrange_eq_error hsix hseven, arrange_eq_error (hlength ▸ hsix) (hlength ▸ hseven), hlength]
    exact .error rfl

/-- Fields that are resolved alike one by one are resolved alike together. -/
theorem agrees_ofFieldList {fields fields' : List Field}
    (h : Placewise (fun u f g => Agrees Eq (Selection.ofField u f) (Selection.ofField u g))
      TimeUnit.inOrder fields fields') :
    Agrees Eq (ofFieldList fields) (ofFieldList fields') :=
  (agrees_arrange (.refl _) h).bind fun _ _ hfields => agrees_collect hfields

/-- What fields that are accepted are resolved to, one by one. -/
theorem ofField_of_ofFieldList {fields : List Field} {F : Fields} (h : ofFieldList fields = .ok F)
    {u : TimeUnit} {f : Field} (hf : (u, f) ∈ TimeUnit.inOrder.zip fields) :
    Selection.ofField u f = .ok (F.get u) := by
  obtain ⟨fieldOf, harrange, hcollect⟩ := bind_eq_ok_iff.1 h
  have hlength : fields.length = 6 ∨ fields.length = 7 := by
    by_contra hne
    rw [not_or] at hne
    rw [arrange_eq_error hne.1 hne.2] at harrange
    cases harrange
  obtain ⟨fieldOf', rest, harrange', -, hplaces⟩ := exists_arrange hlength
  cases harrange.symm.trans harrange'
  have hmem : (u, f) ∈ TimeUnit.inOrder.map fun u => (u, fieldOf u) := by
    rw [hplaces]
    exact List.mem_append_left rest hf
  obtain ⟨_, -, heq⟩ := List.mem_map.1 hmem
  cases heq
  exact collect_eq_ok_iff.1 hcollect u

end Fields
end Timetable
