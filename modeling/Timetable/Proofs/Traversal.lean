import Mathlib.Data.List.Forall2

/-!
# Traversals that may fail

A traversal of a list computes one result for each member.  With problems it ends at the first
member that has one, and the members after that are not looked at.

## Main definitions

* `FirstFault`: the fault of the first member of a list that has one.

## Main statements

* `mapM_eq_some_iff`, `mapM_eq_ok_iff`: a traversal succeeds with the results of the members.
* `mapM_eq_error_iff`: a traversal ends with the first fault.
* `exists_mapM_eq_ok_iff`: a traversal succeeds when every member has a result.
-/

namespace Timetable

/-! ## Results of the members -/

theorem exists_mem_of_forall₂ {α β : Type} {R : α → β → Prop} {xs : List α} {ys : List β} {y : β}
    (h : List.Forall₂ R xs ys) (hy : y ∈ ys) : ∃ x ∈ xs, R x y := by
  induction h with
  | nil => simp at hy
  | @cons a b as bs hab _ ih =>
    rcases List.mem_cons.1 hy with rfl | hy
    · exact ⟨a, List.mem_cons_self, hab⟩
    · obtain ⟨x, hx, hxy⟩ := ih hy
      exact ⟨x, List.mem_cons_of_mem a hx, hxy⟩

/-- What is found in a table is one of its entries. -/
theorem mem_of_lookup_eq_some {α β : Type} [BEq α] [LawfulBEq α] {entries : List (α × β)} {a : α}
    {b : β} (h : entries.lookup a = some b) : (a, b) ∈ entries := by
  obtain ⟨before, after, rfl, -⟩ := List.lookup_eq_some_iff.1 h
  simp

theorem mapM_eq_some_iff {α β : Type} {f : α → Option β} {xs : List α} {ys : List β} :
    xs.mapM f = some ys ↔ List.Forall₂ (fun y x => f x = some y) ys xs := by
  induction xs generalizing ys with
  | nil => simp [eq_comm]
  | cons x xs ih =>
    simp only [List.mapM_cons, Option.bind_eq_bind, Option.bind_eq_some_iff, Option.pure_def,
      Option.some.injEq, ih, List.forall₂_cons_right_iff]
    constructor
    · rintro ⟨y, hy, ys, hys, rfl⟩
      exact ⟨y, ys, hy, hys, rfl⟩
    · rintro ⟨y, ys, hy, hys, rfl⟩
      exact ⟨y, hy, ys, hys, rfl⟩

/-! ## The first fault -/

/-- The fault of the first member that has one. -/
inductive FirstFault {α ε : Type} (fault : α → ε → Prop) : List α → ε → Prop where
  | here {x : α} {xs : List α} {p : ε} (h : fault x p) : FirstFault fault (x :: xs) p
  | later {x : α} {xs : List α} {p : ε} (hx : ∀ q, ¬fault x q) (h : FirstFault fault xs p) :
      FirstFault fault (x :: xs) p

section FirstFault

variable {α β ε : Type} {fault : α → ε → Prop} {x : α} {xs ys : List α} {p : ε}

@[simp] theorem not_firstFault_nil : ¬FirstFault fault [] p := by
  intro h
  cases h

theorem firstFault_cons_iff : FirstFault fault (x :: xs) p ↔
    fault x p ∨ (∀ q, ¬fault x q) ∧ FirstFault fault xs p := by
  constructor
  · intro h
    cases h with
    | here h => exact .inl h
    | later hx h => exact .inr ⟨hx, h⟩
  · rintro (h | ⟨hx, h⟩)
    · exact .here h
    · exact .later hx h

theorem FirstFault.exists_mem (h : FirstFault fault xs p) : ∃ x ∈ xs, fault x p := by
  induction h with
  | @here x xs p h => exact ⟨x, List.mem_cons_self, h⟩
  | @later x xs p _ _ ih =>
    obtain ⟨y, hy, h⟩ := ih
    exact ⟨y, List.mem_cons_of_mem x hy, h⟩

/-- Where no member has a fault there is no first one. -/
theorem forall_not_firstFault_iff :
    (∀ p, ¬FirstFault fault xs p) ↔ ∀ x ∈ xs, ∀ p, ¬fault x p := by
  induction xs with
  | nil => simp
  | cons x xs ih =>
    simp only [firstFault_cons_iff, not_or, not_and, forall_and, List.forall_mem_cons, ← ih]
    exact and_congr_right fun hx => ⟨fun h p => h p hx, fun h p _ => h p⟩

theorem firstFault_append_iff : FirstFault fault (xs ++ ys) p ↔
    FirstFault fault xs p ∨ (∀ q, ¬FirstFault fault xs q) ∧ FirstFault fault ys p := by
  induction xs with
  | nil => simp
  | cons x xs ih =>
    simp only [List.cons_append, firstFault_cons_iff, ih]
    by_cases hx : ∃ q, fault x q
    · obtain ⟨q, hq⟩ := hx
      have hfirst : ¬∀ q, ¬fault x q := fun h => h q hq
      simp only [hfirst, false_and, or_false]
    · simp [not_exists.1 hx]

theorem firstFault_map_iff {f : β → α} {bs : List β} : FirstFault fault (bs.map f) p ↔
    FirstFault (fun b => fault (f b)) bs p := by
  induction bs with
  | nil => simp
  | cons b bs ih => simp only [List.map_cons, firstFault_cons_iff, ih]

/-- The first fault of lists one after the other is the first among the first of each. -/
theorem firstFault_flatMap_iff {f : β → List α} {bs : List β} :
    FirstFault fault (bs.flatMap f) p ↔ FirstFault (fun b => FirstFault fault (f b)) bs p := by
  induction bs with
  | nil => simp
  | cons b bs ih => simp only [List.flatMap_cons, firstFault_append_iff, firstFault_cons_iff, ih]

theorem firstFault_congr {other : α → ε → Prop} (h : ∀ x ∈ xs, ∀ q, fault x q ↔ other x q) :
    FirstFault fault xs p ↔ FirstFault other xs p := by
  induction xs with
  | nil => simp
  | cons x xs ih =>
    obtain ⟨hx, hxs⟩ := List.forall_mem_cons.1 h
    simp only [firstFault_cons_iff, hx, ih hxs]

end FirstFault

/-! ## Problems -/

section Traversal

variable {α β ε : Type} {f : α → Except ε β} {xs : List α} {p : ε}

theorem bind_eq_error_iff {x : Except ε α} :
    (x >>= f) = .error p ↔ x = .error p ∨ ∃ a, x = .ok a ∧ f a = .error p := by
  cases x <;> simp [bind, Except.bind]

theorem bind_eq_ok_iff {x : Except ε α} {b : β} :
    (x >>= f) = .ok b ↔ ∃ a, x = .ok a ∧ f a = .ok b := by
  cases x <;> simp [bind, Except.bind]

theorem mapError_eq_ok_iff {ε' : Type} {g : ε → ε'} {x : Except ε α} {a : α} :
    x.mapError g = .ok a ↔ x = .ok a := by
  cases x <;> simp [Except.mapError]

theorem mapError_eq_error_iff {ε' : Type} {g : ε → ε'} {x : Except ε α} {q : ε'} :
    x.mapError g = .error q ↔ ∃ p, x = .error p ∧ g p = q := by
  cases x <;> simp [Except.mapError]

theorem exists_ok_iff {x : Except ε α} : (∃ a, x = .ok a) ↔ ∀ p, x ≠ .error p := by
  cases x <;> simp

/-- A result that can be computed to be there. -/
theorem exists_ok_of_isSome {x : Except ε α} (h : x.toOption.isSome = true) : ∃ a, x = .ok a := by
  cases x with
  | error p => cases h
  | ok a => exact ⟨a, rfl⟩

/-- A traversal succeeds with the results of the members. -/
theorem mapM_eq_ok_iff {ys : List β} :
    xs.mapM f = .ok ys ↔ List.Forall₂ (fun x y => f x = .ok y) xs ys := by
  induction xs generalizing ys with
  | nil => simp [pure, Except.pure, eq_comm]
  | cons x xs ih =>
    simp only [List.mapM_cons, bind_eq_ok_iff, ih, pure, Except.pure, Except.ok.injEq,
      List.forall₂_cons_left_iff]
    constructor
    · rintro ⟨y, hy, ys, hys, rfl⟩
      exact ⟨y, ys, hy, hys, rfl⟩
    · rintro ⟨y, ys, hy, hys, rfl⟩
      exact ⟨y, hy, ys, hys, rfl⟩

/-- A traversal ends with the problem of the first member that has one. -/
theorem mapM_eq_error_iff :
    xs.mapM f = .error p ↔ FirstFault (fun x q => f x = .error q) xs p := by
  induction xs with
  | nil => simp [pure, Except.pure]
  | cons x xs ih =>
    simp only [List.mapM_cons, bind_eq_error_iff, ih, pure, Except.pure, reduceCtorEq, and_false,
      exists_false, or_false, exists_and_right, exists_ok_iff, firstFault_cons_iff,
      ne_eq]

/-- A traversal succeeds when every member has a result. -/
theorem exists_mapM_eq_ok_iff : (∃ ys, xs.mapM f = .ok ys) ↔ ∀ x ∈ xs, ∃ y, f x = .ok y := by
  simp only [exists_ok_iff, ne_eq, mapM_eq_error_iff, forall_not_firstFault_iff]

end Traversal

end Timetable
