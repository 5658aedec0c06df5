/-!
# Lists of ordinals

The ordinals of a time unit are integers.  This module has the lists that selections are made from:
intervals, every `k`-th member of a list, and ascending lists without repetition under insertion
and union.

## Main statements

* `mem_interval`, `pairwise_interval`: an interval ascends and has exactly the integers between its
  ends.
* `mem_union`, `pairwise_union`: the union of ascending lists ascends and has the members of both.
* `mem_gather`, `pairwise_gather`: the same for any number of lists in any order.
-/

namespace Timetable.Ordinals

/-! ## Intervals -/

/-- The integers from `a` up to and including `b`, ascending. -/
def interval (a b : Int) : List Int :=
  (List.range (b + 1 - a).toNat).map fun (i : Nat) => a + (i : Int)

@[simp] theorem mem_interval {a b n : Int} : n ∈ interval a b ↔ a ≤ n ∧ n ≤ b := by
  simp only [interval, List.mem_map, List.mem_range]
  constructor
  · rintro ⟨i, hi, rfl⟩
    omega
  · intro h
    exact ⟨(n - a).toNat, by omega, by omega⟩

theorem pairwise_interval (a b : Int) : (interval a b).Pairwise (· < ·) := by
  simp only [interval, List.pairwise_map]
  exact List.pairwise_lt_range.imp fun h => by omega

@[simp] theorem length_interval (a b : Int) : (interval a b).length = (b + 1 - a).toNat := by
  simp [interval]

theorem interval_eq_nil {a b : Int} (h : b < a) : interval a b = [] := by
  have : (b + 1 - a).toNat = 0 := by omega
  simp [interval, this]

theorem interval_eq_cons {a b : Int} (h : a ≤ b) : interval a b = a :: interval (a + 1) b := by
  have e : (b + 1 - a).toNat = (b + 1 - (a + 1)).toNat + 1 := by omega
  simp only [interval, e, List.range_succ_eq_map, List.map_cons, List.map_map]
  simp only [List.cons.injEq]
  refine ⟨by simp, List.map_congr_left fun i _ => ?_⟩
  simp only [Function.comp]
  omega

/-! ## Steps -/

/-- The list after its first `skip` members, from there on every `step + 1`-th member. -/
def stride (step : Nat) : Nat → List Int → List Int
  | _, [] => []
  | 0, x :: xs => x :: stride step step xs
  | skip + 1, _ :: xs => stride step skip xs

/-- Every `k`-th member of a list, starting with the first; the whole list for `k = 0`. -/
def everyNth (k : Nat) (xs : List Int) : List Int :=
  stride (k - 1) 0 xs

/-- Taking every `k`-th member keeps the order and drops others. -/
theorem stride_sublist (step skip : Nat) (xs : List Int) : (stride step skip xs).Sublist xs := by
  induction xs generalizing skip with
  | nil => simp [stride]
  | cons x xs ih =>
    cases skip with
    | zero => exact (ih step).cons_cons x
    | succ skip => exact (ih skip).cons x

theorem everyNth_sublist (k : Nat) (xs : List Int) : (everyNth k xs).Sublist xs :=
  stride_sublist (k - 1) 0 xs

/-! ## Ascending lists -/

/-- Puts an ordinal at its place before the members that `rest` produces of the larger ones. -/
def insertBefore (x : Int) (rest : List Int → List Int) : List Int → List Int
  | [] => x :: rest []
  | y :: ys =>
    if y < x then y :: insertBefore x rest ys
    else if y = x then x :: rest ys
    else x :: rest (y :: ys)

/-- The union of two ascending lists, in one pass over both. -/
def union : List Int → List Int → List Int
  | [], ys => ys
  | x :: xs, ys => insertBefore x (union xs) ys

/-- Puts an ordinal at its place in an ascending list that may already have it. -/
def insert (x : Int) (ys : List Int) : List Int :=
  insertBefore x id ys

/-- The members of a list in ascending order, each once. -/
def ascending (xs : List Int) : List Int :=
  xs.foldr insert []

/-- The members of all the lists in ascending order, each once. -/
def gather (lists : List (List Int)) : List Int :=
  lists.foldr (fun xs ys => union (ascending xs) ys) []

theorem mem_insertBefore {x n : Int} (xs : List Int) {rest : List Int → List Int}
    (hrest : ∀ ys, n ∈ rest ys ↔ n ∈ xs ∨ n ∈ ys) (ys : List Int) :
    n ∈ insertBefore x rest ys ↔ n = x ∨ n ∈ xs ∨ n ∈ ys := by
  induction ys with
  | nil => simp [insertBefore, hrest]
  | cons y ys ih =>
    simp only [insertBefore]
    split
    · simp only [List.mem_cons, ih]
      grind
    · split
      · simp only [List.mem_cons, hrest]
        grind
      · simp only [List.mem_cons, hrest]

@[simp] theorem mem_union {n : Int} {xs ys : List Int} : n ∈ union xs ys ↔ n ∈ xs ∨ n ∈ ys := by
  induction xs generalizing ys with
  | nil => simp [union]
  | cons x xs ih =>
    rw [union, mem_insertBefore xs (fun ys => ih)]
    simp only [List.mem_cons]
    grind

@[simp] theorem mem_insert {n x : Int} {ys : List Int} : n ∈ insert x ys ↔ n = x ∨ n ∈ ys := by
  rw [insert, mem_insertBefore [] (by simp)]
  simp

@[simp] theorem mem_ascending {n : Int} {xs : List Int} : n ∈ ascending xs ↔ n ∈ xs := by
  induction xs with
  | nil => simp [ascending]
  | cons x xs ih =>
    have e : ascending (x :: xs) = insert x (ascending xs) := rfl
    simp [e, ih]

@[simp] theorem mem_gather {n : Int} {lists : List (List Int)} :
    n ∈ gather lists ↔ ∃ xs ∈ lists, n ∈ xs := by
  induction lists with
  | nil => simp [gather]
  | cons xs lists ih =>
    have e : gather (xs :: lists) = union (ascending xs) (gather lists) := rfl
    simp [e, ih]

theorem pairwise_insertBefore {x : Int} (xs : List Int) {rest : List Int → List Int}
    (hmem : ∀ n ys, n ∈ rest ys ↔ n ∈ xs ∨ n ∈ ys)
    (hrest : ∀ ys : List Int, ys.Pairwise (· < ·) → (rest ys).Pairwise (· < ·))
    (hx : ∀ n ∈ xs, x < n) (ys : List Int) (hys : ys.Pairwise (· < ·)) :
    (insertBefore x rest ys).Pairwise (· < ·) := by
  induction ys with
  | nil =>
    refine List.pairwise_cons.2 ⟨fun n hn => ?_, hrest [] hys⟩
    rcases (hmem n []).1 hn with h | h
    · exact hx n h
    · simp at h
  | cons y ys ih =>
    obtain ⟨hy, hys'⟩ := List.pairwise_cons.1 hys
    simp only [insertBefore]
    split
    · rename_i hlt
      refine List.pairwise_cons.2 ⟨fun n hn => ?_, ih hys'⟩
      rcases (mem_insertBefore xs (fun ys => hmem n ys) ys).1 hn with rfl | h | h
      · exact hlt
      · exact Int.lt_trans hlt (hx n h)
      · exact hy n h
    · split
      · rename_i heq
        subst heq
        refine List.pairwise_cons.2 ⟨fun n hn => ?_, hrest ys hys'⟩
        rcases (hmem n ys).1 hn with h | h
        · exact hx n h
        · exact hy n h
      · rename_i hge hne
        refine List.pairwise_cons.2 ⟨fun n hn => ?_, hrest _ hys⟩
        rcases (hmem n _).1 hn with h | h
        · exact hx n h
        · rcases List.mem_cons.1 h with rfl | h
          · omega
          · have := hy n h
            omega

theorem pairwise_union {xs ys : List Int} (hxs : xs.Pairwise (· < ·)) (hys : ys.Pairwise (· < ·)) :
    (union xs ys).Pairwise (· < ·) := by
  induction xs generalizing ys with
  | nil => exact hys
  | cons x xs ih =>
    obtain ⟨hx, hxs'⟩ := List.pairwise_cons.1 hxs
    exact pairwise_insertBefore xs (fun _ _ => mem_union) (fun _ h => ih hxs' h) hx ys hys

theorem pairwise_insert {x : Int} {ys : List Int} (hys : ys.Pairwise (· < ·)) :
    (insert x ys).Pairwise (· < ·) :=
  pairwise_insertBefore [] (by simp) (fun _ h => h) (by simp) ys hys

theorem pairwise_ascending (xs : List Int) : (ascending xs).Pairwise (· < ·) := by
  induction xs with
  | nil => exact List.Pairwise.nil
  | cons x xs ih => exact pairwise_insert ih

theorem pairwise_gather (lists : List (List Int)) : (gather lists).Pairwise (· < ·) := by
  induction lists with
  | nil => exact List.Pairwise.nil
  | cons xs lists ih => exact pairwise_union (pairwise_ascending xs) ih

/-! ## Text -/

/-- A list of ordinals between brackets. -/
def listing (xs : List Int) : String :=
  "[" ++ ", ".intercalate (xs.map fun n => toString n) ++ "]"

end Timetable.Ordinals
