import Timetable.Proofs.Denotation
import Timetable.Proofs.Equality
import Mathlib.Data.List.Chain

/-!
# Progressions of ordinals

The ordinals that a single term stands for are evenly spaced, and so are those of a selection that
comes from one term or has the whole domain.

## Main definitions

* `Ordinals.Progression`: an evenly spaced list.

## Main statements

* `Ordinals.progression_everyNth`: every `k`-th member of an interval.
* `Term.exists_progression`, `Selection.exists_progression`: what a single term stands for.
-/

namespace Timetable

/-! ## Evenly spaced lists -/

namespace Ordinals

/-- A list where each member is larger by `d` than the one before. -/
def Progression (d : Int) (xs : List Int) : Prop :=
  xs.IsChain fun m n => n = m + d

variable {d a b x y : Int} {xs : List Int} {i k n : Nat}

namespace Progression

theorem pairwise (h : Progression d xs) (hd : 0 < d) : xs.Pairwise (· < ·) := by
  have hlt : xs.IsChain (· < ·) := h.imp fun m n hn => by omega
  exact List.isChain_iff_pairwise.1 hlt

/-- The part of an evenly spaced list from a bound on is evenly spaced. -/
theorem filter_ge (h : Progression d xs) (hd : 0 < d) (a : Int) :
    Progression d (xs.filter (a ≤ ·)) := by
  rw [← dropWhile_lt_eq_filter (h.pairwise hd)]
  exact List.IsChain.suffix h (List.dropWhile_suffix _)

/-- Members that are `n` places apart differ by `n` times the space between two. -/
theorem eq_add_mul (h : Progression d xs) (hx : xs[i]? = some x) (hy : xs[i + n]? = some y) :
    y = x + n * d := by
  induction n generalizing y with
  | zero =>
    rw [Nat.add_zero, hx] at hy
    cases hy
    simp
  | succ n ih =>
    obtain ⟨hlt, rfl⟩ := List.getElem?_eq_some_iff.1 hy
    have hprevious : i + n < xs.length := Nat.lt_of_succ_lt hlt
    calc xs[i + (n + 1)] = xs[i + n] + d := List.isChain_iff_getElem.1 h (i + n) hlt
      _ = x + n * d + d := by rw [ih (List.getElem?_eq_getElem hprevious)]
      _ = x + (n + 1 : Nat) * d := by
        rw [Int.natCast_add, Int.add_mul, Int.natCast_one, Int.one_mul, Int.add_assoc]

/-- A member that comes after the first `k` is `n < k` places after another one that is not the
first. -/
theorem sub_mul_mem (h : Progression d xs) (hd : 0 < d) (hy : y ∈ xs) (hout : y ∉ xs.take k)
    (hn : n < k) : y - n * d ∈ xs ∧ ∀ x ∈ xs.head?, x < y - n * d := by
  obtain ⟨i, hi⟩ := List.mem_iff_getElem?.1 hy
  have hplace : k ≤ i := by
    by_contra hlt
    exact hout (List.mem_iff_getElem?.2
      ⟨i, by rw [List.getElem?_take_of_lt (Nat.lt_of_not_le hlt), hi]⟩)
  obtain ⟨j, rfl⟩ : ∃ j, i = 0 + (j + 1) + n := ⟨i - n - 1, by omega⟩
  obtain ⟨hlt, -⟩ := List.getElem?_eq_some_iff.1 hi
  have hearlier := List.getElem?_eq_getElem (Nat.lt_of_le_of_lt (Nat.le_add_right _ n) hlt)
  have hmem := List.mem_iff_getElem?.2 ⟨_, hearlier⟩
  have hspace := h.eq_add_mul hearlier hi
  have hsub : y - n * d = xs[0 + (j + 1)] := by omega
  rw [hsub]
  refine ⟨hmem, ?_⟩
  intro x hx
  rw [List.head?_eq_getElem?] at hx
  have hfirst := h.eq_add_mul hx hearlier
  have hpos : 0 < ((j + 1 : Nat) : Int) * d := Int.mul_pos (by omega) hd
  omega

end Progression

theorem progression_interval (a b : Int) : Progression 1 (interval a b) := by
  generalize hn : (b + 1 - a).toNat = n
  induction n generalizing a with
  | zero =>
    rw [interval_eq_nil (by omega)]
    exact .nil
  | succ n ih =>
    rw [interval_eq_cons (by omega)]
    refine List.isChain_cons.2 ⟨?_, ih (a + 1) (by omega)⟩
    intro x hx
    have hmem := mem_interval.1 (List.mem_of_mem_head? hx)
    rw [interval_eq_cons (hmem.1.trans hmem.2)] at hx
    exact (Option.some.inj hx).symm

/-- Steps through consecutive integers are evenly spaced and begin after those that are skipped. -/
theorem progression_stride (h : Progression 1 xs) (step skip : Nat) :
    (∀ x ∈ xs.head?, ∀ y ∈ (stride step skip xs).head?, y = x + skip) ∧
      Progression (step + 1) (stride step skip xs) := by
  induction xs generalizing skip with
  | nil => exact ⟨by simp, .nil⟩
  | cons x xs ih =>
    obtain ⟨hhead, htail⟩ := List.isChain_cons.1 h
    -- the first member after `x` is found among the consecutive integers from `x + 1` on
    have hnext : ∀ skip, ∀ y ∈ (stride step skip xs).head?, y = x + 1 + skip := by
      intro skip y hy
      cases xs with
      | nil => simp [stride] at hy
      | cons z xs =>
        rw [← hhead z rfl]
        exact (ih htail skip).1 z rfl y hy
    cases skip with
    | zero =>
      refine ⟨?_, List.isChain_cons.2 ⟨?_, (ih htail step).2⟩⟩
      · intro w hw y hy
        cases hw
        cases hy
        simp
      · intro y hy
        have := hnext step y hy
        omega
    | succ skip =>
      refine ⟨?_, (ih htail skip).2⟩
      intro w hw y hy
      cases hw
      have := hnext skip y hy
      omega

/-- Every `k`-th member of an interval. -/
theorem progression_everyNth {k : Nat} (hk : 0 < k) (a b : Int) :
    Progression k (everyNth k (interval a b)) := by
  have h := (progression_stride (progression_interval a b) (k - 1) 0).2
  have hcast : ((k - 1 : Nat) : Int) + 1 = k := by omega
  rwa [hcast] at h

end Ordinals

/-! ## What a single term stands for -/

/-- The ordinals that a term stands for are evenly spaced. -/
theorem Term.exists_progression {u : TimeUnit} {a : Term} {xs : List Int} (ha : a.StepsForward)
    (h : a.ordinals u = .ok xs) : ∃ d, 0 < d ∧ Ordinals.Progression d xs := by
  cases a with
  | base b =>
    obtain ⟨first, last, -, -, -, -, rfl⟩ := Base.ordinals_eq_ok_iff.1 h
    exact ⟨1, by decide, Ordinals.progression_interval first last⟩
  | name s =>
    simp only [ordinals, bind_eq_ok_iff] at h
    obtain ⟨_, -, n, -, h⟩ := h
    cases h
    exact ⟨1, by decide, .singleton n⟩
  | period b k =>
    have hk : 0 < k := ha
    simp only [ordinals, bind_eq_ok_iff, Base.step_of_pos hk, Base.reach_eq_ok_iff] at h
    obtain ⟨_, ⟨first, last, -, -, -, -, rfl⟩, h⟩ := h
    cases h
    exact ⟨k.toNat, by omega, Ordinals.progression_everyNth (by omega) first _⟩

/-- A selection has the whole domain or is what a single term stands for. -/
def Selection.SingleTerm {u : TimeUnit} (s : Selection u) : Prop :=
  s.isAll = true ∨ ∃ a : Term, a.StepsForward ∧ ofField u ⟨[a]⟩ = .ok s

/-- The ordinals of such a selection are evenly spaced. -/
theorem Selection.SingleTerm.exists_progression {u : TimeUnit} {s : Selection u}
    (h : s.SingleTerm) : ∃ d, 0 < d ∧ Ordinals.Progression d s.toList := by
  have hdomain : s.isAll = true → ∃ d, 0 < d ∧ Ordinals.Progression d s.toList := by
    intro hall
    rw [isAll_iff.1 hall]
    exact ⟨1, by decide, Ordinals.progression_interval u.lo u.hi⟩
  rcases h with hall | ⟨a, ha, h⟩
  · exact hdomain hall
  · rw [ofField] at h
    split at h
    · cases h
      exact hdomain rfl
    · simp only [List.mapM_cons, List.mapM_nil, bind_eq_ok_iff] at h
      obtain ⟨_, ⟨xs, hxs, _, hnil, hlists⟩, h⟩ := h
      cases hnil
      cases hlists
      obtain ⟨d, hd, hprogression⟩ := Term.exists_progression ha hxs
      have htoList : s.toList = xs := by
        apply s.pairwise_toList.eq_of_mem_iff (hprogression.pairwise hd)
        intro n
        rw [toList_of_ofLists h, Ordinals.mem_gather]
        simp
      exact ⟨d, hd, htoList ▸ hprogression⟩

end Timetable
