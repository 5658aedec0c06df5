import Timetable.Proofs.Occurrences

/-!
# Walks that begin again

A walk through the occurrences of a schedule may be left and begun again from a later instant, say
the one at which its owner was started anew.  If the first walk gives anything after that instant,
the second one goes on with just that: what decides it is a single search, whose answer is the same
from every instant between the first one and the answer, although the years that are tried are
counted from another year on.

## Main statements

* `Fields.nextAfter_of_between`: the answer of a search is the answer from every instant before it.
* `Fields.Run.restart`: the run from a later instant is what is left of the earlier run.
* `Occurrences.restart_exact`: the same of what walks give.
-/

namespace Timetable

/-! ## The years of a later search -/

/-- What is among the first members of a list is among the first of those that are kept with it. -/
theorem mem_take_filter {α : Type} {p : α → Bool} {xs : List α} {k : Nat} {x : α}
    (h : x ∈ xs.take k) (hp : p x = true) : x ∈ (xs.filter p).take k := by
  obtain ⟨rest, hrest⟩ := (List.take_prefix k xs).filter p
  have hlength : ((xs.take k).filter p).length ≤ k :=
    (List.length_filter_le p _).trans (List.length_take_le k xs)
  rw [← hrest, List.take_append, List.take_of_length_le hlength]
  exact List.mem_append_left _ (List.mem_filter.2 ⟨h, hp⟩)

namespace Fields

variable {F : Fields} {limit first later year : Int} {a b i r : Instant} {ts : List Instant}

/-- A year that is tried is tried from every later year on that does not leave it behind. -/
theorem mem_yearsFrom_of_first_le (h : year ∈ F.yearsFrom limit first) (hfirst : first ≤ later)
    (hlater : later ≤ year) : year ∈ F.yearsFrom limit later := by
  have hyears : F.years.toList.filter (later ≤ ·) =
      (F.years.toList.filter (first ≤ ·)).filter (later ≤ ·) := by
    rw [List.filter_filter]
    apply List.filter_congr
    intro y _
    grind
  rw [yearsFrom, hyears]
  exact mem_take_filter h (by simpa using hlater)

/-! ## The answer of a later search -/

/-- The answer of a search is also that from any instant between the first one and the answer. -/
theorem nextAfter_of_between (h : F.nextAfter a limit = .ok (some r)) (hab : a.NotAfter b)
    (hbr : b.Precedes r) : F.nextAfter b limit = .ok (some r) := by
  obtain ⟨first, w, hfirst, hw, rfl⟩ := isLeast_of_nextAfter h
  have hlt : b.clock < w := (Instant.precedes_ofClock_iff.1 hbr).2
  cases hnext : b.nextWholeSecond? with
  | none => exact absurd hlt (Instant.not_clock_lt_of_nextWholeSecond?_eq_none hnext)
  | some later =>
    have hlater : ∀ x, later.clock ≤ x → first.clock ≤ x := by
      intro x hx
      rw [← Instant.clock_lt_iff_of_nextWholeSecond? hnext] at hx
      rw [← Instant.clock_lt_iff_of_nextWholeSecond? hfirst]
      exact lt_of_le_of_lt hab.clock_le hx
    have hle : later.clock ≤ w := (Instant.clock_lt_iff_of_nextWholeSecond? hnext).1 hlt
    refine (nextAfter_eq_some_iff hnext).2 ⟨w, ⟨?_, ?_⟩, by rw [hab.zone_eq]⟩
    · exact ⟨hle, hw.1.satisfies, mem_yearsFrom_of_first_le hw.1.year_mem
        (WallClock.year_le_of_le (hlater _ le_rfl)) (WallClock.year_le_of_le hle)⟩
    · -- what would be earlier from `b` on would have been the answer from `a` on
      intro x hx
      rcases le_total w x with hwx | hxw
      · exact hwx
      · exact hw.2 ⟨hlater x hx.not_before, hx.satisfies, mem_yearsFrom_of_le hw.1.year_mem
          (WallClock.year_le_of_le (hlater x hx.not_before)) (WallClock.year_le_of_le hxw)
          (includes_iff.1 hx.satisfies .years)⟩

/-- If a run gives anything after a later instant, the run from there gives just that. -/
theorem Run.restart (h : Run F limit a ts) (hab : a.NotAfter b) (hlater : ∃ t ∈ ts, b.Precedes t) :
    Run F limit b (ts.filter fun t => b.Precedes t) := by
  induction h with
  | ended h => simp at hlater
  | @found i j ts h run ih =>
    by_cases hbj : b.Precedes j
    · have hrest : ∀ t ∈ j :: ts, b.Precedes t := by
        intro t ht
        rcases List.mem_cons.1 ht with rfl | ht
        · exact hbj
        · exact hbj.trans ((List.pairwise_cons.1 run.pairwise_precedes).1 t ht)
      rw [List.filter_eq_self.2 (by simpa using hrest)]
      exact .found (nextAfter_of_between h hab hbj) run
    · have hzone : b.zone = j.zone := by
        rw [(precedes_of_nextAfter h).2.2, hab.zone_eq]
      have hrest : ∃ t ∈ ts, b.Precedes t := by
        obtain ⟨t, ht, hbt⟩ := hlater
        rcases List.mem_cons.1 ht with rfl | ht
        · exact absurd hbt hbj
        · exact ⟨t, ht, hbt⟩
      rw [List.filter_cons_of_neg (by simpa using hbj)]
      exact ih (Instant.notAfter_of_not_precedes hzone hbj) hrest

end Fields

/-- A walk that begins again from an instant that is not earlier, in the same zone and with the same
limit, gives what the first walk gives after that instant and ends with it, if the first walk gives
anything after it.  So the answer of one search is also that from any instant in between. -/
theorem Occurrences.restart_exact (s : Schedule) (a b : Instant) (limit : Int)
    (hab : a.NotAfter b) :
    (∀ env start, s.upcoming env start = env.yearLimit.map fun limit => ⟨s, some start, limit⟩) ∧
      ((∃ n t, (⟨s, some a, limit⟩ : Occurrences).call n = .ok (some t) ∧ b.Precedes t) →
        ∃ ts : List Instant,
          (∀ n, (⟨s, some a, limit⟩ : Occurrences).call n = .ok ts[n]?) ∧
          ∀ n, (⟨s, some b, limit⟩ : Occurrences).call n =
            .ok (ts.filter fun t => b.Precedes t)[n]?) ∧
      ∀ r, s.fields.nextAfter a limit = .ok (some r) → b.Precedes r →
        s.fields.nextAfter b limit = .ok (some r) := by
  refine ⟨fun env start => rfl, ?_, fun r hr hbr => Fields.nextAfter_of_between hr hab hbr⟩
  rintro ⟨n, t, hcall, hbt⟩
  obtain ⟨ts, hrun⟩ := Fields.exists_run_of_call hcall
  have hmem : t ∈ ts := by
    rw [hrun.call_eq] at hcall
    exact List.mem_of_getElem? (Except.ok.inj hcall)
  exact ⟨ts, hrun.call_eq, (hrun.restart hab ⟨t, hmem, hbt⟩).call_eq⟩

/-- Leap days around a century that has none: begun again within the second of the one in 2104, a
walk goes on with the one in 2108. -/
theorem Occurrences.restart_exact_leap_days :
    ∃ (s : Schedule) (a b r : Instant),
      Schedule.parse "0 0 0 29 2 * 2096-2112/4".toList = .ok s ∧ a.NotAfter b ∧
      (⟨s, some a, 400⟩ : Occurrences).call 2 = .ok (some r) ∧ b.Precedes r ∧
      ∃ ts : List Instant,
        (∀ n, (⟨s, some a, 400⟩ : Occurrences).call n = .ok ts[n]?) ∧
        ∀ n, (⟨s, some b, 400⟩ : Occurrences).call n =
          .ok (ts.filter fun t => b.Precedes t)[n]? := by
  let a : Instant := ⟨⟨⟨2092, 2, 29, by decide, by decide, by decide⟩, .midnight⟩, 999999,
    some 3600, by decide⟩
  let b : Instant := ⟨⟨⟨2104, 2, 29, by decide, by decide, by decide⟩, .midnight⟩, 1,
    some 3600, by decide⟩
  let r : Instant := .ofClock ⟨⟨2108, 2, 29, by decide, by decide, by decide⟩, .midnight⟩
    (some 3600)
  have hcall : ∃ s, Schedule.parse "0 0 0 29 2 * 2096-2112/4".toList = .ok s ∧
      (⟨s, some a, 400⟩ : Occurrences).call 2 = .ok (some r) :=
    ⟨_, rfl, by decide⟩
  obtain ⟨s, hparse, hcall⟩ := hcall
  have hab : a.NotAfter b := by decide
  have hbr : b.Precedes r := by decide
  exact ⟨s, a, b, r, hparse, hab, hcall, hbr,
    (restart_exact s a b 400 hab).2.1 ⟨2, r, hcall, hbr⟩⟩

end Timetable
