import Timetable.Text.CodeRanges

/-!
# Decimal numerals

A numeral is a run of ASCII digits, leading zeros allowed, of at most `longestNumeral` digits.
`write` gives the shortest numeral of a number, and reading it gives the number back.  The bound
holds in both directions: an integer with a longer numeral cannot become part of a message, and the
attempt fails with a message of its own.
-/

namespace Timetable.Text

/-- The most digits a numeral may have, leading zeros included. -/
def longestNumeral : Nat := 4300

namespace Numeral

/-- The number that a numeral stands for; other texts are refused. -/
def read? (s : Text) : Option Nat :=
  if s ≠ [] ∧ s.length ≤ longestNumeral ∧ s.all Char.isDigit then some (Nat.ofDigitChars 10 s 0)
  else none

/-- The shortest numeral of a number. -/
def write (n : Nat) : Text :=
  Nat.toDigits 10 n

theorem read?_eq_some_iff {s : Text} {n : Nat} :
    read? s = some n ↔
      s ≠ [] ∧ s.length ≤ longestNumeral ∧ s.all Char.isDigit = true ∧
        Nat.ofDigitChars 10 s 0 = n := by
  simp only [read?]
  split
  · rename_i h
    simp [h.1, h.2.1, h.2.2]
  · rename_i h
    simp only [reduceCtorEq, false_iff]
    exact fun ⟨h₁, h₂, h₃, _⟩ => h ⟨h₁, h₂, h₃⟩

/-- The least number with more than some number of digits, a power of ten. -/
def leastLonger (k : Nat) : Nat :=
  Nat.pow 10 k

theorem length_write_le_iff {n k : Nat} (hk : 0 < k) :
    (write n).length ≤ k ↔ n < leastLonger k :=
  Nat.length_toDigits_le_iff (by decide) hk

end Numeral

/-- An integer can be written when the numeral of its absolute value is not too long. -/
def Writable (n : Int) : Prop :=
  (Numeral.write n.natAbs).length ≤ longestNumeral

instance (n : Int) : Decidable (Writable n) :=
  inferInstanceAs (Decidable (_ ≤ _))

/-- What is said in the place of a message with an integer that cannot be written. -/
def overlongMessage : String :=
  s!"Exceeds the limit ({longestNumeral} digits) for integer string conversion; " ++
    "use sys.set_int_max_str_digits() to increase the limit"

/-- The least number with too many digits. -/
def leastOverlong : Nat :=
  Numeral.leastLonger longestNumeral

theorem writable_iff {n : Int} : Writable n ↔ n.natAbs < leastOverlong :=
  Numeral.length_write_le_iff (by decide)

theorem leastOverlong_pos : 0 < leastOverlong :=
  writable_iff.1 (by decide : Writable 0)

theorem writable_neg {n : Int} : Writable (-n) ↔ Writable n := by
  rw [Writable, Writable, Int.natAbs_neg]

theorem not_writable_leastOverlong : ¬Writable leastOverlong := by
  rw [writable_iff, Int.natAbs_natCast]
  exact Nat.lt_irrefl _

/-- Integers of up to four digits can be written. -/
theorem writable_of_natAbs_lt {n : Int} (h : n.natAbs < 10000) : Writable n :=
  Nat.le_trans ((Numeral.length_write_le_iff (k := 4) (by decide)).2 h) (by decide)

end Timetable.Text
