import Timetable.Text.Printable

/-!
# Quoted text

Messages show text between apostrophes, or between quotation marks when it holds an apostrophe and
no quotation mark.  The enclosing mark and the backslash are escaped, and so is every character
that is not printable.
-/

namespace Timetable.Text

/-- The mark that encloses quoted text by default. -/
def apostrophe : Char := '\x27'

/-- The mark that encloses text which holds apostrophes only. -/
def quotationMark : Char := '\x22'

/-- The mark that encloses a text. -/
def enclosingMark (s : Text) : Char :=
  if apostrophe ∈ s ∧ quotationMark ∉ s then quotationMark else apostrophe

/-- A number in lower-case hexadecimal, filled up with zeros to a width. -/
def hexadecimal (width n : Nat) : Text :=
  let ds := Nat.toDigits 16 n
  List.replicate (width - ds.length) '0' ++ ds

/-- An escape by code point, in the shortest of the three forms that hold it. -/
def escapeCode (n : Nat) : Text :=
  if n < 0x100 then '\\' :: 'x' :: hexadecimal 2 n
  else if n < 0x10000 then '\\' :: 'u' :: hexadecimal 4 n
  else '\\' :: 'U' :: hexadecimal 8 n

/-- A character inside quoted text. -/
def escape (mark c : Char) : Text :=
  if c = mark ∨ c = '\\' then ['\\', c]
  else if c = '\n' then ['\\', 'n']
  else if c = '\r' then ['\\', 'r']
  else if c = '\t' then ['\\', 't']
  else if isPrintable c then [c]
  else escapeCode c.toNat

/-- The quoted form of a text. -/
def quote (s : Text) : Text :=
  let mark := enclosingMark s
  mark :: s.flatMap (escape mark) ++ [mark]

end Timetable.Text
