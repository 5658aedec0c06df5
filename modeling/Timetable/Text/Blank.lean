import Timetable.Text.CodeRanges

/-!
# White space

White space is the Unicode class of that name together with the four separator controls
U+001C to U+001F.  `strip` removes it from both ends of a text, `words` cuts a text at its runs.
-/

namespace Timetable.Text

/-- The code points of white space. -/
def blankRanges : CodeRanges :=
  [(0x09, 0x0D), (0x1C, 0x20), (0x85, 0x85), (0xA0, 0xA0), (0x1680, 0x1680), (0x2000, 0x200A),
   (0x2028, 0x2029), (0x202F, 0x202F), (0x205F, 0x205F), (0x3000, 0x3000)]

/-- White space separates fields and may surround them. -/
def isBlank (c : Char) : Bool :=
  blankRanges.contains c

/-- The text without the white space at either end. -/
def strip (s : Text) : Text :=
  ((s.dropWhile isBlank).reverse.dropWhile isBlank).reverse

/-- Whether a text is empty or begins with white space. -/
def startsBlank : Text → Bool
  | [] => true
  | c :: _ => isBlank c

/-- The maximal runs of characters other than white space, in order. -/
def words : Text → List Text
  | [] => []
  | c :: rest =>
    if isBlank c then words rest
    else if startsBlank rest then [c] :: words rest
    else (words rest).modifyHead (c :: ·)

@[simp] theorem words_nil : words [] = [] := rfl

@[simp] theorem words_blank_cons {c : Char} {rest : Text} (h : isBlank c = true) :
    words (c :: rest) = words rest := by
  simp [words, h]

/-- A text that begins with a character other than white space has a first word. -/
theorem words_ne_nil {s : Text} (h : startsBlank s = false) : words s ≠ [] := by
  induction s with
  | nil => simp [startsBlank] at h
  | cons c rest ih =>
    simp only [startsBlank] at h
    simp only [words, h, Bool.false_eq_true, ↓reduceIte]
    split
    · simp
    · rename_i hr
      have := ih (by simpa using hr)
      cases hw : words rest with
      | nil => exact absurd hw this
      | cons w ws => simp

/-- Cutting a text into words loses nothing but its white space. -/
theorem flatten_words (s : Text) : (words s).flatten = s.filter (fun c => !isBlank c) := by
  induction s with
  | nil => rfl
  | cons c rest ih =>
    by_cases h : isBlank c = true
    · simp [words, h, ih]
    · simp only [words, h, Bool.false_eq_true, ↓reduceIte]
      split
      · simp [h, ih]
      · rename_i hr
        have := words_ne_nil (by simpa using hr)
        cases hw : words rest with
        | nil => exact absurd hw this
        | cons w ws => simp [hw, ← ih, h]

end Timetable.Text
