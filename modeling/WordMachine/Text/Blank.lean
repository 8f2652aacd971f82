/-!
# Blank characters at the end of a text

A message that quotes a line of source leaves out the blanks at its end.  Source
may hold any character, so "blank" here is the Unicode property White_Space and
not the four blanks of the grammar.  The property has twenty-five members in ten
ranges.
-/

namespace WordMachine
namespace Text

/-- The ranges of the property White_Space, as first and last code point. -/
def blankRanges : List (Nat × Nat) :=
  [(0x0009, 0x000D), (0x0020, 0x0020), (0x0085, 0x0085), (0x00A0, 0x00A0),
   (0x1680, 0x1680), (0x2000, 0x200A), (0x2028, 0x2029), (0x202F, 0x202F),
   (0x205F, 0x205F), (0x3000, 0x3000)]

/-- Whether a character is blank. -/
def isBlank (c : Char) : Bool :=
  blankRanges.any fun r => r.1 ≤ c.toNat && c.toNat ≤ r.2

/-- The table lists twenty-five characters. -/
example : (blankRanges.map fun r => r.2 + 1 - r.1).sum = 25 := by decide

/-- Every blank that core knows is in the table. -/
theorem isBlank_of_isWhitespace {c : Char} (h : c.isWhitespace = true) : isBlank c = true := by
  simp only [Char.isWhitespace, Bool.or_eq_true, decide_eq_true_eq] at h
  rcases h with ((rfl | rfl) | rfl) | rfl <;> decide

/-- A text without the blanks at its end. -/
def trimEnd (cs : List Char) : List Char := (cs.reverse.dropWhile isBlank).reverse

/-- What is left of a text does not end in a blank. -/
theorem not_isBlank_of_trimEnd {cs ds : List Char} {c : Char} (h : trimEnd cs = ds ++ [c]) :
    isBlank c = false := by
  have h' : cs.reverse.dropWhile isBlank = c :: ds.reverse := by
    have := congrArg List.reverse h
    simpa [trimEnd] using this
  have := List.head?_dropWhile_not isBlank cs.reverse
  simpa [h'] using this

/-- The first line of a text, without its line break. -/
def firstLine (cs : List Char) : List Char := cs.takeWhile (· != '\n')

end Text
end WordMachine
