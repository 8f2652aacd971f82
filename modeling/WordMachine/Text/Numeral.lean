/-!
# Numerals of a fixed shape

Addresses, bytes and register values are written in numerals whose width does
not depend on the value: a byte is two hexadecimal digits, a word four, a byte in
binary eight.  All of them come from one function, `digits`, which takes the
base, the width and the value and lists the digits from the most significant
down; a value that needs more room loses its leading digits.

Columns of text are aligned by `padRight` and `padLeft`, which count characters
and never cut.
-/

namespace WordMachine
namespace Text

/-- The digits of `n` in base `base`, most significant first, exactly `width`
of them. -/
def digits (base : Nat) : Nat → Nat → List Nat
  | 0, _ => []
  | width + 1, n => digits base width (n / base) ++ [n % base]

@[simp] theorem length_digits (base width n : Nat) : (digits base width n).length = width := by
  induction width generalizing n with
  | zero => rfl
  | succ width ih => simp [digits, ih]

/-- The two ways of writing the hexadecimal digits above nine. -/
inductive LetterCase where
  | upper
  | lower
  deriving DecidableEq, Repr

/-- The character for a digit below sixteen. -/
def digitChar (letters : LetterCase) (d : Nat) : Char :=
  match letters with
  | .upper => d.digitChar.toUpper
  | .lower => d.digitChar

/-- A numeral of fixed width. -/
def numeral (letters : LetterCase) (base width n : Nat) : String :=
  String.ofList ((digits base width n).map (digitChar letters))

/-- A hexadecimal numeral in capitals. -/
def hexUpper (width n : Nat) : String := numeral .upper 16 width n

/-- A hexadecimal numeral in small letters. -/
def hexLower (width n : Nat) : String := numeral .lower 16 width n

/-- A numeral in binary. -/
def binary (width n : Nat) : String := numeral .lower 2 width n

/-- Widens a text with spaces on its right. -/
def padRight (width : Nat) (s : String) : String :=
  s ++ String.ofList (List.replicate (width - s.length) ' ')

/-- Widens a text with spaces on its left. -/
def padLeft (width : Nat) (s : String) : String :=
  String.ofList (List.replicate (width - s.length) ' ') ++ s

/-- What a character stands for as a hexadecimal digit.  Only the digits and
letters of ASCII stand for one. -/
def hexValue? (c : Char) : Option Nat :=
  if c.isDigit then some (c.toNat - '0'.toNat)
  else if 'a' ≤ c ∧ c ≤ 'f' then some (c.toNat - 'a'.toNat + 10)
  else if 'A' ≤ c ∧ c ≤ 'F' then some (c.toNat - 'A'.toNat + 10)
  else none

/-- Whether a character is a hexadecimal digit. -/
def isHexDigit (c : Char) : Bool := (hexValue? c).isSome

end Text
end WordMachine
