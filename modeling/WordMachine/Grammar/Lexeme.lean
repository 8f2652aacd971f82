import WordMachine.Grammar.Rule
import WordMachine.Text.Numeral

/-!
# Blanks, comments, identifiers and digits

The smallest pieces of the grammar.  All of its character classes are ASCII: a
letter with an accent is neither part of an identifier nor blank.

Two kinds of blank matter.  Within a line only spaces and tabs count
(`isSpace`).  Between statements, between braces and around the operators of a
chain line breaks count as well (`isGap`).  Between statements and between braces
there may also be comments, which run from two semicolons to the end of the line;
blanks and comments together are a *gap*.
-/

namespace WordMachine
namespace Lexeme

open Rule

/-- Blanks within a line. -/
def isSpace (c : Char) : Bool := c == ' ' || c == '\t'

/-- The characters that break a line. -/
def isBreak (c : Char) : Bool := c == '\r' || c == '\n'

/-- Blanks across lines. -/
def isGap (c : Char) : Bool := isSpace c || isBreak c

/-- The characters an identifier starts with. -/
def isNameStart (c : Char) : Bool := c.isAlpha || c == '_'

/-- The characters an identifier goes on with. -/
def isNameRest (c : Char) : Bool := c.isAlphanum || c == '_'

/-- How far blanks and comments reach, `count` characters of them having been
read already.  Within a comment every character counts up to the line break, and
the break is a blank again. -/
def gapFrom (inComment : Bool) (count : Nat) : List Char → Nat
  | [] => count
  | c :: rest =>
    if isGap c then gapFrom (inComment && !isBreak c) (count + 1) rest
    else if inComment then gapFrom true (count + 1) rest
    else if c == ';' && rest.head? == some ';' then gapFrom true (count + 1) rest
    else count

/-- The number of characters of blanks and comments that are ahead. -/
def gapLength (s : List Char) : Nat := gapFrom false 0 s

/-- Reads blanks and comments, perhaps none. -/
def gap : Rule Unit := fun s => some ((), gapLength s)

/-- Reads blanks within the line, perhaps none. -/
def spaces0 : Rule Unit := do
  let _ ← while0 isSpace
  pure ()

/-- Reads blanks within the line, at least one. -/
def spaces1 : Rule Unit := do
  let _ ← while1 isSpace
  pure ()

/-- Reads blanks across lines, perhaps none. -/
def gaps0 : Rule Unit := do
  let _ ← while0 isGap
  pure ()

/-- Allows blanks within the line on both sides. -/
def spaced {α : Type} (p : Rule α) : Rule α := do
  spaces0
  let a ← p
  spaces0
  pure a

/-- Allows blanks across lines on both sides. -/
def wide {α : Type} (p : Rule α) : Rule α := do
  gaps0
  let a ← p
  gaps0
  pure a

/-- Reads an identifier. -/
def identifier : Rule String := fun s =>
  match s with
  | [] => none
  | c :: rest =>
    if isNameStart c then
      let read := rest.takeWhile isNameRest
      some (String.ofList (c :: read), read.length + 1)
    else none

theorem progress_identifier : Progress identifier := by
  intro s a n h
  cases s with
  | nil => simp [identifier] at h
  | cons c rest =>
    simp only [identifier] at h
    split at h
    · simp at h; omega
    · simp at h

/-- Reads hexadecimal digits, at least one. -/
def hexDigits : Rule String := do
  let read ← while1 Text.isHexDigit
  pure (String.ofList read)

/-- Reads a literal and answers its digits. -/
def hexLiteral : Rule String := do
  char '$'
  hexDigits

/-- What may stand where a line has to end: a line break, a comment, or nothing
more at all. -/
def endsLine : List Char → Bool
  | [] => true
  | '\n' :: _ => true
  | '\r' :: '\n' :: _ => true
  | ';' :: ';' :: _ => true
  | _ => false

/-- Reads blanks and requires the line to end after them. -/
def lineEnd : Rule Unit := do
  spaces0
  ahead endsLine

end Lexeme
end WordMachine
