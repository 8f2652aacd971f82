import WordMachine.Text.Blank
import WordMachine.Assembly.Error
import WordMachine.Grammar.Statement

/-!
# The grammar of programs

A program is a list of statements with blanks and comments between them.  The
statements are read one after the other; the rule for a statement answers how many
characters it has read, and that is all that is needed to keep the line and the
column of the next one.  Columns count bytes of UTF-8 and not characters.

The first place where no statement can be read ends the reading.  If an
identifier stands there that is a mnemonic, then the instruction exists and its
operands are at fault; otherwise the text itself is, and the rest of the line is
quoted.

The loop ends because a statement reads at least one character
(`Grammar.statement_pos`).
-/

namespace WordMachine

/-- A place in a text: its line and its column, both counted from one, the column
in bytes. -/
structure Position where
  line : Nat
  column : Nat
  deriving DecidableEq, Repr

namespace Position

/-- Where a text starts. -/
def start : Position := ⟨1, 1⟩

/-- The place after one more character. -/
def step (p : Position) (c : Char) : Position :=
  if c = '\n' then ⟨p.line + 1, 1⟩ else ⟨p.line, p.column + c.utf8Size⟩

/-- The place after more text. -/
def advance (p : Position) (s : List Char) : Position := s.foldl step p

@[simp] theorem advance_nil (p : Position) : p.advance [] = p := rfl

@[simp] theorem advance_append (p : Position) (s t : List Char) :
    p.advance (s ++ t) = (p.advance s).advance t := by
  simp [advance]

end Position

namespace Program

open Rule Lexeme

/-- What is wrong with a text at whose start no statement can be read. -/
def failure (p : Position) (s : List Char) : AssemblyError :=
  let unexpected := .unexpected p.line p.column (String.ofList (Text.trimEnd (Text.firstLine s)))
  match identifier s with
  | some (name, _) =>
    if (Opcode.forms name).isEmpty then unexpected else .unknownInstruction p.line name
  | none => unexpected

/-- Reads the statements of a text that starts at a given place, behind statements
already read. -/
def statementsFrom (acc : List Placed) (p : Position) (s : List Char) :
    Except AssemblyError (List Placed) :=
  let k := gapLength s
  let p := p.advance (s.take k)
  match _ : s.drop k with
  | [] => .ok acc.reverse
  | c :: rest =>
    match _ : Grammar.statement (c :: rest) with
    | none => .error (failure p (c :: rest))
    | some (st, n) =>
      statementsFrom (⟨p.line, st⟩ :: acc) (p.advance ((c :: rest).take n)) ((c :: rest).drop n)
termination_by s.length
decreasing_by
  have h1 : 0 < n := Grammar.statement_pos ‹_›
  have h2 : (s.drop k).length ≤ s.length := by simp
  have h3 : (s.drop k).length = rest.length + 1 := by simp [*]
  simp only [List.length_drop, List.length_cons]
  omega

/-- The statements of a source text, each with the line on which it starts. -/
def parse (source : String) : Except AssemblyError (List Placed) :=
  statementsFrom [] .start source.toList

end Program
end WordMachine
