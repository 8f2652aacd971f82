import WordMachine.Register
import WordMachine.Instruction.Opcode
import WordMachine.MachineCode
import WordMachine.Expr.Basic

/-!
# Statements

A program is a list of statements.  A statement is an instruction, or it defines
a name: a label, a constant, a block of data or a struct.  Every definition may
be exported, so the name and the export mark belong to the statement and not to
the four kinds of definition.

Literals are kept as their digits.  What they are worth is a matter of
assembling, and only the digits can be shown again as they were written.
-/

namespace WordMachine

/-- An operand of an instruction. -/
inductive Operand where
  /-- A register, by its slot. -/
  | register (slot : Byte)
  /-- Anything that stands for a word. -/
  | value (e : Expr)
  deriving DecidableEq, Repr

/-- The operand as text. -/
def Operand.text : Operand → String
  | .register slot => (Register.nameOfSlot? slot).getD "r?"
  | .value e => e.text

/-- What a name can be defined to be. -/
inductive Definition where
  /-- The address of what follows. -/
  | label
  /-- The value of a literal. -/
  | constant (digits : String)
  /-- The address of a block of literals, all stored in one width. -/
  | data (width : Width) (values : List String)
  /-- A record layout: the members' names and their sizes. -/
  | struct (members : List (String × String))
  deriving DecidableEq, Repr

/-- One statement of a program. -/
inductive Statement where
  | instruction (opcode : Opcode) (operands : List Operand)
  | define (isExported : Bool) (name : String) (definition : Definition)
  deriving DecidableEq, Repr

/-- The word that introduces a data block of the given width. -/
def Width.keyword : Width → String
  | .byte => "data8"
  | .word => "data16"

/-- A list between braces, as text. -/
def bracedText (items : List String) : String :=
  "\x7b " ++ ", ".intercalate items ++ " \x7d"

/-- A definition of a name, as text. -/
def Definition.text (name : String) : Definition → String
  | .label => name ++ ":"
  | .constant digits => "constant " ++ name ++ " = $" ++ digits
  | .data width values =>
    width.keyword ++ " " ++ name ++ " = " ++ bracedText (values.map ("$" ++ ·))
  | .struct members =>
    "struct " ++ name ++ " " ++ bracedText (members.map fun m => m.1 ++ ": $" ++ m.2)

namespace Statement

/-- The name that the statement binds. -/
def binds? : Statement → Option String
  | .instruction _ _ => none
  | .define _ name _ => some name

/-- Whether the statement exports what it binds. -/
def isExported : Statement → Bool
  | .instruction _ _ => false
  | .define isExported _ _ => isExported

/-- The statement as text, in the form in which a listing shows it: an instruction
by its own name, not by its mnemonic. -/
def text : Statement → String
  | .instruction opcode operands =>
    opcode.name ++ "(" ++ ", ".intercalate (operands.map Operand.text) ++ ")"
  | .define isExported name definition =>
    (if isExported then "+" else "") ++ definition.text name

end Statement

/-- A statement together with the number of the line on which it starts. -/
structure Placed where
  line : Nat
  statement : Statement
  deriving DecidableEq, Repr

end WordMachine
