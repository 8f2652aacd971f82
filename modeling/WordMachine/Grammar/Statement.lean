import WordMachine.Assembly.Statement
import WordMachine.Grammar.Expression

/-!
# The grammar of statements

    statement   ::=  constant | data | struct | label | instruction
    constant    ::=  '+'? 'constant' identifier '=' literal
    data        ::=  '+'? ('data8' | 'data16') identifier '=' list of literals
    struct      ::=  '+'? 'struct' identifier list of (identifier ':' literal)
    label       ::=  '+'? identifier ':'
    instruction ::=  mnemonic (operand (',' operand)*)? end of line

A list stands between braces, may span lines and hold comments; its items are
separated by commas, and one more comma may follow them.

Several instructions share a mnemonic and differ in their operands only.  They are
tried in the order of their bytes, and one is taken only if its operands run to
the end of the line.  So an operand that fits two kinds, such as the address
`&acc`, which also names a register, goes to the instruction with the smaller
byte.

No rule here knows its place in the source: a statement reads the same
wherever it stands.
-/

namespace WordMachine
namespace Grammar

open Rule Lexeme

/-- Reads the export mark, if it is there. -/
def exportMark : Rule Bool := do
  let mark ← optional (char '+')
  pure mark.isSome

/-- Reads a word of the language that blanks have to follow. -/
def keyword (word : String) : Rule Unit := do
  literal word.toList
  spaces1

/-- Reads a list between braces. -/
def braced {α : Type} (item : Rule α) : Rule (List α) := do
  char '\x7b'
  gap
  let items ← sepBy (do gap; char ','; gap) item
  let _ ← optional (do gap; char ',')
  gap
  char '\x7d'
  pure items

/-- Reads the definition of a constant. -/
def constant : Rule Statement := do
  let isExported ← exportMark
  keyword "constant"
  let name ← identifier
  spaced (char '=')
  let digits ← hexLiteral
  pure (.define isExported name (.constant digits))

/-- Reads the word that introduces a data block.  The longer word is tried
first. -/
def dataWidth : Rule Width :=
  firstOf
    [do keyword (Width.keyword .word); pure .word,
     do keyword (Width.keyword .byte); pure .byte]

/-- Reads a data block. -/
def data : Rule Statement := do
  let isExported ← exportMark
  let width ← dataWidth
  let name ← identifier
  spaced (char '=')
  let values ← braced hexLiteral
  pure (.define isExported name (.data width values))

/-- Reads a member of a struct: its name and its size. -/
def structMember : Rule (String × String) := do
  let name ← identifier
  spaced (char ':')
  let digits ← hexLiteral
  pure (name, digits)

/-- Reads a struct. -/
def struct : Rule Statement := do
  let isExported ← exportMark
  keyword "struct"
  let name ← identifier
  spaces0
  let members ← braced structMember
  pure (.define isExported name (.struct members))

/-- Reads a label. -/
def label : Rule Statement := do
  let isExported ← exportMark
  let name ← identifier
  char ':'
  pure (.define isExported name .label)

/-- Reads an operand of a given kind. -/
def operand : Kind → Rule Operand
  | .literal | .literal8 => do
    let e ← literalValue
    pure (.value e)
  | .address => do
    let e ← addressValue
    pure (.value e)
  | .register => do
    let r ← register
    pure (.register r.slot)
  | .pointer => do
    char '&'
    let r ← register
    pure (.register r.slot)

/-- Reads operands of given kinds, each behind a comma. -/
def moreOperands : List Kind → Rule (List Operand)
  | [] => pure []
  | kind :: kinds => do
    spaced (char ',')
    let a ← operand kind
    let rest ← moreOperands kinds
    pure (a :: rest)

/-- Reads operands of given kinds, the first behind a blank and the others behind
commas. -/
def operands : List Kind → Rule (List Operand)
  | [] => pure []
  | kind :: kinds => do
    spaces1
    let a ← operand kind
    let rest ← moreOperands kinds
    pure (a :: rest)

/-- Reads the operands of one instruction to the end of the line. -/
def form (opcode : Opcode) : Rule Statement := do
  let args ← operands opcode.format.operands
  lineEnd
  pure (.instruction opcode args)

/-- Reads an instruction. -/
def instruction : Rule Statement := do
  let mnemonic ← identifier
  firstOf ((Opcode.forms mnemonic).map form)

/-- Reads a statement. -/
def statement : Rule Statement := firstOf [constant, data, struct, label, instruction]

theorem progress_statement : Progress statement := by
  apply progress_firstOf
  intro p hp
  simp only [List.mem_cons, List.not_mem_nil, or_false] at hp
  rcases hp with rfl | rfl | rfl | rfl | rfl
  · exact .bind_right _ fun _ => .bind_right _ fun _ => progress_identifier.bind _
  · exact .bind_right _ fun _ => .bind_right _ fun _ => progress_identifier.bind _
  · exact .bind_right _ fun _ => .bind_right _ fun _ => progress_identifier.bind _
  · exact .bind_right _ fun _ => progress_identifier.bind _
  · exact progress_identifier.bind _

/-- A statement reads at least one character. -/
theorem statement_pos {s : List Char} {st : Statement} {n : Nat}
    (h : statement s = some (st, n)) : 0 < n :=
  progress_statement s st n h

end Grammar
end WordMachine
