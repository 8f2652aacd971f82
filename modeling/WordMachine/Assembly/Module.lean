import WordMachine.Expr.Value
import WordMachine.Grammar.Program

/-!
# Modules

A module is the machine code of one program, for one place in memory, with the
names the program binds.  It is made in two walks over the statements.

* *Layout* moves a cursor from the load offset over the statements and binds every
  name.  Labels and data blocks are bound to the cursor, and the cursor advances
  by the `extent` of each statement.
* *Encoding* emits the bytes.  Every name is bound by then, so a reference forward
  resolves like a reference back.

The cursor is a word and wraps.  The extent of a data block is a product of words,
so for a block of more than `2 ^ 16` values it is the length of the block only
modulo `2 ^ 16` --- which is all that an address needs.
-/

namespace WordMachine

namespace Definition

/-- How many bytes a definition takes up in memory, modulo `2 ^ 16`. -/
def extent : Definition → Word
  | .data width values => UInt16.ofNat width.size * UInt16.ofNat values.length
  | .label | .constant _ | .struct _ => 0

/-- What a name is bound to by a definition that stands at the cursor. -/
def entry (name : String) (cursor : Word) : Definition → Entry
  | .label | .data _ _ => .symbol name (.address cursor)
  | .constant digits => .symbol name (.value (hexWord digits))
  | .struct members =>
    .struct (StructLayout.ofSizes name (members.map fun m => (m.1, hexWord m.2)))

/-- The bytes of a definition. -/
def encode : Definition → MachineCode
  | .data width values => values.flatMap fun digits => width.emit (hexWord digits)
  | .label | .constant _ | .struct _ => []

@[simp] theorem name_entry (name : String) (cursor : Word) (d : Definition) :
    (d.entry name cursor).name = name := by
  cases d <;> rfl

end Definition

/-- The bytes of an operand at a position of a given kind. -/
def Operand.encode (scope : Scope) : Kind → Operand → Except AssemblyError MachineCode
  | .register, .register slot => .ok [slot]
  | .pointer, .register slot => .ok [slot]
  | .literal8, .value e => (e.value scope).map (Width.emit .byte)
  | .literal, .value e => (e.value scope).map (Width.emit .word)
  | .address, .value e => (e.value scope).map (Width.emit .word)
  | kind, _ => .error (.misplacedOperand kind)

namespace Statement

/-- How many bytes a statement takes up in memory, modulo `2 ^ 16`. -/
def extent : Statement → Word
  | .instruction opcode _ => UInt16.ofNat opcode.size
  | .define _ _ definition => definition.extent

/-- The names bound after a statement that stands at the cursor. -/
def bind (cursor : Word) (scope : Scope) : Statement → Except AssemblyError Scope
  | .instruction _ _ => .ok scope
  | .define _ name definition => scope.insert (definition.entry name cursor)

/-- The bytes of a statement. -/
def encode (scope : Scope) : Statement → Except AssemblyError MachineCode
  | .instruction opcode operands => do
    let parts ← (opcode.format.operands.zip operands).mapM fun p => p.2.encode scope p.1
    pure (opcode.byte :: parts.flatten)
  | .define _ _ definition => .ok definition.encode

/-- The names bound after statements of which the first stands at the cursor. -/
def layoutFrom (cursor : Word) (scope : Scope) : List Statement → Except AssemblyError Scope
  | [] => .ok scope
  | st :: rest => do
    let scope ← st.bind cursor scope
    layoutFrom (cursor + st.extent) scope rest

/-- The names that statements bind when they are loaded at a given place. -/
def layout (loadOffset : Word) (sts : List Statement) : Except AssemblyError Scope :=
  layoutFrom loadOffset .empty sts

/-- The bytes of statements, one after the other. -/
def encodeAll (scope : Scope) (sts : List Statement) : Except AssemblyError MachineCode := do
  let parts ← sts.mapM (encode scope)
  pure parts.flatten

/-- The names that statements export, in source order. -/
def exports (sts : List Statement) : List String :=
  (sts.filter isExported).filterMap binds?

end Statement

/-- An assembled program. -/
structure Module where
  /-- Code and data, to be loaded at `loadOffset`. -/
  code : MachineCode
  /-- The names the program binds. -/
  scope : Scope
  /-- The names the program exports, in source order. -/
  exports : List String
  /-- The address the program was assembled for. -/
  loadOffset : Word
  deriving DecidableEq, Repr

namespace Module

/-- Assembles statements for a place in memory. -/
def ofStatements (loadOffset : Word) (sts : List Statement) : Except AssemblyError Module := do
  let scope ← Statement.layout loadOffset sts
  let code ← Statement.encodeAll scope sts
  pure ⟨code, scope, Statement.exports sts, loadOffset⟩

/-- Assembles a source text for a place in memory. -/
def assemble (source : String) (loadOffset : Word) : Except AssemblyError Module := do
  let placed ← Program.parse source
  ofStatements loadOffset (placed.map Placed.statement)

/-- The number of bytes of the module. -/
def size (m : Module) : Nat := m.code.length

/-- Whether the module has no bytes. -/
def isEmpty (m : Module) : Bool := m.code.isEmpty

/-- The machine code as text. -/
def render (m : Module) (radix : Radix) : String := m.code.render radix

/-- One line of the listing: a symbol, marked if it is exported. -/
def symbolLine (m : Module) (name : String) (binding : Binding) : String :=
  (if m.exports.contains name then "+" else " ") ++ Text.padRight 16 name ++ " "
    ++ binding.text ++ "\n"

/-- The listing of a module: its size and place, its symbols, its bytes. -/
def text (m : Module) : String :=
  "% " ++ toString m.size ++ " bytes at &" ++ Text.hexUpper 4 m.loadOffset.toNat ++ "\n"
    ++ String.join (m.scope.symbols.map fun s => m.symbolLine s.1 s.2)
    ++ m.render .hex

end Module
end WordMachine
