/-!
# Operand kinds and instruction formats

An instruction is one opcode byte followed by its operands.  What follows the
opcode is fixed by the instruction's *format*: how many operands there are, of
which kind each one is, and in which order they stand --- the same order in
source and in machine code.

The size of a format is tabulated, as an instruction set manual does, and not
computed: the assembler reserves room by the table while it emits bytes by the
operand list, so that the two agree is a fact to be proved (`Format.size_eq`) and
not a definition.
-/

namespace WordMachine

/-- What one operand position holds. -/
inductive Kind where
  /-- A word given by its value. -/
  | literal
  /-- A value of which only the low byte is kept. -/
  | literal8
  /-- A word that is an address. -/
  | address
  /-- A register, by its slot. -/
  | register
  /-- A register that holds an address. -/
  | pointer
  deriving DecidableEq, Repr

namespace Kind

/-- How many bytes of machine code an operand of this kind takes. -/
def width : Kind → Nat
  | .literal | .address => 2
  | .literal8 | .register | .pointer => 1

/-- How many bytes of machine code several operands take. -/
def totalWidth : List Kind → Nat
  | [] => 0
  | kind :: kinds => kind.width + totalWidth kinds

/-- The name of the kind. -/
def name : Kind → String
  | .literal => "Literal"
  | .literal8 => "Literal8"
  | .address => "Address"
  | .register => "Register"
  | .pointer => "Pointer"

end Kind

/-- The shapes of the operands of an instruction. -/
inductive Format where
  | litReg
  | litReg8
  | regLit
  | regLit8
  | regReg
  | regMem
  | memReg
  | litMem
  | litMem8
  | regPtrReg
  | regRegPtr
  | litOffReg
  | singleReg
  | singleLit
  | singleAddr
  | noArgs
  deriving DecidableEq, Repr

namespace Format

/-- The kinds of the operands, in the order of source and of machine code. -/
def operands : Format → List Kind
  | .litReg => [.literal, .register]
  | .litReg8 => [.literal8, .register]
  | .regLit => [.register, .literal]
  | .regLit8 => [.register, .literal8]
  | .regReg => [.register, .register]
  | .regMem => [.register, .address]
  | .memReg => [.address, .register]
  | .litMem => [.literal, .address]
  | .litMem8 => [.literal8, .address]
  | .regPtrReg => [.pointer, .register]
  | .regRegPtr => [.register, .pointer]
  | .litOffReg => [.literal, .pointer, .register]
  | .singleReg => [.register]
  | .singleLit => [.literal]
  | .singleAddr => [.address]
  | .noArgs => []

/-- The size in bytes of an instruction of this format, the opcode included. -/
def size : Format → Nat
  | .litReg => 4
  | .litReg8 => 3
  | .regLit => 4
  | .regLit8 => 3
  | .regReg => 3
  | .regMem => 4
  | .memReg => 4
  | .litMem => 5
  | .litMem8 => 4
  | .regPtrReg => 3
  | .regRegPtr => 3
  | .litOffReg => 5
  | .singleReg => 2
  | .singleLit => 3
  | .singleAddr => 3
  | .noArgs => 1

/-- How many operands are written in source. -/
def arity (f : Format) : Nat := f.operands.length

/-- The name of the format. -/
def name : Format → String
  | .litReg => "LitReg"
  | .litReg8 => "LitReg8"
  | .regLit => "RegLit"
  | .regLit8 => "RegLit8"
  | .regReg => "RegReg"
  | .regMem => "RegMem"
  | .memReg => "MemReg"
  | .litMem => "LitMem"
  | .litMem8 => "LitMem8"
  | .regPtrReg => "RegPtrReg"
  | .regRegPtr => "RegRegPtr"
  | .litOffReg => "LitOffReg"
  | .singleReg => "SingleReg"
  | .singleLit => "SingleLit"
  | .singleAddr => "SingleAddr"
  | .noArgs => "NoArgs"

/-- The tabulated size is one byte for the opcode and the widths of the
operands. -/
theorem size_eq (f : Format) : f.size = 1 + Kind.totalWidth f.operands := by
  cases f <;> rfl

theorem size_pos (f : Format) : 0 < f.size := by
  cases f <;> decide

theorem size_le_five (f : Format) : f.size ≤ 5 := by
  cases f <;> decide

end Format
end WordMachine
