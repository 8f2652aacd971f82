import WordMachine.Word
import WordMachine.Instruction.Format
import WordMachine.Text.Numeral

/-!
# The instruction set

There are fifty-four instructions.  Each has a byte, by which machine code means
it; a name of its own, such as `MOV_LIT_REG`; a mnemonic, by which source means
it and which several instructions may share; and a format.  Everything the
assembler and the machine have to agree on about an instruction is a function of
its opcode, so nothing else is stored with it.

Bytes that belong to no instruction decode to `none`.  The forms that share a
mnemonic are listed in the order of their bytes, which is the order in which the
assembler tries them.
-/

namespace WordMachine

/-- The instructions, in the order of their bytes. -/
inductive Opcode where
  | movLitReg
  | movRegReg
  | movRegMem
  | movMemReg
  | movLitMem
  | movRegPtrReg
  | movLitOffReg
  | movRegRegPtr
  | mov8LitReg
  | mov8LitMem
  | mov8MemReg
  | mov8RegPtrReg
  | movlRegMem
  | movhRegMem
  | addRegReg
  | addLitReg
  | subLitReg
  | subRegLit
  | subRegReg
  | mulLitReg
  | mulRegReg
  | lsfRegLit
  | lsfRegReg
  | rsfRegLit
  | rsfRegReg
  | andRegLit
  | andRegReg
  | orRegLit
  | orRegReg
  | xorRegLit
  | xorRegReg
  | not
  | incReg
  | decReg
  | pshLit
  | pshReg
  | pop
  | calLit
  | calReg
  | ret
  | jmpAddr
  | jeqReg
  | jeqLit
  | jneReg
  | jneLit
  | jltReg
  | jltLit
  | jgtReg
  | jgtLit
  | jleReg
  | jleLit
  | jgeReg
  | jgeLit
  | hlt
  deriving DecidableEq, Repr

namespace Opcode

/-- Every instruction once, in the order of the bytes. -/
def all : List Opcode :=
  [.movLitReg, .movRegReg, .movRegMem, .movMemReg, .movLitMem, .movRegPtrReg,
   .movLitOffReg, .movRegRegPtr, .mov8LitReg, .mov8LitMem, .mov8MemReg, .mov8RegPtrReg,
   .movlRegMem, .movhRegMem, .addRegReg, .addLitReg, .subLitReg, .subRegLit,
   .subRegReg, .mulLitReg, .mulRegReg, .lsfRegLit, .lsfRegReg, .rsfRegLit, .rsfRegReg,
   .andRegLit, .andRegReg, .orRegLit, .orRegReg, .xorRegLit, .xorRegReg, .not, .incReg,
   .decReg, .pshLit, .pshReg, .pop, .calLit, .calReg, .ret, .jmpAddr, .jeqReg, .jeqLit,
   .jneReg, .jneLit, .jltReg, .jltLit, .jgtReg, .jgtLit, .jleReg, .jleLit, .jgeReg,
   .jgeLit, .hlt]

/-- The byte that means the instruction in machine code. -/
def byte : Opcode → Byte
  | .movLitReg => 0x10
  | .movRegReg => 0x11
  | .movRegMem => 0x12
  | .movMemReg => 0x13
  | .movLitMem => 0x14
  | .movRegPtrReg => 0x15
  | .movLitOffReg => 0x16
  | .movRegRegPtr => 0x17
  | .mov8LitReg => 0x18
  | .mov8LitMem => 0x19
  | .mov8MemReg => 0x1A
  | .mov8RegPtrReg => 0x1B
  | .movlRegMem => 0x1C
  | .movhRegMem => 0x1D
  | .addRegReg => 0x20
  | .addLitReg => 0x21
  | .subLitReg => 0x22
  | .subRegLit => 0x23
  | .subRegReg => 0x24
  | .mulLitReg => 0x25
  | .mulRegReg => 0x26
  | .lsfRegLit => 0x28
  | .lsfRegReg => 0x29
  | .rsfRegLit => 0x2A
  | .rsfRegReg => 0x2B
  | .andRegLit => 0x2C
  | .andRegReg => 0x2D
  | .orRegLit => 0x2E
  | .orRegReg => 0x2F
  | .xorRegLit => 0x30
  | .xorRegReg => 0x31
  | .not => 0x32
  | .incReg => 0x35
  | .decReg => 0x36
  | .pshLit => 0x37
  | .pshReg => 0x38
  | .pop => 0x39
  | .calLit => 0x3A
  | .calReg => 0x3B
  | .ret => 0x3C
  | .jmpAddr => 0x3D
  | .jeqReg => 0x3E
  | .jeqLit => 0x3F
  | .jneReg => 0x40
  | .jneLit => 0x41
  | .jltReg => 0x42
  | .jltLit => 0x43
  | .jgtReg => 0x44
  | .jgtLit => 0x45
  | .jleReg => 0x46
  | .jleLit => 0x47
  | .jgeReg => 0x48
  | .jgeLit => 0x49
  | .hlt => 0xFF

/-- The name of the instruction. -/
def name : Opcode → String
  | .movLitReg => "MOV_LIT_REG"
  | .movRegReg => "MOV_REG_REG"
  | .movRegMem => "MOV_REG_MEM"
  | .movMemReg => "MOV_MEM_REG"
  | .movLitMem => "MOV_LIT_MEM"
  | .movRegPtrReg => "MOV_REG_PTR_REG"
  | .movLitOffReg => "MOV_LIT_OFF_REG"
  | .movRegRegPtr => "MOV_REG_REG_PTR"
  | .mov8LitReg => "MOV8_LIT_REG"
  | .mov8LitMem => "MOV8_LIT_MEM"
  | .mov8MemReg => "MOV8_MEM_REG"
  | .mov8RegPtrReg => "MOV8_REG_PTR_REG"
  | .movlRegMem => "MOVL_REG_MEM"
  | .movhRegMem => "MOVH_REG_MEM"
  | .addRegReg => "ADD_REG_REG"
  | .addLitReg => "ADD_LIT_REG"
  | .subLitReg => "SUB_LIT_REG"
  | .subRegLit => "SUB_REG_LIT"
  | .subRegReg => "SUB_REG_REG"
  | .mulLitReg => "MUL_LIT_REG"
  | .mulRegReg => "MUL_REG_REG"
  | .lsfRegLit => "LSF_REG_LIT"
  | .lsfRegReg => "LSF_REG_REG"
  | .rsfRegLit => "RSF_REG_LIT"
  | .rsfRegReg => "RSF_REG_REG"
  | .andRegLit => "AND_REG_LIT"
  | .andRegReg => "AND_REG_REG"
  | .orRegLit => "OR_REG_LIT"
  | .orRegReg => "OR_REG_REG"
  | .xorRegLit => "XOR_REG_LIT"
  | .xorRegReg => "XOR_REG_REG"
  | .not => "NOT"
  | .incReg => "INC_REG"
  | .decReg => "DEC_REG"
  | .pshLit => "PSH_LIT"
  | .pshReg => "PSH_REG"
  | .pop => "POP"
  | .calLit => "CAL_LIT"
  | .calReg => "CAL_REG"
  | .ret => "RET"
  | .jmpAddr => "JMP_ADDR"
  | .jeqReg => "JEQ_REG"
  | .jeqLit => "JEQ_LIT"
  | .jneReg => "JNE_REG"
  | .jneLit => "JNE_LIT"
  | .jltReg => "JLT_REG"
  | .jltLit => "JLT_LIT"
  | .jgtReg => "JGT_REG"
  | .jgtLit => "JGT_LIT"
  | .jleReg => "JLE_REG"
  | .jleLit => "JLE_LIT"
  | .jgeReg => "JGE_REG"
  | .jgeLit => "JGE_LIT"
  | .hlt => "HLT"

/-- The word that means the instruction, and perhaps others, in source. -/
def mnemonic : Opcode → String
  | .movLitReg | .movRegReg | .movRegMem | .movMemReg | .movLitMem | .movRegPtrReg
    | .movLitOffReg | .movRegRegPtr => "mov"
  | .mov8LitReg | .mov8LitMem | .mov8MemReg | .mov8RegPtrReg => "mov8"
  | .movlRegMem => "movl"
  | .movhRegMem => "movh"
  | .addRegReg | .addLitReg => "add"
  | .subLitReg | .subRegLit | .subRegReg => "sub"
  | .mulLitReg | .mulRegReg => "mul"
  | .lsfRegLit | .lsfRegReg => "lsf"
  | .rsfRegLit | .rsfRegReg => "rsf"
  | .andRegLit | .andRegReg => "and"
  | .orRegLit | .orRegReg => "or"
  | .xorRegLit | .xorRegReg => "xor"
  | .not => "not"
  | .incReg => "inc"
  | .decReg => "dec"
  | .pshLit | .pshReg => "psh"
  | .pop => "pop"
  | .calLit | .calReg => "cal"
  | .ret => "ret"
  | .jmpAddr => "jmp"
  | .jeqReg | .jeqLit => "jeq"
  | .jneReg | .jneLit => "jne"
  | .jltReg | .jltLit => "jlt"
  | .jgtReg | .jgtLit => "jgt"
  | .jleReg | .jleLit => "jle"
  | .jgeReg | .jgeLit => "jge"
  | .hlt => "hlt"

/-- The format of the instruction. -/
def format : Opcode → Format
  | .movLitReg | .addLitReg | .subLitReg | .mulLitReg => .litReg
  | .movRegReg | .addRegReg | .subRegReg | .mulRegReg | .lsfRegReg | .rsfRegReg
    | .andRegReg | .orRegReg | .xorRegReg => .regReg
  | .movRegMem | .movlRegMem | .movhRegMem | .jeqReg | .jneReg | .jltReg | .jgtReg
    | .jleReg | .jgeReg => .regMem
  | .movMemReg | .mov8MemReg => .memReg
  | .movLitMem | .jeqLit | .jneLit | .jltLit | .jgtLit | .jleLit | .jgeLit => .litMem
  | .movRegPtrReg | .mov8RegPtrReg => .regPtrReg
  | .movLitOffReg => .litOffReg
  | .movRegRegPtr => .regRegPtr
  | .mov8LitReg => .litReg8
  | .mov8LitMem => .litMem8
  | .subRegLit | .andRegLit | .orRegLit | .xorRegLit => .regLit
  | .lsfRegLit | .rsfRegLit => .regLit8
  | .not | .incReg | .decReg | .pshReg | .pop | .calReg => .singleReg
  | .pshLit | .calLit => .singleLit
  | .ret | .hlt => .noArgs
  | .jmpAddr => .singleAddr

/-- The size of the instruction in bytes, the opcode included. -/
def size (o : Opcode) : Nat := o.format.size

/-- The instruction that a byte means, if it means one. -/
def ofByte? (b : Byte) : Option Opcode := all.find? (·.byte == b)

/-- The instruction with a given name, in exactly that spelling. -/
def ofName? (s : String) : Option Opcode := all.find? (·.name == s)

/-- The instructions that share a mnemonic, given in any mixture of capitals and
small letters. -/
def forms (mnemonic : String) : List Opcode :=
  all.filter (·.mnemonic == mnemonic.map Char.toLower)

/-- The instruction's row in a listing of the instruction set. -/
def row (o : Opcode) : String :=
  Text.hexUpper 2 o.byte.toNat ++ " " ++ Text.padRight 16 o.name ++ " "
    ++ Text.padRight 5 o.mnemonic ++ " " ++ o.format.name ++ " (" ++ toString o.size ++ " bytes)"

theorem mem_all (o : Opcode) : o ∈ all := by
  cases o <;> decide

@[simp] theorem ofByte?_byte (o : Opcode) : ofByte? o.byte = some o := by
  cases o <;> rfl

/-- A byte means an instruction exactly when it is that instruction's byte. -/
theorem ofByte?_eq_some_iff {b : Byte} {o : Opcode} : ofByte? b = some o ↔ o.byte = b := by
  constructor
  · intro h
    simpa using List.find?_some h
  · rintro rfl
    exact ofByte?_byte o

theorem byte_injective {o p : Opcode} (h : o.byte = p.byte) : o = p := by
  have := ofByte?_byte o
  rw [h, ofByte?_byte] at this
  exact (Option.some.inj this).symm

@[simp] theorem ofName?_name (o : Opcode) : ofName? o.name = some o := by
  cases o <;> decide +kernel

theorem mem_forms {s : String} {o : Opcode} :
    o ∈ forms s ↔ o.mnemonic = s.map Char.toLower := by
  simp [forms, mem_all]

/-- A mnemonic in capitals or small letters has the same forms. -/
theorem forms_congr {s t : String} (h : s.map Char.toLower = t.map Char.toLower) :
    forms s = forms t := by
  simp [forms, h]

end Opcode
end WordMachine
