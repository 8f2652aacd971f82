import WordMachine.Word
import WordMachine.Text.Numeral

/-!
# Machine code

Machine code is a list of bytes.  A value enters it in one of two widths: as a
word, high byte first, or as a byte, which keeps the low half of the value.

For inspection the bytes are written one after the other with a single space
between them, in one of three radices.  In hexadecimal and in binary every byte
takes the same room; in decimal it takes as many digits as it needs.
-/

namespace WordMachine

/-- A program or a piece of data, as the bytes to be loaded. -/
abbrev MachineCode := List Byte

/-- The widths in which a value is stored. -/
inductive Width where
  | byte
  | word
  deriving DecidableEq, Repr

namespace Width

/-- How many bytes a value of this width takes. -/
def size : Width → Nat
  | .byte => 1
  | .word => 2

/-- The stored form of a value.  A byte keeps only the low half. -/
def emit : Width → Word → MachineCode
  | .byte, w => [Word.low w]
  | .word, w => Word.toBytes w

@[simp] theorem length_emit (k : Width) (w : Word) : (k.emit w).length = k.size := by
  cases k <;> rfl

end Width

/-- The bases in which machine code is written for inspection. -/
inductive Radix where
  | hex
  | binary
  | decimal
  deriving DecidableEq, Repr

/-- A lookup by name that found nothing: the name is none of the fixed names of
its kind. -/
inductive NameError where
  | unknownRadix (name : String)
  | unknownOpcode (name : String)
  deriving DecidableEq, Repr

/-- The text of the error, which does not repeat the name. -/
def NameError.message (_ : NameError) : String := "Matching variant not found"

namespace Radix

/-- The three radices. -/
def all : List Radix := [.hex, .binary, .decimal]

/-- The name of the radix. -/
def name : Radix → String
  | .hex => "hex"
  | .binary => "binary"
  | .decimal => "decimal"

/-- The radix with a given name, in exactly that spelling. -/
def ofName (s : String) : Except NameError Radix :=
  match all.find? (·.name == s) with
  | some r => .ok r
  | none => .error (.unknownRadix s)

@[simp] theorem ofName_name (r : Radix) : ofName r.name = .ok r := by
  cases r <;> rfl

/-- One byte in this radix. -/
def writeByte : Radix → Byte → String
  | .hex, b => Text.hexUpper 2 b.toNat
  | .binary, b => Text.binary 8 b.toNat
  | .decimal, b => toString b.toNat

end Radix

/-- Machine code as text. -/
def MachineCode.render (code : MachineCode) (radix : Radix) : String :=
  " ".intercalate (code.map radix.writeByte)

end WordMachine
