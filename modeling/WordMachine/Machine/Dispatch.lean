import WordMachine.Instruction.Opcode
import WordMachine.Machine.Call

/-!
# Instructions

When an instruction is executed, its opcode byte has been fetched and its operands
have not.  Each instruction fetches its own, as it needs them: a word for a value or
an address, a byte for a short value or a register.  What it does with them it does
at the end, once it has them all.

No instruction looks at its format.  So there are two descriptions of what stands
behind an opcode byte, the formats by which machine code is emitted and the fetches
below by which it is executed, and that they say the same is a fact to be proved
(`Execution.dispatch_eq`) and not a definition.

A register that is read as an operand is read at the moment its byte is fetched.
That can be told only from `ip`, which moves while operands are fetched.  An
instruction that changes a register in place reads it afterwards.
-/

namespace WordMachine
namespace Execution

/-- Fetches the byte of a register.  Any byte means one. -/
def fetchRegister : Execution Register := do
  let b ← fetch8
  pure (Register.ofSlot b)

/-- Fetches the byte of a register, and reads the register. -/
def fetchRegisterValue : Execution Word := do
  let r ← fetchRegister
  getRegister r

/-- Shifts a register.  A shift without an answer leaves nothing of the word. -/
def shiftInPlace (r : Register) (amount : Word) (shift : Word → Word → Option Word) :
    Execution Unit := do
  let w ← getRegister r
  setRegister r ((shift w amount).getD 0)

/-- Fetches the address to go to, and goes there if the word on the left stands in the
given relation to `acc`. -/
def branch (left : Word) (relation : Word → Word → Bool) : Execution Unit := do
  let target ← fetch16
  let acc ← getRegister .acc
  if relation left acc then
    setRegister .ip target

/-- Executes an instruction whose opcode byte has been fetched. -/
def dispatch : Opcode → Execution Unit
  -- moves of words
  | .movLitReg => do
    let value ← fetch16
    let r ← fetchRegister
    setRegister r value
  | .movRegReg => do
    let value ← fetchRegisterValue
    let r ← fetchRegister
    setRegister r value
  | .movRegMem => do
    let value ← fetchRegisterValue
    let address ← fetch16
    onMemory (.write16 address value)
  | .movMemReg => do
    let address ← fetch16
    let r ← fetchRegister
    let value ← onMemory (.read16 address)
    setRegister r value
  | .movLitMem => do
    let value ← fetch16
    let address ← fetch16
    onMemory (.write16 address value)
  | .movRegPtrReg => do
    let address ← fetchRegisterValue
    let r ← fetchRegister
    let value ← onMemory (.read16 address)
    setRegister r value
  | .movLitOffReg => do
    let offset ← fetch16
    let base ← fetchRegisterValue
    let r ← fetchRegister
    let value ← onMemory (.read16 (offset + base))
    setRegister r value
  | .movRegRegPtr => do
    let value ← fetchRegisterValue
    let address ← fetchRegisterValue
    onMemory (.write16 address value)
  -- moves of bytes
  | .mov8LitReg => do
    let value ← fetch8
    let r ← fetchRegister
    setRegister r (Word.ofByte value)
  | .mov8LitMem => do
    let value ← fetch8
    let address ← fetch16
    onMemory (.write8 address value)
  | .mov8MemReg => do
    let address ← fetch16
    let r ← fetchRegister
    let value ← onMemory (.read8 address)
    setRegister r (Word.ofByte value)
  | .mov8RegPtrReg => do
    let address ← fetchRegisterValue
    let r ← fetchRegister
    let value ← onMemory (.read8 address)
    setRegister r (Word.ofByte value)
  | .movlRegMem => do
    let value ← fetchRegisterValue
    let address ← fetch16
    onMemory (.write8 address (Word.low value))
  | .movhRegMem => do
    let value ← fetchRegisterValue
    let address ← fetch16
    onMemory (.write8 address (Word.high value))
  -- arithmetic, with the result in `acc`
  | .addRegReg => do
    let a ← fetchRegisterValue
    let b ← fetchRegisterValue
    setRegister .acc (a + b)
  | .addLitReg => do
    let a ← fetch16
    let b ← fetchRegisterValue
    setRegister .acc (a + b)
  | .subLitReg => do
    let literal ← fetch16
    let value ← fetchRegisterValue
    setRegister .acc (literal - value)
  | .subRegLit => do
    let value ← fetchRegisterValue
    let literal ← fetch16
    setRegister .acc (value - literal)
  | .subRegReg => do
    let a ← fetchRegisterValue
    let b ← fetchRegisterValue
    setRegister .acc (a - b)
  | .mulLitReg => do
    let a ← fetch16
    let b ← fetchRegisterValue
    setRegister .acc (a * b)
  | .mulRegReg => do
    let a ← fetchRegisterValue
    let b ← fetchRegisterValue
    setRegister .acc (a * b)
  -- shifts, in place
  | .lsfRegLit => do
    let r ← fetchRegister
    let amount ← fetch8
    shiftInPlace r (Word.ofByte amount) Word.shiftLeft?
  | .lsfRegReg => do
    let r ← fetchRegister
    let amount ← fetchRegisterValue
    shiftInPlace r amount Word.shiftLeft?
  | .rsfRegLit => do
    let r ← fetchRegister
    let amount ← fetch8
    shiftInPlace r (Word.ofByte amount) Word.shiftRight?
  | .rsfRegReg => do
    let r ← fetchRegister
    let amount ← fetchRegisterValue
    shiftInPlace r amount Word.shiftRight?
  -- bit by bit, with the result in `acc`
  | .andRegLit => do
    let value ← fetchRegisterValue
    let literal ← fetch16
    setRegister .acc (value &&& literal)
  | .andRegReg => do
    let a ← fetchRegisterValue
    let b ← fetchRegisterValue
    setRegister .acc (a &&& b)
  | .orRegLit => do
    let value ← fetchRegisterValue
    let literal ← fetch16
    setRegister .acc (value ||| literal)
  | .orRegReg => do
    let a ← fetchRegisterValue
    let b ← fetchRegisterValue
    setRegister .acc (a ||| b)
  | .xorRegLit => do
    let value ← fetchRegisterValue
    let literal ← fetch16
    setRegister .acc (value ^^^ literal)
  | .xorRegReg => do
    let a ← fetchRegisterValue
    let b ← fetchRegisterValue
    setRegister .acc (a ^^^ b)
  | .not => do
    let value ← fetchRegisterValue
    setRegister .acc (~~~ value)
  -- counting, in place
  | .incReg => do
    let r ← fetchRegister
    let value ← getRegister r
    setRegister r (value + 1)
  | .decReg => do
    let r ← fetchRegister
    let value ← getRegister r
    setRegister r (value - 1)
  -- the stack and subroutines
  | .pshLit => do
    let value ← fetch16
    push value
  | .pshReg => do
    let value ← fetchRegisterValue
    push value
  | .pop => do
    let r ← fetchRegister
    let value ← pop
    setRegister r value
  | .calLit => do
    let target ← fetch16
    call target
  | .calReg => do
    let target ← fetchRegisterValue
    call target
  | .ret => ret
  -- jumps
  | .jmpAddr => do
    let target ← fetch16
    setRegister .ip target
  | .jeqReg => do
    let left ← fetchRegisterValue
    branch left fun l a => l == a
  | .jeqLit => do
    let left ← fetch16
    branch left fun l a => l == a
  | .jneReg => do
    let left ← fetchRegisterValue
    branch left fun l a => l != a
  | .jneLit => do
    let left ← fetch16
    branch left fun l a => l != a
  | .jltReg => do
    let left ← fetchRegisterValue
    branch left fun l a => decide (l < a)
  | .jltLit => do
    let left ← fetch16
    branch left fun l a => decide (l < a)
  | .jgtReg => do
    let left ← fetchRegisterValue
    branch left fun l a => decide (l > a)
  | .jgtLit => do
    let left ← fetch16
    branch left fun l a => decide (l > a)
  | .jleReg => do
    let left ← fetchRegisterValue
    branch left fun l a => decide (l ≤ a)
  | .jleLit => do
    let left ← fetch16
    branch left fun l a => decide (l ≤ a)
  | .jgeReg => do
    let left ← fetchRegisterValue
    branch left fun l a => decide (l ≥ a)
  | .jgeLit => do
    let left ← fetch16
    branch left fun l a => decide (l ≥ a)
  | .hlt => halt

/-- Executes the instruction that a byte means, if it means one, and answers whether it
is the instruction that halts. -/
def execute (b : Byte) : Execution Bool :=
  match Opcode.ofByte? b with
  | none => pure false
  | some opcode => do
    dispatch opcode
    pure (opcode == .hlt)

end Execution
end WordMachine
