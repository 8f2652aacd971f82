import WordMachine.Machine.Basic

/-!
# Calls and returns

A call saves what the caller wants back and opens a frame.  Counted from the new
`fp`, which is the next free word, the stack then holds

    fp + 24 ...   the arguments, pushed by the caller
    fp + 22       how many arguments there are, pushed by the caller
    fp + 20       r1
      ...
    fp + 6        r8
    fp + 4        the address to return to
    fp + 2        the caller's frame counter, plus two

The frame pointer of the caller is not among the saved words.  A return finds it
by adding the saved frame counter to its own `fp`: the counter has counted every
byte between the two, the ten words of the call included, since each push has
added its own two bytes and the last push saves the counter with its own two
already added.

A return starts from `fp` and not from `sp`, so a callee may leave words on the
stack.  It takes the arguments away as well.
-/

namespace WordMachine
namespace Execution

/-- Saves the caller's registers, the place to return to and the frame counter,
opens a frame and goes on at `target`. -/
def call (target : Word) : Execution Unit := do
  pushRegisters Register.general
  push (← getRegister .ip)
  push ((← getFrameSize) + 2)
  setRegister .fp (← getRegister .sp)
  setFrameSize 0
  setRegister .ip target

/-- Closes the frame: restores what the call has saved and takes the arguments
away. -/
def ret : Execution Unit := do
  let base ← getRegister .fp
  setRegister .sp base
  let size ← pop
  setFrameSize size
  setRegister .ip (← pop)
  popRegisters Register.general.reverse
  let count ← pop
  discard count.toNat
  setRegister .fp (base + size)

end Execution
end WordMachine
