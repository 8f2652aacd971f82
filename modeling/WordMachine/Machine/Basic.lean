import WordMachine.Register
import WordMachine.Memory.AddressSpace

/-!
# The machine and its smallest actions

A machine is its registers, its memory, the number of bytes pushed in the current
frame of the stack, and whether it has halted.

The stack grows down.  `sp` is the address of the next free word, so a push stores
at `sp` and then lowers it, and a pop raises it and then reads.  Both keep the
frame counter.

Everything the machine does is an action that may fail at an access to memory.  A
failed action has a state too, the one that had been reached: what was done before
the access has been done, and the rest has not.  In a fetch and in a push the
access comes first and a failure changes nothing; in a pop it comes last.
-/

namespace WordMachine

/-- The state of a machine. -/
structure Machine where
  registers : RegisterFile
  memory : AddressSpace
  /-- How many bytes have been pushed since the current frame was entered. -/
  frameSize : Word
  isHalted : Bool

/-- The first word of an empty stack: the last word of the address space. -/
def stackTop : Word := 0xFFFE

/-- What a machine does: it changes the machine, and it may fail. -/
abbrev Execution := EStateM MemoryError Machine

namespace Machine

/-- A machine on the given memory, with an empty stack and all other registers
zero. -/
def new (memory : AddressSpace) : Machine :=
  { registers := (RegisterFile.zero.set .sp stackTop).set .fp stackTop
    memory
    frameSize := 0
    isHalted := false }

end Machine

namespace Execution

/-- Does something to the memory of the machine. -/
@[inline] def onMemory {α : Type} (action : MemoryAction α) : Execution α := fun
  | ⟨registers, memory, frameSize, isHalted⟩ =>
    match action memory with
    | .ok a memory => .ok a ⟨registers, memory, frameSize, isHalted⟩
    | .error e memory => .error e ⟨registers, memory, frameSize, isHalted⟩

/-- The contents of a register. -/
def getRegister (r : Register) : Execution Word := fun m => .ok (m.registers.get r) m

/-- Puts a word into a register. -/
def setRegister (r : Register) (w : Word) : Execution Unit := fun
  | ⟨registers, memory, frameSize, isHalted⟩ =>
    .ok () ⟨registers.set r w, memory, frameSize, isHalted⟩

/-- The frame counter. -/
def getFrameSize : Execution Word := fun m => .ok m.frameSize m

/-- Sets the frame counter. -/
def setFrameSize (w : Word) : Execution Unit := fun m => .ok () { m with frameSize := w }

/-- Halts the machine. -/
def halt : Execution Unit := fun m => .ok () { m with isHalted := true }

@[simp] theorem onMemory_apply {α : Type} (action : MemoryAction α) (m : Machine) :
    onMemory action m =
      match action m.memory with
      | .ok a memory => .ok a { m with memory }
      | .error e memory => .error e { m with memory } := rfl

@[simp] theorem getRegister_apply (r : Register) (m : Machine) :
    getRegister r m = .ok (m.registers.get r) m := rfl

@[simp] theorem setRegister_apply (r : Register) (w : Word) (m : Machine) :
    setRegister r w m = .ok () { m with registers := m.registers.set r w } := rfl

@[simp] theorem getFrameSize_apply (m : Machine) : getFrameSize m = .ok m.frameSize m := rfl

@[simp] theorem setFrameSize_apply (w : Word) (m : Machine) :
    setFrameSize w m = .ok () { m with frameSize := w } := rfl

@[simp] theorem halt_apply (m : Machine) : halt m = .ok () { m with isHalted := true } := rfl

@[simp] theorem pure_apply {α : Type} (a : α) (m : Machine) :
    (pure a : Execution α) m = .ok a m := rfl

/-- One action after another: the second starts where the first has ended, and does
not start at all if the first fails. -/
theorem bind_apply {α β : Type} (x : Execution α) (f : α → Execution β) (m : Machine) :
    (x >>= f) m =
      match x m with
      | .ok a m => f a m
      | .error e m => .error e m := by
  simp only [bind, EStateM.bind]
  cases x m <;> rfl

/-- Reads the byte at `ip` and moves `ip` past it. -/
def fetch8 : Execution Byte := do
  let a ← getRegister .ip
  let b ← onMemory (.read8 a)
  setRegister .ip (a + 1)
  pure b

/-- Reads the word at `ip` and moves `ip` past it. -/
def fetch16 : Execution Word := do
  let a ← getRegister .ip
  let w ← onMemory (.read16 a)
  setRegister .ip (a + 2)
  pure w

/-- Pushes a word. -/
def push (w : Word) : Execution Unit := do
  let a ← getRegister .sp
  onMemory (.write16 a w)
  setRegister .sp (a - 2)
  setFrameSize ((← getFrameSize) + 2)

/-- Pops a word. -/
def pop : Execution Word := do
  let a ← getRegister .sp
  setRegister .sp (a + 2)
  setFrameSize ((← getFrameSize) - 2)
  onMemory (.read16 (a + 2))

/-- A push stores at `sp` first, and only then moves `sp` and the counter. -/
theorem push_apply (w : Word) (m : Machine) :
    push w m =
      match MemoryAction.write16 (m.registers.get .sp) w m.memory with
      | .ok _ memory =>
        .ok () { m with
          registers := m.registers.set .sp (m.registers.get .sp - 2)
          memory
          frameSize := m.frameSize + 2 }
      | .error e memory => .error e { m with memory } := by
  simp only [push, bind_apply, getRegister_apply, onMemory_apply]
  cases MemoryAction.write16 (m.registers.get .sp) w m.memory <;> rfl

/-- A pop moves `sp` and the counter first, and only then reads. -/
theorem pop_apply (m : Machine) :
    pop m =
      let a := m.registers.get .sp + 2
      let registers := m.registers.set .sp a
      match MemoryAction.read16 a m.memory with
      | .ok w memory =>
        .ok w { m with registers, memory, frameSize := m.frameSize - 2 }
      | .error e memory =>
        .error e { m with registers, memory, frameSize := m.frameSize - 2 } := by
  simp only [pop, bind_apply, getRegister_apply, setRegister_apply, getFrameSize_apply,
    setFrameSize_apply, onMemory_apply]
  cases MemoryAction.read16 (m.registers.get .sp + 2) m.memory <;> rfl

/-- A fetch reads at `ip` first, and only then moves `ip`. -/
theorem fetch8_apply (m : Machine) :
    fetch8 m =
      match MemoryAction.read8 (m.registers.get .ip) m.memory with
      | .ok b memory =>
        .ok b { m with registers := m.registers.set .ip (m.registers.get .ip + 1), memory }
      | .error e memory => .error e { m with memory } := by
  simp only [fetch8, bind_apply, getRegister_apply, onMemory_apply]
  cases MemoryAction.read8 (m.registers.get .ip) m.memory <;> rfl

theorem fetch16_apply (m : Machine) :
    fetch16 m =
      match MemoryAction.read16 (m.registers.get .ip) m.memory with
      | .ok w memory =>
        .ok w { m with registers := m.registers.set .ip (m.registers.get .ip + 2), memory }
      | .error e memory => .error e { m with memory } := by
  simp only [fetch16, bind_apply, getRegister_apply, onMemory_apply]
  cases MemoryAction.read16 (m.registers.get .ip) m.memory <;> rfl

/-- Pushes registers, in the given order. -/
def pushRegisters : List Register → Execution Unit
  | [] => pure ()
  | r :: rest => do
    push (← getRegister r)
    pushRegisters rest

/-- Pops words into registers, in the given order. -/
def popRegisters : List Register → Execution Unit
  | [] => pure ()
  | r :: rest => do
    setRegister r (← pop)
    popRegisters rest

/-- Pops a number of words and forgets them. -/
def discard : Nat → Execution Unit
  | 0 => pure ()
  | n + 1 => do
    let _ ← pop
    discard n

end Execution

end WordMachine
