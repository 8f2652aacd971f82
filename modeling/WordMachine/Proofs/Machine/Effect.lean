import WordMachine.Machine.Run

/-!
# What instructions do

Every instruction is executed in two parts.  First its operands are fetched, all of them, in the
order and the widths of its format.  Then it has one *effect*: a register receives a word, a word
or byte is stored, something is pushed or popped, and so on.  No effect starts before the last
operand has been fetched, so an instruction that fails while it is being fetched has moved `ip`
and done nothing else.

The machine does not say so: it has a sequence of actions for each instruction, and looks at no
format.  That each of these sequences is a fetch by the format and an effect behind it is
`Execution.dispatch_eq`.  It is proved by the laws of fetching an operand in front of what is done
with it, one law for each kind, which turn the fetch of any format into the sequence of actions
that stands there; what is left is then the same on both sides.  Everything that is said about
instructions elsewhere rests on this equation, and nothing else looks at the sequences.

Which effect an instruction has depends on the fetched operands and on the registers as they are
after the fetch.  The forms of a mnemonic have the same effect: what differs is only whether a
value comes from a literal or from a register, and a fetched operand carries its value either way.

* `Argument`, `Execution.fetchArguments`: operands, fetched by their kinds.
* `Effect`, `Opcode.effect`, `Effect.perform`: what is done with them.
* `Execution.dispatch_eq`: fetching by the format is what each instruction does.
* `Execution.execute_of_some`, `Execution.execute_of_none`: what the byte of an instruction and
  any other byte come to.
-/

namespace WordMachine

/-- A fetched operand. -/
inductive Argument where
  /-- A value that stood in the code. -/
  | literal (w : Word)
  /-- A register and what it held when its byte had been fetched. -/
  | register (r : Register) (held : Word)
  deriving DecidableEq, Repr

/-- The value of an operand. -/
def Argument.value : Argument → Word
  | .literal w => w
  | .register _ held => held

namespace Execution

/-- Fetches an operand of a given kind. -/
def fetchArgument : Kind → Execution Argument
  | .literal | .address => do
    let w ← fetch16
    pure (.literal w)
  | .literal8 => do
    let b ← fetch8
    pure (.literal (Word.ofByte b))
  | .register | .pointer => do
    let r := Register.ofSlot (← fetch8)
    pure (.register r (← getRegister r))

/-- Fetches operands of given kinds, one after the other. -/
def fetchArguments : List Kind → Execution (List Argument)
  | [] => pure []
  | kind :: kinds => do
    let a ← fetchArgument kind
    let rest ← fetchArguments kinds
    pure (a :: rest)

end Execution

/-- What an instruction does once its operands have been fetched. -/
inductive Effect where
  | nothing
  | halt
  | jump (target : Word)
  | assign (r : Register) (w : Word)
  | load8 (r : Register) (a : Word)
  | load16 (r : Register) (a : Word)
  | store8 (a : Word) (b : Byte)
  | store16 (a w : Word)
  | push (w : Word)
  | pop (r : Register)
  | call (target : Word)
  | ret
  deriving DecidableEq, Repr

/-- The effect on the register that an operand names.  An operand that names none
has no effect; the formats give no such operand to an instruction that asks for a
register. -/
def Argument.into (a : Argument) (effect : Register → Effect) : Effect :=
  match a with
  | .register r _ => effect r
  | .literal _ => .nothing

namespace Effect

/-- The effect of an instruction with one operand. -/
def unary (args : List Argument) (effect : Argument → Effect) : Effect :=
  match args with
  | [x] => effect x
  | _ => .nothing

/-- The effect of an instruction with two operands. -/
def binary (args : List Argument) (effect : Argument → Argument → Effect) : Effect :=
  match args with
  | [x, y] => effect x y
  | _ => .nothing

/-- The effect of an instruction with three operands. -/
def ternary (args : List Argument) (effect : Argument → Argument → Argument → Effect) :
    Effect :=
  match args with
  | [x, y, z] => effect x y z
  | _ => .nothing

/-- The effect of an instruction that leaves a function of two values in `acc`. -/
def arithmetic (args : List Argument) (f : Word → Word → Word) : Effect :=
  binary args fun x y => .assign .acc (f x.value y.value)

/-- The effect of an instruction that changes a register in place. -/
def inPlace (regs : RegisterFile) (x : Argument) (f : Word → Word) : Effect :=
  x.into fun r => .assign r (f (regs.get r))

/-- The effect of a conditional jump: the value on the left is compared with
`acc`. -/
def branch (regs : RegisterFile) (args : List Argument) (holds : Word → Word → Bool) : Effect :=
  binary args fun x target =>
    if holds x.value (regs.get .acc) then .jump target.value else .nothing

end Effect

namespace Opcode

open Effect

/-- The effect of an instruction, by its fetched operands and by the registers
after the fetch. -/
def effect (regs : RegisterFile) (args : List Argument) : Opcode → Effect
  | .movLitReg | .movRegReg | .mov8LitReg =>
    binary args fun x target => target.into fun r => .assign r x.value
  | .movRegMem | .movLitMem | .movRegRegPtr =>
    binary args fun x target => .store16 target.value x.value
  | .movMemReg | .movRegPtrReg =>
    binary args fun source target => target.into fun r => .load16 r source.value
  | .movLitOffReg =>
    ternary args fun offset base target =>
      target.into fun r => .load16 r (offset.value + base.value)
  | .mov8LitMem | .movlRegMem =>
    binary args fun x target => .store8 target.value (Word.low x.value)
  | .movhRegMem =>
    binary args fun x target => .store8 target.value (Word.high x.value)
  | .mov8MemReg | .mov8RegPtrReg =>
    binary args fun source target => target.into fun r => .load8 r source.value
  | .addRegReg | .addLitReg => arithmetic args (· + ·)
  | .subLitReg | .subRegLit | .subRegReg => arithmetic args (· - ·)
  | .mulLitReg | .mulRegReg => arithmetic args (· * ·)
  | .andRegLit | .andRegReg => arithmetic args (· &&& ·)
  | .orRegLit | .orRegReg => arithmetic args (· ||| ·)
  | .xorRegLit | .xorRegReg => arithmetic args (· ^^^ ·)
  | .not => unary args fun x => .assign .acc (~~~ x.value)
  | .lsfRegLit | .lsfRegReg =>
    binary args fun x amount => inPlace regs x (Word.shiftLeft · amount.value)
  | .rsfRegLit | .rsfRegReg =>
    binary args fun x amount => inPlace regs x (Word.shiftRight · amount.value)
  | .incReg => unary args fun x => inPlace regs x (· + 1)
  | .decReg => unary args fun x => inPlace regs x (· - 1)
  | .pshLit | .pshReg => unary args fun x => .push x.value
  | .pop => unary args fun target => target.into .pop
  | .calLit | .calReg => unary args fun x => .call x.value
  | .ret => .ret
  | .jmpAddr => unary args fun x => .jump x.value
  | .jeqReg | .jeqLit => branch regs args fun l a => l == a
  | .jneReg | .jneLit => branch regs args fun l a => l != a
  | .jltReg | .jltLit => branch regs args fun l a => decide (l < a)
  | .jgtReg | .jgtLit => branch regs args fun l a => decide (a < l)
  | .jleReg | .jleLit => branch regs args fun l a => decide (l ≤ a)
  | .jgeReg | .jgeLit => branch regs args fun l a => decide (a ≤ l)
  | .hlt => .halt

end Opcode

/-- Carries an effect out. -/
def Effect.perform : Effect → Execution Unit
  | .nothing => pure ()
  | .halt => Execution.halt
  | .jump target => .setRegister .ip target
  | .assign r w => .setRegister r w
  | .load8 r a => do
    let b ← Execution.onMemory (.read8 a)
    Execution.setRegister r (Word.ofByte b)
  | .load16 r a => do
    let w ← Execution.onMemory (.read16 a)
    Execution.setRegister r w
  | .store8 a b => .onMemory (.write8 a b)
  | .store16 a w => .onMemory (.write16 a w)
  | .push w => .push w
  | .pop r => do
    let w ← Execution.pop
    Execution.setRegister r w
  | .call target => .call target
  | .ret => .ret

namespace Execution

/-- The effect that an instruction has with its operands on the machine as it is. -/
def effectOf (opcode : Opcode) (args : List Argument) : Execution Effect := fun m =>
  .ok (opcode.effect m.registers args) m

/-! ## The laws of fetching -/

section Laws

variable {α : Type}

theorem fetchArguments_nil_bind (f : List Argument → Execution α) :
    (fetchArguments [] >>= f) = f [] :=
  pure_bind _ _

theorem fetchArguments_cons_bind (kind : Kind) (kinds : List Kind)
    (f : List Argument → Execution α) :
    (fetchArguments (kind :: kinds) >>= f) =
      fetchArgument kind >>= fun x => fetchArguments kinds >>= fun rest => f (x :: rest) := by
  simp only [fetchArguments, bind_assoc, pure_bind]

theorem fetchArgument_literal_bind (f : Argument → Execution α) :
    (fetchArgument .literal >>= f) = fetch16 >>= fun w => f (.literal w) := by
  simp only [fetchArgument, bind_assoc, pure_bind]

theorem fetchArgument_address_bind (f : Argument → Execution α) :
    (fetchArgument .address >>= f) = fetch16 >>= fun w => f (.literal w) := by
  simp only [fetchArgument, bind_assoc, pure_bind]

theorem fetchArgument_literal8_bind (f : Argument → Execution α) :
    (fetchArgument .literal8 >>= f) = fetch8 >>= fun b => f (.literal (Word.ofByte b)) := by
  simp only [fetchArgument, bind_assoc, pure_bind]

theorem fetchArgument_register_bind (f : Argument → Execution α) :
    (fetchArgument .register >>= f) =
      fetchRegister >>= fun r => getRegister r >>= fun held => f (.register r held) := by
  simp only [fetchArgument, fetchRegister, bind_assoc, pure_bind]

theorem fetchArgument_pointer_bind (f : Argument → Execution α) :
    (fetchArgument .pointer >>= f) =
      fetchRegister >>= fun r => getRegister r >>= fun held => f (.register r held) := by
  simp only [fetchArgument, fetchRegister, bind_assoc, pure_bind]

end Laws

/-- A conditional jump has an effect on `ip` behind its target address, or none. -/
theorem branch_eq (left : Word) (relation : Word → Word → Bool) :
    branch left relation = fetch16 >>= fun target m =>
      (if relation left (m.registers.get .acc) then Effect.jump target
        else Effect.nothing).perform m := by
  refine congrArg (fetch16 >>= ·) (funext fun target => funext fun m => ?_)
  show (if relation left (m.registers.get .acc) then setRegister .ip target else pure ()) m = _
  split <;> rfl

/-! ## Instructions -/

/-- **An instruction is fetched as its format says.**  Executing it is fetching operands of the
kinds of its format, in their order, and then carrying out its effect. -/
theorem dispatch_eq (opcode : Opcode) :
    dispatch opcode =
      fetchArguments opcode.format.operands >>= fun args =>
        effectOf opcode args >>= fun effect => effect.perform := by
  cases opcode <;>
    simp only [dispatch, Opcode.format, Format.operands, fetchArguments_nil_bind,
      fetchArguments_cons_bind, fetchArgument_literal_bind, fetchArgument_address_bind,
      fetchArgument_literal8_bind, fetchArgument_register_bind, fetchArgument_pointer_bind,
      fetchRegisterValue, bind_assoc, shiftInPlace, branch_eq, Word.getD_shiftLeft?,
      Word.getD_shiftRight?]
  case mov8LitMem =>
    -- the byte has been a word in between
    refine congrArg (fetch8 >>= ·) (funext fun b => congrArg (fetch16 >>= ·) (funext fun a => ?_))
    show _ = onMemory (.write8 a (Word.low (Word.ofByte b)))
    rw [Word.low_ofByte]
  all_goals rfl

/-- A byte that means an instruction is executed as this instruction. -/
theorem execute_of_some {b : Byte} {opcode : Opcode} (h : Opcode.ofByte? b = some opcode) :
    execute b =
      fetchArguments opcode.format.operands >>= fun args =>
        effectOf opcode args >>= fun effect =>
          effect.perform >>= fun _ => pure (opcode == .hlt) := by
  rw [execute, h]
  dsimp only
  rw [dispatch_eq]
  simp only [bind_assoc]

/-- A byte that means no instruction does nothing. -/
theorem execute_of_none {b : Byte} (h : Opcode.ofByte? b = none) : execute b = pure false := by
  rw [execute, h]

end Execution
end WordMachine
