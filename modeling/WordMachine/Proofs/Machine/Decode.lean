import WordMachine.Proofs.Machine.Effect
import WordMachine.Proofs.Memory.Flat

/-!
# Decoding

A step of a machine is a fetch and an effect.  `Machine.Decodes` is what the fetch has
found: an instruction and its operands, and the machine behind the last byte of them.  The
actions of the instruction come to just this machine before they do anything else
(`Machine.Decodes.dispatch_eq`), and what the step does then is a matter of the effect alone
(`Machine.Decodes.step_eq`), so a fact about what an instruction does never has to look at how
it is fetched.

On a flat memory a fetch cannot fail and moves nothing but `ip`.

* `Machine.moveTo`: the machine with `ip` somewhere else.
* `Execution.fetch8_flat`, `Execution.fetch16_flat`: one byte, one word.
* `Execution.fetchArguments_flat`: operands, by how much `ip` moves.
* `Machine.decodes_flat`, `Machine.Decodes.eq_of_flat`: what is decoded is what stands at
  `ip`, and behind the fetch `ip` is past it and the rest of the machine as it was.
-/

namespace WordMachine

namespace RegisterFile

/-- Putting back what a register holds changes nothing. -/
@[simp] theorem set_get (f : RegisterFile) (r : Register) : f.set r (f.get r) = f := by
  apply RegisterFile.ext
  intro q
  rw [get_set]
  split
  · rename_i h
    rw [h]
  · rfl

/-- Of two words put into one register the second stays. -/
@[simp] theorem set_set (f : RegisterFile) (r : Register) (v w : Word) :
    (f.set r v).set r w = f.set r w := by
  apply RegisterFile.ext
  intro q
  rw [get_set, get_set, get_set]
  split <;> rfl

/-- Words put into two registers may be put there in either order. -/
theorem set_comm (f : RegisterFile) {r q : Register} (h : r ≠ q) (v w : Word) :
    (f.set r v).set q w = (f.set q w).set r v := by
  apply RegisterFile.ext
  intro s
  simp only [get_set]
  by_cases hq : s = q
  · subst hq
    rw [if_pos rfl, if_neg (Ne.symm h), if_pos rfl]
  · rw [if_neg hq, if_neg hq]

end RegisterFile

/-- Executing an instruction whose operands can be fetched is carrying out its effect. -/
theorem Execution.execute_of_fetchArguments {m next : Machine} {opcode : Opcode}
    {args : List Argument} (h : fetchArguments opcode.format.operands m = .ok args next) :
    execute opcode.byte m =
      ((opcode.effect next.registers args).perform >>= fun _ => pure (opcode == .hlt)) next := by
  rw [execute_of_some (Opcode.ofByte?_byte opcode), bind_apply, h]
  rfl

namespace Machine

/-- The machine with `ip` at a given address. -/
def moveTo (m : Machine) (a : Word) : Machine := { m with registers := m.registers.set .ip a }

@[simp] theorem memory_moveTo (m : Machine) (a : Word) : (m.moveTo a).memory = m.memory := rfl

@[simp] theorem frameSize_moveTo (m : Machine) (a : Word) :
    (m.moveTo a).frameSize = m.frameSize := rfl

@[simp] theorem isHalted_moveTo (m : Machine) (a : Word) :
    (m.moveTo a).isHalted = m.isHalted := rfl

@[simp] theorem ip_moveTo (m : Machine) (a : Word) : (m.moveTo a).registers.get .ip = a :=
  RegisterFile.get_set_self m.registers .ip a

theorem get_moveTo_of_ne (m : Machine) (a : Word) {r : Register} (h : r ≠ .ip) :
    (m.moveTo a).registers.get r = m.registers.get r :=
  RegisterFile.get_set_of_ne m.registers h a

@[simp] theorem moveTo_moveTo (m : Machine) (a b : Word) : (m.moveTo a).moveTo b = m.moveTo b := by
  rw [moveTo, moveTo, moveTo, RegisterFile.set_set]

/-- A move by no bytes is none. -/
theorem moveTo_add_zero (m : Machine) : m.moveTo (m.registers.get .ip + UInt16.ofNat 0) = m := by
  rw [moveTo, Word.add_ofNat_zero, RegisterFile.set_get]

/-- At its next step the machine decodes an instruction with the given operands, and `next`
is the machine when they have been fetched. -/
def Decodes (m : Machine) (opcode : Opcode) (args : List Argument) (next : Machine) : Prop :=
  m.isHalted = false ∧ ∃ fetched, Execution.fetch8 m = .ok opcode.byte fetched ∧
    Execution.fetchArguments opcode.format.operands fetched = .ok args next

/-- A step of a machine that has not halted is a fetch and what comes of it. -/
theorem step_of_running {m : Machine} (hrun : m.isHalted = false) :
    Execution.step m = (Execution.fetch8 >>= Execution.execute) m := by
  rw [Execution.step, Execution.bind_apply]
  show (if m.isHalted then pure true else Execution.fetch8 >>= Execution.execute :
    Execution Bool) m = _
  rw [hrun, if_neg (by decide)]

/-- Behind the opcode byte, the actions of the instruction come to the effect of what is
decoded. -/
theorem Decodes.dispatch_eq {m next : Machine} {opcode : Opcode} {args : List Argument}
    (h : m.Decodes opcode args next) :
    ∃ first, Execution.fetch8 m = .ok opcode.byte first ∧
      Execution.dispatch opcode first = (opcode.effect next.registers args).perform next := by
  obtain ⟨-, first, hbyte, hargs⟩ := h
  refine ⟨first, hbyte, ?_⟩
  rw [Execution.dispatch_eq, Execution.bind_apply, hargs]
  rfl

/-- What a step does is the effect of what is decoded. -/
theorem Decodes.step_eq {m next : Machine} {opcode : Opcode} {args : List Argument}
    (h : m.Decodes opcode args next) :
    Execution.step m =
      ((opcode.effect next.registers args).perform >>= fun _ => pure (opcode == .hlt)) next := by
  obtain ⟨hrun, fetched, hbyte, hargs⟩ := h
  rw [step_of_running hrun, Execution.bind_apply, hbyte]
  exact Execution.execute_of_fetchArguments hargs

end Machine

namespace Execution

open AddressSpace

variable {m : Machine}

theorem fetch8_flat (h : m.memory.IsFlat) :
    fetch8 m =
      .ok (m.memory.byteAt (m.registers.get .ip)) (m.moveTo (m.registers.get .ip + 1)) := by
  rw [fetch8_apply, h.read8]
  rfl

theorem fetch16_flat (h : m.memory.IsFlat) :
    fetch16 m =
      .ok (m.memory.wordAt (m.registers.get .ip)) (m.moveTo (m.registers.get .ip + 2)) := by
  rw [fetch16_apply, h.read16]
  rfl

/-- The operand that a fetch finds on a flat memory. -/
def argumentAt (m : Machine) : Kind → Argument
  | .literal | .address => .literal (m.memory.wordAt (m.registers.get .ip))
  | .literal8 => .literal (Word.ofByte (m.memory.byteAt (m.registers.get .ip)))
  | .register | .pointer =>
    let r := Register.ofSlot (m.memory.byteAt (m.registers.get .ip))
    .register r ((m.moveTo (m.registers.get .ip + 1)).registers.get r)

/-- Fetching an operand moves `ip` by the width of its kind. -/
theorem fetchArgument_flat (h : m.memory.IsFlat) (kind : Kind) :
    fetchArgument kind m =
      .ok (argumentAt m kind) (m.moveTo (m.registers.get .ip + UInt16.ofNat kind.width)) := by
  cases kind with
  | literal | address =>
    show (fetch16 >>= _) m = _
    rw [bind_apply, fetch16_flat h]
    rfl
  | literal8 =>
    show (fetch8 >>= _) m = _
    rw [bind_apply, fetch8_flat h]
    rfl
  | register | pointer =>
    show (fetch8 >>= _) m = _
    rw [bind_apply, fetch8_flat h]
    rfl

/-- The operands that a fetch finds on a flat memory, one behind the other. -/
def argumentsAt (m : Machine) : List Kind → List Argument
  | [] => []
  | kind :: kinds =>
    argumentAt m kind ::
      argumentsAt (m.moveTo (m.registers.get .ip + UInt16.ofNat kind.width)) kinds

/-- Fetching operands moves `ip` by the widths of their kinds. -/
theorem fetchArguments_flat (h : m.memory.IsFlat) (kinds : List Kind) :
    fetchArguments kinds m =
      .ok (argumentsAt m kinds)
        (m.moveTo (m.registers.get .ip + UInt16.ofNat (Kind.totalWidth kinds))) := by
  induction kinds generalizing m with
  | nil =>
    show EStateM.Result.ok [] m = .ok [] (m.moveTo (m.registers.get .ip + UInt16.ofNat 0))
    rw [Machine.moveTo_add_zero]
  | cons kind kinds ih =>
    show (fetchArgument kind >>= _) m = _
    rw [bind_apply, fetchArgument_flat h]
    show (fetchArguments kinds >>= _) (m.moveTo _) = _
    rw [bind_apply, ih (m := m.moveTo _) h]
    rw [Machine.ip_moveTo, Machine.moveTo_moveTo, Kind.totalWidth, UInt16.ofNat_add,
      UInt16.add_assoc]
    rfl

end Execution

namespace Machine

/-- On a flat memory the byte of an instruction at `ip` is decoded as that instruction. -/
theorem decodes_flat {m : Machine} (h : m.memory.IsFlat) (hrun : m.isHalted = false)
    {opcode : Opcode} (hbyte : m.memory.byteAt (m.registers.get .ip) = opcode.byte) :
    m.Decodes opcode
      (Execution.argumentsAt (m.moveTo (m.registers.get .ip + 1)) opcode.format.operands)
      (m.moveTo (m.registers.get .ip + UInt16.ofNat opcode.size)) := by
  refine ⟨hrun, m.moveTo (m.registers.get .ip + 1), ?_, ?_⟩
  · rw [Execution.fetch8_flat h, hbyte]
  · have hsize : m.registers.get .ip + UInt16.ofNat opcode.size =
        m.registers.get .ip + 1 + UInt16.ofNat (Kind.totalWidth opcode.format.operands) := by
      rw [Opcode.size, Format.size_eq, UInt16.ofNat_add, ← UInt16.add_assoc]
      rfl
    rw [Execution.fetchArguments_flat (m := m.moveTo _) h, ip_moveTo, moveTo_moveTo, hsize]

/-- What is decoded on a flat memory is what stands at `ip`, and the machine behind the
fetch differs from the machine before it in `ip` only. -/
theorem Decodes.eq_of_flat {m next : Machine} {opcode : Opcode} {args : List Argument}
    (hd : m.Decodes opcode args next) (h : m.memory.IsFlat) :
    m.memory.byteAt (m.registers.get .ip) = opcode.byte ∧
      next = m.moveTo (m.registers.get .ip + UInt16.ofNat opcode.size) := by
  obtain ⟨hrun, fetched, hfetch, hargs⟩ := hd
  have hbyte : m.memory.byteAt (m.registers.get .ip) = opcode.byte := by
    rw [Execution.fetch8_flat h, EStateM.Result.ok.injEq] at hfetch
    exact hfetch.1
  obtain ⟨-, fetched', hfetch', hargs'⟩ := decodes_flat h hrun hbyte
  rw [hfetch, EStateM.Result.ok.injEq] at hfetch'
  rw [← hfetch'.2, hargs, EStateM.Result.ok.injEq] at hargs'
  exact ⟨hbyte, hargs'.2⟩

end Machine
end WordMachine
