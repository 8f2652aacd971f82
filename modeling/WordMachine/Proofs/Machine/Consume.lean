import WordMachine.Proofs.Machine.Footprint

/-!
# What a step consumes

A step that succeeds has consumed one instruction or one byte.  An instruction is consumed
as the registry describes it: its opcode byte and then its operands, each as wide as its
kind, as many bytes as its size in all.  The actions of the instruction do not look at the
registry; that they fetch what it says, in its order, is `Execution.dispatch_eq`.

Consuming comes first.  When the effect begins, nothing has happened to the machine but that
`ip` has passed the instruction and that the devices have been asked for its bytes, so the
effect finds the registers and the memory that the machine had before the step, even if it
goes on to overwrite the instruction itself.

The one register for which that needs a word is `ip`.  As an operand it has been read where
its byte stood, and holds the address behind that byte (`Machine.FindsAt`).  An instruction
that changes a register in place reads it afterwards, when `ip` is behind the whole
instruction (`Opcode.inPlace?`).

Where the effect does not set `ip`, the next instruction is the one behind.  The effects that
do set it are those of `Opcode.Redirects`.

* `Machine.Consumes`: how an instruction has been consumed.
* `Machine.consumes_of_step`: every step that succeeds consumes an instruction or a byte.
-/

namespace WordMachine

namespace Opcode

/-- After the instruction the machine need not go on behind it: it is a jump, a conditional
jump whose condition holds, a call or a return, or it leaves its result in `ip`. -/
def Redirects (acc : Word) (args : List Argument) (opcode : Opcode) : Prop :=
  opcode = .jmpAddr ∨ opcode.Takes acc args ∨ opcode = .calLit ∨ opcode = .calReg ∨
    opcode = .ret ∨ opcode.result? args = some .ip

/-- The register that an instruction changes in place, and how. -/
def inPlace? (args : List Argument) : Opcode → Option (Register × (Word → Word))
  | .lsfRegLit | .lsfRegReg =>
    match args with
    | [.register r _, amount] => some (r, (Word.shiftLeft · amount.value))
    | _ => none
  | .rsfRegLit | .rsfRegReg =>
    match args with
    | [.register r _, amount] => some (r, (Word.shiftRight · amount.value))
    | _ => none
  | .incReg =>
    match args with
    | [.register r _] => some (r, (· + 1))
    | _ => none
  | .decReg =>
    match args with
    | [.register r _] => some (r, (· - 1))
    | _ => none
  | _ => none

/-- An instruction that changes a register in place assigns to it. -/
theorem effect_of_inPlace? {args : List Argument} {opcode : Opcode} {r : Register}
    {f : Word → Word} (h : opcode.inPlace? args = some (r, f)) (regs : RegisterFile) :
    opcode.effect regs args = .assign r (f (regs.get r)) := by
  cases opcode
  case lsfRegLit | lsfRegReg | rsfRegLit | rsfRegReg | incReg | decReg =>
    dsimp only [inPlace?] at h
    split at h
    · obtain ⟨rfl, rfl⟩ := Prod.mk.inj (Option.some.inj h)
      rfl
    · exact nomatch h
  all_goals exact nomatch h

end Opcode

/-- An effect that sets `ip` is the effect of an instruction that redirects. -/
theorem Effect.Suits.redirects {acc : Word} {opcode : Opcode} {args : List Argument} {e : Effect}
    (h : e.Suits acc opcode args) (hip : Register.ip ∈ e.sets) : opcode.Redirects acc args := by
  have hresult {r : Register} (hr : opcode.result? args = some r) (hip : Register.ip = r) :
      opcode.Redirects acc args := by
    rw [← hip] at hr
    exact .inr (.inr (.inr (.inr (.inr hr))))
  cases e with
  | nothing | halt | store8 | store16 => exact absurd hip List.not_mem_nil
  | jump target => exact h.imp_right .inl
  | assign r | load8 r | load16 r => exact hresult h (List.mem_singleton.mp hip)
  | push w => exact absurd (List.mem_singleton.mp hip) (by decide)
  | pop r =>
    rcases List.mem_cons.mp hip with hsp | hr
    · exact absurd hsp (by decide)
    · exact hresult h.2 (List.mem_singleton.mp hr)
  | call target =>
    refine .inr (.inr ?_)
    exact h.elim .inl fun hreg => .inr (.inl hreg)
  | ret => exact .inr (.inr (.inr (.inr (.inl h))))

namespace Machine

/-- The machine has consumed the instruction at `ip` with its operands, and has gone on to the
second machine. -/
structure Consumes (m : Machine) (opcode : Opcode) (args : List Argument) (m' : Machine) :
    Prop where
  /-- The instruction stands at `ip`, and its operands behind it. -/
  finds : m.Finds opcode args
  /-- This is what the machine has fetched. -/
  decodes : m.Decodes opcode args (m.fetched opcode)
  /-- Behind the opcode byte, the actions of the instruction itself have come to this machine,
  and to the effect from there. -/
  actions : ∃ first, Execution.fetch8 m = .ok opcode.byte first ∧
    Execution.dispatch opcode first =
      (opcode.effect (m.fetched opcode).registers args).perform (m.fetched opcode)
  /-- It has read as many bytes as the registry says, one behind the other. -/
  bytes : bytesOf (opcode.reads (m.registers.get .ip)) =
    bytesFrom (m.registers.get .ip) opcode.size
  /-- Meanwhile `ip` has passed the instruction, and nothing else has changed. -/
  fetch : (m.moveTo (m.registers.get .ip + UInt16.ofNat opcode.size)).Agrees (m.fetched opcode)
  /-- Then the effect has been carried out. -/
  effect : (opcode.effect
      (m.registers.set .ip (m.registers.get .ip + UInt16.ofNat opcode.size)) args).perform
    (m.fetched opcode) = .ok () m'
  /-- A register that is changed in place is read behind the instruction. -/
  inPlace : ∀ r f, opcode.inPlace? args = some (r, f) → m'.registers.get r =
    f (if r = .ip then m.registers.get .ip + UInt16.ofNat opcode.size else m.registers.get r)
  /-- The next instruction is the one behind. -/
  ip : ¬ opcode.Redirects (m.registers.get .acc) args →
    m'.registers.get .ip = m.registers.get .ip + UInt16.ofNat opcode.size

/-- An effect that has been carried out behind an instruction has consumed it. -/
theorem consumes_of_perform {m m' : Machine} {opcode : Opcode} {args : List Argument}
    (hfinds : m.Finds opcode args) (hdecodes : m.Decodes opcode args (m.fetched opcode))
    (hperform : (opcode.effect (m.fetched opcode).registers args).perform (m.fetched opcode) =
      .ok () m') : m.Consumes opcode args m' where
  finds := hfinds
  decodes := hdecodes
  actions := hdecodes.dispatch_eq
  bytes := opcode.bytesOf_reads _
  fetch := ⟨rfl, m.agrees_fetched opcode, rfl, rfl⟩
  effect := hperform
  inPlace r f h := by
    rw [Opcode.effect_of_inPlace? h] at hperform
    obtain ⟨-, rfl⟩ := EStateM.Result.ok.inj hperform
    show ((m.registers.set .ip _).set r _).get r = _
    rw [RegisterFile.get_set_self]
    exact congrArg f (RegisterFile.get_set _ _ _ _)
  ip h := by
    have hsettles := Effect.settles_perform
      (opcode.effect (m.fetched opcode).registers args) (m.fetched opcode)
    rw [hperform] at hsettles
    have htouches : Effect.Touches (m.fetched opcode) _ m' := hsettles
    have hsuits := Opcode.suits_effect (m.fetched opcode).registers args opcode
    have hacc : (m.fetched opcode).registers.get .acc = m.registers.get .acc :=
      m.get_fetched_of_ne opcode (by decide)
    rw [hacc] at hsuits
    rw [htouches.registers .ip fun hmem => h (hsuits.redirects hmem)]
    exact m.ip_fetched opcode

/-- A step that succeeds has consumed the instruction at `ip`, or has passed over a byte that
means none. -/
theorem consumes_of_step {m m' : Machine} {halted : Bool} (hrun : m.isHalted = false)
    (hstep : Execution.step m = .ok halted m') :
    (∃ b, m.memory.peek8 (m.registers.get .ip) = .ok b ∧ Opcode.ofByte? b = none ∧
      halted = false ∧ (m.moveTo (m.registers.get .ip + 1)).Agrees m') ∨
      ∃ opcode args, m.Consumes opcode args m' := by
  rcases executed_of_step hrun hstep with
    ⟨b, hb, hnone, hhalted, rfl⟩ | ⟨opcode, args, hfinds, hdecodes, -, hperform⟩
  · exact .inl ⟨b, hb, hnone, hhalted, rfl, m.memory.agrees_seen _, rfl, rfl⟩
  · exact .inr ⟨opcode, args, consumes_of_perform hfinds hdecodes hperform⟩

/-- A machine with a move from `ip` to `r1` across the end of the address space.  The two
register bytes, `0x0C` and `0x0E`, are not the slots of any register. -/
def moveAcrossTheEnd : Machine :=
  let low := (AddressSpace.empty.map (.newRom [0x0E]) 0 1 true).2
  { registers := RegisterFile.zero.set .ip 0xFFFE
    memory := (low.map (.newRom [0x11, 0x0C]) 0xFFFE 2 true).2
    frameSize := 0
    isHalted := false }

/-- The move reads `ip` between its two operands, and the machine goes on behind it. -/
theorem consumes_across_the_end :
    ∃ m', Execution.step moveAcrossTheEnd = .ok false m' ∧
      moveAcrossTheEnd.Consumes .movRegReg [.register .ip 0, .register .r1 0] m' ∧
      m'.registers.get .ip = 1 := by
  have hfinds : moveAcrossTheEnd.Finds .movRegReg [.register .ip 0, .register .r1 0] :=
    ⟨rfl, ⟨0x0C, rfl, rfl, rfl⟩, ⟨0x0E, rfl, rfl, rfl⟩, trivial⟩
  have hstep : Execution.step moveAcrossTheEnd = .ok false _ := rfl
  refine ⟨_, hstep, ?_⟩
  rcases consumes_of_step rfl hstep with ⟨b, hb, hnone, -⟩ | ⟨opcode, args, hconsumes⟩
  · rw [hfinds.ofByte? hb] at hnone
    exact nomatch hnone
  · obtain ⟨rfl, rfl⟩ := hfinds.unique hconsumes.finds
    refine ⟨hconsumes, hconsumes.ip ?_⟩
    rintro (h | ⟨_, _, _, h, -⟩ | h | h | h | h) <;> exact nomatch h

end Machine
end WordMachine
