import WordMachine.Proofs.Machine.Decode
import WordMachine.Proofs.Machine.Frame

/-!
# Steps on a flat memory

On a flat memory no effect can fail, and what each of them does is a function of the machine
(`Effect.after`).  A step is then the fetch and that function, and a byte that is no
instruction is passed over.

The second half is about two steps that belong together, however far apart they are: the one
that calls and the one that returns.

* `Effect.perform_flat`, `Machine.Decodes.step_flat`, `Machine.step_of_no_opcode`: what a step
  does.
* `Machine.Decodes.step_call`, `Machine.Decodes.step_ret`: the step that calls and the one
  that returns.
* `Machine.call_and_return`: every return from a call undoes it.
-/

namespace WordMachine

open AddressSpace

/-- The machine after an effect, on a flat memory. -/
def Effect.after (m : Machine) : Effect → Machine
  | .nothing => m
  | .halt => { m with isHalted := true }
  | .jump target => m.moveTo target
  | .assign r w => { m with registers := m.registers.set r w }
  | .load8 r a => { m with registers := m.registers.set r (Word.ofByte (m.memory.byteAt a)) }
  | .load16 r a => { m with registers := m.registers.set r (m.memory.wordAt a) }
  | .store8 a b => { m with memory := m.memory.poke8 a b }
  | .store16 a w => { m with memory := m.memory.poke16 a w }
  | .push w => m.pushed w
  | .pop r => { m.popped with registers := m.popped.registers.set r m.top }
  | .call target => m.called target
  | .ret => m.returned

/-- On a flat memory every effect can be carried out. -/
theorem Effect.perform_flat {m : Machine} (h : m.memory.IsFlat) (e : Effect) :
    e.perform m = .ok () (e.after m) := by
  cases e with
  | nothing | halt | jump target | assign r w => rfl
  | load8 r a =>
    show (Execution.onMemory (.read8 a) >>= _) m = _
    rw [Execution.bind_apply, Execution.onMemory_apply, h.read8]
    rfl
  | load16 r a =>
    show (Execution.onMemory (.read16 a) >>= _) m = _
    rw [Execution.bind_apply, Execution.onMemory_apply, h.read16]
    rfl
  | store8 a b =>
    show Execution.onMemory (.write8 a b) m = _
    rw [Execution.onMemory_apply, h.write8]
    rfl
  | store16 a w =>
    show Execution.onMemory (.write16 a w) m = _
    rw [Execution.onMemory_apply, h.write16]
    rfl
  | push w => exact Execution.push_flat h w
  | pop r =>
    show (Execution.pop >>= _) m = _
    rw [Execution.bind_apply, Execution.pop_flat h]
    rfl
  | call target => exact Execution.call_flat h target
  | ret => exact Execution.ret_flat h

/-- Every effect leaves a flat memory flat. -/
theorem Effect.isFlat_after {m : Machine} (h : m.memory.IsFlat) (e : Effect) :
    (e.after m).memory.IsFlat := by
  cases e with
  | nothing | halt | jump target | assign r w | load8 r a | load16 r a | pop r => exact h
  | store8 a b => exact h.poke8 a b
  | store16 a w => exact h.poke16 a w
  | push w => exact h.poke16 _ w
  | call target => exact (Machine.calls_called h target).isFlat
  | ret =>
    show m.returned.memory.IsFlat
    rwa [Machine.memory_returned]

namespace Machine

/-- A step on a flat memory carries out the effect of what is decoded. -/
theorem Decodes.step_flat {m next : Machine} {opcode : Opcode} {args : List Argument}
    (hd : m.Decodes opcode args next) (h : m.memory.IsFlat) :
    Execution.step m =
      .ok (opcode == .hlt) ((opcode.effect next.registers args).after next) := by
  obtain ⟨-, hnext⟩ := hd.eq_of_flat h
  have hflat : next.memory.IsFlat := by rwa [hnext]
  rw [hd.step_eq, Execution.bind_apply, Effect.perform_flat hflat]
  rfl

/-- A byte that means no instruction is passed over. -/
theorem step_of_no_opcode {m : Machine} (h : m.memory.IsFlat) (hrun : m.isHalted = false)
    (hbyte : Opcode.ofByte? (m.memory.byteAt (m.registers.get .ip)) = none) :
    Execution.step m = .ok false (m.moveTo (m.registers.get .ip + 1)) := by
  rw [step_of_running hrun, Execution.bind_apply, Execution.fetch8_flat h]
  show Execution.execute _ _ = _
  rw [Execution.execute_of_none hbyte]
  rfl

/-! ## The step that calls and the steps that return -/

/-- Where the call stands does not matter, only where it returns to. -/
theorem Calls.of_moveTo {m m' : Machine} {target q : Word}
    (h : (m.moveTo q).Calls target ((m.moveTo q).registers.get .ip) m') : m.Calls target q m' := by
  have hget {r : Register} (hr : r ≠ .ip) :
      (m.moveTo q).registers.get r = m.registers.get r := m.get_moveTo_of_ne q hr
  have hsp : (m.moveTo q).registers.get .sp = m.registers.get .sp := hget (by decide)
  have hwords : ((m.moveTo q).frame q).words = (m.frame q).words := by
    have hsaved : Register.general.reverse.map (m.moveTo q).registers.get =
        Register.general.reverse.map m.registers.get := by
      refine List.map_congr_left fun r hr => hget ?_
      exact (Register.ne_of_mem_general (List.mem_reverse.mp hr)).1
    rw [Frame.words, Frame.words]
    show _ :: _ :: Register.general.reverse.map (m.moveTo q).registers.get = _
    rw [hsaved]
    rfl
  have hframe := h.frameRule
  have hsaves := h.saves
  rw [ip_moveTo, hwords, hsp] at hsaves
  rw [hsp] at hframe
  constructor
  case ip => exact h.ip
  case sp => rw [h.sp, hsp]
  case fp => rw [h.fp, hsp]
  case frameSize => exact h.frameSize
  case acc => rw [h.acc, hget (by decide)]
  case general =>
    intro r hr
    rw [h.general r hr, hget (Register.ne_of_mem_general hr).1]
  case isHalted => exact h.isHalted
  case isFlat => exact h.isFlat
  case frameRule => exact hframe
  case saves => exact hsaves

/-- A step that executes a call. -/
theorem Decodes.step_call {m next : Machine} {opcode : Opcode} {x : Argument}
    (hd : m.Decodes opcode [x] next) (h : m.memory.IsFlat)
    (hcall : opcode = .calLit ∨ opcode = .calReg) :
    Execution.step m = .ok false (next.called x.value) ∧
      m.Calls x.value (m.registers.get .ip + UInt16.ofNat opcode.size) (next.called x.value) := by
  obtain ⟨-, hnext⟩ := hd.eq_of_flat h
  constructor
  · rw [hd.step_flat h]
    rcases hcall with rfl | rfl <;> rfl
  · have hflat : next.memory.IsFlat := by rwa [hnext]
    have hcalls := calls_called hflat x.value
    rw [hnext] at hcalls ⊢
    exact hcalls.of_moveTo

/-- Where a step has come to that executes a call. -/
theorem Decodes.calls_of_step {m m' next : Machine} {opcode : Opcode} {x : Argument}
    {halted : Bool} (hd : m.Decodes opcode [x] next) (h : m.memory.IsFlat)
    (hcall : opcode = .calLit ∨ opcode = .calReg) (hstep : Execution.step m = .ok halted m') :
    m.Calls x.value (m.registers.get .ip + UInt16.ofNat opcode.size) m' := by
  obtain ⟨hcalled, hcalls⟩ := hd.step_call h hcall
  rw [hcalled, EStateM.Result.ok.injEq] at hstep
  rwa [hstep.2] at hcalls

/-- A step that executes a return. -/
theorem Decodes.step_ret {m next : Machine} {args : List Argument}
    (hd : m.Decodes .ret args next) (h : m.memory.IsFlat) :
    Execution.step m = .ok false next.returned := by
  rw [hd.step_flat h]
  rfl

/-- Where a step has come to that executes a return. -/
theorem Decodes.eq_returned_of_step {m m' next : Machine} {args : List Argument} {halted : Bool}
    (hd : m.Decodes .ret args next) (h : m.memory.IsFlat)
    (hstep : Execution.step m = .ok halted m') : m' = next.returned := by
  rw [hd.step_ret h, EStateM.Result.ok.injEq] at hstep
  exact hstep.2.symm

/-- A step that executes a return does to the machine what the frame above `fp` says. -/
theorem Decodes.returns_of_holdsWords {m next : Machine} {args : List Argument} {f : Frame}
    {n : Word} (hd : m.Decodes .ret args next) (h : m.memory.IsFlat)
    (hsaved : m.memory.HoldsWords (m.registers.get .fp + 2) (f.words ++ [n])) :
    m.Returns f n next.returned := by
  obtain ⟨-, rfl⟩ := hd.eq_of_flat h
  have hfp : (m.moveTo (m.registers.get .ip + UInt16.ofNat Opcode.ret.size)).registers.get .fp =
      m.registers.get .fp := m.get_moveTo_of_ne _ (by decide)
  have hret := returns_returned (m := m.moveTo _) (f := f) (n := n) (by rwa [hfp])
  constructor
  case ip => exact hret.ip
  case sp => rw [hret.sp, hfp]
  case fp => rw [hret.fp, hfp]
  case frameSize => exact hret.frameSize
  case acc => rw [hret.acc, m.get_moveTo_of_ne _ (by decide)]
  case general => exact hret.general
  case isHalted => exact hret.isHalted
  case memory => exact hret.memory

/-- The words above a frame are not touched by the call that opens it, all the way around
the address space. -/
theorem Calls.wordAt_above {m m' : Machine} {target q : Word} (h : m.Calls target q m') {i : Nat}
    (hi : i < 32758) :
    m'.memory.wordAt (m'.registers.get .fp + 22 + UInt16.ofNat (2 * i)) =
      m.memory.wordAt (m.registers.get .sp + 2 + UInt16.ofNat (2 * i)) := by
  have hbase : m'.registers.get .fp + 22 = m.registers.get .sp + 2 := by
    rw [h.fp]
    grind
  rw [hbase]
  refine wordAt_congr (h.frameRule _ ?_) (h.frameRule _ ?_)
  · have hoffset : m.registers.get .sp + 2 + UInt16.ofNat (2 * i) - (m.registers.get .sp - 18) =
        UInt16.ofNat (20 + 2 * i) := by
      rw [UInt16.ofNat_add]
      show _ = 20 + _
      grind
    rw [InBlock, hoffset, UInt16.toNat_ofNat']
    omega
  · have hoffset : m.registers.get .sp + 2 + UInt16.ofNat (2 * i) + 1 -
        (m.registers.get .sp - 18) = UInt16.ofNat (21 + 2 * i) := by
      rw [UInt16.ofNat_add]
      show _ = 21 + _
      grind
    rw [InBlock, hoffset, UInt16.toNat_ofNat']
    omega

/-- The argument count is not touched either. -/
theorem Calls.wordAt_count {m m' : Machine} {target q : Word} (h : m.Calls target q m') :
    m'.memory.wordAt (m.registers.get .sp + 2) = m.memory.wordAt (m.registers.get .sp + 2) := by
  have habove := h.wordAt_above (i := 0) (by decide)
  have hzero : m.registers.get .sp + 2 + UInt16.ofNat (2 * 0) = m.registers.get .sp + 2 :=
    UInt16.add_zero _
  have hbase : m'.registers.get .fp + 22 + UInt16.ofNat (2 * 0) = m.registers.get .sp + 2 := by
    rw [h.fp, ← hzero]
    grind
  rwa [hbase, hzero] at habove

/-- What a return finds above `fp` wherever the saved bytes and the argument count are as the
call has left them. -/
theorem Calls.holdsWords_of_agree {m m' : Machine} {target q n : Word} (h : m.Calls target q m')
    {memory : AddressSpace}
    (hblock : ∀ b, InBlock (m.registers.get .sp - 18) 20 b → memory.byteAt b = m'.memory.byteAt b)
    (hcount : memory.wordAt (m.registers.get .sp + 2) = n) :
    memory.HoldsWords (m'.registers.get .fp + 2) ((m.frame q).words ++ [n]) := by
  have habove : m.registers.get .sp - 18 + UInt16.ofNat (2 * (m.frame q).words.length) =
      m.registers.get .sp + 2 := by
    show _ - 18 + 20 = _
    grind
  refine holdsWords_append.mpr ⟨?_, holdsWords_cons.mpr ⟨?_, trivial⟩⟩
  · rw [h.fp_add_two]
    exact h.saves.congr hblock
  · rw [h.fp_add_two, habove, hcount]

/-- **A call and its return.**  A call saves the general registers, the address `q` behind
itself and the frame counter in twenty bytes and touches no others.  A return from any later
machine in which `fp`, these bytes and the argument count are as the call has left them goes
on at `q` with the registers of the caller, and takes the arguments away. -/
theorem call_and_return {m next : Machine} {opcode : Opcode} {x : Argument}
    (h : m.memory.IsFlat) (hcall : opcode = .calLit ∨ opcode = .calReg)
    (hd : m.Decodes opcode [x] next) :
    ∃ called, Execution.step m = .ok false called ∧
      m.Calls x.value (m.registers.get .ip + UInt16.ofNat opcode.size) called ∧
      (∀ i : Fin Register.general.length,
        called.memory.wordAt (called.registers.get .fp + 20 - UInt16.ofNat (2 * i)) =
          m.registers.get (Register.general.get i)) ∧
      called.memory.wordAt (called.registers.get .fp + 4) =
        m.registers.get .ip + UInt16.ofNat opcode.size ∧
      called.memory.wordAt (called.registers.get .fp + 2) = m.frameSize + 20 ∧
      (∀ i < 32758, called.memory.wordAt (called.registers.get .fp + 22 + UInt16.ofNat (2 * i)) =
        m.memory.wordAt (m.registers.get .sp + 2 + UInt16.ofNat (2 * i))) ∧
      ∀ later : Machine, later.memory.IsFlat → later.isHalted = false →
        later.memory.byteAt (later.registers.get .ip) = Opcode.ret.byte →
        later.registers.get .fp = called.registers.get .fp →
        (∀ b, InBlock (m.registers.get .sp - 18) 20 b →
          later.memory.byteAt b = called.memory.byteAt b) →
        later.memory.wordAt (m.registers.get .sp + 2) =
          m.memory.wordAt (m.registers.get .sp + 2) →
        ∃ returned, Execution.step later = .ok false returned ∧
          returned.registers.get .ip = m.registers.get .ip + UInt16.ofNat opcode.size ∧
          (∀ r ∈ Register.general, returned.registers.get r = m.registers.get r) ∧
          returned.registers.get .sp =
            m.registers.get .sp + 2 + 2 * m.memory.wordAt (m.registers.get .sp + 2) ∧
          returned.registers.get .fp = m.registers.get .sp + m.frameSize ∧
          returned.frameSize = m.frameSize - 2 * m.memory.wordAt (m.registers.get .sp + 2) ∧
          returned.registers.get .acc = later.registers.get .acc ∧
          returned.memory = later.memory := by
  obtain ⟨hstep, hcalls⟩ := hd.step_call h hcall
  generalize next.called x.value = called at hstep hcalls
  have hframe := hcalls.saves
  rw [← hcalls.fp_add_two] at hframe
  obtain ⟨hsize, hq, -⟩ := Frame.holdsWords_words.mp hframe
  refine ⟨called, hstep, hcalls, ?_, hq, hsize, fun i hi => hcalls.wordAt_above hi, ?_⟩
  · intro i
    have hplace : called.registers.get .fp + 2 + 18 = called.registers.get .fp + 20 :=
      UInt16.add_assoc _ 2 18
    rw [← hplace, Frame.saved_of_holdsWords hframe]
    rfl
  · intro later hflat hrun hbyte hfp hblock hcount
    have hsaved := hcalls.holdsWords_of_agree hblock hcount
    rw [← hfp] at hsaved
    have hdret := decodes_flat hflat hrun hbyte
    have hret := hdret.returns_of_holdsWords hflat hsaved
    refine ⟨_, hdret.step_ret hflat, hret.ip, hret.general, ?_, ?_, ?_, hret.acc, hret.memory⟩
    · rw [hret.sp, hfp, hcalls.fp]
      grind
    · rw [hret.fp, hfp, hcalls.fp]
      show _ - 20 + (m.frameSize + 20) = _
      grind
    · rw [hret.frameSize]
      show m.frameSize + 20 - 20 - _ = _
      grind

/-- A machine about to call the return instruction behind the call, with two arguments, an
odd stack pointer and a stack that wraps around. -/
def oddStack : Machine where
  registers := (RegisterFile.zero.set .ip 0x1000).set .sp 5
  memory := ((empty.map (.newRam addressCount) 0 addressCount false).2.pokeList 0x1000
    [Opcode.calLit.byte, 0x10, 0x03, Opcode.ret.byte]).poke16 7 2
  frameSize := 7
  isHalted := false

theorem isFlat_oddStack : oddStack.memory.IsFlat :=
  ((isFlat_map_newRam false).pokeList _ _).poke16 _ _

/-- The code of the machine, which the stack does not reach. -/
theorem holds_oddStack :
    oddStack.memory.Holds 0x1000 [Opcode.calLit.byte, 0x10, 0x03, Opcode.ret.byte] := by
  have hflat := (isFlat_map_newRam false).pokeList 0x1000
    [Opcode.calLit.byte, 0x10, 0x03, Opcode.ret.byte]
  refine ((isFlat_map_newRam false).holds_pokeList 0x1000 (by decide)).congr fun b hb => ?_
  exact hflat.byteAt_poke16_away (by decide) hb 2

/-- There the return comes back behind the call, with the count and both arguments gone. -/
theorem call_and_return_on_odd_stack :
    ∃ called returned, Execution.step oddStack = .ok false called ∧
      Execution.step called = .ok false returned ∧
      called.registers.get .fp = 0xFFF1 ∧ returned.registers.get .ip = 0x1003 ∧
      returned.registers.get .sp = 11 ∧ returned.registers.get .fp = 12 ∧
      returned.frameSize = 3 := by
  obtain ⟨hcal, htarget, hlow, hret, -⟩ := holds_oddStack
  have hcount : oddStack.memory.wordAt 7 = 2 :=
    ((isFlat_map_newRam false).pokeList _ _).wordAt_poke16_self 7 2
  have hop : oddStack.memory.wordAt 0x1001 = 0x1003 := by
    have hbytes : oddStack.memory.byteAt 0x1001 = 0x10 ∧ oddStack.memory.byteAt 0x1002 = 0x03 :=
      ⟨htarget, hlow⟩
    rw [wordAt, hbytes.1]
    show Word.ofBytes _ (oddStack.memory.byteAt 0x1002) = _
    rw [hbytes.2]
    decide
  have hd : oddStack.Decodes .calLit [.literal (oddStack.memory.wordAt 0x1001)] _ :=
    decodes_flat isFlat_oddStack rfl hcal
  obtain ⟨called, hstep, hcalls, -, -, -, -, hreturn⟩ :=
    call_and_return isFlat_oddStack (Or.inl rfl) hd
  have hip : called.registers.get .ip = 0x1003 := by
    rw [hcalls.ip]
    exact hop
  -- the code is out of reach of the frame too
  have hbyte : called.memory.byteAt 0x1003 = Opcode.ret.byte := by
    rw [hcalls.frameRule _ (by decide)]
    exact hret
  obtain ⟨returned, hstep', hip', -, hsp', hfp', hsize', -, -⟩ :=
    hreturn called hcalls.isFlat hcalls.isHalted (by rw [hip, hbyte]) rfl (fun _ _ => rfl)
      hcalls.wordAt_count
  have hseven : oddStack.registers.get .sp + 2 = 7 := by decide
  rw [hseven] at hsp' hsize'
  refine ⟨called, returned, hstep, hstep', ?_, hip', ?_, hfp', ?_⟩
  · rw [hcalls.fp]
    decide
  · rw [hsp', hcount]
    decide
  · rw [hsize', hcount]
    decide

end Machine
end WordMachine
