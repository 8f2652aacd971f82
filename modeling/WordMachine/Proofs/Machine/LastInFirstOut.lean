import WordMachine.Proofs.Machine.Schedule
import WordMachine.Proofs.Machine.Step

/-!
# Last in, first out

Words that are pushed on a flat memory come back in reverse when they are popped.  This asks for
nothing but that the words fit: `sp` may be odd, the stack may wrap around the end of the address
space in the middle of a word, and it may fill all of it.  What makes it so is that the words
which have been pushed stand above `sp` in reverse, undisturbed by each other
(`holdsWords_reverse_pushedAll`).

For instructions there is one thing more to ask, since they are in the same memory: the stack must
not reach the instructions that are still to come.  A push then changes no byte of them, so they
can be executed one after the other, and a run of them is all their pushes, or all their pops, with
`ip` moved behind them.  `ip` is in the way of nothing, which is why it is moved once at the end
(`pushedAll_moveTo`, `restored_moveTo`).

A register that is pushed is read when its instruction is executed.  For `ip` and `sp` that matters:
what is pushed is the address behind the instruction, or `sp` as the pushes before have left it
(`Machine.pushValues`).

* `Execution.popAll`: popping several words.
* `Machine.InStack`: the bytes that pushes change.
* `Machine.step_push`, `Machine.step_pop`: one instruction.
* `Machine.runFor_pushes`, `Machine.runFor_pops`: instructions in a row.
* `Machine.last_in_first_out`: words and instructions.
-/

namespace WordMachine

open AddressSpace

/-! ## Pushing and popping -/

namespace Execution

variable {m : Machine}

/-- Pops a number of words, and answers them in the order in which they come. -/
def popAll : Nat → Execution (List Word)
  | 0 => pure []
  | n + 1 => do
    let w ← pop
    let ws ← popAll n
    pure (w :: ws)

/-- Pushing several words on a flat memory. -/
theorem pushAll_flat (h : m.memory.IsFlat) (ws : List Word) :
    pushAll ws m = .ok () (m.pushedAll ws) := by
  induction ws generalizing m with
  | nil => rfl
  | cons w ws ih =>
    rw [pushAll_cons, bind_apply, push_flat h]
    exact ih (m := m.pushed w) (h.poke16 _ _)

/-- Words that stand above `sp` are popped in their order. -/
theorem popAll_flat (h : m.memory.IsFlat) {ws : List Word}
    (hws : m.memory.HoldsWords (m.registers.get .sp + 2) ws) :
    popAll ws.length m = .ok ws (m.discarded ws.length) := by
  induction ws generalizing m with
  | nil =>
    rw [List.length_nil, Machine.discarded_zero]
    rfl
  | cons w ws ih =>
    obtain ⟨htop, hrest⟩ := holdsWords_cons.mp hws
    rw [← Machine.sp_popped] at hrest
    show (pop >>= fun w => popAll ws.length >>= fun ws => pure (w :: ws)) m = _
    rw [bind_apply, pop_flat h]
    show (popAll ws.length >>= fun ws => pure (m.top :: ws)) m.popped = _
    rw [bind_apply, ih (m := m.popped) h hrest, Machine.discarded_popped, Machine.top, htop]
    rfl

end Execution

namespace Machine

/-- The addresses of a stack of `k` words that is pushed from where `sp` is. -/
def InStack (m : Machine) (k : Nat) (b : Word) : Prop :=
  InBlock (m.registers.get .sp - UInt16.ofNat (2 * k) + 2) (2 * k) b

instance (m : Machine) (k : Nat) (b : Word) : Decidable (m.InStack k b) :=
  inferInstanceAs (Decidable (InBlock _ _ _))

variable {m : Machine}

/-- Pushing changes no byte outside the stack that is pushed. -/
theorem byteAt_pushedAll_of_not_inStack (h : m.memory.IsFlat) {ws : List Word} {b : Word}
    (hb : ¬ m.InStack ws.length b) : (m.pushedAll ws).memory.byteAt b = m.memory.byteAt b := by
  refine byteAt_pushedAll h ?_
  rwa [sp_pushedAll]

/-- After pushes the words stand above `sp` in reverse. -/
theorem holdsWords_reverse_pushedAll (h : m.memory.IsFlat) {ws : List Word}
    (hlen : ws.length ≤ 32768) :
    (m.pushedAll ws).memory.HoldsWords ((m.pushedAll ws).registers.get .sp + 2) ws.reverse := by
  have hbelow : m.memory.HoldsWords (m.registers.get .sp + 2) [] := trivial
  have hfits : 2 * (ws.length + ([] : List Word).length) ≤ addressCount := by
    rw [List.length_nil, addressCount]
    omega
  have hwords := holdsWords_pushedAll h hbelow hfits
  rwa [List.append_nil] at hwords

/-- Pushes and as many pops leave the registers and the frame counter as they were. -/
theorem discarded_pushedAll (m : Machine) (ws : List Word) :
    (m.pushedAll ws).discarded ws.length =
      { m with memory := (m.pushedAll ws).memory } := by
  have hsp : (m.pushedAll ws).registers.get .sp + UInt16.ofNat (2 * ws.length) =
      m.registers.get .sp := by
    rw [sp_pushedAll, UInt16.sub_add_cancel]
  have hsize : (m.pushedAll ws).frameSize - UInt16.ofNat (2 * ws.length) = m.frameSize := by
    rw [frameSize_pushedAll, UInt16.add_sub_cancel]
  have hregisters : (m.pushedAll ws).registers.set .sp (m.registers.get .sp) = m.registers := by
    apply RegisterFile.ext
    intro r
    by_cases hr : r = .sp
    · rw [hr, RegisterFile.get_set_self]
    · rw [RegisterFile.get_set_of_ne _ hr, get_pushedAll_of_ne m ws hr]
  rw [discarded, hsp, hsize, hregisters, isHalted_pushedAll]

/-! ## Instructions that push -/

/-- What an instruction that pushes names: a word in the code, or a register by any byte. -/
inductive PushOperand where
  | literal (w : Word)
  | register (slot : Byte)

/-- The machine code of the instruction. -/
def PushOperand.code : PushOperand → List Byte
  | .literal w => Opcode.pshLit.byte :: Word.toBytes w
  | .register slot => [Opcode.pshReg.byte, slot]

/-- The machine code of an instruction that pops into a register, by any byte. -/
def popCode (slot : Byte) : List Byte := [Opcode.pop.byte, slot]

/-- The word that the instruction pushes if it is the next one.  The register is read when the
instruction has been fetched. -/
def pushValue (m : Machine) : PushOperand → Word
  | .literal w => w
  | .register slot => (m.moveTo (m.registers.get .ip + 2)).registers.get (Register.ofSlot slot)

/-- The machine behind an instruction that pushes. -/
def afterPush (m : Machine) (x : PushOperand) : Machine :=
  (m.pushed (m.pushValue x)).moveTo (m.registers.get .ip + UInt16.ofNat x.code.length)

/-- The words that instructions in a row push, each of them when those in front of it have been
executed. -/
def pushValues (m : Machine) : List PushOperand → List Word
  | [] => []
  | x :: xs => m.pushValue x :: (m.afterPush x).pushValues xs

/-- The machine with one word popped into a register. -/
def poppedInto (m : Machine) (r : Register) : Machine :=
  { m.popped with registers := m.popped.registers.set r m.top }

theorem pushed_moveTo (m : Machine) (a w : Word) :
    (m.moveTo a).pushed w = (m.pushed w).moveTo a := by
  have hsp : (m.moveTo a).registers.get .sp = m.registers.get .sp :=
    m.get_moveTo_of_ne a (by decide)
  rw [pushed, hsp]
  show ({ m with registers := (m.registers.set .ip a).set .sp _, memory := _, frameSize := _ } :
    Machine) = _
  rw [RegisterFile.set_comm _ (by decide)]
  rfl

theorem pushedAll_moveTo (m : Machine) (a : Word) (ws : List Word) :
    (m.moveTo a).pushedAll ws = (m.pushedAll ws).moveTo a := by
  induction ws generalizing m with
  | nil => rfl
  | cons w ws ih => rw [pushedAll, pushed_moveTo, ih, pushedAll]

/-- A step that executes an instruction that pushes. -/
theorem step_push (h : m.memory.IsFlat) (hrun : m.isHalted = false) {x : PushOperand}
    (hcode : m.memory.Holds (m.registers.get .ip) x.code) :
    Execution.step m = .ok false (m.afterPush x) := by
  cases x with
  | literal w =>
    obtain ⟨hbyte, hword⟩ := hcode
    rw [holds_toBytes] at hword
    rw [(decodes_flat h hrun hbyte).step_flat h]
    show EStateM.Result.ok false ((m.moveTo _).pushed
      (m.memory.wordAt ((m.moveTo (m.registers.get .ip + 1)).registers.get .ip))) = _
    rw [ip_moveTo, hword, pushed_moveTo]
    rfl
  | register slot =>
    obtain ⟨hbyte, hslot, -⟩ := hcode
    rw [(decodes_flat h hrun hbyte).step_flat h]
    show EStateM.Result.ok false ((m.moveTo _).pushed
      (((m.moveTo _).moveTo _).registers.get (Register.ofSlot
        (m.memory.byteAt ((m.moveTo (m.registers.get .ip + 1)).registers.get .ip))))) = _
    rw [moveTo_moveTo, ip_moveTo, hslot, UInt16.add_assoc, pushed_moveTo]
    rfl

theorem ip_afterPush (m : Machine) (x : PushOperand) :
    (m.afterPush x).registers.get .ip = m.registers.get .ip + UInt16.ofNat x.code.length :=
  ip_moveTo _ _

/-- What is left of the stack behind the first word that is pushed, and where that word stands. -/
theorem not_inStack_succ {k : Nat} {b : Word} (hb : ¬ m.InStack (k + 1) b) (w : Word) :
    ¬ (m.pushed w).InStack k b ∧ b ≠ m.registers.get .sp ∧ b ≠ m.registers.get .sp + 1 := by
  have hbase : m.registers.get .sp - UInt16.ofNat (2 * (k + 1)) + 2 =
      m.registers.get .sp - UInt16.ofNat (2 * k) := by
    rw [Word.ofNat_two_mul_succ]
    grind
  have htop : m.registers.get .sp - UInt16.ofNat (2 * k) + UInt16.ofNat (2 * k) =
      m.registers.get .sp := UInt16.sub_add_cancel _ _
  have hrest : (m.pushed w).registers.get .sp - UInt16.ofNat (2 * k) + 2 =
      m.registers.get .sp - UInt16.ofNat (2 * k) := by
    rw [sp_pushed]
    grind
  rw [InStack, hbase] at hb
  obtain ⟨hlower, h1, h2⟩ := not_inBlock_add_two (n := 2 * k) hb
  rw [htop] at h1 h2
  rw [InStack, hrest]
  exact ⟨hlower, h1, h2⟩

theorem inStack_moveTo (m : Machine) (a : Word) (k : Nat) (b : Word) :
    (m.moveTo a).InStack k b ↔ m.InStack k b := by
  rw [InStack, InStack, m.get_moveTo_of_ne a (by decide)]

/-! ## Instructions that pop -/

theorem poppedInto_moveTo (m : Machine) (a : Word) {r : Register} (hr : r ≠ .ip) :
    (m.moveTo a).poppedInto r = (m.poppedInto r).moveTo a := by
  have hsp : (m.moveTo a).registers.get .sp = m.registers.get .sp :=
    m.get_moveTo_of_ne a (by decide)
  rw [poppedInto, top, popped, hsp]
  show ({ m with
    registers := ((m.registers.set .ip a).set .sp _).set r m.top, frameSize := _ } : Machine) = _
  rw [RegisterFile.set_comm m.registers (by decide), RegisterFile.set_comm _ (Ne.symm hr)]
  rfl

theorem restored_moveTo (m : Machine) (a : Word) {rs : List Register} (hrs : Register.ip ∉ rs) :
    (m.moveTo a).restored rs = (m.restored rs).moveTo a := by
  induction rs generalizing m with
  | nil => rfl
  | cons r rs ih =>
    rw [List.mem_cons, not_or] at hrs
    show ((m.moveTo a).poppedInto r).restored rs = _
    rw [poppedInto_moveTo m a (Ne.symm hrs.1), ih _ hrs.2]
    rfl

/-- A step that executes an instruction that pops. -/
theorem step_pop (h : m.memory.IsFlat) (hrun : m.isHalted = false) {slot : Byte}
    (hcode : m.memory.Holds (m.registers.get .ip) (popCode slot))
    (hip : Register.ofSlot slot ≠ .ip) :
    Execution.step m =
      .ok false ((m.poppedInto (Register.ofSlot slot)).moveTo (m.registers.get .ip + 2)) := by
  obtain ⟨hbyte, hslot, -⟩ := hcode
  rw [(decodes_flat h hrun hbyte).step_flat h]
  show EStateM.Result.ok false ((m.moveTo _).poppedInto (Register.ofSlot
    (m.memory.byteAt ((m.moveTo (m.registers.get .ip + 1)).registers.get .ip)))) = _
  rw [ip_moveTo, hslot, poppedInto_moveTo m _ hip]
  rfl

theorem restored_append (m : Machine) (rs qs : List Register) :
    m.restored (rs ++ qs) = (m.restored rs).restored qs := by
  induction rs generalizing m with
  | nil => rfl
  | cons r rs ih => exact ih _

/-- Of words that stand above `sp`, each is popped into the register that has its number. -/
theorem get_restored_last (m : Machine) {rs : List Register} (hsp : Register.sp ∉ rs)
    {ws : List Word} (hws : m.memory.HoldsWords (m.registers.get .sp + 2) ws)
    (hlt : rs.length < ws.length) (r : Register) :
    ws[rs.length]? = some ((m.restored (rs ++ [r])).registers.get r) := by
  have hplace : m.registers.get .sp + UInt16.ofNat (2 * rs.length) + 2 =
      m.registers.get .sp + 2 + UInt16.ofNat (2 * rs.length) := by grind
  have htop : (m.restored rs).top = ws[rs.length] := by
    rw [top, memory_restored, sp_restored m hsp, hplace]
    exact hws.wordAt hlt
  have hlast : (m.restored (rs ++ [r])).registers.get r = (m.restored rs).top := by
    rw [restored_append]
    exact RegisterFile.get_set_self _ _ _
  rw [hlast, htop, List.getElem?_eq_getElem hlt]

/-! ## Runs -/

/-- A run whose first step goes on is the run from there. -/
theorem runFor_of_step {m' : Machine} (hstep : Execution.step m = .ok false m') (n : Nat) :
    Execution.runFor (n + 1) m = Execution.runFor n m' := by
  show (Execution.step >>= _) m = _
  rw [Execution.bind_apply, hstep]
  rfl

/-- Instructions in a row that push. -/
theorem runFor_pushes (h : m.memory.IsFlat) (hrun : m.isHalted = false) {xs : List PushOperand}
    (hcode : m.memory.Holds (m.registers.get .ip) (xs.flatMap PushOperand.code))
    (haway : ∀ b, InBlock (m.registers.get .ip) (xs.flatMap PushOperand.code).length b →
      ¬ m.InStack xs.length b) :
    Execution.runFor xs.length m = .ok .running ((m.pushedAll (m.pushValues xs)).moveTo
      (m.registers.get .ip + UInt16.ofNat (xs.flatMap PushOperand.code).length)) := by
  induction xs generalizing m with
  | nil =>
    show EStateM.Result.ok _ m = .ok _ (m.moveTo _)
    rw [List.flatMap_nil, List.length_nil, moveTo_add_zero]
  | cons x xs ih =>
    rw [List.flatMap_cons, holds_append] at hcode
    rw [List.flatMap_cons, List.length_append] at haway
    have hrest (b : Word) (hb : InBlock ((m.afterPush x).registers.get .ip)
        (xs.flatMap PushOperand.code).length b) : ¬ m.InStack (xs.length + 1) b := by
      rw [ip_afterPush] at hb
      exact haway b hb.of_end
    have hcode' : (m.afterPush x).memory.Holds ((m.afterPush x).registers.get .ip)
        (xs.flatMap PushOperand.code) := by
      rw [ip_afterPush]
      refine hcode.2.congr fun b hb => ?_
      rw [← ip_afterPush] at hb
      obtain ⟨-, h1, h2⟩ := not_inStack_succ (hrest b hb) (m.pushValue x)
      show (m.memory.poke16 _ _).byteAt b = _
      rw [h.byteAt_poke16, if_neg h1, if_neg h2]
    have haway' (b : Word) (hb : InBlock ((m.afterPush x).registers.get .ip)
        (xs.flatMap PushOperand.code).length b) : ¬ (m.afterPush x).InStack xs.length b := by
      rw [afterPush, inStack_moveTo]
      exact (not_inStack_succ (hrest b hb) _).1
    rw [List.length_cons, runFor_of_step (step_push h hrun hcode.1),
      ih (m := m.afterPush x) (h.poke16 _ _) hrun hcode' haway', ip_afterPush, List.flatMap_cons,
      List.length_append, UInt16.ofNat_add, ← UInt16.add_assoc, pushValues, pushedAll]
    show EStateM.Result.ok _ ((((m.pushed _).moveTo _).pushedAll _).moveTo _) = _
    rw [pushedAll_moveTo, moveTo_moveTo]

/-- Instructions in a row that pop. -/
theorem runFor_pops (h : m.memory.IsFlat) (hrun : m.isHalted = false) {slots : List Byte}
    (hcode : m.memory.Holds (m.registers.get .ip) (slots.flatMap popCode))
    (hip : Register.ip ∉ slots.map Register.ofSlot) :
    Execution.runFor slots.length m = .ok .running
      ((m.restored (slots.map Register.ofSlot)).moveTo
        (m.registers.get .ip + UInt16.ofNat (2 * slots.length))) := by
  induction slots generalizing m with
  | nil =>
    show EStateM.Result.ok _ m = .ok _ (m.moveTo _)
    rw [List.length_nil, Nat.mul_zero, moveTo_add_zero]
  | cons slot slots ih =>
    rw [List.flatMap_cons, holds_append] at hcode
    rw [List.map_cons, List.mem_cons, not_or] at hip
    have hip' : ((m.poppedInto (Register.ofSlot slot)).moveTo
        (m.registers.get .ip + 2)).registers.get .ip = m.registers.get .ip + 2 := ip_moveTo _ _
    rw [List.length_cons, runFor_of_step (step_pop h hrun hcode.1 (Ne.symm hip.1)),
      ih (m := (m.poppedInto _).moveTo _) h hrun (by rw [hip']; exact hcode.2) hip.2, hip',
      restored_moveTo _ _ hip.2, moveTo_moveTo, Word.ofNat_two_mul_succ, UInt16.add_assoc,
      UInt16.add_comm 2]
    rfl

@[simp] theorem length_pushValues (m : Machine) (xs : List PushOperand) :
    (m.pushValues xs).length = xs.length := by
  induction xs generalizing m with
  | nil => rfl
  | cons x xs ih => rw [pushValues, List.length_cons, ih, List.length_cons]

/-- From `ip` on stand instructions that push, and behind them as many that pop, each into a
register other than `ip` and `sp`.  The words that are pushed do not reach any of them. -/
structure PushesThenPops (m : Machine) (xs : List PushOperand) (slots : List Byte) : Prop where
  running : m.isHalted = false
  length : slots.length = xs.length
  code : m.memory.Holds (m.registers.get .ip)
    (xs.flatMap PushOperand.code ++ slots.flatMap popCode)
  away : ∀ b, InBlock (m.registers.get .ip)
      (xs.flatMap PushOperand.code ++ slots.flatMap popCode).length b → ¬ m.InStack xs.length b
  targets : ∀ slot ∈ slots, Register.ofSlot slot ≠ .ip ∧ Register.ofSlot slot ≠ .sp

namespace PushesThenPops

variable {xs : List PushOperand} {slots : List Byte} (hcode : m.PushesThenPops xs slots)
include hcode

/-- There are no more of them than words in the address space, since they have to be somewhere
themselves. -/
theorem length_le : xs.length ≤ 32768 := by
  cases xs with
  | nil => exact Nat.zero_le _
  | cons x xs =>
    have hself : InBlock (m.registers.get .ip)
        ((x :: xs).flatMap PushOperand.code ++ slots.flatMap popCode).length
        (m.registers.get .ip) := by
      rw [InBlock, UInt16.sub_self]
      cases x <;> exact Nat.succ_pos _
    have hout := hcode.away _ hself
    have hlt := (m.registers.get .ip -
      (m.registers.get .sp - UInt16.ofNat (2 * (x :: xs).length) + 2)).toNat_lt
    rw [InStack, InBlock] at hout
    omega

theorem notMem_targets : Register.ip ∉ slots.map Register.ofSlot ∧
    Register.sp ∉ slots.map Register.ofSlot := by
  constructor
  · intro hmem
    obtain ⟨slot, hslot, heq⟩ := List.mem_map.mp hmem
    exact (hcode.targets slot hslot).1 heq
  · intro hmem
    obtain ⟨slot, hslot, heq⟩ := List.mem_map.mp hmem
    exact (hcode.targets slot hslot).2 heq

/-- The instructions that pop are still there when the others have pushed. -/
theorem holds_pops (h : m.memory.IsFlat) :
    (m.pushedAll (m.pushValues xs)).memory.Holds
      (m.registers.get .ip + UInt16.ofNat (xs.flatMap PushOperand.code).length)
      (slots.flatMap popCode) := by
  refine (holds_append.mp hcode.code).2.congr fun b hb => ?_
  refine byteAt_pushedAll_of_not_inStack h ?_
  rw [length_pushValues]
  refine hcode.away b ?_
  rw [List.length_append]
  exact hb.of_end

/-- The run up to any of the instructions that pop. -/
theorem runFor_eq (h : m.memory.IsFlat) {j : Nat} (hj : j ≤ slots.length) :
    ∃ a, Execution.runFor (xs.length + j) m = .ok .running (((m.pushedAll
      (m.pushValues xs)).restored ((slots.take j).map Register.ofSlot)).moveTo a) := by
  have hpushes := runFor_pushes h hcode.running (holds_append.mp hcode.code).1 fun b hb =>
    hcode.away b (Nat.lt_of_lt_of_le hb (by rw [List.length_append]; exact Nat.le_add_right _ _))
  have hflat := isFlat_pushedAll h (m.pushValues xs)
  have hpops := hcode.holds_pops h
  rw [← List.take_append_drop j slots, List.flatMap_append, holds_append] at hpops
  have hip : Register.ip ∉ (slots.take j).map Register.ofSlot := by
    rw [List.map_take]
    exact fun hmem => hcode.notMem_targets.1 (List.mem_of_mem_take hmem)
  have hrun := runFor_pops (m := (m.pushedAll (m.pushValues xs)).moveTo _) hflat
    ((isHalted_pushedAll m _).trans hcode.running) (by rw [ip_moveTo]; exact hpops.1) hip
  rw [restored_moveTo _ _ hip, moveTo_moveTo, List.length_take_of_le hj] at hrun
  rw [runFor_add, hpushes]
  exact ⟨_, hrun⟩

/-- An instruction that pops puts the word into its register that was the last to be pushed of
those that have not been popped. -/
theorem get_restored_take (h : m.memory.IsFlat) {j : Nat} (hj : j < slots.length) :
    (m.pushValues xs).reverse[j]? = some (((m.pushedAll (m.pushValues xs)).restored
      ((slots.take (j + 1)).map Register.ofSlot)).registers.get (Register.ofSlot slots[j])) := by
  have hlen : ((slots.take j).map Register.ofSlot).length = j := by
    rw [List.length_map, List.length_take_of_le (Nat.le_of_lt hj)]
  have hsp : Register.sp ∉ (slots.take j).map Register.ofSlot := by
    rw [List.map_take]
    exact fun hmem => hcode.notMem_targets.2 (List.mem_of_mem_take hmem)
  have hfits : (m.pushValues xs).length ≤ 32768 := by
    rw [length_pushValues]
    exact hcode.length_le
  have hwords := holdsWords_reverse_pushedAll h hfits
  have hlast := get_restored_last _ hsp hwords (by
    rw [hlen, List.length_reverse, length_pushValues, ← hcode.length]
    exact hj) (Register.ofSlot slots[j])
  rw [hlen] at hlast
  rw [hlast, ← List.take_append_getElem hj, List.map_append, List.map_singleton]

/-- It stays there if no later instruction pops into the same register. -/
theorem get_restored_of_last (h : m.memory.IsFlat) {j : Nat} (hj : j < slots.length)
    (hlast : Register.ofSlot slots[j] ∉ (slots.drop (j + 1)).map Register.ofSlot) :
    (m.pushValues xs).reverse[j]? = some (((m.pushedAll (m.pushValues xs)).restored
      (slots.map Register.ofSlot)).registers.get (Register.ofSlot slots[j])) := by
  have hsplit : slots.map Register.ofSlot =
      (slots.take (j + 1)).map Register.ofSlot ++
        (slots.drop (j + 1)).map Register.ofSlot := by
    rw [← List.map_append, List.take_append_drop]
  have hsp := (hcode.targets _ (List.getElem_mem hj)).2
  rw [hcode.get_restored_take h hj, hsplit, restored_append, get_restored_of_notMem _ hlast hsp]

end PushesThenPops

/-- **Last in, first out.**  On a flat memory, wherever `sp` is: words that are pushed and popped
again come back in reverse, the registers and the frame counter are what they were, and only the
bytes of the stack have changed.  Instructions that push, and behind them as many that pop into
registers, do the same if the stack does not reach them: each instruction that pops gets the last
word that is left, its register keeps that word unless a later one pops into it again, and `sp`
comes back to where it was. -/
theorem last_in_first_out (h : m.memory.IsFlat) :
    (∀ ws : List Word, ws.length ≤ 32768 →
      ∃ m', (Execution.pushAll ws >>= fun _ => Execution.popAll ws.length) m =
          .ok ws.reverse m' ∧
        m'.registers = m.registers ∧ m'.frameSize = m.frameSize ∧
        m'.isHalted = m.isHalted ∧ m'.memory.IsFlat ∧
        ∀ b, ¬ m.InStack ws.length b → m'.memory.byteAt b = m.memory.byteAt b) ∧
    ∀ xs slots, m.PushesThenPops xs slots →
      (∀ (j : Nat) (hj : j < slots.length), ∃ m',
        Execution.runFor (xs.length + (j + 1)) m = .ok .running m' ∧
        (m.pushValues xs).reverse[j]? = some (m'.registers.get (Register.ofSlot slots[j]))) ∧
      ∃ m', Execution.runFor (xs.length + slots.length) m = .ok .running m' ∧
        (∀ (j : Nat) (hj : j < slots.length),
          Register.ofSlot slots[j] ∉ (slots.drop (j + 1)).map Register.ofSlot →
          (m.pushValues xs).reverse[j]? = some (m'.registers.get (Register.ofSlot slots[j]))) ∧
        m'.registers.get .sp = m.registers.get .sp ∧ m'.frameSize = m.frameSize ∧
        ∀ b, ¬ m.InStack xs.length b → m'.memory.byteAt b = m.memory.byteAt b := by
  constructor
  · intro ws hlen
    have hflat := isFlat_pushedAll h ws
    have hpops := Execution.popAll_flat hflat (holdsWords_reverse_pushedAll h hlen)
    rw [List.length_reverse, discarded_pushedAll] at hpops
    refine ⟨{ m with memory := (m.pushedAll ws).memory }, ?_, rfl, rfl, rfl, hflat,
      fun b hb => byteAt_pushedAll_of_not_inStack h hb⟩
    rw [Execution.bind_apply, Execution.pushAll_flat h]
    exact hpops
  · intro xs slots hcode
    have hip {j : Nat} (hj : j < slots.length) := (hcode.targets _ (List.getElem_mem hj)).1
    constructor
    · intro j hj
      obtain ⟨a, hrun⟩ := hcode.runFor_eq h hj
      refine ⟨_, hrun, ?_⟩
      rw [get_moveTo_of_ne _ _ (hip hj)]
      exact hcode.get_restored_take h hj
    · obtain ⟨a, hrun⟩ := hcode.runFor_eq h (Nat.le_refl _)
      rw [List.take_length] at hrun
      refine ⟨_, hrun, fun j hj hlast => ?_, ?_, ?_, fun b hb => ?_⟩
      · rw [get_moveTo_of_ne _ _ (hip hj)]
        exact hcode.get_restored_of_last h hj hlast
      · rw [get_moveTo_of_ne _ _ (by decide), sp_restored _ hcode.notMem_targets.2, sp_pushedAll,
          List.length_map, hcode.length, length_pushValues, UInt16.sub_add_cancel]
      · rw [frameSize_moveTo, frameSize_restored, frameSize_pushedAll, List.length_map,
          hcode.length, length_pushValues, UInt16.add_sub_cancel]
      · rw [memory_moveTo, memory_restored]
        refine byteAt_pushedAll_of_not_inStack h ?_
        rwa [length_pushValues]

/-- A word and the stack pointer are pushed, and popped into `r1` and `r2`. -/
def swapCode : List PushOperand × List Byte :=
  ([.literal 0xABCD, .register (Register.slot .sp)], [2, 3])

/-- A machine with this code and a stack that begins in the middle of a word and goes on at the
high end of the address space. -/
def aroundZero : Machine where
  registers := (RegisterFile.zero.set .ip 0x1000).set .sp 1
  memory := (empty.map (.newRam addressCount) 0 addressCount false).2.pokeList 0x1000
    (swapCode.1.flatMap PushOperand.code ++ swapCode.2.flatMap popCode)
  frameSize := 0
  isHalted := false

theorem isFlat_aroundZero : aroundZero.memory.IsFlat := (isFlat_map_newRam false).pokeList _ _

theorem pushesThenPops_aroundZero : aroundZero.PushesThenPops swapCode.1 swapCode.2 where
  running := rfl
  length := rfl
  code := (isFlat_map_newRam false).holds_pokeList 0x1000 (by decide)
  away b hb := by
    obtain ⟨i, hi, rfl⟩ := inBlock_iff_exists.mp hb
    revert i
    decide
  targets := List.forall_mem_cons.mpr ⟨by decide, List.forall_mem_singleton.mpr (by decide)⟩

/-- The second word to be pushed is the stack pointer when the first has been pushed. -/
theorem last_in_first_out_around_zero :
    (∃ m', (Execution.pushAll [1, 2, 3] >>= fun _ => Execution.popAll 3) aroundZero =
        .ok [3, 2, 1] m' ∧ m'.registers = aroundZero.registers) ∧
      ∃ m', Execution.runFor 4 aroundZero = .ok .running m' ∧ m'.registers.get 2 = 0xFFFF ∧
        m'.registers.get 3 = 0xABCD ∧ m'.registers.get .sp = 1 := by
  obtain ⟨hwords, hinstructions⟩ := last_in_first_out isFlat_aroundZero
  constructor
  · obtain ⟨m', hrun, hregisters, -⟩ := hwords [1, 2, 3] (by decide)
    exact ⟨m', hrun, hregisters⟩
  · obtain ⟨-, m', hrun, hvalues, hsp, -⟩ := hinstructions _ _ pushesThenPops_aroundZero
    have hfirst := hvalues 0 (by decide) (by decide)
    have hsecond := hvalues 1 (by decide) (by decide)
    exact ⟨m', hrun, (Option.some.inj hfirst).symm, (Option.some.inj hsecond).symm, hsp⟩

end Machine
end WordMachine
