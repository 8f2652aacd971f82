import WordMachine.Proofs.Machine.Decode
import WordMachine.Proofs.Memory.Request

/-!
# Fetching from any memory

An instruction is read as its opcode byte and then, operand by operand, as a byte or a word
at the running cursor.  `Opcode.reads` lists these reads.  When the last of them has been
made, the machine differs from the one that started in two respects: `ip` stands behind the
instruction, and the devices have seen the reads.  This machine is `Machine.fetched`, and the
effect of the instruction starts from it.

What an operand is can be told from the machine that started, since nothing that a fetch
does has an influence on a later read, and of the registers only `ip` moves while operands
are fetched (`Machine.FindsAt`).

Anything may be mapped, or not be mapped.  A fetch that comes to an address where nothing is
ends there, having read what lies before it.

* `Machine.Finds`: an instruction and its operands are what stands at `ip`.
* `Execution.fetchArguments_cases`: the two outcomes of a fetch of operands.
* `Machine.StepOutcome`, `Machine.stepOutcome`: the four outcomes of a step.
-/

namespace WordMachine

/-- Two numbers of bytes, one after the other. -/
theorem add_ofNat_add_ofNat (a : Word) (i j : Nat) :
    a + UInt16.ofNat i + UInt16.ofNat j = a + UInt16.ofNat (i + j) := by
  rw [UInt16.ofNat_add, UInt16.add_assoc]

/-- Addresses of bytes in a row. -/
def bytesFrom (a : Word) (n : Nat) : List Word := (List.range n).map (a + UInt16.ofNat ·)

theorem bytesFrom_add (a : Word) (i j : Nat) :
    bytesFrom a (i + j) = bytesFrom a i ++ bytesFrom (a + UInt16.ofNat i) j := by
  rw [bytesFrom, List.range_add, List.map_append, List.map_map]
  refine congrArg (_ ++ ·) (List.map_congr_left fun k _ => ?_)
  exact (add_ofNat_add_ofNat a i k).symm

/-- The addresses of the bytes that are read. -/
def bytesOf (reads : List (Width × Word)) : List Word :=
  reads.flatMap fun r => bytesFrom r.2 r.1.size

namespace Kind

/-- The width in which an operand of this kind is read. -/
def unit : Kind → Width
  | .literal | .address => .word
  | .literal8 | .register | .pointer => .byte

/-- The reads of operands of the given kinds, one behind the other from an address on. -/
def reads (a : Word) : List Kind → List (Width × Word)
  | [] => []
  | kind :: kinds => (kind.unit, a) :: reads (a + UInt16.ofNat kind.width) kinds

/-- The reads take the bytes of the operands, each once. -/
theorem bytesOf_reads (a : Word) (kinds : List Kind) :
    bytesOf (reads a kinds) = bytesFrom a (totalWidth kinds) := by
  induction kinds generalizing a with
  | nil => rfl
  | cons kind kinds ih =>
    have hunit : kind.unit.size = kind.width := by
      cases kind <;> rfl
    rw [bytesOf, reads, List.flatMap_cons, hunit, ← bytesOf, ih, totalWidth, bytesFrom_add]

end Kind

namespace Opcode

/-- The reads of an instruction that stands at an address: its opcode byte, and then its
operands. -/
def reads (a : Word) (opcode : Opcode) : List (Width × Word) :=
  (.byte, a) :: Kind.reads (a + 1) opcode.format.operands

/-- The reads of an instruction take as many bytes as its size says, one behind the other. -/
theorem bytesOf_reads (a : Word) (opcode : Opcode) :
    bytesOf (opcode.reads a) = bytesFrom a opcode.size := by
  rw [bytesOf, reads, List.flatMap_cons, ← bytesOf, Kind.bytesOf_reads, size, Format.size_eq,
    bytesFrom_add]
  rfl

end Opcode

namespace Machine

/-- The machine when the given reads have been made and `ip` has moved to an address. -/
def readUpTo (m : Machine) (reads : List (Width × Word)) (a : Word) : Machine :=
  { m with registers := m.registers.set .ip a, memory := m.memory.seen reads }

theorem readUpTo_readUpTo (m : Machine) (xs ys : List (Width × Word)) (a b : Word) :
    (m.readUpTo xs a).readUpTo ys b = m.readUpTo (xs ++ ys) b := by
  simp only [readUpTo, RegisterFile.set_set, AddressSpace.seen_append]

@[simp] theorem readUpTo_nil (m : Machine) : m.readUpTo [] (m.registers.get .ip) = m := by
  simp only [readUpTo, RegisterFile.set_get, AddressSpace.seen]

@[simp] theorem ip_readUpTo (m : Machine) (reads : List (Width × Word)) (a : Word) :
    (m.readUpTo reads a).registers.get .ip = a :=
  RegisterFile.get_set_self _ _ _

theorem get_readUpTo_of_ne (m : Machine) (reads : List (Width × Word)) (a : Word) {r : Register}
    (h : r ≠ .ip) : (m.readUpTo reads a).registers.get r = m.registers.get r :=
  RegisterFile.get_set_of_ne _ h _

theorem agrees_readUpTo (m : Machine) (reads : List (Width × Word)) (a : Word) :
    m.memory.Agrees (m.readUpTo reads a).memory :=
  m.memory.agrees_seen reads

/-- At an address stands an operand of the given kind: a word, a byte, or a byte that counts
modulo twelve as a register.  A register holds what it holds when its byte has been read, so
`ip` holds the address behind that byte. -/
def FindsAt (m : Machine) (a : Word) : Kind → Argument → Prop
  | .literal, .literal w | .address, .literal w => m.memory.peek16 a = .ok w
  | .literal8, .literal w => ∃ b, m.memory.peek8 a = .ok b ∧ w = Word.ofByte b
  | .register, .register r held | .pointer, .register r held =>
    ∃ b, m.memory.peek8 a = .ok b ∧ r.val = b.toNat % registerCount ∧
      held = if r = .ip then a + 1 else m.registers.get r
  | _, _ => False

/-- From an address on stand operands of the given kinds, one behind the other. -/
def FindsAllAt (m : Machine) (a : Word) : List Kind → List Argument → Prop
  | [], [] => True
  | kind :: kinds, x :: args =>
    m.FindsAt a kind x ∧ m.FindsAllAt (a + UInt16.ofNat kind.width) kinds args
  | _, _ => False

/-- At `ip` stand the byte of an instruction and behind it its operands. -/
def Finds (m : Machine) (opcode : Opcode) (args : List Argument) : Prop :=
  m.memory.peek8 (m.registers.get .ip) = .ok opcode.byte ∧
    m.FindsAllAt (m.registers.get .ip + 1) opcode.format.operands args

/-- The machine when an instruction at `ip` has been read and not yet begun to do
anything. -/
def fetched (m : Machine) (opcode : Opcode) : Machine :=
  m.readUpTo (opcode.reads (m.registers.get .ip))
    (m.registers.get .ip + UInt16.ofNat opcode.size)

@[simp] theorem ip_fetched (m : Machine) (opcode : Opcode) :
    (m.fetched opcode).registers.get .ip = m.registers.get .ip + UInt16.ofNat opcode.size :=
  m.ip_readUpTo _ _

theorem get_fetched_of_ne (m : Machine) (opcode : Opcode) {r : Register} (h : r ≠ .ip) :
    (m.fetched opcode).registers.get r = m.registers.get r :=
  m.get_readUpTo_of_ne _ _ h

theorem agrees_fetched (m : Machine) (opcode : Opcode) :
    m.memory.Agrees (m.fetched opcode).memory :=
  m.agrees_readUpTo _ _

/-- Where operands stand has nothing to do with where `ip` is and what has been read. -/
theorem findsAt_readUpTo (m : Machine) (reads : List (Width × Word)) (b a : Word) (kind : Kind)
    (x : Argument) : (m.readUpTo reads b).FindsAt a kind x ↔ m.FindsAt a kind x := by
  have hmemory := m.agrees_readUpTo reads b
  have hheld (r : Register) :
      (if r = .ip then a + 1 else (m.readUpTo reads b).registers.get r) =
        if r = .ip then a + 1 else m.registers.get r := by
    split
    · rfl
    · rename_i h
      exact m.get_readUpTo_of_ne reads b h
  cases kind <;> cases x <;> simp only [FindsAt, hmemory.peek8, hmemory.peek16, hheld]

theorem findsAllAt_readUpTo (m : Machine) (reads : List (Width × Word)) (b a : Word)
    (kinds : List Kind) (args : List Argument) :
    (m.readUpTo reads b).FindsAllAt a kinds args ↔ m.FindsAllAt a kinds args := by
  induction kinds generalizing a args with
  | nil => cases args <;> exact Iff.rfl
  | cons kind kinds ih =>
    cases args with
    | nil => exact Iff.rfl
    | cons x args => rw [FindsAllAt, FindsAllAt, findsAt_readUpTo, ih]

/-- Only one operand of a kind can stand at an address. -/
theorem FindsAt.unique {m : Machine} {a : Word} {kind : Kind} {x y : Argument}
    (hx : m.FindsAt a kind x) (hy : m.FindsAt a kind y) : x = y := by
  cases kind <;> cases x <;> cases y <;> simp only [FindsAt] at hx hy
  case literal.literal.literal | address.literal.literal =>
    rw [Except.ok.inj (hx.symm.trans hy)]
  case literal8.literal.literal =>
    obtain ⟨b, hb, rfl⟩ := hx
    obtain ⟨c, hc, rfl⟩ := hy
    rw [Except.ok.inj (hb.symm.trans hc)]
  case register.register.register r v q w | pointer.register.register r v q w =>
    obtain ⟨b, hb, hr, rfl⟩ := hx
    obtain ⟨c, hc, hq, rfl⟩ := hy
    obtain rfl : b = c := Except.ok.inj (hb.symm.trans hc)
    obtain rfl : r = q := Fin.ext (hr.trans hq.symm)
    rfl

theorem FindsAllAt.unique {m : Machine} {kinds : List Kind} {xs ys : List Argument} {a : Word}
    (hx : m.FindsAllAt a kinds xs) (hy : m.FindsAllAt a kinds ys) : xs = ys := by
  induction kinds generalizing a xs ys with
  | nil =>
    cases xs with
    | nil =>
      cases ys with
      | nil => rfl
      | cons y ys => exact hy.elim
    | cons x xs => exact hx.elim
  | cons kind kinds ih =>
    cases xs with
    | nil => exact hx.elim
    | cons x xs =>
      cases ys with
      | nil => exact hy.elim
      | cons y ys => rw [hx.1.unique hy.1, ih hx.2 hy.2]

/-- Only one instruction, with one list of operands, can stand at `ip`. -/
theorem Finds.unique {m : Machine} {opcode opcode' : Opcode} {args args' : List Argument}
    (h : m.Finds opcode args) (h' : m.Finds opcode' args') : opcode = opcode' ∧ args = args' := by
  obtain rfl : opcode = opcode' := Opcode.byte_injective (Except.ok.inj (h.1.symm.trans h'.1))
  exact ⟨rfl, h.2.unique h'.2⟩

/-- Where an instruction stands, no byte stands that means none. -/
theorem Finds.ofByte? {m : Machine} {opcode : Opcode} {args : List Argument} {b : Byte}
    (h : m.Finds opcode args) (hb : m.memory.peek8 (m.registers.get .ip) = .ok b) :
    Opcode.ofByte? b = some opcode := by
  obtain rfl : opcode.byte = b := Except.ok.inj (h.1.symm.trans hb)
  exact Opcode.ofByte?_byte opcode

end Machine

namespace Execution

open Machine

variable (m : Machine)

theorem fetch8_cases :
    (∃ b, m.memory.peek8 (m.registers.get .ip) = .ok b ∧
      fetch8 m = .ok b
        (m.readUpTo [(.byte, m.registers.get .ip)] (m.registers.get .ip + 1))) ∨
      (m.memory.isMapped (m.registers.get .ip) = false ∧
        fetch8 m = .error (.unmapped (m.registers.get .ip)) m) := by
  rw [fetch8_apply]
  rcases MemoryAction.read8_cases m.memory (m.registers.get .ip) with ⟨b, hb, hread⟩ | ⟨hun, hread⟩
  · rw [hread]
    exact .inl ⟨b, hb, rfl⟩
  · rw [hread]
    exact .inr ⟨hun, rfl⟩

theorem fetch16_cases :
    (∃ w, m.memory.peek16 (m.registers.get .ip) = .ok w ∧
      fetch16 m = .ok w
        (m.readUpTo [(.word, m.registers.get .ip)] (m.registers.get .ip + 2))) ∨
      (m.memory.isMapped (m.registers.get .ip) = false ∧
        fetch16 m = .error (.unmapped (m.registers.get .ip)) m) := by
  rw [fetch16_apply]
  rcases MemoryAction.read16_cases m.memory (m.registers.get .ip) with
    ⟨w, hw, hread⟩ | ⟨hun, hread⟩
  · rw [hread]
    exact .inl ⟨w, hw, rfl⟩
  · rw [hread]
    exact .inr ⟨hun, rfl⟩

/-- An operand is fetched if something is mapped at `ip`, and otherwise nothing happens. -/
theorem fetchArgument_cases (kind : Kind) :
    (∃ x, m.FindsAt (m.registers.get .ip) kind x ∧
      fetchArgument kind m = .ok x
        (m.readUpTo [(kind.unit, m.registers.get .ip)]
          (m.registers.get .ip + UInt16.ofNat kind.width))) ∨
      (m.memory.isMapped (m.registers.get .ip) = false ∧
        fetchArgument kind m = .error (.unmapped (m.registers.get .ip)) m) := by
  cases kind with
  | literal | address =>
    show (∃ x, _ ∧ (fetch16 >>= _) m = _) ∨ (_ ∧ (fetch16 >>= _) m = _)
    rw [bind_apply]
    rcases fetch16_cases m with ⟨w, hw, hfetch⟩ | ⟨hun, hfetch⟩
    · rw [hfetch]
      exact .inl ⟨.literal w, hw, rfl⟩
    · rw [hfetch]
      exact .inr ⟨hun, rfl⟩
  | literal8 =>
    show (∃ x, _ ∧ (fetch8 >>= _) m = _) ∨ (_ ∧ (fetch8 >>= _) m = _)
    rw [bind_apply]
    rcases fetch8_cases m with ⟨b, hb, hfetch⟩ | ⟨hun, hfetch⟩
    · rw [hfetch]
      exact .inl ⟨.literal (Word.ofByte b), ⟨b, hb, rfl⟩, rfl⟩
    · rw [hfetch]
      exact .inr ⟨hun, rfl⟩
  | register | pointer =>
    show (∃ x, _ ∧ (fetch8 >>= _) m = _) ∨ (_ ∧ (fetch8 >>= _) m = _)
    rw [bind_apply]
    rcases fetch8_cases m with ⟨b, hb, hfetch⟩ | ⟨hun, hfetch⟩
    · rw [hfetch]
      refine .inl ⟨.register (Register.ofSlot b) _, ⟨b, hb, rfl, ?_⟩, rfl⟩
      show (m.registers.set .ip _).get (Register.ofSlot b) = _
      exact RegisterFile.get_set _ _ _ _
    · rw [hfetch]
      exact .inr ⟨hun, rfl⟩

/-- Operands are fetched one behind the other, up to the first that is mapped nowhere. -/
theorem fetchArguments_cases (kinds : List Kind) :
    (∃ args, m.FindsAllAt (m.registers.get .ip) kinds args ∧
      fetchArguments kinds m = .ok args
        (m.readUpTo (Kind.reads (m.registers.get .ip) kinds)
          (m.registers.get .ip + UInt16.ofNat (Kind.totalWidth kinds)))) ∨
      ∃ i < kinds.length, ∃ args,
        m.FindsAllAt (m.registers.get .ip) (kinds.take i) args ∧
        m.memory.isMapped
          (m.registers.get .ip + UInt16.ofNat (Kind.totalWidth (kinds.take i))) = false ∧
        fetchArguments kinds m =
          .error (.unmapped (m.registers.get .ip + UInt16.ofNat (Kind.totalWidth (kinds.take i))))
            (m.readUpTo (Kind.reads (m.registers.get .ip) (kinds.take i))
              (m.registers.get .ip + UInt16.ofNat (Kind.totalWidth (kinds.take i)))) := by
  induction kinds generalizing m with
  | nil =>
    refine .inl ⟨[], trivial, ?_⟩
    show EStateM.Result.ok [] m = .ok [] (m.readUpTo [] (m.registers.get .ip + UInt16.ofNat 0))
    rw [Word.add_ofNat_zero, readUpTo_nil]
  | cons kind kinds ih =>
    rw [show fetchArguments (kind :: kinds) m = (fetchArgument kind >>= fun a =>
      fetchArguments kinds >>= fun rest => pure (a :: rest)) m from rfl, bind_apply]
    rcases fetchArgument_cases m kind with ⟨x, hx, hfetch⟩ | ⟨hun, hfetch⟩
    · rw [hfetch]
      show (∃ args, _ ∧ (fetchArguments kinds >>= _) _ = _) ∨
        ∃ i < _, ∃ args, _ ∧ _ ∧ (fetchArguments kinds >>= _) _ = _
      rw [bind_apply]
      rcases ih (m.readUpTo _ _) with ⟨args, hargs, hrest⟩ | ⟨i, hi, args, hargs, hun, hrest⟩
      · rw [hrest]
        rw [ip_readUpTo, findsAllAt_readUpTo] at hargs
        refine .inl ⟨x :: args, ⟨hx, hargs⟩, ?_⟩
        rw [ip_readUpTo, readUpTo_readUpTo, add_ofNat_add_ofNat]
        rfl
      · rw [hrest]
        rw [ip_readUpTo, findsAllAt_readUpTo] at hargs
        rw [ip_readUpTo, add_ofNat_add_ofNat, (m.agrees_readUpTo _ _).isMapped] at hun
        refine .inr ⟨i + 1, Nat.succ_lt_succ hi, x :: args, ⟨hx, hargs⟩, hun, ?_⟩
        rw [ip_readUpTo, readUpTo_readUpTo, add_ofNat_add_ofNat]
        rfl
    · rw [hfetch]
      refine .inr ⟨0, Nat.zero_lt_succ _, [], trivial, ?_⟩
      rw [List.take_zero, Kind.totalWidth, Kind.reads, Word.add_ofNat_zero, readUpTo_nil]
      exact ⟨hun, rfl⟩

end Execution

namespace Machine

/-- Behind the opcode byte, the operands lie as far as the size says. -/
theorem ip_add_size (a : Word) (opcode : Opcode) :
    a + 1 + UInt16.ofNat (Kind.totalWidth opcode.format.operands) =
      a + UInt16.ofNat opcode.size := by
  rw [Opcode.size, Format.size_eq, UInt16.ofNat_add, ← UInt16.add_assoc]
  rfl

/-- The machine when the opcode byte and the first `i` operands of an instruction at `ip` have
been read. -/
def partlyFetched (m : Machine) (opcode : Opcode) (i : Nat) : Machine :=
  m.readUpTo
    ((.byte, m.registers.get .ip) ::
      Kind.reads (m.registers.get .ip + 1) (opcode.format.operands.take i))
    (m.registers.get .ip + UInt16.ofNat (1 + Kind.totalWidth (opcode.format.operands.take i)))

/-- What a step of a machine that has not halted can come to. -/
inductive StepOutcome (m : Machine) (result : EStateM.Result MemoryError Machine Bool) : Prop
  /-- Nothing is mapped at `ip`. -/
  | unreadable (hun : m.memory.isMapped (m.registers.get .ip) = false)
      (h : result = .error (.unmapped (m.registers.get .ip)) m)
  /-- The byte at `ip` means no instruction. -/
  | passedOver (b : Byte) (hb : m.memory.peek8 (m.registers.get .ip) = .ok b)
      (hnone : Opcode.ofByte? b = none)
      (h : result = .ok false
        (m.readUpTo [(.byte, m.registers.get .ip)] (m.registers.get .ip + 1)))
  /-- Nothing is mapped where the operand with the number `i` should be. -/
  | cutShort (opcode : Opcode) (i : Nat) (args : List Argument)
      (hb : m.memory.peek8 (m.registers.get .ip) = .ok opcode.byte)
      (hi : i < opcode.format.operands.length)
      (hargs : m.FindsAllAt (m.registers.get .ip + 1) (opcode.format.operands.take i) args)
      (hun : m.memory.isMapped ((m.partlyFetched opcode i).registers.get .ip) = false)
      (h : result = .error (.unmapped ((m.partlyFetched opcode i).registers.get .ip))
        (m.partlyFetched opcode i))
  /-- The instruction has been read, and its effect has been tried. -/
  | executed (opcode : Opcode) (args : List Argument) (hfinds : m.Finds opcode args)
      (hdecodes : m.Decodes opcode args (m.fetched opcode))
      (h : result = ((opcode.effect (m.fetched opcode).registers args).perform >>=
        fun _ => pure (opcode == .hlt)) (m.fetched opcode))

/-- Every step of a machine that has not halted comes to one of the four. -/
theorem stepOutcome {m : Machine} (hrun : m.isHalted = false) :
    m.StepOutcome (Execution.step m) := by
  rcases Execution.fetch8_cases m with ⟨b, hb, hfetch⟩ | ⟨hun, hfetch⟩
  · cases hop : Opcode.ofByte? b with
    | none =>
      refine .passedOver b hb hop ?_
      rw [step_of_running hrun, Execution.bind_apply, hfetch]
      show Execution.execute b _ = _
      rw [Execution.execute_of_none hop]
      rfl
    | some opcode =>
      obtain rfl := Opcode.ofByte?_eq_some_iff.mp hop
      rcases Execution.fetchArguments_cases (m.readUpTo _ _) opcode.format.operands with
        ⟨args, hargs, hrest⟩ | ⟨i, hi, args, hargs, hun, hrest⟩
      · rw [ip_readUpTo, findsAllAt_readUpTo] at hargs
        rw [ip_readUpTo, readUpTo_readUpTo, ip_add_size] at hrest
        have hdecodes : m.Decodes opcode args (m.fetched opcode) := ⟨hrun, _, hfetch, hrest⟩
        exact .executed opcode args ⟨hb, hargs⟩ hdecodes hdecodes.step_eq
      · have hwidth : m.registers.get .ip + 1 +
            UInt16.ofNat (Kind.totalWidth (opcode.format.operands.take i)) =
            m.registers.get .ip +
              UInt16.ofNat (1 + Kind.totalWidth (opcode.format.operands.take i)) :=
          add_ofNat_add_ofNat _ 1 _
        rw [ip_readUpTo, findsAllAt_readUpTo] at hargs
        rw [ip_readUpTo, (m.agrees_readUpTo _ _).isMapped, hwidth] at hun
        rw [ip_readUpTo, readUpTo_readUpTo, hwidth] at hrest
        refine .cutShort opcode i args hb hi hargs ?_ ?_
        · rw [partlyFetched, ip_readUpTo]
          exact hun
        · rw [step_of_running hrun, Execution.bind_apply, hfetch]
          show Execution.execute opcode.byte _ = _
          rw [Execution.execute_of_some (Opcode.ofByte?_byte opcode), Execution.bind_apply, hrest,
            partlyFetched, ip_readUpTo]
          rfl
  · refine .unreadable hun ?_
    rw [step_of_running hrun, Execution.bind_apply, hfetch]

/-- What a step that succeeds has done: it has passed over a byte, or it has fetched an
instruction and its effect has touched what it may. -/
theorem executed_of_step {m m' : Machine} {halted : Bool} (hrun : m.isHalted = false)
    (hstep : Execution.step m = .ok halted m') :
    (∃ b, m.memory.peek8 (m.registers.get .ip) = .ok b ∧ Opcode.ofByte? b = none ∧
      halted = false ∧
      m' = m.readUpTo [(.byte, m.registers.get .ip)] (m.registers.get .ip + 1)) ∨
      ∃ opcode args, m.Finds opcode args ∧ m.Decodes opcode args (m.fetched opcode) ∧
        halted = (opcode == .hlt) ∧
        (opcode.effect (m.fetched opcode).registers args).perform (m.fetched opcode) =
          .ok () m' := by
  cases stepOutcome hrun with
  | unreadable hun h =>
    rw [hstep] at h
    exact nomatch h
  | passedOver b hb hnone h =>
    rw [hstep, EStateM.Result.ok.injEq] at h
    exact .inl ⟨b, hb, hnone, h⟩
  | cutShort opcode i args hb hi hargs hun h =>
    rw [hstep] at h
    exact nomatch h
  | executed opcode args hfinds hdecodes h =>
    rw [hstep, Execution.bind_apply] at h
    cases hperform : (opcode.effect (m.fetched opcode).registers args).perform
        (m.fetched opcode) with
    | ok u m₁ =>
      rw [hperform] at h
      obtain ⟨rfl, rfl⟩ := EStateM.Result.ok.inj h
      exact .inr ⟨opcode, args, hfinds, hdecodes, rfl, hperform⟩
    | error e m₁ =>
      rw [hperform] at h
      exact nomatch h

end Machine
end WordMachine
