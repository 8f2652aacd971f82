import WordMachine.Proofs.Machine.Footprint

/-!
# What a failed step leaves behind

A step fails at an access to an address where nothing is mapped, and at nothing else.  What
it leaves behind depends on where in the step that was.  While the instruction is being read,
only `ip` has moved, past the bytes that could be read.  Behind the instruction it is a
matter of the effect.  Loads, stores and pushes access memory before they change anything; a
pop moves `sp` and the counter first; a call has pushed some of its words; a return may have
restored anything but `acc` and `fp`, of which it sets the second at its very end.

Which of these effects has failed can be told from the byte at `ip` (`Machine.opcode?`), so
that for all instructions but calls, pops and returns the failed step has changed `ip` only.

* `Machine.FetchEnds`: how far the reading of an instruction can have come.
* `Machine.Faults`: what a failed step leaves behind.
* `Machine.faults_of_step`: every step that fails leaves that behind.
-/

namespace WordMachine

open AddressSpace

namespace AddressSpace

/-- Where nothing is mapped, no region is. -/
theorem contains_of_not_isMapped {m : AddressSpace} {a : Word} (h : m.isMapped a = false) :
    ∀ r ∈ m.regions, r.contains a = false := by
  intro r hr
  rw [isMapped, List.any_eq_false] at h
  exact Bool.eq_false_iff.mpr (h r hr)

/-- What has been read is mapped. -/
theorem isMapped_of_peek8 {m : AddressSpace} {a : Word} {b : Byte} (h : m.peek8 a = .ok b) :
    m.isMapped a = true := by
  cases hmapped : m.isMapped a with
  | true => rfl
  | false =>
    rw [(peek_of_not_isMapped hmapped).1] at h
    exact nomatch h

theorem isMapped_of_peek16 {m : AddressSpace} {a w : Word} (h : m.peek16 a = .ok w) :
    m.isMapped a = true := by
  cases hmapped : m.isMapped a with
  | true => rfl
  | false =>
    rw [(peek_of_not_isMapped hmapped).2] at h
    exact nomatch h

end AddressSpace

namespace Machine

/-! ## Where an instruction can be read -/

/-- Something is mapped where an operand stands. -/
theorem FindsAt.isMapped {m : Machine} {a : Word} {kind : Kind} {x : Argument}
    (h : m.FindsAt a kind x) : m.memory.isMapped a = true := by
  cases kind <;> cases x <;> simp only [FindsAt] at h
  case literal.literal | address.literal => exact isMapped_of_peek16 h
  case literal8.literal | register.register | pointer.register =>
    obtain ⟨b, hb, -⟩ := h
    exact isMapped_of_peek8 hb

/-- Something is mapped where each of several operands stands. -/
theorem FindsAllAt.isMapped {m : Machine} {kinds : List Kind} {args : List Argument} {a : Word}
    (h : m.FindsAllAt a kinds args) {i : Nat} (hi : i < kinds.length) :
    m.memory.isMapped (a + UInt16.ofNat (Kind.totalWidth (kinds.take i))) = true := by
  induction kinds generalizing a args i with
  | nil => exact absurd hi (Nat.not_lt_zero i)
  | cons kind kinds ih =>
    cases args with
    | nil => exact h.elim
    | cons x args =>
      cases i with
      | zero =>
        rw [List.take_zero, Kind.totalWidth, Word.add_ofNat_zero]
        exact h.1.isMapped
      | succ i =>
        rw [List.take_succ_cons, Kind.totalWidth, ← add_ofNat_add_ofNat]
        exact ih h.2 (Nat.lt_of_succ_lt_succ hi)

/-- The instruction that the byte at `ip` means, if there is one. -/
def opcode? (m : Machine) : Option Opcode :=
  match m.memory.peek8 (m.registers.get .ip) with
  | .ok b => Opcode.ofByte? b
  | .error _ => none

theorem opcode?_of_peek8 {m : Machine} {opcode : Opcode}
    (h : m.memory.peek8 (m.registers.get .ip) = .ok opcode.byte) : m.opcode? = some opcode := by
  rw [opcode?, h]
  exact Opcode.ofByte?_byte opcode

/-- A step that fails at an address can have fetched this many bytes: none, if nothing is
mapped at `ip`; those in front of an operand, if nothing is mapped where that stands; or the
whole instruction. -/
def FetchEnds (m : Machine) (a : Word) (k : Nat) : Prop :=
  k = 0 ∧ a = m.registers.get .ip ∨
    ∃ opcode, m.opcode? = some opcode ∧
      ((∃ i < opcode.format.operands.length, ∃ args,
          m.FindsAllAt (m.registers.get .ip + 1) (opcode.format.operands.take i) args ∧
          k = 1 + Kind.totalWidth (opcode.format.operands.take i) ∧
          a = m.registers.get .ip + UInt16.ofNat k) ∨
        (∃ args, m.Finds opcode args) ∧ k = opcode.size)

end Machine

theorem Kind.totalWidth_take_le (kinds : List Kind) (i : Nat) :
    totalWidth (kinds.take i) ≤ totalWidth kinds := by
  induction kinds generalizing i with
  | nil => simp
  | cons kind kinds ih =>
    cases i with
    | zero => exact Nat.zero_le _
    | succ i => exact Nat.add_le_add_left (ih i) _

/-- No more is fetched than the instruction is long. -/
theorem Machine.FetchEnds.le_size {m : Machine} {a : Word} {k : Nat} (h : m.FetchEnds a k)
    {opcode : Opcode} (hop : m.opcode? = some opcode) : k ≤ opcode.size := by
  rcases h with ⟨rfl, -⟩ | ⟨opcode', hop', hends⟩
  · exact Nat.zero_le _
  · obtain rfl : opcode = opcode' := Option.some.inj (hop.symm.trans hop')
    rcases hends with ⟨i, -, args, -, rfl, -⟩ | ⟨-, rfl⟩
    · rw [Opcode.size, Format.size_eq]
      exact Nat.add_le_add_left (Kind.totalWidth_take_le _ i) 1
    · exact Nat.le_refl _

/-! ## Effects that fail -/

namespace Effect

/-- With the operands that are found for it, a call has the effect to call. -/
theorem effect_of_finds_call {m : Machine} {opcode : Opcode} {args : List Argument}
    (h : m.Finds opcode args) (hop : opcode = .calLit ∨ opcode = .calReg) (regs : RegisterFile) :
    ∃ target, opcode.effect regs args = .call target := by
  obtain ⟨-, hargs⟩ := h
  rcases hop with rfl | rfl
  all_goals
    match args, hargs with
    | [x], _ => exact ⟨x.value, rfl⟩

/-- With the operand that is found for it, a pop has the effect to pop. -/
theorem effect_of_finds_pop {m : Machine} {args : List Argument} (h : m.Finds .pop args)
    (regs : RegisterFile) : ∃ r, Opcode.pop.effect regs args = .pop r := by
  obtain ⟨-, hargs⟩ := h
  match args, hargs with
  | [.register r held], _ => exact ⟨r, rfl⟩

/-- An effect that has failed has done nothing, or it is a pop, a call or a return. -/
theorem Fails.cases {m m' : Machine} {a : Word} {e : Effect} (h : e.Fails m a m') :
    ((∀ r, e ≠ .pop r) ∧ (∀ target, e ≠ .call target) ∧ m' = m) ∨
      (∃ r, e = .pop r ∧ a = m.registers.get .sp + 2 ∧ m' = m.popped) ∨
      (∃ target, e = .call target ∧ ∃ j < 10, a = m.registers.get .sp - UInt16.ofNat (2 * j) ∧
        (m.pushedAll ((m.frame (m.registers.get .ip)).words.reverse.take j)).Agrees m') ∨
      (e = .ret ∧ Execution.Unwinding m m') := by
  cases e with
  | nothing | halt | jump | assign => exact h.elim
  | load8 | load16 | store8 | store16 | push => exact .inl ⟨nofun, nofun, h.2⟩
  | pop r => exact .inr (.inl ⟨r, rfl, h⟩)
  | call target => exact .inr (.inr (.inl ⟨target, rfl, h⟩))
  | ret => exact .inr (.inr (.inr ⟨rfl, h⟩))

end Effect

namespace Machine

/-! ## Steps that fail -/

/-- What a step leaves behind that has failed at an address. -/
structure Faults (m : Machine) (a : Word) (m' : Machine) : Prop where
  unmapped : ∀ r ∈ m.memory.regions, r.contains a = false
  isHalted : m'.isHalted = false
  acc : m'.registers.get .acc = m.registers.get .acc
  fp : m'.registers.get .fp = m.registers.get .fp
  /-- The contents of the devices, unless the instruction is a call. -/
  contents : m.opcode? ≠ some .calLit → m.opcode? ≠ some .calReg →
    m'.memory.regions = m.memory.regions
  /-- The general registers, unless it is a return. -/
  general : m.opcode? ≠ some .ret →
    ∀ r ∈ Register.general, m'.registers.get r = m.registers.get r
  /-- `sp` and the counter, unless it is a pop, a call or a return. -/
  stack : m.opcode? ≠ some .pop → m.opcode? ≠ some .calLit → m.opcode? ≠ some .calReg →
    m.opcode? ≠ some .ret →
    m'.registers.get .sp = m.registers.get .sp ∧ m'.frameSize = m.frameSize
  /-- `ip` is behind the bytes that have been fetched, unless it is a return. -/
  ip : m.opcode? ≠ some .ret → ∃ k, m.FetchEnds a k ∧
    (∀ opcode, m.opcode? = some opcode → k ≤ opcode.size) ∧
    m'.registers.get .ip = m.registers.get .ip + UInt16.ofNat k
  /-- A call that has been fetched has pushed the first of the ten words that it saves. -/
  call : ∀ opcode args, m.Finds opcode args → opcode = .calLit ∨ opcode = .calReg →
    ∃ j < 10, a = m.registers.get .sp - UInt16.ofNat (2 * j) ∧
      ((m.fetched opcode).pushedAll ((m.frame (m.registers.get .ip +
        UInt16.ofNat opcode.size)).words.reverse.take j)).Agrees m' ∧
      m'.registers.get .sp = m.registers.get .sp - UInt16.ofNat (2 * j) ∧
      m'.frameSize = m.frameSize + UInt16.ofNat (2 * j) ∧
      m'.registers.get .ip = m.registers.get .ip + UInt16.ofNat opcode.size
  /-- A pop that has been fetched has moved `sp` and the counter, and no register has received
  anything. -/
  pop : ∀ args, m.Finds .pop args →
    a = m.registers.get .sp + 2 ∧ m'.registers.get .sp = m.registers.get .sp + 2 ∧
      m'.frameSize = m.frameSize - 2 ∧
      ∀ r, r ≠ .ip → r ≠ .sp → m'.registers.get r = m.registers.get r

variable {m m' : Machine} {a : Word}

/-- A step that has failed and has done nothing but to read. -/
theorem faults_readUpTo (hrun : m.isHalted = false) (hun : m.memory.isMapped a = false)
    {k : Nat} (hends : m.FetchEnds a k)
    (hcall : ∀ opcode args, m.Finds opcode args → ¬ (opcode = .calLit ∨ opcode = .calReg))
    (hpop : ∀ args, ¬ m.Finds .pop args) (reads : List (Width × Word)) :
    m.Faults a (m.readUpTo reads (m.registers.get .ip + UInt16.ofNat k)) where
  unmapped := contains_of_not_isMapped hun
  isHalted := hrun
  acc := m.get_readUpTo_of_ne _ _ (by decide)
  fp := m.get_readUpTo_of_ne _ _ (by decide)
  contents _ _ := (m.agrees_readUpTo _ _).regions
  general _ r hr := m.get_readUpTo_of_ne _ _ (Register.ne_of_mem_general hr).1
  stack _ _ _ _ := ⟨m.get_readUpTo_of_ne _ _ (by decide), rfl⟩
  ip _ := ⟨k, hends, fun _ hop => hends.le_size hop, m.ip_readUpTo _ _⟩
  call opcode args hfinds hop := absurd hop (hcall opcode args hfinds)
  pop args hfinds := absurd hfinds (hpop args)

theorem fetchEnds_of_finds {opcode : Opcode} {args : List Argument} (h : m.Finds opcode args)
    (a : Word) : m.FetchEnds a opcode.size :=
  .inr ⟨opcode, opcode?_of_peek8 h.1, .inr ⟨⟨args, h⟩, rfl⟩⟩

/-- What a call saves does not depend on how far `ip` is. -/
theorem words_frame_fetched (m : Machine) (opcode : Opcode) (q : Word) :
    ((m.fetched opcode).frame q).words = (m.frame q).words := by
  have hsaved : Register.general.reverse.map (m.fetched opcode).registers.get =
      Register.general.reverse.map m.registers.get :=
    List.map_congr_left fun r hr =>
      m.get_fetched_of_ne opcode (Register.ne_of_mem_general (List.mem_reverse.mp hr)).1
  exact congrArg (fun ws => (m.frameSize + 20) :: q :: ws) hsaved

/-- A pop that has failed where it reads the stack. -/
theorem faults_pop {args : List Argument} (hrun : m.isHalted = false)
    (hfinds : m.Finds .pop args)
    (hun : m.memory.isMapped (m.registers.get .sp + 2) = false) :
    m.Faults (m.registers.get .sp + 2) (m.fetched .pop).popped := by
  have hget {r : Register} (hip : r ≠ .ip) (hsp : r ≠ .sp) :
      (m.fetched .pop).popped.registers.get r = m.registers.get r := by
    rw [get_popped_of_ne _ hsp]
    exact m.get_fetched_of_ne _ hip
  have hstack : (m.fetched .pop).popped.registers.get .sp = m.registers.get .sp + 2 := by
    rw [sp_popped, m.get_fetched_of_ne _ (by decide)]
  have hop : m.opcode? = some .pop := opcode?_of_peek8 hfinds.1
  have hends := fetchEnds_of_finds hfinds (m.registers.get .sp + 2)
  exact {
    unmapped := contains_of_not_isMapped hun
    isHalted := hrun
    acc := hget (by decide) (by decide)
    fp := hget (by decide) (by decide)
    contents := fun _ _ => (m.agrees_fetched _).regions
    general := fun _ r hr =>
      hget (Register.ne_of_mem_general hr).1 (Register.ne_of_mem_general hr).2.2
    stack := fun hne => absurd hop hne
    ip := fun _ => ⟨_, hends, fun _ hop' => hends.le_size hop', by
      rw [get_popped_of_ne _ (by decide)]
      exact m.ip_fetched _⟩
    call := fun opcode args' hfinds' hcall => by
      obtain ⟨rfl, -⟩ := hfinds.unique hfinds'
      exact absurd hcall (by decide)
    pop := fun _ _ => ⟨rfl, hstack, rfl, fun _ => hget⟩ }

/-- A call that has failed where it pushes. -/
theorem faults_call {opcode : Opcode} {args : List Argument} (hrun : m.isHalted = false)
    (hfinds : m.Finds opcode args) (hop : opcode = .calLit ∨ opcode = .calReg) {j : Nat}
    (hj : j < 10)
    (hun : m.memory.isMapped (m.registers.get .sp - UInt16.ofNat (2 * j)) = false)
    (hagrees : ((m.fetched opcode).pushedAll ((m.frame (m.registers.get .ip +
      UInt16.ofNat opcode.size)).words.reverse.take j)).Agrees m') :
    m.Faults (m.registers.get .sp - UInt16.ofNat (2 * j)) m' := by
  have hlength : ((m.frame (m.registers.get .ip +
      UInt16.ofNat opcode.size)).words.reverse.take j).length = j := by
    rw [List.length_take, List.length_reverse, Frame.length_words]
    exact Nat.min_eq_left (Nat.le_of_lt hj)
  have hget {r : Register} (hsp : r ≠ .sp) :
      m'.registers.get r = (m.fetched opcode).registers.get r := by
    rw [hagrees.registers, get_pushedAll_of_ne _ _ hsp]
  have hother {r : Register} (hip : r ≠ .ip) (hsp : r ≠ .sp) :
      m'.registers.get r = m.registers.get r :=
    (hget hsp).trans (m.get_fetched_of_ne _ hip)
  have hip : m'.registers.get .ip = m.registers.get .ip + UInt16.ofNat opcode.size :=
    (hget (by decide)).trans (m.ip_fetched _)
  have hop' : m.opcode? = some .calLit ∨ m.opcode? = some .calReg := by
    rw [opcode?_of_peek8 hfinds.1]
    exact hop.imp (congrArg some) (congrArg some)
  have hends := fetchEnds_of_finds hfinds (m.registers.get .sp - UInt16.ofNat (2 * j))
  exact {
    unmapped := contains_of_not_isMapped hun
    isHalted := by rw [hagrees.isHalted, isHalted_pushedAll]; exact hrun
    acc := hother (by decide) (by decide)
    fp := hother (by decide) (by decide)
    contents := fun hlit hreg => absurd hop' (not_or.mpr ⟨hlit, hreg⟩)
    general := fun _ r hr =>
      hother (Register.ne_of_mem_general hr).1 (Register.ne_of_mem_general hr).2.2
    stack := fun _ hlit hreg => absurd hop' (not_or.mpr ⟨hlit, hreg⟩)
    ip := fun _ => ⟨_, hends, fun _ hop' => hends.le_size hop', hip⟩
    call := fun opcode' args' hfinds' _ => by
      obtain ⟨rfl, -⟩ := hfinds.unique hfinds'
      refine ⟨j, hj, rfl, hagrees, ?_, ?_, hip⟩
      · rw [hagrees.registers, sp_pushedAll, hlength, m.get_fetched_of_ne _ (by decide)]
      · rw [hagrees.frameSize, frameSize_pushedAll, hlength]
        rfl
    pop := fun args' hfinds' => by
      obtain ⟨rfl, -⟩ := hfinds.unique hfinds'
      exact absurd hop (by decide) }

/-- A return that has failed somewhere in the frame that it closes. -/
theorem faults_ret {args : List Argument} (hrun : m.isHalted = false)
    (hfinds : m.Finds .ret args) (hun : m.memory.isMapped a = false)
    (hunwinding : Execution.Unwinding (m.fetched .ret) m') : m.Faults a m' := by
  have hop : m.opcode? = some .ret := opcode?_of_peek8 hfinds.1
  exact {
    unmapped := contains_of_not_isMapped hun
    isHalted := hunwinding.isHalted.trans hrun
    acc := hunwinding.acc.trans (m.get_fetched_of_ne _ (by decide))
    fp := hunwinding.fp.trans (m.get_fetched_of_ne _ (by decide))
    contents := fun _ _ => hunwinding.memory.regions.trans (m.agrees_fetched _).regions
    general := fun hne => absurd hop hne
    stack := fun _ _ _ hne => absurd hop hne
    ip := fun hne => absurd hop hne
    call := fun opcode args' hfinds' hcall => by
      obtain ⟨rfl, -⟩ := hfinds.unique hfinds'
      exact absurd hcall (by decide)
    pop := fun args' hfinds' => nomatch (hfinds.unique hfinds').1 }

/-- An effect that has failed behind its instruction. -/
theorem faults_of_perform {opcode : Opcode} {args : List Argument} (hrun : m.isHalted = false)
    (hfinds : m.Finds opcode args)
    (hperform : (opcode.effect (m.fetched opcode).registers args).perform (m.fetched opcode) =
      .error (.unmapped a) m') : m.Faults a m' := by
  have hsuits := Opcode.suits_effect (m.fetched opcode).registers args opcode
  have hsettles := Effect.settles_perform
    (opcode.effect (m.fetched opcode).registers args) (m.fetched opcode)
  have hsp : (m.fetched opcode).registers.get .sp = m.registers.get .sp :=
    m.get_fetched_of_ne _ (by decide)
  rw [hperform] at hsettles
  obtain ⟨hun, hfails⟩ := hsettles
  rw [(m.agrees_fetched opcode).isMapped] at hun
  rcases hfails.cases with ⟨hpop, hcall, rfl⟩ | ⟨r, he, rfl, rfl⟩ |
    ⟨target, he, j, hj, rfl, hagrees⟩ | ⟨he, hunwinding⟩
  · refine faults_readUpTo hrun hun (fetchEnds_of_finds hfinds a) ?_ ?_ _
    · intro opcode' args' hfinds' hop
      obtain ⟨rfl, rfl⟩ := hfinds.unique hfinds'
      obtain ⟨target, he⟩ := Effect.effect_of_finds_call hfinds hop (m.fetched opcode).registers
      exact hcall target he
    · intro args' hfinds'
      obtain ⟨rfl, rfl⟩ := hfinds.unique hfinds'
      obtain ⟨r, he⟩ := Effect.effect_of_finds_pop hfinds (m.fetched .pop).registers
      exact hpop r he
  · rw [he] at hsuits
    obtain ⟨rfl, -⟩ := hsuits
    rw [hsp] at hun ⊢
    exact faults_pop hrun hfinds hun
  · rw [he] at hsuits
    rw [m.ip_fetched, m.words_frame_fetched] at hagrees
    rw [hsp] at hun ⊢
    exact faults_call hrun hfinds hsuits hj hun hagrees
  · rw [he] at hsuits
    obtain rfl : opcode = .ret := hsuits
    exact faults_ret hrun hfinds hun hunwinding

/-- A step that fails has failed at an access to an address where no region is, and has left
behind what its instruction leaves behind there. -/
theorem faults_of_step {m m' : Machine} {a : Word} (hrun : m.isHalted = false)
    (hstep : Execution.step m = .error (.unmapped a) m') : m.Faults a m' := by
  cases stepOutcome hrun with
  | unreadable hun h =>
    rw [hstep] at h
    obtain ⟨he, rfl⟩ := EStateM.Result.error.inj h
    obtain rfl := MemoryError.unmapped.inj he
    have hno (opcode : Opcode) (args : List Argument) : ¬ m'.Finds opcode args := fun hfinds => by
      rw [isMapped_of_peek8 hfinds.1] at hun
      exact Bool.noConfusion hun
    have hfaults := faults_readUpTo hrun hun (.inl ⟨rfl, rfl⟩)
      (fun opcode args hfinds => absurd hfinds (hno opcode args)) (hno .pop) []
    rwa [Word.add_ofNat_zero, readUpTo_nil] at hfaults
  | passedOver b hb hnone h =>
    rw [hstep] at h
    cases h
  | cutShort opcode i args hb hi hargs hun h =>
    rw [hstep] at h
    obtain ⟨he, rfl⟩ := EStateM.Result.error.inj h
    obtain rfl := MemoryError.unmapped.inj he
    have hno (opcode' : Opcode) (args' : List Argument) : ¬ m.Finds opcode' args' :=
      fun hfinds => by
        obtain rfl : opcode = opcode' :=
          Opcode.byte_injective (Except.ok.inj (hb.symm.trans hfinds.1))
        have hmapped := hfinds.2.isMapped hi
        rw [partlyFetched, ip_readUpTo, ← add_ofNat_add_ofNat] at hun
        exact Bool.noConfusion (hun.symm.trans hmapped)
    refine faults_readUpTo hrun hun ?_
      (fun opcode args hfinds => absurd hfinds (hno opcode args)) (hno .pop) _
    refine .inr ⟨opcode, opcode?_of_peek8 hb, .inl ⟨i, hi, args, hargs, rfl, ?_⟩⟩
    exact m.ip_readUpTo _ _
  | executed opcode args hfinds hdecodes h =>
    rw [hstep, Execution.bind_apply] at h
    cases hperform : (opcode.effect (m.fetched opcode).registers args).perform
        (m.fetched opcode) with
    | ok u m₁ =>
      rw [hperform] at h
      cases h
    | error e m₁ =>
      rw [hperform] at h
      obtain ⟨rfl, rfl⟩ := EStateM.Result.error.inj h
      exact faults_of_perform hrun hfinds hperform

/-- A machine that is about to call and has room for three words on its stack. -/
def shortStack : Machine :=
  let code := (AddressSpace.empty.map (.newRom [0x3A, 0x12, 0x34]) 0 3 false).2
  { registers := RegisterFile.zero.set .sp 0x104
    memory := (code.map (.newRam 6) 0x100 6 true).2
    frameSize := 8
    isHalted := false }

/-- The call pushes `r1`, `r2` and `r3` and goes no further. -/
theorem faults_on_short_stack :
    ∃ m', Execution.step shortStack = .error (.unmapped 0xFE) m' ∧ shortStack.Faults 0xFE m' ∧
      m'.registers.get .sp = 0xFE ∧ m'.frameSize = 14 ∧ m'.registers.get .ip = 3 := by
  have hfinds : shortStack.Finds .calLit [.literal 0x1234] := ⟨rfl, rfl, trivial⟩
  obtain ⟨m', hstep⟩ : ∃ m', Execution.step shortStack = .error (.unmapped 0xFE) m' := ⟨_, rfl⟩
  have hfaults := faults_of_step rfl hstep
  refine ⟨m', hstep, hfaults, ?_⟩
  obtain ⟨j, hj, ha, -, hsp, hsize, hip⟩ := hfaults.call _ _ hfinds (Or.inl rfl)
  have hthree : ∀ i < 10, (0xFE : Word) = 0x104 - UInt16.ofNat (2 * i) → i = 3 := by decide
  obtain rfl := hthree j hj ha
  exact ⟨hsp, hsize, hip⟩

end Machine
end WordMachine
