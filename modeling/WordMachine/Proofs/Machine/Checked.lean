import WordMachine.Proofs.Machine.Effect
import WordMachine.Proofs.Memory.HostCalls

/-!
# The machine with all checks

The machine does nothing that could go wrong but its requests to memory, and that it takes a byte
for a register: all its arithmetic is that of words, which wraps.  So the machine with checks is
the same machine on `CheckedMemory`, with a check where a register operand is decoded.  Each of its
actions follows the action without checks, from any state of the registers, as long as the memory
is sound; and sound it stays, whatever is executed and also where an access fails.  By induction so
does a run.

Together with the calls of the host this is all that can happen to a memory that a host has set up
(`checksPass`).

* `CheckedExecution`: the actions of the machine, with their checks.
* `CheckedExecution.follows_step`, `CheckedExecution.follows_runFor`: no check fails.
* `checksPass`: neither in a history of calls nor on the machine.
-/

namespace WordMachine

/-- The register that a byte stands for, if its number is one of a register. -/
def Register.ofSlot? (b : Byte) : Option Register := do
  let i ← mod? b.toNat registerCount
  if h : i < registerCount then some ⟨i, h⟩ else none

theorem Register.ofSlot?_eq (b : Byte) : ofSlot? b = some (ofSlot b) := by
  rw [ofSlot?, mod?_eq (by decide)]
  exact dif_pos (Nat.mod_lt _ (by decide))

/-- An action of the machine, with its checks. -/
abbrev CheckedExecution := EStateM Fault Machine

namespace CheckedExecution

/-! ## The actions

Each is written as the action of the same name in `Execution`, with the requests of
`CheckedMemory`.  An instruction is the fetch of its operands and its effect, in which form
`Execution.dispatch_eq` gives it: the checks are in the fetches and in the requests, and behind
an opcode byte there is nothing else. -/

/-- An action in which there is nothing to check, since it makes no request. -/
def plain {α : Type} (x : Execution α) : CheckedExecution α := fun m =>
  match x m with
  | .ok a m => .ok a m
  | .error e m => .error (.memory e) m

/-- Does something to the memory of the machine. -/
def onMemory {α : Type} (action : CheckedMemory α) : CheckedExecution α := fun m =>
  match action m.memory with
  | .ok a memory => .ok a { m with memory }
  | .error e memory => .error e { m with memory }

/-- The register that a byte of code stands for. -/
def registerOf (b : Byte) : CheckedExecution Register := fun m =>
  match Register.ofSlot? b with
  | some r => .ok r m
  | none => .error .check m

def fetch8 : CheckedExecution Byte := do
  let a ← plain (.getRegister .ip)
  let b ← onMemory (.read8 a)
  plain (.setRegister .ip (a + 1))
  pure b

def fetch16 : CheckedExecution Word := do
  let a ← plain (.getRegister .ip)
  let w ← onMemory (.read16 a)
  plain (.setRegister .ip (a + 2))
  pure w

def push (w : Word) : CheckedExecution Unit := do
  let a ← plain (.getRegister .sp)
  onMemory (.write16 a w)
  plain (.setRegister .sp (a - 2))
  plain (.setFrameSize ((← plain .getFrameSize) + 2))

def pop : CheckedExecution Word := do
  let a ← plain (.getRegister .sp)
  plain (.setRegister .sp (a + 2))
  plain (.setFrameSize ((← plain .getFrameSize) - 2))
  onMemory (.read16 (a + 2))

def pushRegisters : List Register → CheckedExecution Unit
  | [] => pure ()
  | r :: rest => do
    push (← plain (.getRegister r))
    pushRegisters rest

def popRegisters : List Register → CheckedExecution Unit
  | [] => pure ()
  | r :: rest => do
    plain (.setRegister r (← pop))
    popRegisters rest

def discard : Nat → CheckedExecution Unit
  | 0 => pure ()
  | n + 1 => do
    let _ ← pop
    discard n

def call (target : Word) : CheckedExecution Unit := do
  pushRegisters Register.general
  push (← plain (.getRegister .ip))
  push ((← plain .getFrameSize) + 2)
  plain (.setRegister .fp (← plain (.getRegister .sp)))
  plain (.setFrameSize 0)
  plain (.setRegister .ip target)

def ret : CheckedExecution Unit := do
  let base ← plain (.getRegister .fp)
  plain (.setRegister .sp base)
  let size ← pop
  plain (.setFrameSize size)
  plain (.setRegister .ip (← pop))
  popRegisters Register.general.reverse
  let count ← pop
  discard count.toNat
  plain (.setRegister .fp (base + size))

def fetchArgument : Kind → CheckedExecution Argument
  | .literal | .address => do
    let w ← fetch16
    pure (.literal w)
  | .literal8 => do
    let b ← fetch8
    pure (.literal (Word.ofByte b))
  | .register | .pointer => do
    let b ← fetch8
    let r ← registerOf b
    pure (.register r (← plain (.getRegister r)))

def fetchArguments : List Kind → CheckedExecution (List Argument)
  | [] => pure []
  | kind :: kinds => do
    let a ← fetchArgument kind
    let rest ← fetchArguments kinds
    pure (a :: rest)

def perform : Effect → CheckedExecution Unit
  | .nothing => pure ()
  | .halt => plain .halt
  | .jump target => plain (.setRegister .ip target)
  | .assign r w => plain (.setRegister r w)
  | .load8 r a => do
    let b ← onMemory (.read8 a)
    plain (.setRegister r (Word.ofByte b))
  | .load16 r a => do
    let w ← onMemory (.read16 a)
    plain (.setRegister r w)
  | .store8 a b => onMemory (.write8 a b)
  | .store16 a w => onMemory (.write16 a w)
  | .push w => push w
  | .pop r => do
    let w ← pop
    plain (.setRegister r w)
  | .call target => call target
  | .ret => ret

def execute (b : Byte) : CheckedExecution Bool :=
  match Opcode.ofByte? b with
  | none => pure false
  | some opcode => do
    let args ← fetchArguments opcode.format.operands
    let effect ← plain (.effectOf opcode args)
    perform effect
    pure (opcode == .hlt)

def step : CheckedExecution Bool := do
  if ← plain .isHalted then
    pure true
  else
    let b ← fetch8
    execute b

def runFor : Nat → CheckedExecution RunState
  | 0 => pure .running
  | n + 1 => do
    if ← step then
      pure .halted
    else
      runFor n

/-! ## Each follows the one without checks -/

section Follows

variable {count : Nat} {α : Type}

/-- On any machine with sound memory, an action does what it does with its checks. -/
abbrev FollowsAt (count : Nat) (x : Execution α) (y : CheckedExecution α) : Prop :=
  Follows (fun m : Machine => m.memory.Sound count) (fun e m => e.Holds m.memory) x y

/-- An action that cannot fail and leaves memory alone. -/
theorem follows_plain {x : Execution α} {answer : Machine → α} {next : Machine → Machine}
    (hx : ∀ m, x m = .ok (answer m) (next m)) (hmemory : ∀ m, (next m).memory = m.memory) :
    FollowsAt count x (plain x) := by
  intro m hm
  rw [plain, hx]
  exact .ok _ _ ((hmemory m).symm ▸ hm)

theorem follows_getRegister (r : Register) :
    FollowsAt count (.getRegister r) (plain (.getRegister r)) :=
  follows_plain (fun _ => rfl) fun _ => rfl

theorem follows_setRegister (r : Register) (w : Word) :
    FollowsAt count (.setRegister r w) (plain (.setRegister r w)) :=
  follows_plain (fun _ => rfl) fun _ => rfl

theorem follows_getFrameSize : FollowsAt count .getFrameSize (plain .getFrameSize) :=
  follows_plain (fun _ => rfl) fun _ => rfl

theorem follows_setFrameSize (w : Word) :
    FollowsAt count (.setFrameSize w) (plain (.setFrameSize w)) :=
  follows_plain (fun _ => rfl) fun _ => rfl

theorem follows_halt : FollowsAt count .halt (plain .halt) :=
  follows_plain (fun _ => rfl) fun _ => rfl

theorem follows_isHalted : FollowsAt count .isHalted (plain .isHalted) :=
  follows_plain (fun _ => rfl) fun _ => rfl

theorem follows_effectOf (opcode : Opcode) (args : List Argument) :
    FollowsAt count (.effectOf opcode args) (plain (.effectOf opcode args)) :=
  follows_plain (fun _ => rfl) fun _ => rfl

theorem follows_registerOf (b : Byte) :
    FollowsAt count (pure (Register.ofSlot b)) (registerOf b) := by
  intro m hm
  rw [registerOf, Register.ofSlot?_eq]
  exact .ok _ m hm

theorem follows_onMemory {x : MemoryAction α} {y : CheckedMemory α}
    (h : CheckedMemory.FollowsAt count x y) :
    FollowsAt count (.onMemory x) (onMemory y) := by
  intro m hm
  rw [Execution.onMemory_apply, onMemory]
  rcases (h m.memory hm).cases with ⟨a, s, hx, hy, hs⟩ | ⟨e, s, hx, hy, hs, he⟩
  · rw [hx, hy]
    exact .ok a _ hs
  · rw [hx, hy]
    exact .error e _ hs he

theorem follows_fetch8 : FollowsAt count .fetch8 fetch8 :=
  (follows_getRegister .ip).bind fun a =>
    (follows_onMemory (CheckedMemory.follows_read8 a)).bind fun b =>
      (follows_setRegister .ip (a + 1)).bind fun _ => follows_pure b

theorem follows_fetch16 : FollowsAt count .fetch16 fetch16 :=
  (follows_getRegister .ip).bind fun a =>
    (follows_onMemory (CheckedMemory.follows_read16 a)).bind fun w =>
      (follows_setRegister .ip (a + 2)).bind fun _ => follows_pure w

theorem follows_push (w : Word) : FollowsAt count (.push w) (push w) :=
  (follows_getRegister .sp).bind fun a =>
    (follows_onMemory (CheckedMemory.follows_write16 a w)).bind fun _ =>
      (follows_setRegister .sp (a - 2)).bind fun _ =>
        follows_getFrameSize.bind fun size => follows_setFrameSize (size + 2)

theorem follows_pop : FollowsAt count .pop pop :=
  (follows_getRegister .sp).bind fun a =>
    (follows_setRegister .sp (a + 2)).bind fun _ =>
      follows_getFrameSize.bind fun size => (follows_setFrameSize (size - 2)).bind fun _ =>
        follows_onMemory (CheckedMemory.follows_read16 (a + 2))

theorem follows_pushRegisters (rs : List Register) :
    FollowsAt count (.pushRegisters rs) (pushRegisters rs) := by
  induction rs with
  | nil => exact follows_pure ()
  | cons r rs ih =>
    exact (follows_getRegister r).bind fun w => (follows_push w).bind fun _ => ih

theorem follows_popRegisters (rs : List Register) :
    FollowsAt count (.popRegisters rs) (popRegisters rs) := by
  induction rs with
  | nil => exact follows_pure ()
  | cons r rs ih => exact follows_pop.bind fun w => (follows_setRegister r w).bind fun _ => ih

theorem follows_discard (n : Nat) : FollowsAt count (.discard n) (discard n) := by
  induction n with
  | zero => exact follows_pure ()
  | succ n ih => exact follows_pop.bind fun _ => ih

theorem follows_call (target : Word) : FollowsAt count (.call target) (call target) := by
  refine (follows_pushRegisters _).bind fun _ => ?_
  refine (follows_getRegister .ip).bind fun w => (follows_push w).bind fun _ => ?_
  refine follows_getFrameSize.bind fun size => (follows_push (size + 2)).bind fun _ => ?_
  refine (follows_getRegister .sp).bind fun a => (follows_setRegister .fp a).bind fun _ => ?_
  exact (follows_setFrameSize 0).bind fun _ => follows_setRegister .ip target

theorem follows_ret : FollowsAt count .ret ret := by
  refine (follows_getRegister .fp).bind fun base => ?_
  refine (follows_setRegister .sp base).bind fun _ => ?_
  refine follows_pop.bind fun size => (follows_setFrameSize size).bind fun _ => ?_
  refine follows_pop.bind fun target => (follows_setRegister .ip target).bind fun _ => ?_
  refine (follows_popRegisters _).bind fun _ => ?_
  refine follows_pop.bind fun n => (follows_discard n.toNat).bind fun _ => ?_
  exact follows_setRegister .fp (base + size)

theorem follows_fetchArgument (kind : Kind) :
    FollowsAt count (.fetchArgument kind) (fetchArgument kind) := by
  cases kind with
  | literal | address => exact follows_fetch16.bind fun w => follows_pure _
  | literal8 => exact follows_fetch8.bind fun b => follows_pure _
  | register | pointer =>
    exact follows_fetch8.bind fun b => (follows_registerOf b).bind fun r =>
      (follows_getRegister r).bind fun w => follows_pure _

theorem follows_fetchArguments (kinds : List Kind) :
    FollowsAt count (.fetchArguments kinds) (fetchArguments kinds) := by
  induction kinds with
  | nil => exact follows_pure []
  | cons kind kinds ih =>
    exact (follows_fetchArgument kind).bind fun a => ih.bind fun rest => follows_pure (a :: rest)

theorem follows_perform (e : Effect) : FollowsAt count e.perform (perform e) := by
  cases e with
  | nothing => exact follows_pure ()
  | halt => exact follows_halt
  | jump target => exact follows_setRegister .ip target
  | assign r w => exact follows_setRegister r w
  | load8 r a =>
    exact (follows_onMemory (CheckedMemory.follows_read8 a)).bind fun b =>
      follows_setRegister r (Word.ofByte b)
  | load16 r a =>
    exact (follows_onMemory (CheckedMemory.follows_read16 a)).bind fun w =>
      follows_setRegister r w
  | store8 a b => exact follows_onMemory (CheckedMemory.follows_write8 a b)
  | store16 a w => exact follows_onMemory (CheckedMemory.follows_write16 a w)
  | push w => exact follows_push w
  | pop r => exact follows_pop.bind fun w => follows_setRegister r w
  | call target => exact follows_call target
  | ret => exact follows_ret

theorem follows_execute (b : Byte) : FollowsAt count (.execute b) (execute b) := by
  rw [execute]
  cases hop : Opcode.ofByte? b with
  | none =>
    rw [Execution.execute_of_none hop]
    exact follows_pure false
  | some opcode =>
    rw [Execution.execute_of_some hop]
    refine (follows_fetchArguments opcode.format.operands).bind fun args => ?_
    refine (follows_effectOf opcode args).bind fun effect => ?_
    exact (follows_perform effect).bind fun _ => follows_pure _

/-- A step passes all checks, whatever the registers hold and whatever instruction it finds. -/
theorem follows_step : FollowsAt count .step step := by
  refine follows_isHalted.bind fun halted => ?_
  cases halted with
  | true => exact follows_pure true
  | false => exact follows_fetch8.bind fun b => follows_execute b

theorem follows_runFor (n : Nat) : FollowsAt count (.runFor n) (runFor n) := by
  induction n with
  | zero => exact follows_pure RunState.running
  | succ n ih =>
    refine follows_step.bind fun halted => ?_
    cases halted with
    | true => exact follows_pure RunState.halted
    | false => exact ih

end Follows

end CheckedExecution

/-! ## Histories and machines -/

open AddressSpace

/-- What there is to say about the memory that calls of a host leave behind, about the calls and
about machines on that memory. -/
structure ChecksPass (calls : List HostCall) : Prop where
  /-- Later mappings stand in front, and the next handle is larger than all. -/
  ordered : (afterCalls calls).Ordered
  within : ∀ r ∈ (afterCalls calls).regions, r.start.toNat ≤ r.stop ∧ r.stop ≤ addressCount
  hasCells : ∀ r ∈ (afterCalls calls).regions, r.device.HasCells
  offset : ∀ r ∈ (afterCalls calls).regions, ∀ a, r.contains a = true →
    r.start.toNat ≤ a.toNat ∧ a.toNat - r.start.toNat < addressCount
  /-- A device that is given back may be mapped again. -/
  givenBack : ∀ handle d, ((afterCalls calls).unmap handle).1 = some d → d.Built
  /-- No check has failed on the way. -/
  history : ∀ older c newer, calls = older ++ c :: newer →
    Passes (Sound (c.countAfter (mappings older))) (fun e m => e.Holds m)
      (c.act (afterCalls older)) (c.checked (afterCalls older))
  /-- An access has an answer, or nothing is mapped at its address. -/
  request : ∀ c : HostCall, c.isMap = false →
    Passes (Sound (mappings calls)) (fun e m => e.Holds m) (c.act (afterCalls calls))
      (c.checked (afterCalls calls))
  step : ∀ m : Machine, m.memory = afterCalls calls →
    Passes (fun m => m.memory.Sound (mappings calls)) (fun e m => e.Holds m.memory)
      (Execution.step m) (CheckedExecution.step m)
  runFor : ∀ m : Machine, m.memory = afterCalls calls → ∀ n,
    Passes (fun m => m.memory.Sound (mappings calls)) (fun e m => e.Holds m.memory)
      (Execution.runFor n m) (CheckedExecution.runFor n m)

/-- **No call and no instruction fails a check.**  On a memory that a host has set up, of built
devices and with fewer mappings than there are handles, whatever is called and whatever is executed
has the result that it has with checks.  This is a value, or the error that nothing is mapped at an
address. -/
theorem checksPass {calls : List HostCall} (hlawful : ∀ c ∈ calls, c.IsLawful)
    (hcount : mappings calls < handleCount) : ChecksPass calls := by
  have hsound := sound_afterCalls hlawful hcount
  have hmachine (m : Machine) (hm : m.memory = afterCalls calls) :
      m.memory.Sound (mappings calls) := hm ▸ hsound
  constructor
  case ordered => exact hsound.ordered
  case within =>
    exact fun r hr => ⟨(hsound.region r hr).start_le_stop, (hsound.region r hr).stop_le⟩
  case hasCells => exact fun r hr => (hsound.region r hr).built.hasCells
  case offset => exact fun r _ a ha => Region.offset_of_contains ha
  case givenBack => exact fun handle d hd => hsound.built_of_unmap hd
  case history =>
    rintro older c newer rfl
    exact passes_of_history hlawful hcount
  case request =>
    intro c hc
    have hbuilt : c.IsLawful := by
      cases c with
      | map x => exact nomatch hc
      | _ => trivial
    have hpasses := HostCall.passes hsound hbuilt fun hmap => nomatch hc.symm.trans hmap
    rwa [HostCall.countAfter, hc] at hpasses
  case step =>
    intro m hm
    exact CheckedExecution.follows_step m (hmachine m hm)
  case runFor =>
    intro m hm n
    exact CheckedExecution.follows_runFor n m (hmachine m hm)

/-- Calls at the limits: devices without bytes, banks or image, a size of nearly thirty-two bits
at the last address, an empty region, and a bank beyond all numbers of banks. -/
def callsAtLimits : List HostCall :=
  [.map ⟨.newRom [], 0xFFFF, 0xFFFFFFFF, true⟩, .map ⟨.newBank 0 0 "s", 0, 0x10000, false⟩,
    .map ⟨.newRam 0, 0x0010, 0, true⟩, .select "s" 0xFFFFFFFFFFFFFFFF, .write16 0xFFFF 0x1234,
    .unmap 1, .load 0xFFFE [1, 2], .read16 0xFFFF]

theorem checksPass_callsAtLimits :
    (∀ c ∈ callsAtLimits, c.IsLawful) ∧ mappings callsAtLimits < handleCount ∧
      ChecksPass callsAtLimits := by
  have hlawful : ∀ c ∈ callsAtLimits, c.IsLawful := by
    simp only [callsAtLimits, List.forall_mem_cons, HostCall.IsLawful, true_and]
    exact ⟨.rom [], .bank 0 0 "s", .ram 0, nofun⟩
  have hcount : mappings callsAtLimits < handleCount := by decide
  exact ⟨hlawful, hcount, checksPass hlawful hcount⟩

end WordMachine
