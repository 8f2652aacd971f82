import WordMachine.Proofs.Machine.Fetch
import WordMachine.Proofs.Machine.Reach

/-!
# Two machines in lockstep

A machine deals with its memory by four requests only: a byte or a word is read or written.  So
if two memories answer these requests alike, no program can tell them apart.  *Alike* is a
relation that the requests keep (`AddressSpace.Simulation`), and the result of this module is
that a step keeps it as well, whatever instruction is executed and also if it fails in the
middle (`AddressSpace.Simulation.step`).

Two memories may be alike only as long as words are asked for at certain addresses.  For this
the accesses of a step are written down, each with its width and its address
(`Machine.accesses`).  A return reads as many words as the stack says, and the number of its
accesses therefore depends on what stands in memory.

An invariant of a single memory is the case in which the two memories are the same one
(`AddressSpace.Kept`).

* `Execution.Lockstep`: an action has the same outcome on two machines that are alike.
* `AddressSpace.Simulation.step`, `AddressSpace.Simulation.afterSteps`: so it is for a step and
  for a run, if their words are asked for where they may be.
* `AddressSpace.Kept.afterSteps`: what every request keeps is kept by every run.
-/

namespace WordMachine

open AddressSpace

/-! ## The accesses of a step -/

namespace Machine

/-- The reads of a number of pops, the first of them from the word above the base. -/
def popReads (base : Word) (count : Nat) : List (Width × Word) :=
  (List.range count).map fun i => (.word, base + UInt16.ofNat (2 * (i + 1)))

/-- How many arguments a return finds above the ten words of its frame. -/
def argumentCount (m : Machine) : Nat :=
  match m.memory.peek16 (m.registers.get .fp + 22) with
  | .ok count => count.toNat
  | .error _ => 0

end Machine

/-- The accesses of an effect, in the order in which it makes them. -/
def Effect.accesses (m : Machine) : Effect → List (Width × Word)
  | .nothing | .halt | .jump _ | .assign _ _ => []
  | .load8 _ a | .store8 a _ => [(.byte, a)]
  | .load16 _ a | .store16 a _ => [(.word, a)]
  | .push _ => Machine.pushWrites (m.registers.get .sp) 1
  | .pop _ => Machine.popReads (m.registers.get .sp) 1
  | .call _ => Machine.pushWrites (m.registers.get .sp) 10
  | .ret => Machine.popReads (m.registers.get .fp) (11 + m.argumentCount)

namespace Machine

/-- The accesses of the instruction that a byte means, when the byte has been fetched: its
operands, and then those of its effect. -/
def executeAccesses (m : Machine) (b : Byte) : List (Width × Word) :=
  match Opcode.ofByte? b with
  | none => []
  | some opcode =>
    Kind.reads (m.registers.get .ip) opcode.format.operands ++
      match Execution.fetchArguments opcode.format.operands m with
      | .ok args fetched => (opcode.effect fetched.registers args).accesses fetched
      | .error _ _ => []

/-- The accesses of the next step.  A step that fails makes them up to the one that fails. -/
def accesses (m : Machine) : List (Width × Word) :=
  if m.isHalted then []
  else (.byte, m.registers.get .ip) ::
    match Execution.fetch8 m with
    | .ok b fetched => fetched.executeAccesses b
    | .error _ _ => []

end Machine

/-! ## Memories and machines that are alike -/

/-- Two results of one action: the same answer or the same error, and states in a relation. -/
def SameOutcome {ε σ α : Type} (R : σ → σ → Prop) :
    EStateM.Result ε σ α → EStateM.Result ε σ α → Prop
  | .ok a s, .ok b t => b = a ∧ R s t
  | .error e s, .error f t => f = e ∧ R s t
  | _, _ => False

theorem SameOutcome.cases {ε σ α : Type} {R : σ → σ → Prop} {x y : EStateM.Result ε σ α}
    (h : SameOutcome R x y) :
    (∃ a s t, x = .ok a s ∧ y = .ok a t ∧ R s t) ∨
      ∃ e s t, x = .error e s ∧ y = .error e t ∧ R s t := by
  cases x with
  | ok a s =>
    cases y with
    | ok b t =>
      obtain ⟨rfl, hR⟩ := h
      exact .inl ⟨b, s, t, rfl, rfl, hR⟩
    | error f t => exact h.elim
  | error e s =>
    cases y with
    | ok b t => exact h.elim
    | error f t =>
      obtain ⟨rfl, hR⟩ := h
      exact .inr ⟨f, s, t, rfl, rfl, hR⟩

/-- Memories in the relation answer every request alike and stay in the relation, as long as
words are asked for at certain addresses only. -/
structure AddressSpace.Simulation (whole : Word → Prop)
    (R : AddressSpace → AddressSpace → Prop) : Prop where
  read8 {s t : AddressSpace} : R s t → ∀ a,
    SameOutcome R (MemoryAction.read8 a s) (MemoryAction.read8 a t)
  read16 {s t : AddressSpace} : R s t → ∀ a, whole a →
    SameOutcome R (MemoryAction.read16 a s) (MemoryAction.read16 a t)
  write8 {s t : AddressSpace} : R s t → ∀ a v,
    SameOutcome R (MemoryAction.write8 a v s) (MemoryAction.write8 a v t)
  write16 {s t : AddressSpace} : R s t → ∀ a v, whole a →
    SameOutcome R (MemoryAction.write16 a v s) (MemoryAction.write16 a v t)

/-- The machines differ in nothing but their memories, and these are in the relation. -/
structure Machine.Twins (R : AddressSpace → AddressSpace → Prop) (m n : Machine) : Prop where
  registers : n.registers = m.registers
  memory : R m.memory n.memory
  frameSize : n.frameSize = m.frameSize
  isHalted : n.isHalted = m.isHalted

/-- A machine that has halted answers so, and stays as it is. -/
theorem Machine.step_of_halted {m : Machine} (h : m.isHalted = true) :
    Execution.step m = .ok true m := by
  rw [Execution.step, Execution.bind_apply]
  show (if m.isHalted then pure true else Execution.fetch8 >>= Execution.execute :
    Execution Bool) m = _
  rw [h, if_pos rfl]
  rfl

theorem Machine.Twins.get {R : AddressSpace → AddressSpace → Prop} {m n : Machine}
    (h : m.Twins R n) (r : Register) : n.registers.get r = m.registers.get r := by
  rw [h.registers]

namespace Execution

open Machine

/-- On twins of which the first satisfies `P`, the action has the same outcome. -/
def Lockstep (R : AddressSpace → AddressSpace → Prop) (P : Machine → Prop) {α : Type}
    (x : Execution α) : Prop :=
  ∀ m n, m.Twins R n → P m → SameOutcome (Machine.Twins R) (x m) (x n)

variable {R : AddressSpace → AddressSpace → Prop} {P : Machine → Prop} {α β : Type}

/-! ## Laws of lockstep -/

theorem Lockstep.mono {P' : Machine → Prop} {x : Execution α} (h : Lockstep R P' x)
    (hP : ∀ m, P m → P' m) : Lockstep R P x :=
  fun m n htwins hm => h m n htwins (hP m hm)

/-- One action after another.  What the first leaves behind is what the second may rely on. -/
theorem Lockstep.bind {x : Execution α} {f : α → Execution β} {Q : α → Machine → Prop}
    (hx : Lockstep R P x) (hpost : ∀ m a m', P m → x m = .ok a m' → Q a m')
    (hf : ∀ a, Lockstep R (Q a) (f a)) : Lockstep R P (x >>= f) := by
  intro m n htwins hm
  rw [bind_apply, bind_apply]
  rcases (hx m n htwins hm).cases with
    ⟨a, m', n', hxm, hxn, htwins'⟩ | ⟨e, m', n', hxm, hxn, htwins'⟩
  · rw [hxm, hxn]
    exact hf a m' n' htwins' (hpost m a m' hm hxm)
  · rw [hxm, hxn]
    exact ⟨rfl, htwins'⟩

/-- One action after another, where the second relies on nothing. -/
theorem Lockstep.bind_any {x : Execution α} {f : α → Execution β} (hx : Lockstep R P x)
    (hf : ∀ a, Lockstep R (fun _ => True) (f a)) : Lockstep R P (x >>= f) :=
  hx.bind (fun _ _ _ _ _ => trivial) hf

/-- What does not depend on the machine may be assumed. -/
theorem lockstep_of_imp {p : Prop} {x : Execution α} (h : p → Lockstep R (fun _ => True) x) :
    Lockstep R (fun _ => p) x :=
  fun m n htwins hp => h hp m n htwins trivial

/-- An action that cannot fail and looks at no memory. -/
theorem lockstep_of_eq {x : Execution α} {answer : Machine → α} {next : Machine → Machine}
    (heq : ∀ m, x m = .ok (answer m) (next m))
    (hsame : ∀ m n, m.Twins R n → answer n = answer m ∧ (next m).Twins R (next n)) :
    Lockstep R P x := by
  intro m n htwins _
  rw [heq, heq]
  exact hsame m n htwins

theorem lockstep_pure (a : α) : Lockstep R P (pure a) :=
  lockstep_of_eq (fun _ => rfl) fun _ _ h => ⟨rfl, h⟩

theorem lockstep_getRegister (r : Register) : Lockstep R P (getRegister r) :=
  lockstep_of_eq (fun _ => rfl) fun _ _ h => ⟨h.get r, h⟩

theorem lockstep_setRegister (r : Register) (w : Word) : Lockstep R P (setRegister r w) :=
  lockstep_of_eq (fun _ => rfl) fun _ _ h =>
    ⟨rfl, congrArg (·.set r w) h.registers, h.memory, h.frameSize, h.isHalted⟩

theorem lockstep_getFrameSize : Lockstep R P getFrameSize :=
  lockstep_of_eq (fun _ => rfl) fun _ _ h => ⟨h.frameSize, h⟩

theorem lockstep_setFrameSize (w : Word) : Lockstep R P (setFrameSize w) :=
  lockstep_of_eq (fun _ => rfl) fun _ _ h => ⟨rfl, h.registers, h.memory, rfl, h.isHalted⟩

theorem lockstep_halt : Lockstep R P halt :=
  lockstep_of_eq (fun _ => rfl) fun _ _ h => ⟨rfl, h.registers, h.memory, h.frameSize, rfl⟩

theorem lockstep_effectOf (opcode : Opcode) (args : List Argument) :
    Lockstep R P (effectOf opcode args) :=
  lockstep_of_eq (fun _ => rfl) fun _ _ h => ⟨by rw [h.registers], h⟩

/-- A request that has the same outcome on related memories. -/
theorem lockstep_onMemory {action : MemoryAction α}
    (h : ∀ m t, R m.memory t → P m → SameOutcome R (action m.memory) (action t)) :
    Lockstep R P (onMemory action) := by
  intro m n htwins hm
  rw [onMemory_apply, onMemory_apply]
  rcases (h m n.memory htwins.memory hm).cases with ⟨a, s, t, hs, ht, hR⟩ | ⟨e, s, t, hs, ht, hR⟩
  all_goals
    rw [hs, ht]
    exact ⟨rfl, htwins.registers, hR, htwins.frameSize, htwins.isHalted⟩

end Execution

namespace Machine

open Execution

/-- `sp` stands a number of words above a base, and memory has only been read. -/
structure Raised (s : AddressSpace) (base : Word) (k : Nat) (m : Machine) : Prop where
  sp : m.registers.get .sp = base + UInt16.ofNat (2 * k)
  memory : s.Agrees m.memory

variable {s : AddressSpace} {base : Word} {k : Nat} {m m' : Machine}

theorem Raised.sp_add_two (h : Raised s base k m) :
    m.registers.get .sp + 2 = base + UInt16.ofNat (2 * (k + 1)) := by
  rw [h.sp, Word.ofNat_two_mul_succ, UInt16.add_assoc]

/-- A pop answers the next word above the base. -/
theorem Raised.pop {w : Word} (h : Raised s base k m) (hpop : pop m = .ok w m') :
    Raised s base (k + 1) m' ∧ s.peek16 (base + UInt16.ofNat (2 * (k + 1))) = .ok w := by
  rw [pop_apply] at hpop
  dsimp only at hpop
  rcases MemoryAction.read16_cases m.memory (m.registers.get .sp + 2) with
    ⟨v, hpeek, hread⟩ | ⟨-, hread⟩
  · rw [hread] at hpop
    obtain ⟨rfl, rfl⟩ := EStateM.Result.ok.inj hpop
    rw [h.sp_add_two, h.memory.peek16] at hpeek
    refine ⟨⟨?_, h.memory.trans (agrees_observe _ _ _)⟩, hpeek⟩
    rw [← h.sp_add_two]
    exact RegisterFile.get_set_self _ _ _
  · rw [hread] at hpop
    exact nomatch hpop

theorem Raised.setRegister {r : Register} {w : Word} {u : Unit} (h : Raised s base k m)
    (hr : Register.sp ≠ r) (hset : setRegister r w m = .ok u m') : Raised s base k m' := by
  obtain ⟨-, rfl⟩ := EStateM.Result.ok.inj hset
  exact ⟨(RegisterFile.get_set_of_ne _ hr _).trans h.sp, h.memory⟩

theorem Raised.setFrameSize {w : Word} {u : Unit} (h : Raised s base k m)
    (hset : setFrameSize w m = .ok u m') : Raised s base k m' := by
  obtain ⟨-, rfl⟩ := EStateM.Result.ok.inj hset
  exact ⟨h.sp, h.memory⟩

theorem Raised.popRegisters {rs : List Register} (hrs : Register.sp ∉ rs) (h : Raised s base k m)
    (hpop : popRegisters rs m = .ok () m') : Raised s base (k + rs.length) m' := by
  induction rs generalizing k m with
  | nil =>
    obtain ⟨-, rfl⟩ := EStateM.Result.ok.inj hpop
    exact h
  | cons r rs ih =>
    rw [List.mem_cons, not_or] at hrs
    change (Execution.pop >>= fun w => Execution.setRegister r w >>= fun _ =>
      Execution.popRegisters rs) m = _ at hpop
    rw [bind_apply] at hpop
    cases hfirst : Execution.pop m with
    | ok w m₁ =>
      rw [hfirst] at hpop
      have hraised := (h.pop hfirst).1.setRegister hrs.1 (setRegister_apply r w m₁)
      rw [List.length_cons, Nat.add_comm rs.length 1, ← Nat.add_assoc]
      exact ih hrs.2 hraised hpop
    | error e m₁ =>
      rw [hfirst] at hpop
      exact nomatch hpop

end Machine

namespace AddressSpace.Simulation

open Execution Machine

variable {whole : Word → Prop} {R : AddressSpace → AddressSpace → Prop} (h : Simulation whole R)
include h

/-! ## Fetches -/

theorem lockstep_fetch8 {P : Machine → Prop} : Lockstep R P fetch8 := by
  refine (lockstep_getRegister .ip).bind_any fun a => ?_
  refine (lockstep_onMemory fun m t hR _ => h.read8 hR a).bind_any fun b => ?_
  exact (lockstep_setRegister .ip _).bind_any fun _ => lockstep_pure b

theorem lockstep_fetch16 : Lockstep R (fun m => whole (m.registers.get .ip)) fetch16 := by
  refine (lockstep_getRegister .ip).bind (Q := fun a _ => whole a) ?_ fun a =>
    lockstep_of_imp fun hwhole => ?_
  · intro m a m' hm hget
    obtain ⟨rfl, rfl⟩ := EStateM.Result.ok.inj hget
    exact hm
  · refine (lockstep_onMemory fun m t hR _ => h.read16 hR a hwhole).bind_any fun w => ?_
    exact (lockstep_setRegister .ip _).bind_any fun _ => lockstep_pure w

theorem lockstep_fetchArgument (kind : Kind) :
    Lockstep R (fun m => kind.unit = .word → whole (m.registers.get .ip)) (fetchArgument kind) := by
  cases kind with
  | literal | address =>
    exact (h.lockstep_fetch16.mono fun m hm => hm rfl).bind_any fun w => lockstep_pure _
  | literal8 => exact h.lockstep_fetch8.bind_any fun b => lockstep_pure _
  | register | pointer =>
    exact h.lockstep_fetch8.bind_any fun b => (lockstep_getRegister _).bind_any fun w =>
      lockstep_pure _

/-- The words among the operands are asked for where they stand. -/
theorem lockstep_fetchArguments (kinds : List Kind) :
    Lockstep R (fun m => ∀ a, (Width.word, a) ∈ Kind.reads (m.registers.get .ip) kinds → whole a)
      (fetchArguments kinds) := by
  induction kinds with
  | nil => exact lockstep_pure []
  | cons kind kinds ih =>
    refine Lockstep.bind (fun m n htwins hm => ?_) ?_ fun x => ih.bind_any fun rest =>
      lockstep_pure (x :: rest)
    · refine h.lockstep_fetchArgument kind m n htwins fun hunit => hm _ ?_
      rw [Kind.reads, hunit]
      exact List.mem_cons_self
    · intro m x m' hm hfetch a ha
      rcases fetchArgument_cases m kind with ⟨y, -, hok⟩ | ⟨-, herror⟩
      · rw [hfetch] at hok
        obtain ⟨-, rfl⟩ := EStateM.Result.ok.inj hok
        rw [ip_readUpTo] at ha
        exact hm a (List.mem_cons_of_mem _ ha)
      · rw [hfetch] at herror
        cases herror

/-! ## Pushes and the call -/

theorem lockstep_push (w : Word) : Lockstep R (fun m => whole (m.registers.get .sp)) (push w) := by
  refine (lockstep_getRegister .sp).bind (Q := fun a _ => whole a) ?_ fun a =>
    lockstep_of_imp fun hwhole => ?_
  · intro m a m' hm hget
    obtain ⟨rfl, rfl⟩ := EStateM.Result.ok.inj hget
    exact hm
  · refine (lockstep_onMemory fun m t hR _ => h.write16 hR a w hwhole).bind_any fun _ => ?_
    exact (lockstep_setRegister .sp _).bind_any fun _ => lockstep_getFrameSize.bind_any fun n =>
      lockstep_setFrameSize (n + 2)

/-- Several words are pushed to the addresses below each other. -/
theorem lockstep_pushAll (ws : List Word) :
    Lockstep R
      (fun m => ∀ a, (Width.word, a) ∈ pushWrites (m.registers.get .sp) ws.length → whole a)
      (pushAll ws) := by
  induction ws with
  | nil => exact lockstep_pure ()
  | cons w ws ih =>
    refine Lockstep.bind (fun m n htwins hm => ?_) ?_ fun _ => ih
    · refine h.lockstep_push w m n htwins (hm _ ?_)
      rw [List.length_cons, pushWrites_succ]
      exact List.mem_cons_self
    · intro m _ m' hm hpush a ha
      rcases push_cases m w with ⟨n, hok, hagrees⟩ | ⟨-, herror⟩
      · rw [hpush] at hok
        obtain ⟨-, rfl⟩ := EStateM.Result.ok.inj hok
        rw [hagrees.registers, sp_pushed] at ha
        refine hm a ?_
        rw [List.length_cons, pushWrites_succ]
        exact List.mem_cons_of_mem _ ha
      · rw [hpush] at herror
        exact nomatch herror

theorem lockstep_call (target : Word) :
    Lockstep R (fun m => ∀ a, (Width.word, a) ∈ pushWrites (m.registers.get .sp) 10 → whole a)
      (call target) := by
  intro m n htwins hm
  -- both machines push the words of the same frame
  have hframe : n.frame (n.registers.get .ip) = m.frame (m.registers.get .ip) := by
    rw [frame, frame, htwins.registers, htwins.frameSize]
  rw [call_eq, call_eq, hframe]
  rcases (h.lockstep_pushAll (m.frame (m.registers.get .ip)).words.reverse m n htwins hm).cases with
    ⟨u, m', n', hpm, hpn, htwins'⟩ | ⟨e, m', n', hpm, hpn, htwins'⟩
  · rw [hpm, hpn]
    exact ⟨rfl, by rw [entered, entered, htwins'.registers], htwins'.memory, rfl,
      htwins'.isHalted⟩
  · rw [hpm, hpn]
    exact ⟨rfl, htwins'⟩

/-! ## Pops and the return -/

theorem lockstep_pop : Lockstep R (fun m => whole (m.registers.get .sp + 2)) pop := by
  refine (lockstep_getRegister .sp).bind (Q := fun a _ => whole (a + 2)) ?_ fun a =>
    lockstep_of_imp fun hwhole => ?_
  · intro m a m' hm hget
    obtain ⟨rfl, rfl⟩ := EStateM.Result.ok.inj hget
    exact hm
  · refine (lockstep_setRegister .sp _).bind_any fun _ => lockstep_getFrameSize.bind_any fun n => ?_
    exact (lockstep_setFrameSize _).bind_any fun _ =>
      lockstep_onMemory fun m t hR _ => h.read16 hR _ hwhole

section Raised

variable {s : AddressSpace} {base : Word} {k : Nat}

theorem lockstep_pop_raised (hwhole : whole (base + UInt16.ofNat (2 * (k + 1)))) :
    Lockstep R (Raised s base k) pop := by
  refine h.lockstep_pop.mono fun m hm => ?_
  rw [hm.sp_add_two]
  exact hwhole

theorem lockstep_popRegisters {rs : List Register} (hrs : Register.sp ∉ rs)
    (hwhole : ∀ i < rs.length, whole (base + UInt16.ofNat (2 * (k + i + 1)))) :
    Lockstep R (Raised s base k) (popRegisters rs) := by
  induction rs generalizing k with
  | nil => exact lockstep_pure ()
  | cons r rs ih =>
    rw [List.mem_cons, not_or] at hrs
    refine (h.lockstep_pop_raised (hwhole 0 (Nat.zero_lt_succ _))).bind
      (fun m w m' hm hpop => (hm.pop hpop).1) fun w => ?_
    refine (lockstep_setRegister r w).bind
      (fun m _ m' hm hset => hm.setRegister hrs.1 hset) fun _ => ih hrs.2 fun i hi => ?_
    have hnext := hwhole (i + 1) (Nat.succ_lt_succ hi)
    rwa [← Nat.add_assoc, Nat.add_right_comm k i 1] at hnext

theorem lockstep_discard {n : Nat}
    (hwhole : ∀ i < n, whole (base + UInt16.ofNat (2 * (k + i + 1)))) :
    Lockstep R (Raised s base k) (discard n) := by
  induction n generalizing k with
  | zero => exact lockstep_pure ()
  | succ n ih =>
    refine (h.lockstep_pop_raised (hwhole 0 (Nat.zero_lt_succ _))).bind
      (fun m w m' hm hpop => (hm.pop hpop).1) fun _ => ih fun i hi => ?_
    have hnext := hwhole (i + 1) (Nat.succ_lt_succ hi)
    rwa [← Nat.add_assoc, Nat.add_right_comm k i 1] at hnext

/-- The frame at a base is unwound in lockstep, if its words and as many arguments as it says
are asked for where they may be. -/
theorem lockstep_unwind {n : Nat} (hcount : ∀ w, s.peek16 (base + 22) = .ok w → w.toNat = n)
    (hwhole : ∀ i < 11 + n, whole (base + UInt16.ofNat (2 * (i + 1)))) :
    Lockstep R (fun m => s.Agrees m.memory) (unwind base) := by
  refine (lockstep_setRegister .sp base).bind (Q := fun _ => Raised s base 0) ?_ fun _ => ?_
  · intro m _ m' hm hset
    obtain ⟨-, rfl⟩ := EStateM.Result.ok.inj hset
    exact ⟨(RegisterFile.get_set_self _ _ _).trans (UInt16.add_zero base).symm, hm⟩
  refine (h.lockstep_pop_raised (hwhole 0 (by omega))).bind
    (fun m w m' hm hpop => (hm.pop hpop).1) fun size => ?_
  refine (lockstep_setFrameSize size).bind (fun m _ m' hm hset => hm.setFrameSize hset) fun _ => ?_
  refine (h.lockstep_pop_raised (hwhole 1 (by omega))).bind
    (fun m w m' hm hpop => (hm.pop hpop).1) fun q => ?_
  refine (lockstep_setRegister .ip q).bind
    (fun m _ m' hm hset => hm.setRegister (by decide) hset) fun _ => ?_
  refine (h.lockstep_popRegisters (by decide) fun i hi => hwhole (2 + i) ?_).bind
    (fun m _ m' hm hpop => hm.popRegisters (by decide) hpop) fun _ => ?_
  · have hlength : Register.general.reverse.length = 8 := rfl
    omega
  refine (h.lockstep_pop_raised (hwhole 10 (by omega))).bind
    (Q := fun w m => Raised s base 11 m ∧ w.toNat = n)
    (fun m w m' hm hpop => ⟨(hm.pop hpop).1, hcount w (hm.pop hpop).2⟩) fun count => ?_
  rintro m m' htwins ⟨hraised, hn⟩
  have hdiscard : Lockstep R (Raised s base 11) (discard count.toNat) :=
    h.lockstep_discard fun i hi => hwhole (11 + i) (by omega)
  exact hdiscard.bind_any (fun _ => lockstep_pure size) m m' htwins hraised

end Raised

theorem lockstep_ret :
    Lockstep R (fun m => ∀ a, (Width.word, a) ∈
      popReads (m.registers.get .fp) (11 + m.argumentCount) → whole a) ret := by
  intro m n htwins hm
  rw [ret_eq, ret_eq, htwins.get]
  have hunwind : Lockstep R (fun m' => m.memory.Agrees m'.memory)
      (unwind (m.registers.get .fp)) := by
    refine h.lockstep_unwind (n := m.argumentCount) (fun w hw => ?_) fun i hi => hm _ ?_
    · rw [argumentCount, hw]
    · exact List.mem_map.mpr ⟨i, List.mem_range.mpr hi, rfl⟩
  exact hunwind.bind_any (fun _ => lockstep_setRegister .fp _) m n htwins (.refl _)

/-! ## Effects and steps -/

/-- Every effect is carried out in lockstep, if its words are asked for where they may be. -/
theorem lockstep_perform (e : Effect) :
    Lockstep R (fun m => ∀ a, (Width.word, a) ∈ e.accesses m → whole a) e.perform := by
  cases e with
  | nothing => exact lockstep_pure ()
  | halt => exact lockstep_halt
  | jump target => exact lockstep_setRegister .ip target
  | assign r w => exact lockstep_setRegister r w
  | load8 r a =>
    exact (lockstep_onMemory fun m t hR _ => h.read8 hR a).bind_any fun b =>
      lockstep_setRegister r _
  | load16 r a =>
    exact (lockstep_onMemory fun m t hR hm => h.read16 hR a (hm a List.mem_cons_self)).bind_any
      fun w => lockstep_setRegister r w
  | store8 a b => exact lockstep_onMemory fun m t hR _ => h.write8 hR a b
  | store16 a w =>
    exact lockstep_onMemory fun m t hR hm => h.write16 hR a w (hm a List.mem_cons_self)
  | push w =>
    refine (h.lockstep_push w).mono fun m hm => hm _ ?_
    rw [Effect.accesses, pushWrites_succ]
    exact List.mem_cons_self
  | pop r =>
    refine (h.lockstep_pop.mono fun m hm => hm _ ?_).bind_any fun w => lockstep_setRegister r w
    exact List.mem_cons_self
  | call target => exact h.lockstep_call target
  | ret => exact h.lockstep_ret

theorem lockstep_execute (b : Byte) :
    Lockstep R (fun m => ∀ a, (Width.word, a) ∈ m.executeAccesses b → whole a) (execute b) := by
  cases hop : Opcode.ofByte? b with
  | none =>
    rw [execute_of_none hop]
    exact lockstep_pure false
  | some opcode =>
    rw [execute_of_some hop]
    refine Lockstep.bind (Q := fun args m => ∀ a, (Width.word, a) ∈
        (opcode.effect m.registers args).accesses m → whole a)
      ((h.lockstep_fetchArguments _).mono ?_) ?_ fun args => ?_
    · intro m hm a ha
      refine hm a ?_
      rw [executeAccesses, hop]
      exact List.mem_append_left _ ha
    · intro m args m' hm hfetch a ha
      refine hm a ?_
      rw [executeAccesses, hop]
      dsimp only
      rw [hfetch]
      exact List.mem_append_right _ ha
    · refine (lockstep_effectOf opcode args).bind
        (Q := fun e m => ∀ a, (Width.word, a) ∈ e.accesses m → whole a) ?_ fun e =>
          (h.lockstep_perform e).bind_any fun _ => lockstep_pure _
      intro m e m' hm heffect
      obtain ⟨rfl, rfl⟩ := EStateM.Result.ok.inj heffect
      exact hm

/-- A step is taken in lockstep, if its words are asked for where they may be. -/
theorem step {m n : Machine} (htwins : m.Twins R n)
    (hwhole : ∀ a, (Width.word, a) ∈ m.accesses → whole a) :
    SameOutcome (Machine.Twins R) (Execution.step m) (Execution.step n) := by
  cases hrun : m.isHalted with
  | true =>
    have hrun' : n.isHalted = true := htwins.isHalted.trans hrun
    rw [step_of_halted hrun, step_of_halted hrun']
    exact ⟨rfl, htwins⟩
  | false =>
    rw [step_of_running hrun, step_of_running (htwins.isHalted.trans hrun)]
    refine h.lockstep_fetch8.bind (P := fun m' => m' = m) ?_ h.lockstep_execute m n htwins rfl
    rintro _ b m' rfl hfetch a ha
    refine hwhole a ?_
    rw [accesses, hrun, if_neg (by decide), hfetch]
    exact List.mem_cons_of_mem _ ha

end AddressSpace.Simulation

namespace Machine

/-! ## The states of a run -/

/-- The machine that an action leaves behind, whatever it answers. -/
def after {α : Type} (m : Machine) (x : Execution α) : Machine :=
  match x m with
  | .ok _ m' | .error _ m' => m'

theorem after_of_ok {α : Type} {m m' : Machine} {x : Execution α} {a : α} (h : x m = .ok a m') :
    m.after x = m' := by
  rw [after, h]

theorem after_of_error {α : Type} {m m' : Machine} {x : Execution α} {e : MemoryError}
    (h : x m = .error e m') : m.after x = m' := by
  rw [after, h]

/-- The machine after a number of steps, whatever they answer. -/
def afterSteps (m : Machine) : Nat → Machine
  | 0 => m
  | k + 1 => (m.afterSteps k).after Execution.step

theorem afterSteps_add (m : Machine) (i j : Nat) :
    m.afterSteps (i + j) = (m.afterSteps i).afterSteps j := by
  induction j with
  | zero => rfl
  | succ j ih => exact congrArg (after · Execution.step) ih

end Machine

/-- Two machines stay alike, as long as the words of the first are asked for where they may be. -/
theorem AddressSpace.Simulation.afterSteps {whole : Word → Prop}
    {R : AddressSpace → AddressSpace → Prop} (h : Simulation whole R) {m n : Machine}
    (htwins : m.Twins R n) {k : Nat}
    (hwhole : ∀ j < k, ∀ a, (Width.word, a) ∈ (m.afterSteps j).accesses → whole a) :
    (m.afterSteps k).Twins R (n.afterSteps k) := by
  induction k with
  | zero => exact htwins
  | succ k ih =>
    have hk := ih fun j hj => hwhole j (Nat.lt_succ_of_lt hj)
    rw [Machine.afterSteps, Machine.afterSteps]
    rcases (h.step hk (hwhole k (Nat.lt_succ_self k))).cases with
      ⟨b, m', n', hm, hn, htwins'⟩ | ⟨e, m', n', hm, hn, htwins'⟩
    · rwa [Machine.after_of_ok hm, Machine.after_of_ok hn]
    · rwa [Machine.after_of_error hm, Machine.after_of_error hn]

/-! ## Invariants of the memory -/

/-- What every request keeps of a memory. -/
structure AddressSpace.Kept (P : AddressSpace → Prop) : Prop where
  observe {s : AddressSpace} : P s → ∀ a request, P (s.observe a request)
  poke8 {s : AddressSpace} : P s → ∀ a v, P (s.poke8 a v)
  poke16 {s : AddressSpace} : P s → ∀ a v, P (s.poke16 a v)

namespace AddressSpace.Kept

variable {P : AddressSpace → Prop} (h : Kept P)
include h

/-- A memory that keeps an invariant is like itself. -/
theorem simulation : Simulation (fun _ => True) fun s t => t = s ∧ P s where
  read8 := by
    rintro _ s ⟨rfl, hs⟩ a
    rcases MemoryAction.read8_cases s a with ⟨b, -, hread⟩ | ⟨-, hread⟩
    · rw [hread]
      exact ⟨rfl, rfl, h.observe hs _ _⟩
    · rw [hread]
      exact ⟨rfl, rfl, hs⟩
  read16 := by
    rintro _ s ⟨rfl, hs⟩ a -
    rcases MemoryAction.read16_cases s a with ⟨w, -, hread⟩ | ⟨-, hread⟩
    · rw [hread]
      exact ⟨rfl, rfl, h.observe hs _ _⟩
    · rw [hread]
      exact ⟨rfl, rfl, hs⟩
  write8 := by
    rintro _ s ⟨rfl, hs⟩ a v
    rcases MemoryAction.write8_cases s a v with ⟨-, hwrite⟩ | ⟨-, hwrite⟩
    · rw [hwrite]
      exact ⟨rfl, rfl, h.poke8 (h.observe hs _ _) a v⟩
    · rw [hwrite]
      exact ⟨rfl, rfl, hs⟩
  write16 := by
    rintro _ s ⟨rfl, hs⟩ a v -
    rcases MemoryAction.write16_cases s a v with ⟨-, hwrite⟩ | ⟨-, hwrite⟩
    · rw [hwrite]
      exact ⟨rfl, rfl, h.poke16 (h.observe hs _ _) a v⟩
    · rw [hwrite]
      exact ⟨rfl, rfl, hs⟩

/-- Every run keeps it, also one that fails. -/
theorem afterSteps {m : Machine} (hm : P m.memory) (k : Nat) : P (m.afterSteps k).memory := by
  have htwins : m.Twins (fun s t => t = s ∧ P s) m := ⟨rfl, ⟨rfl, hm⟩, rfl, rfl⟩
  exact (h.simulation.afterSteps htwins fun _ _ _ _ => trivial).memory.2

end AddressSpace.Kept
end WordMachine
