import WordMachine.Proofs.Machine.Frame
import WordMachine.Proofs.Memory.Change

/-!
# How far an effect reaches

On any memory an effect may fail, and it may do so in the middle.  Two things are said of
each effect here, whatever is mapped: what it can have changed when it has been carried out
(`Effect.Touches`), and what it has done when an access has failed (`Effect.Fails`).

Most effects make one access, and there is nothing to do when that fails.  A call makes ten,
and each is a push: so a call that fails has pushed the words in front of the one that has
failed, and nothing else.  A return makes as many as the stack says.  All of them are reads,
so that whatever happens, the memory and the registers that a return does not set stay as
they are; this is an invariant of each of its actions, kept also by the ones that fail
(`Execution.Maintains`).

* `Machine.Agrees`: two machines differ at most in what the panel has seen.
* `Execution.pushAll_cases`, `Execution.call_eq`: pushing many words, and the call as such.
* `Effect.settles_perform`: the two outcomes of every effect.
-/

namespace WordMachine

open AddressSpace

namespace Machine

/-- The second machine differs from the first at most in what the panel has seen. -/
structure Agrees (m m' : Machine) : Prop where
  registers : m'.registers = m.registers
  memory : m.memory.Agrees m'.memory
  frameSize : m'.frameSize = m.frameSize
  isHalted : m'.isHalted = m.isHalted

theorem Agrees.refl (m : Machine) : m.Agrees m := ⟨rfl, .refl _, rfl, rfl⟩

theorem Agrees.trans {m m' m'' : Machine} (h : m.Agrees m') (h' : m'.Agrees m'') :
    m.Agrees m'' where
  registers := h'.registers.trans h.registers
  memory := h.memory.trans h'.memory
  frameSize := h'.frameSize.trans h.frameSize
  isHalted := h'.isHalted.trans h.isHalted

theorem Agrees.pushed {m m' : Machine} (h : m.Agrees m') (w : Word) :
    (m.pushed w).Agrees (m'.pushed w) := by
  refine ⟨?_, ?_, ?_, h.isHalted⟩
  · show m'.registers.set .sp (m'.registers.get .sp - 2) = _
    rw [h.registers]
    rfl
  · show (m.memory.poke16 _ w).Agrees (m'.memory.poke16 (m'.registers.get .sp) w)
    rw [h.registers]
    exact h.memory.poke16 _ w
  · show m'.frameSize + 2 = _
    rw [h.frameSize]
    rfl

theorem Agrees.pushedAll {m m' : Machine} (h : m.Agrees m') (ws : List Word) :
    (m.pushedAll ws).Agrees (m'.pushedAll ws) := by
  induction ws generalizing m m' with
  | nil => exact h
  | cons w ws ih => exact ih (h.pushed w)

/-- The addresses to which a number of pushes write, and the width of each write. -/
def pushWrites (sp : Word) (count : Nat) : List (Width × Word) :=
  (List.range count).map fun i => (.word, sp - UInt16.ofNat (2 * i))

theorem pushWrites_succ (sp : Word) (count : Nat) :
    pushWrites sp (count + 1) = (.word, sp) :: pushWrites (sp - 2) count := by
  have hzero : sp - UInt16.ofNat (2 * 0) = sp := UInt16.sub_zero sp
  rw [pushWrites, List.range_succ_eq_map, List.map_cons, List.map_map, hzero]
  congr 1
  refine List.map_congr_left fun i _ => ?_
  show (Width.word, sp - UInt16.ofNat (2 * (i + 1))) = _
  rw [Word.ofNat_two_mul_succ]
  congr 1
  grind

/-- Pushing words changes the bytes of the addresses that are pushed to. -/
theorem changesOnly_pushedAll (m : Machine) (ws : List Word) :
    m.memory.ChangesOnly (pushWrites (m.registers.get .sp) ws.length)
      (m.pushedAll ws).memory := by
  induction ws generalizing m with
  | nil => exact (AddressSpace.Agrees.refl _).changesOnly
  | cons w ws ih =>
    have hrest := ih (m.pushed w)
    rw [sp_pushed] at hrest
    rw [List.length_cons, pushWrites_succ]
    exact (changesOnly_poke16 m.memory _ w).trans hrest

theorem isMapped_pushed (m : Machine) (w a : Word) :
    (m.pushed w).memory.isMapped a = m.memory.isMapped a :=
  (changesOnly_poke16 m.memory _ w).isMapped a

end Machine

namespace Execution

open Machine

/-! ## Pushing on any memory -/

/-- Pushes words, in the given order. -/
def pushAll : List Word → Execution Unit
  | [] => pure ()
  | w :: ws => do
    push w
    pushAll ws

theorem pushAll_cons (w : Word) (ws : List Word) :
    pushAll (w :: ws) = (push w >>= fun _ => pushAll ws) := rfl

theorem push_cases (m : Machine) (w : Word) :
    (∃ m', push w m = .ok () m' ∧ (m.pushed w).Agrees m') ∨
      (m.memory.isMapped (m.registers.get .sp) = false ∧
        push w m = .error (.unmapped (m.registers.get .sp)) m) := by
  rw [push_apply]
  rcases MemoryAction.write16_cases m.memory (m.registers.get .sp) w with
    ⟨-, hwrite⟩ | ⟨hun, hwrite⟩
  · rw [hwrite]
    exact .inl ⟨_, rfl, rfl, (agrees_observe m.memory _ _).poke16 _ w, rfl, rfl⟩
  · rw [hwrite]
    exact .inr ⟨hun, rfl⟩

/-- Pushing several words ends with all of them pushed, or at the first that nothing is mapped
for, with the words in front of it pushed. -/
theorem pushAll_cases (m : Machine) (ws : List Word) :
    (∃ m', pushAll ws m = .ok () m' ∧ (m.pushedAll ws).Agrees m') ∨
      ∃ j < ws.length, ∃ m',
        m.memory.isMapped (m.registers.get .sp - UInt16.ofNat (2 * j)) = false ∧
        pushAll ws m = .error (.unmapped (m.registers.get .sp - UInt16.ofNat (2 * j))) m' ∧
        (m.pushedAll (ws.take j)).Agrees m' := by
  induction ws generalizing m with
  | nil => exact .inl ⟨m, rfl, .refl m⟩
  | cons w ws ih =>
    rw [pushAll_cons, bind_apply]
    rcases push_cases m w with ⟨m₁, hpush, hagrees⟩ | ⟨hun, hpush⟩
    · rw [hpush]
      have hsp : m₁.registers.get .sp = m.registers.get .sp - 2 := by
        rw [hagrees.registers, sp_pushed]
      rcases ih m₁ with ⟨m', hrest, hrest'⟩ | ⟨j, hj, m', hun, hrest, hrest'⟩
      · exact .inl ⟨m', hrest, (hagrees.pushedAll ws).trans hrest'⟩
      · have haddress : m₁.registers.get .sp - UInt16.ofNat (2 * j) =
            m.registers.get .sp - UInt16.ofNat (2 * (j + 1)) := by
          rw [hsp, Word.ofNat_two_mul_succ]
          grind
        rw [haddress, hagrees.memory.isMapped, isMapped_pushed] at hun
        rw [haddress] at hrest
        exact .inr ⟨j + 1, Nat.succ_lt_succ hj, m', hun, hrest,
          (hagrees.pushedAll (ws.take j)).trans hrest'⟩
    · rw [hpush]
      have hzero : m.registers.get .sp - UInt16.ofNat (2 * 0) = m.registers.get .sp :=
        UInt16.sub_zero _
      refine .inr ⟨0, Nat.zero_lt_succ _, m, ?_⟩
      rw [hzero]
      exact ⟨hun, rfl, .refl m⟩

/-- Pushing registers is pushing what they hold when the first of them is pushed. -/
theorem pushRegisters_eq (m : Machine) {rs : List Register} (hrs : Register.sp ∉ rs) :
    pushRegisters rs m = pushAll (rs.map m.registers.get) m := by
  induction rs generalizing m with
  | nil => rfl
  | cons r rs ih =>
    rw [List.mem_cons, not_or] at hrs
    show (push (m.registers.get r) >>= fun _ => pushRegisters rs) m =
      (push (m.registers.get r) >>= fun _ => pushAll (rs.map m.registers.get)) m
    rw [bind_apply, bind_apply]
    rcases push_cases m (m.registers.get r) with ⟨m₁, hpush, hagrees⟩ | ⟨-, hpush⟩
    · rw [hpush]
      have hsame : rs.map m₁.registers.get = rs.map m.registers.get := by
        refine List.map_congr_left fun q hq => ?_
        rw [hagrees.registers]
        refine m.get_pushed_of_ne _ ?_
        rintro rfl
        exact hrs.2 hq
      show pushRegisters rs m₁ = pushAll _ m₁
      rw [ih m₁ hrs.2, hsame]
    · rw [hpush]

theorem pushAll_append (m : Machine) (xs ys : List Word) :
    pushAll (xs ++ ys) m = (pushAll xs >>= fun _ => pushAll ys) m := by
  induction xs generalizing m with
  | nil => rfl
  | cons x xs ih =>
    rw [List.cons_append, pushAll_cons, pushAll_cons, bind_apply, bind_apply, bind_apply]
    cases push x m with
    | ok _ m₁ =>
      show pushAll (xs ++ ys) m₁ = _
      rw [ih, bind_apply]
    | error e m₁ => rfl

/-- A call pushes the ten words of its frame, and opens it. -/
theorem call_eq (m : Machine) (target : Word) :
    call target m =
      match pushAll (m.frame (m.registers.get .ip)).words.reverse m with
      | .ok _ m' => .ok () (m'.entered target)
      | .error e m' => .error e m' := by
  have hsaved : (m.frame (m.registers.get .ip)).saved = m.registers.get := rfl
  rw [call, Frame.reverse_words, pushAll_append, bind_apply, bind_apply,
    pushRegisters_eq m (by decide), hsaved]
  rcases pushAll_cases m (Register.general.map m.registers.get) with
    ⟨m₁, hpush, hagrees⟩ | ⟨j, hj, m₁, -, hpush, -⟩
  · have hip : m₁.registers.get .ip = (m.frame (m.registers.get .ip)).returnTo := by
      rw [hagrees.registers, m.get_pushedAll_of_ne _ (by decide)]
      rfl
    -- the counter that is saved counts the eight registers, the return address and itself
    have hsize : m₁.frameSize + 2 + 2 = (m.frame (m.registers.get .ip)).size := by
      rw [hagrees.frameSize, frameSize_pushedAll]
      show m.frameSize + 16 + 2 + 2 = m.frameSize + 20
      grind
    rw [hpush]
    dsimp only
    rw [bind_apply, getRegister_apply, hip, pushAll_cons]
    dsimp only
    rw [bind_apply, bind_apply]
    rcases push_cases m₁ (m.frame (m.registers.get .ip)).returnTo with
      ⟨m₂, hpush, hagrees⟩ | ⟨-, hpush⟩
    · rw [hpush]
      dsimp only
      rw [bind_apply, getFrameSize_apply, hagrees.frameSize, frameSize_pushed, pushAll_cons,
        bind_apply]
      dsimp only
      rw [hsize, bind_apply]
      cases push (m.frame (m.registers.get .ip)).size m₂ <;> rfl
    · rw [hpush]
  · rw [hpush]

/-! ## Invariants of actions that may fail -/

/-- The action keeps an invariant, also where it fails; and it fails only at an address where
nothing is mapped. -/
def Maintains {α : Type} (R : Machine → Prop) (x : Execution α) : Prop :=
  ∀ m, R m →
    match x m with
    | .ok _ m' => R m'
    | .error (.unmapped a) m' => R m' ∧ m'.memory.isMapped a = false

section Maintains

variable {α β : Type} {R : Machine → Prop}

theorem maintains_pure (a : α) : Maintains R (pure a) := fun _ h => h

theorem Maintains.bind {x : Execution α} {f : α → Execution β} (hx : Maintains R x)
    (hf : ∀ a, Maintains R (f a)) : Maintains R (x >>= f) := by
  intro m hm
  rw [bind_apply]
  have hfirst := hx m hm
  cases hxm : x m with
  | ok a m' =>
    rw [hxm] at hfirst
    exact hf a m' hfirst
  | error e m' =>
    rw [hxm] at hfirst
    exact hfirst

theorem maintains_setRegister {r : Register}
    (hset : ∀ m w, R m → R { m with registers := m.registers.set r w }) (w : Word) :
    Maintains R (setRegister r w) := fun m h => hset m w h

theorem maintains_setFrameSize (hsize : ∀ m w, R m → R { m with frameSize := w }) (w : Word) :
    Maintains R (setFrameSize w) := fun m h => hsize m w h

/-- A pop sets `sp` and the counter and reads. -/
theorem maintains_pop
    (hsp : ∀ m w, R m → R { m with registers := m.registers.set .sp w })
    (hsize : ∀ m w, R m → R { m with frameSize := w })
    (hseen : ∀ m a request, R m → R { m with memory := m.memory.observe a request }) :
    Maintains R pop := by
  intro m hm
  have hpopped : R m.popped := hsize _ _ (hsp m _ hm)
  rw [pop_apply]
  dsimp only
  rcases MemoryAction.read16_cases m.memory (m.registers.get .sp + 2) with
    ⟨w, -, hread⟩ | ⟨hun, hread⟩
  · rw [hread]
    exact hseen _ _ _ hpopped
  · rw [hread]
    exact ⟨hpopped, hun⟩

theorem maintains_popRegisters (hpop : Maintains R pop) {rs : List Register}
    (hset : ∀ r ∈ rs, ∀ m w, R m → R { m with registers := m.registers.set r w }) :
    Maintains R (popRegisters rs) := by
  induction rs with
  | nil => exact maintains_pure ()
  | cons r rs ih =>
    refine hpop.bind fun w => ?_
    refine (maintains_setRegister (hset r List.mem_cons_self) w).bind fun _ => ?_
    exact ih fun q hq => hset q (List.mem_cons_of_mem r hq)

theorem maintains_discard (hpop : Maintains R pop) (n : Nat) : Maintains R (discard n) := by
  induction n with
  | zero => exact maintains_pure ()
  | succ n ih => exact hpop.bind fun _ => ih

end Maintains

/-- What stays as it is while a frame is unwound. -/
structure Unwinding (m m' : Machine) : Prop where
  memory : m.memory.Agrees m'.memory
  isHalted : m'.isHalted = m.isHalted
  acc : m'.registers.get .acc = m.registers.get .acc
  fp : m'.registers.get .fp = m.registers.get .fp

theorem Unwinding.set {m m' : Machine} (h : Unwinding m m') {r : Register}
    (hacc : Register.acc ≠ r) (hfp : Register.fp ≠ r) (w : Word) :
    Unwinding m { m' with registers := m'.registers.set r w } := by
  refine ⟨h.memory, h.isHalted, ?_, ?_⟩
  · rw [RegisterFile.get_set_of_ne _ hacc, h.acc]
  · rw [RegisterFile.get_set_of_ne _ hfp, h.fp]

/-- The part of a return before it sets `fp`. -/
def unwind (base : Word) : Execution Word := do
  setRegister .sp base
  let size ← pop
  setFrameSize size
  setRegister .ip (← pop)
  popRegisters Register.general.reverse
  let count ← pop
  discard count.toNat
  pure size

theorem maintains_unwind (m : Machine) (base : Word) : Maintains (Unwinding m) (unwind base) := by
  have hpop : Maintains (Unwinding m) pop :=
    maintains_pop (fun m' w h => h.set (by decide) (by decide) w)
      (fun m' w h => ⟨h.memory, h.isHalted, h.acc, h.fp⟩)
      (fun m' a request h =>
        ⟨h.memory.trans (agrees_observe _ a request), h.isHalted, h.acc, h.fp⟩)
  have hset {r : Register} (hacc : Register.acc ≠ r) (hfp : Register.fp ≠ r) (w : Word) :
      Maintains (Unwinding m) (setRegister r w) :=
    maintains_setRegister (fun m' w h => h.set hacc hfp w) w
  refine (hset (by decide) (by decide) base).bind fun _ => hpop.bind fun size => ?_
  refine (maintains_setFrameSize (fun m' w h => ⟨h.memory, h.isHalted, h.acc, h.fp⟩) size).bind
    fun _ => hpop.bind fun q => (hset (by decide) (by decide) q).bind fun _ => ?_
  refine (maintains_popRegisters hpop fun r hr m' w h => ?_).bind fun _ => hpop.bind fun count =>
    (maintains_discard hpop count.toNat).bind fun _ => maintains_pure size
  have hne : Register.acc ≠ r ∧ Register.fp ≠ r := by
    revert r
    decide
  exact h.set hne.1 hne.2 w

/-- A return unwinds the frame at `fp`, and then sets `fp`. -/
theorem ret_eq (m : Machine) :
    ret m = (unwind (m.registers.get .fp) >>= fun size =>
      setRegister .fp (m.registers.get .fp + size)) m := by
  rw [ret, bind_apply, getRegister_apply]
  simp only [unwind, bind_assoc, pure_bind]

end Execution

/-! ## Effects -/

namespace Effect

/-- The registers that the effect can set. -/
def sets : Effect → List Register
  | .nothing | .halt | .store8 _ _ | .store16 _ _ => []
  | .jump _ => [.ip]
  | .assign r _ | .load8 r _ | .load16 r _ => [r]
  | .push _ => [.sp]
  | .pop r => [.sp, r]
  | .call _ => [.ip, .sp, .fp]
  | .ret => .ip :: .sp :: .fp :: Register.general

/-- The writes of the effect, if `sp` is where the stack is. -/
def writes (sp : Word) : Effect → List (Width × Word)
  | .store8 a _ => [(.byte, a)]
  | .store16 a _ => [(.word, a)]
  | .push _ => Machine.pushWrites sp 1
  | .call _ => Machine.pushWrites sp 10
  | _ => []

/-- The effect pushes or pops. -/
def UsesStack : Effect → Prop
  | .push _ | .pop _ | .call _ | .ret => True
  | _ => False

/-- What an effect can have changed when it has been carried out. -/
structure Touches (m : Machine) (e : Effect) (m' : Machine) : Prop where
  registers : ∀ r ∉ e.sets, m'.registers.get r = m.registers.get r
  memory : m.memory.ChangesOnly (e.writes (m.registers.get .sp)) m'.memory
  frameSize : ¬ e.UsesStack → m'.frameSize = m.frameSize
  isHalted : m'.isHalted = true ↔ m.isHalted = true ∨ e = .halt

/-- What an effect has done when it has failed because nothing is mapped at `a`. -/
def Fails (m : Machine) (a : Word) (m' : Machine) : Effect → Prop
  | .load8 _ b | .load16 _ b | .store8 b _ | .store16 b _ => a = b ∧ m' = m
  | .push _ => a = m.registers.get .sp ∧ m' = m
  | .pop _ => a = m.registers.get .sp + 2 ∧ m' = m.popped
  | .call _ => ∃ j < 10, a = m.registers.get .sp - UInt16.ofNat (2 * j) ∧
      (m.pushedAll ((m.frame (m.registers.get .ip)).words.reverse.take j)).Agrees m'
  | .ret => Execution.Unwinding m m'
  | .nothing | .halt | .jump _ | .assign _ _ => False

/-- What can come of trying an effect: it has been carried out, or an access has failed. -/
def Settles (m : Machine) (e : Effect) : EStateM.Result MemoryError Machine Unit → Prop
  | .ok _ m' => e.Touches m m'
  | .error (.unmapped a) m' => m.memory.isMapped a = false ∧ e.Fails m a m'

open Execution Machine

variable {m : Machine} {e : Effect}

/-- An effect that ends with some registers set, and with the panel having seen something, has
touched these registers. -/
theorem touches_of_registers {regs : RegisterFile} {memory : AddressSpace}
    (hregs : ∀ r ∉ e.sets, regs.get r = m.registers.get r)
    (hwrites : e.writes (m.registers.get .sp) = []) (hhalt : e ≠ .halt)
    (hmemory : m.memory.Agrees memory) : e.Touches m { m with registers := regs, memory } := by
  refine ⟨hregs, ?_, fun _ => rfl, Or.inl, fun h => h.resolve_right hhalt⟩
  rw [hwrites]
  exact hmemory.changesOnly

/-- Setting one register leaves all others as they are. -/
theorem get_set_of_notMem (regs : RegisterFile) {r q : Register} (h : q ∉ [r]) (w : Word) :
    (regs.set r w).get q = regs.get q :=
  RegisterFile.get_set_of_ne _ (fun e => h (List.mem_singleton.mpr e)) _

/-- An effect that reads at an address and puts what it has read into a register. -/
theorem settles_load {α : Type} {action : MemoryAction α} {a : Word} {r : Register}
    (f : α → Word)
    (haction : (∃ x memory, action m.memory = .ok x memory ∧ m.memory.Agrees memory) ∨
      (m.memory.isMapped a = false ∧ action m.memory = .error (.unmapped a) m.memory))
    (hsets : e.sets = [r]) (hwrites : e.writes (m.registers.get .sp) = []) (hhalt : e ≠ .halt)
    (hfails : e.Fails m a m) :
    e.Settles m ((onMemory action >>= fun x => setRegister r (f x)) m) := by
  rw [bind_apply, onMemory_apply]
  rcases haction with ⟨x, memory, hx, hagrees⟩ | ⟨hun, hx⟩
  · rw [hx]
    refine touches_of_registers (fun q hq => ?_) hwrites hhalt hagrees
    rw [hsets] at hq
    exact get_set_of_notMem _ hq _
  · rw [hx]
    exact ⟨hun, hfails⟩

/-- An effect that writes at an address. -/
theorem settles_store {action : MemoryAction Unit} {a : Word} {memory : AddressSpace}
    (haction : action m.memory = .ok () memory ∨
      (m.memory.isMapped a = false ∧ action m.memory = .error (.unmapped a) m.memory))
    (hmemory : m.memory.ChangesOnly (e.writes (m.registers.get .sp)) memory)
    (hhalt : e ≠ .halt) (hfails : e.Fails m a m) : e.Settles m (onMemory action m) := by
  rw [onMemory_apply]
  rcases haction with hx | ⟨hun, hx⟩
  · rw [hx]
    exact ⟨fun _ _ => rfl, hmemory, fun _ => rfl, Or.inl, fun h => h.resolve_right hhalt⟩
  · rw [hx]
    exact ⟨hun, hfails⟩

theorem settles_push (m : Machine) (w : Word) :
    (Effect.push w).Settles m (Execution.push w m) := by
  rcases push_cases m w with ⟨m', hpush, hagrees⟩ | ⟨hun, hpush⟩
  · rw [hpush]
    refine ⟨fun r hr => ?_, (changesOnly_pushedAll m [w]).trans_agrees hagrees.memory,
      fun hno => absurd trivial hno, ?_⟩
    · rw [hagrees.registers]
      exact get_set_of_notMem _ hr _
    · rw [hagrees.isHalted]
      exact ⟨Or.inl, fun h => h.resolve_right nofun⟩
  · rw [hpush]
    exact ⟨hun, rfl, rfl⟩

theorem settles_pop (m : Machine) (r : Register) :
    (Effect.pop r).Settles m ((Execution.pop >>= fun w => setRegister r w) m) := by
  rw [bind_apply, pop_apply]
  dsimp only
  rcases MemoryAction.read16_cases m.memory (m.registers.get .sp + 2) with
    ⟨w, -, hread⟩ | ⟨hun, hread⟩
  · rw [hread]
    refine ⟨fun q hq => ?_, (agrees_observe m.memory _ _).changesOnly,
      fun hno => absurd trivial hno, Or.inl, fun h => h.resolve_right nofun⟩
    simp only [sets, List.mem_cons, List.not_mem_nil, or_false, not_or] at hq
    show ((m.registers.set .sp _).set r w).get q = _
    rw [RegisterFile.get_set_of_ne _ hq.2, RegisterFile.get_set_of_ne _ hq.1]
  · rw [hread]
    exact ⟨hun, rfl, rfl⟩

theorem settles_call (m : Machine) (target : Word) :
    (Effect.call target).Settles m (Execution.call target m) := by
  rw [call_eq]
  rcases pushAll_cases m (m.frame (m.registers.get .ip)).words.reverse with
    ⟨m', hpush, hagrees⟩ | ⟨j, hj, m', hun, hpush, hagrees⟩
  · rw [hpush]
    refine ⟨fun r hr => ?_, (changesOnly_pushedAll m _).trans_agrees hagrees.memory,
      fun hno => absurd trivial hno, ?_⟩
    · simp only [sets, List.mem_cons, List.not_mem_nil, or_false, not_or] at hr
      show ((m'.registers.set .fp _).set .ip target).get r = _
      rw [RegisterFile.get_set_of_ne _ hr.1, RegisterFile.get_set_of_ne _ hr.2.2,
        hagrees.registers, get_pushedAll_of_ne m _ hr.2.1]
    · show m'.isHalted = true ↔ _
      rw [hagrees.isHalted, isHalted_pushedAll]
      exact ⟨Or.inl, fun h => h.resolve_right nofun⟩
  · rw [hpush]
    exact ⟨hun, j, hj, rfl, hagrees⟩

theorem settles_ret (m : Machine) : Effect.ret.Settles m (Execution.ret m) := by
  have hunwind := maintains_unwind m (m.registers.get .fp) m ⟨.refl _, rfl, rfl, rfl⟩
  rw [ret_eq, bind_apply]
  cases hm : unwind (m.registers.get .fp) m with
  | ok size m' =>
    rw [hm] at hunwind
    refine ⟨fun r hr => ?_, hunwind.memory.changesOnly, fun hno => absurd trivial hno, ?_⟩
    · have hacc : r = .acc := by
        revert r
        decide
      rw [hacc, ← hunwind.acc]
      exact RegisterFile.get_set_of_ne _ (by decide) _
    · show m'.isHalted = true ↔ _
      rw [hunwind.isHalted]
      exact ⟨Or.inl, fun h => h.resolve_right nofun⟩
  | error e m' =>
    rw [hm] at hunwind
    exact ⟨(hunwind.1.memory.isMapped _).symm.trans hunwind.2, hunwind.1⟩

/-- Every effect, on every machine, touches no more than it may, or fails where nothing is
mapped. -/
theorem settles_perform (e : Effect) (m : Machine) : e.Settles m (e.perform m) := by
  cases e with
  | nothing => exact touches_of_registers (fun _ _ => rfl) rfl nofun (.refl _)
  | halt =>
    exact ⟨fun _ _ => rfl, (AddressSpace.Agrees.refl _).changesOnly, fun _ => rfl,
      fun _ => Or.inr rfl, fun _ => rfl⟩
  | jump target | assign r w =>
    exact touches_of_registers (fun _ hr => get_set_of_notMem _ hr _) rfl nofun (.refl _)
  | load8 r a =>
    refine settles_load Word.ofByte ?_ rfl rfl nofun ⟨rfl, rfl⟩
    exact (MemoryAction.read8_cases m.memory a).imp_left fun ⟨b, _, h⟩ =>
      ⟨b, _, h, agrees_observe _ _ _⟩
  | load16 r a =>
    refine settles_load id ?_ rfl rfl nofun ⟨rfl, rfl⟩
    exact (MemoryAction.read16_cases m.memory a).imp_left fun ⟨w, _, h⟩ =>
      ⟨w, _, h, agrees_observe _ _ _⟩
  | store8 a b =>
    exact settles_store ((MemoryAction.write8_cases m.memory a b).imp_left And.right)
      ((agrees_observe _ _ _).changesOnly.trans (changesOnly_poke8 _ a b)) nofun ⟨rfl, rfl⟩
  | store16 a w =>
    exact settles_store ((MemoryAction.write16_cases m.memory a w).imp_left And.right)
      ((agrees_observe _ _ _).changesOnly.trans (changesOnly_poke16 _ a w)) nofun ⟨rfl, rfl⟩
  | push w => exact settles_push m w
  | pop r => exact settles_pop m r
  | call target => exact settles_call m target
  | ret => exact settles_ret m

end Effect
end WordMachine
