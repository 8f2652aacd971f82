import WordMachine.Proofs.Machine.Stack

/-!
# Calls and returns on a flat memory

A call saves ten words, twenty bytes, right above its new frame pointer.  `Frame` is what
they say, `Machine.Calls` what a call leaves behind and `Machine.Returns` what a return
does with such a frame.  The two fit together in a way that does not depend on the callee: a
return looks at `fp`, at the twenty bytes above it and at the argument count above those,
and at nothing else.  So it undoes a call from every machine in which these are as the call
has left them (`Machine.call_and_return`).

The caller's frame pointer is computed and not restored: it is where the call was made plus
what the caller had counted.  Whether that is the frame pointer the caller had is another
question, and no part of the theorem.

* `Execution.call_flat`, `Machine.calls_called`: what a call does.
* `Execution.ret_flat`, `Machine.returns_returned`: what a return does.
* `Machine.call_and_return`: the step that calls, and every step that returns from it.
-/

namespace WordMachine

open AddressSpace

/-- The general registers are none of those that keep track of where the machine is. -/
theorem Register.ne_of_mem_general {r : Register} (hr : r ∈ Register.general) :
    r ≠ .ip ∧ r ≠ .fp ∧ r ≠ .sp := by
  revert r
  decide

/-- What a call saves. -/
structure Frame where
  /-- The caller's frame counter, with the twenty bytes of the call itself. -/
  size : Word
  /-- Where the caller goes on. -/
  returnTo : Word
  /-- What the caller's registers hold; only the general ones are saved. -/
  saved : Register → Word

namespace Frame

/-- The saved words, from the lowest address up. -/
def words (f : Frame) : List Word :=
  f.size :: f.returnTo :: Register.general.reverse.map f.saved

theorem length_words (f : Frame) : f.words.length = 10 := rfl

/-- The saved words in the order in which they are pushed. -/
theorem reverse_words (f : Frame) :
    f.words.reverse = Register.general.map f.saved ++ [f.returnTo, f.size] := rfl

/-- Where the words of a frame stand above a frame pointer. -/
theorem holdsWords_words {memory : AddressSpace} {a : Word} {f : Frame} :
    memory.HoldsWords (a + 2) f.words ↔
      memory.wordAt (a + 2) = f.size ∧ memory.wordAt (a + 4) = f.returnTo ∧
        memory.HoldsWords (a + 4 + 2) (Register.general.reverse.map f.saved) := by
  have hfour : a + 2 + 2 = a + 4 := UInt16.add_assoc a 2 2
  rw [words, holdsWords_cons, holdsWords_cons, hfour]

/-- The saved registers stand in the order of their names, the first at the highest
address. -/
theorem saved_of_holdsWords {memory : AddressSpace} {a : Word} {f : Frame}
    (h : memory.HoldsWords a f.words) (i : Fin Register.general.length) :
    memory.wordAt (a + 18 - UInt16.ofNat (2 * i)) = f.saved (Register.general.get i) := by
  have hi : i.val < 8 := i.isLt
  have hplace : a + UInt16.ofNat (2 * (9 - i.val)) = a + 18 - UInt16.ofNat (2 * i) := by
    have hdouble : 2 * (9 - i.val) = 18 - 2 * i.val := by omega
    rw [hdouble, UInt16.ofNat_sub (by omega)]
    show a + (18 - _) = _
    grind
  have hword := h.wordAt (i := 9 - i.val) (by rw [length_words]; omega)
  rw [← hplace, hword]
  have hindex : 9 - i.val = 7 - i.val + 1 + 1 := by omega
  have hback : 7 - (7 - i.val) = i.val := by omega
  simp only [words, hindex, List.getElem_cons_succ, List.getElem_map, List.getElem_reverse]
  show f.saved (Register.general[7 - (7 - i.val)]) = _
  simp only [hback]
  rfl

end Frame

namespace Machine

/-- What a call from this machine saves if it returns to `q`. -/
def frame (m : Machine) (q : Word) : Frame := ⟨m.frameSize + 20, q, m.registers.get⟩

/-- What a call from `m` to `target` that returns to `q` leaves behind. -/
structure Calls (m : Machine) (target q : Word) (m' : Machine) : Prop where
  ip : m'.registers.get .ip = target
  sp : m'.registers.get .sp = m.registers.get .sp - 20
  fp : m'.registers.get .fp = m.registers.get .sp - 20
  frameSize : m'.frameSize = 0
  acc : m'.registers.get .acc = m.registers.get .acc
  general : ∀ r ∈ Register.general, m'.registers.get r = m.registers.get r
  isHalted : m'.isHalted = m.isHalted
  isFlat : m'.memory.IsFlat
  /-- Twenty bytes change at most. -/
  frameRule : ∀ b, ¬ InBlock (m.registers.get .sp - 18) 20 b →
    m'.memory.byteAt b = m.memory.byteAt b
  /-- These twenty bytes are the saved words. -/
  saves : m'.memory.HoldsWords (m.registers.get .sp - 18) (m.frame q).words

/-- The lowest saved word stands right above the new frame pointer. -/
theorem Calls.fp_add_two {m m' : Machine} {target q : Word} (h : m.Calls target q m') :
    m'.registers.get .fp + 2 = m.registers.get .sp - 18 := by
  rw [h.fp]
  grind

/-- What a return from `m` to a frame leaves behind, if `n` arguments are to be taken
away. -/
structure Returns (m : Machine) (f : Frame) (n : Word) (m' : Machine) : Prop where
  ip : m'.registers.get .ip = f.returnTo
  sp : m'.registers.get .sp = m.registers.get .fp + 22 + 2 * n
  fp : m'.registers.get .fp = m.registers.get .fp + f.size
  frameSize : m'.frameSize = f.size - 20 - 2 * n
  acc : m'.registers.get .acc = m.registers.get .acc
  general : ∀ r ∈ Register.general, m'.registers.get r = f.saved r
  isHalted : m'.isHalted = m.isHalted
  memory : m'.memory = m.memory

/-! ## The call -/

/-- The machine when it has opened a frame at the top of its stack and jumped. -/
def entered (m : Machine) (target : Word) : Machine :=
  { m with
    registers := (m.registers.set .fp (m.registers.get .sp)).set .ip target
    frameSize := 0 }

/-- The machine after a call. -/
def called (m : Machine) (target : Word) : Machine :=
  (m.pushedAll (m.frame (m.registers.get .ip)).words.reverse).entered target

end Machine

theorem Execution.call_flat {m : Machine} (h : m.memory.IsFlat) (target : Word) :
    call target m = .ok () (m.called target) := by
  have hwords : m.pushedAll (m.frame (m.registers.get .ip)).words.reverse =
      ((m.pushedAll (Register.general.map m.registers.get)).pushed (m.registers.get .ip)).pushed
        (m.frameSize + 20) := by
    rw [Frame.reverse_words, Machine.pushedAll_append]
    rfl
  have hip : (m.pushedAll (Register.general.map m.registers.get)).registers.get .ip =
      m.registers.get .ip := m.get_pushedAll_of_ne _ (by decide)
  -- the counter that is saved counts the eight registers, the return address and itself
  have hsize : (m.pushedAll (Register.general.map m.registers.get)).frameSize + 2 + 2 =
      m.frameSize + 20 := by
    rw [Machine.frameSize_pushedAll]
    show m.frameSize + 16 + 2 + 2 = _
    grind
  have hflat := Machine.isFlat_pushedAll h (Register.general.map m.registers.get)
  rw [Machine.called, hwords, ← hip, ← hsize, call, bind_apply, pushRegisters_flat h (by decide)]
  show (getRegister .ip >>= _) _ = _
  rw [bind_apply, getRegister_apply]
  show (push _ >>= _) _ = _
  rw [bind_apply, push_flat hflat]
  show (push _ >>= _) (Machine.pushed _ _) = _
  rw [bind_apply, push_flat (m := Machine.pushed _ _) (hflat.poke16 _ _)]
  rfl

namespace Machine

theorem calls_called {m : Machine} (h : m.memory.IsFlat) (target : Word) :
    m.Calls target (m.registers.get .ip) (m.called target) := by
  have hlen : (m.frame (m.registers.get .ip)).words.reverse.length = 10 := rfl
  have hback : (m.frame (m.registers.get .ip)).words.reverse.reverse =
      (m.frame (m.registers.get .ip)).words := List.reverse_reverse _
  rw [called]
  generalize (m.frame (m.registers.get .ip)).words.reverse = ws at hlen hback ⊢
  have hregs : ((m.pushedAll ws).entered target).registers =
      ((m.pushedAll ws).registers.set .fp ((m.pushedAll ws).registers.get .sp)).set .ip target :=
    rfl
  have hsp : (m.pushedAll ws).registers.get .sp = m.registers.get .sp - 20 := by
    rw [sp_pushedAll, hlen]
    rfl
  have hbase : (m.pushedAll ws).registers.get .sp + 2 = m.registers.get .sp - 18 := by
    rw [hsp]
    grind
  have hkept {r : Register} (hip : r ≠ .ip) (hfp : r ≠ .fp) (hne : r ≠ .sp) :
      ((m.pushedAll ws).entered target).registers.get r = m.registers.get r := by
    rw [hregs, RegisterFile.get_set_of_ne _ hip, RegisterFile.get_set_of_ne _ hfp,
      get_pushedAll_of_ne m ws hne]
  constructor
  case ip => rw [hregs, RegisterFile.get_set_self]
  case sp =>
    rw [hregs, RegisterFile.get_set_of_ne _ (by decide), RegisterFile.get_set_of_ne _ (by decide),
      hsp]
  case fp => rw [hregs, RegisterFile.get_set_of_ne _ (by decide), RegisterFile.get_set_self, hsp]
  case frameSize => rfl
  case acc => exact hkept (by decide) (by decide) (by decide)
  case general =>
    intro r hr
    obtain ⟨hip, hfp, hne⟩ := Register.ne_of_mem_general hr
    exact hkept hip hfp hne
  case isHalted => exact isHalted_pushedAll m ws
  case isFlat => exact isFlat_pushedAll h ws
  case frameRule =>
    intro b hb
    rw [← hbase] at hb
    refine byteAt_pushedAll (m := m) h ?_
    rwa [hlen]
  case saves =>
    have hnone : m.memory.HoldsWords (m.registers.get .sp + 2) [] := trivial
    have hfits : 2 * (ws.length + ([] : List Word).length) ≤ addressCount := by
      rw [hlen]
      decide
    have hall := holdsWords_pushedAll h hnone hfits
    rw [← hbase, ← hback]
    rwa [List.append_nil] at hall

/-! ## The return -/

/-- The machine in the middle of a return, with the frame counter and `ip` restored and the
registers still to come. -/
def resumed (m : Machine) : Machine :=
  { m with
    registers := (m.registers.set .sp (m.registers.get .fp + 4)).set .ip
      (m.memory.wordAt (m.registers.get .fp + 4))
    frameSize := m.memory.wordAt (m.registers.get .fp + 2) - 2 }

/-- The machine when a return has restored everything but `fp`, and the arguments are still
on the stack. -/
def unwound (m : Machine) : Machine := m.resumed.restored Register.general.reverse

/-- The machine after a return. -/
def returned (m : Machine) : Machine :=
  let dropped := m.unwound.popped.discarded m.unwound.top.toNat
  { dropped with
    registers := dropped.registers.set .fp
      (m.registers.get .fp + m.memory.wordAt (m.registers.get .fp + 2)) }

@[simp] theorem memory_unwound (m : Machine) : m.unwound.memory = m.memory := by
  rw [unwound, memory_restored]
  rfl

@[simp] theorem memory_returned (m : Machine) : m.returned.memory = m.memory :=
  m.memory_unwound

/-- The machine when a return starts: the words above the frame pointer are next. -/
def atFrame (m : Machine) : Machine :=
  { m with registers := m.registers.set .sp (m.registers.get .fp) }

/-- The machine when a return has restored the frame counter. -/
def sized (m : Machine) : Machine := { m.atFrame.popped with frameSize := m.atFrame.top }

theorem top_atFrame (m : Machine) : m.atFrame.top = m.memory.wordAt (m.registers.get .fp + 2) := by
  show m.memory.wordAt ((m.registers.set .sp (m.registers.get .fp)).get .sp + 2) = _
  rw [RegisterFile.get_set_self]

theorem registers_sized (m : Machine) :
    m.sized.registers = m.registers.set .sp (m.registers.get .fp + 2) := by
  show (m.registers.set .sp (m.registers.get .fp)).set .sp
    ((m.registers.set .sp (m.registers.get .fp)).get .sp + 2) = _
  rw [RegisterFile.get_set_self, RegisterFile.set_set]

/-- The second pop of a return fetches the address to go on at. -/
theorem resumed_eq (m : Machine) :
    { m.sized.popped with registers := m.sized.popped.registers.set .ip m.sized.top : Machine } =
      m.resumed := by
  have hsp : m.sized.registers.get .sp + 2 = m.registers.get .fp + 4 := by
    rw [registers_sized, RegisterFile.get_set_self]
    exact UInt16.add_assoc _ 2 2
  have htop : m.sized.top = m.memory.wordAt (m.registers.get .fp + 4) := by
    show m.memory.wordAt (m.sized.registers.get .sp + 2) = _
    rw [hsp]
  show Machine.mk ((m.sized.registers.set .sp (m.sized.registers.get .sp + 2)).set .ip m.sized.top)
    m.memory (m.atFrame.top - 2) m.isHalted = _
  rw [resumed, htop, hsp, registers_sized, RegisterFile.set_set, top_atFrame]

end Machine

theorem Execution.ret_flat {m : Machine} (h : m.memory.IsFlat) : ret m = .ok () m.returned := by
  have hunwound : m.unwound.memory.IsFlat := by rwa [Machine.memory_unwound]
  rw [ret, bind_apply, getRegister_apply]
  show (setRegister .sp (m.registers.get .fp) >>= _) m = _
  rw [bind_apply, setRegister_apply]
  show (pop >>= _) m.atFrame = _
  rw [bind_apply, pop_flat (m := m.atFrame) h]
  show (setFrameSize m.atFrame.top >>= _) m.atFrame.popped = _
  rw [bind_apply, setFrameSize_apply]
  show (pop >>= _) m.sized = _
  rw [bind_apply, pop_flat (m := m.sized) h]
  show (setRegister .ip m.sized.top >>= _) m.sized.popped = _
  rw [bind_apply, setRegister_apply, Machine.resumed_eq]
  show (popRegisters Register.general.reverse >>= _) m.resumed = _
  rw [bind_apply, popRegisters_flat (m := m.resumed) h]
  show (pop >>= _) m.unwound = _
  rw [bind_apply, pop_flat hunwound]
  show (discard m.unwound.top.toNat >>= _) m.unwound.popped = _
  rw [bind_apply, discard_flat (m := m.unwound.popped) hunwound, Machine.top_atFrame]
  rfl

namespace Machine

theorem sp_resumed (m : Machine) :
    m.resumed.registers.get .sp = m.registers.get .fp + 4 := by
  show ((m.registers.set .sp _).set .ip _).get .sp = _
  rw [RegisterFile.get_set_of_ne _ (by decide), RegisterFile.get_set_self]

theorem sp_unwound (m : Machine) :
    m.unwound.registers.get .sp = m.registers.get .fp + 20 := by
  rw [unwound, sp_restored _ (by decide), sp_resumed]
  exact UInt16.add_assoc _ 4 16

/-- The last word that a return reads is the argument count. -/
theorem top_unwound (m : Machine) : m.unwound.top = m.memory.wordAt (m.registers.get .fp + 22) := by
  have htwo : m.registers.get .fp + 20 + 2 = m.registers.get .fp + 22 := UInt16.add_assoc _ 20 2
  rw [top, sp_unwound, memory_unwound, htwo]

theorem fp_returned (m : Machine) :
    m.returned.registers.get .fp =
      m.registers.get .fp + m.memory.wordAt (m.registers.get .fp + 2) :=
  RegisterFile.get_set_self _ _ _

theorem sp_returned (m : Machine) :
    m.returned.registers.get .sp =
      m.registers.get .fp + 22 + 2 * m.memory.wordAt (m.registers.get .fp + 22) := by
  show (((m.unwound.popped.registers.set .sp (m.unwound.popped.registers.get .sp +
    UInt16.ofNat (2 * m.unwound.top.toNat)))).set .fp _).get .sp = _
  rw [RegisterFile.get_set_of_ne _ (by decide), RegisterFile.get_set_self, Word.ofNat_two_mul_toNat,
    top_unwound, sp_popped, sp_unwound]
  grind

theorem frameSize_returned (m : Machine) :
    m.returned.frameSize = m.memory.wordAt (m.registers.get .fp + 2) - 20 -
      2 * m.memory.wordAt (m.registers.get .fp + 22) := by
  show m.unwound.frameSize - 2 - UInt16.ofNat (2 * m.unwound.top.toNat) = _
  rw [Word.ofNat_two_mul_toNat, top_unwound, unwound, frameSize_restored]
  show m.memory.wordAt (m.registers.get .fp + 2) - 2 - 16 - 2 - _ = _
  grind

/-- The registers that do not keep track of the stack are as the pops have left them. -/
theorem get_returned_of_ne (m : Machine) {r : Register} (hfp : r ≠ .fp) (hsp : r ≠ .sp) :
    m.returned.registers.get r = m.unwound.registers.get r := by
  show (((m.unwound.popped.registers.set .sp _)).set .fp _).get r = _
  rw [RegisterFile.get_set_of_ne _ hfp, RegisterFile.get_set_of_ne _ hsp,
    get_popped_of_ne _ hsp]

/-- A return restores the frame that stands above `fp`. -/
theorem returns_returned {m : Machine} {f : Frame} {n : Word}
    (hsaved : m.memory.HoldsWords (m.registers.get .fp + 2) (f.words ++ [n])) :
    m.Returns f n m.returned := by
  -- what the return finds: the counter, the address, the registers, the argument count
  obtain ⟨hframe, hlast⟩ := holdsWords_append.mp hsaved
  obtain ⟨hsize, hreturn, hgeneral⟩ := Frame.holdsWords_words.mp hframe
  have hplace : m.registers.get .fp + 2 + UInt16.ofNat (2 * f.words.length) =
      m.registers.get .fp + 22 := UInt16.add_assoc _ 2 20
  have hcount : m.memory.wordAt (m.registers.get .fp + 22) = n := by
    rw [← hplace]
    exact (holdsWords_cons.mp hlast).1
  constructor
  case ip =>
    rw [get_returned_of_ne m (by decide) (by decide), unwound,
      get_restored_of_notMem _ (by decide) (by decide), ← hreturn]
    exact RegisterFile.get_set_self _ _ _
  case sp => rw [sp_returned, hcount]
  case fp => rw [fp_returned, hsize]
  case frameSize => rw [frameSize_returned, hsize, hcount]
  case acc =>
    rw [get_returned_of_ne m (by decide) (by decide), unwound,
      get_restored_of_notMem _ (by decide) (by decide)]
    show ((m.registers.set .sp _).set .ip _).get .acc = _
    rw [RegisterFile.get_set_of_ne _ (by decide), RegisterFile.get_set_of_ne _ (by decide)]
  case general =>
    intro r hr
    obtain ⟨-, hfp, hne⟩ := Register.ne_of_mem_general hr
    rw [get_returned_of_ne m hfp hne, unwound]
    refine get_restored_of_mem _ (by decide) (by decide) ?_ (List.mem_reverse.mpr hr)
    rw [sp_resumed]
    exact hgeneral
  case isHalted =>
    show m.unwound.isHalted = _
    rw [unwound, isHalted_restored]
    rfl
  case memory => exact m.memory_returned

end Machine
end WordMachine
