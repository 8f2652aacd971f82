import WordMachine.Proofs.Machine.Decode

/-!
# The stack on a flat memory

On a flat memory pushing and popping cannot fail, and what they do is a function of the
machine: `Machine.pushed` and `Machine.popped`.  The rest of this file is about several of
them in a row.

Words that are pushed one after the other end up in memory in reverse, the last one at the
lowest address (`Machine.holdsWords_pushedAll`), and no byte outside their block changes
(`Machine.byteAt_pushedAll`).  Words that are popped are read in that order
(`Machine.get_restored_of_mem`).  Nothing here looks at whether an address is even, nor at
the end of the address space; all that is asked for is that the stack does not run into
itself.
-/

namespace WordMachine

open AddressSpace

namespace Machine

/-- The machine after a word has been pushed. -/
def pushed (m : Machine) (w : Word) : Machine :=
  { m with
    registers := m.registers.set .sp (m.registers.get .sp - 2)
    memory := m.memory.poke16 (m.registers.get .sp) w
    frameSize := m.frameSize + 2 }

/-- The machine after a word has been popped. -/
def popped (m : Machine) : Machine :=
  { m with
    registers := m.registers.set .sp (m.registers.get .sp + 2)
    frameSize := m.frameSize - 2 }

/-- The word on top of the stack. -/
def top (m : Machine) : Word := m.memory.wordAt (m.registers.get .sp + 2)

@[simp] theorem isHalted_pushed (m : Machine) (w : Word) : (m.pushed w).isHalted = m.isHalted := rfl

@[simp] theorem frameSize_pushed (m : Machine) (w : Word) :
    (m.pushed w).frameSize = m.frameSize + 2 := rfl

@[simp] theorem sp_pushed (m : Machine) (w : Word) :
    (m.pushed w).registers.get .sp = m.registers.get .sp - 2 :=
  RegisterFile.get_set_self _ _ _

theorem get_pushed_of_ne (m : Machine) (w : Word) {r : Register} (h : r ≠ .sp) :
    (m.pushed w).registers.get r = m.registers.get r :=
  RegisterFile.get_set_of_ne _ h _

@[simp] theorem memory_popped (m : Machine) : m.popped.memory = m.memory := rfl

@[simp] theorem isHalted_popped (m : Machine) : m.popped.isHalted = m.isHalted := rfl

@[simp] theorem frameSize_popped (m : Machine) : m.popped.frameSize = m.frameSize - 2 := rfl

@[simp] theorem sp_popped (m : Machine) : m.popped.registers.get .sp = m.registers.get .sp + 2 :=
  RegisterFile.get_set_self _ _ _

theorem get_popped_of_ne (m : Machine) {r : Register} (h : r ≠ .sp) :
    m.popped.registers.get r = m.registers.get r :=
  RegisterFile.get_set_of_ne _ h _

end Machine

namespace Execution

variable {m : Machine}

theorem push_flat (h : m.memory.IsFlat) (w : Word) : push w m = .ok () (m.pushed w) := by
  rw [push_apply, h.write16]
  rfl

theorem pop_flat (h : m.memory.IsFlat) : pop m = .ok m.top m.popped := by
  rw [pop_apply]
  dsimp only
  rw [h.read16]
  rfl

end Execution

/-! ## Pushing several words -/

namespace Machine

/-- The machine after words have been pushed, in the given order. -/
def pushedAll (m : Machine) : List Word → Machine
  | [] => m
  | w :: ws => (m.pushed w).pushedAll ws

theorem isFlat_pushedAll {m : Machine} (h : m.memory.IsFlat) (ws : List Word) :
    (m.pushedAll ws).memory.IsFlat := by
  induction ws generalizing m with
  | nil => exact h
  | cons w ws ih => exact ih (m := m.pushed w) (h.poke16 _ _)

@[simp] theorem isHalted_pushedAll (m : Machine) (ws : List Word) :
    (m.pushedAll ws).isHalted = m.isHalted := by
  induction ws generalizing m with
  | nil => rfl
  | cons w ws ih => exact ih (m.pushed w)

/-- Each push counts its two bytes. -/
theorem frameSize_pushedAll (m : Machine) (ws : List Word) :
    (m.pushedAll ws).frameSize = m.frameSize + UInt16.ofNat (2 * ws.length) := by
  induction ws generalizing m with
  | nil => exact (UInt16.add_zero _).symm
  | cons w ws ih =>
    rw [pushedAll, ih, frameSize_pushed, List.length_cons, Word.ofNat_two_mul_succ,
      UInt16.add_assoc, UInt16.add_comm (UInt16.ofNat (2 * ws.length))]

/-- Each push lowers `sp` by two. -/
theorem sp_pushedAll (m : Machine) (ws : List Word) :
    (m.pushedAll ws).registers.get .sp = m.registers.get .sp - UInt16.ofNat (2 * ws.length) := by
  induction ws generalizing m with
  | nil => exact (UInt16.sub_zero _).symm
  | cons w ws ih =>
    rw [pushedAll, ih, sp_pushed, List.length_cons, Word.ofNat_two_mul_succ]
    grind

theorem pushedAll_append (m : Machine) (ws vs : List Word) :
    m.pushedAll (ws ++ vs) = (m.pushedAll ws).pushedAll vs := by
  induction ws generalizing m with
  | nil => rfl
  | cons w ws ih => exact ih (m.pushed w)

theorem get_pushedAll_of_ne (m : Machine) (ws : List Word) {r : Register} (h : r ≠ .sp) :
    (m.pushedAll ws).registers.get r = m.registers.get r := by
  induction ws generalizing m with
  | nil => rfl
  | cons w ws ih => rw [pushedAll, ih, get_pushed_of_ne m w h]

/-- Pushing changes no byte outside the block that the words take up. -/
theorem byteAt_pushedAll {m : Machine} (h : m.memory.IsFlat) {ws : List Word} {b : Word}
    (hb : ¬ InBlock ((m.pushedAll ws).registers.get .sp + 2) (2 * ws.length) b) :
    (m.pushedAll ws).memory.byteAt b = m.memory.byteAt b := by
  induction ws generalizing m with
  | nil => rfl
  | cons w ws ih =>
    have hmore : ¬ InBlock ((m.pushedAll (w :: ws)).registers.get .sp + 2)
        (2 * ws.length + 2) b := hb
    obtain ⟨hlast, h1, h2⟩ := not_inBlock_add_two hmore
    -- the first word stands at the high end of the block
    have hfirst : (m.pushedAll (w :: ws)).registers.get .sp + 2 + UInt16.ofNat (2 * ws.length) =
        m.registers.get .sp := by
      rw [sp_pushedAll, List.length_cons, Word.ofNat_two_mul_succ]
      grind
    rw [hfirst] at h1 h2
    rw [pushedAll, ih (m := m.pushed w) (h.poke16 _ _) hlast]
    show (m.memory.poke16 (m.registers.get .sp) w).byteAt b = _
    rw [h.byteAt_poke16, if_neg h1, if_neg h2]

/-- Words that have been pushed stand above `sp`, the last one first, and above them stands
what stood there before. -/
theorem holdsWords_pushedAll {m : Machine} (h : m.memory.IsFlat) {ws below : List Word}
    (hbelow : m.memory.HoldsWords (m.registers.get .sp + 2) below)
    (hlen : 2 * (ws.length + below.length) ≤ addressCount) :
    (m.pushedAll ws).memory.HoldsWords ((m.pushedAll ws).registers.get .sp + 2)
      (ws.reverse ++ below) := by
  induction ws generalizing m below with
  | nil => exact hbelow
  | cons w ws ih =>
    rw [List.length_cons] at hlen
    rw [pushedAll, List.reverse_cons, List.append_assoc]
    refine ih (m := m.pushed w) (h.poke16 _ _) ?_ ?_
    · have hsp : (m.pushed w).registers.get .sp + 2 = m.registers.get .sp := by
        rw [sp_pushed, UInt16.sub_add_cancel]
      rw [hsp]
      exact hbelow.poke16 h (by omega)
    · rw [List.singleton_append, List.length_cons]
      omega

end Machine

namespace Execution

/-- Pushing registers pushes what they hold when the first of them is pushed. -/
theorem pushRegisters_flat {m : Machine} (h : m.memory.IsFlat) {rs : List Register}
    (hrs : Register.sp ∉ rs) :
    pushRegisters rs m = .ok () (m.pushedAll (rs.map m.registers.get)) := by
  induction rs generalizing m with
  | nil => rfl
  | cons r rs ih =>
    rw [List.mem_cons, not_or] at hrs
    show (push (m.registers.get r) >>= fun _ => pushRegisters rs) m = _
    rw [bind_apply, push_flat h]
    show pushRegisters rs (m.pushed _) = _
    rw [ih (m := m.pushed _) (h.poke16 _ _) hrs.2, List.map_cons, Machine.pushedAll]
    have hsame : rs.map (m.pushed (m.registers.get r)).registers.get =
        rs.map m.registers.get := by
      refine List.map_congr_left fun q hq => m.get_pushed_of_ne _ ?_
      rintro rfl
      exact hrs.2 hq
    rw [hsame]

end Execution

/-! ## Popping several words -/

namespace Machine

/-- The machine after words have been popped into registers, in the given order. -/
def restored (m : Machine) : List Register → Machine
  | [] => m
  | r :: rs =>
    { m.popped with registers := m.popped.registers.set r m.top : Machine }.restored rs

/-- The machine after a number of words have been popped and forgotten. -/
def discarded (m : Machine) (n : Nat) : Machine :=
  { m with
    registers := m.registers.set .sp (m.registers.get .sp + UInt16.ofNat (2 * n))
    frameSize := m.frameSize - UInt16.ofNat (2 * n) }

@[simp] theorem discarded_zero (m : Machine) : m.discarded 0 = m := by
  have hsp : m.registers.get .sp + UInt16.ofNat (2 * 0) = m.registers.get .sp :=
    UInt16.add_zero _
  have hsize : m.frameSize - UInt16.ofNat (2 * 0) = m.frameSize := UInt16.sub_zero _
  rw [discarded, hsp, hsize, RegisterFile.set_get]

/-- One word more is popped before the others. -/
theorem discarded_popped (m : Machine) (n : Nat) : m.popped.discarded n = m.discarded (n + 1) := by
  rw [discarded, discarded, sp_popped]
  have hsp : m.registers.get .sp + 2 + UInt16.ofNat (2 * n) =
      m.registers.get .sp + UInt16.ofNat (2 * (n + 1)) := by
    rw [Word.ofNat_two_mul_succ, UInt16.add_assoc, UInt16.add_comm 2]
  have hsize : m.popped.frameSize - UInt16.ofNat (2 * n) =
      m.frameSize - UInt16.ofNat (2 * (n + 1)) := by
    rw [Word.ofNat_two_mul_succ, frameSize_popped]
    grind
  rw [hsp, hsize]
  show ({ m with
    registers := (m.registers.set .sp (m.registers.get .sp + 2)).set .sp _, frameSize := _ } :
      Machine) = _
  rw [RegisterFile.set_set]

@[simp] theorem memory_restored (m : Machine) (rs : List Register) :
    (m.restored rs).memory = m.memory := by
  induction rs generalizing m with
  | nil => rfl
  | cons r rs ih => exact ih _

@[simp] theorem isHalted_restored (m : Machine) (rs : List Register) :
    (m.restored rs).isHalted = m.isHalted := by
  induction rs generalizing m with
  | nil => rfl
  | cons r rs ih => exact ih _

theorem frameSize_restored (m : Machine) (rs : List Register) :
    (m.restored rs).frameSize = m.frameSize - UInt16.ofNat (2 * rs.length) := by
  induction rs generalizing m with
  | nil => exact (UInt16.sub_zero _).symm
  | cons r rs ih =>
    rw [restored, ih, List.length_cons, Word.ofNat_two_mul_succ]
    show m.frameSize - 2 - _ = _
    grind

/-- A register into which nothing is popped keeps what it holds, `sp` apart. -/
theorem get_restored_of_notMem (m : Machine) {rs : List Register} {r : Register}
    (hr : r ∉ rs) (hsp : r ≠ .sp) :
    (m.restored rs).registers.get r = m.registers.get r := by
  induction rs generalizing m with
  | nil => rfl
  | cons q rs ih =>
    rw [List.mem_cons, not_or] at hr
    rw [restored, ih _ hr.2, RegisterFile.get_set_of_ne _ hr.1, get_popped_of_ne m hsp]

theorem sp_restored (m : Machine) {rs : List Register} (hsp : Register.sp ∉ rs) :
    (m.restored rs).registers.get .sp = m.registers.get .sp + UInt16.ofNat (2 * rs.length) := by
  induction rs generalizing m with
  | nil => exact (UInt16.add_zero _).symm
  | cons q rs ih =>
    rw [List.mem_cons, not_or] at hsp
    rw [restored, ih _ hsp.2, RegisterFile.get_set_of_ne _ hsp.1, sp_popped, List.length_cons,
      Word.ofNat_two_mul_succ, UInt16.add_assoc, UInt16.add_comm 2]

/-- A register into which a word is popped holds that word, whatever is popped into other
registers behind it. -/
theorem get_restored_of_mem (m : Machine) {rs : List Register} {value : Register → Word}
    (hsp : Register.sp ∉ rs) (hnodup : rs.Nodup)
    (h : m.memory.HoldsWords (m.registers.get .sp + 2) (rs.map value)) {r : Register}
    (hr : r ∈ rs) : (m.restored rs).registers.get r = value r := by
  induction rs generalizing m with
  | nil => exact absurd hr List.not_mem_nil
  | cons q rs ih =>
    rw [List.mem_cons, not_or] at hsp
    rw [List.nodup_cons] at hnodup
    rw [List.map_cons, holdsWords_cons] at h
    rw [restored]
    rcases List.mem_cons.mp hr with rfl | hr
    · rw [get_restored_of_notMem _ hnodup.1 (Ne.symm hsp.1), RegisterFile.get_set_self]
      exact h.1
    · refine ih _ hsp.2 hnodup.2 ?_ hr
      show m.memory.HoldsWords ((m.popped.registers.set q m.top).get .sp + 2) _
      rw [RegisterFile.get_set_of_ne _ hsp.1, sp_popped]
      exact h.2

end Machine

namespace Execution

theorem popRegisters_flat {m : Machine} (h : m.memory.IsFlat) (rs : List Register) :
    popRegisters rs m = .ok () (m.restored rs) := by
  induction rs generalizing m with
  | nil => rfl
  | cons r rs ih =>
    show (pop >>= fun w => setRegister r w >>= fun _ => popRegisters rs) m = _
    rw [bind_apply, pop_flat h]
    show (setRegister r m.top >>= fun _ => popRegisters rs) m.popped = _
    rw [bind_apply, setRegister_apply]
    exact ih (m := { m.popped with registers := m.popped.registers.set r m.top }) h

theorem discard_flat {m : Machine} (h : m.memory.IsFlat) (n : Nat) :
    discard n m = .ok () (m.discarded n) := by
  induction n generalizing m with
  | zero =>
    rw [Machine.discarded_zero]
    rfl
  | succ n ih =>
    show (pop >>= fun _ => discard n) m = _
    rw [bind_apply, pop_flat h]
    show discard n m.popped = _
    rw [ih (m := m.popped) h, Machine.discarded_popped]

end Execution
end WordMachine
