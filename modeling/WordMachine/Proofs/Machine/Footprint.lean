import WordMachine.Proofs.Machine.Fetch
import WordMachine.Proofs.Machine.Reach

/-!
# The footprint of an instruction

What an instruction may touch can be told from its opcode, from its operands and from `sp`.
Arithmetic leaves its result in `acc`, whatever its operands are; a shift, an increment and a
decrement leave theirs in the register they have found it in; a move, a load and a pop name
the register in their last operand.  Six instructions store, at the address in their last
operand.  Pushes, pops, calls and returns keep the stack, which is a matter of `sp` and the
counter, and for calls and returns of the registers that a frame saves as well.

These are tables of their own here (`Opcode.result?`, `Opcode.store?`, `Opcode.pushes`,
`Opcode.stackRegisters`, `Opcode.condition?`), written down without a look at
`Opcode.effect`.  One lemma compares the two (`Opcode.suits_effect`), and is the only place
where the instructions are gone through one by one.

* `Machine.StaysWithin`: a machine has changed within a footprint.
* `Machine.stays_within_footprint`: a step that succeeds stays within the footprint of the
  instruction that it has found, and a byte that means no instruction has none.
-/

namespace WordMachine

/-! ## Tables -/

/-- The register that an operand names. -/
def Argument.register? : Argument → Option Register
  | .register r _ => some r
  | .literal _ => none

namespace Opcode

/-- The register in which an instruction leaves a result. -/
def result? (args : List Argument) : Opcode → Option Register
  | .addRegReg | .addLitReg | .subLitReg | .subRegLit | .subRegReg | .mulLitReg | .mulRegReg
    | .andRegLit | .andRegReg | .orRegLit | .orRegReg | .xorRegLit | .xorRegReg | .not =>
    some .acc
  | .movLitReg | .movRegReg | .movMemReg | .movRegPtrReg | .movLitOffReg | .mov8LitReg
    | .mov8MemReg | .mov8RegPtrReg | .pop => args.getLast?.bind Argument.register?
  | .lsfRegLit | .lsfRegReg | .rsfRegLit | .rsfRegReg | .incReg | .decReg =>
    args.head?.bind Argument.register?
  | _ => none

/-- Where an instruction stores, and how wide. -/
def store? (args : List Argument) : Opcode → Option (Width × Word)
  | .movRegMem | .movLitMem | .movRegRegPtr => args.getLast?.map fun x => (.word, x.value)
  | .mov8LitMem | .movlRegMem | .movhRegMem => args.getLast?.map fun x => (.byte, x.value)
  | _ => none

/-- How many words an instruction pushes. -/
def pushes : Opcode → Nat
  | .pshLit | .pshReg => 1
  | .calLit | .calReg => 10
  | _ => 0

/-- The registers that an instruction sets to keep the stack. -/
def stackRegisters : Opcode → List Register
  | .pshLit | .pshReg | .pop => [.sp]
  | .calLit | .calReg => [.sp, .fp]
  | .ret => .sp :: .fp :: Register.general
  | _ => []

/-- How a conditional jump compares its operand, on the left, with `acc`. -/
def condition? : Opcode → Option (Nat → Nat → Prop)
  | .jeqReg | .jeqLit => some (· = ·)
  | .jneReg | .jneLit => some (· ≠ ·)
  | .jltReg | .jltLit => some (· < ·)
  | .jgtReg | .jgtLit => some (· > ·)
  | .jleReg | .jleLit => some (· ≤ ·)
  | .jgeReg | .jgeLit => some (· ≥ ·)
  | _ => none

/-- The instruction is a conditional jump, and its condition holds. -/
def Takes (acc : Word) (args : List Argument) (opcode : Opcode) : Prop :=
  ∃ holds x target, opcode.condition? = some holds ∧ args = [x, target] ∧
    holds x.value.toNat acc.toNat

end Opcode

/-- What an instruction may touch besides `ip`. -/
structure Footprint where
  registers : List Register
  /-- The writes it may make. -/
  writes : List (Width × Word)
  /-- The frame counter may move. -/
  movesCounter : Bool

/-- Nothing besides `ip`. -/
def Footprint.none : Footprint := ⟨[], [], false⟩

/-- What an instruction may touch, with the given operands and the stack at `sp`. -/
def Opcode.footprint (sp : Word) (args : List Argument) (opcode : Opcode) : Footprint where
  registers := (opcode.result? args).toList ++ opcode.stackRegisters
  writes := (opcode.store? args).toList ++ Machine.pushWrites sp opcode.pushes
  movesCounter := !opcode.stackRegisters.isEmpty

/-! ## The tables and the effects -/

namespace Effect

/-- The effect is one that the tables foresee for an instruction. -/
def Suits (acc : Word) (opcode : Opcode) (args : List Argument) : Effect → Prop
  | .nothing => True
  | .halt => opcode = .hlt
  | .jump _ => opcode = .jmpAddr ∨ opcode.Takes acc args
  | .assign r _ | .load8 r _ | .load16 r _ => opcode.result? args = some r
  | .store8 a _ => opcode.store? args = some (.byte, a)
  | .store16 a _ => opcode.store? args = some (.word, a)
  | .push _ => opcode = .pshLit ∨ opcode = .pshReg
  | .pop r => opcode = .pop ∧ opcode.result? args = some r
  | .call _ => opcode = .calLit ∨ opcode = .calReg
  | .ret => opcode = .ret

section

variable {P : Effect → Prop} (hnothing : P .nothing) {args : List Argument}
include hnothing

theorem into_of {x : Argument} {effect : Register → Effect}
    (h : ∀ r, x.register? = some r → P (effect r)) : P (x.into effect) := by
  cases x with
  | literal w => exact hnothing
  | register r held => exact h r rfl

theorem unary_of {effect : Argument → Effect} (h : ∀ x, args = [x] → P (effect x)) :
    P (unary args effect) := by
  unfold unary
  split
  · exact h _ rfl
  · exact hnothing

theorem binary_of {effect : Argument → Argument → Effect}
    (h : ∀ x y, args = [x, y] → P (effect x y)) : P (binary args effect) := by
  unfold binary
  split
  · exact h _ _ rfl
  · exact hnothing

theorem ternary_of {effect : Argument → Argument → Argument → Effect}
    (h : ∀ x y z, args = [x, y, z] → P (effect x y z)) : P (ternary args effect) := by
  unfold ternary
  split
  · exact h _ _ _ rfl
  · exact hnothing

end

variable {acc : Word} {opcode : Opcode} {args : List Argument}

theorem suits_arithmetic (h : opcode.result? args = some .acc) (f : Word → Word → Word) :
    (arithmetic args f).Suits acc opcode args :=
  binary_of trivial fun _ _ _ => h

/-- A conditional jump jumps if its condition holds. -/
theorem suits_branch {regs : RegisterFile} {holds : Word → Word → Bool} {rel : Nat → Nat → Prop}
    (hop : opcode.condition? = some rel)
    (hrel : ∀ v w, holds v w = true → rel v.toNat w.toNat) :
    (branch regs args holds).Suits (regs.get .acc) opcode args := by
  refine binary_of trivial fun x target hargs => ?_
  split
  · rename_i h
    exact Or.inr ⟨rel, x, target, hop, hargs, hrel _ _ h⟩
  · trivial

end Effect

namespace Opcode

open Effect

/-- The effect of every instruction is one that the tables foresee. -/
theorem suits_effect (regs : RegisterFile) (args : List Argument) (opcode : Opcode) :
    (opcode.effect regs args).Suits (regs.get .acc) opcode args := by
  cases opcode
  case movLitReg | movRegReg | mov8LitReg | movMemReg | movRegPtrReg | mov8MemReg
      | mov8RegPtrReg =>
    refine binary_of trivial fun x target hargs => into_of trivial fun r hr => ?_
    rw [hargs]
    exact hr
  case movLitOffReg =>
    refine ternary_of trivial fun offset base target hargs => into_of trivial fun r hr => ?_
    rw [hargs]
    exact hr
  case movRegMem | movLitMem | movRegRegPtr | mov8LitMem | movlRegMem | movhRegMem =>
    refine binary_of trivial fun x target hargs => ?_
    rw [hargs]
    rfl
  case addRegReg | addLitReg | subLitReg | subRegLit | subRegReg | mulLitReg | mulRegReg
      | andRegLit | andRegReg | orRegLit | orRegReg | xorRegLit | xorRegReg =>
    exact suits_arithmetic rfl _
  case not => exact unary_of trivial fun _ _ => rfl
  case lsfRegLit | lsfRegReg | rsfRegLit | rsfRegReg =>
    refine binary_of trivial fun x amount hargs => into_of trivial fun r hr => ?_
    rw [hargs]
    exact hr
  case incReg | decReg =>
    refine unary_of trivial fun x hargs => into_of trivial fun r hr => ?_
    rw [hargs]
    exact hr
  case pshLit | calLit | jmpAddr => exact unary_of trivial fun _ _ => Or.inl rfl
  case pshReg | calReg => exact unary_of trivial fun _ _ => Or.inr rfl
  case pop =>
    refine unary_of trivial fun x hargs => into_of trivial fun r hr => ⟨rfl, ?_⟩
    rw [hargs]
    exact hr
  case ret | hlt => rfl
  case jeqReg | jeqLit =>
    refine suits_branch rfl fun v w h => ?_
    exact UInt16.toNat_inj.mpr (eq_of_beq h)
  case jneReg | jneLit =>
    refine suits_branch rfl fun v w h => ?_
    exact fun e => bne_iff_ne.mp h (UInt16.toNat_inj.mp e)
  case jltReg | jltLit =>
    show (branch regs args fun l a => decide (l < a)).Suits _ _ _
    exact suits_branch rfl fun v w h => UInt16.lt_iff_toNat_lt.mp (of_decide_eq_true h)
  case jgtReg | jgtLit =>
    show (branch regs args fun l a => decide (a < l)).Suits _ _ _
    exact suits_branch rfl fun v w h => UInt16.lt_iff_toNat_lt.mp (of_decide_eq_true h)
  case jleReg | jleLit =>
    show (branch regs args fun l a => decide (l ≤ a)).Suits _ _ _
    exact suits_branch rfl fun v w h => UInt16.le_iff_toNat_le.mp (of_decide_eq_true h)
  case jgeReg | jgeLit =>
    show (branch regs args fun l a => decide (a ≤ l)).Suits _ _ _
    exact suits_branch rfl fun v w h => UInt16.le_iff_toNat_le.mp (of_decide_eq_true h)

end Opcode

/-! ## Staying within a footprint -/

namespace Effect

variable {acc sp : Word} {opcode : Opcode} {args : List Argument} {e : Effect}

theorem Suits.sets (h : e.Suits acc opcode args) :
    ∀ r ∈ e.sets, r = .ip ∨ r ∈ (opcode.footprint sp args).registers := by
  have hresult {q r : Register} (hq : opcode.result? args = some q) (hr : r ∈ [q]) :
      r = .ip ∨ r ∈ (opcode.footprint sp args).registers := by
    refine Or.inr (List.mem_append_left _ ?_)
    rw [hq]
    exact hr
  intro r hr
  cases e with
  | nothing | halt | store8 | store16 => exact absurd hr List.not_mem_nil
  | jump target => exact Or.inl (List.mem_singleton.mp hr)
  | assign q | load8 q | load16 q => exact hresult h hr
  | push w =>
    refine Or.inr (List.mem_append_right _ ?_)
    rcases h with rfl | rfl <;> exact hr
  | pop q =>
    obtain ⟨rfl, hq⟩ := h
    rcases List.mem_cons.mp hr with rfl | hr
    · exact Or.inr (List.mem_append_right _ List.mem_cons_self)
    · exact hresult hq hr
  | call target =>
    refine (List.mem_cons.mp hr).imp_right fun hr => List.mem_append_right _ ?_
    rcases h with rfl | rfl <;> exact hr
  | ret =>
    obtain rfl : opcode = .ret := h
    exact (List.mem_cons.mp hr).imp_right fun hr => List.mem_append_right _ hr

theorem Suits.writes (h : e.Suits acc opcode args) :
    e.writes sp ⊆ (opcode.footprint sp args).writes := by
  have hstore {w : Width × Word} (hw : opcode.store? args = some w) :
      [w] ⊆ (opcode.footprint sp args).writes := by
    refine List.subset_append_of_subset_left _ ?_
    rw [hw]
    exact fun _ => id
  cases e with
  | store8 | store16 => exact hstore h
  | push w =>
    refine List.subset_append_of_subset_right _ ?_
    rcases h with rfl | rfl <;> exact fun _ => id
  | call target =>
    refine List.subset_append_of_subset_right _ ?_
    rcases h with rfl | rfl <;> exact fun _ => id
  | _ => exact List.nil_subset _

theorem Suits.movesCounter (h : e.Suits acc opcode args) (hstack : e.UsesStack) :
    (opcode.footprint sp args).movesCounter = true := by
  cases e with
  | push w => rcases h with rfl | rfl <;> rfl
  | pop r =>
    obtain ⟨rfl, -⟩ := h
    rfl
  | call target => rcases h with rfl | rfl <;> rfl
  | ret =>
    obtain rfl : opcode = .ret := h
    rfl
  | _ => exact hstack.elim

end Effect

namespace Opcode

/-- The instructions that write to memory. -/
def writers : List Opcode :=
  [.movRegMem, .movLitMem, .movRegRegPtr, .mov8LitMem, .movlRegMem, .movhRegMem, .pshLit,
    .pshReg, .calLit, .calReg]

theorem writes_footprint {opcode : Opcode} (h : opcode ∉ writers) (sp : Word)
    (args : List Argument) : (opcode.footprint sp args).writes = [] := by
  cases opcode <;> first | rfl | exact absurd (by decide) h

/-- The instruction that halts is the one whose effect is to halt. -/
theorem effect_eq_halt_iff {regs : RegisterFile} {args : List Argument} {opcode : Opcode} :
    opcode.effect regs args = .halt ↔ opcode = .hlt := by
  constructor
  · intro h
    have hsuits := suits_effect regs args opcode
    rw [h] at hsuits
    exact hsuits
  · rintro rfl
    rfl

end Opcode

namespace Machine

/-- The machine has changed within a footprint.  Nothing is said of `ip`. -/
structure StaysWithin (m : Machine) (f : Footprint) (m' : Machine) : Prop where
  registers : ∀ r, r ≠ .ip → r ∉ f.registers → m'.registers.get r = m.registers.get r
  contents : m.memory.ChangesOnly f.writes m'.memory
  counter : f.movesCounter = false → m'.frameSize = m.frameSize

/-- A machine that has only read has changed within any footprint. -/
theorem staysWithin_readUpTo (m : Machine) (reads : List (Width × Word)) (a : Word) :
    m.StaysWithin .none (m.readUpTo reads a) where
  registers _ hr _ := m.get_readUpTo_of_ne reads a hr
  contents := (m.agrees_readUpTo reads a).changesOnly
  counter _ := rfl

/-- A step that succeeds touches nothing outside the footprint of the instruction that stands
at `ip`, and nothing at all but `ip` if none stands there.  It halts the machine exactly if
the instruction is the one that halts, and answers whether it is. -/
theorem stays_within_footprint {m m' : Machine} {halted : Bool} (hrun : m.isHalted = false)
    (hstep : Execution.step m = .ok halted m') :
    (∃ b, m.memory.peek8 (m.registers.get .ip) = .ok b ∧ Opcode.ofByte? b = none ∧
      m.StaysWithin .none m' ∧ m'.memory.regions = m.memory.regions ∧
      m'.isHalted = false ∧ halted = false) ∨
      ∃ opcode args, m.Finds opcode args ∧
        m.StaysWithin (opcode.footprint (m.registers.get .sp) args) m' ∧
        (opcode ∉ Opcode.writers → m'.memory.regions = m.memory.regions) ∧
        (m'.isHalted = true ↔ opcode = .hlt) ∧ (halted = true ↔ opcode = .hlt) := by
  rcases executed_of_step hrun hstep with
    ⟨b, hb, hnone, rfl, rfl⟩ | ⟨opcode, args, hfinds, -, rfl, hperform⟩
  · exact .inl ⟨b, hb, hnone, m.staysWithin_readUpTo _ _,
      (m.agrees_readUpTo _ _).regions, hrun, rfl⟩
  · have hsuits := Opcode.suits_effect (m.fetched opcode).registers args opcode
    have hsettles := Effect.settles_perform
      (opcode.effect (m.fetched opcode).registers args) (m.fetched opcode)
    rw [hperform] at hsettles
    have htouches : Effect.Touches (m.fetched opcode) _ m' := hsettles
    have hsp : (m.fetched opcode).registers.get .sp = m.registers.get .sp :=
      m.get_fetched_of_ne opcode (by decide)
    have hcontents : m.memory.ChangesOnly
        (opcode.footprint (m.registers.get .sp) args).writes m'.memory := by
      have hboth := (m.agrees_fetched opcode).changesOnly.trans htouches.memory
      rw [hsp] at hboth
      exact hboth.mono hsuits.writes
    refine .inr ⟨opcode, args, hfinds, ⟨?_, hcontents, ?_⟩, ?_, ?_, beq_iff_eq⟩
    · intro r hip hr
      rw [htouches.registers r fun hmem => (hsuits.sets r hmem).elim hip hr]
      exact m.get_fetched_of_ne opcode hip
    · intro hcounter
      refine htouches.frameSize fun hstack => ?_
      rw [hsuits.movesCounter hstack] at hcounter
      exact Bool.noConfusion hcounter
    · intro hwriter
      rw [Opcode.writes_footprint hwriter] at hcontents
      exact hcontents.regions_eq
    · have hrun' : ¬ (m.fetched opcode).isHalted = true := by
        rw [show (m.fetched opcode).isHalted = m.isHalted from rfl, hrun]
        decide
      rw [htouches.isHalted, Opcode.effect_eq_halt_iff]
      exact or_iff_right hrun'

/-- A machine whose code is in a ROM and whose stack is the second of two banks of four bytes.
The next word to be pushed lies on the last byte of the bank and on its first. -/
def bankedStack : Machine :=
  let code := (AddressSpace.empty.map (.newRom [0x37, 0xAB, 0xCD]) 0 0x100 false).2
  let memory := (code.map (.newBank 2 4 "stack") 0x100 4 true).2
  { registers := RegisterFile.zero.set .sp 0x103
    memory := { memory with panel := memory.panel.select "stack" 1 }
    frameSize := 0
    isHalted := false }

/-- The push of a literal touches `sp`, the counter and the word at `sp`. -/
theorem stays_within_footprint_on_banked_stack :
    ∃ m', Execution.step bankedStack = .ok false m' ∧ m'.isHalted = false ∧
      bankedStack.StaysWithin ⟨[.sp], [(.word, 0x103)], true⟩ m' := by
  have hfinds : bankedStack.Finds .pshLit [.literal 0xABCD] := ⟨rfl, rfl, trivial⟩
  have hstep : Execution.step bankedStack = .ok false _ := rfl
  refine ⟨_, hstep, ?_⟩
  rcases stays_within_footprint rfl hstep with
    ⟨b, hb, hnone, -⟩ | ⟨opcode, args, hfinds', hwithin, -, -, -⟩
  · rw [hfinds.ofByte? hb] at hnone
    exact nomatch hnone
  · obtain ⟨rfl, rfl⟩ := hfinds.unique hfinds'
    exact ⟨rfl, hwithin⟩

end Machine
end WordMachine
