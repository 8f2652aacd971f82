import Mathlib.Algebra.Group.Nat.Defs
import WordMachine.Proofs.Machine.Footprint

/-!
# Arithmetic and conditions

Twenty instructions calculate and twelve are conditional jumps.  Both are described here by
numbers and not by words.  A table gives the register that an instruction calculates and the
integer that it calculates for it (`Opcode.calculation?`); sums, differences and products are
those of integers there, and shifts are multiplications by powers of two and divisions by them.
The word that is left in the register is the integer modulo `2 ^ 16`, and it is taken only once,
however far the integer is out of range.  A condition compares numbers too (`Opcode.condition?`).

A shift reads the register that it changes when its operands have been fetched, and has read the
amount before.  That makes no difference if the two are one register, even if it is `ip`: the
amount is the last operand, and nothing has moved since (`Machine.FindsAllAt.held_last`).

Everything is said of the execution of a byte, on whatever machine, and so of a step, which is
the execution of the byte at `ip` if the machine has not halted.

* `Opcode.calculation?`: which register an instruction calculates, and which integer.
* `Opcode.effect_of_calculation?`, `Opcode.effect_of_condition?`: the effects that go with the
  two tables.
* `Opcode.opposites`: the conditional jumps that are taken where another is not.
* `Execution.calculates`: what executing an instruction comes to.
-/

namespace WordMachine

/-! ## Calculations -/

namespace Opcode

/-- An integer made of two operands, for `acc`. -/
def ofBoth (args : List Argument) (f : Nat → Nat → Int) : Option (Register × Int) :=
  match args with
  | [x, y] => some (.acc, f x.value.toNat y.value.toNat)
  | _ => none

/-- An integer made of what a register holds, for that register. -/
def ofHeld (regs : RegisterFile) (args : List Argument) (f : Nat → Int) :
    Option (Register × Int) :=
  match args with
  | [.register r _] => some (r, f (regs.get r).toNat)
  | _ => none

/-- An integer made of what a register holds and of an amount, for that register. -/
def ofHeldBy (regs : RegisterFile) (args : List Argument) (f : Nat → Nat → Int) :
    Option (Register × Int) :=
  match args with
  | [.register r _, amount] => some (r, f (regs.get r).toNat amount.value.toNat)
  | _ => none

/-- The register that an instruction calculates and the integer that it calculates for it, by
its operands and by the registers behind the fetch. -/
def calculation? (regs : RegisterFile) (args : List Argument) :
    Opcode → Option (Register × Int)
  | .addRegReg | .addLitReg => ofBoth args fun a b => a + b
  | .subLitReg | .subRegLit | .subRegReg => ofBoth args fun a b => a - b
  | .mulLitReg | .mulRegReg => ofBoth args fun a b => a * b
  | .andRegLit | .andRegReg => ofBoth args fun a b => (a &&& b : Nat)
  | .orRegLit | .orRegReg => ofBoth args fun a b => (a ||| b : Nat)
  | .xorRegLit | .xorRegReg => ofBoth args fun a b => (a ^^^ b : Nat)
  | .not =>
    match args with
    | [x] => some (.acc, 65535 - x.value.toNat)
    | _ => none
  | .incReg => ofHeld regs args fun v => v + 1
  | .decReg => ofHeld regs args fun v => v - 1
  | .lsfRegLit | .lsfRegReg => ofHeldBy regs args fun v n => (v * 2 ^ n : Nat)
  | .rsfRegLit | .rsfRegReg => ofHeldBy regs args fun v n => (v / 2 ^ n : Nat)
  | _ => none

/-- The instructions that calculate. -/
def calculations : List Opcode :=
  [.addRegReg, .addLitReg, .subLitReg, .subRegLit, .subRegReg, .mulLitReg, .mulRegReg,
    .andRegLit, .andRegReg, .orRegLit, .orRegReg, .xorRegLit, .xorRegReg, .not, .incReg, .decReg,
    .lsfRegLit, .lsfRegReg, .rsfRegLit, .rsfRegReg]

open Effect

section

variable {regs : RegisterFile} {args : List Argument} {r : Register} {n : Int}

theorem arithmetic_eq {f : Word → Word → Word} {g : Nat → Nat → Int}
    (h : ofBoth args g = some (r, n)) (hfg : ∀ v w, f v w = UInt16.ofInt (g v.toNat w.toNat)) :
    arithmetic args f = .assign r (UInt16.ofInt n) := by
  unfold ofBoth at h
  split at h
  · obtain ⟨rfl, rfl⟩ := Prod.mk.inj (Option.some.inj h)
    exact congrArg (Effect.assign .acc) (hfg _ _)
  · exact nomatch h

theorem unary_inPlace_eq {f : Word → Word} {g : Nat → Int}
    (h : ofHeld regs args g = some (r, n)) (hfg : ∀ v, f v = UInt16.ofInt (g v.toNat)) :
    (unary args fun x => inPlace regs x f) = .assign r (UInt16.ofInt n) := by
  unfold ofHeld at h
  split at h
  · obtain ⟨rfl, rfl⟩ := Prod.mk.inj (Option.some.inj h)
    exact congrArg (Effect.assign _) (hfg _)
  · exact nomatch h

theorem binary_inPlace_eq {f : Word → Word → Word} {g : Nat → Nat → Int}
    (h : ofHeldBy regs args g = some (r, n))
    (hfg : ∀ v w, f v w = UInt16.ofInt (g v.toNat w.toNat)) :
    (binary args fun x amount => inPlace regs x (f · amount.value)) =
      .assign r (UInt16.ofInt n) := by
  unfold ofHeldBy at h
  split at h
  · obtain ⟨rfl, rfl⟩ := Prod.mk.inj (Option.some.inj h)
    exact congrArg (Effect.assign _) (hfg _ _)
  · exact nomatch h

/-- **The words are the integers, once reduced.**  An instruction assigns the integer that the
table gives for it to the register that the table gives. -/
theorem effect_of_calculation? {opcode : Opcode}
    (h : opcode.calculation? regs args = some (r, n)) :
    opcode.effect regs args = .assign r (UInt16.ofInt n) := by
  cases opcode <;> dsimp only [calculation?] at h
  case addRegReg | addLitReg =>
    refine arithmetic_eq h fun v w => ?_
    rw [UInt16.ofInt_add, Word.ofInt_toNat, Word.ofInt_toNat]
  case subLitReg | subRegLit | subRegReg =>
    refine arithmetic_eq h fun v w => ?_
    rw [Int.sub_eq_add_neg, UInt16.ofInt_add, UInt16.ofInt_neg, Word.ofInt_toNat,
      Word.ofInt_toNat, UInt16.sub_eq_add_neg]
  case mulLitReg | mulRegReg =>
    refine arithmetic_eq h fun v w => ?_
    rw [UInt16.ofInt_mul, Word.ofInt_toNat, Word.ofInt_toNat]
  case andRegLit | andRegReg =>
    refine arithmetic_eq h fun v w => ?_
    rw [← UInt16.toNat_and, Word.ofInt_toNat]
  case orRegLit | orRegReg =>
    refine arithmetic_eq h fun v w => ?_
    rw [← UInt16.toNat_or, Word.ofInt_toNat]
  case xorRegLit | xorRegReg =>
    refine arithmetic_eq h fun v w => ?_
    rw [← UInt16.toNat_xor, Word.ofInt_toNat]
  case not =>
    split at h
    · rename_i x
      obtain ⟨rfl, rfl⟩ := Prod.mk.inj (Option.some.inj h)
      -- no word is above `65535`, so the difference is a word already
      have hlt := x.value.toNat_lt
      have hnot : ((~~~ x.value).toNat : Int) = 65535 - x.value.toNat := by
        rw [UInt16.toNat_not, show UInt16.size = 65536 from rfl]
        omega
      rw [← hnot, Word.ofInt_toNat]
      rfl
    · exact nomatch h
  case lsfRegLit | lsfRegReg =>
    refine binary_inPlace_eq h fun v w => ?_
    rw [Word.ofInt_natCast, ← UInt16.toNat_inj, Word.toNat_shiftLeft, Nat.shiftLeft_eq,
      UInt16.toNat_ofNat']
  case rsfRegLit | rsfRegReg =>
    refine binary_inPlace_eq h fun v w => ?_
    rw [← Nat.shiftRight_eq_div_pow, ← Word.toNat_shiftRight, Word.ofInt_toNat]
  case incReg =>
    refine unary_inPlace_eq h fun v => ?_
    rw [UInt16.ofInt_add, Word.ofInt_toNat]
    rfl
  case decReg =>
    refine unary_inPlace_eq h fun v => ?_
    rw [Int.sub_eq_add_neg, UInt16.ofInt_add, Word.ofInt_toNat, UInt16.sub_eq_add_neg]
    rfl
  all_goals exact nomatch h

end

end Opcode

/-! ## Conditions -/

namespace Effect

/-- The effect is a jump if the condition holds, and nothing otherwise. -/
def JumpsIf (condition : Prop) (target : Word) (e : Effect) : Prop :=
  (condition → e = .jump target) ∧ (¬ condition → e = .nothing)

theorem jumpsIf_branch {holds : Word → Word → Bool} {rel : Nat → Nat → Prop}
    (hrel : ∀ v w, holds v w = true ↔ rel v.toNat w.toNat) (regs : RegisterFile)
    (x target : Argument) :
    (branch regs [x, target] holds).JumpsIf (rel x.value.toNat (regs.get .acc).toNat)
      target.value := by
  rw [← hrel]
  exact ⟨fun h => if_pos h, fun h => if_neg h⟩

end Effect

namespace Opcode

/-- The conditional jumps that are taken, with the same word on the left, where the given one is
not. -/
def opposites : Opcode → List Opcode
  | .jeqReg | .jeqLit => [.jneReg, .jneLit]
  | .jltReg | .jltLit => [.jgeReg, .jgeLit]
  | .jgtReg | .jgtLit => [.jleReg, .jleLit]
  | _ => []

/-- A conditional jump jumps if its condition holds, and otherwise it does nothing. -/
theorem effect_of_condition? {opcode : Opcode} {rel : Nat → Nat → Prop}
    (h : opcode.condition? = some rel) (regs : RegisterFile) (x target : Argument) :
    (opcode.effect regs [x, target]).JumpsIf (rel x.value.toNat (regs.get .acc).toNat)
      target.value := by
  cases opcode
  case jeqReg | jeqLit =>
    obtain rfl := Option.some.inj h
    have hrel (v w : Word) : (v == w) = true ↔ v.toNat = w.toNat :=
      beq_iff_eq.trans UInt16.toNat_inj.symm
    exact Effect.jumpsIf_branch hrel regs x target
  case jneReg | jneLit =>
    obtain rfl := Option.some.inj h
    have hrel (v w : Word) : (v != w) = true ↔ v.toNat ≠ w.toNat :=
      bne_iff_ne.trans (not_congr UInt16.toNat_inj.symm)
    exact Effect.jumpsIf_branch hrel regs x target
  case jltReg | jltLit =>
    obtain rfl := Option.some.inj h
    have hrel (v w : Word) : decide (v < w) = true ↔ v.toNat < w.toNat :=
      decide_eq_true_iff.trans UInt16.lt_iff_toNat_lt
    exact Effect.jumpsIf_branch hrel regs x target
  case jgtReg | jgtLit =>
    obtain rfl := Option.some.inj h
    have hrel (v w : Word) : decide (w < v) = true ↔ v.toNat > w.toNat :=
      decide_eq_true_iff.trans UInt16.lt_iff_toNat_lt
    exact Effect.jumpsIf_branch hrel regs x target
  case jleReg | jleLit =>
    obtain rfl := Option.some.inj h
    have hrel (v w : Word) : decide (v ≤ w) = true ↔ v.toNat ≤ w.toNat :=
      decide_eq_true_iff.trans UInt16.le_iff_toNat_le
    exact Effect.jumpsIf_branch hrel regs x target
  case jgeReg | jgeLit =>
    obtain rfl := Option.some.inj h
    have hrel (v w : Word) : decide (w ≤ v) = true ↔ v.toNat ≥ w.toNat :=
      decide_eq_true_iff.trans UInt16.le_iff_toNat_le
    exact Effect.jumpsIf_branch hrel regs x target
  all_goals exact nomatch h

theorem takes_iff {opcode : Opcode} {rel : Nat → Nat → Prop} (h : opcode.condition? = some rel)
    {acc : Word} {x target : Argument} :
    opcode.Takes acc [x, target] ↔ rel x.value.toNat acc.toNat := by
  constructor
  · rintro ⟨rel', x', target', hrel', hargs, hholds⟩
    obtain rfl := Option.some.inj (h.symm.trans hrel')
    obtain ⟨rfl, -⟩ := List.cons.inj hargs
    exact hholds
  · exact fun hholds => ⟨rel, x, target, h, rfl, hholds⟩

/-- Opposite jumps have opposite conditions. -/
theorem condition?_of_mem_opposites {opcode other : Opcode} (h : other ∈ opcode.opposites) :
    ∃ rel rel', opcode.condition? = some rel ∧ other.condition? = some rel' ∧
      ∀ a b, rel a b ↔ ¬ rel' a b := by
  cases opcode
  case jeqReg | jeqLit =>
    obtain rfl | rfl : other = .jneReg ∨ other = .jneLit := by simpa [opposites] using h
    all_goals exact ⟨_, _, rfl, rfl, fun a b => Classical.not_not.symm⟩
  case jltReg | jltLit =>
    obtain rfl | rfl : other = .jgeReg ∨ other = .jgeLit := by simpa [opposites] using h
    all_goals exact ⟨_, _, rfl, rfl, fun a b => Nat.not_le.symm⟩
  case jgtReg | jgtLit =>
    obtain rfl | rfl : other = .jleReg ∨ other = .jleLit := by simpa [opposites] using h
    all_goals exact ⟨_, _, rfl, rfl, fun a b => Nat.not_le.symm⟩
  all_goals exact absurd h List.not_mem_nil

/-- Of two opposite jumps with the same word on the left exactly one is taken. -/
theorem takes_iff_of_mem_opposites {opcode other : Opcode} (h : other ∈ opcode.opposites)
    {acc : Word} {x y target target' : Argument} (hxy : y.value = x.value) :
    opcode.Takes acc [x, target] ↔ ¬ other.Takes acc [y, target'] := by
  obtain ⟨rel, rel', hrel, hrel', hnot⟩ := condition?_of_mem_opposites h
  rw [takes_iff hrel, takes_iff hrel', hxy]
  exact hnot _ _

end Opcode

/-! ## Operands -/

namespace Machine

variable {m : Machine} {a : Word} {args : List Argument}

theorem FindsAllAt.exists_one {kind : Kind} (h : m.FindsAllAt a [kind] args) :
    ∃ x, args = [x] ∧ m.FindsAt a kind x := by
  match args, h with
  | [x], h => exact ⟨x, rfl, h.1⟩

theorem FindsAllAt.exists_two {kind kind' : Kind} (h : m.FindsAllAt a [kind, kind'] args) :
    ∃ x y, args = [x, y] ∧ m.FindsAt a kind x := by
  match args, h with
  | [x, y], h => exact ⟨x, y, rfl, h.1⟩

theorem FindsAt.exists_register {x : Argument} (h : m.FindsAt a .register x) :
    ∃ r held, x = .register r held := by
  cases x with
  | literal w => exact h.elim
  | register r held => exact ⟨r, held, rfl⟩

/-- A register that is the last operand has been read as it is behind the operands. -/
theorem FindsAllAt.held_last {kinds : List Kind} (h : m.FindsAllAt a kinds args) {r : Register}
    {held : Word} (hlast : args.getLast? = some (.register r held)) :
    held = (m.moveTo (a + UInt16.ofNat (Kind.totalWidth kinds))).registers.get r := by
  induction kinds generalizing a args with
  | nil =>
    cases args with
    | nil => exact nomatch hlast
    | cons x args => exact h.elim
  | cons kind kinds ih =>
    cases args with
    | nil => exact h.elim
    | cons x args =>
      obtain ⟨hx, hargs⟩ := h
      cases args with
      | nil =>
        obtain rfl : x = .register r held := Option.some.inj hlast
        obtain rfl : kinds = [] := by
          cases kinds with
          | nil => rfl
          | cons => exact hargs.elim
        cases kind with
        | literal | address | literal8 => exact hx.elim
        | register | pointer =>
          obtain ⟨b, -, -, hheld⟩ := hx
          exact hheld.trans (RegisterFile.get_set m.registers .ip r (a + 1)).symm
      | cons y args =>
        rw [List.getLast?_cons_cons] at hlast
        rw [ih hargs hlast, add_ofNat_add_ofNat]
        rfl

/-- The operands of an instruction that calculates are such that the table has an entry. -/
theorem FindsAllAt.exists_calculation? {opcode : Opcode}
    (h : m.FindsAllAt a opcode.format.operands args) (hop : opcode ∈ Opcode.calculations)
    (regs : RegisterFile) : ∃ r n, opcode.calculation? regs args = some (r, n) := by
  cases opcode
  case addRegReg | addLitReg | subLitReg | subRegLit | subRegReg | mulLitReg | mulRegReg
      | andRegLit | andRegReg | orRegLit | orRegReg | xorRegLit | xorRegReg =>
    obtain ⟨x, y, rfl, -⟩ := h.exists_two
    exact ⟨_, _, rfl⟩
  case not =>
    obtain ⟨x, rfl, -⟩ := h.exists_one
    exact ⟨_, _, rfl⟩
  case lsfRegLit | lsfRegReg | rsfRegLit | rsfRegReg =>
    obtain ⟨x, y, rfl, hx⟩ := h.exists_two
    obtain ⟨r, held, rfl⟩ := hx.exists_register
    exact ⟨_, _, rfl⟩
  case incReg | decReg =>
    obtain ⟨x, rfl, hx⟩ := h.exists_one
    obtain ⟨r, held, rfl⟩ := hx.exists_register
    exact ⟨_, _, rfl⟩
  all_goals exact absurd hop (by decide)

/-- A conditional jump has two operands. -/
theorem FindsAllAt.exists_of_condition? {opcode : Opcode} {rel : Nat → Nat → Prop}
    (h : m.FindsAllAt a opcode.format.operands args) (hop : opcode.condition? = some rel) :
    ∃ x target, args = [x, target] := by
  cases opcode
  case jeqReg | jeqLit | jneReg | jneLit | jltReg | jltLit | jgtReg | jgtLit | jleReg | jleLit
      | jgeReg | jgeLit =>
    obtain ⟨x, target, rfl, -⟩ := h.exists_two
    exact ⟨x, target, rfl⟩
  all_goals exact nomatch hop

/-! ## Execution -/

/-- An instruction with the given operands, fetched from `m` and executed on `next`, calculates
and jumps as the tables say. -/
structure Calculates (m : Machine) (opcode : Opcode) (args : List Argument) (next : Machine)
    (result : EStateM.Result MemoryError Machine Bool) : Prop where
  /-- The operands are those that stand at `ip`. -/
  operands : m.FindsAllAt (m.registers.get .ip) opcode.format.operands args
  /-- Fetching them has moved `ip` behind them and has changed nothing else. -/
  fetched : (m.moveTo (m.registers.get .ip +
    UInt16.ofNat (Kind.totalWidth opcode.format.operands))).Agrees next
  /-- A register that is the last operand is what the register holds now, so that a register
  that is shifted by itself is shifted by what it holds. -/
  held_last : ∀ r held, args.getLast? = some (.register r held) → held = next.registers.get r
  /-- An instruction that calculates leaves its integer modulo `2 ^ 16` in its register, and
  does nothing else. -/
  calculation : opcode ∈ Opcode.calculations →
    ∃ r n w, opcode.calculation? next.registers args = some (r, n) ∧
      (w.toNat : Int) = n % 65536 ∧
      result = .ok false { next with registers := next.registers.set r w }
  /-- A conditional jump sets `ip` to its target if the operand on the left is to `acc` as its
  condition says.  It does nothing otherwise. -/
  condition : ∀ rel, opcode.condition? = some rel → ∃ x target, args = [x, target] ∧
    (rel x.value.toNat (m.registers.get .acc).toNat →
      result = .ok false (next.moveTo target.value)) ∧
    (¬ rel x.value.toNat (m.registers.get .acc).toNat → result = .ok false next)
  /-- With the same operand on the left and the same word in `acc`, the opposite jump is not
  taken exactly if this one is. -/
  opposite : ∀ other ∈ opcode.opposites, ∀ x target y target', args = [x, target] →
    y.value = x.value → (opcode.Takes (m.registers.get .acc) args ↔
      ¬ other.Takes (m.registers.get .acc) [y, target'])
  /-- This is also what a step comes to that has found the instruction. -/
  step : ∀ before : Machine, before.isHalted = false →
    Execution.fetch8 before = .ok opcode.byte m → Execution.step before = result

end Machine

namespace Execution

open Machine

variable {m next : Machine} {opcode : Opcode} {args : List Argument}

/-- An effect that is carried out, and is not to halt, lets the machine go on. -/
theorem execute_of_perform (h : fetchArguments opcode.format.operands m = .ok args next)
    {e : Effect} (he : opcode.effect next.registers args = e) (hne : e ≠ .halt) {m' : Machine}
    (hperform : e.perform next = .ok () m') : execute opcode.byte m = .ok false m' := by
  have hhlt : (opcode == .hlt) = false := by
    rw [beq_eq_false_iff_ne, Ne, ← Opcode.effect_eq_halt_iff, he]
    exact hne
  rw [execute_of_fetchArguments h, he, bind_apply, hperform, hhlt]
  rfl

/-- The machine on which an effect is carried out differs from the one that starts to fetch in
`ip` alone. -/
theorem fetchArguments_eq_ok {kinds : List Kind} (h : fetchArguments kinds m = .ok args next) :
    m.FindsAllAt (m.registers.get .ip) kinds args ∧
      (m.moveTo (m.registers.get .ip + UInt16.ofNat (Kind.totalWidth kinds))).Agrees next := by
  rcases fetchArguments_cases m kinds with
    ⟨args', hargs, hfetch⟩ | ⟨i, -, args', -, -, hfetch⟩
  · rw [h] at hfetch
    obtain ⟨rfl, rfl⟩ := EStateM.Result.ok.inj hfetch
    exact ⟨hargs, rfl, m.agrees_readUpTo _ _, rfl, rfl⟩
  · rw [h] at hfetch
    exact nomatch hfetch

/-- **Arithmetic is exact, and so are conditions.**  Whatever the state of the machine and
whatever the operands are that have been fetched, an instruction that calculates leaves the
integer of the table, modulo `2 ^ 16`, in the register of the table, and a conditional jump is
taken exactly if its condition holds. -/
theorem calculates (h : fetchArguments opcode.format.operands m = .ok args next) :
    m.Calculates opcode args next (execute opcode.byte m) := by
  obtain ⟨hargs, hagrees⟩ := fetchArguments_eq_ok h
  have hacc : next.registers.get .acc = m.registers.get .acc := by
    rw [hagrees.registers]
    exact m.get_moveTo_of_ne _ (by decide)
  constructor
  case operands => exact hargs
  case fetched => exact hagrees
  case held_last =>
    intro r held hlast
    rw [hagrees.registers]
    exact hargs.held_last hlast
  case calculation =>
    intro hop
    obtain ⟨r, n, hrn⟩ := hargs.exists_calculation? hop next.registers
    refine ⟨r, n, UInt16.ofInt n, hrn, Word.toNat_ofInt n, ?_⟩
    exact execute_of_perform h (Opcode.effect_of_calculation? hrn) nofun rfl
  case condition =>
    intro rel hrel
    obtain ⟨x, target, rfl⟩ := hargs.exists_of_condition? hrel
    obtain ⟨hjump, hnothing⟩ := Opcode.effect_of_condition? hrel next.registers x target
    rw [hacc] at hjump hnothing
    exact ⟨x, target, rfl, fun hholds => execute_of_perform h (hjump hholds) nofun rfl,
      fun hnot => execute_of_perform h (hnothing hnot) nofun rfl⟩
  case opposite =>
    rintro other hother x target y target' rfl hxy
    exact Opcode.takes_iff_of_mem_opposites hother hxy
  case step =>
    intro before hrun hfetch
    rw [step_of_running hrun, bind_apply, hfetch]

/-- A machine about to fetch the operands of a shift of `r1` by itself. -/
def shiftByItself : Machine :=
  { registers := (RegisterFile.zero.set .ip 1).set .r1 5
    memory := (AddressSpace.empty.map (.newRom [0x29, 0x02, 0x02]) 0 3 true).2
    frameSize := 0
    isHalted := false }

/-- What `r1` holds is both what is shifted and by how much. -/
theorem calculates_shift_by_itself :
    ∃ next m', fetchArguments Opcode.lsfRegReg.format.operands shiftByItself =
        .ok [.register .r1 5, .register .r1 5] next ∧
      shiftByItself.Calculates .lsfRegReg [.register .r1 5, .register .r1 5] next
        (.ok false m') ∧
      m'.registers.get .r1 = 160 := by
  have hfetch : fetchArguments Opcode.lsfRegReg.format.operands shiftByItself =
      .ok [.register .r1 5, .register .r1 5] _ := rfl
  exact ⟨_, _, hfetch, calculates hfetch, rfl⟩

end Execution

end WordMachine
