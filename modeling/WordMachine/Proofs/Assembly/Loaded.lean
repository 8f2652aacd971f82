import WordMachine.Proofs.Assembly.Layout
import WordMachine.Proofs.Machine.Decode

/-!
# What is assembled is what is decoded

Four parts of the library speak of where things stand: layout, encoding, loading and the
fetch of the machine.  When a module has been loaded into a flat memory, at the place it
was assembled for, all four agree.  A machine that arrives at an instruction fetches that
instruction and the values of its operands; a label is the address of what follows it; and
a data block has each of its values at its own address.

The argument goes by pieces.  The code is one piece for each statement, piece `i` starts at
`startOf origin parts i`, and memory holds it there, since it holds the whole.  From there on
a statement is on its own: what a fetch finds in a piece depends on the piece only.

* `Operand.Denotes`: which fetched operand an operand in source stands for.
* `Execution.denotes_argumentsAt`: a fetch over encoded operands finds what they stand for.
* `Module.Installed`: the agreement of memory and module, statement by statement.
* `Module.installed_of_load`: it holds once the module is loaded.
-/

namespace WordMachine

/-! ## Operands -/

/-- At a position of the given kind the operand stands for the given fetched operand: a
register for the register with its slot, an expression for its value, of which a narrow
position keeps the low byte. -/
def Operand.Denotes (scope : Scope) : Kind → Operand → Argument → Prop
  | .register, .register slot, .register r _ | .pointer, .register slot, .register r _ =>
    r.slot = slot
  | .literal, .value e, .literal w | .address, .value e, .literal w => e.value scope = .ok w
  | .literal8, .value e, .literal w =>
    ∃ v, e.value scope = .ok v ∧ w = Word.ofByte (Word.low v)
  | _, _, _ => False

/-- What is emitted for a value is its stored form in one of the widths. -/
theorem exists_value_of_map_emit {width : Width} {r : Except AssemblyError Word}
    {code : MachineCode} (h : r.map width.emit = .ok code) :
    ∃ w, r = .ok w ∧ code = width.emit w := by
  cases r with
  | error e => exact absurd h (by simp [Except.map])
  | ok w => exact ⟨w, rfl, (Except.ok.inj h).symm⟩

namespace Execution

/-- A fetch over the bytes of an operand finds what the operand stands for. -/
theorem denotes_argumentAt {scope : Scope} {m : Machine} {kind : Kind} {o : Operand}
    {code : MachineCode} (hfit : o.Fits kind) (hcode : o.encode scope kind = .ok code)
    (h : m.memory.Holds (m.registers.get .ip) code) :
    o.Denotes scope kind (argumentAt m kind) := by
  cases o with
  | register slot =>
    cases kind with
    | register | pointer =>
      obtain rfl : [slot] = code := Except.ok.inj hcode
      show (Register.ofSlot (m.memory.byteAt (m.registers.get .ip))).slot = slot
      rw [h.1]
      exact Register.slot_ofSlot hfit
    | literal | literal8 | address => exact absurd hfit id
  | value e =>
    cases kind with
    | literal | address =>
      obtain ⟨w, hw, rfl⟩ := exists_value_of_map_emit hcode
      show e.value scope = .ok (m.memory.wordAt (m.registers.get .ip))
      rw [AddressSpace.holds_toBytes.mp h, hw]
    | literal8 =>
      obtain ⟨w, hw, rfl⟩ := exists_value_of_map_emit hcode
      refine ⟨w, hw, ?_⟩
      rw [h.1]
    | register | pointer => exact absurd hfit id

/-- A fetch over the bytes of several operands finds what each of them stands for. -/
theorem denotes_argumentsAt {scope : Scope} {m : Machine} {kinds : List Kind}
    {operands : List Operand} {parts : List MachineCode}
    (hfit : List.Forall₂ Operand.Fits kinds operands)
    (hparts : List.Forall₂ (fun p part => p.2.encode scope p.1 = .ok part)
      (kinds.zip operands) parts)
    (h : m.memory.Holds (m.registers.get .ip) parts.flatten) :
    List.Forall₂ (fun p a => p.2.Denotes scope p.1 a) (kinds.zip operands)
      (argumentsAt m kinds) := by
  induction hfit generalizing m parts with
  | nil => exact List.Forall₂.nil
  | cons hfit _ ih =>
    cases hparts with
    | cons hpart hparts =>
      rw [List.flatten_cons, AddressSpace.holds_append] at h
      refine List.Forall₂.cons (denotes_argumentAt hfit hpart h.1) (ih hparts ?_)
      rw [Machine.ip_moveTo, ← Operand.length_of_encode hpart]
      exact h.2

end Execution

/-! ## Pieces of code -/

/-- What is at an index of one list has its partner at that index of the other. -/
theorem exists_getElem?_of_forall₂ {α β : Type} {R : α → β → Prop} {xs : List α} {ys : List β}
    (h : List.Forall₂ R xs ys) {i : Nat} {x : α} (hx : xs[i]? = some x) :
    ∃ y, ys[i]? = some y ∧ R x y := by
  induction h generalizing i with
  | nil => exact absurd hx (by simp)
  | @cons a b _ _ hab _ ih =>
    cases i with
    | zero =>
      obtain rfl : a = x := Option.some.inj hx
      exact ⟨b, rfl, hab⟩
    | succ i => exact ih hx

/-- A piece ends where the next one starts. -/
theorem startOf_succ (origin : Word) {parts : List MachineCode} {i : Nat} {part : MachineCode}
    (h : parts[i]? = some part) :
    startOf origin parts (i + 1) = startOf origin parts i + UInt16.ofNat part.length := by
  rw [startOf, startOf, List.take_add_one, h, List.flatten_append, List.length_append,
    UInt16.ofNat_add, ← UInt16.add_assoc]
  show _ + UInt16.ofNat (part ++ []).length = _
  rw [List.append_nil]

/-- Memory that holds all pieces holds each of them where it starts. -/
theorem AddressSpace.Holds.part {m : AddressSpace} {origin : Word} {parts : List MachineCode}
    (h : m.Holds origin parts.flatten) {i : Nat} {part : MachineCode}
    (hpart : parts[i]? = some part) : m.Holds (startOf origin parts i) part := by
  induction parts generalizing origin i with
  | nil => exact absurd hpart (by simp)
  | cons x parts ih =>
    rw [List.flatten_cons, holds_append] at h
    cases i with
    | zero =>
      obtain rfl : x = part := Option.some.inj hpart
      rw [startOf_zero]
      exact h.1
    | succ i =>
      rw [startOf_cons_succ]
      exact ih h.2 hpart

/-- At the address stands the value, as far as the width keeps it: its low byte, or the
word with its high byte first. -/
def Width.StandsAt (m : AddressSpace) (a w : Word) : Width → Prop
  | .byte => m.byteAt a = Word.low w
  | .word => m.wordAt a = w

/-- The values of a data block stand one after the other, each at its own address. -/
theorem Width.standsAt_of_holds {m : AddressSpace} {width : Width} {a : Word}
    {values : List String} (h : m.Holds a (Definition.encode (.data width values))) {k : Nat}
    (hk : k < values.length) :
    width.StandsAt m (a + UInt16.ofNat (k * width.size)) (hexWord values[k]) := by
  induction values generalizing a k with
  | nil => exact absurd hk (Nat.not_lt_zero _)
  | cons digits values ih =>
    rw [Definition.encode, List.flatMap_cons, AddressSpace.holds_append, Width.length_emit] at h
    cases k with
    | zero =>
      have ha : a + UInt16.ofNat (0 * width.size) = a := by
        rw [Nat.zero_mul]
        exact UInt16.add_zero a
      rw [ha]
      cases width with
      | byte => exact h.1.1
      | word => exact AddressSpace.holds_toBytes.mp h.1
    | succ k =>
      have ha : a + UInt16.ofNat ((k + 1) * width.size) =
          a + UInt16.ofNat width.size + UInt16.ofNat (k * width.size) := by
        rw [Nat.succ_mul, Nat.add_comm, UInt16.ofNat_add, UInt16.add_assoc]
      rw [ha]
      exact ih h.2 (Nat.lt_of_succ_lt_succ hk)

/-! ## Modules in memory -/

namespace Module

/-- A memory agrees with a module, whose statements are `sts` and whose code is one piece
for each of them. -/
structure Installed (module : Module) (sts : List Statement) (parts : List MachineCode)
    (memory : AddressSpace) : Prop where
  /-- A machine that arrives at an instruction decodes that instruction, its operands in
  order, and does what the instruction does with them.  Behind the fetch it has arrived at
  the next statement. -/
  instructions : ∀ i opcode operands, sts[i]? = some (.instruction opcode operands) →
    ∀ m : Machine, m.isHalted = false → m.memory = memory →
      m.registers.get .ip = startOf module.loadOffset parts i →
      ∃ args next, next = m.moveTo (startOf module.loadOffset parts (i + 1)) ∧
        m.Decodes opcode args next ∧
        Execution.step m = ((opcode.effect next.registers args).perform >>=
          fun _ => pure (opcode == .hlt)) next ∧
        operands.length = opcode.format.arity ∧
        List.Forall₂ (fun p a => p.2.Denotes module.scope p.1 a)
          (opcode.format.operands.zip operands) args
  /-- A label is the address of the statement that follows it. -/
  labels : ∀ i exported name, sts[i]? = some (.define exported name .label) →
    module.scope.symbol? name = some (.address (startOf module.loadOffset parts (i + 1)))
  /-- A data block is bound to its own address, and each of its values stands at its own
  distance from there. -/
  data : ∀ (i : Nat) (exported : Bool) (name : String) (width : Width) (values : List String),
    sts[i]? = some (Statement.define exported name (.data width values)) →
    module.scope.symbol? name = some (.address (startOf module.loadOffset parts i)) ∧
      ∀ k (hk : k < values.length),
        width.StandsAt memory (startOf module.loadOffset parts i + UInt16.ofNat (k * width.size))
          (hexWord values[k])

/-- A memory that holds the code of a program agrees with it. -/
theorem installed_of_holds {module : Module} {sts : List Statement} {parts : List MachineCode}
    {memory : AddressSpace} (hfit : ∀ st ∈ sts, st.Fits)
    (hlayout : Statement.layout module.loadOffset sts = .ok module.scope)
    (hparts : List.Forall₂ (fun st part => Statement.encode module.scope st = .ok part) sts parts)
    (hflat : memory.IsFlat) (hholds : memory.Holds module.loadOffset parts.flatten) :
    module.Installed sts parts memory := by
  have hcursor := Statement.cursorAfter_take_eq_startOf hfit hparts module.loadOffset
  refine ⟨?_, ?_, ?_⟩
  · intro i opcode operands hst m hrun hmem hip
    obtain ⟨part, hpart, hencode⟩ := exists_getElem?_of_forall₂ hparts hst
    obtain ⟨bytes, hbytes, rfl⟩ := Statement.exists_parts_of_encode hencode
    have hfits : List.Forall₂ Operand.Fits opcode.format.operands operands :=
      hfit _ (List.mem_of_getElem? hst)
    have hhere := hholds.part hpart
    rw [← hmem] at hflat
    rw [← hip, ← hmem] at hhere
    have hsize : (opcode.byte :: bytes.flatten).length = opcode.size := by
      rw [List.length_cons, Operand.length_flatten_of_encode hfits hbytes, Opcode.size,
        Format.size_eq, Nat.add_comm]
    have hd := Machine.decodes_flat hflat hrun hhere.1
    rw [← hsize, hip, ← startOf_succ module.loadOffset hpart, ← hip] at hd
    refine ⟨_, _, rfl, hd, hd.step_eq, hfits.length_eq.symm, ?_⟩
    refine Execution.denotes_argumentsAt hfits hbytes ?_
    rw [Machine.ip_moveTo]
    exact hhere.2
  · intro i exported name hst
    obtain ⟨part, hpart, hencode⟩ := exists_getElem?_of_forall₂ hparts hst
    obtain rfl : [] = part := Except.ok.inj hencode
    rw [startOf_succ module.loadOffset hpart, ← hcursor]
    rw [Statement.symbol?_of_layout hlayout hst trivial]
    exact congrArg (fun a => some (Binding.address a)) (UInt16.add_zero _).symm
  · intro i exported name width values hst
    obtain ⟨part, hpart, hencode⟩ := exists_getElem?_of_forall₂ hparts hst
    obtain rfl : Definition.encode (.data width values) = part := Except.ok.inj hencode
    rw [← hcursor]
    refine ⟨Statement.symbol?_of_layout hlayout hst trivial, fun k hk => ?_⟩
    rw [hcursor]
    exact Width.standsAt_of_holds (hholds.part hpart) hk

/-- What assembling a source text has gone through. -/
theorem exists_of_assemble {source : String} {origin : Word} {module : Module}
    (h : assemble source origin = .ok module) :
    ∃ placed, Program.parse source = .ok placed ∧ module.loadOffset = origin ∧
      Statement.layout origin (placed.map Placed.statement) = .ok module.scope ∧
      Statement.encodeAll module.scope (placed.map Placed.statement) = .ok module.code := by
  rw [assemble] at h
  obtain ⟨placed, hparse, h⟩ := exists_of_bind_eq_ok h
  rw [ofStatements] at h
  obtain ⟨scope, hlayout, h⟩ := exists_of_bind_eq_ok h
  obtain ⟨code, hencode, h⟩ := exists_of_bind_eq_ok h
  obtain rfl := Except.ok.inj h
  exact ⟨placed, hparse, rfl, hlayout, hencode⟩

/-- **Assembling, loading and decoding agree.**  A module of at most `2 ^ 16` bytes loads
into any flat memory at the place it was assembled for, and the memory then agrees with the
module at every instruction, label and data block of the source, also when the code runs
past the last address. -/
theorem installed_of_load {source : String} {origin : Word} {module : Module}
    (h : assemble source origin = .ok module) (hlen : module.code.length ≤ addressCount)
    {memory : AddressSpace} (hflat : memory.IsFlat) :
    ∃ placed parts loaded, Program.parse source = .ok placed ∧
      List.Forall₂ (fun st part => Statement.encode module.scope st = .ok part)
        (placed.map Placed.statement) parts ∧
      module.code = parts.flatten ∧ module.loadOffset = origin ∧
      MemoryAction.load origin module.code memory = .ok () loaded ∧
      module.Installed (placed.map Placed.statement) parts loaded := by
  obtain ⟨placed, hparse, horigin, hlayout, hencode⟩ := exists_of_assemble h
  obtain ⟨parts, hparts, hcode⟩ := Statement.exists_parts_of_encodeAll hencode
  have hfit : ∀ st ∈ placed.map Placed.statement, st.Fits := by
    intro st hst
    obtain ⟨x, hx, rfl⟩ := List.mem_map.mp hst
    exact Program.fits_of_parse hparse x hx
  refine ⟨placed, parts, memory.pokeList origin module.code, hparse, hparts, hcode, horigin,
    hflat.load origin module.code, ?_⟩
  have hholds := hflat.holds_pokeList origin hlen
  rw [← horigin] at hlayout
  refine installed_of_holds hfit hlayout hparts (hflat.pokeList origin module.code) ?_
  rw [← hcode, horigin]
  exact hholds

/-- The program that runs past the last address is installed by loading it there. -/
theorem installed_across_the_end :
    ∃ module placed parts loaded,
      assemble Program.acrossTheEnd 0xFFFD = .ok module ∧ module.code.length ≤ addressCount ∧
      (AddressSpace.empty.map (.newRam addressCount) 0 addressCount true).2.IsFlat ∧
      Program.parse Program.acrossTheEnd = .ok placed ∧
      MemoryAction.load 0xFFFD module.code
        (AddressSpace.empty.map (.newRam addressCount) 0 addressCount true).2 = .ok () loaded ∧
      module.Installed (placed.map Placed.statement) parts loaded := by
  have h : assemble Program.acrossTheEnd 0xFFFD =
      .ok ⟨[0x3D, 0, 2, 1, 2, 0xFF], ⟨[.symbol "d" (.address 0), .symbol "end" (.address 2)]⟩, [],
        0xFFFD⟩ := eq_ok_of_toOption (by decide +kernel)
  have hflat := AddressSpace.isFlat_map_newRam true
  obtain ⟨placed, parts, loaded, hparse, -, -, -, hload, hinstalled⟩ :=
    installed_of_load h (by decide) hflat
  exact ⟨_, placed, parts, loaded, h, by decide, hflat, hparse, hload, hinstalled⟩

end Module
end WordMachine
