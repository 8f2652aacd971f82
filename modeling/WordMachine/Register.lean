import WordMachine.Word
import WordMachine.Text.Numeral

/-!
# Registers and the register file

The machine has twelve registers.  In machine code a register is one byte, its
*slot*: the assembler writes slots `0` to `11`, and the machine reads any byte as
a register by taking it modulo twelve.  Both directions are here, so that a
register inside the machine is an element of `Fin 12` and can never be out of
range, while a slot in code is an arbitrary byte.

`RegisterFile` is the twelve words themselves.  Reading and writing are by
register; the access by name is for a host, and there an unknown name is an error
of the caller, told apart by what the caller was doing.
-/

namespace WordMachine

/-- How many registers there are. -/
abbrev registerCount : Nat := 12

/-- One of the twelve registers. -/
abbrev Register := Fin registerCount

namespace Register

/-- The address of the next byte to fetch. -/
def ip : Register := 0
/-- Where arithmetic leaves its result, and what branches compare with. -/
def acc : Register := 1
/-- The first general register. -/
def r1 : Register := 2
/-- The last general register. -/
def r8 : Register := 9
/-- The next free word of the stack. -/
def sp : Register := 10
/-- The first free word of the current frame. -/
def fp : Register := 11

/-- The general registers `r1` to `r8`, in the order in which a call saves
them. -/
def general : List Register := [2, 3, 4, 5, 6, 7, 8, 9]

/-- The names, in slot order. -/
def names : List String :=
  ["ip", "acc", "r1", "r2", "r3", "r4", "r5", "r6", "r7", "r8", "sp", "fp"]

/-- All registers, in slot order. -/
def all : List Register := [0, 1, 2, 3, 4, 5, 6, 7, 8, 9, 10, 11]

/-- The name of a register. -/
def name (r : Register) : String := names.getD r.val ""

/-- The register with a given name, in any mixture of capitals and small
letters. -/
def ofName? (s : String) : Option Register :=
  all.find? fun r => r.name == s.map Char.toLower

/-- The byte that stands for a register in machine code. -/
def slot (r : Register) : Byte := UInt8.ofNat r.val

/-- The register that a byte of machine code stands for.  Every byte stands for
one: it counts modulo twelve. -/
def ofSlot (b : Byte) : Register := ⟨b.toNat % registerCount, Nat.mod_lt _ (by decide)⟩

/-- The name of the register whose slot a byte is, if it is the slot of one. -/
def nameOfSlot? (b : Byte) : Option String := names[b.toNat]?

@[simp] theorem ofSlot_slot (r : Register) : ofSlot (slot r) = r := by
  revert r; decide

theorem slot_lt (r : Register) : (slot r).toNat < registerCount := by
  revert r; decide

/-- A byte below twelve is the slot of the register it stands for. -/
theorem slot_ofSlot {b : Byte} (h : b.toNat < registerCount) : slot (ofSlot b) = b := by
  apply UInt8.toNat_inj.mp
  have : b.toNat % registerCount = b.toNat := Nat.mod_eq_of_lt h
  simp [slot, ofSlot, this]

/-- Every register answers to its own name. -/
@[simp] theorem ofName?_name (r : Register) : ofName? r.name = some r := by
  revert r; decide +kernel

@[simp] theorem nameOfSlot?_slot (r : Register) : nameOfSlot? (slot r) = some r.name := by
  revert r; decide

end Register

/-- What a host can get wrong about registers: naming one that does not exist,
to read it or to write it. -/
inductive RegisterError where
  | noSuchToGet (name : String)
  | noSuchToSet (name : String)
  deriving DecidableEq, Repr

/-- The text of the error. -/
def RegisterError.message : RegisterError → String
  | .noSuchToGet name => "Error: get_register: no such register '" ++ name ++ "'"
  | .noSuchToSet name => "Error: set_register: no such register '" ++ name ++ "'"

/-- The contents of the twelve registers. -/
structure RegisterFile where
  slots : Vector Word registerCount
  deriving DecidableEq, Repr

namespace RegisterFile

/-- The file in which every register holds zero. -/
def zero : RegisterFile := ⟨Vector.replicate registerCount 0⟩

/-- What a register holds. -/
def get (f : RegisterFile) (r : Register) : Word := f.slots[r]

/-- The file after a register has received a word. -/
def set (f : RegisterFile) (r : Register) (w : Word) : RegisterFile :=
  ⟨f.slots.set r w⟩

@[simp] theorem get_zero (r : Register) : zero.get r = 0 := by
  simp [zero, get]

theorem get_set (f : RegisterFile) (r q : Register) (w : Word) :
    (f.set r w).get q = if q = r then w else f.get q := by
  by_cases h : q = r
  · subst h; simp [get, set]
  · have : r.val ≠ q.val := fun e => h (Fin.ext e.symm)
    simp [get, set, h, this]

@[simp] theorem get_set_self (f : RegisterFile) (r : Register) (w : Word) :
    (f.set r w).get r = w := by
  simp [get_set]

theorem get_set_of_ne (f : RegisterFile) {r q : Register} (h : q ≠ r) (w : Word) :
    (f.set r w).get q = f.get q := by
  simp [get_set, h]

/-- Two files that agree on every register are the same file. -/
@[ext] theorem ext {f g : RegisterFile} (h : ∀ r, f.get r = g.get r) : f = g := by
  obtain ⟨a⟩ := f
  obtain ⟨b⟩ := g
  have hab : a = b := Vector.ext fun i hi => h ⟨i, hi⟩
  rw [hab]

/-- Reading by name. -/
def getNamed (f : RegisterFile) (name : String) : Except RegisterError Word :=
  match Register.ofName? name with
  | some r => .ok (f.get r)
  | none => .error (.noSuchToGet name)

/-- Writing by name. -/
def setNamed (f : RegisterFile) (name : String) (w : Word) :
    Except RegisterError RegisterFile :=
  match Register.ofName? name with
  | some r => .ok (f.set r w)
  | none => .error (.noSuchToSet name)

/-- Names and contents, in slot order. -/
def toList (f : RegisterFile) : List (String × Word) :=
  Register.all.map fun r => (r.name, f.get r)

/-- The whole file on one line. -/
def line (f : RegisterFile) : String :=
  " ".intercalate (f.toList.map fun e => e.1 ++ "=0x" ++ Text.hexLower 4 e.2.toNat)

end RegisterFile
end WordMachine
