import WordMachine.Memory.Device
import WordMachine.Text.Numeral

/-!
# The address space

Memory is not one buffer.  It is a stack of *regions*, each of which gives a range
of the `2 ^ 16` addresses to a device.  Ranges may overlap, and the region mapped
last wins; taking it away again uncovers what lay below.  Addresses that no region
covers are an error to read and to write, the only error there is.

A region may be *remapped*: then its device sees addresses counted from the start
of the region.  Otherwise the device sees the address itself.

A word is read or written by the device that the address of its first byte leads
to, all of it.  So at the end of a region the second byte is where that device
says it is, and not in the region that follows.

Requests leave their traces on the panel, also reads.  They are therefore actions
on the address space: `EStateM` keeps the state that has been reached also when an
action fails.
-/

namespace WordMachine

/-- The number of addresses. -/
def addressCount : Nat := 0x10000

/-- A range of addresses and the device behind it. -/
structure Region where
  /-- What the region is called when it is to be taken away. -/
  handle : Nat
  /-- The first address. -/
  start : Word
  /-- The address after the last one. -/
  stop : Nat
  /-- Whether the device counts addresses from the start of the region. -/
  remap : Bool
  device : Device

namespace Region

/-- Whether an address lies in the region. -/
def contains (r : Region) (a : Word) : Bool := r.start ≤ a && a.toNat < r.stop

/-- The address as the device sees it. -/
def deviceAddress (r : Region) (a : Word) : Word := if r.remap then a - r.start else a

theorem contains_iff {r : Region} {a : Word} :
    r.contains a = true ↔ r.start.toNat ≤ a.toNat ∧ a.toNat < r.stop := by
  simp [contains, UInt16.le_iff_toNat_le]

/-- A remapped region counts from its start, and an address within it cannot lie
before that. -/
theorem toNat_deviceAddress {r : Region} {a : Word} (h : r.contains a = true) :
    (r.deviceAddress a).toNat = if r.remap then a.toNat - r.start.toNat else a.toNat := by
  have hle : r.start ≤ a := UInt16.le_iff_toNat_le.mpr (contains_iff.mp h).1
  unfold deviceAddress
  split
  · exact UInt16.toNat_sub_of_le _ _ hle
  · rfl

/-- The region after a request to store a byte. -/
def set8 (panel : Panel) (a : Word) (v : Byte) (r : Region) : Region :=
  let inner := r.deviceAddress a
  { r with device := r.device.set8 panel inner v }

/-- The region after a request to store a word. -/
def set16 (panel : Panel) (a : Word) (v : Word) (r : Region) : Region :=
  let inner := r.deviceAddress a
  { r with device := r.device.set16 panel inner v }

@[simp] theorem contains_set8 (panel : Panel) (r : Region) (a b : Word) (v : Byte) :
    (r.set8 panel a v).contains b = r.contains b := rfl

@[simp] theorem contains_set16 (panel : Panel) (r : Region) (a b v : Word) :
    (r.set16 panel a v).contains b = r.contains b := rfl

end Region

/-- Why memory cannot be accessed. -/
inductive MemoryError where
  /-- No region covers the address. -/
  | unmapped (address : Word)
  deriving DecidableEq, Repr

/-- The text of the error. -/
def MemoryError.message : MemoryError → String
  | .unmapped a => "no memory region mapped at address 0x" ++ Text.hexLower 4 a.toNat

/-- All that is mapped, and the panel beside it. -/
structure AddressSpace where
  /-- The regions, the one mapped last first. -/
  regions : List Region
  /-- The handle of the next region to be mapped. -/
  nextHandle : Nat
  panel : Panel

/-- Changes the first element that satisfies a condition. -/
def modifyFirst {α : Type} (p : α → Bool) (f : α → α) : List α → List α
  | [] => []
  | x :: rest => if p x then f x :: rest else x :: modifyFirst p f rest

namespace AddressSpace

/-- Nothing is mapped. -/
def empty : AddressSpace := ⟨[], 0, .initial⟩

/-- Puts a device behind `size` addresses from `start` on, in front of all other
regions.  The range ends with the last address at the latest, and it is empty if
`size` is zero.  The answer is the handle of the region. -/
def map (m : AddressSpace) (device : Device) (start : Word) (size : Nat) (remap : Bool) :
    Nat × AddressSpace :=
  let region : Region :=
    { handle := m.nextHandle, start, stop := min (start.toNat + size) addressCount, remap, device }
  (m.nextHandle, { m with regions := region :: m.regions, nextHandle := m.nextHandle + 1 })

/-- Takes a region away and gives its device back, if the region is still there. -/
def unmap (m : AddressSpace) (handle : Nat) : Option Device × AddressSpace :=
  ((m.regions.find? (·.handle == handle)).map Region.device,
    { m with regions := m.regions.eraseP (·.handle == handle) })

/-- The region that an address leads to. -/
def region? (m : AddressSpace) (a : Word) : Option Region := m.regions.find? (·.contains a)

/-- Whether any region covers an address. -/
def isMapped (m : AddressSpace) (a : Word) : Bool := m.regions.any (·.contains a)

/-- The byte that reading an address would give. -/
def peek8 (m : AddressSpace) (a : Word) : Except MemoryError Byte :=
  match m.region? a with
  | none => .error (.unmapped a)
  | some r => .ok (r.device.get8 m.panel (r.deviceAddress a))

/-- The word that reading an address would give. -/
def peek16 (m : AddressSpace) (a : Word) : Except MemoryError Word :=
  match m.region? a with
  | none => .error (.unmapped a)
  | some r => .ok (r.device.get16 m.panel (r.deviceAddress a))

/-- The space after the device behind an address has seen a request. -/
def observe (m : AddressSpace) (a : Word) (request : Word → Access) : AddressSpace :=
  match m.region? a with
  | none => m
  | some r => { m with panel := r.device.observe (request (r.deviceAddress a)) m.panel }

/-- The space after a byte has been stored, which changes nothing where no region
is. -/
def poke8 (m : AddressSpace) (a : Word) (v : Byte) : AddressSpace :=
  { m with regions := modifyFirst (·.contains a) (Region.set8 m.panel a v) m.regions }

/-- The space after a word has been stored, which changes nothing where no region
is. -/
def poke16 (m : AddressSpace) (a : Word) (v : Word) : AddressSpace :=
  { m with regions := modifyFirst (·.contains a) (Region.set16 m.panel a v) m.regions }

/-- An address is mapped exactly when it leads to a region. -/
theorem isMapped_eq (m : AddressSpace) (a : Word) : m.isMapped a = (m.region? a).isSome := by
  rw [Bool.eq_iff_iff, isMapped, region?, List.any_eq_true, List.find?_isSome]

/-- Observing a request changes the panel only. -/
@[simp] theorem regions_observe (m : AddressSpace) (a : Word) (request : Word → Access) :
    (m.observe a request).regions = m.regions := by
  unfold observe
  split <;> rfl

end AddressSpace

/-- What is done to memory: it changes the address space, and it may fail. -/
abbrev MemoryAction := EStateM MemoryError AddressSpace

namespace MemoryAction

/-- Reads a byte. -/
def read8 (a : Word) : MemoryAction Byte := fun m =>
  match m.peek8 a with
  | .ok b => .ok b (m.observe a .get8)
  | .error e => .error e m

/-- Reads a word. -/
def read16 (a : Word) : MemoryAction Word := fun m =>
  match m.peek16 a with
  | .ok w => .ok w (m.observe a .get16)
  | .error e => .error e m

/-- Writes a byte. -/
def write8 (a : Word) (v : Byte) : MemoryAction Unit := fun m =>
  if m.isMapped a then .ok () ((m.observe a (.set8 · v)).poke8 a v)
  else .error (.unmapped a) m

/-- Writes a word. -/
def write16 (a : Word) (v : Word) : MemoryAction Unit := fun m =>
  if m.isMapped a then .ok () ((m.observe a (.set16 · v)).poke16 a v)
  else .error (.unmapped a) m

/-- Writes bytes one after the other.  What has been written when an address turns
out to be unmapped stays written. -/
def load (a : Word) : List Byte → MemoryAction Unit
  | [] => pure ()
  | b :: rest => do
    write8 a b
    load (a + 1) rest

/-- Reads bytes one after the other, behind bytes already read. -/
def viewFrom (acc : List Byte) (a : Word) : Nat → MemoryAction (List Byte)
  | 0 => pure acc.reverse
  | count + 1 => do
    let b ← read8 a
    viewFrom (b :: acc) (a + 1) count

/-- Reads bytes one after the other, across the end of the address space. -/
def view (a : Word) (count : Nat) : MemoryAction (List Byte) := viewFrom [] a count

theorem write8_of_isMapped {m : AddressSpace} {a : Word} (h : m.isMapped a = true) (v : Byte) :
    write8 a v m = .ok () ((m.observe a (.set8 · v)).poke8 a v) := by
  simp [write8, h]

theorem write8_of_not_isMapped {m : AddressSpace} {a : Word} (h : m.isMapped a = false)
    (v : Byte) : write8 a v m = .error (.unmapped a) m := by
  simp [write8, h]

theorem write16_of_isMapped {m : AddressSpace} {a : Word} (h : m.isMapped a = true) (v : Word) :
    write16 a v m = .ok () ((m.observe a (.set16 · v)).poke16 a v) := by
  simp [write16, h]

theorem write16_of_not_isMapped {m : AddressSpace} {a : Word} (h : m.isMapped a = false)
    (v : Word) : write16 a v m = .error (.unmapped a) m := by
  simp [write16, h]

theorem read8_of_ok {m : AddressSpace} {a : Word} {b : Byte} (h : m.peek8 a = .ok b) :
    read8 a m = .ok b (m.observe a .get8) := by
  simp [read8, h]

theorem read8_of_error {m : AddressSpace} {a : Word} {e : MemoryError}
    (h : m.peek8 a = .error e) : read8 a m = .error e m := by
  simp [read8, h]

theorem read16_of_ok {m : AddressSpace} {a w : Word} (h : m.peek16 a = .ok w) :
    read16 a m = .ok w (m.observe a .get16) := by
  simp [read16, h]

theorem read16_of_error {m : AddressSpace} {a : Word} {e : MemoryError}
    (h : m.peek16 a = .error e) : read16 a m = .error e m := by
  simp [read16, h]

end MemoryAction
end WordMachine
