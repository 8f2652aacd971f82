import WordMachine.Memory.Panel

/-!
# Devices

A device answers requests for bytes and words at sixteen-bit addresses.  Three kinds
are built in:

* `ram`, bytes that can be read and written;
* `rom`, bytes that ignore every write;
* `bank`, several stretches of bytes of which a selector on the panel makes one
  visible at a time.

Bytes are addressed modulo their number, so an address beyond the end is not an
error: it wraps.  The second byte of a word is at the next *address*, and that
wraps at `2 ^ 16` before it wraps at the end of the bytes.

Anything else that answers the requests can be mapped as well.  Such a device is
brought along by the host, and nothing is known of what it does but what
`HostDevice` says.  Two of them are at hand: the `recorder`, which answers every read
with its tag and has every request written into the log, and the `stopper`, which
reads as zero and triggers a stop token on any write.  The built-in kinds have this
form as well, and a program does not see which form a device has
(`Machine.run_opened`).

What a request changes in the device (`set8`, `set16`) and what it shows on the
panel (`observe`) are separate functions.  A read never changes a device, no
request changes a selector, and none takes a stop back.
-/

namespace WordMachine

/-- The bytes of a device.  There is at least one of them in every device that
`Device.newRam`, `Device.newRom` or `Device.newBank` makes. -/
abbrev Cells := Array Byte

namespace Cells

/-- A number of zero bytes, at least one. -/
def zeros (size : Nat) : Cells := Array.replicate (max size 1) 0

/-- The given bytes, or a single zero if there are none. -/
def ofBytes (bytes : List Byte) : Cells := if bytes.isEmpty then #[0] else bytes.toArray

/-- Where the byte with a given address is. -/
def index (c : Cells) (a : Word) : Nat := a.toNat % c.size

/-- The byte at an address. -/
def get8 (c : Cells) (a : Word) : Byte := c.getD (index c a) 0

/-- The word at an address. -/
def get16 (c : Cells) (a : Word) : Word := Word.ofBytes (get8 c a) (get8 c (a + 1))

/-- The cells after a byte has been stored. -/
def set8 (c : Cells) (a : Word) (v : Byte) : Cells := c.setIfInBounds (index c a) v

/-- The cells after a word has been stored, high byte first. -/
def set16 (c : Cells) (a : Word) (v : Word) : Cells :=
  set8 (set8 c a (Word.high v)) (a + 1) (Word.low v)

theorem size_zeros_pos (size : Nat) : 0 < (zeros size).size := by
  rw [zeros, Array.size_replicate]
  exact Nat.lt_of_lt_of_le Nat.one_pos (Nat.le_max_right size 1)

theorem size_ofBytes_pos (bytes : List Byte) : 0 < (ofBytes bytes).size := by
  cases bytes <;> simp [ofBytes]

@[simp] theorem size_set8 (c : Cells) (a : Word) (v : Byte) : (set8 c a v).size = c.size := by
  simp [set8]

@[simp] theorem size_set16 (c : Cells) (a v : Word) : (set16 c a v).size = c.size := by
  simp [set16]

/-- An address is within range once it has been taken modulo the size. -/
theorem index_lt {c : Cells} (h : 0 < c.size) (a : Word) : index c a < c.size :=
  Nat.mod_lt _ h

/-- A byte reads back at every address that falls on the same cell, and no other
cell changes. -/
theorem get8_set8 {c : Cells} (h : 0 < c.size) (a b : Word) (v : Byte) :
    get8 (set8 c a v) b = if index c b = index c a then v else get8 c b := by
  have ha := index_lt h a
  have hb := index_lt h b
  have hi : index (set8 c a v) b = index c b := by simp [index]
  unfold get8
  rw [hi]
  simp only [set8, Array.getD_eq_getD_getElem?, Array.getElem?_setIfInBounds]
  by_cases e : index c b = index c a
  · simp [e, ha]
  · simp [e, Ne.symm e]

end Cells

/-- How a device of the host's own behaves.  It stores bytes in a number of stretches,
and does with them what it likes: how long they are, and which of them a request
concerns, is its own affair.  Of the panel it sees what the selectors select. -/
structure HostDevice where
  /-- The answer to a request for a byte. -/
  get8 : (String → Nat) → Array Cells → Word → Byte
  /-- The answer to a request for a word. -/
  get16 : (String → Nat) → Array Cells → Word → Word
  /-- What is stored after a request to store a byte. -/
  set8 : (String → Nat) → Word → Byte → Array Cells → Array Cells
  /-- What is stored after a request to store a word. -/
  set16 : (String → Nat) → Word → Word → Array Cells → Array Cells
  /-- The panel after a request. -/
  observe : Access → Array Cells → Panel → Panel
  /-- How many stretches there are is settled when the device is made. -/
  size_set8 : ∀ select a v store, (set8 select a v store).size = store.size
  size_set16 : ∀ select a v store, (set16 select a v store).size = store.size
  /-- The device leaves the selectors to the host. -/
  current_observe : ∀ access store panel s,
    (observe access store panel).current s = panel.current s
  /-- The device may trigger stop tokens, and cannot do more to them. -/
  isTriggered_observe : ∀ access store panel t,
    panel.isTriggered t = true → (observe access store panel).isTriggered t = true

namespace HostDevice

/-- The device that keeps plain bytes and shows one stretch of them, which is chosen
from the selections and the number of stretches. -/
def stretches (pick : (String → Nat) → Nat → Nat) : HostDevice where
  get8 select store a := (store.getD (pick select store.size) #[]).get8 a
  get16 select store a := (store.getD (pick select store.size) #[]).get16 a
  set8 select a v store := store.modify (pick select store.size) (·.set8 a v)
  set16 select a v store := store.modify (pick select store.size) (·.set16 a v)
  observe _ _ panel := panel
  size_set8 _ _ _ _ := Array.size_modify
  size_set16 _ _ _ _ := Array.size_modify
  current_observe _ _ _ _ := rfl
  isTriggered_observe _ _ _ _ h := h

/-- A RAM shows its only stretch. -/
def ram : HostDevice := stretches fun _ _ => 0

/-- A ROM is a RAM that takes no notice of stores. -/
def rom : HostDevice where
  get8 := ram.get8
  get16 := ram.get16
  set8 _ _ _ store := store
  set16 _ _ _ store := store
  observe := ram.observe
  size_set8 _ _ _ _ := rfl
  size_set16 _ _ _ _ := rfl
  current_observe := ram.current_observe
  isTriggered_observe := ram.isTriggered_observe

/-- A window of banks shows the one that is selected. -/
def bank (selector : String) : HostDevice := stretches fun select count => select selector % count

/-- The device that has every request logged under its tag. -/
def recorder (tag : Word) : HostDevice where
  get8 _ _ _ := Word.low tag
  get16 _ _ _ := tag
  set8 _ _ _ store := store
  set16 _ _ _ store := store
  observe access _ panel := panel.record ⟨tag, access⟩
  size_set8 _ _ _ _ := rfl
  size_set16 _ _ _ _ := rfl
  current_observe _ _ _ _ := rfl
  isTriggered_observe _ _ _ _ h := h

/-- The device that triggers a token when it is written to. -/
def stopper (token : StopToken) : HostDevice where
  get8 _ _ _ := 0
  get16 _ _ _ := 0
  set8 _ _ _ store := store
  set16 _ _ _ store := store
  observe access _ panel := if access.isWrite then panel.trigger token else panel
  size_set8 _ _ _ _ := rfl
  size_set16 _ _ _ _ := rfl
  current_observe access _ panel s := by
    split
    · exact panel.current_trigger token s
    · rfl
  isTriggered_observe access _ panel t h := by
    split
    · rw [Panel.isTriggered_trigger, h, Bool.or_true]
    · exact h

end HostDevice

/-- Something that sits behind addresses. -/
inductive Device where
  | ram (cells : Cells)
  | rom (cells : Cells)
  | bank (banks : Array Cells) (selector : String)
  | hosted (device : HostDevice) (store : Array Cells)

namespace Device

/-- Memory of a given size, all zero. -/
def newRam (size : Nat) : Device := .ram (.zeros size)

/-- Memory with fixed contents. -/
def newRom (image : List Byte) : Device := .rom (.ofBytes image)

/-- Banks of a given size, all zero; at least one bank. -/
def newBank (count size : Nat) (selector : String) : Device :=
  .bank (Array.replicate (max count 1) (.zeros size)) selector

/-- A device that logs the requests it sees. -/
def recorder (tag : Word) : Device := .hosted (.recorder tag) #[]

/-- A device that stops a run when it is written to. -/
def stopper (token : StopToken) : Device := .hosted (.stopper token) #[]

/-- Which of several banks a selection makes visible.  Selections count modulo the
number of banks. -/
def bankIndex (panel : Panel) (banks : Array Cells) (selector : String) : Nat :=
  panel.current selector % banks.size

/-- The bank that is visible. -/
def visible (panel : Panel) (banks : Array Cells) (selector : String) : Cells :=
  banks.getD (bankIndex panel banks selector) #[]

/-- The answer to a request for a byte. -/
def get8 (panel : Panel) (a : Word) : Device → Byte
  | .ram cells => cells.get8 a
  | .rom cells => cells.get8 a
  | .bank banks selector => (visible panel banks selector).get8 a
  | .hosted device store => device.get8 panel.current store a

/-- The answer to a request for a word. -/
def get16 (panel : Panel) (a : Word) : Device → Word
  | .ram cells => cells.get16 a
  | .rom cells => cells.get16 a
  | .bank banks selector => (visible panel banks selector).get16 a
  | .hosted device store => device.get16 panel.current store a

/-- The device after a request to store a byte. -/
def set8 (panel : Panel) (a : Word) (v : Byte) : Device → Device
  | .ram cells => .ram (cells.set8 a v)
  | .rom cells => .rom cells
  | .bank banks selector =>
    .bank (banks.modify (bankIndex panel banks selector) (·.set8 a v)) selector
  | .hosted device store => .hosted device (device.set8 panel.current a v store)

/-- The device after a request to store a word. -/
def set16 (panel : Panel) (a : Word) (v : Word) : Device → Device
  | .ram cells => .ram (cells.set16 a v)
  | .rom cells => .rom cells
  | .bank banks selector =>
    .bank (banks.modify (bankIndex panel banks selector) (·.set16 a v)) selector
  | .hosted device store => .hosted device (device.set16 panel.current a v store)

/-- The panel after a request. -/
def observe (access : Access) (panel : Panel) : Device → Panel
  | .hosted device store => device.observe access store panel
  | _ => panel

/-- No request changes what a selector selects. -/
@[simp] theorem current_observe (access : Access) (panel : Panel) (d : Device) (s : String) :
    (d.observe access panel).current s = panel.current s := by
  cases d with
  | ram | rom | bank => rfl
  | hosted device store => exact device.current_observe access store panel s

/-- No request takes a stop back. -/
theorem isTriggered_observe (access : Access) {panel : Panel} (d : Device) {t : StopToken}
    (h : panel.isTriggered t = true) : (d.observe access panel).isTriggered t = true := by
  cases d with
  | ram | rom | bank => exact h
  | hosted device store => exact device.isTriggered_observe access store panel t h

end Device
end WordMachine
