import WordMachine.Proofs.Memory.Change
import WordMachine.Proofs.Memory.History

/-!
# Memory with all checks

The functions on memory answer something also where they should not be asked: a remainder by zero
is a number, a difference that would be negative wraps, and behind the end of an array there is a
default.  Here they are written again with a check in front of each of these steps, and they fail
where a check fails, in a way of their own (`Fault.check`).  The result is that on sound memory
(`AddressSpace.Sound`) no check ever fails, so that none of these answers is ever used.

Three things make the checks pass.  An address in a region is not in front of it, and the offset is
no larger than the address, so it is a word again.  No store is empty, since a device that is asked
for without bytes, banks or an image gets one of them (`Device.Built.hasCells`); therefore the
remainders are remainders, and indices are in range.  And a region stands where the search has found
it.

One check does not follow from the memory alone, that on the counter of handles.  It has sixty-four
bits, and whoever maps a device has to know that it is not at its end.

* `CheckedMemory`: actions on memory with their checks.
* `AddressSpace.Sound`: the invariant.
* `Follows`: no check fails, and the outcome is the one without checks.
* `CheckedMemory.follows_read8`, ..., `CheckedMemory.follows_load`: so it is with every request.
-/

namespace WordMachine

/-! ## Steps with a check -/

/-- The remainder, which there is not if the divisor is zero. -/
def mod? (a n : Nat) : Option Nat := if n = 0 then none else some (a % n)

/-- The difference, which there is not if it is below zero. -/
def sub? (a b : Nat) : Option Nat := if b ≤ a then some (a - b) else none

/-- The number as a word, if it has no more than sixteen bits. -/
def word? (n : Nat) : Option Word := if n < addressCount then some (UInt16.ofNat n) else none

theorem mod?_eq {n : Nat} (h : 0 < n) (a : Nat) : mod? a n = some (a % n) :=
  if_neg (Nat.ne_of_gt h)

theorem sub?_eq {a b : Nat} (h : b ≤ a) : sub? a b = some (a - b) := if_pos h

theorem word?_eq {n : Nat} (h : n < addressCount) : word? n = some (UInt16.ofNat n) := if_pos h

namespace Cells

variable {cells : Cells}

/-- Where the byte with a given address is. -/
def index? (cells : Cells) (a : Word) : Option Nat := mod? a.toNat cells.size

/-- The byte at an address. -/
def get8? (cells : Cells) (a : Word) : Option Byte := do
  let i ← cells.index? a
  cells[i]?

/-- The word at an address. -/
def get16? (cells : Cells) (a : Word) : Option Word := do
  let high ← cells.get8? a
  let low ← cells.get8? (a + 1)
  some (Word.ofBytes high low)

/-- The cells after a byte has been stored. -/
def set8? (cells : Cells) (a : Word) (v : Byte) : Option Cells := do
  let i ← cells.index? a
  let _ ← cells[i]?
  some (cells.setIfInBounds i v)

/-- The cells after a word has been stored. -/
def set16? (cells : Cells) (a : Word) (v : Word) : Option Cells := do
  let cells ← cells.set8? a (Word.high v)
  cells.set8? (a + 1) (Word.low v)

theorem index?_eq (h : 0 < cells.size) (a : Word) : cells.index? a = some (cells.index a) :=
  mod?_eq h _

/-- The index is one of a cell. -/
theorem getElem?_index (h : 0 < cells.size) (a : Word) :
    cells[cells.index a]? = some (cells.get8 a) := by
  rw [get8, Array.getD_eq_getD_getElem?, Array.getElem?_eq_getElem (index_lt h a), Option.getD_some]

theorem get8?_eq (h : 0 < cells.size) (a : Word) : cells.get8? a = some (cells.get8 a) := by
  rw [get8?, index?_eq h]
  exact getElem?_index h a

theorem get16?_eq (h : 0 < cells.size) (a : Word) : cells.get16? a = some (cells.get16 a) := by
  rw [get16?, get8?_eq h, get8?_eq h]
  rfl

theorem set8?_eq (h : 0 < cells.size) (a : Word) (v : Byte) :
    cells.set8? a v = some (cells.set8 a v) := by
  rw [set8?, index?_eq h]
  show (cells[cells.index a]?).bind _ = _
  rw [getElem?_index h]
  rfl

theorem set16?_eq (h : 0 < cells.size) (a v : Word) :
    cells.set16? a v = some (cells.set16 a v) := by
  rw [set16?, set8?_eq h]
  exact set8?_eq (Nat.lt_of_lt_of_eq h (size_set8 _ _ _).symm) _ _

end Cells

namespace Device

/-! ## Devices -/

/-- No store of the device is empty, and it has banks if it is one of banks.  Of a device of the
host's nothing is asked. -/
def HasCells : Device → Prop
  | .ram cells | .rom cells => 0 < cells.size
  | .bank banks _ => 0 < banks.size ∧ ∀ c ∈ banks, 0 < c.size
  | .hosted _ _ => True

/-- The device is new, or it was new once and has been written since. -/
inductive Built : Device → Prop where
  | ram (size : Nat) : Built (newRam size)
  | rom (image : List Byte) : Built (newRom image)
  | bank (count size : Nat) (selector : String) : Built (newBank count size selector)
  | set8 {d : Device} (h : Built d) (panel : Panel) (a : Word) (v : Byte) :
    Built (d.set8 panel a v)
  | set16 {d : Device} (h : Built d) (panel : Panel) (a v : Word) : Built (d.set16 panel a v)

/-- A change of a bank that leaves its size leaves no bank empty. -/
theorem hasCells_modify {banks : Array Cells} {selector : String}
    (h : (bank banks selector).HasCells) (i : Nat) {f : Cells → Cells}
    (hf : ∀ c, (f c).size = c.size) :
    (bank (banks.modify i f) selector).HasCells := by
  refine ⟨Nat.lt_of_lt_of_eq h.1 (Array.size_modify ..).symm, fun c hc => ?_⟩
  obtain ⟨j, hj, rfl⟩ := Array.mem_iff_getElem.mp hc
  rw [Array.getElem_modify]
  have hbank := h.2 _ (Array.getElem_mem (Array.size_modify .. ▸ hj))
  split
  · exact Nat.lt_of_lt_of_eq hbank (hf _).symm
  · exact hbank

theorem HasCells.set8 {d : Device} (h : d.HasCells) (panel : Panel) (a : Word) (v : Byte) :
    (d.set8 panel a v).HasCells := by
  cases d with
  | ram cells => exact Nat.lt_of_lt_of_eq h (Cells.size_set8 cells a v).symm
  | bank banks selector => exact hasCells_modify h _ fun c => Cells.size_set8 c a v
  | rom | hosted => exact h

theorem HasCells.set16 {d : Device} (h : d.HasCells) (panel : Panel) (a v : Word) :
    (d.set16 panel a v).HasCells := by
  cases d with
  | ram cells => exact Nat.lt_of_lt_of_eq h (Cells.size_set16 cells a v).symm
  | bank banks selector => exact hasCells_modify h _ fun c => Cells.size_set16 c a v
  | rom | hosted => exact h

/-- Whatever sizes it was asked for with, a device has cells. -/
theorem Built.hasCells {d : Device} (h : d.Built) : d.HasCells := by
  induction h with
  | ram size => exact Cells.size_zeros_pos size
  | rom image => exact Cells.size_ofBytes_pos image
  | bank count size selector =>
    refine ⟨?_, fun c hc => ?_⟩
    · rw [Array.size_replicate]
      exact Nat.lt_of_lt_of_le Nat.one_pos (Nat.le_max_right count 1)
    · rw [Array.eq_of_mem_replicate hc]
      exact Cells.size_zeros_pos size
  | set8 h panel a v ih => exact ih.set8 panel a v
  | set16 h panel a v ih => exact ih.set16 panel a v

/-- The bank that is visible, with its number. -/
def visible? (panel : Panel) (banks : Array Cells) (selector : String) : Option (Nat × Cells) := do
  let i ← mod? (panel.current selector) banks.size
  let c ← banks[i]?
  some (i, c)

/-- What is read of the cells that the device shows.  A device of the host's has its answer. -/
def read? {α : Type} (panel : Panel) (read : Cells → Option α) (answer : α) : Device → Option α
  | .ram cells | .rom cells => read cells
  | .bank banks selector => do
    let visible ← visible? panel banks selector
    read visible.2
  | .hosted _ _ => some answer

/-- The device after a change of the cells that it shows.  A ROM shows none to a change, and a
device of the host's changes as it likes. -/
def write? (panel : Panel) (write : Cells → Option Cells) (changed : Device) :
    Device → Option Device
  | .ram cells => do
    let cells ← write cells
    some (.ram cells)
  | .rom cells => some (.rom cells)
  | .bank banks selector => do
    let visible ← visible? panel banks selector
    let c ← write visible.2
    some (.bank (banks.setIfInBounds visible.1 c) selector)
  | .hosted _ _ => some changed

/-- The answer to a request for a byte. -/
def get8? (panel : Panel) (a : Word) (d : Device) : Option Byte :=
  d.read? panel (·.get8? a) (d.get8 panel a)

/-- The answer to a request for a word. -/
def get16? (panel : Panel) (a : Word) (d : Device) : Option Word :=
  d.read? panel (·.get16? a) (d.get16 panel a)

/-- The device after a request to store a byte. -/
def set8? (panel : Panel) (a : Word) (v : Byte) (d : Device) : Option Device :=
  write? panel (·.set8? a v) (d.set8 panel a v) d

/-- The device after a request to store a word. -/
def set16? (panel : Panel) (a v : Word) (d : Device) : Option Device :=
  write? panel (·.set16? a v) (d.set16 panel a v) d

theorem visible?_eq {banks : Array Cells} {selector : String} (h : (bank banks selector).HasCells)
    (panel : Panel) :
    visible? panel banks selector =
        some (bankIndex panel banks selector, visible panel banks selector) ∧
      0 < (visible panel banks selector).size := by
  have hlt : bankIndex panel banks selector < banks.size := Nat.mod_lt _ h.1
  have hvisible : banks[bankIndex panel banks selector]? = some (visible panel banks selector) := by
    rw [visible, Array.getD_eq_getD_getElem?, Array.getElem?_eq_getElem hlt, Option.getD_some]
  refine ⟨?_, h.2 _ (Array.mem_of_getElem? hvisible)⟩
  rw [visible?, mod?_eq h.1]
  show (banks[bankIndex panel banks selector]?).bind _ = _
  rw [hvisible]
  rfl

theorem get8?_eq {d : Device} (h : d.HasCells) (panel : Panel) (a : Word) :
    d.get8? panel a = some (d.get8 panel a) := by
  cases d with
  | ram cells | rom cells => exact Cells.get8?_eq h a
  | bank banks selector =>
    obtain ⟨hvisible, hsize⟩ := visible?_eq h panel
    rw [get8?, read?, hvisible]
    exact Cells.get8?_eq hsize a
  | hosted => rfl

theorem get16?_eq {d : Device} (h : d.HasCells) (panel : Panel) (a : Word) :
    d.get16? panel a = some (d.get16 panel a) := by
  cases d with
  | ram cells | rom cells => exact Cells.get16?_eq h a
  | bank banks selector =>
    obtain ⟨hvisible, hsize⟩ := visible?_eq h panel
    rw [get16?, read?, hvisible]
    exact Cells.get16?_eq hsize a
  | hosted => rfl

/-- Writing the bank that is visible is a change of that bank. -/
theorem write?_bank {banks : Array Cells} {selector : String} (h : (bank banks selector).HasCells)
    (panel : Panel) {write : Cells → Option Cells} {f : Cells → Cells} (changed : Device)
    (hwrite : ∀ c : Cells, 0 < c.size → write c = some (f c)) :
    write? panel write changed (bank banks selector) =
      some (.bank (banks.modify (bankIndex panel banks selector) f) selector) := by
  obtain ⟨hvisible, hsize⟩ := visible?_eq h panel
  have hset : banks.setIfInBounds (bankIndex panel banks selector)
      (f (visible panel banks selector)) = banks.modify (bankIndex panel banks selector) f := by
    refine Array.ext_getElem? fun i => ?_
    rw [Array.getElem?_setIfInBounds, Array.getElem?_modify]
    split
    · rename_i hi
      subst hi
      have hlt : bankIndex panel banks selector < banks.size := Nat.mod_lt _ h.1
      rw [if_pos hlt, visible, Array.getD_eq_getD_getElem?, Array.getElem?_eq_getElem hlt]
      rfl
    · rfl
  rw [write?, hvisible]
  show (write (visible panel banks selector)).bind _ = _
  rw [hwrite _ hsize, ← hset]
  rfl

theorem set8?_eq {d : Device} (h : d.HasCells) (panel : Panel) (a : Word) (v : Byte) :
    d.set8? panel a v = some (d.set8 panel a v) := by
  cases d with
  | ram cells =>
    rw [set8?, write?, Cells.set8?_eq h]
    rfl
  | bank banks selector => exact write?_bank h panel _ fun c hc => Cells.set8?_eq hc a v
  | rom | hosted => rfl

theorem set16?_eq {d : Device} (h : d.HasCells) (panel : Panel) (a v : Word) :
    d.set16? panel a v = some (d.set16 panel a v) := by
  cases d with
  | ram cells =>
    rw [set16?, write?, Cells.set16?_eq h]
    rfl
  | bank banks selector => exact write?_bank h panel _ fun c hc => Cells.set16?_eq hc a v
  | rom | hosted => rfl

end Device

/-! ## Regions -/

/-- Changes the first element that satisfies a condition, by a change that may fail. -/
def modifyFirst? {α : Type} (p : α → Bool) (f : α → Option α) : List α → Option (List α)
  | [] => some []
  | x :: rest =>
    if p x then do
      let y ← f x
      some (y :: rest)
    else do
      let rest ← modifyFirst? p f rest
      some (x :: rest)

theorem modifyFirst?_eq {α : Type} {p : α → Bool} {f? : α → Option α} {f : α → α} {l : List α}
    (h : ∀ x ∈ l, p x = true → f? x = some (f x)) :
    modifyFirst? p f? l = some (modifyFirst p f l) := by
  induction l with
  | nil => rfl
  | cons x l ih =>
    obtain ⟨hx, hl⟩ := List.forall_mem_cons.mp h
    rw [modifyFirst?, modifyFirst]
    split
    · rename_i hp
      rw [hx hp]
      rfl
    · rw [ih hl]
      rfl

/-- What holds of all elements and is kept by the change holds of all elements afterwards. -/
theorem forall_mem_modifyFirst {α : Type} {p : α → Bool} {f : α → α} {P : α → Prop} {l : List α}
    (h : ∀ x ∈ l, P x) (hf : ∀ x, P x → P (f x)) : ∀ x ∈ modifyFirst p f l, P x := by
  induction l with
  | nil => exact h
  | cons x l ih =>
    obtain ⟨hx, hl⟩ := List.forall_mem_cons.mp h
    rw [modifyFirst]
    split
    · exact List.forall_mem_cons.mpr ⟨hf x hx, hl⟩
    · exact List.forall_mem_cons.mpr ⟨hx, ih hl⟩

namespace Region

variable {r : Region} {a : Word}

/-- The address as the device sees it. -/
def deviceAddress? (r : Region) (a : Word) : Option Word :=
  if r.remap then do
    let offset ← sub? a.toNat r.start.toNat
    word? offset
  else some a

/-- The region after a change of its device, which depends on the address that the device sees. -/
def write (a : Word) (change : Word → Device → Device) (r : Region) : Region :=
  { r with device := change (r.deviceAddress a) r.device }

/-- The same, if the change may fail. -/
def write? (a : Word) (change : Word → Device → Option Device) (r : Region) : Option Region := do
  let inner ← r.deviceAddress? a
  let device ← change inner r.device
  some { r with device }

/-- The region lies within the address space, and its device has been built. -/
structure Sound (r : Region) : Prop where
  start_le_stop : r.start.toNat ≤ r.stop
  stop_le : r.stop ≤ addressCount
  built : r.device.Built

/-- An address in a region is not in front of it, and what lies between fits in a word. -/
theorem offset_of_contains (h : r.contains a = true) :
    r.start.toNat ≤ a.toNat ∧ a.toNat - r.start.toNat < addressCount :=
  ⟨(contains_iff.mp h).1, Nat.lt_of_le_of_lt (Nat.sub_le _ _) a.toNat_lt⟩

theorem deviceAddress?_eq (h : r.contains a = true) :
    r.deviceAddress? a = some (r.deviceAddress a) := by
  obtain ⟨hstart, hlt⟩ := offset_of_contains h
  rw [deviceAddress?, deviceAddress]
  split
  · rw [sub?_eq hstart]
    show word? (a.toNat - r.start.toNat) = _
    rw [word?_eq hlt, ← UInt16.toNat_sub_of_le _ _ (UInt16.le_iff_toNat_le.mpr hstart),
      UInt16.ofNat_toNat]
  · rfl

theorem Sound.write (h : r.Sound) {change : Word → Device → Device}
    (hchange : ∀ inner d, d.Built → (change inner d).Built) (a : Word) :
    (r.write a change).Sound :=
  ⟨h.start_le_stop, h.stop_le, hchange _ _ h.built⟩

theorem Sound.write?_eq (h : r.Sound) (ha : r.contains a = true)
    {change? : Word → Device → Option Device} {change : Word → Device → Device}
    (hchange : ∀ inner d, d.HasCells → change? inner d = some (change inner d)) :
    r.write? a change? = some (r.write a change) := by
  rw [write?, deviceAddress?_eq ha]
  show (change? (r.deviceAddress a) r.device).bind _ = _
  rw [hchange _ _ h.built.hasCells]
  rfl

end Region

/-! ## The invariant -/

namespace AddressSpace

variable {count : Nat} {m m' : AddressSpace}

/-- A memory for which a number of mappings have been made. -/
structure Sound (count : Nat) (m : AddressSpace) : Prop where
  ordered : m.Ordered
  nextHandle : m.nextHandle = count
  region : ∀ r ∈ m.regions, r.Sound

theorem sound_empty : Sound 0 empty := ⟨⟨List.Pairwise.nil, nofun⟩, rfl, nofun⟩

theorem Sound.agrees (h : m.Sound count) (hagrees : m.Agrees m') : m'.Sound count where
  ordered := by
    obtain ⟨hdescending, hlt⟩ := h.ordered
    rw [← hagrees.regions] at hdescending hlt
    exact ⟨hdescending, hagrees.nextHandle ▸ hlt⟩
  nextHandle := hagrees.nextHandle.trans h.nextHandle
  region := hagrees.regions ▸ h.region

/-- A change of the device of one region. -/
theorem Sound.modifyFirst (h : m.Sound count) (p : Region → Bool) {f : Region → Region}
    (hhandle : ∀ r, (f r).handle = r.handle) (hsound : ∀ r, r.Sound → (f r).Sound) :
    Sound count { m with regions := WordMachine.modifyFirst p f m.regions } := by
  have hhandles := map_modifyFirst p hhandle m.regions
  have hdescending : (m.regions.map Region.handle).Pairwise fun i j => j < i :=
    List.pairwise_map.mpr h.ordered.descending
  have hlt : ∀ i ∈ m.regions.map Region.handle, i < m.nextHandle :=
    List.forall_mem_map.mpr h.ordered.lt_next
  rw [← hhandles] at hdescending hlt
  exact ⟨⟨List.pairwise_map.mp hdescending, List.forall_mem_map.mp hlt⟩, h.nextHandle,
    forall_mem_modifyFirst h.region hsound⟩

end AddressSpace

/-! ## Actions with checks -/

/-- How many handles there are: they have sixty-four bits. -/
def handleCount : Nat := 0x10000000000000000

/-- Where a sum of addresses and sizes ends: it has thirty-two bits, and it does not wrap. -/
def sumLimit : Nat := 0xFFFFFFFF

/-- How an action with checks fails: as one without, or because a check has failed. -/
inductive Fault where
  | memory (e : MemoryError)
  | check
  deriving DecidableEq, Repr

/-- An action on memory, with its checks. -/
abbrev CheckedMemory := EStateM Fault AddressSpace

namespace CheckedMemory

/-- Reads at an address. -/
def read {α : Type} (get : Panel → Word → Device → Option α) (request : Word → Access) (a : Word) :
    CheckedMemory α := fun m =>
  match m.region? a with
  | none => .error (.memory (.unmapped a)) m
  | some r =>
    match (r.deviceAddress? a).bind (get m.panel · r.device) with
    | some x => .ok x (m.observe a request)
    | none => .error .check m

/-- Writes at an address. -/
def write (set : Panel → Word → Device → Option Device) (request : Word → Access) (a : Word) :
    CheckedMemory Unit := fun m =>
  if m.isMapped a then
    let m := m.observe a request
    match modifyFirst? (·.contains a) (Region.write? a (set m.panel)) m.regions with
    | some regions => .ok () { m with regions }
    | none => .error .check m
  else .error (.memory (.unmapped a)) m

/-- Reads a byte. -/
def read8 (a : Word) : CheckedMemory Byte := read Device.get8? .get8 a

/-- Reads a word. -/
def read16 (a : Word) : CheckedMemory Word := read Device.get16? .get16 a

/-- Writes a byte. -/
def write8 (a : Word) (v : Byte) : CheckedMemory Unit :=
  write (Device.set8? · · v) (.set8 · v) a

/-- Writes a word. -/
def write16 (a : Word) (v : Word) : CheckedMemory Unit :=
  write (Device.set16? · · v) (.set16 · v) a

/-- Writes bytes one after the other. -/
def load (a : Word) : List Byte → CheckedMemory Unit
  | [] => pure ()
  | b :: rest => do
    write8 a b
    load (a + 1) rest

/-- Maps a device.  The handle after this one has to be a handle too. -/
def map (x : Mapping) : CheckedMemory Nat := fun m =>
  if m.nextHandle + 1 < handleCount then
    let sum := min (x.start.toNat + x.size) sumLimit
    let region : Region :=
      { handle := m.nextHandle, start := x.start, stop := min sum addressCount, remap := x.remap,
        device := x.device }
    .ok m.nextHandle { m with regions := region :: m.regions, nextHandle := m.nextHandle + 1 }
  else .error .check m

/-- Takes a region away from the place where it stands. -/
def unmap (handle : Nat) : CheckedMemory (Option Device) := fun m =>
  match m.regions.findIdx? (·.handle == handle) with
  | none => .ok none m
  | some i =>
    match m.regions[i]? with
    | some r => .ok (some r.device) { m with regions := m.regions.eraseIdx i }
    | none => .error .check m

end CheckedMemory

/-! ## Passing all checks -/

section Follows

variable {σ α β : Type} {I : σ → Prop} {E : MemoryError → σ → Prop}

/-- The results are the same, and none is of a check.  The state satisfies `I`, and an error goes
with its state by `E`. -/
inductive Passes (I : σ → Prop) (E : MemoryError → σ → Prop) :
    EStateM.Result MemoryError σ α → EStateM.Result Fault σ α → Prop
  | ok (a : α) (s : σ) (h : I s) : Passes I E (.ok a s) (.ok a s)
  | error (e : MemoryError) (s : σ) (h : I s) (he : E e s) :
    Passes I E (.error e s) (.error (.memory e) s)

theorem Passes.cases {x : EStateM.Result MemoryError σ α} {y : EStateM.Result Fault σ α}
    (h : Passes I E x y) :
    (∃ a s, x = .ok a s ∧ y = .ok a s ∧ I s) ∨
      ∃ e s, x = .error e s ∧ y = .error (.memory e) s ∧ I s ∧ E e s := by
  cases h with
  | ok a s h => exact .inl ⟨a, s, rfl, rfl, h⟩
  | error e s h he => exact .inr ⟨e, s, rfl, rfl, h, he⟩

/-- From every state with `I`, the second action passes its checks and does what the first does. -/
def Follows (I : σ → Prop) (E : MemoryError → σ → Prop) (x : EStateM MemoryError σ α)
    (y : EStateM Fault σ α) : Prop := ∀ s, I s → Passes I E (x s) (y s)

theorem bind_ok {ε : Type} {x : EStateM ε σ α} {f : α → EStateM ε σ β} {s t : σ} {a : α}
    (h : x s = .ok a t) : (x >>= f) s = f a t := by
  show EStateM.bind x f s = _
  rw [EStateM.bind, h]

theorem bind_error {ε : Type} {x : EStateM ε σ α} {f : α → EStateM ε σ β} {s t : σ} {e : ε}
    (h : x s = .error e t) : (x >>= f) s = .error e t := by
  show EStateM.bind x f s = _
  rw [EStateM.bind, h]

theorem follows_pure (a : α) : Follows I E (pure a) (pure a) := fun s hs => .ok a s hs

theorem Follows.bind {x : EStateM MemoryError σ α} {y : EStateM Fault σ α}
    {f : α → EStateM MemoryError σ β} {g : α → EStateM Fault σ β} (hx : Follows I E x y)
    (hf : ∀ a, Follows I E (f a) (g a)) : Follows I E (x >>= f) (y >>= g) := by
  intro s hs
  rcases (hx s hs).cases with ⟨a, t, hxs, hys, ht⟩ | ⟨e, t, hxs, hys, ht, he⟩
  · rw [bind_ok hxs, bind_ok hys]
    exact hf a t ht
  · rw [bind_error hxs, bind_error hys]
    exact .error e t ht he

end Follows

/-- The error is of an address at which nothing is mapped. -/
def MemoryError.Holds (m : AddressSpace) : MemoryError → Prop
  | .unmapped a => m.isMapped a = false

namespace CheckedMemory

variable {count : Nat}

/-- On sound memory, an action does what it does with its checks. -/
abbrev FollowsAt (count : Nat) {α : Type} (x : MemoryAction α) (y : CheckedMemory α) : Prop :=
  Follows (AddressSpace.Sound count) (fun e m => e.Holds m) x y

variable {α : Type} {a : Word} {request : Word → Access}

theorem follows_read {get? : Panel → Word → Device → Option α} {get : Panel → Word → Device → α}
    (hget : ∀ panel inner d, d.HasCells → get? panel inner d = some (get panel inner d))
    {x : MemoryAction α}
    (hx : ∀ m, x m = match m.region? a with
      | none => .error (.unmapped a) m
      | some r => .ok (get m.panel (r.deviceAddress a) r.device) (m.observe a request)) :
    FollowsAt count x (read get? request a) := by
  intro m hm
  rw [hx, read]
  cases hregion : m.region? a with
  | none =>
    have hun : m.isMapped a = false := by
      rw [AddressSpace.isMapped_eq, hregion]
      rfl
    exact .error _ m hm hun
  | some r =>
    obtain ⟨hcontains, -⟩ := List.find?_eq_some_iff_append.mp hregion
    have hr := hm.region r (List.mem_of_find?_eq_some hregion)
    dsimp only
    rw [Region.deviceAddress?_eq hcontains, Option.bind_some, hget _ _ _ hr.built.hasCells]
    exact .ok _ _ (hm.agrees (AddressSpace.agrees_observe m a request))

theorem follows_write {set? : Panel → Word → Device → Option Device}
    {set : Panel → Word → Device → Device}
    (hset : ∀ panel inner d, d.HasCells → set? panel inner d = some (set panel inner d))
    (hbuilt : ∀ panel inner d, d.Built → (set panel inner d).Built) {x : MemoryAction Unit}
    (hx : ∀ m, x m =
      let seen := m.observe a request
      let regions := modifyFirst (·.contains a) (Region.write a (set seen.panel)) seen.regions
      if m.isMapped a then .ok () { seen with regions } else .error (.unmapped a) m) :
    FollowsAt count x (write set? request a) := by
  intro m hm
  rw [hx, write]
  cases hmapped : m.isMapped a with
  | false => exact .error _ m hm hmapped
  | true =>
    have hseen := hm.agrees (AddressSpace.agrees_observe m a request)
    have hregions := modifyFirst?_eq (p := (·.contains a)) fun r hr hcontains =>
      (hseen.region r hr).write?_eq hcontains (hset (m.observe a request).panel)
    rw [if_pos rfl, if_pos rfl]
    dsimp only
    rw [hregions]
    exact .ok _ _ (hseen.modifyFirst _ (fun _ => rfl) fun r hr => hr.write (hbuilt _) a)

theorem follows_read8 (a : Word) : FollowsAt count (.read8 a) (read8 a) :=
  follows_read (fun panel inner _ h => Device.get8?_eq h panel inner) fun m => by
    rw [MemoryAction.read8, AddressSpace.peek8]
    cases m.region? a <;> rfl

theorem follows_read16 (a : Word) : FollowsAt count (.read16 a) (read16 a) :=
  follows_read (fun panel inner _ h => Device.get16?_eq h panel inner) fun m => by
    rw [MemoryAction.read16, AddressSpace.peek16]
    cases m.region? a <;> rfl

theorem follows_write8 (a : Word) (v : Byte) : FollowsAt count (.write8 a v) (write8 a v) :=
  follows_write (fun panel inner _ h => Device.set8?_eq h panel inner v)
    (fun panel inner _ h => h.set8 panel inner v) fun _ => rfl

theorem follows_write16 (a v : Word) : FollowsAt count (.write16 a v) (write16 a v) :=
  follows_write (fun panel inner _ h => Device.set16?_eq h panel inner v)
    (fun panel inner _ h => h.set16 panel inner v) fun _ => rfl

theorem follows_load (a : Word) (bytes : List Byte) :
    FollowsAt count (.load a bytes) (load a bytes) := by
  induction bytes generalizing a with
  | nil => exact follows_pure ()
  | cons b bytes ih => exact (follows_write8 a b).bind fun _ => ih (a + 1)

end CheckedMemory
end WordMachine
