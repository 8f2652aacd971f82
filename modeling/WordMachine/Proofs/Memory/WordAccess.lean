import WordMachine.Proofs.Memory.Change

/-!
# Words and their two bytes

A word is read and written by one device, the one that its first address leads to.  Two requests
for a byte each may lead to two devices.  So there are two questions: whether the device does with
a word what it does with the two bytes, and whether both bytes are its own.

The first is a matter of the device alone, and of how a region counts: the address after `a` is
behind the region the address after the one of `a`, whether the region is remapped or not
(`Region.deviceAddress_add_one`).  For every device that stores bytes as they come, storing a word
is storing its two bytes (`Device.set16_eq`), and reading one is reading two.  None can be smaller
than a word in a way that matters, since both ways of counting wrap alike.  A device that the host
brings along may do with a word what it likes.

The second is a matter of who wins at the next address.  If it is the same region, a request for
a word is two requests for a byte.  If it is another one, or none, nothing of that is noticed: the
device goes on counting, past its end to its start if need be.

* `Device.store?`: the bytes that requests to a device go to.
* `AddressSpace.poke16_eq_poke8`: a word that lies in one region.
* `MemoryAction.read16_of_store?`, `MemoryAction.write16_of_store?`: a word wherever it lies.
* `MemoryAction.word_access`: both cases.
-/

namespace WordMachine

namespace Word

/-- The byte stored first, as a number of 256s. -/
theorem high_eq_ofNat (v : Word) : high v = UInt8.ofNat (v.toNat / 256) := by
  rw [← toNat_high, UInt8.ofNat_toNat]

/-- The byte stored second, as what is left of the 256s. -/
theorem low_eq_ofNat (v : Word) : low v = UInt8.ofNat (v.toNat % 256) := by
  rw [← toNat_low, UInt8.ofNat_toNat]

end Word

namespace Cells

/-- The address after the given one, as an index. -/
theorem index_add_one (cells : Cells) (a : Word) :
    cells.index (a + 1) = (a.toNat + 1) % addressCount % cells.size := by
  rw [index, UInt16.toNat_add]
  rfl

/-- A word is read from two cells, which need not follow each other. -/
theorem get16_eq_getD (cells : Cells) (a : Word) :
    cells.get16 a = Word.ofBytes (cells.getD (a.toNat % cells.size) 0)
      (cells.getD ((a.toNat + 1) % addressCount % cells.size) 0) := by
  rw [get16, get8, get8, index_add_one, index]

/-- A word is written to two cells, the high byte first. -/
theorem set16_eq_setIfInBounds (cells : Cells) (a v : Word) :
    cells.set16 a v = (cells.setIfInBounds (a.toNat % cells.size) (Word.high v)).setIfInBounds
      ((a.toNat + 1) % addressCount % cells.size) (Word.low v) := by
  rw [set16, set8, index_add_one, size_set8]
  rfl

end Cells

/-! ## Devices -/

namespace Device

/-- The bytes that requests go to, if the device is one that stores them as they come.  What a
device of the host's stores is not known. -/
def store? (panel : Panel) : Device → Option Cells
  | .ram cells | .rom cells => some cells
  | .bank banks selector => some (visible panel banks selector)
  | .hosted _ _ => none

/-- The device after a store that leaves the given bytes where requests go to.  A ROM does not
take them, and what a device of the host's makes of them is not known. -/
def stored (panel : Panel) (cells : Cells) : Device → Device
  | .ram _ => .ram cells
  | .bank banks selector =>
    .bank (banks.setIfInBounds (bankIndex panel banks selector) cells) selector
  | d => d

variable {panel : Panel} {d : Device} {cells : Cells}

theorem get8_of_store? (h : d.store? panel = some cells) (a : Word) :
    d.get8 panel a = cells.get8 a := by
  cases d with
  | ram | rom | bank =>
    obtain rfl := Option.some.inj h
    rfl
  | hosted => nomatch h

theorem get16_of_store? (h : d.store? panel = some cells) (a : Word) :
    d.get16 panel a = cells.get16 a := by
  cases d with
  | ram | rom | bank =>
    obtain rfl := Option.some.inj h
    rfl
  | hosted => nomatch h

/-- Changing one bank is putting the changed one in its place. -/
theorem modify_eq_setIfInBounds (banks : Array Cells) (k : Nat) (f : Cells → Cells) :
    banks.modify k f = banks.setIfInBounds k (f (banks.getD k #[])) := by
  apply Array.ext_getElem?
  intro i
  rw [Array.getElem?_modify, Array.getElem?_setIfInBounds]
  by_cases hk : k = i
  · subst hk
    rw [if_pos rfl, if_pos rfl, Array.getD_eq_getD_getElem?]
    by_cases hlt : k < banks.size
    · rw [if_pos hlt, Array.getElem?_eq_getElem hlt]
      rfl
    · rw [if_neg hlt, Array.getElem?_eq_none (Nat.le_of_not_lt hlt)]
      rfl
  · rw [if_neg hk, if_neg hk]

/-- Changing one bank twice is changing it once, by both. -/
theorem modify_modify (banks : Array Cells) (k : Nat) (f g : Cells → Cells) :
    (banks.modify k f).modify k g = banks.modify k fun cells => g (f cells) := by
  apply Array.ext_getElem?
  intro i
  simp only [Array.getElem?_modify]
  by_cases hk : k = i
  · rw [if_pos hk, if_pos hk, if_pos hk, Option.map_map]
    rfl
  · rw [if_neg hk, if_neg hk, if_neg hk]

theorem set16_of_store? (h : d.store? panel = some cells) (a v : Word) :
    d.set16 panel a v = d.stored panel (cells.set16 a v) := by
  cases d with
  | ram | rom =>
    obtain rfl := Option.some.inj h
    rfl
  | bank banks selector =>
    obtain rfl := Option.some.inj h
    exact congrArg (bank · selector) (modify_eq_setIfInBounds banks _ _)
  | hosted => nomatch h

/-- Requests to bytes leave no trace. -/
theorem observe_of_store? (h : d.store? panel = some cells) (access : Access) (p : Panel) :
    d.observe access p = p := by
  cases d with
  | ram | rom | bank => rfl
  | hosted => nomatch h

/-- Such a device leaves none either when it has been written. -/
theorem observe_set8 (h : d.store? panel = some cells) (a : Word) (v : Byte) (access : Access)
    (p : Panel) : (d.set8 panel a v).observe access p = p := by
  cases d with
  | ram | rom | bank => rfl
  | hosted => nomatch h

/-- Storing a word is storing its two bytes, one after the other. -/
theorem set16_eq (h : d.store? panel = some cells) (a v : Word) :
    d.set16 panel a v = (d.set8 panel a (Word.high v)).set8 panel (a + 1) (Word.low v) := by
  cases d with
  | ram | rom => rfl
  | hosted => nomatch h
  | bank banks selector =>
    have hbank : bankIndex panel (banks.modify (bankIndex panel banks selector)
        (·.set8 a (Word.high v))) selector = bankIndex panel banks selector := by
      rw [bankIndex, bankIndex, Array.size_modify]
    rw [set8, set8, hbank, modify_modify]
    rfl

end Device

namespace Region

/-- A region counts on from one address to the next. -/
theorem deviceAddress_add_one (r : Region) (a : Word) :
    r.deviceAddress (a + 1) = r.deviceAddress a + 1 := by
  unfold deviceAddress
  split
  · grind
  · rfl

/-- Storing a word behind a region is storing its two bytes at the address and the next one. -/
theorem set16_eq {panel : Panel} {r : Region} {cells : Cells}
    (h : r.device.store? panel = some cells) (a v : Word) :
    r.set16 panel a v = (r.set8 panel a (Word.high v)).set8 panel (a + 1) (Word.low v) := by
  show ({ r with device := _ } : Region) = { r with device := _ }
  rw [Device.set16_eq h, ← deviceAddress_add_one]
  rfl

/-- Storing a word changes the device behind the region, and not where it lies. -/
theorem set16_of_store? {panel : Panel} {r : Region} {cells : Cells}
    (h : r.device.store? panel = some cells) (a v : Word) :
    r.set16 panel a v =
      { r with device := r.device.stored panel (cells.set16 (r.deviceAddress a) v) } := by
  rw [set16, Device.set16_of_store? h]

end Region

/-! ## The region in its place -/

/-- Changing the first element with a property changes the one at its place. -/
theorem modifyFirst_eq_modify {α : Type} {p : α → Bool} {l : List α} {i : Nat}
    (h : l.findIdx? p = some i) (f : α → α) : modifyFirst p f l = l.modify i f := by
  apply List.ext_getElem?
  intro k
  rw [getElem?_modifyFirst, List.getElem?_modify, h]
  by_cases hk : i = k
  · simp [hk]
  · simp [hk]

/-- What is done to the element at a place is a matter of this element only. -/
theorem modify_congr {α : Type} {l : List α} {i : Nat} {x : α} {f g : α → α}
    (hx : l[i]? = some x) (h : f x = g x) : l.modify i f = l.modify i g := by
  apply List.ext_getElem?
  intro k
  rw [List.getElem?_modify, List.getElem?_modify]
  by_cases hk : i = k
  · subst hk
    simp [hx, h]
  · simp [hk]

/-- A change of one element that a function does not see is one that the function does not see in
the list. -/
theorem map_modify {α β : Type} {f : α → α} {g : α → β} (h : ∀ x, g (f x) = g x) (l : List α)
    (i : Nat) : (l.modify i f).map g = l.map g := by
  apply List.ext_getElem?
  intro k
  rw [List.getElem?_map, List.getElem?_map, List.getElem?_modify]
  by_cases hk : i = k
  · simp [hk, Function.comp_def, h]
  · simp [hk]

namespace AddressSpace

/-- The space with another device behind the region with the number `i`. -/
def withDevice (m : AddressSpace) (i : Nat) (d : Device) : AddressSpace :=
  { m with regions := m.regions.modify i fun r => { r with device := d } }

variable {m : AddressSpace} {a : Word} {i : Nat} {r : Region} {cells : Cells}

theorem region?_of_winner? (hwin : m.winner? a = some i) (hr : m.regions[i]? = some r) :
    m.region? a = some r := by
  rw [region?_eq, hwin, Option.bind_some, hr]

theorem poke8_eq (hwin : m.winner? a = some i) (v : Byte) :
    m.poke8 a v = { m with regions := m.regions.modify i (Region.set8 m.panel a v) } := by
  rw [poke8, modifyFirst_eq_modify hwin]

theorem poke16_eq (hwin : m.winner? a = some i) (v : Word) :
    m.poke16 a v = { m with regions := m.regions.modify i (Region.set16 m.panel a v) } := by
  rw [poke16, modifyFirst_eq_modify hwin]

/-- A word that lies in one region is stored as its two bytes are. -/
theorem poke16_eq_poke8 (hwin : m.winner? a = some i) (hr : m.regions[i]? = some r)
    (hcells : r.device.store? m.panel = some cells) (hnext : m.winner? (a + 1) = some i)
    (v : Word) : m.poke16 a v = (m.poke8 a (Word.high v)).poke8 (a + 1) (Word.low v) := by
  have hnext' : (m.poke8 a (Word.high v)).winner? (a + 1) = some i := by
    rw [winner?_of_outline (changesOnly_poke8 m a _).outline, hnext]
  have hset : Region.set16 m.panel a v r =
      (Region.set8 m.panel (a + 1) (Word.low v) ∘ Region.set8 m.panel a (Word.high v)) r :=
    Region.set16_eq hcells a v
  rw [poke8_eq hnext', poke16_eq hwin, poke8_eq hwin, modify_congr hr hset, List.modify_modify_eq]

/-- A request to a device that leaves no trace leaves none. -/
theorem observe_eq_self (hregion : m.region? a = some r)
    (hquiet : ∀ access p, r.device.observe access p = p) (request : Word → Access) :
    m.observe a request = m := by
  rw [observe, hregion]
  dsimp only
  rw [hquiet]

theorem isMapped_of_region? (hregion : m.region? a = some r) : m.isMapped a = true := by
  rw [isMapped_eq, hregion]
  rfl

/-- Another device behind a region wins where the one before it won. -/
theorem winner?_withDevice (m : AddressSpace) (j : Nat) (d : Device) (a : Word) :
    (m.withDevice j d).winner? a = m.winner? a := by
  have hmap := map_modify (f := fun r : Region => { r with device := d })
    (g := fun r => r.contains a) (fun _ => rfl) m.regions j
  have hfind (l : List Region) :
      l.findIdx? (·.contains a) = (l.map (·.contains a)).findIdx? id := by
    rw [List.findIdx?_map]
    rfl
  rw [winner?, winner?, hfind, hfind]
  exact congrArg (List.findIdx? id) hmap

theorem getElem?_withDevice_of_ne {j : Nat} (h : j ≠ i) (d : Device) :
    (m.withDevice j d).regions[i]? = m.regions[i]? := by
  rw [withDevice, List.getElem?_modify]
  simp [h]

end AddressSpace

/-! ## Requests -/

namespace MemoryAction

open AddressSpace

variable {m : AddressSpace} {a : Word} {i : Nat} {r : Region} {cells : Cells}

theorem read8_of_store? (hwin : m.winner? a = some i) (hr : m.regions[i]? = some r)
    (hcells : r.device.store? m.panel = some cells) :
    read8 a m = .ok (cells.get8 (r.deviceAddress a)) m := by
  have hregion := region?_of_winner? hwin hr
  rw [read8, peek8, hregion]
  dsimp only
  rw [Device.get8_of_store? hcells, observe_eq_self hregion (Device.observe_of_store? hcells)]

/-- Wherever the second byte of a word lies, it is read by the device of the first. -/
theorem read16_of_store? (hwin : m.winner? a = some i) (hr : m.regions[i]? = some r)
    (hcells : r.device.store? m.panel = some cells) :
    read16 a m = .ok (cells.get16 (r.deviceAddress a)) m := by
  have hregion := region?_of_winner? hwin hr
  rw [read16, peek16, hregion]
  dsimp only
  rw [Device.get16_of_store? hcells, observe_eq_self hregion (Device.observe_of_store? hcells)]

/-- Wherever the second byte of a word lies, it is written by the device of the first. -/
theorem write16_of_store? (hwin : m.winner? a = some i) (hr : m.regions[i]? = some r)
    (hcells : r.device.store? m.panel = some cells) (v : Word) :
    write16 a v m = .ok ()
      (m.withDevice i (r.device.stored m.panel (cells.set16 (r.deviceAddress a) v))) := by
  have hregion := region?_of_winner? hwin hr
  rw [write16_of_isMapped (isMapped_of_region? hregion),
    observe_eq_self hregion (Device.observe_of_store? hcells), poke16_eq hwin, withDevice]
  let after (r' : Region) : Region :=
    { r' with device := r.device.stored m.panel (cells.set16 (r.deviceAddress a) v) }
  have hset : Region.set16 m.panel a v r = after r := Region.set16_of_store? hcells a v
  rw [modify_congr hr hset]

/-- A word that lies in one region is written by writing its two bytes. -/
theorem write16_eq_write8 (hwin : m.winner? a = some i) (hr : m.regions[i]? = some r)
    (hcells : r.device.store? m.panel = some cells) (hnext : m.winner? (a + 1) = some i)
    (v : Word) :
    write16 a v m =
      (write8 a (Word.high v) >>= fun _ => write8 (a + 1) (Word.low v)) m := by
  have hquiet := Device.observe_of_store? hcells
  have hregion := region?_of_winner? hwin hr
  -- the first byte that is written changes neither who wins behind it nor what is seen there
  have hwin' : (m.poke8 a (Word.high v)).winner? (a + 1) = some i := by
    rw [winner?_of_outline (changesOnly_poke8 m a _).outline, hnext]
  have hr' : (m.poke8 a (Word.high v)).regions[i]? = some (r.set8 m.panel a (Word.high v)) := by
    rw [poke8_eq hwin]
    simp [hr]
  have hregion' := region?_of_winner? hwin' hr'
  have hquiet' (access : Access) (p : Panel) :
      (r.set8 m.panel a (Word.high v)).device.observe access p = p := by
    rw [Region.set8, Device.observe_set8 hcells]
  have hfirst : write8 a (Word.high v) m = .ok () (m.poke8 a (Word.high v)) := by
    rw [write8_of_isMapped (isMapped_of_region? hregion), observe_eq_self hregion hquiet]
  simp only [bind, EStateM.bind, hfirst]
  rw [write8_of_isMapped (isMapped_of_region? hregion'), observe_eq_self hregion' hquiet',
    write16_of_isMapped (isMapped_of_region? hregion), observe_eq_self hregion hquiet,
    poke16_eq_poke8 hwin hr hcells hnext]

/-- **Word and byte accesses agree within a region.**  At an address where a device that stores
bytes wins: if the same region wins at the next address, a word is read as its two bytes are, and
written as they are.  If another region wins there, or none, the word is read and written all the
same, by the device of its first byte alone: the second byte is the next one of this device,
counted modulo `2 ^ 16` and then modulo its length.  Which device is at the next address, if there
is one, makes no difference, and this device is left as it is. -/
theorem word_access (hwin : m.winner? a = some i) (hr : m.regions[i]? = some r)
    (hcells : r.device.store? m.panel = some cells) :
    (m.winner? (a + 1) = some i →
      (∃ high low word, read8 a m = .ok high m ∧ read8 (a + 1) m = .ok low m ∧
        read16 a m = .ok word m ∧ word.toNat = high.toNat * 256 + low.toNat) ∧
      ∀ v, (∃ m', write16 a v m = .ok () m') ∧
        write16 a v m = (write8 a (UInt8.ofNat (v.toNat / 256)) >>= fun _ =>
          write8 (a + 1) (UInt8.ofNat (v.toNat % 256))) m) ∧
    (m.winner? (a + 1) ≠ some i →
      let first := (r.deviceAddress a).toNat % cells.size
      let second := ((r.deviceAddress a).toNat + 1) % addressCount % cells.size
      let word := Word.ofBytes (cells.getD first 0) (cells.getD second 0)
      let after (v : Word) := r.device.stored m.panel
        ((cells.setIfInBounds first (Word.high v)).setIfInBounds second (Word.low v))
      read16 a m = .ok word m ∧ (∀ v, write16 a v m = .ok () (m.withDevice i (after v))) ∧
      ∀ j d, m.winner? (a + 1) = some j →
        read16 a (m.withDevice j d) = .ok word (m.withDevice j d) ∧
        ∀ v, write16 a v (m.withDevice j d) =
          .ok () ((m.withDevice j d).withDevice i (after v))) := by
  constructor
  · intro hnext
    refine ⟨⟨_, _, _, read8_of_store? hwin hr hcells, read8_of_store? hnext hr hcells,
      read16_of_store? hwin hr hcells, ?_⟩, fun v => ⟨⟨_, write16_of_store? hwin hr hcells v⟩, ?_⟩⟩
    · rw [Cells.get16, Word.toNat_ofBytes, Region.deviceAddress_add_one]
    · rw [write16_eq_write8 hwin hr hcells hnext, Word.high_eq_ofNat, Word.low_eq_ofNat]
  · intro hnext
    dsimp only
    rw [← Cells.get16_eq_getD]
    simp only [← Cells.set16_eq_setIfInBounds]
    refine ⟨read16_of_store? hwin hr hcells, write16_of_store? hwin hr hcells, fun j d hj => ?_⟩
    have hwin' : (m.withDevice j d).winner? a = some i := by rw [winner?_withDevice, hwin]
    have hr' : (m.withDevice j d).regions[i]? = some r := by
      have hne : j ≠ i := fun e => hnext (e ▸ hj)
      rw [getElem?_withDevice_of_ne hne, hr]
    exact ⟨read16_of_store? hwin' hr' hcells, write16_of_store? hwin' hr' hcells⟩

/-- Two banks of four bytes behind the addresses from `0x10` to `0x13`, and behind the three
after them a RAM of three bytes that counts from address zero. -/
def neighbours : AddressSpace :=
  ((empty.map (.newBank 2 4 "bank") 0x10 4 true).2.map (.newRam 3) 0x14 3 false).2

/-- The last word of the bank is its last two bytes.  At its last byte a word goes on at its
first, and not in the RAM behind it. -/
theorem word_access_on_neighbours :
    (∃ m', write16 0x12 0xABCD neighbours = .ok () m' ∧
      (write8 0x12 0xAB >>= fun _ => write8 0x13 0xCD) neighbours = .ok () m') ∧
    write16 0x13 0xABCD neighbours = .ok ()
      (neighbours.withDevice 1 (.bank #[#[0xCD, 0, 0, 0xAB], #[0, 0, 0, 0]] "bank")) := by
  constructor
  · obtain ⟨hsame, -⟩ := word_access (m := neighbours) (a := 0x12) (i := 1) (by decide) rfl rfl
    obtain ⟨-, hwrite⟩ := hsame (by decide)
    obtain ⟨⟨m', hm'⟩, heq⟩ := hwrite 0xABCD
    exact ⟨m', hm', heq.symm.trans hm'⟩
  · obtain ⟨-, hother⟩ := word_access (m := neighbours) (a := 0x13) (i := 1) (by decide) rfl rfl
    exact (hother (by decide)).2.1 0xABCD

end MemoryAction
end WordMachine
