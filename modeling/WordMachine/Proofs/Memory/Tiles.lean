import WordMachine.Proofs.Memory.Change
import WordMachine.Proofs.Memory.Flat

/-!
# Memory in tiles

A memory may be put together from several RAMs, each behind its own range of addresses, where
ranges may overlap.  If every RAM is as long as its range and counts from the start of it, and
if the ranges cover all addresses, then each address has a byte of its own: within a range no
two addresses fall on the same cell, and a RAM is reached only where its range wins.  So bytes
are stored and read back as in one memory of full size.

A word is another matter.  Its second byte is where the RAM of the first byte says, and that is
the byte of the next address only if the next address belongs to the same range.  The laws for
words are the laws of one memory under this condition, `winner? a = winner? (a + 1)`.

* `IsTiled`: the address space is of this kind.
* `IsTiled.read8`, `IsTiled.read16`, `IsTiled.write8`, `IsTiled.write16`: the four requests.
* `IsTiled.byteAt_poke8`, `IsTiled.byteAt_poke16`: what a store changes.
* `flattened`: one memory of full size with the same contents.
-/

namespace WordMachine

/-! ## One tile -/

/-- The region counts addresses from its start, and the RAM behind it is as long as it is. -/
structure Region.IsTile (r : Region) (cells : Cells) : Prop where
  remap : r.remap = true
  device : r.device = .ram cells
  fits : r.stop ≤ r.start.toNat + cells.size

namespace Region.IsTile

variable {r : Region} {cells : Cells} {a b : Word} (h : r.IsTile cells)
include h

theorem deviceAddress_eq (a : Word) : r.deviceAddress a = a - r.start := by
  rw [deviceAddress, h.remap, if_pos rfl]

theorem deviceAddress_add_one (a : Word) : r.deviceAddress (a + 1) = r.deviceAddress a + 1 := by
  rw [h.deviceAddress_eq, h.deviceAddress_eq]
  grind

/-- Within the range, cells of the same number are counted without wrapping. -/
theorem index_eq {c : Cells} (hsize : c.size = cells.size) (ha : r.contains a = true) :
    c.index (r.deviceAddress a) = a.toNat - r.start.toNat := by
  obtain ⟨hle, hlt⟩ := contains_iff.mp ha
  have hfits := h.fits
  rw [Cells.index, toNat_deviceAddress ha, h.remap, if_pos rfl, hsize]
  exact Nat.mod_eq_of_lt (by omega)

/-- Every address of the range has a cell of its own. -/
theorem index_eq_iff {c : Cells} (hsize : c.size = cells.size) (ha : r.contains a = true)
    (hb : r.contains b = true) :
    c.index (r.deviceAddress b) = c.index (r.deviceAddress a) ↔ b = a := by
  have hle := (contains_iff.mp ha).1
  have hle' := (contains_iff.mp hb).1
  rw [h.index_eq hsize ha, h.index_eq hsize hb, ← UInt16.toNat_inj]
  omega

theorem get8_set8 {c : Cells} (hsize : c.size = cells.size) (ha : r.contains a = true)
    (hb : r.contains b = true) (v : Byte) :
    (c.set8 (r.deviceAddress a) v).get8 (r.deviceAddress b) =
      if b = a then v else c.get8 (r.deviceAddress b) := by
  obtain ⟨hle, hlt⟩ := contains_iff.mp ha
  have hfits := h.fits
  rw [Cells.get8_set8 (by omega)]
  simp only [h.index_eq_iff hsize ha hb]

/-- A tile with other bytes is a tile. -/
theorem withCells {cells' : Cells} (hsize : cells'.size = cells.size) :
    ({ r with device := .ram cells' } : Region).IsTile cells' :=
  ⟨h.remap, rfl, by rw [hsize]; exact h.fits⟩

theorem set8 (panel : Panel) (a : Word) (v : Byte) :
    (r.set8 panel a v).IsTile (cells.set8 (r.deviceAddress a) v) := by
  rw [Region.set8, h.device]
  exact h.withCells (Cells.size_set8 _ _ _)

theorem set16 (panel : Panel) (a v : Word) :
    (r.set16 panel a v).IsTile (cells.set16 (r.deviceAddress a) v) := by
  rw [Region.set16, h.device]
  exact h.withCells (Cells.size_set16 _ _ _)

end Region.IsTile

namespace AddressSpace

/-! ## Tiles that cover the address space -/

/-- Every region is a tile, and every address lies in one. -/
structure IsTiled (s : AddressSpace) : Prop where
  tiles : ∀ r ∈ s.regions, ∃ cells, r.IsTile cells
  covers : ∀ a, s.isMapped a = true

/-- The tile that wins at an address. -/
structure TileAt (s : AddressSpace) (a : Word) (i : Nat) (r : Region) (cells : Cells) : Prop where
  winner : s.winner? a = some i
  region : s.regions[i]? = some r
  tile : r.IsTile cells

section TileAt

variable {s : AddressSpace} {a b : Word} {i : Nat} {r : Region} {cells : Cells}
  (h : s.TileAt a i r cells)
include h

theorem TileAt.region?_eq_some : s.region? a = some r := by
  rw [region?_eq, h.winner, Option.bind_some, h.region]

theorem TileAt.contains : r.contains a = true := by
  have hregion := h.region?_eq_some
  rw [region?, List.find?_eq_some_iff_append] at hregion
  exact hregion.1

theorem TileAt.peek8 : s.peek8 a = .ok (cells.get8 (r.deviceAddress a)) := by
  rw [AddressSpace.peek8, h.region?_eq_some]
  dsimp only
  rw [h.tile.device, Device.get8]

theorem TileAt.byteAt : s.byteAt a = cells.get8 (r.deviceAddress a) := by
  rw [AddressSpace.byteAt, h.peek8]

/-- The same tile wins at another address. -/
theorem TileAt.of_winner (hb : s.winner? b = some i) : s.TileAt b i r cells :=
  ⟨hb, h.region, h.tile⟩

end TileAt

namespace IsTiled

variable {s : AddressSpace} (h : s.IsTiled)
include h

theorem exists_tileAt (a : Word) : ∃ i r cells, s.TileAt a i r cells := by
  have hmapped := h.covers a
  rw [isMapped_eq, Option.isSome_iff_exists] at hmapped
  obtain ⟨r, hr⟩ := hmapped
  obtain ⟨i, hwin, hi⟩ := exists_winner? hr
  obtain ⟨cells, htile⟩ := h.tiles r (List.mem_of_getElem? hi)
  exact ⟨i, r, cells, hwin, hi, htile⟩

/-- Whether a memory is tiled has nothing to do with its bytes. -/
theorem of_outline {s' : AddressSpace}
    (houtline : s'.regions.map Region.erased = s.regions.map Region.erased) : s'.IsTiled := by
  refine ⟨fun r' hr' => ?_, fun a => by rw [isMapped_of_outline houtline, h.covers]⟩
  obtain ⟨i, hi⟩ := List.getElem?_of_mem hr'
  obtain ⟨r, hr, herased⟩ := exists_of_outline houtline.symm hi
  obtain ⟨cells, htile⟩ := h.tiles r (List.mem_of_getElem? hr)
  obtain ⟨handle, start, stop, remap, device⟩ := r
  obtain ⟨handle', start', stop', remap', device'⟩ := r'
  simp only [Region.erased, Region.mk.injEq] at herased
  obtain ⟨rfl, rfl, rfl, rfl, hdevice⟩ := herased
  obtain rfl : device = .ram cells := htile.device
  cases device' <;> simp only [Device.erased, reduceCtorEq] at hdevice
  case ram cells' =>
    exact ⟨cells', htile.withCells (Cells.size_eq_of_erased (Device.ram.inj hdevice).symm)⟩

/-! ### Reading -/

/-- No request to a RAM leaves a trace. -/
theorem observe (a : Word) (request : Word → Access) : s.observe a request = s := by
  obtain ⟨i, r, cells, hat⟩ := h.exists_tileAt a
  rw [AddressSpace.observe, hat.region?_eq_some]
  dsimp only
  rw [hat.tile.device]
  rfl

theorem read8 (a : Word) : MemoryAction.read8 a s = .ok (s.byteAt a) s := by
  obtain ⟨i, r, cells, hat⟩ := h.exists_tileAt a
  rw [MemoryAction.read8_of_ok hat.peek8, h.observe, hat.byteAt]

/-- A word that lies in one tile is read as its two bytes. -/
theorem read16 {a : Word} (hwhole : s.winner? a = s.winner? (a + 1)) :
    MemoryAction.read16 a s = .ok (s.wordAt a) s := by
  obtain ⟨i, r, cells, hat⟩ := h.exists_tileAt a
  have hnext := hat.of_winner (hwhole.symm.trans hat.winner)
  have hpeek : s.peek16 a = .ok (s.wordAt a) := by
    rw [peek16, hat.region?_eq_some, wordAt, hat.byteAt, hnext.byteAt,
      hat.tile.deviceAddress_add_one]
    dsimp only
    rw [hat.tile.device, Device.get16, Cells.get16]
  rw [MemoryAction.read16_of_ok hpeek, h.observe]

/-! ### Writing -/

theorem write8 (a : Word) (v : Byte) : MemoryAction.write8 a v s = .ok () (s.poke8 a v) := by
  rw [MemoryAction.write8_of_isMapped (h.covers a), h.observe]

theorem write16 (a v : Word) : MemoryAction.write16 a v s = .ok () (s.poke16 a v) := by
  rw [MemoryAction.write16_of_isMapped (h.covers a), h.observe]

/-- A store changes the tile that wins at its address and no other. -/
theorem byteAt_modifyFirst (s' : AddressSpace) {a b : Word} {f : Region → Region}
    (hs' : s'.regions = modifyFirst (·.contains a) f s.regions)
    (herased : ∀ r, (f r).erased = r.erased) {answer : Byte}
    (hsame : ∀ i r cells, s.TileAt a i r cells → s.winner? b = some i →
      ∃ cells', (f r).IsTile cells' ∧ cells'.get8 (r.deviceAddress b) = answer)
    (hother : s.winner? b ≠ s.winner? a → s.byteAt b = answer) : s'.byteAt b = answer := by
  have houtline : s'.regions.map Region.erased = s.regions.map Region.erased := by
    rw [hs', map_modifyFirst _ herased]
  obtain ⟨i, r, cells, hat⟩ := h.exists_tileAt b
  have hwinner : s'.winner? b = some i := by rw [winner?_of_outline houtline, hat.winner]
  have hregion : s'.regions[i]? = if s.winner? a = some i then some (f r) else some r := by
    rw [hs', getElem?_modifyFirst, hat.region]
    rfl
  split at hregion
  · rename_i hwin
    obtain ⟨cells', htile, hget⟩ := hsame i r cells (hat.of_winner hwin) hat.winner
    have hat' : s'.TileAt b i (f r) cells' := ⟨hwinner, hregion, htile⟩
    rw [hat'.byteAt, (Region.congr_of_erased (herased r) b).2.1, hget]
  · rename_i hwin
    have hat' : s'.TileAt b i r cells := ⟨hwinner, hregion, hat.tile⟩
    rw [hat'.byteAt, ← hat.byteAt]
    exact hother fun heq => hwin (heq.symm.trans hat.winner)

/-- A byte that is stored stands at its address, and no other address changes. -/
theorem byteAt_poke8 (a b : Word) (v : Byte) :
    (s.poke8 a v).byteAt b = if b = a then v else s.byteAt b := by
  refine h.byteAt_modifyFirst (s.poke8 a v) rfl (Region.erased_set8 _ _ _) ?_ ?_
  · intro i r cells hat hb
    refine ⟨_, hat.tile.set8 _ _ _, ?_⟩
    rw [hat.tile.get8_set8 rfl hat.contains (hat.of_winner hb).contains, (hat.of_winner hb).byteAt]
  · intro hne
    rw [if_neg]
    rintro rfl
    exact hne rfl

/-- A word that lies in one tile and is stored there stands at its address and the next one, and
no other address changes. -/
theorem byteAt_poke16 {a : Word} (hwhole : s.winner? a = s.winner? (a + 1)) (b v : Word) :
    (s.poke16 a v).byteAt b =
      if b = a then Word.high v else if b = a + 1 then Word.low v else s.byteAt b := by
  refine h.byteAt_modifyFirst (s.poke16 a v) rfl (Region.erased_set16 _ _ _) ?_ ?_
  · intro i r cells hat hb
    have hnext := hat.of_winner (hwhole.symm.trans hat.winner)
    have hatb := hat.of_winner hb
    refine ⟨_, hat.tile.set16 _ _ _, ?_⟩
    rw [Cells.set16, ← hat.tile.deviceAddress_add_one,
      hat.tile.get8_set8 (Cells.size_set8 _ _ _) hnext.contains hatb.contains,
      hat.tile.get8_set8 rfl hat.contains hatb.contains, hatb.byteAt]
    by_cases hfirst : b = a
    · have hsecond : ¬ b = a + 1 := by grind
      rw [if_neg hsecond, if_pos hfirst, if_pos hfirst]
    · rw [if_neg hfirst, if_neg hfirst]
  · intro hne
    rw [if_neg, if_neg]
    · rintro rfl
      exact hne hwhole.symm
    · rintro rfl
      exact hne rfl

end IsTiled

/-! ## One memory with the same contents -/

/-- One memory of full size in which every address holds the byte that it holds in a given
memory. -/
def flattened (s : AddressSpace) : AddressSpace where
  regions := [⟨0, 0, addressCount, true,
    .ram (Array.ofFn fun i : Fin addressCount => s.byteAt (UInt16.ofNat i))⟩]
  nextHandle := 1
  panel := s.panel

theorem isFlat_flattened (s : AddressSpace) : s.flattened.IsFlat :=
  ⟨0, true, _, rfl, Array.size_ofFn⟩

theorem byteAt_flattened (s : AddressSpace) (a : Word) : s.flattened.byteAt a = s.byteAt a := by
  have hlt : a.toNat < addressCount := a.toNat_lt
  rw [byteAt_full rfl, Cells.get8, Cells.index, Array.size_ofFn, Nat.mod_eq_of_lt hlt,
    Array.getD_eq_getD_getElem?, Array.getElem?_ofFn, dif_pos hlt]
  exact congrArg s.byteAt UInt16.ofNat_toNat

end AddressSpace
end WordMachine
