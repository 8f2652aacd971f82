import WordMachine.Memory.AddressSpace

/-!
# One memory behind all addresses

The plainest address space has a single region, which covers every address, and a RAM
of `2 ^ 16` bytes behind it.  Routing disappears there: no access fails, no access
leaves a trace on the panel, the second byte of a word is at the next address, also
past the last one, and all that can be known of the memory is which byte stands where.

* `IsFlat`: the address space is of this kind; `byteAt` and `wordAt` are its contents.
* `IsFlat.read8`, `IsFlat.read16`, `IsFlat.write8`, `IsFlat.write16`: the four requests.
* `IsFlat.byteAt_poke8`, `IsFlat.byteAt_poke16`: what a store changes, and that it
  changes nothing else.
* `InBlock`: an address is one of so many from another one on, which wrap.
* `Holds`, `HoldsWords`: bytes or words stand at an address and those after it.
* `IsFlat.load`, `IsFlat.holds_pokeList`: loading stores every byte, and they stand there if
  they do not run into themselves.
-/

namespace WordMachine

namespace Word

/-- The stored form of words has two bytes for each of them. -/
theorem length_flatMap_toBytes (ws : List Word) :
    (ws.flatMap Word.toBytes).length = 2 * ws.length := by
  induction ws with
  | nil => rfl
  | cons w ws ih =>
    rw [List.flatMap_cons, List.length_append, ih, Word.length_toBytes, List.length_cons,
      Nat.mul_add, Nat.add_comm]

/-- One word more is two bytes more. -/
theorem ofNat_two_mul_succ (n : Nat) : UInt16.ofNat (2 * (n + 1)) = UInt16.ofNat (2 * n) + 2 := by
  rw [Nat.mul_add, UInt16.ofNat_add]
  rfl

/-- The bytes of as many words as a word says. -/
theorem ofNat_two_mul_toNat (n : Word) : UInt16.ofNat (2 * n.toNat) = 2 * n := by
  rw [UInt16.ofNat_mul, UInt16.ofNat_toNat]
  rfl

end Word

namespace AddressSpace

/-- The byte that reading an address gives.  Where nothing is mapped it is zero. -/
def byteAt (m : AddressSpace) (a : Word) : Byte :=
  match m.peek8 a with
  | .ok b => b
  | .error _ => 0

/-- The word whose first byte is at an address and whose second is at the next. -/
def wordAt (m : AddressSpace) (a : Word) : Word := Word.ofBytes (m.byteAt a) (m.byteAt (a + 1))

/-- The address space is one memory of `2 ^ 16` bytes and nothing else. -/
def IsFlat (m : AddressSpace) : Prop :=
  ∃ handle remap cells,
    m.regions = [⟨handle, 0, addressCount, remap, .ram cells⟩] ∧ cells.size = addressCount

/-- A new memory of full size, mapped alone, is flat. -/
theorem isFlat_map_newRam (remap : Bool) :
    (empty.map (.newRam addressCount) 0 addressCount remap).2.IsFlat := by
  refine ⟨0, remap, .zeros addressCount, ?_, ?_⟩
  · have hstop : min ((0 : Word).toNat + addressCount) addressCount = addressCount := by decide
    rw [map, hstop]
    rfl
  · rw [Cells.zeros, Array.size_replicate]
    decide

/-! ## Reading -/

/-- A region over all addresses contains every address. -/
theorem contains_full (handle : Nat) (remap : Bool) (d : Device) (a : Word) :
    (⟨handle, 0, addressCount, remap, d⟩ : Region).contains a = true := by
  rw [Region.contains_iff]
  exact ⟨Nat.zero_le _, a.toNat_lt⟩

/-- A device behind all addresses sees the addresses as they are. -/
theorem deviceAddress_full (handle : Nat) (remap : Bool) (d : Device) (a : Word) :
    (⟨handle, 0, addressCount, remap, d⟩ : Region).deviceAddress a = a := by
  cases remap
  · rfl
  · show a - 0 = a
    exact UInt16.sub_zero a

variable {m : AddressSpace} {handle : Nat} {remap : Bool} {cells : Cells}

/-- Every address leads to the one region there is. -/
theorem region?_full (h : m.regions = [⟨handle, 0, addressCount, remap, .ram cells⟩]) (a : Word) :
    m.region? a = some ⟨handle, 0, addressCount, remap, .ram cells⟩ := by
  rw [region?, h]
  exact List.find?_cons_of_pos (contains_full handle remap _ a)

theorem peek8_full (h : m.regions = [⟨handle, 0, addressCount, remap, .ram cells⟩]) (a : Word) :
    m.peek8 a = .ok (cells.get8 a) := by
  rw [peek8, region?_full h]
  show Except.ok (cells.get8 (Region.deviceAddress _ a)) = _
  rw [deviceAddress_full]

theorem byteAt_full (h : m.regions = [⟨handle, 0, addressCount, remap, .ram cells⟩]) (a : Word) :
    m.byteAt a = cells.get8 a := by
  rw [byteAt, peek8_full h]

theorem wordAt_full (h : m.regions = [⟨handle, 0, addressCount, remap, .ram cells⟩]) (a : Word) :
    m.wordAt a = cells.get16 a := by
  rw [wordAt, byteAt_full h, byteAt_full h, Cells.get16]

theorem peek16_full (h : m.regions = [⟨handle, 0, addressCount, remap, .ram cells⟩]) (a : Word) :
    m.peek16 a = .ok (cells.get16 a) := by
  rw [peek16, region?_full h]
  show Except.ok (cells.get16 (Region.deviceAddress _ a)) = _
  rw [deviceAddress_full]

/-- No request to a RAM leaves a trace. -/
theorem observe_full (h : m.regions = [⟨handle, 0, addressCount, remap, .ram cells⟩]) (a : Word)
    (request : Word → Access) : m.observe a request = m := by
  rw [observe, region?_full h]
  rfl

/-- Every address of a flat memory is mapped. -/
theorem IsFlat.isMapped (h : m.IsFlat) (a : Word) : m.isMapped a = true := by
  obtain ⟨handle, remap, cells, hr, -⟩ := h
  rw [isMapped_eq, region?_full hr]
  rfl

theorem IsFlat.observe (h : m.IsFlat) (a : Word) (request : Word → Access) :
    m.observe a request = m := by
  obtain ⟨handle, remap, cells, hr, -⟩ := h
  exact observe_full hr a request

theorem IsFlat.read8 (h : m.IsFlat) (a : Word) :
    MemoryAction.read8 a m = .ok (m.byteAt a) m := by
  have hobs := h.observe a .get8
  obtain ⟨handle, remap, cells, hr, -⟩ := h
  rw [MemoryAction.read8_of_ok (peek8_full hr a), hobs, byteAt_full hr]

theorem IsFlat.read16 (h : m.IsFlat) (a : Word) :
    MemoryAction.read16 a m = .ok (m.wordAt a) m := by
  have hobs := h.observe a .get16
  obtain ⟨handle, remap, cells, hr, -⟩ := h
  rw [MemoryAction.read16_of_ok (peek16_full hr a), hobs, wordAt_full hr]

/-! ## Writing -/

theorem IsFlat.write8 (h : m.IsFlat) (a : Word) (v : Byte) :
    MemoryAction.write8 a v m = .ok () (m.poke8 a v) := by
  rw [MemoryAction.write8_of_isMapped (h.isMapped a), h.observe]

theorem IsFlat.write16 (h : m.IsFlat) (a v : Word) :
    MemoryAction.write16 a v m = .ok () (m.poke16 a v) := by
  rw [MemoryAction.write16_of_isMapped (h.isMapped a), h.observe]

theorem regions_poke8_full (h : m.regions = [⟨handle, 0, addressCount, remap, .ram cells⟩])
    (a : Word) (v : Byte) :
    (m.poke8 a v).regions = [⟨handle, 0, addressCount, remap, .ram (cells.set8 a v)⟩] := by
  rw [poke8, h, modifyFirst, if_pos (contains_full handle remap _ a), Region.set8,
    deviceAddress_full, Device.set8]

theorem regions_poke16_full (h : m.regions = [⟨handle, 0, addressCount, remap, .ram cells⟩])
    (a v : Word) :
    (m.poke16 a v).regions = [⟨handle, 0, addressCount, remap, .ram (cells.set16 a v)⟩] := by
  rw [poke16, h, modifyFirst, if_pos (contains_full handle remap _ a), Region.set16,
    deviceAddress_full, Device.set16]

/-- A store leaves a flat memory flat. -/
theorem IsFlat.poke8 (h : m.IsFlat) (a : Word) (v : Byte) : (m.poke8 a v).IsFlat := by
  obtain ⟨handle, remap, cells, hr, hs⟩ := h
  exact ⟨handle, remap, cells.set8 a v, regions_poke8_full hr a v, by rw [Cells.size_set8, hs]⟩

theorem IsFlat.poke16 (h : m.IsFlat) (a v : Word) : (m.poke16 a v).IsFlat := by
  obtain ⟨handle, remap, cells, hr, hs⟩ := h
  exact ⟨handle, remap, cells.set16 a v, regions_poke16_full hr a v, by rw [Cells.size_set16, hs]⟩

/-- In a memory of full size every address has a cell of its own. -/
theorem index_eq_iff {c : Cells} (hs : c.size = addressCount) (a b : Word) :
    Cells.index c b = Cells.index c a ↔ b = a := by
  have ha : Cells.index c a = a.toNat := by
    rw [Cells.index, hs]
    exact Nat.mod_eq_of_lt a.toNat_lt
  have hb : Cells.index c b = b.toNat := by
    rw [Cells.index, hs]
    exact Nat.mod_eq_of_lt b.toNat_lt
  rw [ha, hb]
  exact UInt16.toNat_inj

theorem get8_set8_full {c : Cells} (hs : c.size = addressCount) (a b : Word) (v : Byte) :
    (c.set8 a v).get8 b = if b = a then v else c.get8 b := by
  have hpos : 0 < c.size := by
    rw [hs]
    decide
  rw [Cells.get8_set8 hpos]
  by_cases h : b = a
  · rw [if_pos h, if_pos ((index_eq_iff hs a b).mpr h)]
  · rw [if_neg h, if_neg fun e => h ((index_eq_iff hs a b).mp e)]

/-- A byte that is stored stands at its address, and no other address changes. -/
theorem IsFlat.byteAt_poke8 (h : m.IsFlat) (a b : Word) (v : Byte) :
    (m.poke8 a v).byteAt b = if b = a then v else m.byteAt b := by
  obtain ⟨handle, remap, cells, hr, hs⟩ := h
  rw [byteAt_full (regions_poke8_full hr a v), byteAt_full hr, get8_set8_full hs]

/-- A word that is stored stands at its address and the next one, and no other address
changes. -/
theorem IsFlat.byteAt_poke16 (h : m.IsFlat) (a b v : Word) :
    (m.poke16 a v).byteAt b =
      if b = a then Word.high v else if b = a + 1 then Word.low v else m.byteAt b := by
  obtain ⟨handle, remap, cells, hr, hs⟩ := h
  have hs' : (cells.set8 a (Word.high v)).size = addressCount := by rw [Cells.size_set8, hs]
  rw [byteAt_full (regions_poke16_full hr a v), byteAt_full hr, Cells.set16, get8_set8_full hs',
    get8_set8_full hs]
  by_cases h1 : b = a
  · have h2 : ¬ b = a + 1 := by grind
    rw [if_neg h2, if_pos h1, if_pos h1]
  · rw [if_neg h1, if_neg h1]

/-- A word that is stored away from certain addresses leaves the bytes there as they are. -/
theorem IsFlat.byteAt_poke16_away (h : m.IsFlat) {Kept : Word → Prop} {a b : Word}
    (ha : ¬ Kept a ∧ ¬ Kept (a + 1)) (hb : Kept b) (v : Word) :
    (m.poke16 a v).byteAt b = m.byteAt b := by
  have hne : b ≠ a := by
    rintro rfl
    exact ha.1 hb
  have hne' : b ≠ a + 1 := by
    rintro rfl
    exact ha.2 hb
  rw [h.byteAt_poke16, if_neg hne, if_neg hne']

/-- A word that is stored reads back, at every address. -/
theorem IsFlat.wordAt_poke16_self (h : m.IsFlat) (a v : Word) :
    (m.poke16 a v).wordAt a = v := by
  have h1 : ¬ a + 1 = a := by grind
  rw [wordAt, h.byteAt_poke16, h.byteAt_poke16, if_pos rfl, if_neg h1, if_pos rfl,
    Word.ofBytes_high_low]

/-- Two memories that agree on both bytes of a word agree on the word. -/
theorem wordAt_congr {m m' : AddressSpace} {a : Word} (h : m.byteAt a = m'.byteAt a)
    (h' : m.byteAt (a + 1) = m'.byteAt (a + 1)) : m.wordAt a = m'.wordAt a := by
  rw [wordAt, wordAt, h, h']

/-! ## Blocks of addresses -/

/-- The address `b` is one of the `n` addresses from `a` on, which wrap. -/
def InBlock (a : Word) (n : Nat) (b : Word) : Prop := (b - a).toNat < n

instance (a : Word) (n : Nat) (b : Word) : Decidable (InBlock a n b) :=
  inferInstanceAs (Decidable ((b - a).toNat < n))

/-- A block of one more address is the first address and the block behind it. -/
theorem inBlock_succ {a b : Word} {n : Nat} :
    InBlock a (n + 1) b ↔ b = a ∨ InBlock (a + 1) n b := by
  have ha := a.toNat_lt
  have hb := b.toNat_lt
  rw [InBlock, InBlock, ← UInt16.toNat_inj, UInt16.toNat_sub, UInt16.toNat_sub, UInt16.toNat_add]
  simp only [UInt16.toNat_ofNat]
  omega

/-- A block that is shorter than the address space does not come back to the address in
front of it. -/
theorem not_inBlock_add_one {a : Word} {n : Nat} (h : n < addressCount) :
    ¬ InBlock (a + 1) n a := by
  have ha := a.toNat_lt
  rw [addressCount] at h
  rw [InBlock, UInt16.toNat_sub, UInt16.toNat_add]
  simp only [UInt16.toNat_ofNat]
  omega

/-- A block that leaves two addresses of the address space free does not come back to the
two addresses in front of it. -/
theorem ne_of_inBlock_add_two {a b : Word} {n : Nat} (h : InBlock (a + 2) n b)
    (hn : n + 2 ≤ addressCount) : b ≠ a ∧ b ≠ a + 1 := by
  have ha := a.toNat_lt
  have hb := b.toNat_lt
  rw [addressCount] at hn
  rw [InBlock, UInt16.toNat_sub, UInt16.toNat_add] at h
  simp only [UInt16.toNat_ofNat] at h
  constructor
  · rintro rfl
    omega
  · rintro rfl
    rw [UInt16.toNat_add] at h
    simp only [UInt16.toNat_ofNat] at h
    omega

/-- Outside a block is outside every shorter block, and it is neither of the two addresses
by which the shorter one falls short. -/
theorem not_inBlock_add_two {a b : Word} {n : Nat} (h : ¬ InBlock a (n + 2) b) :
    ¬ InBlock a n b ∧ b ≠ a + UInt16.ofNat n ∧ b ≠ a + UInt16.ofNat n + 1 := by
  have ha := a.toNat_lt
  rw [InBlock, UInt16.toNat_sub] at h
  refine ⟨?_, ?_, ?_⟩
  · rw [InBlock, UInt16.toNat_sub]
    omega
  · rintro rfl
    rw [UInt16.toNat_add, UInt16.toNat_ofNat'] at h
    omega
  · rintro rfl
    rw [UInt16.toNat_add, UInt16.toNat_add, UInt16.toNat_ofNat'] at h
    simp only [UInt16.toNat_ofNat] at h
    omega

/-- The addresses of a block by their numbers. -/
theorem inBlock_iff_exists {a b : Word} {n : Nat} :
    InBlock a n b ↔ ∃ i < n, b = a + UInt16.ofNat i := by
  constructor
  · intro h
    refine ⟨(b - a).toNat, h, ?_⟩
    rw [UInt16.ofNat_toNat]
    grind
  · rintro ⟨i, hi, rfl⟩
    have hoffset : a + UInt16.ofNat i - a = UInt16.ofNat i := by grind
    rw [InBlock, hoffset, UInt16.toNat_ofNat']
    exact Nat.lt_of_le_of_lt (Nat.mod_le _ _) hi

/-- The end of a block is a block. -/
theorem InBlock.of_end {a b : Word} {n k : Nat} (h : InBlock (a + UInt16.ofNat n) k b) :
    InBlock a (n + k) b := by
  obtain ⟨i, hi, rfl⟩ := inBlock_iff_exists.mp h
  refine inBlock_iff_exists.mpr ⟨n + i, Nat.add_lt_add_left hi n, ?_⟩
  rw [UInt16.ofNat_add, UInt16.add_assoc]

/-! ## Bytes in a row -/

/-- The given bytes stand at an address and the addresses after it. -/
def Holds (m : AddressSpace) (a : Word) : List Byte → Prop
  | [] => True
  | b :: rest => m.byteAt a = b ∧ m.Holds (a + 1) rest

/-- The given words stand at an address and the addresses after it, two bytes each. -/
def HoldsWords (m : AddressSpace) (a : Word) (ws : List Word) : Prop :=
  m.Holds a (ws.flatMap Word.toBytes)

/-- Stepping one byte along and then `n` is stepping `n + 1`. -/
theorem add_one_add_ofNat (a : Word) (n : Nat) :
    a + 1 + UInt16.ofNat n = a + UInt16.ofNat (n + 1) := by
  rw [UInt16.ofNat_add, UInt16.add_assoc, UInt16.add_comm 1]
  rfl

/-- Bytes in a row are read one by one. -/
theorem Holds.byteAt {m : AddressSpace} {a : Word} {bytes : List Byte} (h : m.Holds a bytes)
    {i : Nat} (hi : i < bytes.length) : m.byteAt (a + UInt16.ofNat i) = bytes[i] := by
  induction bytes generalizing a i with
  | nil => exact absurd hi (Nat.not_lt_zero _)
  | cons b rest ih =>
    cases i with
    | zero =>
      rw [Word.add_ofNat_zero, h.1]
      rfl
    | succ i =>
      rw [← add_one_add_ofNat, ih h.2 (Nat.lt_of_succ_lt_succ hi)]
      rfl

theorem holds_append {m : AddressSpace} {a : Word} {xs ys : List Byte} :
    m.Holds a (xs ++ ys) ↔ m.Holds a xs ∧ m.Holds (a + UInt16.ofNat xs.length) ys := by
  induction xs generalizing a with
  | nil =>
    show m.Holds a ys ↔ True ∧ m.Holds (a + UInt16.ofNat 0) ys
    rw [Word.add_ofNat_zero, true_and]
  | cons x xs ih =>
    show m.byteAt a = x ∧ m.Holds (a + 1) (xs ++ ys) ↔ _
    rw [ih, add_one_add_ofNat, ← and_assoc]
    rfl

/-- What stands in a block is a matter of the addresses of the block only. -/
theorem Holds.congr {m m' : AddressSpace} {a : Word} {bytes : List Byte} (h : m.Holds a bytes)
    (hsame : ∀ b, InBlock a bytes.length b → m'.byteAt b = m.byteAt b) : m'.Holds a bytes := by
  induction bytes generalizing a with
  | nil => trivial
  | cons b rest ih =>
    refine ⟨?_, ih h.2 fun c hc => hsame c (inBlock_succ.mpr (Or.inr hc))⟩
    rw [hsame a (inBlock_succ.mpr (Or.inl rfl)), h.1]

/-- A word stands where its two bytes stand. -/
theorem holds_toBytes {m : AddressSpace} {a w : Word} :
    m.Holds a (Word.toBytes w) ↔ m.wordAt a = w := by
  show m.byteAt a = Word.high w ∧ m.byteAt (a + 1) = Word.low w ∧ True ↔ _
  constructor
  · rintro ⟨h, h', -⟩
    rw [wordAt, h, h', Word.ofBytes_high_low]
  · rintro rfl
    exact ⟨(Word.high_ofBytes _ _).symm, (Word.low_ofBytes _ _).symm, trivial⟩

theorem holdsWords_cons {m : AddressSpace} {a w : Word} {ws : List Word} :
    m.HoldsWords a (w :: ws) ↔ m.wordAt a = w ∧ m.HoldsWords (a + 2) ws := by
  rw [HoldsWords, List.flatMap_cons, holds_append, holds_toBytes]
  rfl

theorem holdsWords_append {m : AddressSpace} {a : Word} {xs ys : List Word} :
    m.HoldsWords a (xs ++ ys) ↔
      m.HoldsWords a xs ∧ m.HoldsWords (a + UInt16.ofNat (2 * xs.length)) ys := by
  rw [HoldsWords, List.flatMap_append, holds_append, Word.length_flatMap_toBytes]
  rfl

/-- What words stand in a block is a matter of the addresses of the block only. -/
theorem HoldsWords.congr {m m' : AddressSpace} {a : Word} {ws : List Word}
    (h : m.HoldsWords a ws)
    (hsame : ∀ b, InBlock a (2 * ws.length) b → m'.byteAt b = m.byteAt b) :
    m'.HoldsWords a ws := by
  refine Holds.congr h fun b hb => hsame b ?_
  rwa [Word.length_flatMap_toBytes] at hb

/-- A word stored in front of words in a row is the first of them, unless they have come
around to it. -/
theorem HoldsWords.poke16 {m : AddressSpace} (hflat : m.IsFlat) {a w : Word} {ws : List Word}
    (h : m.HoldsWords (a + 2) ws) (hlen : 2 * ws.length + 2 ≤ addressCount) :
    (m.poke16 a w).HoldsWords a (w :: ws) := by
  refine holdsWords_cons.mpr ⟨hflat.wordAt_poke16_self a w, h.congr fun b hb => ?_⟩
  obtain ⟨h1, h2⟩ := ne_of_inBlock_add_two hb hlen
  rw [hflat.byteAt_poke16, if_neg h1, if_neg h2]

/-- Words in a row are read one by one. -/
theorem HoldsWords.wordAt {m : AddressSpace} {a : Word} {ws : List Word} (h : m.HoldsWords a ws)
    {i : Nat} (hi : i < ws.length) : m.wordAt (a + UInt16.ofNat (2 * i)) = ws[i] := by
  induction ws generalizing a i with
  | nil => exact absurd hi (Nat.not_lt_zero _)
  | cons w ws ih =>
    obtain ⟨hw, hws⟩ := holdsWords_cons.mp h
    cases i with
    | zero =>
      have ha : a + UInt16.ofNat (2 * 0) = a := UInt16.add_zero a
      rw [ha, hw]
      rfl
    | succ i =>
      have ha : a + UInt16.ofNat (2 * (i + 1)) = a + 2 + UInt16.ofNat (2 * i) := by
        rw [Word.ofNat_two_mul_succ, UInt16.add_comm _ 2, ← UInt16.add_assoc]
      rw [ha, ih hws (Nat.lt_of_succ_lt_succ hi)]
      rfl

/-! ## Loading -/

/-- The space after bytes have been stored one after the other. -/
def pokeList (m : AddressSpace) (a : Word) : List Byte → AddressSpace
  | [] => m
  | b :: rest => (m.poke8 a b).pokeList (a + 1) rest

theorem IsFlat.pokeList (h : m.IsFlat) (a : Word) (bytes : List Byte) :
    (m.pokeList a bytes).IsFlat := by
  induction bytes generalizing m a with
  | nil => exact h
  | cons b rest ih => exact ih (h.poke8 a b) (a + 1)

/-- Loading into a flat memory stores every byte. -/
theorem IsFlat.load (h : m.IsFlat) (a : Word) (bytes : List Byte) :
    MemoryAction.load a bytes m = .ok () (m.pokeList a bytes) := by
  induction bytes generalizing m a with
  | nil => rfl
  | cons b rest ih =>
    show (MemoryAction.write8 a b >>= fun _ => MemoryAction.load (a + 1) rest) m = _
    simp only [bind, EStateM.bind, h.write8]
    exact ih (h.poke8 a b) (a + 1)

/-- Storing bytes changes no address but theirs. -/
theorem IsFlat.byteAt_pokeList (h : m.IsFlat) (a : Word) {bytes : List Byte} {b : Word}
    (hb : ¬ InBlock a bytes.length b) : (m.pokeList a bytes).byteAt b = m.byteAt b := by
  induction bytes generalizing m a with
  | nil => rfl
  | cons x rest ih =>
    rw [List.length_cons, inBlock_succ, not_or] at hb
    rw [AddressSpace.pokeList, ih (h.poke8 a x) (a + 1) hb.2, h.byteAt_poke8, if_neg hb.1]

/-- Bytes that are stored one after the other stand there, if there are no more of them
than addresses. -/
theorem IsFlat.holds_pokeList (h : m.IsFlat) (a : Word) {bytes : List Byte}
    (hlen : bytes.length ≤ addressCount) : (m.pokeList a bytes).Holds a bytes := by
  induction bytes generalizing m a with
  | nil => trivial
  | cons x rest ih =>
    have hrest : rest.length < addressCount := hlen
    refine ⟨?_, ih (h.poke8 a x) (a + 1) (Nat.le_of_lt hrest)⟩
    -- the bytes behind the first one do not come around to it
    rw [AddressSpace.pokeList, (h.poke8 a x).byteAt_pokeList _ (not_inBlock_add_one hrest),
      h.byteAt_poke8, if_pos rfl]

end AddressSpace
end WordMachine
