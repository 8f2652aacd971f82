/-!
# Bytes and words

The machine has two sizes of datum: a byte of eight bits and a word of sixteen.
All of its arithmetic is on words and wraps modulo `2 ^ 16`, so both sizes are
the fixed-width unsigned types and no operation below needs a range check.

A word is stored as two bytes, the high one first.  Splitting and joining are
written with multiplication and division by `256` and not with shifts: that is
the form in which a fact about them becomes a fact about natural numbers.
-/

namespace WordMachine

/-- Eight bits: what one address holds. -/
abbrev Byte := UInt8

/-- Sixteen bits: what one register holds, and what an address is. -/
abbrev Word := UInt16

namespace Word

/-- The byte of a word that is stored first. -/
def high (w : Word) : Byte := (w / 256).toUInt8

/-- The byte of a word that is stored second. -/
def low (w : Word) : Byte := w.toUInt8

/-- The word whose stored form is the given two bytes. -/
def ofBytes (high low : Byte) : Word := high.toUInt16 * 256 + low.toUInt16

/-- The word a single byte widens to. -/
def ofByte (b : Byte) : Word := b.toUInt16

/-- The stored form of a word. -/
def toBytes (w : Word) : List Byte := [high w, low w]

theorem toNat_high (w : Word) : (high w).toNat = w.toNat / 256 := by
  have := w.toNat_lt
  simp [high]
  omega

theorem toNat_low (w : Word) : (low w).toNat = w.toNat % 256 := by
  simp [low]

theorem toNat_ofBytes (h l : Byte) : (ofBytes h l).toNat = h.toNat * 256 + l.toNat := by
  have := h.toNat_lt
  have := l.toNat_lt
  simp [ofBytes]
  omega

/-- Storing a word and reading it back changes nothing. -/
@[simp] theorem ofBytes_high_low (w : Word) : ofBytes (high w) (low w) = w := by
  apply UInt16.toNat_inj.mp
  rw [toNat_ofBytes, toNat_high, toNat_low]
  omega

@[simp] theorem high_ofBytes (h l : Byte) : high (ofBytes h l) = h := by
  have := l.toNat_lt
  apply UInt8.toNat_inj.mp
  rw [toNat_high, toNat_ofBytes]
  omega

@[simp] theorem low_ofBytes (h l : Byte) : low (ofBytes h l) = l := by
  have := l.toNat_lt
  apply UInt8.toNat_inj.mp
  rw [toNat_low, toNat_ofBytes]
  omega

/-- A byte is the low byte of the word it widens to. -/
@[simp] theorem low_ofByte (b : Byte) : low (ofByte b) = b := by
  apply UInt8.toNat_inj.mp
  rw [toNat_low]
  exact Nat.mod_eq_of_lt b.toNat_lt

/-- A word moved towards its high end, with zeros behind it.  A move by sixteen
places or more leaves nothing of it. -/
def shiftLeft (w n : Word) : Word := if n < 16 then w <<< n else 0

/-- A word moved towards its low end, with zeros before it.  A move by sixteen
places or more leaves nothing of it. -/
def shiftRight (w n : Word) : Word := if n < 16 then w >>> n else 0

/-- A word moved towards its high end, by less than its width or not at all. -/
def shiftLeft? (w n : Word) : Option Word := if n < 16 then some (w <<< n) else none

/-- A word moved towards its low end, by less than its width or not at all. -/
def shiftRight? (w n : Word) : Option Word := if n < 16 then some (w >>> n) else none

@[simp] theorem getD_shiftLeft? (w n : Word) : (shiftLeft? w n).getD 0 = shiftLeft w n := by
  unfold shiftLeft? shiftLeft
  split <;> rfl

@[simp] theorem getD_shiftRight? (w n : Word) : (shiftRight? w n).getD 0 = shiftRight w n := by
  unfold shiftRight? shiftRight
  split <;> rfl

/-- On numbers, a move towards the high end is the move without bounds, modulo the
number of words. -/
theorem toNat_shiftLeft (w n : Word) :
    (shiftLeft w n).toNat = (w.toNat <<< n.toNat) % 65536 := by
  unfold shiftLeft
  split
  · rename_i h
    have h' : n.toNat < 16 := by simpa [UInt16.lt_iff_toNat_lt] using h
    rw [UInt16.toNat_shiftLeft, Nat.mod_eq_of_lt h']
  · rename_i h
    have h' : 16 ≤ n.toNat := by simpa [UInt16.lt_iff_toNat_lt] using h
    obtain ⟨k, hk⟩ := Nat.exists_eq_add_of_le h'
    rw [hk, Nat.add_comm, Nat.shiftLeft_add, Nat.shiftLeft_eq _ 16]
    exact (Nat.mul_mod_left _ _).symm

/-- On numbers, a move towards the low end is the move without bounds. -/
theorem toNat_shiftRight (w n : Word) :
    (shiftRight w n).toNat = w.toNat >>> n.toNat := by
  unfold shiftRight
  split
  · rename_i h
    have h' : n.toNat < 16 := by simpa [UInt16.lt_iff_toNat_lt] using h
    rw [UInt16.toNat_shiftRight, Nat.mod_eq_of_lt h']
  · rename_i h
    have h' : 16 ≤ n.toNat := by simpa [UInt16.lt_iff_toNat_lt] using h
    obtain ⟨k, hk⟩ := Nat.exists_eq_add_of_le h'
    have hw : w.toNat >>> 16 = 0 := by
      rw [Nat.shiftRight_eq_div_pow]
      exact Nat.div_eq_of_lt w.toNat_lt
    rw [hk, Nat.shiftRight_add, hw, Nat.zero_shiftRight]
    rfl

/-- The word of an integer is the integer modulo the number of words. -/
theorem toNat_ofInt (n : Int) : ((UInt16.ofInt n).toNat : Int) = n % 65536 := by
  rw [UInt16.ofInt, UInt16.toNat_ofNat']
  omega

theorem ofInt_natCast (n : Nat) : UInt16.ofInt n = UInt16.ofNat n := by
  rw [← UInt16.toNat_inj, ← Int.ofNat_inj, toNat_ofInt, UInt16.toNat_ofNat']
  rfl

theorem ofInt_toNat (w : Word) : UInt16.ofInt w.toNat = w := by
  rw [ofInt_natCast, UInt16.ofNat_toNat]

/-- Nothing behind an address is the address. -/
theorem add_ofNat_zero (a : Word) : a + UInt16.ofNat 0 = a := UInt16.add_zero a

@[simp] theorem length_toBytes (w : Word) : (toBytes w).length = 2 := rfl

/-- The words a byte string spells, two bytes at a time.  A last byte without a
partner spells none. -/
def ofByteList : List Byte → List Word
  | h :: l :: rest => ofBytes h l :: ofByteList rest
  | _ => []

/-- Every list of words is read back from its stored form. -/
theorem ofByteList_flatMap_toBytes (ws : List Word) :
    ofByteList (ws.flatMap toBytes) = ws := by
  induction ws with
  | nil => rfl
  | cons w ws ih => simp [toBytes, ofByteList] at ih ⊢; exact ih

end Word
end WordMachine
