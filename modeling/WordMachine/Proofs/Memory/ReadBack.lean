import Mathlib.Data.Nat.ModEq
import WordMachine.Proofs.Memory.WordAccess

/-!
# Words that read back

The bytes of a word are at an address and at the next one.  If these lead to two cells, a word that
is stored reads back.  If they lead to one, the second byte is stored over the first, and what reads
back is the second byte twice.  Which of the two it is depends on two reductions, one after the
other: behind the last address comes address zero, and an address beyond the last cell counts modulo
the number of cells.

In front of the last address only the second reduction is at work, and it keeps neighbours apart
unless there is a single cell.  At the last address the two do not fit together.  The next address
is zero, whose cell is the first; and the last address leads to the first cell if the number of
cells divides it (`Cells.index_add_one_eq_iff`).  The number of addresses itself does not, and so a
RAM with a cell for every address reads back every word.

* `Cells.get8_set16`, `Cells.get16_set16`: what is read after a word has been stored.
* `Cells.index_add_one_eq_iff`: when the bytes of a word share a cell.
* `Device.word_reads_back`: what a RAM reads after it has stored a word.
-/

namespace WordMachine

namespace Word

/-- The second byte twice is the word if both of its bytes are the same. -/
theorem ofBytes_low_low_eq_iff {v : Word} :
    ofBytes (low v) (low v) = v ↔ v.toNat / 256 = v.toNat % 256 := by
  rw [← UInt16.toNat_inj, toNat_ofBytes, toNat_low]
  omega

end Word

namespace Cells

variable {c : Cells}

/-- A stored word is found as its two bytes, the second wherever the first is not alone in its
cell.  No other cell changes. -/
theorem get8_set16 (h : 0 < c.size) (a b v : Word) :
    (c.set16 a v).get8 b =
      if c.index b = c.index (a + 1) then Word.low v
      else if c.index b = c.index a then Word.high v else c.get8 b := by
  have hset : 0 < (c.set8 a (Word.high v)).size := by rwa [size_set8]
  have hindex (b : Word) : (c.set8 a (Word.high v)).index b = c.index b := by
    rw [index, index, size_set8]
  rw [set16, get8_set8 hset, get8_set8 h, hindex, hindex]

/-- What reads back is the word, or its second byte twice. -/
theorem get16_set16 (h : 0 < c.size) (a v : Word) :
    (c.set16 a v).get16 a =
      if c.index (a + 1) = c.index a then Word.ofBytes (Word.low v) (Word.low v) else v := by
  rw [get16, get8_set16 h, get8_set16 h, if_pos rfl, if_pos rfl]
  by_cases hshared : c.index (a + 1) = c.index a
  · rw [if_pos hshared.symm, if_pos hshared]
  · rw [if_neg fun e => hshared e.symm, if_neg hshared, Word.ofBytes_high_low]

/-- An address and the next one share a cell if there is only one cell, or if the address is the
last and the number of cells divides it. -/
theorem index_add_one_eq_iff {a : Word} :
    c.index (a + 1) = c.index a ↔ c.size = 1 ∨ a = 0xFFFF ∧ c.size ∣ 0xFFFF := by
  rw [index_add_one, index, ← UInt16.toNat_inj]
  by_cases hlast : a.toNat = 0xFFFF
  · have hzero : (0xFFFF + 1) % addressCount % c.size = 0 := Nat.zero_mod _
    rw [hlast, hzero, eq_comm, ← Nat.dvd_iff_mod_eq_zero]
    refine ⟨fun hdvd => .inr ⟨rfl, hdvd⟩, ?_⟩
    rintro (hone | ⟨-, hdvd⟩)
    · rw [hone]
      exact Nat.one_dvd _
    · exact hdvd
  · have hbound : a.toNat + 1 < addressCount := by
      have := a.toNat_lt
      rw [addressCount]
      omega
    have hdvd : a.toNat ≡ a.toNat + 1 [MOD c.size] ↔ c.size ∣ 1 := by
      rw [Nat.modEq_iff_dvd' (Nat.le_add_right _ 1), Nat.add_sub_cancel_left]
    rw [Nat.mod_eq_of_lt hbound, eq_comm]
    refine (hdvd.trans Nat.dvd_one).trans ⟨.inl, ?_⟩
    rintro (hone | ⟨hlast', -⟩)
    · exact hone
    · exact absurd hlast' hlast

/-- A word reads back if its bytes are in two cells, or are the same. -/
theorem get16_set16_eq_iff (h : 0 < c.size) (a v : Word) :
    (c.set16 a v).get16 a = v ↔
      c.index (a + 1) ≠ c.index a ∨ v.toNat / 256 = v.toNat % 256 := by
  rw [get16_set16 h]
  by_cases hshared : c.index (a + 1) = c.index a
  · rw [if_pos hshared, Word.ofBytes_low_low_eq_iff]
    exact ⟨.inr, fun hv => hv.resolve_left fun hne => hne hshared⟩
  · rw [if_neg hshared]
    exact iff_of_true rfl (.inl hshared)

end Cells

namespace Device

/-- **A stored word reads back unless its two bytes share a cell.**  With `first` and `second` for
the cells of the two bytes, a word that a RAM has stored reads back if these are two cells or the
bytes are the same.  It does so in every RAM of two bytes or more in front of the last address, and
in a RAM with as many bytes as there are addresses at every address.  At the last address it does
not if the length of the RAM divides this address, unless the bytes are the same.  Every address
that leads to neither of the two cells reads as before. -/
theorem word_reads_back (panel : Panel) {cells : Cells} (h : 0 < cells.size) (a v : Word) :
    let after := (ram cells).set16 panel a v
    let first := a.toNat % cells.size
    let second := (a.toNat + 1) % addressCount % cells.size
    (after.get16 panel a = v ↔ first ≠ second ∨ v.toNat / 256 = v.toNat % 256) ∧
      (2 ≤ cells.size → a.toNat ≤ 0xFFFE → after.get16 panel a = v) ∧
      (cells.size = addressCount → after.get16 panel a = v) ∧
      (a = 0xFFFF → cells.size ∣ 0xFFFF → v.toNat / 256 ≠ v.toNat % 256 →
        after.get16 panel a ≠ v) ∧
      ∀ b : Word, b.toNat % cells.size ≠ first → b.toNat % cells.size ≠ second →
        after.get8 panel b = (ram cells).get8 panel b := by
  have hback := Cells.get16_set16_eq_iff h a v
  have hshared := Cells.index_add_one_eq_iff (c := cells) (a := a)
  refine ⟨?_, fun hsize ha => ?_, fun hsize => ?_, fun ha hdvd hv hsame => ?_, fun b hb hb' => ?_⟩
  · rw [Cells.index_add_one, ne_comm] at hback
    exact hback
  · refine hback.mpr (.inl fun e => ?_)
    rcases hshared.mp e with hone | ⟨rfl, -⟩
    · omega
    · exact absurd ha (by decide)
  · refine hback.mpr (.inl fun e => ?_)
    rw [hsize] at hshared
    rcases hshared.mp e with hone | ⟨-, hdvd⟩
    · exact absurd hone (by decide)
    · exact absurd hdvd (by decide)
  · rcases hback.mp hsame with hne | heq
    · exact hne (hshared.mpr (.inr ⟨ha, hdvd⟩))
    · exact hv heq
  · show (cells.set16 a v).get8 b = cells.get8 b
    rw [← Cells.index_add_one] at hb'
    rw [Cells.get8_set16 h]
    exact (if_neg hb').trans (if_neg hb)

/-- A RAM of three bytes.  Three divides the last address. -/
def threeBytes : Device := .ram #[0x10, 0x20, 0x30]

/-- At the last address the three bytes give back a word only if its bytes are the same.  A word at
the address before it lies in the last cell and the first, and the byte between stays. -/
theorem word_reads_back_in_threeBytes :
    (threeBytes.set16 .initial 0xFFFF 0xABCD).get16 .initial 0xFFFF ≠ 0xABCD ∧
      (threeBytes.set16 .initial 0xFFFF 0xABAB).get16 .initial 0xFFFF = 0xABAB ∧
      (threeBytes.set16 .initial 0xFFFE 0xABCD).get16 .initial 0xFFFE = 0xABCD ∧
      (threeBytes.set16 .initial 0xFFFE 0xABCD).get8 .initial 4 = 0x20 := by
  have hpos : 0 < (#[0x10, 0x20, 0x30] : Cells).size := by decide
  obtain ⟨-, -, -, hfails, -⟩ := word_reads_back .initial hpos 0xFFFF 0xABCD
  obtain ⟨hsame, -⟩ := word_reads_back .initial hpos 0xFFFF 0xABAB
  obtain ⟨-, hbefore, -, -, hother⟩ := word_reads_back .initial hpos 0xFFFE 0xABCD
  exact ⟨hfails rfl (by decide) (by decide), hsame.mpr (.inr (by decide)),
    hbefore (by decide) (by decide), hother 4 (by decide) (by decide)⟩

end Device
end WordMachine
