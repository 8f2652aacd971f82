import WordMachine.Proofs.Memory.Change
import WordMachine.Proofs.Memory.Flat
import Mathlib.Data.Nat.Find

/-!
# Loading an image

An image is written byte by byte, to the addresses from a given one on, which wrap.  Each byte
is a request of its own: it goes to the region that wins at its address, and it fails if there
is none.

No request changes what is mapped.  So whether loading fails, and where, is settled before the
first byte is written: it fails if one of the addresses is mapped nowhere, and then at the first
of them in the order of the image (`FirstUnmapped`), when the bytes in front of that one have
been written and the others have not.

On a flat memory every address is mapped.  An image may still be longer than there are
addresses; then it comes back to its own first bytes, and an address holds what has been written
to it last.

* `MemoryAction.writeEach`: the requests that loading makes.
* `MemoryAction.exists_load`, `MemoryAction.load_of_firstUnmapped`: loading on any memory.
* `AddressSpace.IsFlat.byteAt_pokeList_last`: the last byte written to an address stands there.
* `MemoryAction.view_of_holds`: bytes that stand in memory are read back.
* `MemoryAction.load_image`: all of it in one statement.
-/

namespace WordMachine

namespace AddressSpace

/-! ## What is mapped -/

/-- Of the `n` addresses from `a` on, the one with the number `i` is the first that is mapped
nowhere. -/
structure FirstUnmapped (m : AddressSpace) (a : Word) (n i : Nat) : Prop where
  lt : i < n
  unmapped : m.isMapped (a + UInt16.ofNat i) = false
  mapped : ∀ j < i, m.isMapped (a + UInt16.ofNat j) = true

/-- If any of the addresses is mapped nowhere, one of them is the first. -/
theorem exists_firstUnmapped {m : AddressSpace} {a : Word} {n : Nat}
    (h : ∃ i < n, m.isMapped (a + UInt16.ofNat i) = false) : ∃ i, m.FirstUnmapped a n i := by
  obtain ⟨hlt, hun⟩ := Nat.find_spec h
  refine ⟨Nat.find h, hlt, hun, fun j hj => ?_⟩
  have hmin := Nat.find_min h hj
  rw [not_and, Bool.not_eq_false] at hmin
  exact hmin (Nat.lt_trans hj hlt)

/-- There is only one first. -/
theorem FirstUnmapped.unique {m : AddressSpace} {a : Word} {n i j : Nat}
    (hi : m.FirstUnmapped a n i) (hj : m.FirstUnmapped a n j) : i = j := by
  rcases Nat.lt_trichotomy i j with hlt | heq | hlt
  · exact absurd ((hj.mapped i hlt).symm.trans hi.unmapped) nofun
  · exact heq
  · exact absurd ((hi.mapped j hlt).symm.trans hj.unmapped) nofun

/-- A byte that is written leaves every address as mapped as it was. -/
theorem isMapped_written8 (m : AddressSpace) (a : Word) (v : Byte) (b : Word) :
    ((m.observe a (.set8 · v)).poke8 a v).isMapped b = m.isMapped b := by
  rw [(changesOnly_poke8 _ a v).isMapped, (agrees_observe m a _).isMapped]

/-! ## Contents -/

/-- A byte of an image stands at its address, unless a later byte of the image has been written
there. -/
theorem IsFlat.byteAt_pokeList_last {m : AddressSpace} (h : m.IsFlat) {a : Word}
    {bytes : List Byte} {i : Nat} (hi : i < bytes.length)
    (hlast : ∀ j < bytes.length, i < j → a + UInt16.ofNat j ≠ a + UInt16.ofNat i) :
    (m.pokeList a bytes).byteAt (a + UInt16.ofNat i) = bytes[i] := by
  induction bytes generalizing m a i with
  | nil => exact absurd hi (Nat.not_lt_zero _)
  | cons b rest ih =>
    cases i with
    | zero =>
      rw [Word.add_ofNat_zero] at hlast ⊢
      have hout : ¬ InBlock (a + 1) rest.length a := by
        rw [inBlock_iff_exists]
        rintro ⟨j, hj, hback⟩
        rw [add_one_add_ofNat] at hback
        exact hlast (j + 1) (Nat.succ_lt_succ hj) (Nat.succ_pos j) hback.symm
      rw [AddressSpace.pokeList, (h.poke8 a b).byteAt_pokeList _ hout, h.byteAt_poke8, if_pos rfl]
      rfl
    | succ i =>
      rw [AddressSpace.pokeList, ← add_one_add_ofNat]
      refine ih (h.poke8 a b) (Nat.lt_of_succ_lt_succ hi) fun j hj hij => ?_
      rw [add_one_add_ofNat, add_one_add_ofNat]
      exact hlast (j + 1) (Nat.succ_lt_succ hj) (Nat.succ_lt_succ hij)

end AddressSpace

namespace MemoryAction

open AddressSpace

/-! ## The requests of loading -/

/-- Writes each byte at the address that is its number behind `a`. -/
def writeEach (a : Word) (bytes : List Byte) : MemoryAction Unit :=
  forM bytes.zipIdx fun p => write8 (a + UInt16.ofNat p.2) p.1

/-- Loading writes each byte at its address. -/
theorem load_eq_writeEach (a : Word) (bytes : List Byte) : load a bytes = writeEach a bytes := by
  have hfrom (k : Nat) : load (a + UInt16.ofNat k) bytes =
      forM (bytes.zipIdx k) fun p => write8 (a + UInt16.ofNat p.2) p.1 := by
    induction bytes generalizing k with
    | nil => rfl
    | cons b rest ih =>
      rw [load, List.zipIdx_cons, List.forM_cons, ← ih (k + 1), UInt16.ofNat_add, UInt16.add_assoc]
      rfl
  rw [writeEach, ← hfrom 0, Word.add_ofNat_zero]

/-- Loading two pieces is loading the first one and then the second one behind it. -/
theorem load_append (a : Word) (xs ys : List Byte) :
    load a (xs ++ ys) = (load a xs >>= fun _ => load (a + UInt16.ofNat xs.length) ys) := by
  induction xs generalizing a with
  | nil =>
    rw [List.nil_append, List.length_nil, Word.add_ofNat_zero]
    rfl
  | cons x xs ih =>
    rw [List.cons_append, load, load, ih, bind_assoc, List.length_cons, ← add_one_add_ofNat]

/-- Loading succeeds if every address of the image is mapped, and it changes nothing about what
is mapped. -/
theorem exists_load {m : AddressSpace} {a : Word} {bytes : List Byte}
    (h : ∀ i < bytes.length, m.isMapped (a + UInt16.ofNat i) = true) :
    ∃ m', load a bytes m = .ok () m' ∧ ∀ b, m'.isMapped b = m.isMapped b := by
  induction bytes generalizing m a with
  | nil => exact ⟨m, rfl, fun _ => rfl⟩
  | cons b rest ih =>
    have hfirst : m.isMapped a = true := by
      rw [← Word.add_ofNat_zero a]
      exact h 0 (Nat.succ_pos _)
    obtain ⟨m', hload, hmapped⟩ := ih (m := (m.observe a (.set8 · b)).poke8 a b) (a := a + 1)
      fun i hi => by
        rw [isMapped_written8, add_one_add_ofNat]
        exact h (i + 1) (Nat.succ_lt_succ hi)
    refine ⟨m', ?_, fun c => (hmapped c).trans (isMapped_written8 m a b c)⟩
    rw [load]
    simp only [bind, EStateM.bind, write8_of_isMapped hfirst]
    exact hload

/-- Loading fails at the first address that is mapped nowhere, when the bytes in front of it have
been written. -/
theorem load_of_firstUnmapped {m : AddressSpace} {a : Word} {bytes : List Byte} {i : Nat}
    (h : m.FirstUnmapped a bytes.length i) :
    ∃ m', load a (bytes.take i) m = .ok () m' ∧
      load a bytes m = .error (.unmapped (a + UInt16.ofNat i)) m' := by
  have hi := h.lt
  have hlen : (bytes.take i).length = i := List.length_take_of_le (Nat.le_of_lt hi)
  have hbefore : ∀ j < (bytes.take i).length, m.isMapped (a + UInt16.ofNat j) = true :=
    fun j hj => h.mapped j (by rwa [hlen] at hj)
  obtain ⟨m', hload, hmapped⟩ := exists_load hbefore
  refine ⟨m', hload, ?_⟩
  have hfail := write8_of_not_isMapped ((hmapped _).trans h.unmapped) bytes[i]
  have hsplit : load a bytes = (load a (bytes.take i) >>= fun _ =>
      load (a + UInt16.ofNat i) (bytes.drop i)) := by
    conv_lhs => rw [← List.take_append_drop i bytes]
    rw [load_append, hlen]
  rw [hsplit, List.drop_eq_getElem_cons hi, load]
  simp only [bind, EStateM.bind, hload, hfail]

/-- The two outcomes of loading. -/
theorem load_cases (m : AddressSpace) (a : Word) (bytes : List Byte) :
    ((∀ i < bytes.length, m.isMapped (a + UInt16.ofNat i) = true) ∧
        ∃ m', load a bytes m = .ok () m') ∨
      ∃ i m', m.FirstUnmapped a bytes.length i ∧ load a (bytes.take i) m = .ok () m' ∧
        load a bytes m = .error (.unmapped (a + UInt16.ofNat i)) m' := by
  by_cases hun : ∃ i < bytes.length, m.isMapped (a + UInt16.ofNat i) = false
  · obtain ⟨i, hfirst⟩ := exists_firstUnmapped hun
    obtain ⟨m', hload⟩ := load_of_firstUnmapped hfirst
    exact .inr ⟨i, m', hfirst, hload⟩
  · have hmapped : ∀ i < bytes.length, m.isMapped (a + UInt16.ofNat i) = true :=
      fun i hi => (Bool.not_eq_false _).mp fun hfalse => hun ⟨i, hi, hfalse⟩
    obtain ⟨m', hload, -⟩ := exists_load hmapped
    exact .inl ⟨hmapped, m', hload⟩

/-! ## Reading back -/

/-- Bytes that stand in a flat memory are read back, behind those already read. -/
theorem viewFrom_of_holds {m : AddressSpace} (h : m.IsFlat) {a : Word} {bytes : List Byte}
    (hbytes : m.Holds a bytes) (acc : List Byte) :
    viewFrom acc a bytes.length m = .ok (acc.reverse ++ bytes) m := by
  induction bytes generalizing a acc with
  | nil => rw [List.append_nil]; rfl
  | cons b rest ih =>
    rw [List.length_cons, viewFrom]
    simp only [bind, EStateM.bind, h.read8]
    rw [hbytes.1, ih hbytes.2, List.reverse_cons, List.append_assoc]
    rfl

/-- Bytes that stand in a flat memory are read back. -/
theorem view_of_holds {m : AddressSpace} (h : m.IsFlat) {a : Word} {bytes : List Byte}
    (hbytes : m.Holds a bytes) : view a bytes.length m = .ok bytes m :=
  viewFrom_of_holds h hbytes []

/-! ## Loading -/

/-- **What loading an image comes to.**  It fails exactly if one of the addresses of the image is
mapped nowhere.  The error names the first of them, and the memory is as it is after the bytes in
front of this one have been written.  On a flat memory loading succeeds; then each address of the
image holds the last byte that the image has for it, any other address holds what it held, and an
image that is no longer than the address space is read back as it is. -/
theorem load_image (m : AddressSpace) (a : Word) (bytes : List Byte) :
    ((∃ e m', load a bytes m = .error e m') ↔
        ∃ i < bytes.length, m.isMapped (a + UInt16.ofNat i) = false) ∧
      (∀ e m', load a bytes m = .error e m' →
        ∃ i, m.FirstUnmapped a bytes.length i ∧ e = .unmapped (a + UInt16.ofNat i) ∧
          writeEach a (bytes.take i) m = .ok () m') ∧
      (m.IsFlat → ∃ m', load a bytes m = .ok () m' ∧ m'.IsFlat ∧
        (∀ (i : Nat) (hi : i < bytes.length),
          (∀ j < bytes.length, i < j → a + UInt16.ofNat j ≠ a + UInt16.ofNat i) →
          m'.byteAt (a + UInt16.ofNat i) = bytes[i]) ∧
        (∀ b, (∀ i < bytes.length, b ≠ a + UInt16.ofNat i) → m'.byteAt b = m.byteAt b) ∧
        (bytes.length ≤ addressCount → view a bytes.length m' = .ok bytes m')) := by
  refine ⟨?_, ?_, fun h => ⟨m.pokeList a bytes, h.load a bytes, h.pokeList a bytes, ?_, ?_, ?_⟩⟩
  · rcases load_cases m a bytes with ⟨hmapped, m', hload⟩ | ⟨i, m', hfirst, -, hload⟩
    · rw [hload]
      refine ⟨nofun, ?_⟩
      rintro ⟨i, hi, hun⟩
      exact absurd ((hmapped i hi).symm.trans hun) nofun
    · exact ⟨fun _ => ⟨i, hfirst.lt, hfirst.unmapped⟩, fun _ => ⟨_, m', hload⟩⟩
  · intro e m' herror
    rcases load_cases m a bytes with ⟨-, m'', hload⟩ | ⟨i, m'', hfirst, hbefore, hload⟩
    · rw [hload] at herror
      nomatch herror
    · rw [hload, EStateM.Result.error.injEq] at herror
      obtain ⟨rfl, rfl⟩ := herror
      exact ⟨i, hfirst, rfl, load_eq_writeEach a _ ▸ hbefore⟩
  · exact fun i hi => h.byteAt_pokeList_last hi
  · intro b hb
    refine h.byteAt_pokeList a fun hin => ?_
    obtain ⟨i, hi, rfl⟩ := inBlock_iff_exists.mp hin
    exact hb i hi rfl
  · exact fun hlen => view_of_holds (h.pokeList a bytes) (h.holds_pokeList a hlen)

/-- A RAM behind the last two addresses, and nothing else. -/
def lastTwo : AddressSpace := (empty.map (.newRam 2) 0xFFFE 2 true).2

/-- A RAM behind all addresses, and nothing else. -/
def onlyRam : AddressSpace := (empty.map (.newRam addressCount) 0 addressCount true).2

/-- Three bytes are too many for the last two addresses, and there is none for the third.  On a
memory of full size it goes to address zero. -/
theorem load_image_on_lastTwo :
    (∃ m', load 0xFFFE [1, 2, 3] lastTwo = .error (.unmapped 0) m' ∧
        writeEach 0xFFFE [1, 2] lastTwo = .ok () m') ∧
      ∃ m', load 0xFFFE [1, 2, 3] onlyRam = .ok () m' ∧ m'.byteAt 0 = 3 ∧
        m'.byteAt 1 = onlyRam.byteAt 1 ∧ view 0xFFFE 3 m' = .ok [1, 2, 3] m' := by
  constructor
  · obtain ⟨hfails, herror, -⟩ := load_image lastTwo 0xFFFE [1, 2, 3]
    obtain ⟨e, m', hload⟩ := hfails.mpr ⟨2, by decide, by decide⟩
    obtain ⟨i, hfirst, rfl, hbefore⟩ := herror e m' hload
    obtain rfl : i = 2 := hfirst.unique ⟨by decide, by decide, by decide⟩
    exact ⟨m', hload, hbefore⟩
  · obtain ⟨-, -, hflat⟩ := load_image onlyRam 0xFFFE [1, 2, 3]
    obtain ⟨m', hload, -, hlast, hother, hview⟩ := hflat (isFlat_map_newRam true)
    exact ⟨m', hload, hlast 2 (by decide) (by decide), hother 1 (by decide), hview (by decide)⟩

end MemoryAction
end WordMachine
