import WordMachine.Proofs.Machine.Footprint
import WordMachine.Proofs.Machine.Schedule
import WordMachine.Proofs.Memory.Bank

/-!
# Devices are isolated

A program reaches a device only through the regions that win, and only by the four requests.  So
there are things that no program can do, whatever code it executes and however it ends: it
cannot move a region or take one away, it cannot store into a ROM, it cannot turn to another
bank than the one that is selected, and it cannot reach a device that is covered by others at
all of its addresses.

All of this is contained in one invariant of memory, which is that it has been changed by some
writes and not otherwise (`AddressSpace.ChangesOnly`).  Each request adds at most one write.
Which writes these are does not matter: a ROM has no cell that a write addresses, and a device
that is covered wins none.

* `AddressSpace.Isolated`: what no program can do to a memory.
* `Machine.devices_isolated`: no program does it, and a bank is several memories.
-/

namespace WordMachine

namespace AddressSpace

/-! ## What no program can do -/

/-- What of a memory no program can change. -/
structure Isolated (m m' : AddressSpace) : Prop where
  /-- The same regions lie in the same places, with devices of the same kinds and sizes. -/
  outline : m'.regions.map Region.erased = m.regions.map Region.erased
  nextHandle : m'.nextHandle = m.nextHandle
  selection : ∀ selector, m'.panel.current selector = m.panel.current selector
  /-- A ROM holds the bytes that it held. -/
  rom : ∀ (i : Nat) (r : Region) (cells : Cells), m.regions[i]? = some r →
    r.device = .rom cells → m'.regions[i]? = some r
  /-- Where a ROM wins, bytes and words are read from these. -/
  rom_reads : ∀ (a : Word) (r : Region) (cells : Cells), m.region? a = some r →
    r.device = .rom cells →
    m'.peek8 a = .ok (cells.get8 (r.deviceAddress a)) ∧
      m'.peek16 a = .ok (cells.get16 (r.deviceAddress a))
  /-- Of several banks only the selected one is different, counted modulo their number. -/
  bank : ∀ (i : Nat) (r : Region) (banks : Array Cells) (selector : String),
    m.regions[i]? = some r → r.device = .bank banks selector →
    ∃ banks' : Array Cells, m'.regions[i]? = some { r with device := .bank banks' selector } ∧
      banks'.size = banks.size ∧
      ∀ j, j ≠ m.panel.current selector % banks.size → banks'[j]? = banks[j]?
  /-- A device that wins at none of its addresses holds what it held. -/
  covered : ∀ (i : Nat) (r : Region), m.regions[i]? = some r → (∀ a, m.winner? a ≠ some i) →
    m'.regions[i]? = some r

variable {m m' : AddressSpace} {writes : List (Width × Word)}

section ChangesOnly

variable (h : m.ChangesOnly writes m')
include h

/-- No write addresses a cell of a ROM. -/
theorem ChangesOnly.rom_eq {i : Nat} {r : Region} {cells : Cells} (hr : m.regions[i]? = some r)
    (hrom : r.device = .rom cells) : m'.regions[i]? = some r := by
  refine h.region_eq hr fun w _ _ bank k haddr => ?_
  rw [hrom] at haddr
  exact haddr

/-- A write to several banks addresses a cell of the one that is selected. -/
theorem ChangesOnly.exists_bank {i : Nat} {r : Region} {banks : Array Cells} {selector : String}
    (hr : m.regions[i]? = some r) (hbank : r.device = .bank banks selector) :
    ∃ banks' : Array Cells, m'.regions[i]? = some { r with device := .bank banks' selector } ∧
      banks'.size = banks.size ∧
      ∀ j, j ≠ m.panel.current selector % banks.size → banks'[j]? = banks[j]? := by
  obtain ⟨r', hr', herased⟩ := exists_of_outline h.outline hr
  have hcells := h.cells i r r' hr hr'
  obtain ⟨handle, start, stop, remap, device⟩ := r
  obtain ⟨handle', start', stop', remap', device'⟩ := r'
  simp only [Region.erased, Region.mk.injEq] at herased
  obtain ⟨rfl, rfl, rfl, rfl, hdevice⟩ := herased
  obtain rfl : device = .bank banks selector := hbank
  cases device' <;> simp only [Device.erased, reduceCtorEq, Device.bank.injEq] at hdevice
  case bank banks' selector' =>
    obtain ⟨hbanks, rfl⟩ := hdevice
    have hsize : banks'.size = banks.size := by simpa using congrArg Array.size hbanks
    refine ⟨banks', hr', hsize, fun j hj => ?_⟩
    have hcell (k : Nat) : (banks'[j]?).bind (·[k]?) = (banks[j]?).bind (·[k]?) := by
      refine Decidable.byContradiction fun hne => ?_
      obtain ⟨w, -, -, hselected, -⟩ := hcells j k hne
      exact hj hselected
    cases hb : banks[j]? with
    | none =>
      rw [Array.getElem?_eq_none_iff] at hb ⊢
      rwa [hsize]
    | some c =>
      have hlt : j < banks'.size := by
        rw [hsize]
        exact (Array.getElem?_eq_some_iff.mp hb).1
      rw [Array.getElem?_eq_getElem hlt]
      refine congrArg some (Array.ext_getElem? fun k => ?_)
      have hk := hcell k
      rwa [hb, Array.getElem?_eq_getElem hlt] at hk

/-- What writes change is no more than a program may change. -/
theorem ChangesOnly.isolated : m.Isolated m' where
  outline := h.outline
  nextHandle := h.nextHandle
  selection := h.selection
  rom i r cells hr hrom := h.rom_eq hr hrom
  rom_reads a r cells hr hrom := by
    obtain ⟨i, hwin, hi⟩ := exists_winner? hr
    have hregion : m'.region? a = some r := by
      rw [region?_eq, winner?_of_outline h.outline, hwin]
      exact h.rom_eq hi hrom
    rw [peek8, peek16, hregion]
    dsimp only
    rw [hrom]
    exact ⟨rfl, rfl⟩
  bank i r banks selector hr hbank := h.exists_bank hr hbank
  covered i r hr hcovered := h.region_eq hr fun w _ hwin => absurd hwin (hcovered w.2)

end ChangesOnly

/-- Whatever is requested of a memory, it is changed by writes only. -/
theorem kept_changesOnly (m : AddressSpace) : Kept fun s => ∃ writes, m.ChangesOnly writes s where
  observe hs a request := by
    obtain ⟨writes, h⟩ := hs
    exact ⟨writes, h.trans_agrees (agrees_observe _ a request)⟩
  poke8 hs a v := by
    obtain ⟨writes, h⟩ := hs
    exact ⟨_, h.trans (changesOnly_poke8 _ a v)⟩
  poke16 hs a v := by
    obtain ⟨writes, h⟩ := hs
    exact ⟨_, h.trans (changesOnly_poke16 _ a v)⟩

end AddressSpace

namespace Machine

open AddressSpace Device

/-- No program does to a memory what programs cannot do, however the machine is driven; and a
new bank serves selections and requests as so many new memories do. -/
theorem devices_isolated :
    (∀ (m : Machine) (drives : List Drive),
      m.memory.Isolated (drives.foldl Drive.drive m).memory) ∧
    ∀ (count size : Nat) (selector : String) (panel : Panel) (ops : List Operation),
      let n := max count 1
      let served := serve selector panel (newBank count size selector) ops
      let memories := serveEach n (panel.current selector) (fun _ => newRam (max 1 size)) ops
      served.1 = memories.1 ∧
        ∃ banks, served.2 = .bank banks selector ∧ banks.size = n ∧
          ∀ i < n, memories.2 i = .ram (banks.getD i #[]) := by
  refine ⟨fun m drives => ?_, fun count size selector panel ops => ?_⟩
  · obtain ⟨k, hk⟩ := exists_afterSteps drives m
    rw [hk]
    obtain ⟨writes, h⟩ := (kept_changesOnly m.memory).afterSteps
      ⟨[], (AddressSpace.Agrees.refl _).changesOnly⟩ k
    exact h.isolated
  · obtain ⟨hanswers, banks, hbanks, hmirrors⟩ :=
      (mirrors_newBank count size).serve (Nat.le_max_right count 1) panel selector ops
    exact ⟨hanswers, banks, hbanks, hmirrors.size, hmirrors.memory⟩

/-- The pushes run through the second bank and on into the ROM.  The ROM and the first bank stay
as they are. -/
theorem devices_isolated_on_banked_stack :
    ∃ m', [.step, .runFor 100, .run ⟨0⟩ 1].foldl Drive.drive bankedStack = m' ∧
      m'.memory.peek16 0 = .ok 0x37AB ∧
      ∃ banks, m'.memory.regions[0]? = some ⟨1, 0x100, 0x104, true, .bank banks "stack"⟩ ∧
        banks[0]? = some (.zeros 4) := by
  have h := devices_isolated.1 bankedStack [.step, .runFor 100, .run ⟨0⟩ 1]
  obtain ⟨banks, hregion, -, hbanks⟩ := h.bank 0 _ _ "stack" rfl rfl
  exact ⟨_, rfl, (h.rom_reads 0 _ _ rfl rfl).2, banks, hregion, hbanks 0 (by decide)⟩

end Machine
end WordMachine
