import WordMachine.Proofs.Machine.Lockstep
import WordMachine.Proofs.Memory.Tiles

/-!
# Programs do not see how memory is tiled

A machine whose memory is put together from RAMs and a machine with one RAM of full size are two
machines with the same program, if all their bytes are the same.  They go on alike as long as
every word that is read or written lies in one region of the first.  Nothing else tells the two
memories apart: the four requests obey the same laws in both, and what the laws speak of is the
bytes.

The invariant of a run is that the first memory still has the outline that it had, so that it is
tiled and its borders are where they were, and that the second holds the same bytes.

* `AddressSpace.simulation_spread`: the two memories answer alike.
* `Machine.tiling_invisible`: the two machines stay alike.
-/

namespace WordMachine

namespace AddressSpace

/-- The second memory is one of the outline of the first, and the third is flat and holds the
bytes of the second. -/
structure Spread (origin s t : AddressSpace) : Prop where
  outline : s.regions.map Region.erased = origin.regions.map Region.erased
  flat : t.IsFlat
  bytes : ∀ a, t.byteAt a = s.byteAt a

theorem Spread.words {origin s t : AddressSpace} (h : Spread origin s t) (a : Word) :
    t.wordAt a = s.wordAt a :=
  wordAt_congr (h.bytes a) (h.bytes (a + 1))

/-- A memory in tiles and a flat one with the same bytes answer alike, as long as words are asked
for within the tiles. -/
theorem simulation_spread {origin : AddressSpace} (horigin : origin.IsTiled) :
    Simulation (fun a => origin.winner? a = origin.winner? (a + 1)) (Spread origin) := by
  have hwinner {s : AddressSpace} {t : AddressSpace} (h : Spread origin s t) {a : Word}
      (hwhole : origin.winner? a = origin.winner? (a + 1)) : s.winner? a = s.winner? (a + 1) := by
    rw [winner?_of_outline h.outline, winner?_of_outline h.outline, hwhole]
  constructor
  case read8 =>
    intro s t h a
    rw [(horigin.of_outline h.outline).read8, h.flat.read8]
    exact ⟨h.bytes a, h⟩
  case read16 =>
    intro s t h a hwhole
    rw [(horigin.of_outline h.outline).read16 (hwinner h hwhole), h.flat.read16]
    exact ⟨h.words a, h⟩
  case write8 =>
    intro s t h a v
    have htiled := horigin.of_outline h.outline
    rw [htiled.write8, h.flat.write8]
    refine ⟨rfl, (changesOnly_poke8 s a v).outline.trans h.outline, h.flat.poke8 a v, fun b => ?_⟩
    rw [htiled.byteAt_poke8, h.flat.byteAt_poke8, h.bytes]
  case write16 =>
    intro s t h a v hwhole
    have htiled := horigin.of_outline h.outline
    rw [htiled.write16, h.flat.write16]
    refine ⟨rfl, (changesOnly_poke16 s a v).outline.trans h.outline, h.flat.poke16 a v,
      fun b => ?_⟩
    rw [htiled.byteAt_poke16 (hwinner h hwhole), h.flat.byteAt_poke16, h.bytes]

end AddressSpace

namespace Machine

open AddressSpace

/-- Where every address is mapped, no step fails. -/
theorem exists_step_of_mapped {m : Machine} (hmapped : ∀ a, m.memory.isMapped a = true) :
    ∃ b m', Execution.step m = .ok b m' := by
  cases hrun : m.isHalted with
  | true => exact ⟨true, m, step_of_halted hrun⟩
  | false =>
    cases stepOutcome hrun with
    | unreadable hun _ =>
      rw [hmapped] at hun
      exact nomatch hun
    | passedOver b _ _ h => exact ⟨_, _, h⟩
    | cutShort opcode i _ _ _ _ hun _ =>
      rw [show (m.partlyFetched opcode i).registers.get .ip = _ from rfl, hmapped] at hun
      exact nomatch hun
    | executed opcode args _ _ h =>
      have hsettles := Effect.settles_perform
        (opcode.effect (m.fetched opcode).registers args) (m.fetched opcode)
      rw [h, Execution.bind_apply]
      cases hperform : (opcode.effect (m.fetched opcode).registers args).perform
          (m.fetched opcode) with
      | ok u m' => exact ⟨_, m', rfl⟩
      | error e m' =>
        rw [hperform] at hsettles
        have hun : (m.fetched opcode).memory.isMapped _ = false := hsettles.1
        rw [(m.agrees_fetched opcode).isMapped, hmapped] at hun
        exact nomatch hun

/-- A machine whose memory is tiled and a machine with one memory of full size that holds the
same bytes take the same steps, answer them alike and hold the same bytes again, as long as no
word is read or written across the border of two regions. -/
theorem tiling_invisible {m n : Machine} (htiled : m.memory.IsTiled) (hflat : n.memory.IsFlat)
    (hbytes : ∀ a, n.memory.byteAt a = m.memory.byteAt a)
    (hregisters : n.registers = m.registers) (hsize : n.frameSize = m.frameSize)
    (hhalted : n.isHalted = m.isHalted) {k : Nat}
    (hwhole : ∀ j < k, ∀ a, (Width.word, a) ∈ (m.afterSteps j).accesses →
      m.memory.winner? a = m.memory.winner? (a + 1)) :
    (∀ j < k, ∃ b m' n', Execution.step (m.afterSteps j) = .ok b m' ∧
        Execution.step (n.afterSteps j) = .ok b n') ∧
      (n.afterSteps k).registers = (m.afterSteps k).registers ∧
      (n.afterSteps k).frameSize = (m.afterSteps k).frameSize ∧
      (n.afterSteps k).isHalted = (m.afterSteps k).isHalted ∧
      ∀ a, (n.afterSteps k).memory.byteAt a = (m.afterSteps k).memory.byteAt a := by
  have hsim := simulation_spread htiled
  have htwins : m.Twins (Spread m.memory) n :=
    ⟨hregisters, ⟨rfl, hflat, hbytes⟩, hsize, hhalted⟩
  refine ⟨fun j hj => ?_, ?_⟩
  · have hj' := hsim.afterSteps htwins fun i hi => hwhole i (Nat.lt_trans hi hj)
    obtain ⟨b, m', hstep⟩ := exists_step_of_mapped (htiled.of_outline hj'.memory.outline).covers
    rcases (hsim.step hj' (hwhole j hj)).cases with
      ⟨b, m', n', hm, hn, -⟩ | ⟨e, m', n', hm, -, -⟩
    · exact ⟨b, m', n', hm, hn⟩
    · rw [hstep] at hm
      exact nomatch hm
  · have hk := hsim.afterSteps htwins hwhole
    exact ⟨hk.registers, hk.frameSize, hk.isHalted, hk.memory.bytes⟩

/-- A machine with a program in a small RAM that lies on a RAM of full size.  The program pushes
a word and halts. -/
def patched : Machine :=
  .new
    { regions :=
        [⟨1, 0, 4, true, .ram #[0x37, 0xAB, 0xCD, 0xFF]⟩,
          ⟨0, 0, addressCount, true, .newRam addressCount⟩]
      nextHandle := 2
      panel := .initial }

theorem isTiled_patched : patched.memory.IsTiled := by
  refine ⟨fun r hr => ?_, fun a => ?_⟩
  · simp only [patched, new, List.mem_cons, List.not_mem_nil, or_false] at hr
    rcases hr with rfl | rfl
    · exact ⟨_, rfl, rfl, by decide⟩
    · refine ⟨_, rfl, rfl, ?_⟩
      rw [Cells.zeros, Array.size_replicate]
      decide
  · rw [isMapped, List.any_eq_true]
    exact ⟨_, List.mem_cons_of_mem _ List.mem_cons_self, contains_full 0 true _ a⟩

/-- The pushed word lies in one of the two RAMs, and no operand crosses the border either. -/
theorem tiling_invisible_on_patched :
    ∃ n : Machine, n.memory.IsFlat ∧
      (∀ j < 2, ∃ b m' n', Execution.step (patched.afterSteps j) = .ok b m' ∧
        Execution.step (n.afterSteps j) = .ok b n') ∧
      (n.afterSteps 2).registers = (patched.afterSteps 2).registers ∧
      (n.afterSteps 2).frameSize = (patched.afterSteps 2).frameSize ∧
      (n.afterSteps 2).isHalted = (patched.afterSteps 2).isHalted ∧
      ∀ a, (n.afterSteps 2).memory.byteAt a = (patched.afterSteps 2).memory.byteAt a := by
  have hfirst : (patched.afterSteps 0).accesses =
      [(.byte, 0), (.word, 1), (.word, 0xFFFE)] := by
    decide +kernel
  have hsecond : (patched.afterSteps 1).accesses = [(.byte, 3)] := by
    decide +kernel
  refine ⟨{ patched with memory := patched.memory.flattened }, isFlat_flattened _, ?_⟩
  refine tiling_invisible (n := { patched with memory := patched.memory.flattened })
    isTiled_patched (isFlat_flattened _) (byteAt_flattened _) rfl rfl rfl ?_
  intro j hj a ha
  obtain rfl | rfl : j = 0 ∨ j = 1 := by omega
  · rw [hfirst] at ha
    simp only [List.mem_cons, List.not_mem_nil, or_false, Prod.mk.injEq, reduceCtorEq, false_and,
      false_or, true_and] at ha
    rcases ha with rfl | rfl <;> decide
  · rw [hsecond] at ha
    simp at ha

end Machine
end WordMachine
