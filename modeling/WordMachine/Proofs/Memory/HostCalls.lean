import Mathlib.Data.List.Induction
import WordMachine.Proofs.Memory.Checked

/-!
# What a host sets up

A host maps devices and takes them away, and between these calls it reads, writes, loads programs
and selects banks.  Each call keeps the invariant `AddressSpace.Sound`, and passes its checks where
that holds, so after any history of calls the memory is one on which no check fails.

Devices that have been taken away may be mapped again, with what has been written to them.

* `HostCall`: the calls, what each does, and what it does with checks.
* `HostCall.passes`: one call.
* `AddressSpace.sound_afterCalls`, `passes_of_history`: all calls of a history.
-/

namespace WordMachine

/-- A call of a host on memory. -/
inductive HostCall where
  | map (x : Mapping)
  | unmap (handle : Nat)
  | load (a : Word) (bytes : List Byte)
  | read8 (a : Word)
  | read16 (a : Word)
  | write8 (a : Word) (v : Byte)
  | write16 (a v : Word)
  | select (selector : String) (bank : Nat)

namespace HostCall

/-- What the call answers. -/
def Answer : HostCall → Type
  | .map _ => Nat
  | .unmap _ => Option Device
  | .read8 _ => Byte
  | .read16 _ => Word
  | .load _ _ | .write8 _ _ | .write16 _ _ | .select _ _ => Unit

/-- What the call does. -/
def act : (c : HostCall) → MemoryAction c.Answer
  | .map x => fun m => .ok (m.map x.device x.start x.size x.remap).1 (MapCall.apply m (.map x))
  | .unmap handle => fun m => .ok (m.unmap handle).1 (MapCall.apply m (.unmap handle))
  | .load a bytes => MemoryAction.load a bytes
  | .read8 a => MemoryAction.read8 a
  | .read16 a => MemoryAction.read16 a
  | .write8 a v => MemoryAction.write8 a v
  | .write16 a v => MemoryAction.write16 a v
  | .select selector bank => fun m => .ok () { m with panel := m.panel.select selector bank }

/-- What the call does with checks.  There is nothing to check when a bank is selected, since any
number selects one. -/
def checked : (c : HostCall) → CheckedMemory c.Answer
  | .map x => CheckedMemory.map x
  | .unmap handle => CheckedMemory.unmap handle
  | .load a bytes => CheckedMemory.load a bytes
  | .read8 a => CheckedMemory.read8 a
  | .read16 a => CheckedMemory.read16 a
  | .write8 a v => CheckedMemory.write8 a v
  | .write16 a v => CheckedMemory.write16 a v
  | .select selector bank => fun m => .ok () { m with panel := m.panel.select selector bank }

/-- Whether a device is mapped by the call. -/
def isMap : HostCall → Bool
  | .map _ => true
  | _ => false

/-- The call does not map a device that has not been built. -/
def IsLawful : HostCall → Prop
  | .map x => x.device.Built
  | _ => True

/-- The number of mappings after the call. -/
def countAfter (count : Nat) (c : HostCall) : Nat := if c.isMap then count + 1 else count

end HostCall

/-- The memory after a call, be it one that fails. -/
def AddressSpace.called (m : AddressSpace) (c : HostCall) : AddressSpace :=
  match c.act m with
  | .ok _ m' | .error _ m' => m'

/-- The memory after a history of calls, with nothing mapped at first. -/
def AddressSpace.afterCalls (calls : List HostCall) : AddressSpace :=
  calls.foldl AddressSpace.called .empty

namespace AddressSpace

variable {count : Nat} {m : AddressSpace}

/-- A mapping ends with the address space at the latest, also if its size is about to exceed
thirty-two bits. -/
theorem Sound.map (h : m.Sound count) {x : Mapping} (hx : x.device.Built) :
    Sound (count + 1) (MapCall.apply m (.map x)) where
  ordered := h.ordered.apply (.map x)
  nextHandle := congrArg (· + 1) h.nextHandle
  region r hr := by
    rcases List.mem_cons.mp hr with rfl | hr
    · refine ⟨?_, Nat.min_le_right _ _, hx⟩
      exact Nat.le_min.mpr ⟨Nat.le_add_right _ _, Nat.le_of_lt x.start.toNat_lt⟩
    · exact h.region r hr

theorem Sound.unmap (h : m.Sound count) (handle : Nat) :
    Sound count (MapCall.apply m (.unmap handle)) where
  ordered := h.ordered.apply (.unmap handle)
  nextHandle := h.nextHandle
  region r hr := h.region r (List.mem_of_mem_eraseP hr)

theorem Sound.select (h : m.Sound count) (selector : String) (bank : Nat) :
    Sound count { m with panel := m.panel.select selector bank } :=
  ⟨⟨h.ordered.descending, h.ordered.lt_next⟩, h.nextHandle, h.region⟩

/-- What is given back has been built. -/
theorem Sound.built_of_unmap (h : m.Sound count) {handle : Nat} {d : Device}
    (hd : (m.unmap handle).1 = some d) : d.Built := by
  obtain ⟨r, hr, rfl⟩ := Option.map_eq_some_iff.mp hd
  exact (h.region r (List.mem_of_find?_eq_some hr)).built

end AddressSpace

namespace CheckedMemory

variable {m : AddressSpace}

theorem map_eq (h : m.nextHandle + 1 < handleCount) (x : Mapping) :
    map x m = .ok (m.map x.device x.start x.size x.remap).1 (MapCall.apply m (.map x)) := by
  have hstop : min (min (x.start.toNat + x.size) sumLimit) addressCount =
      min (x.start.toNat + x.size) addressCount := by
    rw [addressCount, sumLimit]
    omega
  rw [map, if_pos h]
  dsimp only
  rw [hstop]
  rfl

theorem unmap_eq (handle : Nat) :
    unmap handle m = .ok (m.unmap handle).1 (MapCall.apply m (.unmap handle)) := by
  rw [unmap, MapCall.apply, AddressSpace.unmap, List.find?_eq_bind_findIdx?_getElem?,
    List.eraseP_eq_eraseIdx]
  cases hfind : m.regions.findIdx? (·.handle == handle) with
  | none => rfl
  | some i =>
    obtain ⟨hlt, -⟩ := List.findIdx?_eq_some_iff_getElem.mp hfind
    dsimp only
    rw [Option.bind_some, List.getElem?_eq_getElem hlt]
    rfl

end CheckedMemory

namespace HostCall

variable {count : Nat} {m : AddressSpace} {c : HostCall}

/-- A call passes its checks. -/
theorem passes (h : m.Sound count) (hc : c.IsLawful)
    (hcount : c.isMap = true → count + 1 < handleCount) :
    Passes (AddressSpace.Sound (countAfter count c)) (fun e m => e.Holds m) (c.act m)
      (c.checked m) := by
  cases c with
  | map x =>
    show Passes _ _ _ (CheckedMemory.map x m)
    rw [CheckedMemory.map_eq (h.nextHandle ▸ hcount rfl)]
    exact .ok _ _ (h.map hc)
  | unmap handle =>
    show Passes _ _ _ (CheckedMemory.unmap handle m)
    rw [CheckedMemory.unmap_eq]
    exact .ok _ _ (h.unmap handle)
  | load a bytes => exact CheckedMemory.follows_load a bytes m h
  | read8 a => exact CheckedMemory.follows_read8 a m h
  | read16 a => exact CheckedMemory.follows_read16 a m h
  | write8 a v => exact CheckedMemory.follows_write8 a v m h
  | write16 a v => exact CheckedMemory.follows_write16 a v m h
  | select selector bank => exact .ok _ _ (h.select selector bank)

end HostCall

open HostCall

theorem AddressSpace.Sound.called {count : Nat} {m : AddressSpace} (h : m.Sound count)
    {c : HostCall} (hc : c.IsLawful) (hcount : c.isMap = true → count + 1 < handleCount) :
    (m.called c).Sound (countAfter count c) := by
  rcases (passes h hc hcount).cases with ⟨a, t, hact, -, ht⟩ | ⟨e, t, hact, -, ht, -⟩
  all_goals
    rw [AddressSpace.called, hact]
    exact ht

/-! ## Histories -/

/-- The number of mappings in a history. -/
def mappings (calls : List HostCall) : Nat := calls.countP isMap

theorem mappings_append_singleton (calls : List HostCall) (c : HostCall) :
    mappings (calls ++ [c]) = countAfter (mappings calls) c := by
  rw [mappings, List.countP_append, List.countP_singleton, countAfter]
  split <;> rfl

theorem le_countAfter (count : Nat) (c : HostCall) : count ≤ countAfter count c := by
  rw [countAfter]
  split
  · exact Nat.le_succ _
  · exact Nat.le_refl _

/-- What a host has set up is sound. -/
theorem AddressSpace.sound_afterCalls {calls : List HostCall} (hlawful : ∀ c ∈ calls, c.IsLawful)
    (hcount : mappings calls < handleCount) : (afterCalls calls).Sound (mappings calls) := by
  induction calls using List.reverseRecOn with
  | nil => exact sound_empty
  | append_singleton calls c ih =>
    obtain ⟨hcalls, hc⟩ := List.forall_mem_append.mp hlawful
    rw [mappings_append_singleton] at hcount ⊢
    have hbefore := ih hcalls (Nat.lt_of_le_of_lt (le_countAfter _ c) hcount)
    have hstep := hbefore.called (hc c List.mem_cons_self) fun hmap => by
      rwa [countAfter, if_pos hmap] at hcount
    rwa [afterCalls, List.foldl_append]

/-- Each call of a history passes its checks. -/
theorem passes_of_history {older newer : List HostCall} {c : HostCall}
    (hlawful : ∀ d ∈ older ++ c :: newer, d.IsLawful)
    (hcount : mappings (older ++ c :: newer) < handleCount) :
    Passes (AddressSpace.Sound (countAfter (mappings older) c)) (fun e m => e.Holds m)
      (c.act (AddressSpace.afterCalls older)) (c.checked (AddressSpace.afterCalls older)) := by
  obtain ⟨holder, hc⟩ := List.forall_mem_append.mp hlawful
  have hle : countAfter (mappings older) c < handleCount := by
    refine Nat.lt_of_le_of_lt ?_ hcount
    rw [← mappings_append_singleton, List.append_cons older c newer]
    exact (List.sublist_append_left (older ++ [c]) newer).countP_le
  have hsound := AddressSpace.sound_afterCalls holder
    (Nat.lt_of_le_of_lt (le_countAfter _ c) hle)
  refine passes hsound (hc c List.mem_cons_self) fun hmap => ?_
  rwa [countAfter, if_pos hmap] at hle

end WordMachine
