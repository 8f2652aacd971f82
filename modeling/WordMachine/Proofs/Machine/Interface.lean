import WordMachine.Proofs.Machine.Lockstep

/-!
# Devices behind their interface

The kinds of device that are built in are constructors, so that programs and proofs can take
them apart.  To the address space they are nothing special: it asks a device four things and
lets it show each of them on the panel, and `HostDevice` is just this.

The built-in kinds have that form as well (`HostDevice.ram`, `HostDevice.rom`,
`HostDevice.bank`), so a device is its behaviour and what it stores (`Device.opened`).  A request
finds the same answer in the two forms and leaves the same bytes.  Hence a memory and the same
memory with its devices opened are a simulation, and no program can tell whether a device is
built in or comes from the host.

* `Device.interface`, `Device.contents`: what a device does, and what it stores.
* `AddressSpace.simulation_opened`: opening all devices of a memory is a simulation.
* `Machine.step_opened`, `Machine.runFor_opened`, `Machine.run_opened`: the machine goes on with
  its devices opened as it does with them closed.
-/

namespace WordMachine

/-! ## Devices -/

namespace Device

/-- What a device does. -/
def interface : Device → HostDevice
  | .ram _ => .ram
  | .rom _ => .rom
  | .bank _ selector => .bank selector
  | .hosted device _ => device

/-- What a device stores. -/
def contents : Device → Array Cells
  | .ram cells | .rom cells => #[cells]
  | .bank banks _ => banks
  | .hosted _ store => store

/-- The same device as one of the host's. -/
def opened (d : Device) : Device := .hosted d.interface d.contents

theorem get8_opened (panel : Panel) (a : Word) (d : Device) :
    d.opened.get8 panel a = d.get8 panel a := by
  cases d <;> rfl

theorem get16_opened (panel : Panel) (a : Word) (d : Device) :
    d.opened.get16 panel a = d.get16 panel a := by
  cases d <;> rfl

theorem set8_opened (panel : Panel) (a : Word) (v : Byte) (d : Device) :
    d.opened.set8 panel a v = (d.set8 panel a v).opened := by
  cases d <;> rfl

theorem set16_opened (panel : Panel) (a v : Word) (d : Device) :
    d.opened.set16 panel a v = (d.set16 panel a v).opened := by
  cases d <;> rfl

theorem observe_opened (access : Access) (panel : Panel) (d : Device) :
    d.opened.observe access panel = d.observe access panel := by
  cases d <;> rfl

end Device

/-! ## Memories -/

/-- The region with its device opened. -/
def Region.opened (r : Region) : Region := { r with device := r.device.opened }

/-- Changing the first element with a property, before or after a map that keeps the property
and goes with the change. -/
theorem modifyFirst_map {α β : Type} {p : α → Bool} {q : β → Bool} {f : α → α} {g : β → β}
    {h : α → β} (hp : ∀ x, q (h x) = p x) (hf : ∀ x, g (h x) = h (f x)) (l : List α) :
    modifyFirst q g (l.map h) = (modifyFirst p f l).map h := by
  induction l with
  | nil => rfl
  | cons x l ih =>
    rw [List.map_cons, modifyFirst, modifyFirst, hp]
    cases p x with
    | true =>
      rw [if_pos rfl, if_pos rfl, List.map_cons, hf]
    | false =>
      rw [if_neg Bool.false_ne_true, if_neg Bool.false_ne_true, List.map_cons, ih]

namespace AddressSpace

/-- The memory with all its devices opened. -/
def opened (m : AddressSpace) : AddressSpace :=
  { m with regions := m.regions.map Region.opened }

variable (m : AddressSpace) (a : Word)

theorem region?_opened : m.opened.region? a = (m.region? a).map Region.opened := List.find?_map

theorem isMapped_opened : m.opened.isMapped a = m.isMapped a := by
  rw [isMapped_eq, isMapped_eq, region?_opened, Option.isSome_map]

theorem peek8_opened : m.opened.peek8 a = m.peek8 a := by
  rw [peek8, peek8, region?_opened]
  cases m.region? a with
  | none => rfl
  | some r => exact congrArg Except.ok (r.device.get8_opened m.panel _)

theorem peek16_opened : m.opened.peek16 a = m.peek16 a := by
  rw [peek16, peek16, region?_opened]
  cases m.region? a with
  | none => rfl
  | some r => exact congrArg Except.ok (r.device.get16_opened m.panel _)

theorem observe_opened (request : Word → Access) :
    m.opened.observe a request = (m.observe a request).opened := by
  rw [observe, observe, region?_opened]
  cases m.region? a with
  | none => rfl
  | some r =>
    exact congrArg (fun panel => { m.opened with panel })
      (r.device.observe_opened (request (r.deviceAddress a)) m.panel)

theorem poke8_opened (v : Byte) : m.opened.poke8 a v = (m.poke8 a v).opened :=
  congrArg (fun regions => { m with regions })
    (modifyFirst_map (fun _ => rfl)
      (fun r => congrArg (fun device => { r with device }) (r.device.set8_opened m.panel _ v))
      m.regions)

theorem poke16_opened (v : Word) : m.opened.poke16 a v = (m.poke16 a v).opened :=
  congrArg (fun regions => { m with regions })
    (modifyFirst_map (fun _ => rfl)
      (fun r => congrArg (fun device => { r with device }) (r.device.set16_opened m.panel _ v))
      m.regions)

/-- A memory answers with its devices opened as it does with them closed. -/
theorem simulation_opened : Simulation (fun _ => True) fun s t => t = s.opened := by
  constructor
  case read8 =>
    rintro s _ rfl a
    rw [MemoryAction.read8, MemoryAction.read8, peek8_opened]
    cases s.peek8 a with
    | ok b => exact ⟨rfl, observe_opened s a _⟩
    | error e => exact ⟨rfl, rfl⟩
  case read16 =>
    rintro s _ rfl a -
    rw [MemoryAction.read16, MemoryAction.read16, peek16_opened]
    cases s.peek16 a with
    | ok w => exact ⟨rfl, observe_opened s a _⟩
    | error e => exact ⟨rfl, rfl⟩
  case write8 =>
    rintro s _ rfl a v
    rw [MemoryAction.write8, MemoryAction.write8, isMapped_opened]
    cases s.isMapped a with
    | true =>
      refine ⟨rfl, ?_⟩
      rw [observe_opened, poke8_opened]
    | false => exact ⟨rfl, rfl⟩
  case write16 =>
    rintro s _ rfl a v -
    rw [MemoryAction.write16, MemoryAction.write16, isMapped_opened]
    cases s.isMapped a with
    | true =>
      refine ⟨rfl, ?_⟩
      rw [observe_opened, poke16_opened]
    | false => exact ⟨rfl, rfl⟩

end AddressSpace

/-! ## Machines -/

namespace AddressSpace.Simulation

open Execution

variable {R : AddressSpace → AddressSpace → Prop} (h : Simulation (fun _ => True) R)
include h

theorem lockstep_step : Lockstep R (fun _ => True) Execution.step :=
  fun _ _ htwins _ => h.step htwins fun _ _ => trivial

/-- Where steps go in lockstep, so do bounded runs. -/
theorem lockstep_runFor (n : Nat) : Lockstep R (fun _ => True) (runFor n) := by
  induction n with
  | zero => exact lockstep_pure _
  | succ n ih =>
    refine h.lockstep_step.bind_any fun halted => ?_
    cases halted with
    | true => exact lockstep_pure _
    | false => exact ih

/-- And so do runs under a token, if the memories agree on whether it has been triggered. -/
theorem lockstep_run {token : StopToken}
    (htoken : ∀ s t, R s t → t.panel.isTriggered token = s.panel.isTriggered token)
    (slices : Nat) : Lockstep R (fun _ => True) (run token slices) := by
  have hlook : Lockstep R (fun _ => True) (isTriggered token) :=
    lockstep_of_eq (fun _ => rfl) fun m n htwins => ⟨htoken _ _ htwins.memory, htwins⟩
  induction slices with
  | zero => exact lockstep_pure _
  | succ slices ih =>
    refine hlook.bind_any fun triggered => ?_
    cases triggered with
    | true => exact lockstep_pure _
    | false =>
      refine (h.lockstep_runFor sliceLength).bind_any fun state => ?_
      cases state with
      | running => exact ih
      | halted | stopped => exact lockstep_pure _

end AddressSpace.Simulation

namespace Machine

open AddressSpace Execution

/-- The machine with all the devices of its memory opened. -/
def opened (m : Machine) : Machine := { m with memory := m.memory.opened }

theorem twins_opened (m : Machine) : m.Twins (fun s t => t = s.opened) m.opened :=
  ⟨rfl, rfl, rfl, rfl⟩

theorem Twins.eq_opened {m n : Machine} (h : m.Twins (fun s t => t = s.opened) n) :
    n = m.opened := by
  obtain ⟨registers, memory, frameSize, isHalted⟩ := n
  obtain ⟨rfl, rfl, rfl, rfl⟩ := h
  rfl

/-- An action in lockstep gives the same answer or the same error when the devices are opened,
and the state that it would have reached, opened. -/
theorem sameOutcome_opened {α : Type} {x : Execution α}
    (hx : Lockstep (fun s t => t = s.opened) (fun _ => True) x) (m : Machine) :
    SameOutcome (fun m n => n = m.opened) (x m) (x m.opened) := by
  rcases (hx m m.opened m.twins_opened trivial).cases with
    ⟨a, m', n', hm, hn, htwins⟩ | ⟨e, m', n', hm, hn, htwins⟩
  · rw [hm, hn]
    exact ⟨rfl, htwins.eq_opened⟩
  · rw [hm, hn]
    exact ⟨rfl, htwins.eq_opened⟩

/-- No step tells a built-in device from one of the host's that does the same. -/
theorem step_opened (m : Machine) :
    SameOutcome (fun m n => n = m.opened) (step m) (step m.opened) :=
  sameOutcome_opened simulation_opened.lockstep_step m

/-- No bounded run does. -/
theorem runFor_opened (n : Nat) (m : Machine) :
    SameOutcome (fun m n => n = m.opened) (runFor n m) (runFor n m.opened) :=
  sameOutcome_opened (simulation_opened.lockstep_runFor n) m

/-- No run does, whether it ends, fails or is stopped. -/
theorem run_opened (token : StopToken) (slices : Nat) (m : Machine) :
    SameOutcome (fun m n => n = m.opened) (run token slices m) (run token slices m.opened) :=
  sameOutcome_opened
    (simulation_opened.lockstep_run (fun _ _ h => congrArg (·.panel.isTriggered token) h) slices) m

end Machine
end WordMachine
