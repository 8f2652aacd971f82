import WordMachine.MachineCode
import WordMachine.Memory.AddressSpace

/-!
# Requests to any memory

Whatever is mapped, and behind however many regions, four things hold of a request.  It
fails exactly where no region is, and then it has done nothing.  A read changes no device.
What a request shows on the panel has no influence on any later answer: the log and the
tokens are written and never read by a device, and the selectors, which are read, are not
written.  So a memory is as good as any other from which it differs only in what the panel
has seen, and that is what `AddressSpace.Agrees` says.

* `AddressSpace.Agrees`, `agrees_observe`: requests that have been seen change no answer.
* `AddressSpace.seen`: the memory after devices have seen several reads.
* `MemoryAction.read8_cases`, `read16_cases`, `write8_cases`, `write16_cases`: the two
  outcomes of each request.
-/

namespace WordMachine

namespace Device

variable {p q : Panel}

/-- Which bank is visible depends on the selections only. -/
theorem bankIndex_congr (h : ∀ s, q.current s = p.current s) (banks : Array Cells)
    (selector : String) : bankIndex q banks selector = bankIndex p banks selector := by
  rw [bankIndex, bankIndex, h]

theorem visible_congr (h : ∀ s, q.current s = p.current s) (banks : Array Cells)
    (selector : String) : visible q banks selector = visible p banks selector := by
  rw [visible, visible, bankIndex_congr h]

theorem get8_congr (h : ∀ s, q.current s = p.current s) (a : Word) (d : Device) :
    d.get8 q a = d.get8 p a := by
  cases d with
  | bank banks selector => rw [get8, get8, visible_congr h]
  | hosted device store => rw [get8, get8, funext h]
  | ram | rom => rfl

theorem get16_congr (h : ∀ s, q.current s = p.current s) (a : Word) (d : Device) :
    d.get16 q a = d.get16 p a := by
  cases d with
  | bank banks selector => rw [get16, get16, visible_congr h]
  | hosted device store => rw [get16, get16, funext h]
  | ram | rom => rfl

theorem set8_congr (h : ∀ s, q.current s = p.current s) (a : Word) (v : Byte) (d : Device) :
    d.set8 q a v = d.set8 p a v := by
  cases d with
  | bank banks selector => rw [set8, set8, bankIndex_congr h]
  | hosted device store => rw [set8, set8, funext h]
  | ram | rom => rfl

theorem set16_congr (h : ∀ s, q.current s = p.current s) (a v : Word) (d : Device) :
    d.set16 q a v = d.set16 p a v := by
  cases d with
  | bank banks selector => rw [set16, set16, bankIndex_congr h]
  | hosted device store => rw [set16, set16, funext h]
  | ram | rom => rfl

end Device

namespace AddressSpace

/-! ## What the panel has seen -/

/-- The second space differs from the first at most in what the panel has seen: in the log
and in the tokens that have been triggered. -/
structure Agrees (m m' : AddressSpace) : Prop where
  regions : m'.regions = m.regions
  nextHandle : m'.nextHandle = m.nextHandle
  selection : ∀ s, m'.panel.current s = m.panel.current s

theorem Agrees.refl (m : AddressSpace) : m.Agrees m := ⟨rfl, rfl, fun _ => rfl⟩

theorem Agrees.trans {m m' m'' : AddressSpace} (h : m.Agrees m') (h' : m'.Agrees m'') :
    m.Agrees m'' where
  regions := h'.regions.trans h.regions
  nextHandle := h'.nextHandle.trans h.nextHandle
  selection s := (h'.selection s).trans (h.selection s)

/-- A request that is only seen changes nothing else. -/
theorem agrees_observe (m : AddressSpace) (a : Word) (request : Word → Access) :
    m.Agrees (m.observe a request) := by
  refine ⟨regions_observe m a request, ?_, fun s => ?_⟩
  · unfold observe
    split <;> rfl
  · unfold observe
    split
    · rfl
    · exact Device.current_observe _ _ _ s

section Agrees

variable {m m' : AddressSpace} (h : m.Agrees m')
include h

theorem Agrees.isMapped (a : Word) : m'.isMapped a = m.isMapped a := by
  rw [AddressSpace.isMapped, AddressSpace.isMapped, h.regions]

theorem Agrees.region? (a : Word) : m'.region? a = m.region? a := by
  rw [AddressSpace.region?, AddressSpace.region?, h.regions]

theorem Agrees.peek8 (a : Word) : m'.peek8 a = m.peek8 a := by
  rw [AddressSpace.peek8, AddressSpace.peek8, h.region?]
  cases m.region? a with
  | none => rfl
  | some r => exact congrArg Except.ok (Device.get8_congr h.selection _ _)

theorem Agrees.peek16 (a : Word) : m'.peek16 a = m.peek16 a := by
  rw [AddressSpace.peek16, AddressSpace.peek16, h.region?]
  cases m.region? a with
  | none => rfl
  | some r => exact congrArg Except.ok (Device.get16_congr h.selection _ _)

theorem Agrees.poke8 (a : Word) (v : Byte) : (m.poke8 a v).Agrees (m'.poke8 a v) := by
  have hset : Region.set8 m'.panel a v = Region.set8 m.panel a v := by
    funext r
    rw [Region.set8, Region.set8, Device.set8_congr h.selection]
  refine ⟨?_, h.nextHandle, h.selection⟩
  rw [AddressSpace.poke8, AddressSpace.poke8, h.regions, hset]

theorem Agrees.poke16 (a v : Word) : (m.poke16 a v).Agrees (m'.poke16 a v) := by
  have hset : Region.set16 m'.panel a v = Region.set16 m.panel a v := by
    funext r
    rw [Region.set16, Region.set16, Device.set16_congr h.selection]
  refine ⟨?_, h.nextHandle, h.selection⟩
  rw [AddressSpace.poke16, AddressSpace.poke16, h.regions, hset]

end Agrees

/-! ## Several reads -/

/-- The request to read a datum of the given width. -/
def readRequest : Width → Word → Access
  | .byte => .get8
  | .word => .get16

/-- The space after the devices have seen reads, each of a width and at an address, one
after the other. -/
def seen (m : AddressSpace) : List (Width × Word) → AddressSpace
  | [] => m
  | (width, a) :: reads => (m.observe a (readRequest width)).seen reads

theorem seen_append (m : AddressSpace) (xs ys : List (Width × Word)) :
    m.seen (xs ++ ys) = (m.seen xs).seen ys := by
  induction xs generalizing m with
  | nil => rfl
  | cons x xs ih => exact ih _

/-- Reads change nothing but what has been seen. -/
theorem agrees_seen (m : AddressSpace) (reads : List (Width × Word)) : m.Agrees (m.seen reads) := by
  induction reads generalizing m with
  | nil => exact Agrees.refl m
  | cons x reads ih => exact (agrees_observe m _ _).trans (ih _)

/-- An address that is mapped nowhere gives no byte and no word. -/
theorem peek_of_not_isMapped {m : AddressSpace} {a : Word} (h : m.isMapped a = false) :
    m.peek8 a = .error (.unmapped a) ∧ m.peek16 a = .error (.unmapped a) := by
  rw [isMapped_eq, Option.isSome_eq_false_iff, Option.isNone_iff_eq_none] at h
  rw [peek8, peek16, h]
  exact ⟨rfl, rfl⟩

/-- An address that is mapped gives a byte, and a word. -/
theorem exists_peek_of_isMapped {m : AddressSpace} {a : Word} (h : m.isMapped a = true) :
    (∃ b, m.peek8 a = .ok b) ∧ ∃ w, m.peek16 a = .ok w := by
  rw [isMapped_eq, Option.isSome_iff_exists] at h
  obtain ⟨r, hr⟩ := h
  rw [peek8, peek16, hr]
  exact ⟨⟨_, rfl⟩, _, rfl⟩

end AddressSpace

/-! ## The outcomes of a request -/

namespace MemoryAction

variable (m : AddressSpace) (a : Word)

theorem read8_cases :
    (∃ b, m.peek8 a = .ok b ∧ read8 a m = .ok b (m.observe a .get8)) ∨
      (m.isMapped a = false ∧ read8 a m = .error (.unmapped a) m) := by
  cases h : m.isMapped a with
  | true =>
    obtain ⟨⟨b, hb⟩, -⟩ := AddressSpace.exists_peek_of_isMapped h
    exact .inl ⟨b, hb, read8_of_ok hb⟩
  | false => exact .inr ⟨rfl, read8_of_error (AddressSpace.peek_of_not_isMapped h).1⟩

theorem read16_cases :
    (∃ w, m.peek16 a = .ok w ∧ read16 a m = .ok w (m.observe a .get16)) ∨
      (m.isMapped a = false ∧ read16 a m = .error (.unmapped a) m) := by
  cases h : m.isMapped a with
  | true =>
    obtain ⟨-, w, hw⟩ := AddressSpace.exists_peek_of_isMapped h
    exact .inl ⟨w, hw, read16_of_ok hw⟩
  | false => exact .inr ⟨rfl, read16_of_error (AddressSpace.peek_of_not_isMapped h).2⟩

theorem write8_cases (v : Byte) :
    (m.isMapped a = true ∧ write8 a v m = .ok () ((m.observe a (.set8 · v)).poke8 a v)) ∨
      (m.isMapped a = false ∧ write8 a v m = .error (.unmapped a) m) := by
  cases h : m.isMapped a with
  | true => exact .inl ⟨rfl, write8_of_isMapped h v⟩
  | false => exact .inr ⟨rfl, write8_of_not_isMapped h v⟩

theorem write16_cases (v : Word) :
    (m.isMapped a = true ∧ write16 a v m = .ok () ((m.observe a (.set16 · v)).poke16 a v)) ∨
      (m.isMapped a = false ∧ write16 a v m = .error (.unmapped a) m) := by
  cases h : m.isMapped a with
  | true => exact .inl ⟨rfl, write16_of_isMapped h v⟩
  | false => exact .inr ⟨rfl, write16_of_not_isMapped h v⟩

end MemoryAction
end WordMachine
