import WordMachine.Proofs.Memory.Request

/-!
# What a store changes

A store changes bytes, and bytes only.  Which ones is a matter of three things that are
applied one after the other: which region wins at the address, which bank of its device is
visible, and which cell of the bank the address falls on; the second byte of a word falls on
the cell of the next address, as the device counts.  All else stays: which regions there
are, where they lie, which devices stand behind them, and how large these are.

* `Device.cell?`: the contents of a device, byte by byte.
* `Device.erased`, `Region.erased`: what is left when the contents are forgotten.
* `AddressSpace.ChangesOnly`: at most the bytes that certain writes address are different.
* `changesOnly_poke8`, `changesOnly_poke16`, `ChangesOnly.trans`: one store, and several.
* `ChangesOnly.regions_eq`: where nothing is written, nothing changes.
-/

namespace WordMachine

/-! ## Cells and devices -/

namespace Cells

/-- The cells with all their bytes forgotten. -/
def erased (c : Cells) : Cells := c.map fun _ => 0

/-- The index is one that an access of the given width at the given address falls on. -/
def Addresses (c : Cells) (a : Word) (i : Nat) : Width → Prop
  | .byte => i = c.index a
  | .word => i = c.index a ∨ i = c.index (a + 1)

@[simp] theorem size_erased (c : Cells) : c.erased.size = c.size := Array.size_map

theorem size_eq_of_erased {c d : Cells} (h : d.erased = c.erased) : d.size = c.size := by
  rw [← size_erased d, h, size_erased]

@[simp] theorem erased_set8 (c : Cells) (a : Word) (v : Byte) : (c.set8 a v).erased = c.erased := by
  apply Array.ext
  · rw [size_erased, size_erased, size_set8]
  · intro i h h'
    simp only [erased, Array.getElem_map]

@[simp] theorem erased_set16 (c : Cells) (a v : Word) : (c.set16 a v).erased = c.erased := by
  rw [set16, erased_set8, erased_set8]

/-- Where an access falls depends on the number of cells only. -/
theorem addresses_congr {c d : Cells} (h : d.erased = c.erased) (a : Word) (i : Nat)
    (width : Width) : d.Addresses a i width ↔ c.Addresses a i width := by
  have hindex (b : Word) : d.index b = c.index b := by
    rw [index, index, size_eq_of_erased h]
  cases width with
  | byte => rw [Addresses, Addresses, hindex]
  | word => rw [Addresses, Addresses, hindex, hindex]

/-- A byte that is stored changes the cell it falls on. -/
theorem addresses_of_set8 {cells : Cells} {a : Word} {v : Byte} {i : Nat}
    (h : (cells.set8 a v)[i]? ≠ cells[i]?) : cells.Addresses a i .byte := by
  by_cases hi : i = cells.index a
  · exact hi
  · rw [set8, Array.getElem?_setIfInBounds, if_neg (Ne.symm hi)] at h
    exact absurd rfl h

/-- A word that is stored changes the two cells it falls on. -/
theorem addresses_of_set16 {cells : Cells} {a v : Word} {i : Nat}
    (h : (cells.set16 a v)[i]? ≠ cells[i]?) : cells.Addresses a i .word := by
  by_cases hlow : ((cells.set8 a (Word.high v)).set8 (a + 1) (Word.low v))[i]? =
      (cells.set8 a (Word.high v))[i]?
  · rw [set16, hlow] at h
    exact Or.inl (addresses_of_set8 h)
  · exact Or.inr ((addresses_congr (erased_set8 cells a _) (a + 1) i .byte).mp
      (addresses_of_set8 hlow))

end Cells

/-- Some write of the given width at the given address changes the byte in the given cell,
whatever else is stored. -/
def HostDevice.Reaches (d : HostDevice) (select : String → Nat) (a : Word) (bank i : Nat) :
    Width → Prop
  | .byte => ∃ store v, (d.set8 select a v store)[bank]?.bind (·[i]?) ≠ store[bank]?.bind (·[i]?)
  | .word => ∃ store v, (d.set16 select a v store)[bank]?.bind (·[i]?) ≠ store[bank]?.bind (·[i]?)

namespace Device

/-- The byte in a cell of a device, by the number of its bank and its index there.  A RAM or a
ROM is a single bank. -/
def cell? (bank i : Nat) : Device → Option Byte
  | .ram cells | .rom cells => if bank = 0 then cells[i]? else none
  | .bank banks _ | .hosted _ banks => banks[bank]?.bind (·[i]?)

/-- The device with all its bytes forgotten, and of a device of the host's also how many there
are in a stretch. -/
def erased : Device → Device
  | .ram cells => .ram cells.erased
  | .rom cells => .rom cells.erased
  | .bank banks selector => .bank (banks.map Cells.erased) selector
  | .hosted device store => .hosted device (Array.replicate store.size #[])

/-- The cell is one that a write of the given width at the given device address can change:
in the bank that is visible, one that the address falls on.  Writes to a ROM change no cell,
and writes to a device of the host's what the host has seen fit. -/
def Addresses (panel : Panel) (width : Width) (a : Word) (bank i : Nat) : Device → Prop
  | .ram cells => bank = 0 ∧ cells.Addresses a i width
  | .rom _ => False
  | .bank banks selector =>
    bank = bankIndex panel banks selector ∧ (visible panel banks selector).Addresses a i width
  | .hosted device _ => device.Reaches panel.current a bank i width

/-- Stretches of bytes are as many as there are, and their bytes. -/
theorem eq_of_size_of_cell {banks banks' : Array Cells} (hsize : banks'.size = banks.size)
    (hcell : ∀ bank i : Nat, banks'[bank]?.bind (·[i]?) = banks[bank]?.bind (·[i]?)) :
    banks' = banks := by
  refine Array.ext hsize fun bank hb' hb => Array.ext_getElem? fun i => ?_
  simpa [hb, hb'] using hcell bank i

/-- A device is what is left of it without its bytes, and its bytes. -/
theorem eq_of_erased_of_cell? {d d' : Device} (h : d'.erased = d.erased)
    (hcell : ∀ bank i, d'.cell? bank i = d.cell? bank i) : d' = d := by
  cases d <;> cases d' <;> simp only [erased, reduceCtorEq] at h
  case ram.ram c c' | rom.rom c c' =>
    have hc : c' = c := Array.ext_getElem? fun i => by simpa [cell?] using hcell 0 i
    rw [hc]
  case bank.bank banks selector banks' selector' =>
    rw [bank.injEq] at h
    have hsize : banks'.size = banks.size := by simpa using congrArg Array.size h.1
    rw [eq_of_size_of_cell hsize hcell, h.2]
  case hosted.hosted device store device' store' =>
    rw [hosted.injEq] at h
    have hsize : store'.size = store.size := by simpa using congrArg Array.size h.2
    rw [eq_of_size_of_cell hsize hcell, h.1]

/-- Forgetting the bytes of one bank is forgetting what was stored there. -/
theorem map_erased_modify (banks : Array Cells) (bank : Nat) {f : Cells → Cells}
    (hf : ∀ c, (f c).erased = c.erased) :
    (banks.modify bank f).map Cells.erased = banks.map Cells.erased := by
  apply Array.ext
  · rw [Array.size_map, Array.size_map, Array.size_modify]
  · intro i h h'
    rw [Array.getElem_map, Array.getElem_map, Array.getElem_modify]
    split
    · exact hf _
    · rfl

@[simp] theorem erased_set8 (panel : Panel) (a : Word) (v : Byte) (d : Device) :
    (d.set8 panel a v).erased = d.erased := by
  cases d with
  | ram cells => exact congrArg ram (Cells.erased_set8 cells a v)
  | bank banks selector =>
    exact congrArg (bank · selector)
      (map_erased_modify banks _ fun cells => Cells.erased_set8 cells a v)
  | rom => rfl
  | hosted device store => rw [set8, erased, erased, device.size_set8]

@[simp] theorem erased_set16 (panel : Panel) (a v : Word) (d : Device) :
    (d.set16 panel a v).erased = d.erased := by
  cases d with
  | ram cells => exact congrArg ram (Cells.erased_set16 cells a v)
  | bank banks selector =>
    exact congrArg (bank · selector)
      (map_erased_modify banks _ fun cells => Cells.erased_set16 cells a v)
  | rom => rfl
  | hosted device store => rw [set16, erased, erased, device.size_set16]

/-- What is different in a device of a single bank is in that bank. -/
theorem of_single_ne {bank : Nat} {x y : Option Byte}
    (h : (if bank = 0 then x else none) ≠ if bank = 0 then y else none) : bank = 0 ∧ x ≠ y := by
  by_cases hbank : bank = 0
  · rw [if_pos hbank, if_pos hbank] at h
    exact ⟨hbank, h⟩
  · rw [if_neg hbank, if_neg hbank] at h
    exact absurd rfl h

/-- What a change of one bank changes is in that bank. -/
theorem of_cell?_modify {banks : Array Cells} {selector : String} {target bank i : Nat}
    {f : Cells → Cells}
    (h : (Device.bank (banks.modify target f) selector).cell? bank i ≠
      (Device.bank banks selector).cell? bank i) :
    bank = target ∧ (f (banks.getD target #[]))[i]? ≠ (banks.getD target #[])[i]? := by
  rw [cell?, cell?, Array.getElem?_modify] at h
  by_cases hbank : target = bank
  · subst hbank
    rw [if_pos rfl] at h
    refine ⟨rfl, ?_⟩
    cases hb : banks[target]? with
    | none => exact absurd (by rw [hb]; rfl) h
    | some cells =>
      rw [hb] at h
      rw [Array.getD_eq_getD_getElem?, hb]
      exact h
  · rw [if_neg hbank] at h
    exact absurd rfl h

theorem addresses_of_set8 {panel : Panel} {a : Word} {v : Byte} {d : Device} {bank i : Nat}
    (h : (d.set8 panel a v).cell? bank i ≠ d.cell? bank i) :
    d.Addresses panel .byte a bank i := by
  cases d with
  | ram cells =>
    obtain ⟨hbank, hcell⟩ := of_single_ne h
    exact ⟨hbank, Cells.addresses_of_set8 hcell⟩
  | rom => exact absurd rfl h
  | bank banks selector =>
    obtain ⟨hbank, hcell⟩ := of_cell?_modify h
    exact ⟨hbank, Cells.addresses_of_set8 hcell⟩
  | hosted device store => exact ⟨store, v, h⟩

theorem addresses_of_set16 {panel : Panel} {a v : Word} {d : Device} {bank i : Nat}
    (h : (d.set16 panel a v).cell? bank i ≠ d.cell? bank i) :
    d.Addresses panel .word a bank i := by
  cases d with
  | ram cells =>
    obtain ⟨hbank, hcell⟩ := of_single_ne h
    exact ⟨hbank, Cells.addresses_of_set16 hcell⟩
  | rom => exact absurd rfl h
  | bank banks selector =>
    obtain ⟨hbank, hcell⟩ := of_cell?_modify h
    exact ⟨hbank, Cells.addresses_of_set16 hcell⟩
  | hosted device store => exact ⟨store, v, h⟩

/-- Which cells a write addresses does not depend on the bytes of the device. -/
theorem addresses_congr {p q : Panel} (hp : ∀ s, q.current s = p.current s) {d d' : Device}
    (h : d'.erased = d.erased) (width : Width) (a : Word) (bank i : Nat) :
    d'.Addresses q width a bank i ↔ d.Addresses p width a bank i := by
  cases d <;> cases d' <;> simp only [erased, reduceCtorEq] at h
  case ram.ram c c' =>
    rw [Addresses, Addresses, Cells.addresses_congr (ram.inj h)]
  case rom.rom => exact Iff.rfl
  case hosted.hosted device c device' c' =>
    rw [hosted.injEq] at h
    rw [Addresses, Addresses, h.1, funext hp]
  case bank.bank banks selector banks' selector' =>
    rw [Device.bank.injEq] at h
    obtain ⟨hbanks, rfl⟩ := h
    have hsize : banks'.size = banks.size := by simpa using congrArg Array.size hbanks
    have hindex : bankIndex q banks' selector' = bankIndex p banks selector' := by
      rw [bankIndex_congr hp, bankIndex, bankIndex, hsize]
    have hvisible : (visible q banks' selector').erased = (visible p banks selector').erased := by
      have hget (bs : Array Cells) (k : Nat) :
          (bs.getD k #[]).erased = (bs.map Cells.erased).getD k #[] := by
        rw [Array.getD_eq_getD_getElem?, Array.getD_eq_getD_getElem?, Array.getElem?_map]
        cases bs[k]? with
        | none => exact Array.map_empty
        | some cells => rfl
      rw [visible, visible, hindex, hget, hget, hbanks]
    rw [Addresses, Addresses, hindex, Cells.addresses_congr hvisible]

end Device

/-! ## Regions -/

namespace Region

/-- The region with the bytes of its device forgotten. -/
def erased (r : Region) : Region := { r with device := r.device.erased }

@[simp] theorem erased_set8 (panel : Panel) (a : Word) (v : Byte) (r : Region) :
    (r.set8 panel a v).erased = r.erased := by
  simp only [erased, set8, Device.erased_set8]

@[simp] theorem erased_set16 (panel : Panel) (a v : Word) (r : Region) :
    (r.set16 panel a v).erased = r.erased := by
  simp only [erased, set16, Device.erased_set16]

/-- Regions that differ in their bytes only lie in the same place. -/
theorem congr_of_erased {r r' : Region} (h : r'.erased = r.erased) (a : Word) :
    r'.contains a = r.contains a ∧ r'.deviceAddress a = r.deviceAddress a ∧
      r'.device.erased = r.device.erased := by
  obtain ⟨handle, start, stop, remap, device⟩ := r
  obtain ⟨handle', start', stop', remap', device'⟩ := r'
  simp only [erased, mk.injEq] at h
  obtain ⟨rfl, rfl, rfl, rfl, hdevice⟩ := h
  exact ⟨rfl, rfl, hdevice⟩

end Region

/-- Changing the first element with a property changes one element at most. -/
theorem getElem?_modifyFirst {α : Type} (p : α → Bool) (f : α → α) (l : List α) (i : Nat) :
    (modifyFirst p f l)[i]? = if l.findIdx? p = some i then l[i]?.map f else l[i]? := by
  induction l generalizing i with
  | nil => rfl
  | cons x l ih =>
    rw [modifyFirst, List.findIdx?_cons]
    cases hx : p x with
    | true =>
      cases i with
      | zero => rfl
      | succ i => rfl
    | false =>
      cases i with
      | zero => simp
      | succ i => simpa using ih i

theorem map_modifyFirst {α β : Type} (p : α → Bool) {f : α → α} {g : α → β}
    (h : ∀ x, g (f x) = g x) (l : List α) : (modifyFirst p f l).map g = l.map g := by
  induction l with
  | nil => rfl
  | cons x l ih =>
    rw [modifyFirst]
    split
    · rw [List.map_cons, List.map_cons, h]
    · rw [List.map_cons, List.map_cons, ih]

/-! ## Address spaces -/

namespace AddressSpace

/-- The place in the stack of regions of the region that wins at an address. -/
def winner? (m : AddressSpace) (a : Word) : Option Nat := m.regions.findIdx? (·.contains a)

/-- The region at an address is the one with the number of the winner. -/
theorem region?_eq (m : AddressSpace) (a : Word) :
    m.region? a = (m.winner? a).bind (m.regions[·]?) := by
  rw [region?, winner?]
  induction m.regions with
  | nil => rfl
  | cons r regions ih =>
    rw [List.find?_cons, List.findIdx?_cons]
    cases r.contains a with
    | true => rfl
    | false =>
      rw [ih]
      cases regions.findIdx? (·.contains a) <;> rfl

theorem exists_winner? {m : AddressSpace} {a : Word} {r : Region} (h : m.region? a = some r) :
    ∃ i, m.winner? a = some i ∧ m.regions[i]? = some r := by
  rw [region?_eq] at h
  exact Option.bind_eq_some_iff.mp h

/-- The spaces differ at most in what the panel has seen and in bytes that writes of the given
widths at the given addresses address: each write, in the region that wins at its address. -/
structure ChangesOnly (m : AddressSpace) (writes : List (Width × Word)) (m' : AddressSpace) :
    Prop where
  /-- The same regions lie in the same places, with the same devices behind them. -/
  outline : m'.regions.map Region.erased = m.regions.map Region.erased
  nextHandle : m'.nextHandle = m.nextHandle
  selection : ∀ s, m'.panel.current s = m.panel.current s
  cells : ∀ i r r', m.regions[i]? = some r → m'.regions[i]? = some r' →
    ∀ bank k, r'.device.cell? bank k ≠ r.device.cell? bank k →
      ∃ w ∈ writes, m.winner? w.2 = some i ∧
        r.device.Addresses m.panel w.1 (r.deviceAddress w.2) bank k

/-- The regions of two spaces of one outline are the same but for their bytes. -/
theorem exists_of_outline {m m' : AddressSpace}
    (h : m'.regions.map Region.erased = m.regions.map Region.erased) {i : Nat} {r : Region}
    (hr : m.regions[i]? = some r) : ∃ r', m'.regions[i]? = some r' ∧ r'.erased = r.erased := by
  have hi : (m'.regions.map Region.erased)[i]? = some r.erased := by
    rw [h, List.getElem?_map, hr]
    rfl
  rwa [List.getElem?_map, Option.map_eq_some_iff] at hi

/-- Spaces of one outline have the same winners. -/
theorem winner?_of_outline {m m' : AddressSpace}
    (h : m'.regions.map Region.erased = m.regions.map Region.erased) (a : Word) :
    m'.winner? a = m.winner? a := by
  have herased (l : List Region) :
      l.findIdx? (·.contains a) = (l.map Region.erased).findIdx? (·.contains a) := by
    rw [List.findIdx?_map]
    rfl
  rw [winner?, winner?, herased m'.regions, h, ← herased]

theorem isMapped_of_outline {m m' : AddressSpace}
    (h : m'.regions.map Region.erased = m.regions.map Region.erased) (a : Word) :
    m'.isMapped a = m.isMapped a := by
  have herased (l : List Region) :
      l.any (·.contains a) = (l.map Region.erased).any (·.contains a) := by
    rw [List.any_map]
    rfl
  rw [isMapped, isMapped, herased m'.regions, h, ← herased]

theorem Agrees.changesOnly {m m' : AddressSpace} (h : m.Agrees m') : m.ChangesOnly [] m' := by
  refine ⟨by rw [h.regions], h.nextHandle, h.selection, ?_⟩
  intro i r r' hr hr' bank k hne
  rw [h.regions, hr] at hr'
  obtain rfl := Option.some.inj hr'
  exact absurd rfl hne

theorem ChangesOnly.isMapped {m m' : AddressSpace} {writes : List (Width × Word)}
    (h : m.ChangesOnly writes m') (a : Word) : m'.isMapped a = m.isMapped a :=
  isMapped_of_outline h.outline a

/-- A change by some writes is a change by these and others. -/
theorem ChangesOnly.mono {m m' : AddressSpace} {xs ys : List (Width × Word)}
    (h : m.ChangesOnly xs m') (hsub : xs ⊆ ys) : m.ChangesOnly ys m' := by
  refine ⟨h.outline, h.nextHandle, h.selection, ?_⟩
  intro i r r' hr hr' bank k hne
  obtain ⟨w, hw, haddr⟩ := h.cells i r r' hr hr' bank k hne
  exact ⟨w, hsub hw, haddr⟩

/-- One change after another changes what either of them changes. -/
theorem ChangesOnly.trans {m m' m'' : AddressSpace} {xs ys : List (Width × Word)}
    (h : m.ChangesOnly xs m') (h' : m'.ChangesOnly ys m'') : m.ChangesOnly (xs ++ ys) m'' := by
  refine ⟨h'.outline.trans h.outline, h'.nextHandle.trans h.nextHandle,
    fun s => (h'.selection s).trans (h.selection s), ?_⟩
  intro i r r'' hr hr'' bank k hne
  obtain ⟨r', hr', herased⟩ := exists_of_outline h.outline hr
  by_cases hfirst : r'.device.cell? bank k = r.device.cell? bank k
  · rw [← hfirst] at hne
    obtain ⟨w, hw, hwin, haddr⟩ := h'.cells i r' r'' hr' hr'' bank k hne
    obtain ⟨-, haddress, hdevice⟩ := Region.congr_of_erased herased w.2
    rw [winner?_of_outline h.outline] at hwin
    rw [haddress, Device.addresses_congr h.selection hdevice] at haddr
    exact ⟨w, List.mem_append_right xs hw, hwin, haddr⟩
  · obtain ⟨w, hw, hwin, haddr⟩ := h.cells i r r' hr hr' bank k hfirst
    exact ⟨w, List.mem_append_left ys hw, hwin, haddr⟩

/-- Requests that are only seen add nothing to a change. -/
theorem ChangesOnly.trans_agrees {m m' m'' : AddressSpace} {writes : List (Width × Word)}
    (h : m.ChangesOnly writes m') (h' : m'.Agrees m'') : m.ChangesOnly writes m'' := by
  have hboth := h.trans h'.changesOnly
  rwa [List.append_nil] at hboth

/-- A change of the region that wins at an address, by a write that changes no cell but those
it addresses. -/
theorem changesOnly_of_modifyFirst {m : AddressSpace} {width : Width} {a : Word}
    {f : Region → Region} (hf : ∀ r, (f r).erased = r.erased)
    (hcell : ∀ r bank k, (f r).device.cell? bank k ≠ r.device.cell? bank k →
      r.device.Addresses m.panel width (r.deviceAddress a) bank k) :
    m.ChangesOnly [(width, a)] { m with regions := modifyFirst (·.contains a) f m.regions } := by
  refine ⟨map_modifyFirst _ hf _, rfl, fun _ => rfl, ?_⟩
  intro i r r' hr hr' bank k hne
  change (modifyFirst (·.contains a) f m.regions)[i]? = some r' at hr'
  rw [getElem?_modifyFirst, hr] at hr'
  by_cases hwin : m.regions.findIdx? (·.contains a) = some i
  · rw [if_pos hwin] at hr'
    obtain rfl : f r = r' := Option.some.inj hr'
    exact ⟨(width, a), List.mem_singleton_self _, hwin, hcell r bank k hne⟩
  · rw [if_neg hwin] at hr'
    obtain rfl : r = r' := Option.some.inj hr'
    exact absurd rfl hne

theorem changesOnly_poke8 (m : AddressSpace) (a : Word) (v : Byte) :
    m.ChangesOnly [(.byte, a)] (m.poke8 a v) :=
  changesOnly_of_modifyFirst (Region.erased_set8 m.panel a v)
    fun _ _ _ => Device.addresses_of_set8

theorem changesOnly_poke16 (m : AddressSpace) (a v : Word) :
    m.ChangesOnly [(.word, a)] (m.poke16 a v) :=
  changesOnly_of_modifyFirst (Region.erased_set16 m.panel a v)
    fun _ _ _ => Device.addresses_of_set16

/-- A region none of whose cells is addressed by a write that it wins stays as it is. -/
theorem ChangesOnly.region_eq {m m' : AddressSpace} {writes : List (Width × Word)}
    (h : m.ChangesOnly writes m') {i : Nat} {r : Region} (hr : m.regions[i]? = some r)
    (haway : ∀ w ∈ writes, m.winner? w.2 = some i → ∀ bank k,
      ¬ r.device.Addresses m.panel w.1 (r.deviceAddress w.2) bank k) :
    m'.regions[i]? = some r := by
  obtain ⟨r', hr', herased⟩ := exists_of_outline h.outline hr
  have hcell (bank k : Nat) : r'.device.cell? bank k = r.device.cell? bank k := by
    refine Decidable.byContradiction fun hne => ?_
    obtain ⟨w, hw, hwin, haddr⟩ := h.cells i r r' hr hr' bank k hne
    exact haway w hw hwin bank k haddr
  rw [hr']
  obtain ⟨handle, start, stop, remap, device⟩ := r
  obtain ⟨handle', start', stop', remap', device'⟩ := r'
  simp only [Region.erased, Region.mk.injEq] at herased
  obtain ⟨rfl, rfl, rfl, rfl, hdevice⟩ := herased
  rw [Device.eq_of_erased_of_cell? hdevice hcell]

/-- Where nothing is written, the regions and all their bytes stay as they are. -/
theorem ChangesOnly.regions_eq {m m' : AddressSpace} (h : m.ChangesOnly [] m') :
    m'.regions = m.regions := by
  apply List.ext_getElem?
  intro i
  cases hr : m.regions[i]? with
  | none =>
    have hlen : m'.regions.length = m.regions.length := by
      simpa using congrArg List.length h.outline
    rw [List.getElem?_eq_none_iff] at hr ⊢
    rwa [hlen]
  | some r => exact h.region_eq hr fun w hw => absurd hw List.not_mem_nil

end AddressSpace
end WordMachine
