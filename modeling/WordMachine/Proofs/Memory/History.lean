import Mathlib.Data.List.Induction
import WordMachine.Proofs.Memory.Request

/-!
# Where an address leads after any history of mappings

The regions of an address space are what is left of a history: each call maps a device in front
of all others or takes a region away from wherever it stands.  Which device an address leads to
can be read off the history itself.  A mapping is *live* if no later call has taken it away, and
of the live mappings that cover an address the one mapped last wins.

Mappings are told apart by their handles.  A handle is the number of the map calls before the one
that answered it, so a larger handle is a later mapping, and "mapped last" needs no positions: the
winner is the live mapping with the largest handle.  The regions stand in the order of their
handles, the largest first, and therefore the first region that contains the address is the
winner's.

The last result compares two histories, one with a mapping that is taken away again, and one
without either call.  The calls that come after name their regions by smaller numbers in the
second history, since one map call less has been made (`MapCall.recount`).  Apart from these
numbers, the two histories leave the same regions behind.

* `Live`, `Wins`: what a history says about its mappings, and about an address.
* `mem_regions_after`, `ordered_after`: the regions are the live mappings, the last one first.
* `AddressSpace.Serves`, `AddressSpace.Refuses`: what becomes of the requests at an address.
* `forgets_unmapped`: a mapping that is taken away leaves no trace.
* `routing_follows_live_mappings`: all of this for a history.
-/

namespace WordMachine

/-- What a host asks for when it maps a device. -/
structure Mapping where
  device : Device
  start : Word
  size : Nat
  remap : Bool

namespace Mapping

/-- The address lies in the range of the mapping, which ends at the end of the address space. -/
def Covers (x : Mapping) (a : Word) : Prop :=
  x.start.toNat ≤ a.toNat ∧ a.toNat < min (x.start.toNat + x.size) addressCount

instance (x : Mapping) (a : Word) : Decidable (x.Covers a) :=
  inferInstanceAs (Decidable (_ ∧ _))

/-- The address as the device sees it. -/
def deviceAddress (x : Mapping) (a : Word) : Word := if x.remap then a - x.start else a

/-- The region that comes of the mapping. -/
def region (x : Mapping) (handle : Nat) : Region :=
  { handle, start := x.start, stop := min (x.start.toNat + x.size) addressCount, remap := x.remap,
    device := x.device }

theorem contains_region {x : Mapping} {handle : Nat} {a : Word} :
    (x.region handle).contains a = true ↔ x.Covers a :=
  Region.contains_iff

end Mapping

/-- A call that changes what is mapped. -/
inductive MapCall where
  | map (x : Mapping)
  | unmap (handle : Nat)

namespace MapCall

/-- The address space after the call. -/
def apply (m : AddressSpace) : MapCall → AddressSpace
  | .map x => (m.map x.device x.start x.size x.remap).2
  | .unmap handle => (m.unmap handle).2

/-- Whether a device is mapped by the call. -/
def isMap : MapCall → Bool
  | .map _ => true
  | .unmap _ => false

end MapCall

/-- The number of devices that a history maps, which is the handle of the next one. -/
def mapCount (calls : List MapCall) : Nat := calls.countP MapCall.isMap

/-- The address space after a history of calls, in the presence of a panel. -/
def AddressSpace.after (panel : Panel) (calls : List MapCall) : AddressSpace :=
  calls.foldl MapCall.apply ⟨[], 0, panel⟩

/-! ## Live mappings -/

/-- The mapping was made in the history, by the call that answered the handle, and no later call
has taken it away. -/
def Live (calls : List MapCall) (handle : Nat) (x : Mapping) : Prop :=
  ∃ older newer, calls = older ++ .map x :: newer ∧ mapCount older = handle ∧
    .unmap handle ∉ newer

/-- Of the live mappings that cover the address, this is the one that was made last. -/
def Wins (calls : List MapCall) (a : Word) (handle : Nat) (x : Mapping) : Prop :=
  Live calls handle x ∧ x.Covers a ∧ ∀ handle' x', Live calls handle' x' → x'.Covers a →
    handle' ≤ handle

theorem not_live_nil (handle : Nat) (x : Mapping) : ¬ Live [] handle x := by
  rintro ⟨older, newer, h, -⟩
  exact List.append_ne_nil_of_right_ne_nil older (List.cons_ne_nil _ newer) h.symm

theorem mapCount_append (calls more : List MapCall) :
    mapCount (calls ++ more) = mapCount calls + mapCount more :=
  List.countP_append

/-- What one more call changes: it takes a mapping away, or it adds one. -/
theorem live_append_singleton {calls : List MapCall} {c : MapCall} {handle : Nat} {x : Mapping} :
    Live (calls ++ [c]) handle x ↔
      Live calls handle x ∧ c ≠ .unmap handle ∨ c = .map x ∧ mapCount calls = handle := by
  constructor
  · rintro ⟨older, newer, h, hcount, hnewer⟩
    rcases newer.eq_nil_or_concat with rfl | ⟨newer, last, rfl⟩
    · obtain ⟨rfl, hlast⟩ := List.append_inj' h rfl
      exact .inr ⟨(List.cons_eq_cons.mp hlast).1, hcount⟩
    · rw [List.concat_eq_append, ← List.cons_append, ← List.append_assoc] at h
      obtain ⟨hcalls, hlast⟩ := List.append_inj' h rfl
      obtain rfl := (List.cons_eq_cons.mp hlast).1
      rw [List.concat_eq_append, List.mem_append, List.mem_singleton, not_or] at hnewer
      exact .inl ⟨⟨older, newer, hcalls, hcount, hnewer.1⟩, Ne.symm hnewer.2⟩
  · rintro (⟨⟨older, newer, rfl, hcount, hnewer⟩, hc⟩ | ⟨rfl, hcount⟩)
    · refine ⟨older, newer ++ [c], by simp, hcount, ?_⟩
      rw [List.mem_append, List.mem_singleton, not_or]
      exact ⟨hnewer, Ne.symm hc⟩
    · exact ⟨calls, [], rfl, hcount, List.not_mem_nil⟩

/-- A mapping that has been taken away does not come back: its handle is not answered again. -/
theorem not_live_append {calls : List MapCall} {handle : Nat} (hcount : handle < mapCount calls)
    (h : ∀ x, ¬ Live calls handle x) (more : List MapCall) (x : Mapping) :
    ¬ Live (calls ++ more) handle x := by
  induction more using List.reverseRecOn with
  | nil =>
    rw [List.append_nil]
    exact h x
  | append_singleton more c ih =>
    rw [← List.append_assoc, live_append_singleton]
    rintro (⟨hlive, -⟩ | ⟨-, heq⟩)
    · exact ih hlive
    · rw [mapCount_append] at heq
      omega

namespace AddressSpace

variable {panel : Panel} {calls : List MapCall}

theorem after_append (panel : Panel) (calls more : List MapCall) :
    after panel (calls ++ more) = more.foldl MapCall.apply (after panel calls) :=
  List.foldl_append

theorem after_append_singleton (panel : Panel) (calls : List MapCall) (c : MapCall) :
    after panel (calls ++ [c]) = c.apply (after panel calls) :=
  after_append panel calls [c]

@[simp] theorem panel_after (panel : Panel) (calls : List MapCall) :
    (after panel calls).panel = panel := by
  induction calls using List.reverseRecOn with
  | nil => rfl
  | append_singleton calls c ih =>
    rw [after_append_singleton]
    cases c <;> exact ih

/-- Handles are counted. -/
theorem nextHandle_after (panel : Panel) (calls : List MapCall) :
    (after panel calls).nextHandle = mapCount calls := by
  induction calls using List.reverseRecOn with
  | nil => rfl
  | append_singleton calls c ih =>
    rw [after_append_singleton, mapCount_append]
    cases c with
    | map x => exact congrArg (· + 1) ih
    | unmap handle => exact ih

/-! ## The order of the regions -/

/-- Later mappings stand in front of earlier ones, and the next one will stand in front of
all. -/
structure Ordered (m : AddressSpace) : Prop where
  descending : m.regions.Pairwise fun r s => s.handle < r.handle
  lt_next : ∀ r ∈ m.regions, r.handle < m.nextHandle

/-- Where handles differ, taking away the first region with a handle takes away all of them. -/
theorem eraseP_handle_eq_filter {rs : List Region}
    (h : rs.Pairwise fun r s => s.handle < r.handle) (handle : Nat) :
    rs.eraseP (·.handle == handle) = rs.filter (·.handle != handle) := by
  induction rs with
  | nil => rfl
  | cons r rs ih =>
    rw [List.pairwise_cons] at h
    by_cases hr : r.handle = handle
    · have hrest : rs.filter (·.handle != handle) = rs := by
        refine List.filter_eq_self.mpr fun s hs => ?_
        have := h.1 s hs
        rw [bne_iff_ne]
        omega
      rw [List.eraseP_cons_of_pos (by rw [hr, beq_self_eq_true]),
        List.filter_cons_of_neg (by simp [hr]), hrest]
    · rw [List.eraseP_cons_of_neg (by simpa using hr),
        List.filter_cons_of_pos (by simpa using hr), ih h.2]

theorem Ordered.regions_unmap {m : AddressSpace} (h : m.Ordered) (handle : Nat) :
    (m.unmap handle).2.regions = m.regions.filter (·.handle != handle) :=
  eraseP_handle_eq_filter h.descending handle

theorem Ordered.apply {m : AddressSpace} (h : m.Ordered) (c : MapCall) : (c.apply m).Ordered := by
  cases c with
  | map x =>
    refine ⟨List.pairwise_cons.mpr ⟨h.lt_next, h.descending⟩, fun r hr => ?_⟩
    rcases List.mem_cons.mp hr with rfl | hr
    · exact Nat.lt_succ_self _
    · exact Nat.lt_succ_of_lt (h.lt_next r hr)
  | unmap handle =>
    refine ⟨h.descending.sublist List.eraseP_sublist, fun r hr => ?_⟩
    exact h.lt_next r (List.mem_of_mem_eraseP hr)

theorem ordered_after (panel : Panel) (calls : List MapCall) : (after panel calls).Ordered := by
  induction calls using List.reverseRecOn with
  | nil => exact ⟨List.Pairwise.nil, nofun⟩
  | append_singleton calls c ih =>
    rw [after_append_singleton]
    exact ih.apply c

/-- The regions are the live mappings. -/
theorem mem_regions_after {r : Region} :
    r ∈ (after panel calls).regions ↔ ∃ x, Live calls r.handle x ∧ r = x.region r.handle := by
  induction calls using List.reverseRecOn with
  | nil => exact ⟨nofun, fun ⟨x, h, _⟩ => absurd h (not_live_nil _ x)⟩
  | append_singleton calls c ih =>
    rw [after_append_singleton]
    simp only [live_append_singleton]
    cases c with
    | map x =>
      have hnew : (after panel calls).map x.device x.start x.size x.remap =
          (mapCount calls, { after panel calls with
            regions := x.region (mapCount calls) :: (after panel calls).regions
            nextHandle := mapCount calls + 1 }) := by
        rw [map, nextHandle_after]
        rfl
      rw [MapCall.apply, hnew, List.mem_cons, ih]
      constructor
      · rintro (rfl | ⟨y, hy, hr⟩)
        · exact ⟨x, .inr ⟨rfl, rfl⟩, rfl⟩
        · exact ⟨y, .inl ⟨hy, MapCall.noConfusion⟩, hr⟩
      · rintro ⟨y, ⟨hy, -⟩ | ⟨hc, hcount⟩, hr⟩
        · exact .inr ⟨y, hy, hr⟩
        · obtain rfl := MapCall.map.inj hc
          rw [hr, ← hcount]
          exact .inl rfl
    | unmap handle =>
      rw [MapCall.apply, (ordered_after panel calls).regions_unmap, List.mem_filter, ih,
        bne_iff_ne]
      constructor
      · rintro ⟨⟨y, hy, hr⟩, hne⟩
        exact ⟨y, .inl ⟨hy, fun e => hne (MapCall.unmap.inj e).symm⟩, hr⟩
      · rintro ⟨y, ⟨hy, hne⟩ | ⟨hc, -⟩, hr⟩
        · exact ⟨⟨y, hy, hr⟩, fun e => hne (congrArg _ e.symm)⟩
        · exact nomatch hc

/-- A live mapping has its region. -/
theorem region_mem_after {handle : Nat} {x : Mapping} (h : Live calls handle x) :
    x.region handle ∈ (after panel calls).regions :=
  mem_regions_after.mpr ⟨x, h, rfl⟩

/-! ## The winner -/

/-- The winner's region is the one that the address leads to. -/
theorem region?_of_wins {a : Word} {handle : Nat} {x : Mapping} (h : Wins calls a handle x) :
    (after panel calls).region? a = some (x.region handle) := by
  obtain ⟨hlive, hcovers, hlast⟩ := h
  have hmem : x.region handle ∈ (after panel calls).regions := region_mem_after hlive
  obtain ⟨front, back, hregions⟩ := List.append_of_mem hmem
  refine List.find?_eq_some_iff_append.mpr
    ⟨Mapping.contains_region.mpr hcovers, front, back, hregions, fun r hr => ?_⟩
  -- what stands in front was mapped later, so it would win if it covered the address
  have hdescending := (ordered_after panel calls).descending
  rw [hregions, List.pairwise_append] at hdescending
  have hlt : handle < r.handle := hdescending.2.2 r hr _ List.mem_cons_self
  obtain ⟨y, hy, hr'⟩ := mem_regions_after.mp
    (hregions ▸ List.mem_append_left (x.region handle :: back) hr :
      r ∈ (after panel calls).regions)
  rw [Bool.not_eq_true']
  refine Bool.eq_false_iff.mpr fun hcontains => ?_
  rw [hr', Mapping.contains_region] at hcontains
  exact absurd (hlast _ _ hy hcontains) (Nat.not_le.mpr hlt)

/-- If the address leads anywhere, it leads to the region of a winner. -/
theorem exists_wins_of_region? {a : Word} {r : Region}
    (h : (after panel calls).region? a = some r) :
    ∃ x, Wins calls a r.handle x ∧ r = x.region r.handle := by
  obtain ⟨hcontains, front, back, hregions, hfront⟩ := List.find?_eq_some_iff_append.mp h
  obtain ⟨x, hlive, hr⟩ := mem_regions_after.mp
    (hregions ▸ List.mem_append_right front List.mem_cons_self :
      r ∈ (after panel calls).regions)
  rw [hr, Mapping.contains_region] at hcontains
  refine ⟨x, ⟨hlive, hcontains, fun handle' x' hlive' hcovers' => ?_⟩, hr⟩
  have hmem : x'.region handle' ∈ (after panel calls).regions := region_mem_after hlive'
  have hdescending := (ordered_after panel calls).descending
  rw [hregions, List.mem_append, List.mem_cons] at hmem
  rw [hregions, List.pairwise_append, List.pairwise_cons] at hdescending
  rcases hmem with hmem | hmem | hmem
  · have hnot := hfront _ hmem
    rw [Mapping.contains_region.mpr hcovers'] at hnot
    exact nomatch hnot
  · exact Nat.le_of_eq (congrArg Region.handle hmem)
  · exact Nat.le_of_lt (hdescending.2.1.1 _ hmem)

/-- Some live mapping wins the address, or none covers it. -/
theorem exists_wins_or_not_covers (calls : List MapCall) (a : Word) :
    (∃ handle x, Wins calls a handle x) ∨ ∀ handle x, Live calls handle x → ¬ x.Covers a := by
  cases h : (after .initial calls).region? a with
  | some r =>
    obtain ⟨x, hwins, -⟩ := exists_wins_of_region? h
    exact .inl ⟨_, x, hwins⟩
  | none =>
    refine .inr fun handle x hlive hcovers => ?_
    exact List.find?_eq_none.mp h _ (region_mem_after hlive) (Mapping.contains_region.mpr hcovers)

/-- A live mapping whose handle is another one than that taken away goes on winning. -/
theorem wins_append_unmap {a : Word} {handle handle' : Nat} {x : Mapping}
    (h : Wins calls a handle' x) (hne : handle' ≠ handle) :
    Wins (calls ++ [.unmap handle]) a handle' x := by
  obtain ⟨hlive, hcovers, hlast⟩ := h
  refine ⟨live_append_singleton.mpr (.inl ⟨hlive, fun e => hne (MapCall.unmap.inj e).symm⟩),
    hcovers, fun handle'' y hlive' hcovers' => ?_⟩
  rcases live_append_singleton.mp hlive' with ⟨hold, -⟩ | ⟨hc, -⟩
  · exact hlast _ _ hold hcovers'
  · exact nomatch hc

/-- Taking a region away does not change where an address leads that another region wins. -/
theorem region?_unmap {a : Word} {handle handle' : Nat} {x : Mapping}
    (h : Wins calls a handle' x) (hne : handle' ≠ handle) :
    ((after panel calls).unmap handle).2.region? a = (after panel calls).region? a := by
  have hunmap : (after panel (calls ++ [.unmap handle])).region? a = some (x.region handle') :=
    region?_of_wins (wins_append_unmap h hne)
  rw [after_append_singleton] at hunmap
  exact hunmap.trans (region?_of_wins h).symm

/-- Handles tell regions apart. -/
theorem Ordered.find?_handle {m : AddressSpace} (h : m.Ordered) {r : Region} (hr : r ∈ m.regions) :
    m.regions.find? (·.handle == r.handle) = some r := by
  obtain ⟨front, back, hregions⟩ := List.append_of_mem hr
  have hdescending := h.descending
  rw [hregions, List.pairwise_append] at hdescending
  refine List.find?_eq_some_iff_append.mpr ⟨beq_self_eq_true _, front, back, hregions, ?_⟩
  intro s hs
  rw [Bool.not_eq_true', beq_eq_false_iff_ne]
  exact Nat.ne_of_gt (hdescending.2.2 s hs r List.mem_cons_self)

/-- The device that comes back is that of the live mapping with the handle. -/
theorem unmap_eq_some_iff {handle : Nat} {d : Device} :
    ((after panel calls).unmap handle).1 = some d ↔
      ∃ x, Live calls handle x ∧ x.device = d := by
  rw [unmap, Option.map_eq_some_iff]
  constructor
  · rintro ⟨r, hr, rfl⟩
    obtain rfl : r.handle = handle := by simpa using List.find?_some hr
    obtain ⟨x, hlive, hx⟩ := mem_regions_after.mp (List.mem_of_find?_eq_some hr)
    exact ⟨x, hlive, congrArg Region.device hx.symm⟩
  · rintro ⟨x, hlive, rfl⟩
    exact ⟨x.region handle, (ordered_after panel calls).find?_handle (region_mem_after hlive), rfl⟩

/-! ## Requests -/

/-- Every request at the address is answered by the device, at its own address: a read by what
the device answers, a write by the device in its place becoming what the write makes of it. -/
def Serves (m : AddressSpace) (a : Word) (handle : Nat) (d : Device) (inner : Word) : Prop :=
  MemoryAction.read8 a m =
      .ok (d.get8 m.panel inner) { m with panel := d.observe (.get8 inner) m.panel } ∧
    MemoryAction.read16 a m =
      .ok (d.get16 m.panel inner) { m with panel := d.observe (.get16 inner) m.panel } ∧
    ∃ front r back, m.regions = front ++ r :: back ∧ r.handle = handle ∧ r.device = d ∧
      (∀ v, MemoryAction.write8 a v m = .ok ()
        { m with
          regions := front ++ { r with device := d.set8 m.panel inner v } :: back
          panel := d.observe (.set8 inner v) m.panel }) ∧
      ∀ v, MemoryAction.write16 a v m = .ok ()
        { m with
          regions := front ++ { r with device := d.set16 m.panel inner v } :: back
          panel := d.observe (.set16 inner v) m.panel }

/-- Every request at the address fails, names the address, and changes nothing. -/
def Refuses (m : AddressSpace) (a : Word) : Prop :=
  MemoryAction.read8 a m = .error (.unmapped a) m ∧
    MemoryAction.read16 a m = .error (.unmapped a) m ∧
    (∀ v, MemoryAction.write8 a v m = .error (.unmapped a) m) ∧
    ∀ v, MemoryAction.write16 a v m = .error (.unmapped a) m

/-- Where nothing in front satisfies the condition, the element behind is the one that changes. -/
theorem modifyFirst_append {α : Type} {p : α → Bool} (f : α → α) {front : List α} {x : α}
    (hfront : ∀ y ∈ front, p y = false) (hx : p x = true) (back : List α) :
    modifyFirst p f (front ++ x :: back) = front ++ f x :: back := by
  induction front with
  | nil => rw [List.nil_append, List.nil_append, modifyFirst, if_pos hx]
  | cons y front ih =>
    rw [List.forall_mem_cons] at hfront
    rw [List.cons_append, modifyFirst, hfront.1, if_neg Bool.false_ne_true, ih hfront.2,
      List.cons_append]

/-- An address that leads to a region is served by the device of that region. -/
theorem serves_of_region? {m : AddressSpace} {a : Word} {r : Region} (h : m.region? a = some r) :
    m.Serves a r.handle r.device (r.deviceAddress a) := by
  obtain ⟨hcontains, front, back, hregions, hfront⟩ := List.find?_eq_some_iff_append.mp h
  have hfront' : ∀ s ∈ front, s.contains a = false := fun s hs => by simpa using hfront s hs
  have hmapped : m.isMapped a = true := by
    rw [isMapped_eq, h]
    rfl
  have hobserve (request : Word → Access) : m.observe a request =
      { m with panel := r.device.observe (request (r.deviceAddress a)) m.panel } := by
    rw [observe, h]
  refine ⟨?_, ?_, front, r, back, hregions, rfl, rfl, fun v => ?_, fun v => ?_⟩
  · have hpeek : m.peek8 a = .ok (r.device.get8 m.panel (r.deviceAddress a)) := by
      rw [peek8, h]
    rw [MemoryAction.read8_of_ok hpeek, hobserve]
  · have hpeek : m.peek16 a = .ok (r.device.get16 m.panel (r.deviceAddress a)) := by
      rw [peek16, h]
    rw [MemoryAction.read16_of_ok hpeek, hobserve]
  · rw [MemoryAction.write8_of_isMapped hmapped, hobserve, poke8, hregions,
      modifyFirst_append _ hfront' hcontains, Region.set8]
    dsimp only
    rw [Device.set8_congr (Device.current_observe _ _ _)]
  · rw [MemoryAction.write16_of_isMapped hmapped, hobserve, poke16, hregions,
      modifyFirst_append _ hfront' hcontains, Region.set16]
    dsimp only
    rw [Device.set16_congr (Device.current_observe _ _ _)]

/-- An address that leads nowhere is refused. -/
theorem refuses_of_not_isMapped {m : AddressSpace} {a : Word} (h : m.isMapped a = false) :
    m.Refuses a :=
  ⟨MemoryAction.read8_of_error (peek_of_not_isMapped h).1,
    MemoryAction.read16_of_error (peek_of_not_isMapped h).2,
    MemoryAction.write8_of_not_isMapped h, MemoryAction.write16_of_not_isMapped h⟩

theorem serves_of_wins {a : Word} {handle : Nat} {x : Mapping} (h : Wins calls a handle x) :
    (after panel calls).Serves a handle x.device (x.deviceAddress a) :=
  serves_of_region? (region?_of_wins h)

theorem refuses_of_not_covers {a : Word} (h : ∀ handle x, Live calls handle x → ¬ x.Covers a) :
    (after panel calls).Refuses a := by
  refine refuses_of_not_isMapped ?_
  rw [isMapped, List.any_eq_false]
  intro r hr hcontains
  obtain ⟨x, hlive, hx⟩ := mem_regions_after.mp hr
  rw [hx, Mapping.contains_region] at hcontains
  exact h _ x hlive hcontains

end AddressSpace

/-! ## Histories without a mapping -/

/-- The region apart from its handle: its device, its range, and whether it is remapped. -/
def Region.unnamed (r : Region) : Region := { r with handle := 0 }

/-- The call in a history in which one map call less has been made: the one that answered `gone`.
Later regions have handles smaller by one.  The region of that call does not exist, and a call
that names it names no region at all; `nothing` is a handle that is never answered. -/
def MapCall.recount (gone nothing : Nat) : MapCall → MapCall
  | .map x => .map x
  | .unmap handle =>
    .unmap (if handle < gone then handle else if handle = gone then nothing else handle - 1)

namespace AddressSpace

/-- The region in a history in which the map call that answered `gone` has not been made. -/
def renamed (gone : Nat) (r : Region) : Region :=
  { r with handle := if r.handle < gone then r.handle else r.handle - 1 }

/-- Regions and calls are counted anew in the same way. -/
theorem recounted_eq_iff {gone nothing handle called : Nat} (hne : handle ≠ gone)
    (hlt : handle < nothing) :
    (if handle < gone then handle else handle - 1) =
        (if called < gone then called else if called = gone then nothing else called - 1) ↔
      handle = called := by
  split <;> split <;> try split
  all_goals omega

/-- The second space is the first without the region `gone`, which it may still have. -/
structure Without (gone : Nat) (m m' : AddressSpace) : Prop where
  regions : m'.regions = (m.regions.filter (·.handle != gone)).map (renamed gone)
  nextHandle : m.nextHandle = m'.nextHandle + 1
  le_next : gone ≤ m'.nextHandle

/-- Mapping a device is what begins the difference. -/
theorem without_map {m : AddressSpace} (h : m.Ordered) (x : Mapping) :
    Without m.nextHandle ((MapCall.map x).apply m) m := by
  refine ⟨?_, rfl, Nat.le_refl _⟩
  have hkept : m.regions.filter (·.handle != m.nextHandle) = m.regions := by
    refine List.filter_eq_self.mpr fun r hr => ?_
    rw [bne_iff_ne]
    exact Nat.ne_of_lt (h.lt_next r hr)
  have hnames : ∀ r ∈ m.regions, renamed m.nextHandle r = r := by
    intro r hr
    rw [renamed, if_pos (h.lt_next r hr)]
  show m.regions = ((x.region m.nextHandle :: m.regions).filter (·.handle != m.nextHandle)).map _
  rw [List.filter_cons_of_neg (by simp [Mapping.region]), hkept, List.map_congr_left hnames,
    List.map_id']

/-- Every other call does the same to both spaces. -/
theorem Without.apply {gone nothing : Nat} {m m' : AddressSpace} (h : Without gone m m')
    (hm : m.Ordered) (hm' : m'.Ordered) (hnothing : m.nextHandle ≤ nothing) (c : MapCall) :
    Without gone (c.apply m) ((c.recount gone nothing).apply m') := by
  have hnext := h.nextHandle
  have hle := h.le_next
  cases c with
  | map x =>
    refine ⟨?_, congrArg (· + 1) hnext, Nat.le_succ_of_le hle⟩
    have hne : m.nextHandle ≠ gone := by omega
    have hname : renamed gone (x.region m.nextHandle) = x.region m'.nextHandle := by
      rw [renamed, Mapping.region, if_neg (by dsimp only; omega), hnext]
      rfl
    show x.region m'.nextHandle :: m'.regions =
      ((x.region m.nextHandle :: m.regions).filter (·.handle != gone)).map (renamed gone)
    rw [List.filter_cons_of_pos (by simpa [Mapping.region] using hne), List.map_cons, hname,
      h.regions]
  | unmap handle =>
    refine ⟨?_, hnext, hle⟩
    rw [MapCall.recount, MapCall.apply, MapCall.apply, hm.regions_unmap, hm'.regions_unmap,
      h.regions, List.filter_map, List.filter_filter, List.filter_filter]
    refine congrArg (List.map _) (List.filter_congr fun r hr => ?_)
    have hlt := hm.lt_next r hr
    -- a region has the handle in one space if it has the recounted handle in the other
    rw [Bool.eq_iff_iff]
    simp only [Function.comp_apply, renamed, Bool.and_eq_true, bne_iff_ne]
    rw [and_comm]
    refine and_congr_right fun hgone => not_congr ?_
    exact recounted_eq_iff hgone (Nat.lt_of_lt_of_le hlt hnothing)

variable {panel : Panel} {calls : List MapCall}

/-- So do any number of other calls. -/
theorem Without.after {gone nothing : Nat} {calls calls' : List MapCall}
    (h : Without gone (after panel calls) (after panel calls')) (more : List MapCall)
    (hnothing : mapCount (calls ++ more) ≤ nothing) :
    Without gone (AddressSpace.after panel (calls ++ more))
      (AddressSpace.after panel (calls' ++ more.map (MapCall.recount gone nothing))) := by
  induction more using List.reverseRecOn with
  | nil => simpa using h
  | append_singleton more c ih =>
    have hle : mapCount (calls ++ more) ≤ mapCount (calls ++ (more ++ [c])) := by
      rw [← List.append_assoc, mapCount_append (calls ++ more)]
      exact Nat.le_add_right _ _
    have hmore := ih (Nat.le_trans hle hnothing)
    rw [List.map_append, ← List.append_assoc, ← List.append_assoc]
    show Without gone (AddressSpace.after panel (calls ++ more ++ [c]))
      (AddressSpace.after panel (calls' ++ _ ++ [c.recount gone nothing]))
    rw [after_append_singleton, after_append_singleton]
    refine hmore.apply (ordered_after _ _) (ordered_after _ _) ?_ c
    rw [nextHandle_after]
    exact Nat.le_trans hle hnothing

/-- Taking the region away ends the difference, but for the numbers. -/
theorem Without.unmap {gone : Nat} {m m' : AddressSpace} (h : Without gone m m')
    (hm : m.Ordered) : Without gone ((MapCall.unmap gone).apply m) m' := by
  refine ⟨?_, h.nextHandle, h.le_next⟩
  rw [MapCall.apply, hm.regions_unmap, List.filter_filter, h.regions]
  simp only [Bool.and_self]

/-- Where a region is gone, the two spaces have the same regions, but for the numbers. -/
theorem Without.regions_unnamed {gone : Nat} {m m' : AddressSpace} (h : Without gone m m')
    (hgone : ∀ r ∈ m.regions, r.handle ≠ gone) :
    m.regions.map Region.unnamed = m'.regions.map Region.unnamed := by
  have hkept : m.regions.filter (·.handle != gone) = m.regions :=
    List.filter_eq_self.mpr fun r hr => bne_iff_ne.mpr (hgone r hr)
  rw [h.regions, hkept, List.map_map]
  rfl

/-- **A mapping that is taken away leaves no trace.**  The same calls without it and without the
call that takes it away leave the same regions, in the same order. -/
theorem forgets_unmapped (panel : Panel) (older middle newer : List MapCall) (x : Mapping)
    {nothing : Nat}
    (hnothing : mapCount (older ++ .map x :: (middle ++ .unmap (mapCount older) :: newer)) ≤
      nothing) :
    (after panel (older ++ .map x :: (middle ++ .unmap (mapCount older) :: newer))).regions.map
        Region.unnamed =
      (after panel (older ++ (middle ++ newer).map
        (MapCall.recount (mapCount older) nothing))).regions.map Region.unnamed := by
  have hsplit : older ++ .map x :: (middle ++ .unmap (mapCount older) :: newer) =
      older ++ [.map x] ++ middle ++ [.unmap (mapCount older)] ++ newer := by
    simp only [List.append_assoc, List.cons_append, List.nil_append]
  rw [hsplit] at hnothing ⊢
  have hcount := hnothing
  simp only [mapCount_append] at hcount
  have hmapped :
      Without (mapCount older) (after panel (older ++ [.map x])) (after panel older) := by
    have hmap := without_map (ordered_after panel older) x
    rwa [nextHandle_after, ← after_append_singleton] at hmap
  have hmapCount : mapCount (older ++ [.map x] ++ middle) ≤ nothing := by
    simp only [mapCount_append]
    omega
  have hmiddle := hmapped.after middle hmapCount
  have hunmapped := hmiddle.unmap (ordered_after _ _)
  rw [← after_append_singleton] at hunmapped
  have hnewer := hunmapped.after newer hnothing
  rw [List.append_assoc older (middle.map _), ← List.map_append] at hnewer
  refine hnewer.regions_unnamed fun r hr hgone => ?_
  -- a handle that is not live any more does not come back
  obtain ⟨y, hlive, -⟩ := mem_regions_after.mp hr
  rw [hgone] at hlive
  refine not_live_append ?_ (fun z hz => ?_) newer y hlive
  · simp only [mapCount_append]
    have hone : mapCount [.map x] = 1 := rfl
    omega
  · rcases live_append_singleton.mp hz with ⟨-, hne⟩ | ⟨hc, -⟩
    · exact hne rfl
    · exact nomatch hc

/-- **Routing follows the live mappings.**  After any history of calls that map and unmap devices,
with any ranges:

* the next map call answers the number of the map calls before it;
* every address is either won by a live mapping, and then its requests are served by the device
  of that mapping, at the address that the device counts, or no live mapping covers it, and then
  its requests fail;
* unmapping a handle gives back the device of its mapping if that is live, and nothing
  otherwise, and an address that another mapping wins leads where it led before;
* a mapping and the call that takes it away can be left out together: what remains are the same
  regions in the same order, where a call that still names the missing region names none. -/
theorem routing_follows_live_mappings (panel : Panel) (calls : List MapCall) :
    (∀ x : Mapping, ((after panel calls).map x.device x.start x.size x.remap).1 = mapCount calls) ∧
    (∀ a, (∃ handle x, Wins calls a handle x ∧
          (after panel calls).Serves a handle x.device (x.deviceAddress a) ∧
          (x.deviceAddress a).toNat = if x.remap then a.toNat - x.start.toNat else a.toNat) ∨
        (∀ handle x, Live calls handle x → ¬ x.Covers a) ∧ (after panel calls).Refuses a) ∧
    (∀ handle d, ((after panel calls).unmap handle).1 = some d ↔
        ∃ x, Live calls handle x ∧ x.device = d) ∧
    (∀ handle a handle' x, Wins calls a handle' x → handle' ≠ handle →
        ((after panel calls).unmap handle).2.region? a = (after panel calls).region? a) ∧
    ∀ older x middle newer nothing,
      calls = older ++ .map x :: (middle ++ .unmap (mapCount older) :: newer) →
      mapCount calls ≤ nothing →
      (after panel calls).regions.map Region.unnamed =
        (after panel (older ++ (middle ++ newer).map
          (MapCall.recount (mapCount older) nothing))).regions.map Region.unnamed := by
  refine ⟨fun x => nextHandle_after panel calls, fun a => ?_, fun handle d => unmap_eq_some_iff,
    fun handle a handle' x => region?_unmap, ?_⟩
  · rcases exists_wins_or_not_covers calls a with ⟨handle, x, hwins⟩ | hnone
    · refine .inl ⟨handle, x, hwins, serves_of_wins hwins, ?_⟩
      have hcontains : (x.region handle).contains a = true :=
        Mapping.contains_region.mpr hwins.2.1
      exact Region.toNat_deviceAddress hcontains
    · exact .inr ⟨hnone, refuses_of_not_covers hnone⟩
  · rintro older x middle newer nothing rfl hnothing
    exact forgets_unmapped panel older middle newer x hnothing

/-- Memory behind all addresses, a window that shadows some of it and is taken away, twice, and a
read-only tail whose range runs past the last address. -/
def layered : List MapCall :=
  [.map ⟨.newRam addressCount, 0, addressCount, true⟩, .map ⟨.newRam 16, 0x3000, 0x100, true⟩,
    .map ⟨.newRom [1, 2, 3], 0xFF00, 0x1000, false⟩, .unmap 1, .unmap 1]

/-- In that history the tail wins its addresses, unmapping the window once more changes nothing
there, and the window might as well not have been. -/
theorem routing_of_layered :
    mapCount layered ≤ 3 ∧ Wins layered 0xFF80 2 ⟨.newRom [1, 2, 3], 0xFF00, 0x1000, false⟩ ∧
      ((after .initial layered).unmap 1).2.region? 0xFF80 =
        (after .initial layered).region? 0xFF80 ∧
      (after .initial layered).regions.map Region.unnamed =
        (after .initial
          [.map ⟨.newRam addressCount, 0, addressCount, true⟩,
            .map ⟨.newRom [1, 2, 3], 0xFF00, 0x1000, false⟩, .unmap 3]).regions.map
          Region.unnamed := by
  have hcount : mapCount layered ≤ 3 := by decide
  have hwins : Wins layered 0xFF80 2 ⟨.newRom [1, 2, 3], 0xFF00, 0x1000, false⟩ := by
    refine ⟨⟨layered.take 2, [.unmap 1, .unmap 1], rfl, rfl, by simp⟩, by decide,
      fun handle x hlive _ => ?_⟩
    have hlt := (ordered_after .initial layered).lt_next _ (region_mem_after hlive)
    rw [nextHandle_after] at hlt
    exact Nat.le_of_lt_succ (Nat.lt_of_lt_of_le hlt hcount)
  obtain ⟨-, -, -, hunmap, hforget⟩ := routing_follows_live_mappings .initial layered
  refine ⟨hcount, hwins, hunmap 1 _ 2 _ hwins (by decide), ?_⟩
  exact hforget [_] _ [_] [_] 3 rfl hcount

end AddressSpace
end WordMachine
