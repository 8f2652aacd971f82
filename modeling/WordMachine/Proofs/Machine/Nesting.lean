import WordMachine.Proofs.Machine.Step

/-!
# Nested calls

A run is nested if every return belongs to a call that has not returned, nothing is stored
where such a call has saved its frame, and no instruction puts a word of its own into `sp` or
`fp`.  Nothing more is asked for: not which words a callee pops, nor that there are as many
arguments as the count says, since the frame pointer depends on neither.

The frame pointer of a caller is not saved.  A return computes it from the frame counter that
was saved, so it is right as long as the counter is what lies between `fp` and `sp`.  But a
return takes the saved counter over in the middle of its own pops.  The saved counter counts
the two bytes it stands in, and the pop that has taken these two bytes away was counted in
the counter that is lost.  So behind every return the counter is two too large
(`Machine.sp_add_frameSize_returned`).

So a frame gets its frame pointer back from the first call it makes and from no later one:
each of these leaves `fp` two bytes higher than it was.  A return reads the saved words from
`fp` on, so a frame that has made two calls does not find them when it returns itself.

* `Nested`: a nested run, with what has been called and what has returned.
* `Nested.intact`: the saved frame counters of the calls that have not returned stay as they
  are.
* `Nested.regular`: where `fp` is, and what the counter is, as long as no frame that has
  returned had made more than one call.
* `Nested.fp_restored_iff`: every frame pointer has been restored if and only if no frame has
  been returned to twice.
* `Nested.exists_fp_moved`: nothing bounds how far the frame pointer of a caller moves.
-/

namespace WordMachine

open AddressSpace

/-! ## Runs -/

/-- A call that has not returned. -/
structure OpenCall where
  /-- The machine that was about to call. -/
  caller : Machine
  /-- How many calls from the caller's frame had returned before. -/
  completed : Nat

/-- The call has saved part of its frame at the address `b`. -/
def OpenCall.Saves (p : OpenCall) (b : Word) : Prop :=
  InBlock (p.caller.registers.get .sp - 18) 20 b

/-- A call that has returned. -/
structure Return where
  /-- What `fp` was when the call was about to be made. -/
  before : Word
  /-- What `fp` was when it had returned. -/
  after : Word
  /-- How many calls from the caller's frame had returned before. -/
  earlier : Nat
  /-- How many calls from the callee's frame had returned. -/
  inner : Nat
  deriving DecidableEq, Repr

/-- The calls of a run. -/
structure History where
  /-- The calls that have not returned, the last one first. -/
  pending : List OpenCall
  /-- How many calls from the current frame have returned. -/
  completed : Nat
  /-- The calls that have returned, the last one first. -/
  returns : List Return

/-- Some call has saved part of its frame at the address `b` and has not returned. -/
def History.Saves (h : History) (b : Word) : Prop := ∃ p ∈ h.pending, p.Saves b

/-- An effect other than a call or a return that leaves `sp` and `fp` to the stack and stores
nothing at the saved addresses. -/
def Effect.StaysInside (m : Machine) (Saved : Word → Prop) : Effect → Prop
  | .nothing | .halt | .jump _ => True
  | .assign r _ | .load8 r _ | .load16 r _ | .pop r => r ≠ .sp ∧ r ≠ .fp
  | .store8 a _ => ¬ Saved a
  | .store16 a _ => ¬ Saved a ∧ ¬ Saved (a + 1)
  | .push _ => ¬ Saved (m.registers.get .sp) ∧ ¬ Saved (m.registers.get .sp + 1)
  | .call _ | .ret => False

/-- A nested run, from a new machine on a flat memory. -/
inductive Nested : History → Machine → Prop
  | start {memory : AddressSpace} (hflat : memory.IsFlat) :
      Nested ⟨[], 0, []⟩ (Machine.new memory)
  /-- A byte that is no instruction. -/
  | skip {h : History} {m m' : Machine} (hn : Nested h m) (hrun : m.isHalted = false)
      (hbyte : Opcode.ofByte? (m.memory.byteAt (m.registers.get .ip)) = none)
      (hstep : Execution.step m = .ok false m') : Nested h m'
  /-- An instruction other than a call or a return. -/
  | inside {h : History} {m m' next : Machine} {opcode : Opcode} {args : List Argument}
      {halted : Bool} (hn : Nested h m) (hd : m.Decodes opcode args next)
      (hinside : (opcode.effect next.registers args).StaysInside next h.Saves)
      (hstep : Execution.step m = .ok halted m') : Nested h m'
  /-- A call, which saves its frame where no other has. -/
  | call {h : History} {m m' next : Machine} {opcode : Opcode} {x : Argument} (hn : Nested h m)
      (hcall : opcode = .calLit ∨ opcode = .calReg) (hd : m.Decodes opcode [x] next)
      (hfree : ∀ b, InBlock (m.registers.get .sp - 18) 20 b → ¬ h.Saves b)
      (hstep : Execution.step m = .ok false m') :
      Nested ⟨⟨m, h.completed⟩ :: h.pending, 0, h.returns⟩ m'
  /-- A return from the last call that has not returned. -/
  | ret {p : OpenCall} {pending : List OpenCall} {completed : Nat} {returns : List Return}
      {m m' next : Machine} {args : List Argument}
      (hn : Nested ⟨p :: pending, completed, returns⟩ m) (hd : m.Decodes .ret args next)
      (hstep : Execution.step m = .ok false m') :
      Nested ⟨pending, p.completed + 1,
        ⟨p.caller.registers.get .fp, m'.registers.get .fp, p.completed, completed⟩ :: returns⟩ m'

/-! ## Inside a frame -/

/-- Two machines in the same frame: `fp` is the same, so is what `sp` and the frame counter
add up to, and so are the saved bytes. -/
structure SameFrame (Saved : Word → Prop) (m m' : Machine) : Prop where
  fp : m'.registers.get .fp = m.registers.get .fp
  sum : m'.registers.get .sp + m'.frameSize = m.registers.get .sp + m.frameSize
  saved : ∀ b, Saved b → m'.memory.byteAt b = m.memory.byteAt b

namespace SameFrame

variable {Saved : Word → Prop} {m m' m'' : Machine}

theorem trans (h : SameFrame Saved m m') (h' : SameFrame Saved m' m'') :
    SameFrame Saved m m'' where
  fp := by rw [h'.fp, h.fp]
  sum := by rw [h'.sum, h.sum]
  saved b hb := by rw [h'.saved b hb, h.saved b hb]

/-- A register other than `sp` and `fp` may receive any word. -/
theorem set {r : Register} (hr : r ≠ .sp ∧ r ≠ .fp) (w : Word) :
    SameFrame Saved m { m with registers := m.registers.set r w } where
  fp := RegisterFile.get_set_of_ne _ (Ne.symm hr.2) w
  sum := by
    show (m.registers.set r w).get .sp + m.frameSize = _
    rw [RegisterFile.get_set_of_ne _ (Ne.symm hr.1)]
  saved _ _ := rfl

theorem popped : SameFrame Saved m m.popped where
  fp := m.get_popped_of_ne (by decide)
  sum := by
    rw [Machine.sp_popped, Machine.frameSize_popped]
    grind
  saved _ _ := rfl

end SameFrame

/-- An effect that stays inside leaves the machine in the same frame. -/
theorem Effect.StaysInside.sameFrame {m : Machine} {Saved : Word → Prop} {e : Effect}
    (he : e.StaysInside m Saved) (hflat : m.memory.IsFlat) : SameFrame Saved m (e.after m) := by
  cases e with
  | nothing | halt => exact ⟨rfl, rfl, fun _ _ => rfl⟩
  | jump target => exact SameFrame.set (by decide) target
  | assign r w | load8 r a | load16 r a => exact SameFrame.set he _
  | store8 a b =>
    refine ⟨rfl, rfl, fun c hc => ?_⟩
    have hne : c ≠ a := by
      rintro rfl
      exact he hc
    show (m.memory.poke8 a b).byteAt c = _
    rw [hflat.byteAt_poke8, if_neg hne]
  | store16 a w =>
    exact ⟨rfl, rfl, fun c hc => hflat.byteAt_poke16_away he hc w⟩
  | push w =>
    refine ⟨m.get_pushed_of_ne w (by decide), ?_, fun c hc => hflat.byteAt_poke16_away he hc w⟩
    show (m.pushed w).registers.get .sp + (m.pushed w).frameSize = _
    rw [Machine.sp_pushed, Machine.frameSize_pushed]
    grind
  | pop r => exact SameFrame.popped.trans (SameFrame.set he _)
  | call target | ret => exact absurd he id

/-- A byte that is passed over leaves the machine in the same frame. -/
theorem Machine.sameFrame_of_no_opcode {m m' : Machine} (Saved : Word → Prop)
    (hflat : m.memory.IsFlat) (hrun : m.isHalted = false)
    (hbyte : Opcode.ofByte? (m.memory.byteAt (m.registers.get .ip)) = none)
    (hstep : Execution.step m = .ok false m') :
    m'.memory.IsFlat ∧ SameFrame Saved m m' := by
  rw [Machine.step_of_no_opcode hflat hrun hbyte, EStateM.Result.ok.injEq] at hstep
  obtain ⟨-, rfl⟩ := hstep
  exact ⟨hflat, SameFrame.set (by decide) _⟩

/-- An instruction whose effect stays inside leaves the machine in the same frame. -/
theorem Machine.Decodes.sameFrame {m m' next : Machine} {Saved : Word → Prop} {opcode : Opcode}
    {args : List Argument} {halted : Bool} (hd : m.Decodes opcode args next)
    (hflat : m.memory.IsFlat)
    (hinside : (opcode.effect next.registers args).StaysInside next Saved)
    (hstep : Execution.step m = .ok halted m') :
    m'.memory.IsFlat ∧ SameFrame Saved m m' := by
  obtain ⟨-, hnext⟩ := hd.eq_of_flat hflat
  have hflat' : next.memory.IsFlat := by rwa [hnext]
  have hfetch : SameFrame Saved m next := by
    rw [hnext]
    exact SameFrame.set (by decide) _
  rw [hd.step_flat hflat, EStateM.Result.ok.injEq] at hstep
  obtain ⟨-, rfl⟩ := hstep
  exact ⟨Effect.isFlat_after hflat' _, hfetch.trans (hinside.sameFrame hflat')⟩

/-! ## Saved frames -/

namespace Nested

/-- A nested run keeps a flat memory flat. -/
theorem isFlat {h : History} {m : Machine} (hn : Nested h m) : m.memory.IsFlat := by
  induction hn with
  | start hflat => exact hflat
  | skip hn hrun hbyte hstep ih =>
    exact (Machine.sameFrame_of_no_opcode (fun _ => False) ih hrun hbyte hstep).1
  | inside hn hd hinside hstep ih => exact (hd.sameFrame ih hinside hstep).1
  | call hn hcall hd hfree hstep ih => exact (hd.calls_of_step ih hcall hstep).isFlat
  | @ret p pending completed returns m m' next args hn hd hstep ih =>
    obtain ⟨-, hnext⟩ := hd.eq_of_flat ih
    rw [hd.eq_returned_of_step ih hstep, Machine.memory_returned, hnext]
    exact ih

end Nested

/-- The saved frame counter of a pending call stands where the call has put it. -/
def OpenCall.Intact (p : OpenCall) (memory : AddressSpace) : Prop :=
  memory.wordAt (p.caller.registers.get .sp - 18) = p.caller.frameSize + 20

/-- The lowest saved word is a matter of the saved bytes only. -/
theorem OpenCall.Intact.congr {p : OpenCall} {memory memory' : AddressSpace}
    (h : p.Intact memory) (hsame : ∀ b, p.Saves b → memory'.byteAt b = memory.byteAt b) :
    p.Intact memory' := by
  have hfirst : p.Saves (p.caller.registers.get .sp - 18) := by
    show InBlock _ 20 _
    exact inBlock_succ.mpr (Or.inl rfl)
  have hsecond : p.Saves (p.caller.registers.get .sp - 18 + 1) := by
    show InBlock _ 20 _
    exact inBlock_succ.mpr (Or.inr (inBlock_succ.mpr (Or.inl rfl)))
  rw [OpenCall.Intact, wordAt_congr (hsame _ hfirst) (hsame _ hsecond)]
  exact h

namespace Nested

/-- The saved counters of all pending calls stay what they were. -/
theorem intact {h : History} {m : Machine} (hn : Nested h m) :
    ∀ p ∈ h.pending, p.Intact m.memory := by
  induction hn with
  | start hflat => exact List.forall_mem_nil _
  | skip hn hrun hbyte hstep ih =>
    intro p hp
    obtain ⟨-, hsame⟩ := Machine.sameFrame_of_no_opcode p.Saves hn.isFlat hrun hbyte hstep
    exact (ih p hp).congr hsame.saved
  | inside hn hd hinside hstep ih =>
    intro p hp
    obtain ⟨-, hsame⟩ := hd.sameFrame hn.isFlat hinside hstep
    exact (ih p hp).congr fun b hb => hsame.saved b ⟨p, hp, hb⟩
  | @call h m m' next opcode x hn hcall hd hfree hstep ih =>
    have hcalls := hd.calls_of_step hn.isFlat hcall hstep
    intro p hp
    rcases List.mem_cons.mp hp with rfl | hp
    · exact (holdsWords_cons.mp hcalls.saves).1
    · -- the new frame lies outside the frames that have been saved before
      refine (ih p hp).congr fun b hb => hcalls.frameRule b fun hblock => ?_
      exact hfree b hblock ⟨p, hp, hb⟩
  | @ret p pending completed returns m m' next args hn hd hstep ih =>
    obtain ⟨-, hnext⟩ := hd.eq_of_flat hn.isFlat
    intro q hq
    rw [hd.eq_returned_of_step hn.isFlat hstep, Machine.memory_returned, hnext]
    exact ih q (List.mem_cons_of_mem p hq)

end Nested

/-! ## Where the frame pointer is -/

/-- Behind every return the frame counter is two too large. -/
theorem Machine.sp_add_frameSize_returned (m : Machine) :
    m.returned.registers.get .sp + m.returned.frameSize = m.returned.registers.get .fp + 2 := by
  rw [Machine.sp_returned, Machine.frameSize_returned, Machine.fp_returned]
  grind

/-- By how much the frame counter is too large, by the number of calls that have returned. -/
def drift (completed : Nat) : Word := if completed = 0 then 0 else 2

/-- Where the current frame has been opened. -/
def frameBase : List OpenCall → Word
  | [] => stackTop
  | p :: _ => p.caller.registers.get .sp - 20

/-- The machine is in a frame in which the given number of calls have returned, and each of
them but the first has moved `fp` up by two. -/
structure Settled (pending : List OpenCall) (completed : Nat) (m : Machine) : Prop where
  fp : m.registers.get .fp = frameBase pending + 2 * UInt16.ofNat (completed - 1)
  sum : m.registers.get .sp + m.frameSize = m.registers.get .fp + drift completed

/-- All pending calls have been made from settled machines. -/
def CallersSettled : List OpenCall → Prop
  | [] => True
  | p :: pending => Settled pending p.completed p.caller ∧ CallersSettled pending

theorem Settled.of_sameFrame {pending : List OpenCall} {completed : Nat} {m m' : Machine}
    {Saved : Word → Prop} (h : Settled pending completed m) (hsame : SameFrame Saved m m') :
    Settled pending completed m' where
  fp := by rw [hsame.fp, h.fp]
  sum := by rw [hsame.sum, h.sum, hsame.fp]

/-- A call opens a settled frame. -/
theorem Machine.Calls.settled {m m' : Machine} {target q : Word} (h : m.Calls target q m')
    (completed : Nat) (pending : List OpenCall) : Settled (⟨m, completed⟩ :: pending) 0 m' where
  fp := by
    rw [h.fp]
    exact (UInt16.add_zero _).symm
  sum := by
    rw [h.sp, h.fp, h.frameSize]
    rfl

/-- A return from a settled frame that has made at most one call puts `fp` where the caller's
counter says, which is where it was unless the caller has been returned to before. -/
theorem fp_returned_of_settled {p : OpenCall} {pending : List OpenCall} {inner : Nat} {m : Machine}
    (h : Settled (p :: pending) inner m) (hinner : inner ≤ 1) (hintact : p.Intact m.memory)
    (hcaller : Settled pending p.completed p.caller) :
    m.returned.registers.get .fp = p.caller.registers.get .fp + drift p.completed := by
  have hsteps : inner - 1 = 0 := by omega
  have hzero : (2 : Word) * UInt16.ofNat 0 = 0 := by decide
  have hfp : m.registers.get .fp = p.caller.registers.get .sp - 20 := by
    rw [h.fp, hsteps, hzero, UInt16.add_zero]
    rfl
  have hplace : p.caller.registers.get .sp - 20 + 2 = p.caller.registers.get .sp - 18 := by grind
  rw [Machine.fp_returned, hfp, hplace, hintact, ← hcaller.sum]
  grind

/-- Returning once more moves a settled frame on. -/
theorem Settled.of_returned {pending : List OpenCall} {completed : Nat} {caller m : Machine}
    (hcaller : Settled pending completed caller)
    (hfp : m.returned.registers.get .fp = caller.registers.get .fp + drift completed) :
    Settled pending (completed + 1) m.returned := by
  constructor
  case fp =>
    rw [hfp, hcaller.fp]
    cases completed with
    | zero => exact UInt16.add_zero _
    | succ k =>
      show frameBase pending + 2 * UInt16.ofNat k + 2 = frameBase pending + 2 * UInt16.ofNat (k + 1)
      rw [UInt16.ofNat_add]
      show _ = frameBase pending + 2 * (UInt16.ofNat k + 1)
      grind
  case sum => exact m.sp_add_frameSize_returned

/-- What is known of a run in which no frame that has returned had made more than one call. -/
structure Regular (h : History) (m : Machine) : Prop where
  current : Settled h.pending h.completed m
  callers : CallersSettled h.pending
  returns : ∀ r ∈ h.returns, r.after = r.before + drift r.earlier

theorem Regular.of_sameFrame {h : History} {m m' : Machine} {Saved : Word → Prop}
    (hr : Regular h m) (hsame : SameFrame Saved m m') : Regular h m' :=
  ⟨hr.current.of_sameFrame hsame, hr.callers, hr.returns⟩

namespace Nested

/-- As long as no frame that has returned had made more than one call, all frames are where
their calls have put them, but for two bytes for each call that has come back again. -/
theorem regular {h : History} {m : Machine} (hn : Nested h m)
    (hinner : ∀ r ∈ h.returns, r.inner ≤ 1) : Regular h m := by
  induction hn with
  | start hflat =>
    refine ⟨⟨?_, ?_⟩, trivial, List.forall_mem_nil _⟩
    · show ((RegisterFile.zero.set .sp stackTop).set .fp stackTop).get .fp =
        stackTop + 2 * UInt16.ofNat 0
      decide
    · show ((RegisterFile.zero.set .sp stackTop).set .fp stackTop).get .sp + 0 =
        ((RegisterFile.zero.set .sp stackTop).set .fp stackTop).get .fp + 0
      decide
  | skip hn hrun hbyte hstep ih =>
    obtain ⟨-, hsame⟩ :=
      Machine.sameFrame_of_no_opcode (fun _ => False) hn.isFlat hrun hbyte hstep
    exact (ih hinner).of_sameFrame hsame
  | inside hn hd hinside hstep ih =>
    obtain ⟨-, hsame⟩ := hd.sameFrame hn.isFlat hinside hstep
    exact (ih hinner).of_sameFrame hsame
  | @call h m m' next opcode x hn hcall hd hfree hstep ih =>
    have hcalls := hd.calls_of_step hn.isFlat hcall hstep
    have hr := ih hinner
    exact ⟨hcalls.settled h.completed h.pending, ⟨hr.current, hr.callers⟩, hr.returns⟩
  | @ret p pending completed returns m m' next args hn hd hstep ih =>
    obtain ⟨hlast, hbefore⟩ := List.forall_mem_cons.mp hinner
    obtain ⟨hcurrent, ⟨hcaller, hcallers⟩, hreturns⟩ := ih hbefore
    obtain ⟨-, hnext⟩ := hd.eq_of_flat hn.isFlat
    have hintact : p.Intact next.memory := by
      rw [hnext]
      exact hn.intact p (List.mem_cons_self ..)
    have hfetch : SameFrame p.Saves m next := by
      rw [hnext]
      exact SameFrame.set (by decide) _
    have hcurrent' : Settled (p :: pending) completed next := hcurrent.of_sameFrame hfetch
    obtain rfl := hd.eq_returned_of_step hn.isFlat hstep
    have hfp := fp_returned_of_settled hcurrent' hlast hintact hcaller
    exact ⟨hcaller.of_returned hfp, hcallers, List.forall_mem_cons.mpr ⟨hfp, hreturns⟩⟩

/-- A frame in which several calls have returned has been returned to again. -/
theorem exists_earlier {h : History} {m : Machine} (hn : Nested h m) :
    (2 ≤ h.completed → ∃ r ∈ h.returns, r.earlier ≠ 0) ∧
      (∀ p ∈ h.pending, 2 ≤ p.completed → ∃ r ∈ h.returns, r.earlier ≠ 0) ∧
      ∀ q ∈ h.returns, 2 ≤ q.inner → ∃ r ∈ h.returns, r.earlier ≠ 0 := by
  induction hn with
  | start hflat =>
    refine ⟨fun htwo => absurd htwo (by decide), ?_, ?_⟩
    · exact List.forall_mem_nil _
    · exact List.forall_mem_nil _
  | skip hn hrun hbyte hstep ih => exact ih
  | inside hn hd hinside hstep ih => exact ih
  | call hn hcall hd hfree hstep ih =>
    obtain ⟨hcurrent, hpending, hreturns⟩ := ih
    refine ⟨fun htwo => absurd htwo (Nat.not_succ_le_zero 1), ?_, hreturns⟩
    exact List.forall_mem_cons.mpr ⟨hcurrent, hpending⟩
  | @ret p pending completed returns m m' next args hn hd hstep ih =>
    obtain ⟨hcurrent, hpending, hreturns⟩ := ih
    have hmore : (∃ r ∈ returns, r.earlier ≠ 0) → ∃ r ∈ (⟨p.caller.registers.get .fp,
        m'.registers.get .fp, p.completed, completed⟩ : Return) :: returns, r.earlier ≠ 0 := by
      rintro ⟨r, hr, hne⟩
      exact ⟨r, List.mem_cons_of_mem _ hr, hne⟩
    refine ⟨fun htwo => ?_, fun q hq htwo => ?_, ?_⟩
    · have hne : p.completed ≠ 0 := by
        change 2 ≤ p.completed + 1 at htwo
        omega
      exact ⟨_, List.mem_cons_self .., hne⟩
    · exact hmore (hpending q (List.mem_cons_of_mem p hq) htwo)
    · refine List.forall_mem_cons.mpr ⟨fun htwo => hmore (hcurrent htwo), fun q hq htwo => ?_⟩
      exact hmore (hreturns q hq htwo)

/-- If no frame has been returned to twice, every return was from a frame that had made at
most one call. -/
theorem inner_le_one {h : History} {m : Machine} (hn : Nested h m)
    (hfirst : ∀ r ∈ h.returns, r.earlier = 0) : h.completed ≤ 1 ∧ ∀ r ∈ h.returns, r.inner ≤ 1 := by
  obtain ⟨hcurrent, -, hreturns⟩ := hn.exists_earlier
  have hnone : ¬ ∃ r ∈ h.returns, r.earlier ≠ 0 := by
    rintro ⟨r, hr, hne⟩
    exact hne (hfirst r hr)
  constructor
  · exact Nat.le_of_lt_succ (Nat.lt_of_not_ge fun htwo => hnone (hcurrent htwo))
  · intro r hr
    exact Nat.le_of_lt_succ (Nat.lt_of_not_ge fun htwo => hnone (hreturns r hr htwo))

/-- Either no frame has been returned to twice, or a return that came again has moved the
frame pointer. -/
theorem restored_or_moved {h : History} {m : Machine} (hn : Nested h m) :
    (∀ r ∈ h.returns, r.earlier = 0) ∨ ∃ r ∈ h.returns, r.earlier ≠ 0 ∧ r.after ≠ r.before := by
  induction hn with
  | start hflat => exact Or.inl (List.forall_mem_nil _)
  | skip hn hrun hbyte hstep ih => exact ih
  | inside hn hd hinside hstep ih => exact ih
  | call hn hcall hd hfree hstep ih => exact ih
  | @ret p pending completed returns m m' next args hn hd hstep ih =>
    rcases ih with hfirst | ⟨r, hr, hmoved⟩
    · by_cases hp : p.completed = 0
      · exact Or.inl (List.forall_mem_cons.mpr ⟨hp, hfirst⟩)
      · -- up to here no frame has been returned to twice, so this return can be computed
        obtain ⟨hcompleted, hinner⟩ := hn.inner_le_one hfirst
        have hregular := (Nested.ret hn hd hstep).regular
          (List.forall_mem_cons.mpr ⟨hcompleted, hinner⟩)
        have hafter := (List.forall_mem_cons.mp hregular.returns).1
        refine Or.inr ⟨_, List.mem_cons_self .., hp, ?_⟩
        rw [hafter, drift, if_neg hp]
        show _ + 2 ≠ _
        grind
    · exact Or.inr ⟨r, List.mem_cons_of_mem _ hr, hmoved⟩

/-- **Which calls give the frame pointer back.**  In a nested run every return has restored
the frame pointer of its caller if and only if no frame has been returned to twice.  And as
long as no frame that has returned had made more than one call, a return leaves `fp` as it was
if it is the first to its caller and two bytes higher if it is not, and the frame counter is
what lies between `fp` and `sp` if no call has returned to the current frame and two more if
one has. -/
theorem fp_restored_iff {h : History} {m : Machine} (hn : Nested h m) :
    ((∀ r ∈ h.returns, r.after = r.before) ↔ ∀ r ∈ h.returns, r.earlier = 0) ∧
      ((∀ r ∈ h.returns, r.inner ≤ 1) →
        (∀ r ∈ h.returns, r.after = r.before + if r.earlier = 0 then 0 else 2) ∧
          m.registers.get .sp + m.frameSize =
            m.registers.get .fp + if h.completed = 0 then 0 else 2) := by
  refine ⟨⟨fun hrestored => ?_, fun hfirst r hr => ?_⟩, fun hinner => ?_⟩
  · rcases hn.restored_or_moved with hfirst | ⟨r, hr, -, hmoved⟩
    · exact hfirst
    · exact absurd (hrestored r hr) hmoved
  · have hregular := hn.regular (hn.inner_le_one hfirst).2
    rw [hregular.returns r hr, hfirst r hr]
    exact UInt16.add_zero _
  · have hregular := hn.regular hinner
    exact ⟨hregular.returns, hregular.current.sum⟩

end Nested

/-! ## A frame that calls again and again -/

/-- The code of a loop: push the number of arguments, which is none, call the last instruction,
which returns, and start over. -/
def callLoop : List Byte :=
  [Opcode.pshLit.byte, 0, 0, Opcode.calLit.byte, 0, 9, Opcode.jmpAddr.byte, 0, 0, Opcode.ret.byte]

/-- The machine is in the loop at the address `a`, with `sp` at `s`. -/
structure AtLoop (m : Machine) (a s : Word) : Prop where
  isHalted : m.isHalted = false
  ip : m.registers.get .ip = a
  sp : m.registers.get .sp = s
  code : m.memory.Holds 0 callLoop

namespace AtLoop

variable {m m' next : Machine} {a s : Word}

/-- The instruction that the loop has at an address. -/
theorem decodes (hm : AtLoop m a s) (opcode : Opcode) (hflat : m.memory.IsFlat) {i : Nat}
    (hi : i < callLoop.length) (ha : a = UInt16.ofNat i) (hbyte : callLoop[i] = opcode.byte) :
    m.Decodes opcode
      (Execution.argumentsAt (m.moveTo (a + 1)) opcode.format.operands)
      (m.moveTo (a + UInt16.ofNat opcode.size)) := by
  have hat := hm.code.byteAt hi
  have hplace : (0 : Word) + UInt16.ofNat i = a := by rw [ha, UInt16.zero_add]
  rw [hplace, hbyte] at hat
  have hd := Machine.decodes_flat hflat hm.isHalted (by rw [hm.ip]; exact hat)
  rwa [hm.ip] at hd

/-- The word that the loop has at an address. -/
theorem wordAt (hm : AtLoop m a s) {i : Nat} (hi : i + 1 < callLoop.length) {b w : Word}
    (hb : b = UInt16.ofNat i) (hw : Word.ofBytes callLoop[i] callLoop[i + 1] = w) :
    m.memory.wordAt b = w := by
  have hfirst := hm.code.byteAt (Nat.lt_of_succ_lt hi)
  have hsecond := hm.code.byteAt hi
  rw [UInt16.zero_add] at hfirst hsecond
  have hplace : b + 1 = UInt16.ofNat (i + 1) := by
    rw [hb, UInt16.ofNat_add]
    rfl
  rw [AddressSpace.wordAt, hplace, hb, hfirst, hsecond, hw]

variable {completed : Nat} {returns : List Return}

theorem not_saves_nil (b : Word) : ¬ (⟨[], completed, returns⟩ : History).Saves b := by
  rintro ⟨p, hp, -⟩
  exact absurd hp List.not_mem_nil

/-- The argument count is pushed. -/
theorem exists_pushed (hn : Nested ⟨[], completed, returns⟩ m) (hm : AtLoop m 0 0xFFFE) :
    ∃ m', Nested ⟨[], completed, returns⟩ m' ∧ AtLoop m' 3 0xFFFC ∧
      m'.registers.get .fp = m.registers.get .fp ∧ m'.memory.wordAt 0xFFFE = 0 := by
  have hd := hm.decodes .pshLit hn.isFlat (i := 0) (by decide) rfl rfl
  have hw : m.memory.wordAt ((m.moveTo (0 + 1)).registers.get .ip) = 0 := by
    rw [Machine.ip_moveTo]
    exact hm.wordAt (i := 1) (by decide) (by decide) (by decide)
  have hstep : Execution.step m = .ok false ((m.moveTo 3).pushed
      (m.memory.wordAt ((m.moveTo (0 + 1)).registers.get .ip))) := hd.step_flat hn.isFlat
  rw [hw] at hstep
  have hsp : (m.moveTo 3).registers.get .sp = 0xFFFE := by
    rw [m.get_moveTo_of_ne 3 (by decide), hm.sp]
  have hip : ((m.moveTo 3).pushed 0).registers.get .ip = 3 := by
    rw [Machine.get_pushed_of_ne _ _ (by decide), Machine.ip_moveTo]
  have hmem : ((m.moveTo 3).pushed 0).memory = m.memory.poke16 0xFFFE 0 := by
    rw [Machine.pushed, hsp]
    rfl
  refine ⟨_, hn.inside hd ?_ hstep, ⟨hm.isHalted, hip, ?_, ?_⟩, ?_, ?_⟩
  · exact ⟨not_saves_nil _, not_saves_nil _⟩
  · rw [Machine.sp_pushed, hsp]
    decide
  · rw [hmem]
    exact hm.code.congr fun b hb => hn.isFlat.byteAt_poke16_away (by decide) hb 0
  · rw [Machine.get_pushed_of_ne _ _ (by decide), m.get_moveTo_of_ne 3 (by decide)]
  · rw [hmem, hn.isFlat.wordAt_poke16_self]

/-- The call is made. -/
theorem exists_called (hn : Nested ⟨[], completed, returns⟩ m) (hm : AtLoop m 3 0xFFFC) :
    ∃ m', Nested ⟨[⟨m, completed⟩], 0, returns⟩ m' ∧ m.Calls 9 6 m' ∧ AtLoop m' 9 0xFFE8 := by
  have hd := hm.decodes .calLit hn.isFlat (i := 3) (by decide) rfl rfl
  have htarget : (Execution.argumentAt (m.moveTo (3 + 1)) .literal).value = 9 := by
    show m.memory.wordAt ((m.moveTo (3 + 1)).registers.get .ip) = 9
    rw [Machine.ip_moveTo]
    exact hm.wordAt (i := 4) (by decide) (by decide) (by decide)
  obtain ⟨hstep, hcalls⟩ := hd.step_call hn.isFlat (Or.inl rfl)
  have hbehind : (3 : Word) + UInt16.ofNat Opcode.calLit.size = 6 := by decide
  rw [htarget, hm.ip, hbehind] at hcalls
  rw [htarget, hbehind] at hstep
  have hncalled := hn.call (Or.inl rfl) hd (fun b _ => not_saves_nil b) hstep
  refine ⟨_, hncalled, hcalls, ?_, hcalls.ip, ?_, ?_⟩
  · rw [hcalls.isHalted, hm.isHalted]
  · rw [hcalls.sp, hm.sp]
    decide
  · refine hm.code.congr fun b hb => hcalls.frameRule b fun hblock => ?_
    -- the frame ends below the code
    have hlow : (b - 0).toNat < 10 := hb
    have hhigh : (b - (0xFFFC - 18)).toNat < 20 := by rwa [hm.sp] at hblock
    rw [UInt16.toNat_sub] at hlow hhigh
    have hstart : (0xFFFC - 18 : Word).toNat = 65514 := by decide
    have hzero : (0 : Word).toNat = 0 := by decide
    rw [hstart] at hhigh
    rw [hzero] at hlow
    have hb := b.toNat_lt
    omega

/-- The call returns. -/
theorem exists_returned {caller : Machine} (hn : Nested ⟨[⟨caller, completed⟩], 0, returns⟩ m)
    (hm : AtLoop m 9 0xFFE8) (hcalls : caller.Calls 9 6 m) (hsp : caller.registers.get .sp = 0xFFFC)
    (hcount : m.memory.wordAt 0xFFFE = 0) :
    ∃ m', Nested ⟨[], completed + 1, ⟨caller.registers.get .fp, m'.registers.get .fp, completed,
      0⟩ :: returns⟩ m' ∧ AtLoop m' 6 0xFFFE := by
  have hd := hm.decodes .ret hn.isFlat (i := 9) (by decide) rfl rfl
  have hfp : m.registers.get .fp = 0xFFE8 := by
    rw [hcalls.fp, hsp]
    decide
  have hplace : caller.registers.get .sp + 2 = 0xFFFE := by
    rw [hsp]
    decide
  have hsaved := hcalls.holdsWords_of_agree (fun _ _ => rfl) (by rw [hplace, hcount])
  have hreturns := hd.returns_of_holdsWords hn.isFlat hsaved
  refine ⟨_, hn.ret hd (hd.step_ret hn.isFlat), ?_, hreturns.ip, ?_, ?_⟩
  · rw [hreturns.isHalted, hm.isHalted]
  · rw [hreturns.sp, hfp]
    decide
  · rw [hreturns.memory]
    exact hm.code

/-- The loop starts over. -/
theorem exists_jumped (hn : Nested ⟨[], completed, returns⟩ m) (hm : AtLoop m 6 0xFFFE) :
    ∃ m', Nested ⟨[], completed, returns⟩ m' ∧ AtLoop m' 0 0xFFFE := by
  have hd := hm.decodes .jmpAddr hn.isFlat (i := 6) (by decide) rfl rfl
  have hw : m.memory.wordAt ((m.moveTo (6 + 1)).registers.get .ip) = 0 := by
    rw [Machine.ip_moveTo]
    exact hm.wordAt (i := 7) (by decide) (by decide) (by decide)
  have hstep : Execution.step m = .ok false ((m.moveTo 9).moveTo
      (m.memory.wordAt ((m.moveTo (6 + 1)).registers.get .ip))) := hd.step_flat hn.isFlat
  rw [hw, Machine.moveTo_moveTo] at hstep
  refine ⟨_, hn.inside hd trivial hstep, hm.isHalted, Machine.ip_moveTo _ _, ?_, hm.code⟩
  rw [m.get_moveTo_of_ne 0 (by decide), hm.sp]

/-- Once around the loop. -/
theorem exists_round (hn : Nested ⟨[], completed, returns⟩ m) (hm : AtLoop m 0 0xFFFE) :
    ∃ after m',
      Nested ⟨[], completed + 1, ⟨m.registers.get .fp, after, completed, 0⟩ :: returns⟩ m' ∧
        AtLoop m' 0 0xFFFE := by
  obtain ⟨pushed, hnpushed, hpushed, hfp, hcount⟩ := exists_pushed hn hm
  obtain ⟨called, hncalled, hcalls, hcalled⟩ := exists_called hnpushed hpushed
  have hcount' : called.memory.wordAt 0xFFFE = 0 := by
    have hplace : pushed.registers.get .sp + 2 = 0xFFFE := by
      rw [hpushed.sp]
      decide
    have hkept := hcalls.wordAt_count
    rwa [hplace, hcount] at hkept
  obtain ⟨returned, hnreturned, hreturned⟩ :=
    exists_returned hncalled hcalled hcalls hpushed.sp hcount'
  obtain ⟨jumped, hnjumped, hjumped⟩ := exists_jumped hnreturned hreturned
  rw [hfp] at hnjumped
  exact ⟨_, jumped, hnjumped, hjumped⟩

end AtLoop

namespace Nested

/-- The loop makes any number of calls, each of which returns before the next. -/
theorem exists_calls (k : Nat) :
    ∃ returns m, Nested ⟨[], k, returns⟩ m ∧ AtLoop m 0 0xFFFE ∧
      returns.map Return.earlier = (List.range k).reverse ∧ ∀ r ∈ returns, r.inner = 0 := by
  induction k with
  | zero =>
    have hflat := (isFlat_map_newRam false).pokeList 0 callLoop
    refine ⟨[], _, Nested.start hflat, ⟨rfl, ?_, ?_, ?_⟩, rfl, ?_⟩
    · show ((RegisterFile.zero.set .sp stackTop).set .fp stackTop).get .ip = 0
      decide
    · show ((RegisterFile.zero.set .sp stackTop).set .fp stackTop).get .sp = 0xFFFE
      decide
    · exact (isFlat_map_newRam false).holds_pokeList 0 (by decide)
    · exact List.forall_mem_nil _
  | succ k ih =>
    obtain ⟨returns, m, hn, hm, hearlier, hinner⟩ := ih
    obtain ⟨after, m', hn', hm'⟩ := AtLoop.exists_round hn hm
    refine ⟨_, m', hn', hm', ?_, List.forall_mem_cons.mpr ⟨rfl, hinner⟩⟩
    rw [List.map_cons, hearlier, List.range_succ, List.reverse_append]
    rfl

/-- There is no bound on how far a frame pointer moves: the calls of one frame take it around
the whole address space. -/
theorem exists_fp_moved (k : Nat) :
    ∃ returns m, Nested ⟨[], k + 1, returns⟩ m ∧
      m.registers.get .fp = stackTop + 2 * UInt16.ofNat k := by
  obtain ⟨returns, m, hn, -, -, hinner⟩ := exists_calls (k + 1)
  refine ⟨returns, m, hn, ?_⟩
  have hregular := hn.regular fun r hr => by
    rw [hinner r hr]
    exact Nat.zero_le 1
  exact hregular.current.fp

/-- The second of two calls in a row moves the frame pointer of the caller. -/
theorem fp_moved_by_second_call :
    ∃ returns m, Nested ⟨[], 2, returns⟩ m ∧ returns.map Return.earlier = [1, 0] ∧
      ¬ (∀ r ∈ returns, r.after = r.before) ∧
      m.registers.get .sp + m.frameSize = m.registers.get .fp + 2 := by
  obtain ⟨returns, m, hn, -, hearlier, hinner⟩ := exists_calls 2
  have hone : ∀ r ∈ returns, r.inner ≤ 1 := by
    intro r hr
    rw [hinner r hr]
    exact Nat.zero_le 1
  obtain ⟨hiff, hsum⟩ := hn.fp_restored_iff
  refine ⟨returns, m, hn, hearlier, fun hrestored => ?_, (hsum hone).2⟩
  -- the return that came second is not the first
  have hmem : 1 ∈ returns.map Return.earlier := by
    rw [hearlier]
    exact List.mem_cons_self ..
  obtain ⟨r, hr, hr1⟩ := List.mem_map.mp hmem
  exact absurd (hr1.symm.trans (hiff.mp hrestored r hr)) (by decide)

end Nested
end WordMachine
