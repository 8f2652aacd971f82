import Mathlib.Data.Nat.Find
import WordMachine.Proofs.Machine.Lockstep

/-!
# Steps, bounded runs and runs under a token

A machine can be driven in three ways: step by step, for a number of steps, and in slices under
a stop token.  All three go through one sequence of states, `Machine.afterSteps`, which is
defined by the step alone and goes on also behind a step that has failed or has halted the
machine.  What the other two add is where in this sequence they stop, and what they answer.

A bounded run stops behind the first step that ends it, if that is among its steps.  A run under
a token looks at the token only where a slice begins.  So there are two ends that compete: the
first ending step, with the number `h`, and the first slice that begins with the token
triggered, with the number `k`.  The step comes first if `h ≤ 1024 * k`: a machine that halts
with the last step of a slice has halted, and the token is not looked at again.

The sequence is cut into slices by one law (`Machine.run_slices`): as long as no slice begins
with the token triggered and no step ends the run, a run is as good as one that starts that many
slices later.

* `Machine.EndsAt`, `Machine.StopsAt`: the two ends of a run.
* `Machine.runFor_add`: two bounded runs, one after the other.
* `Machine.scheduled`: the three ways to drive a machine agree.
-/

namespace WordMachine

/-- The answer of a run together with the machine that it leaves behind. -/
def settle (answer : Except MemoryError RunState) (m : Machine) :
    EStateM.Result MemoryError Machine RunState :=
  match answer with
  | .ok state => .ok state m
  | .error e => .error e m

namespace Machine

open Execution

/-- How the next step ends a run, if it does: the machine has halted, or an access fails. -/
def ending? (m : Machine) : Option (Except MemoryError RunState) :=
  match step m with
  | .ok false _ => none
  | .ok true _ => some (.ok .halted)
  | .error e _ => some (.error e)

/-- The step with the number `h`, counted from one, is the first that ends a run. -/
structure EndsAt (m : Machine) (h : Nat) (answer : Except MemoryError RunState) : Prop where
  before : ∀ i, i + 1 < h → (m.afterSteps i).ending? = none
  last : ∃ i, h = i + 1 ∧ (m.afterSteps i).ending? = some answer

/-- The token is triggered in the machine as it is. -/
def Sees (m : Machine) (token : StopToken) : Prop := m.memory.panel.isTriggered token = true

/-- The slice with the number `k`, counted from zero, is the first that begins with the token
triggered. -/
structure StopsAt (m : Machine) (token : StopToken) (k : Nat) : Prop where
  before : ∀ j < k, ¬ (m.afterSteps (sliceLength * j)).Sees token
  seen : (m.afterSteps (sliceLength * k)).Sees token

instance (m : Machine) (token : StopToken) : Decidable (m.Sees token) :=
  inferInstanceAs (Decidable (_ = true))

/-- One of the three ways in which a host drives a machine. -/
inductive Drive where
  | step
  | runFor (steps : Nat)
  | run (token : StopToken) (slices : Nat)

/-- The machine that the host has then. -/
def Drive.drive (m : Machine) : Drive → Machine
  | .step => m.after Execution.step
  | .runFor steps => m.after (Execution.runFor steps)
  | .run token slices => m.after (Execution.run token slices)

variable {m : Machine} {token : StopToken} {answer : Except MemoryError RunState} {h i j n : Nat}

/-! ## The first ending step and the first slice with the token triggered -/

theorem EndsAt.pos (hends : m.EndsAt h answer) : 0 < h := by
  obtain ⟨i, rfl, -⟩ := hends.last
  exact Nat.succ_pos i

/-- A machine that has taken steps which do not end the run has fewer steps to go. -/
theorem EndsAt.afterSteps (hends : m.EndsAt (i + h) answer) (hpos : 0 < h) :
    (m.afterSteps i).EndsAt h answer := by
  refine ⟨fun j hj => ?_, h - 1, (Nat.sub_add_cancel hpos).symm, ?_⟩
  · rw [← afterSteps_add]
    exact hends.before (i + j) (by omega)
  · obtain ⟨last, hlast, hanswer⟩ := hends.last
    rw [← afterSteps_add]
    rwa [show i + (h - 1) = last by omega]

/-- If some step ends a run, a first step does. -/
theorem exists_endsAt (hend : (m.afterSteps i).ending? ≠ none) :
    ∃ h answer, h ≤ i + 1 ∧ m.EndsAt h answer := by
  have hsome : ∃ j, ((m.afterSteps j).ending?).isSome = true :=
    ⟨i, Option.isSome_iff_ne_none.mpr hend⟩
  obtain ⟨answer, hanswer⟩ := Option.isSome_iff_exists.mp (Nat.find_spec hsome)
  refine ⟨Nat.find hsome + 1, answer, ?_, fun j hj => ?_, Nat.find hsome, rfl, hanswer⟩
  · exact Nat.succ_le_succ (Nat.find_le (Option.isSome_iff_ne_none.mpr hend))
  · have hmin := Nat.find_min hsome (Nat.lt_of_succ_lt_succ hj)
    rwa [Option.isSome_iff_ne_none, not_not] at hmin

/-- If some slice begins with the token triggered, a first slice does. -/
theorem exists_stopsAt (hseen : (m.afterSteps (sliceLength * j)).Sees token) :
    ∃ k ≤ j, m.StopsAt token k := by
  have hsome : ∃ j, (m.afterSteps (sliceLength * j)).Sees token := ⟨j, hseen⟩
  exact ⟨Nat.find hsome, Nat.find_le hseen, fun _ => Nat.find_min hsome, Nat.find_spec hsome⟩

/-! ## Bounded runs -/

/-- A step ends a run by halting or by failing, and not by having steps left. -/
theorem ending?_cases (hend : m.ending? = some answer) :
    answer = .ok .halted ∨ ∃ e, answer = .error e := by
  unfold ending? at hend
  split at hend
  · exact nomatch hend
  · exact .inl (Option.some.inj hend).symm
  · exact .inr ⟨_, (Option.some.inj hend).symm⟩

/-- A bounded run is its first step and, if that does not end it, the run from there. -/
theorem runFor_succ (n : Nat) (m : Machine) :
    runFor (n + 1) m =
      match m.ending? with
      | some answer => settle answer (m.after step)
      | none => runFor n (m.after step) := by
  change (step >>= fun halted => if halted then pure .halted else runFor n) m = _
  rw [bind_apply, ending?, after]
  cases step m with
  | ok halted m' => cases halted <;> rfl
  | error e m' => rfl

/-- Two bounded runs, one after the other. -/
theorem runFor_add (i j : Nat) (m : Machine) :
    runFor (i + j) m =
      match runFor i m with
      | .ok .running m' => runFor j m'
      | finished => finished := by
  induction i generalizing m with
  | zero =>
    rw [Nat.zero_add]
    rfl
  | succ i ih =>
    rw [Nat.succ_add, runFor_succ, runFor_succ]
    cases hend : m.ending? with
    | none => exact ih _
    | some answer =>
      rcases ending?_cases hend with rfl | ⟨e, rfl⟩ <;> rfl

/-- A run of which no step is an ending one takes all its steps. -/
theorem runFor_of_none (hnone : ∀ i < n, (m.afterSteps i).ending? = none) :
    runFor n m = .ok .running (m.afterSteps n) := by
  induction n with
  | zero => rfl
  | succ n ih =>
    rw [runFor_add, ih fun i hi => hnone i (Nat.lt_succ_of_lt hi)]
    change runFor (0 + 1) (m.afterSteps n) = _
    rw [runFor_succ, hnone n (Nat.lt_succ_self n)]
    rfl

/-- A run that is long enough stops behind the first ending step. -/
theorem runFor_of_endsAt (hends : m.EndsAt h answer) (hn : h ≤ n) :
    runFor n m = settle answer (m.afterSteps h) := by
  obtain ⟨i, rfl, hanswer⟩ := hends.last
  obtain ⟨rest, rfl⟩ := Nat.exists_eq_add_of_le hn
  have hnone : runFor i m = .ok .running (m.afterSteps i) :=
    runFor_of_none fun j hj => hends.before j (Nat.succ_lt_succ hj)
  rw [Nat.add_assoc, Nat.add_comm 1, runFor_add, hnone]
  dsimp only
  rw [runFor_succ, hanswer]
  rfl

/-! ## Runs under a token -/

/-- Once triggered, a token stays so. -/
theorem kept_isTriggered (token : StopToken) :
    AddressSpace.Kept fun s => s.panel.isTriggered token = true where
  observe {s} hs a request := by
    unfold AddressSpace.observe
    split
    · exact hs
    · rename_i r _
      exact r.device.isTriggered_observe _ hs
  poke8 hs _ _ := hs
  poke16 hs _ _ := hs

theorem Sees.afterSteps (hsees : m.Sees token) (k : Nat) : (m.afterSteps k).Sees token :=
  (kept_isTriggered token).afterSteps hsees k

/-- A run under a token is its first slice, unless that begins with the token triggered. -/
theorem run_succ (token : StopToken) (slices : Nat) (m : Machine) :
    run token (slices + 1) m =
      if m.Sees token then .ok .stopped m
      else
        match runFor sliceLength m with
        | .ok .running m' => run token slices m'
        | finished => finished := by
  rw [run, bind_apply, show Execution.isTriggered token m =
    .ok (m.memory.panel.isTriggered token) m from rfl]
  by_cases hsees : m.Sees token
  · rw [if_pos hsees, show m.memory.panel.isTriggered token = true from hsees]
    rfl
  · rw [if_neg hsees, Bool.eq_false_iff.mpr hsees]
    show (runFor sliceLength >>= _) m = _
    rw [bind_apply]
    cases runFor sliceLength m with
    | ok state m' => cases state <;> rfl
    | error e m' => rfl

/-- Slices in which nothing happens that ends a run may be taken away from it. -/
theorem run_slices {slices : Nat} (hunseen : ∀ j < slices,
      ¬ (m.afterSteps (sliceLength * j)).Sees token)
    (hnone : ∀ i < sliceLength * slices, (m.afterSteps i).ending? = none) (rest : Nat) :
    run token (slices + rest) m = run token rest (m.afterSteps (sliceLength * slices)) := by
  induction slices generalizing rest with
  | zero =>
    rw [Nat.zero_add]
    rfl
  | succ slices ih =>
    have hlength : sliceLength * (slices + 1) = sliceLength * slices + sliceLength :=
      Nat.mul_succ _ _
    have hslice : runFor sliceLength (m.afterSteps (sliceLength * slices)) =
        .ok .running (m.afterSteps (sliceLength * (slices + 1))) := by
      rw [hlength, afterSteps_add]
      refine runFor_of_none fun i hi => ?_
      rw [← afterSteps_add]
      exact hnone _ (by omega)
    rw [Nat.add_assoc, Nat.add_comm 1,
      ih (fun j hj => hunseen j (Nat.lt_succ_of_lt hj)) fun i hi => hnone i (by omega),
      run_succ, if_neg (hunseen slices (Nat.lt_succ_self _)), hslice]

/-- If no step ends the run before the first slice that begins with the token triggered, the
run stops there. -/
theorem run_of_stopsAt {k : Nat} (hstops : m.StopsAt token k)
    (hends : ∀ h answer, m.EndsAt h answer → sliceLength * k < h) (slices : Nat) :
    run token slices m =
      if slices ≤ k then .ok .running (m.afterSteps (sliceLength * slices))
      else .ok .stopped (m.afterSteps (sliceLength * k)) := by
  have hnone (i : Nat) (hi : i < sliceLength * k) : (m.afterSteps i).ending? = none := by
    by_contra hend
    obtain ⟨h, answer, hle, hat⟩ := exists_endsAt hend
    exact absurd (hends h answer hat) (by omega)
  split
  · rename_i hle
    have hmul := Nat.mul_le_mul_left sliceLength hle
    exact run_slices (fun j hj => hstops.before j (Nat.lt_of_lt_of_le hj hle))
      (fun i hi => hnone i (Nat.lt_of_lt_of_le hi hmul)) 0
  · rename_i hlt
    obtain ⟨rest, rfl⟩ := Nat.exists_eq_add_of_lt (Nat.lt_of_not_le hlt)
    rw [Nat.add_assoc, run_slices hstops.before hnone, run_succ, if_pos hstops.seen]

/-- Every step lies in a slice. -/
theorem exists_slice (hpos : 0 < h) : ∃ q, sliceLength * q < h ∧ h ≤ sliceLength * (q + 1) := by
  have hdiv := Nat.div_add_mod (h - 1) sliceLength
  have hmod := Nat.mod_lt (h - 1) (show 0 < sliceLength by decide)
  refine ⟨(h - 1) / sliceLength, by omega, ?_⟩
  rw [Nat.mul_succ]
  omega

/-- If the first ending step comes before the first slice that begins with the token triggered,
or with the last step in front of that slice, the run ends as this step does. -/
theorem run_of_endsAt (hends : m.EndsAt h answer)
    (hstops : ∀ k, m.StopsAt token k → h ≤ sliceLength * k) (slices : Nat) :
    run token slices m =
      if h ≤ sliceLength * slices then settle answer (m.afterSteps h)
      else .ok .running (m.afterSteps (sliceLength * slices)) := by
  have hunseen (j : Nat) (hj : sliceLength * j < h) :
      ¬ (m.afterSteps (sliceLength * j)).Sees token := by
    intro hseen
    obtain ⟨k, hk, hat⟩ := exists_stopsAt hseen
    have hmul := Nat.mul_le_mul_left sliceLength hk
    exact absurd (hstops k hat) (by omega)
  split
  · rename_i hle
    -- `q` slices are over when the slice begins in which the run ends
    obtain ⟨q, hlow, hhigh⟩ := exists_slice hends.pos
    obtain ⟨rest, rfl⟩ : ∃ rest, slices = q + (rest + 1) := by
      have hlt : q < slices := Nat.lt_of_mul_lt_mul_left (Nat.lt_of_lt_of_le hlow hle)
      exact ⟨slices - q - 1, by omega⟩
    obtain ⟨steps, rfl⟩ := Nat.exists_eq_add_of_lt hlow
    have hrest : (m.afterSteps (sliceLength * q)).EndsAt (steps + 1) answer :=
      EndsAt.afterSteps (h := steps + 1) hends (Nat.succ_pos steps)
    rw [Nat.mul_succ] at hhigh
    rw [run_slices (fun j hj => hunseen j ?_) fun i hi => hends.before i (by omega), run_succ,
      if_neg (hunseen q hlow), runFor_of_endsAt hrest (by omega), ← afterSteps_add]
    · obtain ⟨i, -, hanswer⟩ := hends.last
      rcases ending?_cases hanswer with rfl | ⟨e, rfl⟩ <;> rfl
    · have hmul := Nat.mul_le_mul_left sliceLength (Nat.succ_le_of_lt hj)
      rw [Nat.mul_succ] at hmul
      have hpos : 0 < sliceLength := by decide
      omega
  · rename_i hlt
    refine run_slices (fun j hj => hunseen j ?_) (fun i hi => hends.before i (by omega)) 0
    have hmul := Nat.mul_le_mul_left sliceLength (Nat.le_of_lt hj)
    omega

/-! ## Machines that have halted -/

/-- The step that answers so has halted the machine. -/
theorem isHalted_of_step {m' : Machine} (hstep : step m = .ok true m') : m'.isHalted = true := by
  cases hrun : m.isHalted with
  | true =>
    rw [step_of_halted hrun] at hstep
    obtain ⟨-, rfl⟩ := EStateM.Result.ok.inj hstep
    exact hrun
  | false =>
    rcases executed_of_step hrun hstep with
      ⟨b, -, -, hno, -⟩ | ⟨opcode, args, -, -, hhlt, hperform⟩
    · exact nomatch hno
    · obtain rfl : opcode = .hlt := eq_of_beq hhlt.symm
      obtain ⟨-, rfl⟩ := EStateM.Result.ok.inj hperform
      rfl

theorem EndsAt.isHalted (hends : m.EndsAt h (.ok .halted)) :
    (m.afterSteps h).isHalted = true := by
  obtain ⟨i, rfl, hanswer⟩ := hends.last
  rw [Machine.afterSteps]
  unfold ending? at hanswer
  split at hanswer
  · cases hanswer
  · rename_i m' hstep
    rw [after_of_ok hstep]
    exact isHalted_of_step hstep
  · cases hanswer

section Halted

variable (hhalted : m.isHalted = true)
include hhalted

theorem runFor_of_halted (n : Nat) :
    runFor n m = .ok (if n = 0 then .running else .halted) m := by
  cases n with
  | zero => rfl
  | succ n =>
    rw [runFor_succ, ending?, after, step_of_halted hhalted, if_neg (Nat.succ_ne_zero n)]
    rfl

/-- However a machine is driven that has halted, it stays as it is. -/
theorem drive_of_halted (d : Drive) : d.drive m = m := by
  cases d with
  | step => exact after_of_ok (step_of_halted hhalted)
  | runFor steps => exact after_of_ok (runFor_of_halted hhalted steps)
  | run token slices =>
    cases slices with
    | zero => rfl
    | succ slices =>
      by_cases hsees : m.Sees token
      · exact after_of_ok (a := .stopped) (by rw [run_succ, if_pos hsees])
      · refine after_of_ok (a := .halted) ?_
        rw [run_succ, if_neg hsees, runFor_of_halted hhalted]
        rfl

end Halted

/-! ## The three ways to drive a machine -/

theorem exists_afterSteps_runFor (n : Nat) (m : Machine) :
    ∃ k, m.after (runFor n) = m.afterSteps k := by
  induction n generalizing m with
  | zero => exact ⟨0, rfl⟩
  | succ n ih =>
    rw [after, runFor_succ]
    cases m.ending? with
    | none =>
      obtain ⟨k, hk⟩ := ih (m.after step)
      exact ⟨1 + k, hk.trans (afterSteps_add m 1 k).symm⟩
    | some answer => cases answer <;> exact ⟨1, rfl⟩

theorem exists_afterSteps_run (token : StopToken) (slices : Nat) (m : Machine) :
    ∃ k, m.after (run token slices) = m.afterSteps k := by
  induction slices generalizing m with
  | zero => exact ⟨0, rfl⟩
  | succ slices ih =>
    obtain ⟨i, hi⟩ := exists_afterSteps_runFor sliceLength m
    rw [after] at hi ⊢
    rw [run_succ]
    split_ifs
    · exact ⟨0, rfl⟩
    · cases hslice : runFor sliceLength m with
      | error e m' =>
        rw [hslice] at hi
        exact ⟨i, hi⟩
      | ok state m' =>
        rw [hslice] at hi
        cases state with
        | running =>
          obtain ⟨j, hj⟩ := ih m'
          refine ⟨i + j, ?_⟩
          rw [afterSteps_add, ← hi]
          exact hj
        | halted | stopped => exact ⟨i, hi⟩

/-- However a machine is driven, it comes to one of the states of its steps. -/
theorem exists_afterSteps (drives : List Drive) (m : Machine) :
    ∃ k, drives.foldl Drive.drive m = m.afterSteps k := by
  induction drives generalizing m with
  | nil => exact ⟨0, rfl⟩
  | cons d drives ih =>
    obtain ⟨i, hi⟩ : ∃ i, d.drive m = m.afterSteps i := by
      cases d with
      | step => exact ⟨1, rfl⟩
      | runFor n => exact exists_afterSteps_runFor n m
      | run token slices => exact exists_afterSteps_run token slices m
    obtain ⟨j, hj⟩ := ih (d.drive m)
    refine ⟨i + j, ?_⟩
    rw [afterSteps_add, ← hi]
    exact hj

/-- Bounded runs and runs under a token are the steps of the machine, up to where they end. -/
structure Scheduled (m : Machine) : Prop where
  /-- A bounded run ends behind the first ending step, if it gets as far. -/
  runFor_ends : ∀ h answer, m.EndsAt h answer → ∀ n,
    runFor n m =
      if h ≤ n then settle answer (m.afterSteps h) else .ok .running (m.afterSteps n)
  runFor_never : (∀ h answer, ¬ m.EndsAt h answer) → ∀ n,
    runFor n m = .ok .running (m.afterSteps n)
  /-- A bounded run can be taken up where it has run out of steps. -/
  runFor_add : ∀ i j, runFor (i + j) m =
    match runFor i m with
    | .ok .running m' => runFor j m'
    | finished => finished
  /-- A token that has been triggered stays so. -/
  sees : ∀ token i, (m.afterSteps i).Sees token → ∀ j, (m.afterSteps (i + j)).Sees token
  /-- A run under a token ends in front of the first slice that begins with the token
  triggered, if no step up to there ends it. -/
  run_stops : ∀ token k, m.StopsAt token k →
    (∀ h answer, m.EndsAt h answer → sliceLength * k < h) → ∀ slices,
    run token slices m =
      if slices ≤ k then .ok .running (m.afterSteps (sliceLength * slices))
      else .ok .stopped (m.afterSteps (sliceLength * k))
  /-- Otherwise it ends behind the first ending step. -/
  run_ends : ∀ token h answer, m.EndsAt h answer →
    (∀ k, m.StopsAt token k → h ≤ sliceLength * k) → ∀ slices,
    run token slices m =
      if h ≤ sliceLength * slices then settle answer (m.afterSteps h)
      else .ok .running (m.afterSteps (sliceLength * slices))
  run_never : ∀ token, (∀ h answer, ¬ m.EndsAt h answer) → (∀ k, ¬ m.StopsAt token k) →
    ∀ slices, run token slices m = .ok .running (m.afterSteps (sliceLength * slices))
  /-- A run that answers that the machine has halted leaves it halted. -/
  halted : ∀ h, m.EndsAt h (.ok .halted) → (m.afterSteps h).isHalted = true
  /-- A machine that has halted stays as it is, however it is driven. -/
  stays : m.isHalted = true →
    (∀ drives : List Drive, drives.foldl Drive.drive m = m) ∧ step m = .ok true m ∧
      ∀ n, runFor n m = .ok (if n = 0 then .running else .halted) m

/-- Driving a machine in steps, in bounded runs or under a token is the same thing. -/
theorem scheduled (m : Machine) : m.Scheduled where
  runFor_ends h answer hends n := by
    split
    · rename_i hle
      exact runFor_of_endsAt hends hle
    · exact runFor_of_none fun i hi => hends.before i (by omega)
  runFor_never hnever n := by
    refine runFor_of_none fun i _ => ?_
    by_contra hend
    obtain ⟨h, answer, -, hends⟩ := exists_endsAt hend
    exact hnever h answer hends
  runFor_add i j := runFor_add i j m
  sees token i hsees j := by
    rw [afterSteps_add]
    exact hsees.afterSteps j
  run_stops token k hstops hends slices := run_of_stopsAt hstops hends slices
  run_ends token h answer hends hstops slices := run_of_endsAt hends hstops slices
  run_never token hnever hunseen slices := by
    refine run_slices (fun j _ hseen => ?_) (fun i _ => ?_) 0
    · obtain ⟨k, -, hstops⟩ := exists_stopsAt hseen
      exact hunseen k hstops
    · by_contra hend
      obtain ⟨h, answer, -, hends⟩ := exists_endsAt hend
      exact hnever h answer hends
  halted h hends := hends.isHalted
  stays hhalted := by
    refine ⟨fun drives => ?_, step_of_halted hhalted, runFor_of_halted hhalted⟩
    induction drives with
    | nil => rfl
    | cons d drives ih =>
      rw [List.foldl_cons, drive_of_halted hhalted]
      exact ih

/-- A machine with a ROM in which a store to a stopper stands in front of the given code. -/
def storing (code : List Byte) : Machine :=
  let rom := (AddressSpace.empty.map (.newRom ([0x19, 0x00, 0x01, 0x00] ++ code)) 0 0x100 false).2
  .new (rom.map (.stopper ⟨0⟩) 0x100 1 false).2

/-- The machine that counts in `r1` behind the store. -/
def counting : Machine :=
  storing [Opcode.incReg.byte, Register.r1.slot, Opcode.jmpAddr.byte, 0x00, 0x04]

/-- The machine that halts behind the store. -/
def halting : Machine := storing [0xFF]

/-- The counting machine when it has counted up to a word and stands at an address. -/
def counted (w a : Word) : Machine :=
  { counting.afterSteps 1 with
    registers := ((counting.afterSteps 1).registers.set .r1 w).set .ip a }

theorem ip_counted (w a : Word) : (counted w a).registers.get .ip = a :=
  RegisterFile.get_set_self _ _ _

theorem moveTo_counted (w a b : Word) : (counted w a).moveTo b = counted w b := by
  rw [counted, moveTo, RegisterFile.set_set]
  rfl

/-- What is read of the code is read whatever has been counted. -/
theorem fetch8_counted {w a : Word} {b : Byte}
    (h : MemoryAction.read8 a (counted w a).memory = .ok b (counted w a).memory) :
    fetch8 (counted w a) = .ok b (counted w (a + 1)) := by
  rw [fetch8_apply, ip_counted, h]
  exact congrArg (EStateM.Result.ok b) (moveTo_counted w a (a + 1))

theorem fetch16_counted {w a v : Word}
    (h : MemoryAction.read16 a (counted w a).memory = .ok v (counted w a).memory) :
    fetch16 (counted w a) = .ok v (counted w (a + 2)) := by
  rw [fetch16_apply, ip_counted, h]
  exact congrArg (EStateM.Result.ok v) (moveTo_counted w a (a + 2))

theorem step_counted_inc (w : Word) : step (counted w 4) = .ok false (counted (w + 1) 6) := by
  have hregister : fetchRegister (counted w 5) = .ok .r1 (counted w 6) := by
    rw [fetchRegister, bind_apply, fetch8_counted rfl]
    rfl
  have hget : (counted w 6).registers.get .r1 = w := by
    rw [counted, RegisterFile.get_set_of_ne _ (by decide), RegisterFile.get_set_self]
  have hset : (counted w 6).registers.set .r1 (w + 1) = (counted (w + 1) 6).registers := by
    rw [counted, RegisterFile.set_comm _ (by decide), RegisterFile.set_set]
    rfl
  rw [step_of_running rfl, bind_apply, fetch8_counted rfl]
  show (dispatch .incReg >>= _) (counted w 5) = _
  rw [bind_apply, dispatch, bind_apply, hregister]
  show EStateM.Result.ok false { counted w 6 with
    registers := (counted w 6).registers.set .r1 ((counted w 6).registers.get .r1 + 1) } = _
  rw [hget, hset]
  rfl

theorem step_counted_jmp (w : Word) : step (counted w 6) = .ok false (counted w 4) := by
  rw [step_of_running rfl, bind_apply, fetch8_counted rfl]
  show (dispatch .jmpAddr >>= _) (counted w 7) = _
  rw [bind_apply, dispatch, bind_apply, fetch16_counted rfl]
  exact congrArg (EStateM.Result.ok false) (moveTo_counted w _ 4)

/-- The steps behind the store count and jump by turns. -/
theorem afterSteps_counting (k : Nat) :
    counting.afterSteps (2 * k + 1) = counted (UInt16.ofNat k) 4 ∧
      counting.afterSteps (2 * k + 2) = counted (UInt16.ofNat (k + 1)) 6 := by
  have hinc {i k : Nat} (h : counting.afterSteps i = counted (UInt16.ofNat k) 4) :
      counting.afterSteps (i + 1) = counted (UInt16.ofNat (k + 1)) 6 := by
    rw [afterSteps, h, UInt16.ofNat_add]
    exact after_of_ok (step_counted_inc _)
  induction k with
  | zero =>
    have hstored : counting.afterSteps 1 = counted (UInt16.ofNat 0) 4 := rfl
    exact ⟨hstored, hinc hstored⟩
  | succ k ih =>
    have hjmp : counting.afterSteps (2 * (k + 1) + 1) = counted (UInt16.ofNat (k + 1)) 4 := by
      rw [Nat.mul_succ, afterSteps, ih.2]
      exact after_of_ok (step_counted_jmp _)
    exact ⟨hjmp, hinc hjmp⟩

/-- Counting does not come to an end. -/
theorem ending?_counting (i : Nat) : (counting.afterSteps i).ending? = none := by
  obtain ⟨k, rfl | rfl | rfl⟩ : ∃ k, i = 0 ∨ i = 2 * k + 1 ∨ i = 2 * k + 2 :=
    ⟨(i - 1) / 2, by omega⟩
  · rfl
  · rw [(afterSteps_counting k).1, ending?, step_counted_inc]
  · rw [(afterSteps_counting k).2, ending?, step_counted_jmp]

/-- The store triggers the token in the first slice of 1024 steps.  The machine that counts is
stopped behind that slice, when it has counted to 512 and is about to jump, and the one that halts
has halted behind its second step. -/
theorem scheduled_storing :
    run ⟨0⟩ 1 counting = .ok .running (counted 512 6) ∧
      run ⟨0⟩ 2 counting = .ok .stopped (counted 512 6) ∧
      run ⟨0⟩ 2 halting = .ok .halted (halting.afterSteps 2) := by
  have hslice : counting.afterSteps (sliceLength * 1) = counted 512 6 := (afterSteps_counting 511).2
  have hstops : counting.StopsAt ⟨0⟩ 1 := by
    refine ⟨fun j hj => ?_, ?_⟩
    · obtain rfl : j = 0 := Nat.lt_one_iff.mp hj
      decide
    · rw [hslice]
      exact (rfl : (counting.afterSteps 1).memory.panel.isTriggered ⟨0⟩ = true)
  have hnever (h : Nat) (answer : Except MemoryError RunState)
      (hends : counting.EndsAt h answer) : sliceLength * 1 < h := by
    obtain ⟨i, rfl, hanswer⟩ := hends.last
    exact nomatch (ending?_counting i).symm.trans hanswer
  have hends : halting.EndsAt 2 (.ok .halted) := by
    refine ⟨fun i hi => ?_, 1, rfl, rfl⟩
    obtain rfl : i = 0 := by omega
    rfl
  have hlate (k : Nat) (hstops : halting.StopsAt ⟨0⟩ k) : 2 ≤ sliceLength * k := by
    cases k with
    | zero => exact absurd hstops.seen (by decide)
    | succ k =>
      rw [Nat.mul_succ]
      exact Nat.le_add_left_of_le (by decide)
  refine ⟨?_, ?_, halting.scheduled.run_ends ⟨0⟩ 2 _ hends hlate 2⟩
  · rw [counting.scheduled.run_stops ⟨0⟩ 1 hstops hnever 1, ← hslice]
    rfl
  · rw [counting.scheduled.run_stops ⟨0⟩ 1 hstops hnever 2, ← hslice]
    rfl

end Machine
end WordMachine
