import WordMachine.Machine.Dispatch

/-!
# Steps and runs

A step fetches one byte and executes the instruction that it means.  A byte that
means no instruction is passed over.  A step answers whether the machine has
halted; a machine that has halted takes no further steps.

A run is a number of steps.  It ends early when the machine halts or an access
fails.  A run under a stop token goes in slices of a fixed number of steps and
looks at the token before each slice, so an instruction is never left half done,
and up to a whole slice may still be executed after the token has been triggered.
A program need not end, so the number of slices is bounded too; a run for which
the bound was too small answers `running` and can be taken up where it stopped.
-/

namespace WordMachine

/-- How a run has ended. -/
inductive RunState where
  /-- The machine has halted. -/
  | halted
  /-- The stop token was triggered. -/
  | stopped
  /-- The steps ran out. -/
  | running
  deriving DecidableEq, Repr

/-- The name of the way a run has ended. -/
def RunState.name : RunState → String
  | .halted => "Halted"
  | .stopped => "Stopped"
  | .running => "Running"

namespace Execution

/-- Whether the machine has halted. -/
def isHalted : Execution Bool := fun m => .ok m.isHalted m

/-- Executes one instruction and answers whether the machine has halted. -/
def step : Execution Bool := do
  if ← isHalted then
    pure true
  else
    let b ← fetch8
    execute b

/-- Executes at most a number of instructions. -/
def runFor : Nat → Execution RunState
  | 0 => pure .running
  | n + 1 => do
    if ← step then
      pure .halted
    else
      runFor n

/-- How many instructions are executed between two looks at a stop token. -/
def sliceLength : Nat := 1024

/-- Whether a token has been triggered. -/
def isTriggered (token : StopToken) : Execution Bool := fun m =>
  .ok (m.memory.panel.isTriggered token) m

/-- Executes at most a number of slices, unless the token is triggered before. -/
def run (token : StopToken) : Nat → Execution RunState
  | 0 => pure .running
  | slices + 1 => do
    if ← isTriggered token then
      pure .stopped
    else
      match ← runFor sliceLength with
      | .running => run token slices
      | finished => pure finished

end Execution
end WordMachine
