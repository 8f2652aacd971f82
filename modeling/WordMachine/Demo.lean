import WordMachine.Assembly.Module
import WordMachine.Machine.Run
import WordMachine.Machine.StateTable

/-!
# The demonstration

A small program counts a word in memory down from ten and adds three to `r2` each
time around.  The demonstration assembles it, lists the module in hexadecimal and
in binary, runs it on a machine with memory at every address and shows the state
that the machine has reached.
-/

namespace WordMachine
namespace Demo

/-- The program. -/
def countdown : String := "
start:
  mov $0A, &0050
loop:
  mov &0050, acc
  dec acc
  mov acc, &0050
  inc r2
  inc r2
  inc r2
  jne $00, &[!loop]
end:
  hlt
"

/-- What a run of the demonstration has to show: its exit status and the texts for
the two streams of output. -/
structure Report where
  status : UInt32
  out : String
  err : String
  deriving DecidableEq, Repr

/-- The address space of a machine with memory at every address. -/
def fullMemory : AddressSpace :=
  (AddressSpace.empty.map (.newRam addressCount) 0 addressCount true).2

/-- The listing of a module with which the demonstration begins. -/
def listing (m : Module) : String :=
  m.text ++ "\n\n" ++ "Binary:\n" ++ m.render .binary ++ "\n\n"

/-- How many slices the run may take.  The countdown halts within the first. -/
def slices : Nat := 1

/-- Loads a module and runs it under a token that nobody triggers. -/
def loadAndRun (m : Module) : Execution RunState := do
  Execution.onMemory (.load m.loadOffset m.code)
  Execution.run Panel.initial.newToken.1 slices

/-- The report for a program. -/
def report (source : String) : Report :=
  match Module.assemble source 0 with
  | .error e => ⟨1, "", "Assembly failed: " ++ e.message ++ "\n"⟩
  | .ok m =>
    match loadAndRun m (Machine.new fullMemory) with
    | .ok state s =>
      ⟨0, listing m ++ "Finished: " ++ state.name ++ "\n" ++ s.stateTable ++ "\n", ""⟩
    | .error e s =>
      ⟨1, listing m, "Execution failed: " ++ e.message ++ "\n" ++ s.stateTable ++ "\n"⟩

end Demo
end WordMachine
