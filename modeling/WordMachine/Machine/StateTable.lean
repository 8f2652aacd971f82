import WordMachine.Machine.Basic
import WordMachine.Text.Grid

/-!
# The state table

The state of a machine is shown as two tables side by side: the registers, and the
words of the stack from `sp` upward.  At most eight words are shown, and none past
the end of the address space.  A word where nothing is mapped is shown as two
dashes.

The table is a view of the machine from outside.  Looking at a word is not a request
to the device that holds it: no recording device sees it, and the machine is the
same afterwards.
-/

namespace WordMachine

/-- The most words of the stack that are shown. -/
def stackWindow : Nat := 8

/-- The addresses that are shown: every other one from `sp` on, as long as they do
not wrap. -/
def stackAddresses (sp : Word) : List Word :=
  ((List.range stackWindow).map fun i => sp + 2 * UInt16.ofNat i).takeWhile (sp ≤ ·)

/-- The words that are shown, each with its contents, if there is something
mapped. -/
def Machine.stackWords (m : Machine) : List (Word × Option Word) :=
  (stackAddresses (m.registers.get .sp)).map fun a => (a, (m.memory.peek16 a).toOption)

/-- A word as it is shown in the table. -/
def wordCell (w : Word) : Text.Cell := .atLeft ("0x" ++ Text.hexLower 4 w.toNat)

/-- The table of the registers. -/
def RegisterFile.grid (f : RegisterFile) : Text.Grid :=
  { titles := [.atRight "Register", .atLeft "Value"]
    rows := f.toList.map fun e => [.atRight (e.1 ++ " ="), wordCell e.2] }

/-- The table of the stack.  The word at `sp` is pointed at. -/
def stackGrid (sp : Word) (words : List (Word × Option Word)) : Text.Grid :=
  { titles := [.atRight "Address", .atLeft "Contents"]
    rows := words.map fun e =>
      [.atRight ((if e.1 = sp then "sp --> " else "") ++ Text.hexLower 4 e.1.toNat ++ " ="),
       match e.2 with
       | some w => wordCell w
       | none => .atLeft "--"] }

/-- The two tables side by side. -/
def stateGrid (registers stack : Text.Grid) : Text.Grid :=
  { titles := [.atLeft "Registers", .atLeft "Stack"]
    rows := [[⟨.left, registers.lines⟩, ⟨.left, stack.lines⟩]] }

/-- The state table, below a line that tells whether the machine has halted and how
large its frame is. -/
def Machine.stateTable (m : Machine) : String :=
  let stack := stackGrid (m.registers.get .sp) m.stackWords
  (if m.isHalted then "Halted." else "Running.") ++ "\tframe size: "
    ++ toString m.frameSize.toNat ++ "\n"
    ++ String.join ((stateGrid m.registers.grid stack).lines.map (· ++ "\n"))

end WordMachine
