import WordMachine.Word
import WordMachine.Text.Numeral
import WordMachine.Text.Blank
import WordMachine.Register
import WordMachine.Instruction.Format
import WordMachine.Instruction.Opcode
import WordMachine.MachineCode
import WordMachine.Assembly.Error
import WordMachine.Assembly.Scope
import WordMachine.Expr.Basic
import WordMachine.Expr.Precedence
import WordMachine.Expr.Value
import WordMachine.Assembly.Statement
import WordMachine.Grammar.Rule
import WordMachine.Grammar.Lexeme
import WordMachine.Grammar.Expression
import WordMachine.Grammar.Statement
import WordMachine.Grammar.Program
import WordMachine.Assembly.Module
import WordMachine.Memory.Panel
import WordMachine.Memory.Device
import WordMachine.Memory.AddressSpace
import WordMachine.Memory.Dump
import WordMachine.Machine.Basic
import WordMachine.Machine.Call
import WordMachine.Machine.Dispatch
import WordMachine.Machine.Run
import WordMachine.Text.Grid
import WordMachine.Machine.StateTable
import WordMachine.Demo
import WordMachine.Main
import WordMachine.Proofs.Memory.Flat
import WordMachine.Proofs.Grammar.Operands
import WordMachine.Proofs.Assembly.Layout
import WordMachine.Proofs.Machine.Effect
import WordMachine.Proofs.Machine.Decode
import WordMachine.Proofs.Assembly.Loaded
import WordMachine.Proofs.Machine.Stack
import WordMachine.Proofs.Machine.Frame
import WordMachine.Proofs.Machine.Step
import WordMachine.Proofs.Machine.Nesting
import WordMachine.Proofs.Memory.Change
import WordMachine.Proofs.Machine.Fetch
import WordMachine.Proofs.Machine.Reach
import WordMachine.Proofs.Machine.Footprint
import WordMachine.Proofs.Machine.Consume
import WordMachine.Proofs.Machine.Arithmetic
import WordMachine.Proofs.Machine.Fault
import WordMachine.Proofs.Grammar.Reads
import WordMachine.Proofs.Grammar.Source
import WordMachine.Proofs.Grammar.Definitions
import WordMachine.Proofs.Grammar.Instructions
import WordMachine.Proofs.Grammar.Answers
import WordMachine.Proofs.Grammar.RoundTrip
import WordMachine.Proofs.Memory.History
import WordMachine.Proofs.Expr.Leaves
import WordMachine.Proofs.Expr.Reduction
import WordMachine.Proofs.Expr.Summands
import WordMachine.Proofs.Expr.Denotation
import WordMachine.Proofs.Assembly.Names
import WordMachine.Proofs.Assembly.Tables
import WordMachine.Proofs.Assembly.Fields
import WordMachine.Proofs.Assembly.Outcome
import WordMachine.Proofs.Assembly.Relocation
import WordMachine.Proofs.Grammar.Steady
import WordMachine.Proofs.Grammar.SteadyStatement
import WordMachine.Proofs.Grammar.Composition
import WordMachine.Proofs.Assembly.Concatenation
import WordMachine.Proofs.Machine.Lockstep
import WordMachine.Proofs.Machine.Interface
import WordMachine.Proofs.Machine.Schedule
import WordMachine.Proofs.Memory.Bank
import WordMachine.Proofs.Machine.Isolation
import WordMachine.Proofs.Memory.Tiles
import WordMachine.Proofs.Machine.Tiling
import WordMachine.Proofs.Grammar.Ambiguity
import WordMachine.Proofs.Assembly.Encodable
import WordMachine.Proofs.Grammar.Cut
import WordMachine.Proofs.Grammar.FirstError
import WordMachine.Proofs.Memory.Checked
import WordMachine.Proofs.Memory.HostCalls
import WordMachine.Proofs.Machine.Checked
import WordMachine.Proofs.Memory.Image
import WordMachine.Proofs.Memory.WordAccess
import WordMachine.Proofs.Machine.LastInFirstOut
import WordMachine.Proofs.Assembly.StructMembers
import WordMachine.Proofs.Memory.ReadBack
import WordMachine.Proofs.Text.MachineCode
import WordMachine.Proofs.Grammar.Spelling
import WordMachine.Proofs.Grammar.BraceList
import WordMachine.Proofs.Grammar.ListStatement
