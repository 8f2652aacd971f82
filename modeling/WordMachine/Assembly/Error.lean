import WordMachine.Instruction.Format

/-!
# Why assembly fails

Assembly is all or nothing: the first error ends it and no machine code comes
out.  The causes fall into three groups.  The text may not be a program; a name
may be bound twice; an operand may not resolve to a value.  The last cause, an
operand that does not fit its position, cannot arise from source text, because
the grammar reads each operand by the kind its position asks for; it is there
because an instruction can also be built by hand.
-/

namespace WordMachine

/-- The first thing that is wrong with a program. -/
inductive AssemblyError where
  /-- No statement starts here.  `found` is the rest of the line. -/
  | unexpected (line column : Nat) (found : String)
  /-- A known mnemonic with operands that none of its forms takes. -/
  | unknownInstruction (line : Nat) (mnemonic : String)
  /-- A name that is already bound. -/
  | duplicateBinding (name : String)
  /-- A reference to a name that is bound to no address and no value. -/
  | unresolvedLabel (name : String)
  /-- A member access through a name that is no struct. -/
  | unresolvedStruct (name : String)
  /-- A member access to a member the struct lacks. -/
  | unknownMember (layout member : String)
  /-- A member access at a name that is bound to no address and no value. -/
  | unresolvedSymbol (name : String)
  /-- An operand of another kind than its position asks for. -/
  | misplacedOperand (kind : Kind)
  deriving DecidableEq, Repr

/-- The text of the error. -/
def AssemblyError.message : AssemblyError → String
  | .unexpected line column found =>
    "syntax error on line " ++ toString line ++ ", column " ++ toString column
      ++ ": unexpected `" ++ found ++ "`"
  | .unknownInstruction line mnemonic =>
    "line " ++ toString line ++ ": `" ++ mnemonic
      ++ "` is not an instruction or its operands match none of its forms"
  | .duplicateBinding name => "duplicate binding: " ++ name
  | .unresolvedLabel name => "unresolved label: " ++ name
  | .unresolvedStruct name => "unresolved struct: " ++ name
  | .unknownMember layout member => "struct " ++ layout ++ " has no member " ++ member
  | .unresolvedSymbol name => "unresolved symbol: " ++ name
  | .misplacedOperand kind => "operand does not fit a " ++ kind.name ++ " position"

end WordMachine
