import WordMachine.Register
import WordMachine.Expr.Precedence
import WordMachine.Grammar.Lexeme

/-!
# The grammar of operands

    chain    ::=  leaf (operator leaf)*
    leaf     ::=  '(' chain ')'  |  literal  |  reference  |  member
    bracket  ::=  '[' chain ']'
    literal  ::=  '$' digits
    reference ::=  '!' identifier
    member   ::=  '<' identifier '>' identifier '.' identifier

Parentheses nest, and a leaf within parentheses is read by the same rule as the
leaf outside.  The recursion is on a list `room`, one element of which is used up
by each parenthesis that is open.  Every parenthesis is a character of the text,
so the text ahead is itself always room enough, and that is what `leaf` gives.

A bracket is folded as soon as it is read.  A parenthesis is left alone until the
bracket around it folds.
-/

namespace WordMachine
namespace Grammar

open Rule Lexeme

/-- Reads an operator. -/
def operator : Rule Operator :=
  firstOf
    [do char '+'; pure .plus,
     do char '-'; pure .minus,
     do char '*'; pure .times]

/-- Reads a chain of the given leaves, with blanks around each of them. -/
def chainOf (leaf : Rule Expr) : Rule Chain := do
  let head ← wide leaf
  let tail ← many do
    let op ← wide operator
    let e ← wide leaf
    pure (op, e)
  pure (Chain.ofPairs head tail)

/-- Reads a literal as an expression. -/
def literalExpr : Rule Expr := do
  let digits ← hexLiteral
  pure (.hex digits)

/-- Reads a reference to a name. -/
def referenceExpr : Rule Expr := do
  char '!'
  let name ← identifier
  pure (.reference name)

/-- Reads an access to a member of a struct. -/
def memberExpr : Rule Expr := do
  char '<'
  spaces0
  let layout ← identifier
  spaces0
  char '>'
  spaces0
  let base ← identifier
  char '.'
  let field ← identifier
  pure (.member layout base field)

/-- Reads a leaf without parentheses. -/
def simpleLeaf : Rule Expr := firstOf [literalExpr, referenceExpr, memberExpr]

/-- Reads a leaf in which parentheses nest no deeper than there is room for. -/
def leafWithin : List Char → Rule Expr
  | [] => simpleLeaf
  | _ :: room =>
    firstOf
      [do
        char '('
        let c ← chainOf (leafWithin room)
        char ')'
        pure (.group c),
       simpleLeaf]

/-- Reads a leaf. -/
def leaf : Rule Expr := fun s => leafWithin s s

/-- Reads a chain. -/
def chain : Rule Chain := chainOf leaf

/-- Reads a bracket and folds it. -/
def bracketExpr : Rule Expr := do
  char '['
  let c ← chain
  char ']'
  pure (Expr.bracket c).disambiguate

/-- Reads the value of a literal position. -/
def literalValue : Rule Expr :=
  firstOf [literalExpr, bracketExpr, referenceExpr, memberExpr]

/-- Reads an address given by its digits. -/
def addressExpr : Rule Expr := do
  let digits ← hexDigits
  pure (.address digits)

/-- Reads the value of an address position. -/
def addressValue : Rule Expr := do
  char '&'
  firstOf [addressExpr, bracketExpr, referenceExpr, memberExpr]

/-- Reads a register.  The whole identifier has to be the register's name. -/
def register : Rule Register := identifier.mapSome Register.ofName?

end Grammar
end WordMachine
