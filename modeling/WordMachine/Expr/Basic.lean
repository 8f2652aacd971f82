/-!
# Expressions

An expression stands for a word.  Its leaves are literals, which keep their text,
references to names, and accesses to a member of a struct.  Between brackets or
parentheses operands and operators follow one another in a flat *chain*, as they
are written; which operands an operator joins is not yet decided there.  A node
`binary` is an operator with its two operands decided.

A chain is never empty and always alternates.  Its type says so: a chain is a
single operand, or an operand and an operator in front of a chain.
-/

namespace WordMachine

/-- The operators. -/
inductive Operator where
  | plus
  | minus
  | times
  deriving DecidableEq, Repr

namespace Operator

/-- The sign of the operator. -/
def sign : Operator → String
  | .plus => "+"
  | .minus => "-"
  | .times => "*"

/-- The operator with a given sign. -/
def ofSign? : String → Option Operator
  | "+" => some .plus
  | "-" => some .minus
  | "*" => some .times
  | _ => none

end Operator

mutual

/-- An expression. -/
inductive Expr where
  /-- A literal, by its digits. -/
  | hex (digits : String)
  /-- An address given by its digits. -/
  | address (digits : String)
  /-- The value of a name. -/
  | reference (name : String)
  /-- The address of a member of the struct `layout` that lies at `base`. -/
  | member (layout base field : String)
  /-- An operator and its operands. -/
  | binary (op : Operator) (a b : Expr)
  /-- A chain in parentheses. -/
  | group (chain : Chain)
  /-- A chain in brackets. -/
  | bracket (chain : Chain)

/-- Operands and operators in turn. -/
inductive Chain where
  | single (e : Expr)
  | link (e : Expr) (op : Operator) (rest : Chain)

end

deriving instance DecidableEq, Repr for Expr, Chain

/-- The chain that starts with `head` and goes on with pairs of an operator and an
operand. -/
def Chain.ofPairs (head : Expr) : List (Operator × Expr) → Chain
  | [] => .single head
  | (op, e) :: rest => .link head op (ofPairs e rest)

mutual

/-- The expression as text. -/
def Expr.text : Expr → String
  | .hex digits => "$" ++ digits
  | .address digits => "&" ++ digits
  | .reference name => "!" ++ name
  | .member layout base field => "<" ++ layout ++ "> " ++ base ++ "." ++ field
  | .binary op a b => "(" ++ a.text ++ " " ++ op.sign ++ " " ++ b.text ++ ")"
  | .group chain => "(" ++ chain.text ++ ")"
  | .bracket chain => "[" ++ chain.text ++ "]"

/-- The chain as text, without what encloses it. -/
def Chain.text : Chain → String
  | .single e => e.text
  | .link e op rest => e.text ++ " " ++ op.sign ++ " " ++ rest.text

end

end WordMachine
