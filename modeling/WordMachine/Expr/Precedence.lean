import WordMachine.Expr.Basic

/-!
# Operator precedence in one pass

A chain `x₀ op₁ x₁ … opₙ xₙ` means a sum of products: it is cut at its signs `+`
and `-`, the factors of each piece are joined from the left, and then the pieces
are joined from the left.  Reading from left to right, that takes two memories
and no more: the sum so far with the sign that follows it, and the product so
far with the sign that follows it.  Each new operand first joins the product; if
the next operator is a multiplication the result stays there, otherwise it joins
the sum.

The pass does not care what is being joined.  `Pending` is written for any type
with a way of combining two of its elements, because it is used twice: with trees
it decides which operands an operator joins (`Expr.disambiguate`), and with words
it computes (`Expr.value`).
-/

namespace WordMachine

/-- What is still waiting for its right operand: the sum so far and the product
so far, each with the operator after it. -/
structure Pending (α : Type) where
  sum : Option (α × Operator)
  product : Option (α × Operator)

namespace Pending

variable {α : Type}

/-- Nothing is waiting. -/
def start : Pending α := ⟨none, none⟩

/-- An operand with what was waiting for it. -/
def join (combine : Operator → α → α → α) : Option (α × Operator) → α → α
  | none, b => b
  | some (a, op), b => combine op a b

/-- Takes in an operand that an operator follows. -/
def next (combine : Operator → α → α → α) (p : Pending α) (a : α) (op : Operator) : Pending α :=
  let product := join combine p.product a
  match op with
  | .times => ⟨p.sum, some (product, op)⟩
  | .plus | .minus => ⟨some (join combine p.sum product, op), none⟩

/-- Takes in the last operand. -/
def finish (combine : Operator → α → α → α) (p : Pending α) (a : α) : α :=
  join combine p.sum (join combine p.product a)

end Pending

mutual

/-- Decides which operands each operator of a bracket or a parenthesis joins.
Every other expression is left as it is, with all that it contains. -/
def Expr.disambiguate : Expr → Expr
  | .group chain => chain.foldFrom .start
  | .bracket chain => chain.foldFrom .start
  | e => e

/-- The tree of a chain of which some operands have been read. -/
def Chain.foldFrom (p : Pending Expr) : Chain → Expr
  | .single e => p.finish .binary e.disambiguate
  | .link e op rest => rest.foldFrom (p.next .binary e.disambiguate op)

end

/-- The tree that a chain means.  A single operand is its own tree. -/
def Chain.fold (c : Chain) : Expr := c.foldFrom .start

@[simp] theorem Expr.disambiguate_group (c : Chain) : (Expr.group c).disambiguate = c.fold := by
  simp [Expr.disambiguate, Chain.fold]

@[simp] theorem Expr.disambiguate_bracket (c : Chain) :
    (Expr.bracket c).disambiguate = c.fold := by
  simp [Expr.disambiguate, Chain.fold]

@[simp] theorem Chain.fold_single (e : Expr) : (Chain.single e).fold = e.disambiguate := by
  simp [Chain.fold, Chain.foldFrom, Pending.finish, Pending.join, Pending.start]

end WordMachine
