import WordMachine.Expr.Precedence

/-!
# Folding by reduction

`Chain.fold` reads a chain once, from left to right, with two memories.  The textbook way is
another one.  Write the operands into one list and the operators into another, look for the
leftmost of the operators that bind tightest, replace it and the two operands beside it by their
tree, and go on until no operator is left; what is then the only operand is the tree of the chain.

Said with lists, that can go wrong in three places.  There may be no operator at the position
that was found, no operand beside it, and no operand left at the end.  `reduceAll` answers `none`
there, and `Chain.reduceAll_eq_fold` says that it never does on the two lists of a chain, and that
what it answers is the fold.

The argument is that one reduction takes the lists of a chain to the lists of a chain with one
operator less and with the same fold.  For the fold the position of the operator matters: in
front of the leftmost of the tightest nothing waits for its right operand that binds as tightly.

* `Operator.leading`: the position of the leftmost of the tightest operators.
* `Expr.reduceOnce`, `Expr.reduceAll`: one reduction, and all of them.
* `Chain.exists_reduceOnce`: what one reduction does to a chain.
-/

namespace WordMachine

namespace Operator

/-- How tightly the operator binds.  The signs share a level. -/
def priority : Operator → Nat
  | .times => 2
  | .plus | .minus => 1

/-- Some operator of the list binds tighter. -/
def IsOutranked (op : Operator) (ops : List Operator) : Prop :=
  ∃ other ∈ ops, op.priority < other.priority

instance (op : Operator) (ops : List Operator) : Decidable (op.IsOutranked ops) :=
  inferInstanceAs (Decidable (∃ other ∈ ops, op.priority < other.priority))

/-- The position of the leftmost operator among those that bind tightest. -/
def leading : List Operator → Nat
  | [] => 0
  | op :: ops => if op.IsOutranked ops then leading ops + 1 else 0

/-- Only a multiplication outranks another operator. -/
theorem isOutranked_iff {op : Operator} {ops : List Operator} :
    op.IsOutranked ops ↔ op ≠ .times ∧ .times ∈ ops := by
  constructor
  · rintro ⟨other, hother, hlt⟩
    cases other with
    | plus | minus => cases op <;> exact absurd hlt (by decide)
    | times =>
      refine ⟨?_, hother⟩
      rintro rfl
      exact absurd hlt (Nat.lt_irrefl _)
  · rintro ⟨hop, htimes⟩
    refine ⟨.times, htimes, ?_⟩
    cases op with
    | times => exact absurd rfl hop
    | plus | minus => decide

end Operator

namespace Expr

/-- Replaces the leading operator and the operands on its two sides by their tree.  Fails if one
of the three is missing. -/
def reduceOnce (operands : List Expr) (operators : List Operator) :
    Option (List Expr × List Operator) := do
  let i := Operator.leading operators
  let op ← operators[i]?
  let a ← operands[i]?
  let b ← operands[i + 1]?
  some (operands.take i ++ binary op a.disambiguate b.disambiguate :: operands.drop (i + 2),
    operators.eraseIdx i)

/-- A reduction uses up an operator. -/
theorem length_of_reduceOnce {operands xs : List Expr} {operators ops : List Operator}
    (h : reduceOnce operands operators = some (xs, ops)) : ops.length < operators.length := by
  rw [reduceOnce] at h
  obtain ⟨op, hop, h⟩ := Option.bind_eq_some_iff.mp h
  obtain ⟨a, -, h⟩ := Option.bind_eq_some_iff.mp h
  obtain ⟨b, -, h⟩ := Option.bind_eq_some_iff.mp h
  obtain ⟨-, rfl⟩ := Prod.mk.inj (Option.some.inj h)
  obtain ⟨hlt, -⟩ := List.getElem?_eq_some_iff.mp hop
  rw [List.length_eraseIdx_of_lt hlt]
  omega

/-- Reduces until no operator is left, and answers the last operand.  Fails if a reduction fails
or no operand is left. -/
def reduceAll (operands : List Expr) (operators : List Operator) : Option Expr :=
  if operators = [] then operands.getLast?.map disambiguate
  else
    match _ : reduceOnce operands operators with
    | none => none
    | some (xs, ops) => reduceAll xs ops
termination_by operators.length
decreasing_by exact length_of_reduceOnce ‹_›

theorem reduceAll_nil (operands : List Expr) :
    reduceAll operands [] = operands.getLast?.map disambiguate := by
  rw [reduceAll, if_pos rfl]

theorem reduceAll_of_reduceOnce {operands xs : List Expr} {operators ops : List Operator}
    (h : reduceOnce operands operators = some (xs, ops)) :
    reduceAll operands operators = reduceAll xs ops := by
  have hne : operators ≠ [] := by
    rintro rfl
    exact absurd (length_of_reduceOnce h) (Nat.not_lt_zero _)
  rw [reduceAll, if_neg hne]
  split
  · rename_i hnone
    exact absurd (hnone.symm.trans h) nofun
  · rename_i hsome
    obtain ⟨rfl, rfl⟩ := Prod.mk.inj (Option.some.inj (hsome.symm.trans h))
    rfl

/-- In front of an operator that is outranked a reduction leaves everything alone. -/
theorem reduceOnce_of_isOutranked {a : Expr} {op : Operator} {xs ys : List Expr}
    {ops ops' : List Operator} (h : op.IsOutranked ops)
    (hreduce : reduceOnce xs ops = some (ys, ops')) :
    reduceOnce (a :: xs) (op :: ops) = some (a :: ys, op :: ops') := by
  rw [reduceOnce] at hreduce
  obtain ⟨o, ho, hreduce⟩ := Option.bind_eq_some_iff.mp hreduce
  obtain ⟨x, hx, hreduce⟩ := Option.bind_eq_some_iff.mp hreduce
  obtain ⟨y, hy, hreduce⟩ := Option.bind_eq_some_iff.mp hreduce
  obtain ⟨rfl, rfl⟩ := Prod.mk.inj (Option.some.inj hreduce)
  have hleading : Operator.leading (op :: ops) = Operator.leading ops + 1 := if_pos h
  simp only [reduceOnce, hleading, List.getElem?_cons_succ, ho, hx, hy, Option.bind_eq_bind,
    Option.bind_some, List.take_succ_cons, List.drop_succ_cons, List.eraseIdx_cons_succ,
    List.cons_append]

/-- An operator that is not outranked is reduced with the operands beside it. -/
theorem reduceOnce_of_not_isOutranked {a b : Expr} {op : Operator} {xs : List Expr}
    {ops : List Operator} (h : ¬ op.IsOutranked ops) :
    reduceOnce (a :: b :: xs) (op :: ops) =
      some (binary op a.disambiguate b.disambiguate :: xs, ops) := by
  have hleading : Operator.leading (op :: ops) = 0 := if_neg h
  rw [reduceOnce, hleading]
  rfl

end Expr

namespace Chain

/-- The operands of the chain, from left to right. -/
def operands : Chain → List Expr
  | single e => [e]
  | link e _ rest => e :: rest.operands

/-- The operators of the chain, from left to right. -/
def operators : Chain → List Operator
  | single _ => []
  | link _ op rest => op :: rest.operators

/-- Nothing waits that binds as tightly as the leading operator of the chain. -/
def LeadsFrom (p : Pending Expr) (c : Chain) : Prop :=
  p.product = none ∧ (p.sum = none ∨ .times ∈ c.operators)

/-- The tree of two operands takes their place in a chain, if no operator behind them outranks
theirs. -/
theorem foldFrom_binary {p : Pending Expr} {a : Expr} {op : Operator} {c c' : Chain} {b : Expr}
    (hp : LeadsFrom p (link a op c)) (h : ¬ op.IsOutranked c.operators)
    (hcut : c = single b ∧ c' = single (.binary op a.disambiguate b.disambiguate) ∨
      ∃ next rest, c = link b next rest ∧
        c' = link (.binary op a.disambiguate b.disambiguate) next rest) :
    c'.foldFrom p = (link a op c).foldFrom p := by
  obtain ⟨sum, product⟩ := p
  obtain ⟨hproduct, hsum⟩ := hp
  obtain rfl : product = none := hproduct
  have htree : (Expr.binary op a.disambiguate b.disambiguate).disambiguate =
      .binary op a.disambiguate b.disambiguate := by
    rw [Expr.disambiguate] <;> simp
  by_cases htimes : op = .times
  · subst htimes
    rcases hcut with ⟨rfl, rfl⟩ | ⟨next, rest, rfl, rfl⟩
    · rw [foldFrom, foldFrom, foldFrom, htree]
      rfl
    · rw [foldFrom, foldFrom, foldFrom, htree]
      rfl
  · have hlow : .times ∉ c.operators := fun hmem => h (Operator.isOutranked_iff.mpr ⟨htimes, hmem⟩)
    obtain rfl : sum = none := hsum.resolve_right fun hmem =>
      (List.mem_cons.mp hmem).elim (fun heq => htimes heq.symm) hlow
    rcases hcut with ⟨rfl, rfl⟩ | ⟨next, rest, rfl, rfl⟩
    · rw [foldFrom, foldFrom, foldFrom, htree]
      cases op with
      | times => exact absurd rfl htimes
      | plus | minus => rfl
    · rw [foldFrom, foldFrom, foldFrom, htree]
      cases op with
      | times => exact absurd rfl htimes
      | plus | minus =>
        cases next with
        | times => exact absurd List.mem_cons_self hlow
        | plus | minus => rfl

/-- **A reduction keeps the fold.**  It finds its operator and both operands in the lists of a
chain, and what comes out are the lists of a chain with the same tree. -/
theorem exists_reduceOnce : ∀ c : Chain, c.operators ≠ [] →
    ∃ c' : Chain, Expr.reduceOnce c.operands c.operators = some (c'.operands, c'.operators) ∧
      ∀ p, LeadsFrom p c → c'.foldFrom p = c.foldFrom p
  | single _, h => absurd rfl h
  | link a op rest, _ => by
    by_cases h : op.IsOutranked rest.operators
    · obtain ⟨hop, htimes⟩ := Operator.isOutranked_iff.mp h
      obtain ⟨c', hreduce, hfold⟩ := exists_reduceOnce rest (List.ne_nil_of_mem htimes)
      refine ⟨link a op c', Expr.reduceOnce_of_isOutranked h hreduce, fun p hp => ?_⟩
      rw [foldFrom, foldFrom]
      refine hfold _ ⟨?_, .inr htimes⟩
      cases op with
      | times => exact absurd rfl hop
      | plus | minus => rfl
    · cases rest with
      | single b =>
        exact ⟨single _, Expr.reduceOnce_of_not_isOutranked h, fun p hp =>
          foldFrom_binary hp h (.inl ⟨rfl, rfl⟩)⟩
      | link b next tail =>
        exact ⟨link _ next tail, Expr.reduceOnce_of_not_isOutranked h, fun p hp =>
          foldFrom_binary hp h (.inr ⟨next, tail, rfl, rfl⟩)⟩

/-- **Reduction answers the fold.**  On the lists of a chain it never lacks an operator or an
operand. -/
theorem reduceAll_eq_fold (c : Chain) :
    Expr.reduceAll c.operands c.operators = some c.fold := by
  induction h : c.operators.length using Nat.strongRecOn generalizing c with
  | ind k ih =>
    subst h
    cases c with
    | single e =>
      rw [operands, operators, Expr.reduceAll_nil, fold_single]
      rfl
    | link e op rest =>
      obtain ⟨c', hreduce, hfold⟩ := exists_reduceOnce (link e op rest) (List.cons_ne_nil _ _)
      rw [Expr.reduceAll_of_reduceOnce hreduce,
        ih _ (Expr.length_of_reduceOnce hreduce) c' rfl, fold, hfold _ ⟨rfl, .inl rfl⟩]
      rfl

end Chain
end WordMachine
