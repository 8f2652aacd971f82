import WordMachine.Proofs.Expr.Reduction

/-!
# Sums of products

Whoever reads a chain by the rules of arithmetic cuts it at its signs, `+` and `-`, multiplies
out each piece, and adds the pieces up.  The cut is a list of lists (`SumOfProducts`), and its
type leaves no choice about the operators: factors have `*` between them and products have a sign,
so that nothing of the chain is lost by cutting it (`Chain.written_summands`).

The fold of a chain is made in one pass and never sees the cut.  It is the tree of the cut all the
same: factors nested to the left, and then products nested to the left.  Two equations say why
(`SumOfProducts.nestFrom_cons`, `SumOfProducts.nestFrom_single`).  What waits in the pass is the
part of the sum, and the part of the product, that lies to the left of what is still to be read.

They do not ask what is being joined, and hold for words and integers as well as for trees.

* `SumOfProducts.nest`: joins factors, and then products, from the left.
* `Chain.summands`: the cut of a chain.
* `Expr.Assembles`: a tree is made of given operands and operators, in the order as written.
* `Chain.folds_by_precedence`: what the fold of a chain is.
-/

namespace WordMachine

/-! ## Sums of products of anything -/

/-- What stands between two products. -/
inductive Sign where
  | plus
  | minus
  deriving DecidableEq, Repr

/-- The sign as an operator. -/
def Sign.operator : Sign → Operator
  | .plus => .plus
  | .minus => .minus

/-- Factors, at least one. -/
structure Product (α : Type) where
  first : α
  others : List α

/-- Products, at least one, and each but the first with the sign in front of it. -/
structure SumOfProducts (α : Type) where
  first : Product α
  others : List (Sign × Product α)

/-- Joins the factors from the left. -/
def Product.nest {α : Type} (combine : Operator → α → α → α) (p : Product α) : α :=
  p.others.foldl (combine .times) p.first

/-- The product of other factors. -/
def Product.map {α β : Type} (f : α → β) (p : Product α) : Product β :=
  ⟨f p.first, p.others.map f⟩

namespace SumOfProducts

variable {α β : Type} (combine : Operator → α → α → α)

/-- A single factor. -/
def single (a : α) : SumOfProducts α := ⟨⟨a, []⟩, []⟩

/-- Puts an operand in front, with the operator behind it.  It is a factor of the first product or
a product of its own. -/
def cons (a : α) : Operator → SumOfProducts α → SumOfProducts α
  | .times, s => ⟨⟨a, s.first.first :: s.first.others⟩, s.others⟩
  | .plus, s => ⟨⟨a, []⟩, (.plus, s.first) :: s.others⟩
  | .minus, s => ⟨⟨a, []⟩, (.minus, s.first) :: s.others⟩

/-- The sum of products of other factors. -/
def map (f : α → β) (s : SumOfProducts α) : SumOfProducts β :=
  ⟨s.first.map f, s.others.map fun t => (t.1, t.2.map f)⟩

/-- Joins products, from the left, to what lies left of them. -/
def joinTo (total : α) (products : List (Sign × Product α)) : α :=
  products.foldl (fun total t => combine t.1.operator total (t.2.nest combine)) total

/-- Joins the factors of each product from the left, and then the products from the left. -/
def nest (s : SumOfProducts α) : α := joinTo combine (s.first.nest combine) s.others

/-- The same, with something waiting on the left. -/
def nestFrom (p : Pending α) (s : SumOfProducts α) : α :=
  joinTo combine
    (Pending.join combine p.sum
      (Product.nest combine ⟨Pending.join combine p.product s.first.first, s.first.others⟩))
    s.others

/-- The last operand of a chain. -/
theorem nestFrom_single (p : Pending α) (a : α) :
    (single a).nestFrom combine p = p.finish combine a := rfl

/-- An operand with the operator behind it. -/
theorem nestFrom_cons (p : Pending α) (a : α) (op : Operator) (s : SumOfProducts α) :
    (s.cons a op).nestFrom combine p = s.nestFrom combine (p.next combine a op) := by
  cases op <;> rfl

theorem map_cons (f : α → β) (a : α) (op : Operator) (s : SumOfProducts α) :
    (s.cons a op).map f = (s.map f).cons (f a) op := by
  cases op <;> rfl

end SumOfProducts

/-! ## The cut of a chain -/

namespace Chain

/-- The chain, cut at its signs. -/
def summands : Chain → SumOfProducts Expr
  | single e => .single e
  | link e op rest => rest.summands.cons e op

end Chain

/-- The factors with the operators in front of them, but for the first. -/
def Product.pairs (p : Product Expr) : List (Operator × Expr) := p.others.map (.times, ·)

/-- The sum of products as a chain again. -/
def SumOfProducts.written (s : SumOfProducts Expr) : Chain :=
  .ofPairs s.first.first
    (s.first.pairs ++ s.others.flatMap fun t => (t.1.operator, t.2.first) :: t.2.pairs)

namespace Chain

/-- A cut takes nothing from a chain and adds nothing. -/
theorem written_summands : ∀ c : Chain, c.summands.written = c
  | single _ => rfl
  | link e op rest => by
    have hcons : (rest.summands.cons e op).written = link e op rest.summands.written := by
      cases op <;> rfl
    rw [summands, hcons, written_summands rest]

/-- **The pass finds the tree of the cut.** -/
theorem foldFrom_eq : ∀ (c : Chain) (p : Pending Expr),
    c.foldFrom p = (c.summands.map Expr.disambiguate).nestFrom .binary p
  | single e, p => by
    rw [foldFrom]
    rfl
  | link e op rest, p => by
    rw [foldFrom, foldFrom_eq rest, summands, SumOfProducts.map_cons, SumOfProducts.nestFrom_cons]

/-- The tree of a chain: factors nested to the left, and products nested to the left. -/
theorem fold_eq (c : Chain) : c.fold = (c.summands.map Expr.disambiguate).nest .binary :=
  c.foldFrom_eq .start

end Chain

/-! ## Operands and operators of a tree -/

/-- The tree is made of operands, which are not looked into, and of operators between them; both
are listed from left to right. -/
inductive Expr.Assembles : Expr → List Expr → List Operator → Prop where
  | operand (e : Expr) : Assembles e [e] []
  | binary {op : Operator} {a b : Expr} {xs ys : List Expr} {ops ops' : List Operator}
    (ha : a.Assembles xs ops) (hb : b.Assembles ys ops') :
    Assembles (.binary op a b) (xs ++ ys) (ops ++ op :: ops')

namespace Pending

/-- What waits for its right operand is made of operands and operators, the last of which is the
one that waits. -/
inductive Awaits : Option (Expr × Operator) → List Expr → List Operator → Prop where
  | nothing : Awaits none [] []
  | operand {a : Expr} {op : Operator} {xs : List Expr} {ops : List Operator}
    (ha : a.Assembles xs ops) : Awaits (some (a, op)) xs (ops ++ [op])

theorem Awaits.join {waiting : Option (Expr × Operator)} {b : Expr} {xs ys : List Expr}
    {ops ops' : List Operator} (h : Awaits waiting xs ops) (hb : b.Assembles ys ops') :
    (Pending.join .binary waiting b).Assembles (xs ++ ys) (ops ++ ops') := by
  cases h with
  | nothing => exact hb
  | operand ha =>
    rw [List.append_assoc]
    exact ha.binary hb

/-- The sum and the product that wait are made of operands and operators. -/
def Holds (p : Pending Expr) (xs : List Expr) (ops : List Operator) : Prop :=
  ∃ ys zs ops₁ ops₂, Awaits p.sum ys ops₁ ∧ Awaits p.product zs ops₂ ∧
    xs = ys ++ zs ∧ ops = ops₁ ++ ops₂

variable {p : Pending Expr} {xs : List Expr} {ops : List Operator}

theorem holds_start : (start : Pending Expr).Holds [] [] :=
  ⟨[], [], [], [], .nothing, .nothing, rfl, rfl⟩

theorem Holds.finish (h : p.Holds xs ops) (e : Expr) :
    (p.finish .binary e).Assembles (xs ++ [e]) ops := by
  obtain ⟨ys, zs, ops₁, ops₂, hsum, hproduct, rfl, rfl⟩ := h
  have htree := hsum.join (hproduct.join (.operand e))
  rwa [← List.append_assoc, List.append_nil] at htree

theorem Holds.next (h : p.Holds xs ops) (e : Expr) (op : Operator) :
    (p.next .binary e op).Holds (xs ++ [e]) (ops ++ [op]) := by
  have htree := h.finish e
  obtain ⟨ys, zs, ops₁, ops₂, hsum, hproduct, rfl, rfl⟩ := h
  cases op with
  | times =>
    have hfactor := hproduct.join (.operand e)
    rw [List.append_nil] at hfactor
    have hwaits : Awaits (some (_, Operator.times)) _ _ := .operand hfactor
    exact ⟨ys, zs ++ [e], ops₁, ops₂ ++ [Operator.times], hsum, hwaits, List.append_assoc ..,
      List.append_assoc ..⟩
  | plus =>
    have hwaits : Awaits (some (_, Operator.plus)) _ _ := .operand htree
    exact ⟨_, [], _, [], hwaits, .nothing, (List.append_nil _).symm, (List.append_nil _).symm⟩
  | minus =>
    have hwaits : Awaits (some (_, Operator.minus)) _ _ := .operand htree
    exact ⟨_, [], _, [], hwaits, .nothing, (List.append_nil _).symm, (List.append_nil _).symm⟩

end Pending

namespace Chain

/-- The tree of a chain has the operands of the chain and its operators, behind those that were
waiting. -/
theorem assembles_foldFrom : ∀ (c : Chain) {p : Pending Expr} {xs : List Expr}
    {ops : List Operator}, p.Holds xs ops →
      (c.foldFrom p).Assembles (xs ++ c.operands.map Expr.disambiguate) (ops ++ c.operators)
  | single e, p, xs, ops, h => by
    rw [foldFrom, operators, List.append_nil]
    exact h.finish e.disambiguate
  | link e op rest, p, xs, ops, h => by
    rw [foldFrom, operands, operators, List.map_cons, List.append_cons, List.append_cons ops]
    exact assembles_foldFrom rest (h.next e.disambiguate op)

theorem assembles_fold (c : Chain) :
    c.fold.Assembles (c.operands.map Expr.disambiguate) c.operators :=
  c.assembles_foldFrom Pending.holds_start

end Chain

/-! ## Enclosures -/

/-- What encloses a chain. -/
inductive Enclosure where
  | parentheses
  | brackets
  deriving DecidableEq, Repr

/-- The expression that the enclosed chain is. -/
def Enclosure.around : Enclosure → Chain → Expr
  | .parentheses, c => .group c
  | .brackets, c => .bracket c

theorem Enclosure.disambiguate_around (w : Enclosure) (c : Chain) :
    (w.around c).disambiguate = c.fold := by
  cases w with
  | parentheses => exact Expr.disambiguate_group c
  | brackets => exact Expr.disambiguate_bracket c

namespace Expr

/-- The expression on its own in enclosures, the outermost of which comes first. -/
def wrapped (e : Expr) : List Enclosure → Expr
  | [] => e
  | w :: ws => w.around (.single (e.wrapped ws))

/-- Whether the expression is an enclosed chain. -/
def isEnclosed : Expr → Bool
  | .group _ | .bracket _ => true
  | _ => false

theorem disambiguate_of_not_isEnclosed {e : Expr} (h : e.isEnclosed = false) :
    e.disambiguate = e := by
  cases e with
  | group c | bracket c => exact nomatch h
  | _ => rw [disambiguate] <;> simp

/-- A single operand is its own tree, however often it is enclosed. -/
theorem disambiguate_wrapped (e : Expr) (ws : List Enclosure) :
    (e.wrapped ws).disambiguate = e.disambiguate := by
  induction ws with
  | nil => rfl
  | cons w ws ih => rw [wrapped, Enclosure.disambiguate_around, Chain.fold_single, ih]

theorem isEnclosed_join (waiting : Option (Expr × Operator)) {e : Expr}
    (h : e.isEnclosed = false) : (Pending.join .binary waiting e).isEnclosed = false := by
  cases waiting with
  | none => exact h
  | some w => rfl

mutual

/-- No enclosure is left on the outside. -/
theorem isEnclosed_disambiguate : ∀ e : Expr, e.disambiguate.isEnclosed = false
  | .hex _ | .address _ | .reference _ | .member _ _ _ | .binary _ _ _ => by
    rw [disambiguate] <;> simp [isEnclosed]
  | .group c => by
    rw [disambiguate]
    exact isEnclosed_foldFrom c .start
  | .bracket c => by
    rw [disambiguate]
    exact isEnclosed_foldFrom c .start

theorem isEnclosed_foldFrom : ∀ (c : Chain) (p : Pending Expr),
    (c.foldFrom p).isEnclosed = false
  | .single e, p => by
    rw [Chain.foldFrom]
    exact isEnclosed_join _ (isEnclosed_join _ (isEnclosed_disambiguate e))
  | .link e op rest, p => by
    rw [Chain.foldFrom]
    exact isEnclosed_foldFrom rest _

end

end Expr

/-- **A chain is folded by precedence.**  Its tree, in parentheses or in brackets, is that of its
cut at the signs: the factors of each product nested to the left, and the products nested to the
left.  The textbook reduction comes to the same tree.  Every operand is in it once, and in its
place.  A single operand remains, however often it is enclosed; nothing enclosed is left on the
outside, so that a second time changes nothing. -/
theorem Chain.folds_by_precedence (c : Chain) :
    c.summands.written = c ∧
      (∀ w : Enclosure,
        (w.around c).disambiguate = (c.summands.map Expr.disambiguate).nest .binary) ∧
      Expr.reduceAll c.operands c.operators =
        some ((c.summands.map Expr.disambiguate).nest .binary) ∧
      ((c.summands.map Expr.disambiguate).nest .binary).Assembles
        (c.operands.map Expr.disambiguate) c.operators ∧
      ∀ e : Expr, (∀ ws : List Enclosure, (e.wrapped ws).disambiguate = e.disambiguate) ∧
        e.disambiguate.isEnclosed = false ∧ e.disambiguate.disambiguate = e.disambiguate := by
  rw [← c.fold_eq]
  refine ⟨c.written_summands, fun w => w.disambiguate_around c, c.reduceAll_eq_fold,
    c.assembles_fold, fun e => ⟨e.disambiguate_wrapped, e.isEnclosed_disambiguate, ?_⟩⟩
  exact Expr.disambiguate_of_not_isEnclosed e.isEnclosed_disambiguate

end WordMachine
