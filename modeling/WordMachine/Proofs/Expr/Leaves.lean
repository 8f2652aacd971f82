import WordMachine.Expr.Value

/-!
# Leaves

However an expression is built, what can go wrong in its evaluation goes wrong at a leaf: at a
reference, or at an access to a member of a struct.  Operators never fail.  So two questions
about an expression are questions about the list of its leaves.

* Does it have a value, and if not, which error is reported?  The error of the first leaf, from
  left to right, that has no value (`Expr.failure?_value`).
* Does the value stay when names are bound otherwise?  It does if the value of each leaf does
  (`Expr.value_congr`).

The list is the same before and after a chain is folded (`Chain.leaves_fold`): operands are
joined to operators, but they are not moved.  So "the first" means the first in the source, also
for an expression of which only the tree is left.

* `failure?`: the error of a result, with its law for sequences.
* `Leaf`, `Expr.leaves`, `Chain.leaves`: the leaves, as they are written.
-/

namespace WordMachine

/-- The error of a result, if it is one. -/
def failure? {ε α : Type} : Except ε α → Option ε
  | .error e => some e
  | .ok _ => none

section Failure

variable {ε α β : Type}

/-- A result without an error is a value. -/
theorem failure?_eq_none_iff {x : Except ε α} : failure? x = none ↔ ∃ a, x = .ok a := by
  cases x <;> simp [failure?]

theorem failure?_eq_some_iff {x : Except ε α} {e : ε} : failure? x = some e ↔ x = .error e := by
  cases x <;> simp [failure?]

/-- Of two results in sequence the first that is an error counts, if which error the second is
does not depend on the value of the first. -/
theorem failure?_bind {x : Except ε α} {f : α → Except ε β} {second : Option ε}
    (h : ∀ a, failure? (f a) = second) : failure? (x >>= f) = (failure? x).or second := by
  cases x with
  | error e => rfl
  | ok a => exact h a

/-- A result that is always a value adds no error. -/
theorem failure?_bind_pure (x : Except ε α) (f : α → β) :
    failure? (x >>= fun a => pure (f a)) = failure? x := by
  cases x <;> rfl

theorem failure?_map (x : Except ε α) (f : α → β) : failure? (x.map f) = failure? x := by
  cases x <;> rfl

/-- Along a list whose elements are made of parts, the first part with a fault counts. -/
theorem failure?_mapM {γ : Type} {f : α → Except ε β} {parts : α → List γ}
    {fault? : γ → Option ε} {xs : List α}
    (h : ∀ x ∈ xs, failure? (f x) = (parts x).findSome? fault?) :
    failure? (xs.mapM f) = (xs.flatMap parts).findSome? fault? := by
  induction xs with
  | nil => rfl
  | cons x xs ih =>
    obtain ⟨hx, hxs⟩ := List.forall_mem_cons.mp h
    rw [List.mapM_cons, List.flatMap_cons, List.findSome?_append, ← hx, ← ih hxs]
    exact failure?_bind fun y => failure?_bind_pure _ _

end Failure

namespace Scope

variable {s : Scope} {name layout base field : String} {e : AssemblyError} {w : Word}

theorem resolve_eq_ok_iff : s.resolve name = .ok w ↔ s.value? name = some w := by
  rw [resolve]
  cases s.value? name <;> simp

theorem resolve_eq_error_iff :
    s.resolve name = .error e ↔ s.value? name = none ∧ e = .unresolvedLabel name := by
  rw [resolve]
  cases s.value? name <;> simp [eq_comm]

/-- An access to a member succeeds if there is a struct, and a member in it, and a base. -/
theorem resolveMember_eq_ok_iff :
    s.resolveMember layout base field = .ok w ↔
      ∃ found m v, s.struct? layout = some found ∧ found.member? field = some m ∧
        s.value? base = some v ∧ w = v + m.offset := by
  rw [resolveMember]
  cases s.struct? layout with
  | none => simp
  | some found =>
    cases hmember : found.member? field with
    | none => simp [hmember]
    | some m => cases s.value? base <;> simp [hmember, eq_comm]

/-- It fails in three ways, which are looked for in turn. -/
theorem resolveMember_eq_error_iff :
    s.resolveMember layout base field = .error e ↔
      s.struct? layout = none ∧ e = .unresolvedStruct layout ∨
      ∃ found, s.struct? layout = some found ∧
        (found.member? field = none ∧ e = .unknownMember layout field ∨
          found.member? field ≠ none ∧ s.value? base = none ∧ e = .unresolvedSymbol base) := by
  rw [resolveMember]
  cases s.struct? layout with
  | none => simp [eq_comm]
  | some found =>
    cases hmember : found.member? field with
    | none => simp [hmember, eq_comm]
    | some m => cases s.value? base <;> simp [hmember, eq_comm]

end Scope

/-- An operand of an operator that has no operands itself. -/
inductive Leaf where
  | literal (digits : String)
  | reference (name : String)
  | member (layout base field : String)
  deriving DecidableEq, Repr

namespace Leaf

/-- The value of a leaf among the names of a module. -/
def value (scope : Scope) : Leaf → Except AssemblyError Word
  | .literal digits => .ok (hexWord digits)
  | .reference name => scope.resolve name
  | .member layout base field => scope.resolveMember layout base field

/-- Why a leaf has no value, if it has none. -/
def fault? (scope : Scope) (leaf : Leaf) : Option AssemblyError := failure? (leaf.value scope)

end Leaf

mutual

/-- The leaves of an expression, from left to right. -/
def Expr.leaves : Expr → List Leaf
  | .hex digits => [.literal digits]
  | .address digits => [.literal digits]
  | .reference name => [.reference name]
  | .member layout base field => [.member layout base field]
  | .binary _ a b => a.leaves ++ b.leaves
  | .group chain => chain.leaves
  | .bracket chain => chain.leaves

/-- The leaves of a chain, as they are written. -/
def Chain.leaves : Chain → List Leaf
  | .single e => e.leaves
  | .link e _ rest => e.leaves ++ rest.leaves

end

/-! ## Folding -/

/-- The leaves of what is still waiting for its right operand. -/
def Pending.leaves (p : Pending Expr) : List Leaf :=
  (p.sum.elim [] fun x => x.1.leaves) ++ p.product.elim [] fun x => x.1.leaves

namespace Pending

variable (p : Pending Expr) (e : Expr)

theorem leaves_join (waiting : Option (Expr × Operator)) :
    (join .binary waiting e).leaves = (waiting.elim [] fun x => x.1.leaves) ++ e.leaves := by
  cases waiting with
  | none => rfl
  | some x => rw [join, Expr.leaves]; rfl

/-- An operand that is taken in stands behind those that were taken in before. -/
theorem leaves_next (op : Operator) : (p.next .binary e op).leaves = p.leaves ++ e.leaves := by
  obtain ⟨sum, product⟩ := p
  cases op <;>
    simp only [next, leaves, Option.elim_some, Option.elim_none, leaves_join, List.append_nil,
      List.append_assoc]

theorem leaves_finish : (p.finish .binary e).leaves = p.leaves ++ e.leaves := by
  rw [finish, leaves_join, leaves_join, leaves, List.append_assoc]

end Pending

mutual

/-- Deciding what operators join moves no leaf. -/
theorem Expr.leaves_disambiguate : ∀ e : Expr, e.disambiguate.leaves = e.leaves
  | .hex _ | .address _ | .reference _ | .member _ _ _ | .binary _ _ _ => by
    rw [Expr.disambiguate] <;> simp
  | .group chain => by
    rw [Expr.disambiguate, Chain.leaves_foldFrom, Expr.leaves]
    rfl
  | .bracket chain => by
    rw [Expr.disambiguate, Chain.leaves_foldFrom, Expr.leaves]
    rfl

theorem Chain.leaves_foldFrom :
    ∀ (c : Chain) (p : Pending Expr), (c.foldFrom p).leaves = p.leaves ++ c.leaves
  | .single e, p => by
    rw [Chain.foldFrom, Pending.leaves_finish, Expr.leaves_disambiguate e, Chain.leaves]
  | .link e op rest, p => by
    rw [Chain.foldFrom, Chain.leaves_foldFrom rest, Pending.leaves_next,
      Expr.leaves_disambiguate e, Chain.leaves, List.append_assoc]

end

/-- The tree of a chain has the leaves of the chain, in the order in which they are written. -/
theorem Chain.leaves_fold (c : Chain) : c.fold.leaves = c.leaves :=
  c.leaves_foldFrom .start

/-! ## Evaluation -/

variable {scope scope' : Scope}

mutual

/-- **The first leaf without a value is reported.** -/
theorem Expr.failure?_value :
    ∀ e : Expr, failure? (e.value scope) = e.leaves.findSome? (Leaf.fault? scope)
  | .hex _ | .address _ => by
    rw [Expr.value, Expr.leaves]
    rfl
  | .reference name => by
    rw [Expr.value, Expr.leaves, List.findSome?_singleton]
    rfl
  | .member layout base field => by
    rw [Expr.value, Expr.leaves, List.findSome?_singleton]
    rfl
  | .binary op a b => by
    rw [Expr.value, Expr.leaves, List.findSome?_append, ← Expr.failure?_value a,
      ← Expr.failure?_value b]
    exact failure?_bind fun x => failure?_bind_pure _ _
  | .group chain => by
    rw [Expr.value, Expr.leaves, Chain.failure?_valueFrom]
  | .bracket chain => by
    rw [Expr.value, Expr.leaves, Chain.failure?_valueFrom]

theorem Chain.failure?_valueFrom :
    ∀ (c : Chain) (p : Pending Word),
      failure? (c.valueFrom scope p) = c.leaves.findSome? (Leaf.fault? scope)
  | .single e, p => by
    rw [Chain.valueFrom, Chain.leaves, ← Expr.failure?_value e]
    exact failure?_bind_pure _ _
  | .link e op rest, p => by
    rw [Chain.valueFrom, Chain.leaves, List.findSome?_append, ← Expr.failure?_value e]
    exact failure?_bind fun x => Chain.failure?_valueFrom rest _

end

mutual

/-- The value of an expression is made of the values of its leaves. -/
theorem Expr.value_congr : ∀ e : Expr,
    (∀ leaf ∈ e.leaves, leaf.value scope' = leaf.value scope) → e.value scope' = e.value scope
  | .hex _, _ | .address _, _ => by rw [Expr.value, Expr.value]
  | .reference name, h => by
    rw [Expr.leaves] at h
    rw [Expr.value, Expr.value]
    exact h _ List.mem_cons_self
  | .member layout base field, h => by
    rw [Expr.leaves] at h
    rw [Expr.value, Expr.value]
    exact h _ List.mem_cons_self
  | .binary op a b, h => by
    rw [Expr.leaves, List.forall_mem_append] at h
    rw [Expr.value, Expr.value, Expr.value_congr a h.1, Expr.value_congr b h.2]
  | .group chain, h => by
    rw [Expr.leaves] at h
    rw [Expr.value, Expr.value, Chain.valueFrom_congr chain h]
  | .bracket chain, h => by
    rw [Expr.leaves] at h
    rw [Expr.value, Expr.value, Chain.valueFrom_congr chain h]

theorem Chain.valueFrom_congr : ∀ (c : Chain) {p : Pending Word},
    (∀ leaf ∈ c.leaves, leaf.value scope' = leaf.value scope) →
      c.valueFrom scope' p = c.valueFrom scope p
  | .single e, p, h => by
    rw [Chain.leaves] at h
    rw [Chain.valueFrom, Chain.valueFrom, Expr.value_congr e h]
  | .link e op rest, p, h => by
    rw [Chain.leaves, List.forall_mem_append] at h
    rw [Chain.valueFrom, Chain.valueFrom, Expr.value_congr e h.1]
    refine congrArg _ (funext fun x => ?_)
    exact Chain.valueFrom_congr rest h.2

end

end WordMachine
