import Mathlib.Algebra.BigOperators.Group.List.Basic
import Mathlib.Data.Nat.Digits.Defs
import WordMachine.Proofs.Expr.Leaves
import WordMachine.Proofs.Expr.Summands

/-!
# What an expression denotes

An expression stands for an integer: its leaves stand for numbers, and its operators are those of
arithmetic.  A chain is a sum of products, wherever it stands, and so its integer is a sum of
products too (`Expr.exact`).  Nothing wraps there, and the order in which things are done is of no
importance.

Evaluation works with words.  It wraps at every operator, and even when it reads a literal.
Nevertheless its word is the integer modulo `2 ^ 16` (`Expr.value_of_hasResidue`), since taking
an integer modulo `2 ^ 16` commutes with all that is done.  Only leaves can lack a value, and which
leaf is reported has been found to be a question about the list of leaves
(`Expr.failure?_value`).

Both are the same for an expression and for its fold, so folding before evaluation, or instead of
evaluating a chain as it stands, makes no difference.  The latter is a recursion that does not
follow the expression, because the fold of a chain is no part of the chain.  It ends because every
enclosure that is folded away makes the expression lighter (`Chain.weight_fold_le`).

* `Leaf.Means`, `Leaf.Fails`: what a leaf stands for, and why it stands for nothing.
* `Leaf.HasResidue`: an integer that the word of a leaf is modulo `2 ^ 16`.
* `Expr.exact`: the integer of an expression.
* `Expr.valueByFolding`: evaluation that folds every chain first.
* `Expr.evaluates`: what evaluation comes to.
-/

namespace WordMachine

/-! ## Numbers of leaves -/

/-- The number that hexadecimal digits spell, however many they are. -/
def hexNumber (digits : String) : Nat :=
  Nat.ofDigits 16 (digits.toList.filterMap Text.hexValue?).reverse

/-- The digits are read from the front, each time sixteen times what was read before. -/
theorem hexNumber_eq_foldl (digits : String) :
    hexNumber digits =
      (digits.toList.filterMap Text.hexValue?).foldl (fun n d => n * 16 + d) 0 := by
  rw [hexNumber, Nat.ofDigits_eq_foldr, List.foldr_reverse]
  simp only [Nat.cast_id, Nat.add_comm, Nat.mul_comm]

/-- A literal of any length is read modulo `2 ^ 16`. -/
theorem hexWord_eq (digits : String) : hexWord digits = UInt16.ofNat (hexNumber digits) := by
  have hfoldl (ds : List Nat) (n : Nat) :
      ds.foldl (fun v d => v * 16 + UInt16.ofNat d) (UInt16.ofNat n) =
        UInt16.ofNat (ds.foldl (fun n d => n * 16 + d) n) := by
    induction ds generalizing n with
    | nil => rfl
    | cons d ds ih =>
      rw [List.foldl_cons, List.foldl_cons, ← ih, UInt16.ofNat_add, UInt16.ofNat_mul]
      rfl
  rw [hexNumber_eq_foldl, hexWord]
  exact hfoldl _ 0

namespace Leaf

/-- Among the names of a module, the leaf stands for a number. -/
inductive Means (scope : Scope) : Leaf → Int → Prop where
  /-- A literal stands for the number it spells. -/
  | literal (digits : String) : Means scope (.literal digits) (hexNumber digits)
  /-- A reference stands for what the name is bound to. -/
  | reference {name : String} {b : Binding} (h : scope.symbol? name = some b) :
    Means scope (.reference name) b.word.toNat
  /-- An access to a member stands for what the base is bound to and the offset of the member. -/
  | member {layout base field : String} {found : StructLayout} {m : Member} {b : Binding}
    (hstruct : scope.struct? layout = some found) (hmember : found.member? field = some m)
    (hbase : scope.symbol? base = some b) :
    Means scope (.member layout base field) (b.word.toNat + m.offset.toNat)

/-- Among the names of a module, the leaf stands for nothing, for the reason given. -/
inductive Fails (scope : Scope) : Leaf → AssemblyError → Prop where
  /-- The name is bound to no word. -/
  | label {name : String} (h : scope.symbol? name = none) :
    Fails scope (.reference name) (.unresolvedLabel name)
  /-- There is no struct of that name. -/
  | struct {layout base field : String} (h : scope.struct? layout = none) :
    Fails scope (.member layout base field) (.unresolvedStruct layout)
  /-- There is one, but it has no such member. -/
  | member {layout base field : String} {found : StructLayout}
    (hstruct : scope.struct? layout = some found) (hmember : found.member? field = none) :
    Fails scope (.member layout base field) (.unknownMember layout field)
  /-- It has the member, but the base is bound to no word. -/
  | symbol {layout base field : String} {found : StructLayout} {m : Member}
    (hstruct : scope.struct? layout = some found) (hmember : found.member? field = some m)
    (hbase : scope.symbol? base = none) :
    Fails scope (.member layout base field) (.unresolvedSymbol base)

variable {scope : Scope} {leaf : Leaf}

/-- The word of a leaf is its number modulo `2 ^ 16`. -/
theorem Means.value_eq {n : Int} (h : leaf.Means scope n) :
    leaf.value scope = .ok (UInt16.ofInt n) := by
  cases h with
  | literal digits =>
    rw [value, hexWord_eq, Word.ofInt_natCast]
  | @reference name b h =>
    rw [value, Scope.resolve_eq_ok_iff, Scope.value?, h, Word.ofInt_toNat]
    rfl
  | @member layout base field found m b hstruct hmember hbase =>
    rw [value, Scope.resolveMember_eq_ok_iff]
    refine ⟨found, m, b.word, hstruct, hmember, ?_, ?_⟩
    · rw [Scope.value?, hbase]
      rfl
    · rw [UInt16.ofInt_add, Word.ofInt_toNat, Word.ofInt_toNat]

theorem Fails.value_eq {e : AssemblyError} (h : leaf.Fails scope e) :
    leaf.value scope = .error e := by
  cases h with
  | label h =>
    rw [value, Scope.resolve_eq_error_iff, Scope.value?, h]
    exact ⟨rfl, rfl⟩
  | struct h => exact Scope.resolveMember_eq_error_iff.mpr (.inl ⟨h, rfl⟩)
  | member hstruct hmember =>
    exact Scope.resolveMember_eq_error_iff.mpr (.inr ⟨_, hstruct, .inl ⟨hmember, rfl⟩⟩)
  | symbol hstruct hmember hbase =>
    refine Scope.resolveMember_eq_error_iff.mpr (.inr ⟨_, hstruct, .inr ⟨?_, ?_, rfl⟩⟩)
    · rw [hmember]
      exact Option.some_ne_none _
    · rw [Scope.value?, hbase]
      rfl

/-- A leaf stands for a number, or there is a reason why not. -/
theorem means_or_fails (scope : Scope) (leaf : Leaf) :
    (∃ n, leaf.Means scope n) ∨ ∃ e, leaf.Fails scope e := by
  cases leaf with
  | literal digits => exact .inl ⟨_, .literal digits⟩
  | reference name =>
    cases h : scope.symbol? name with
    | none => exact .inr ⟨_, .label h⟩
    | some b => exact .inl ⟨_, .reference h⟩
  | member layout base field =>
    cases hstruct : scope.struct? layout with
    | none => exact .inr ⟨_, .struct hstruct⟩
    | some found =>
      cases hmember : found.member? field with
      | none => exact .inr ⟨_, .member hstruct hmember⟩
      | some m =>
        cases hbase : scope.symbol? base with
        | none => exact .inr ⟨_, .symbol hstruct hmember hbase⟩
        | some b => exact .inl ⟨_, .member hstruct hmember hbase⟩

end Leaf

/-! ## The integer of an expression -/

/-- What an operator makes of two integers. -/
def Operator.exact : Operator → Int → Int → Int
  | .plus, a, b => a + b
  | .minus, a, b => a - b
  | .times, a, b => a * b

/-- The operators on words are those on integers, modulo `2 ^ 16`. -/
theorem Operator.ofInt_exact (op : Operator) (a b : Int) :
    UInt16.ofInt (op.exact a b) = op.apply (UInt16.ofInt a) (UInt16.ofInt b) := by
  cases op with
  | plus => exact UInt16.ofInt_add a b
  | minus =>
    rw [exact, apply, UInt16.sub_eq_add_neg, ← UInt16.ofInt_neg, ← UInt16.ofInt_add,
      Int.sub_eq_add_neg]
  | times => exact UInt16.ofInt_mul a b

/-- What a product adds to a sum. -/
def Sign.signed : Sign → Int → Int
  | .plus, n => n
  | .minus, n => -n

/-- The product of the factors. -/
def Product.total (p : Product Int) : Int := (p.first :: p.others).prod

/-- The sum of the products, each with its sign. -/
def SumOfProducts.total (s : SumOfProducts Int) : Int :=
  s.first.total + (s.others.map fun t => t.1.signed t.2.total).sum

theorem Product.nest_exact (p : Product Int) : p.nest Operator.exact = p.total := by
  have hfoldl (xs : List Int) (n : Int) : xs.foldl (Operator.exact .times) n = n * xs.prod := by
    induction xs generalizing n with
    | nil => rw [List.foldl_nil, List.prod_nil, Int.mul_one]
    | cons x xs ih => rw [List.foldl_cons, ih, List.prod_cons, Operator.exact, Int.mul_assoc]
  rw [nest, hfoldl, total, List.prod_cons]

namespace SumOfProducts

/-- Joining integers from the left, by precedence, adds up the products. -/
theorem nest_exact (s : SumOfProducts Int) : s.nest Operator.exact = s.total := by
  have hfoldl (ts : List (Sign × Product Int)) (n : Int) :
      joinTo Operator.exact n ts = n + (ts.map fun t => t.1.signed t.2.total).sum := by
    induction ts generalizing n with
    | nil => rw [joinTo, List.foldl_nil, List.map_nil, List.sum_nil, Int.add_zero]
    | cons t ts ih =>
      obtain ⟨sign, p⟩ := t
      rw [joinTo, List.foldl_cons, ← joinTo, ih, List.map_cons, List.sum_cons, p.nest_exact,
        ← Int.add_assoc]
      cases sign <;> rfl
  rw [nest, hfoldl, s.first.nest_exact, total]

/-- What respects the operators may be applied before or after joining. -/
theorem nest_map {α β : Type} {f : α → β} {combine : Operator → α → α → α}
    {combine' : Operator → β → β → β}
    (h : ∀ op a b, f (combine op a b) = combine' op (f a) (f b)) (s : SumOfProducts α) :
    (s.map f).nest combine' = f (s.nest combine) := by
  have hproduct (p : Product α) : (p.map f).nest combine' = f (p.nest combine) := by
    rw [Product.nest, Product.nest, Product.map, List.foldl_map]
    exact List.foldl_hom f fun a b => (h .times a b).symm
  rw [nest, nest, map, hproduct, joinTo, joinTo, List.foldl_map]
  refine List.foldl_hom f fun a t => ?_
  rw [hproduct, h]

end SumOfProducts

mutual

/-- The integer of an expression, given those of its leaves. -/
def Expr.exact (v : Leaf → Int) : Expr → Int
  | .hex digits => v (.literal digits)
  | .address digits => v (.literal digits)
  | .reference name => v (.reference name)
  | .member layout base field => v (.member layout base field)
  | .binary op a b => op.exact (a.exact v) (b.exact v)
  | .group c => (c.terms v).total
  | .bracket c => (c.terms v).total

/-- The integers of the operands of a chain, cut at its signs. -/
def Chain.terms (v : Leaf → Int) : Chain → SumOfProducts Int
  | .single e => .single (e.exact v)
  | .link e op rest => (rest.terms v).cons (e.exact v) op

end

variable {scope : Scope} {v : Leaf → Int}

/-! ## The word of an expression -/

/-- The word of the leaf is the given integer modulo `2 ^ 16`. -/
def Leaf.HasResidue (scope : Scope) (leaf : Leaf) (n : Int) : Prop :=
  leaf.value scope = .ok (UInt16.ofInt n)

mutual

/-- **Wrapping at every operator is wrapping once.**  If the words of the leaves are integers
modulo `2 ^ 16`, the word of an expression is its integer modulo `2 ^ 16`. -/
theorem Expr.value_of_hasResidue : ∀ e : Expr,
    (∀ leaf ∈ e.leaves, leaf.HasResidue scope (v leaf)) →
      e.value scope = .ok (UInt16.ofInt (e.exact v))
  | .hex _, h | .address _, h | .reference _, h | .member _ _ _, h => by
    rw [Expr.leaves] at h
    rw [Expr.value, Expr.exact]
    exact h _ List.mem_cons_self
  | .binary op a b, h => by
    rw [Expr.leaves, List.forall_mem_append] at h
    rw [Expr.value, Expr.value_of_hasResidue a h.1, Expr.value_of_hasResidue b h.2, Expr.exact,
      Operator.ofInt_exact]
    rfl
  | .group c, h => by
    rw [Expr.leaves] at h
    rw [Expr.value_group, Chain.value_of_hasResidue c h, Expr.exact]
  | .bracket c, h => by
    rw [Expr.leaves] at h
    rw [Expr.value_bracket, Chain.value_of_hasResidue c h, Expr.exact]

theorem Chain.valueFrom_of_hasResidue : ∀ (c : Chain) {p : Pending Word},
    (∀ leaf ∈ c.leaves, leaf.HasResidue scope (v leaf)) →
      c.valueFrom scope p = .ok (((c.terms v).map UInt16.ofInt).nestFrom Operator.apply p)
  | .single e, p, h => by
    rw [Chain.leaves] at h
    rw [Chain.valueFrom, Expr.value_of_hasResidue e h, Chain.terms]
    rfl
  | .link e op rest, p, h => by
    rw [Chain.leaves, List.forall_mem_append] at h
    rw [Chain.terms, SumOfProducts.map_cons, SumOfProducts.nestFrom_cons,
      ← Chain.valueFrom_of_hasResidue rest h.2, Chain.valueFrom, Expr.value_of_hasResidue e h.1]
    rfl

theorem Chain.value_of_hasResidue (c : Chain)
    (h : ∀ leaf ∈ c.leaves, leaf.HasResidue scope (v leaf)) :
    c.value scope = .ok (UInt16.ofInt (c.terms v).total) := by
  rw [Chain.value, Chain.valueFrom_of_hasResidue c h, ← SumOfProducts.nest_exact,
    ← SumOfProducts.nest_map Operator.ofInt_exact]
  rfl

end

/-- If the leaves stand for numbers, the word of an expression is its integer modulo
`2 ^ 16`. -/
theorem Expr.value_of_means (e : Expr) (h : ∀ leaf ∈ e.leaves, leaf.Means scope (v leaf)) :
    e.value scope = .ok (UInt16.ofInt (e.exact v)) :=
  e.value_of_hasResidue fun leaf hleaf => (h leaf hleaf).value_eq

namespace Expr

/-- **The first leaf that stands for nothing is reported.** -/
theorem value_of_fails {e : Expr} {before after : List Leaf} {leaf : Leaf} {err : AssemblyError}
    (hleaves : e.leaves = before ++ leaf :: after)
    (hbefore : ∀ l ∈ before, ∃ n, l.Means scope n) (hfails : leaf.Fails scope err) :
    e.value scope = .error err := by
  have hnone : before.findSome? (Leaf.fault? scope) = none := by
    rw [List.findSome?_eq_none_iff]
    intro l hl
    obtain ⟨n, hn⟩ := hbefore l hl
    exact failure?_eq_none_iff.mpr ⟨_, hn.value_eq⟩
  have hsome : leaf.fault? scope = some err := failure?_eq_some_iff.mpr hfails.value_eq
  rw [← failure?_eq_some_iff, failure?_value, hleaves, List.findSome?_append, hnone,
    List.findSome?_cons, hsome]
  rfl

end Expr

/-- Leaves stand for numbers, all of them or up to a first one that stands for nothing. -/
theorem Leaf.all_mean_or_first_fails (scope : Scope) : ∀ leaves : List Leaf,
    (∀ leaf ∈ leaves, ∃ n, leaf.Means scope n) ∨
      ∃ before leaf after err, leaves = before ++ leaf :: after ∧
        (∀ l ∈ before, ∃ n, l.Means scope n) ∧ leaf.Fails scope err
  | [] => .inl nofun
  | leaf :: leaves => by
    obtain hmeans | ⟨err, hfails⟩ := leaf.means_or_fails scope
    · obtain hall | ⟨before, first, after, err, rfl, hbefore, hfails⟩ :=
        all_mean_or_first_fails scope leaves
      · exact .inl (List.forall_mem_cons.mpr ⟨hmeans, hall⟩)
      · exact .inr ⟨leaf :: before, first, after, err, rfl,
          List.forall_mem_cons.mpr ⟨hmeans, hbefore⟩, hfails⟩
    · exact .inr ⟨[], leaf, leaves, err, rfl, nofun, hfails⟩

/-! ## Folding first -/

mutual

/-- The tree of an expression stands for the integer of the expression. -/
theorem Expr.exact_disambiguate : ∀ e : Expr, e.disambiguate.exact v = e.exact v
  | .hex _ | .address _ | .reference _ | .member _ _ _ | .binary _ _ _ => by
    rw [Expr.disambiguate] <;> simp
  | .group c => by
    rw [Expr.disambiguate_group, Chain.exact_fold c, Expr.exact]
  | .bracket c => by
    rw [Expr.disambiguate_bracket, Chain.exact_fold c, Expr.exact]

theorem Chain.map_exact_disambiguate : ∀ c : Chain,
    (c.summands.map Expr.disambiguate).map (Expr.exact v) = c.terms v
  | .single e => by
    rw [Chain.terms, ← Expr.exact_disambiguate e]
    rfl
  | .link e op rest => by
    rw [Chain.summands, SumOfProducts.map_cons, SumOfProducts.map_cons, Chain.terms,
      Chain.map_exact_disambiguate rest, Expr.exact_disambiguate e]

theorem Chain.exact_fold (c : Chain) : c.fold.exact v = (c.terms v).total := by
  rw [Chain.fold_eq, ← SumOfProducts.nest_exact, ← Chain.map_exact_disambiguate c]
  refine (SumOfProducts.nest_map (fun op a b => ?_) _).symm
  rw [Expr.exact]

end

namespace Expr

/-- Folding before evaluation makes no difference. -/
theorem value_disambiguate (scope : Scope) (e : Expr) :
    e.disambiguate.value scope = e.value scope := by
  obtain hall | ⟨before, leaf, after, err, hleaves, hbefore, hfails⟩ :=
    Leaf.all_mean_or_first_fails scope e.leaves
  · choose! v hv using hall
    have hv' : ∀ leaf ∈ e.disambiguate.leaves, leaf.Means scope (v leaf) := by
      rwa [leaves_disambiguate]
    rw [value_of_means e hv, value_of_means _ hv', exact_disambiguate]
  · rw [value_of_fails hleaves hbefore hfails]
    exact value_of_fails ((leaves_disambiguate e).trans hleaves) hbefore hfails

end Expr

mutual

/-- The operators and the enclosures of an expression, counted together. -/
def Expr.weight : Expr → Nat
  | .hex _ | .address _ | .reference _ | .member _ _ _ => 0
  | .binary _ a b => a.weight + b.weight + 1
  | .group c => c.weight + 1
  | .bracket c => c.weight + 1

/-- The same for a chain, without what encloses it. -/
def Chain.weight : Chain → Nat
  | .single e => e.weight
  | .link e _ rest => e.weight + rest.weight + 1

end

namespace Pending

/-- The weight of what waits for its right operand, with the operators that wait. -/
def weight (p : Pending Expr) : Nat :=
  (p.sum.elim 0 fun x => x.1.weight + 1) + p.product.elim 0 fun x => x.1.weight + 1

variable (p : Pending Expr) (e : Expr)

theorem weight_join (waiting : Option (Expr × Operator)) :
    (join .binary waiting e).weight = (waiting.elim 0 fun x => x.1.weight + 1) + e.weight := by
  cases waiting with
  | none => exact (Nat.zero_add _).symm
  | some x =>
    rw [join, Expr.weight, Nat.add_right_comm]
    rfl

theorem weight_finish : (p.finish .binary e).weight = p.weight + e.weight := by
  rw [finish, weight_join, weight_join, weight, Nat.add_assoc]

theorem weight_next (op : Operator) :
    (p.next .binary e op).weight = p.weight + e.weight + 1 := by
  obtain ⟨sum, product⟩ := p
  cases op <;>
    simp only [next, weight, Option.elim_some, Option.elim_none, weight_join, Nat.add_assoc,
      Nat.add_zero]

end Pending

mutual

theorem Expr.weight_disambiguate_le : ∀ e : Expr, e.disambiguate.weight ≤ e.weight
  | .hex _ | .address _ | .reference _ | .member _ _ _ | .binary _ _ _ => by
    rw [Expr.disambiguate] <;> simp
  | .group c => by
    rw [Expr.disambiguate_group, Expr.weight]
    exact Nat.le_succ_of_le (Chain.weight_fold_le c)
  | .bracket c => by
    rw [Expr.disambiguate_bracket, Expr.weight]
    exact Nat.le_succ_of_le (Chain.weight_fold_le c)

theorem Chain.weight_foldFrom_le :
    ∀ (c : Chain) (p : Pending Expr), (c.foldFrom p).weight ≤ p.weight + c.weight
  | .single e, p => by
    rw [Chain.foldFrom, Pending.weight_finish, Chain.weight]
    exact Nat.add_le_add_left (Expr.weight_disambiguate_le e) _
  | .link e op rest, p => by
    have hrest := Chain.weight_foldFrom_le rest (p.next .binary e.disambiguate op)
    have he := Expr.weight_disambiguate_le e
    rw [Pending.weight_next] at hrest
    rw [Chain.foldFrom, Chain.weight]
    omega

/-- A chain becomes no heavier by folding, and what enclosed it is gone. -/
theorem Chain.weight_fold_le (c : Chain) : c.fold.weight ≤ c.weight := by
  have h := Chain.weight_foldFrom_le c .start
  rwa [show Pending.weight .start = 0 from rfl, Nat.zero_add] at h

end

/-- Evaluation that folds every chain first, and then evaluates its tree.  Enclosed chains may
stand inside a tree too. -/
def Expr.valueByFolding (scope : Scope) : Expr → Except AssemblyError Word
  | .hex digits => (Leaf.literal digits).value scope
  | .address digits => (Leaf.literal digits).value scope
  | .reference name => (Leaf.reference name).value scope
  | .member layout base field => (Leaf.member layout base field).value scope
  | .binary op a b => do
    let x ← a.valueByFolding scope
    let y ← b.valueByFolding scope
    pure (op.apply x y)
  | .group c => c.fold.valueByFolding scope
  | .bracket c => c.fold.valueByFolding scope
termination_by e => e.weight
decreasing_by
  -- a fold weighs no more than its chain, and the enclosure was on top of that
  all_goals rw [Expr.weight]
  · omega
  · omega
  · exact Nat.lt_succ_of_le c.weight_fold_le
  · exact Nat.lt_succ_of_le c.weight_fold_le

namespace Expr

theorem valueByFolding_eq (scope : Scope) (e : Expr) :
    e.valueByFolding scope = e.value scope := by
  induction e using valueByFolding.induct with
  | case5 op a b iha ihb => rw [valueByFolding, iha, ihb, value]
  | case6 c ih => rw [valueByFolding, ih, ← disambiguate_group, value_disambiguate]
  | case7 c ih => rw [valueByFolding, ih, ← disambiguate_bracket, value_disambiguate]
  | _ =>
    rw [valueByFolding, value]
    rfl

/-! ## What evaluation comes to -/

/-- What evaluation comes to among the names of a module. -/
structure Evaluates (scope : Scope) (e : Expr) : Prop where
  /-- If the leaves stand for numbers, it comes to the integer of the expression modulo
  `2 ^ 16`. -/
  resolved : ∀ v : Leaf → Int, (∀ leaf ∈ e.leaves, leaf.Means scope (v leaf)) →
    ∃ w : Word, e.value scope = .ok w ∧ (w.toNat : Int) = e.exact v % 65536
  /-- If there is a leaf that stands for nothing, and it is the first, it comes to the error of
  that leaf. -/
  failed : ∀ before leaf after err, e.leaves = before ++ leaf :: after →
    (∀ l ∈ before, ∃ n, l.Means scope n) → leaf.Fails scope err →
      e.value scope = .error err
  /-- There is no third case. -/
  decided : (∃ v : Leaf → Int, ∀ leaf ∈ e.leaves, leaf.Means scope (v leaf)) ∨
    ∃ before leaf after err, e.leaves = before ++ leaf :: after ∧
      (∀ l ∈ before, ∃ n, l.Means scope n) ∧ leaf.Fails scope err
  /-- The tree of the expression evaluates to the same. -/
  folded : e.disambiguate.value scope = e.value scope
  /-- So does the expression if every chain is folded first. -/
  byFolding : e.valueByFolding scope = e.value scope

/-- **Evaluation gives an expression its meaning.**  Whatever is nested in whatever, it comes to
the integer that the expression stands for by the rules of arithmetic, modulo `2 ^ 16`; or else to
the error of the first leaf, from left to right, that stands for nothing. -/
theorem evaluates (scope : Scope) (e : Expr) : e.Evaluates scope where
  resolved v hv := ⟨_, value_of_means e hv, Word.toNat_ofInt _⟩
  failed _ _ _ _ := value_of_fails
  decided := by
    refine (Leaf.all_mean_or_first_fails scope e.leaves).imp_left fun hall => ?_
    choose! v hv using hall
    exact ⟨v, hv⟩
  folded := value_disambiguate scope e
  byFolding := valueByFolding_eq scope e

end Expr

end WordMachine
