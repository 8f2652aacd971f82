import WordMachine.Assembly.Scope
import WordMachine.Expr.Precedence

/-!
# The value of an expression

A value is a word, and all arithmetic wraps.  A literal may have any number of
digits: only its value modulo `2 ^ 16` counts, so that its last four digits
survive.  A reference resolves to what its name is bound to, and an access to a
struct member to the address of the struct plus the member's offset.

Operands are evaluated in the order in which they are written, so of several that
do not resolve the leftmost one is reported.
-/

namespace WordMachine

/-- The number that hexadecimal digits spell, modulo `2 ^ 16`.  A character that
is no digit is passed over. -/
def hexWord (digits : String) : Word :=
  (digits.toList.filterMap Text.hexValue?).foldl (fun v d => v * 16 + UInt16.ofNat d) 0

/-- The word that an operator makes of two words. -/
def Operator.apply : Operator → Word → Word → Word
  | .plus, a, b => a + b
  | .minus, a, b => a - b
  | .times, a, b => a * b

/-- The value of a name. -/
def Scope.resolve (s : Scope) (name : String) : Except AssemblyError Word :=
  match s.value? name with
  | some w => .ok w
  | none => .error (.unresolvedLabel name)

/-- The address of a member of a struct that lies at the address `base` is bound
to.  The struct is looked up first, then its member, then the base. -/
def Scope.resolveMember (s : Scope) (layout base field : String) : Except AssemblyError Word :=
  match s.struct? layout with
  | none => .error (.unresolvedStruct layout)
  | some found =>
    match found.member? field with
    | none => .error (.unknownMember layout field)
    | some member =>
      match s.value? base with
      | none => .error (.unresolvedSymbol base)
      | some w => .ok (w + member.offset)

mutual

/-- The value of an expression among the names of a module. -/
def Expr.value (scope : Scope) : Expr → Except AssemblyError Word
  | .hex digits => .ok (hexWord digits)
  | .address digits => .ok (hexWord digits)
  | .reference name => scope.resolve name
  | .member layout base field => scope.resolveMember layout base field
  | .binary op a b => do
    let x ← a.value scope
    let y ← b.value scope
    pure (op.apply x y)
  | .group chain => chain.valueFrom scope .start
  | .bracket chain => chain.valueFrom scope .start

/-- The value of a chain of which some operands have been read. -/
def Chain.valueFrom (scope : Scope) (p : Pending Word) : Chain → Except AssemblyError Word
  | .single e => do
    let x ← e.value scope
    pure (p.finish Operator.apply x)
  | .link e op rest => do
    let x ← e.value scope
    rest.valueFrom scope (p.next Operator.apply x op)

end

/-- The value of a chain. -/
def Chain.value (scope : Scope) (c : Chain) : Except AssemblyError Word :=
  c.valueFrom scope .start

@[simp] theorem Expr.value_group (scope : Scope) (c : Chain) :
    (Expr.group c).value scope = c.value scope := by
  rw [Expr.value, Chain.value]

@[simp] theorem Expr.value_bracket (scope : Scope) (c : Chain) :
    (Expr.bracket c).value scope = c.value scope := by
  rw [Expr.value, Chain.value]

/-- A single operand is worth what it is worth on its own. -/
@[simp] theorem Chain.value_single (scope : Scope) (e : Expr) :
    (Chain.single e).value scope = e.value scope := by
  rw [Chain.value, Chain.valueFrom]
  cases e.value scope <;> rfl

end WordMachine
