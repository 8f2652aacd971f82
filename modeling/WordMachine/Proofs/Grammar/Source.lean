import Mathlib.Data.List.Forall2
import WordMachine.Grammar.Program
import WordMachine.Proofs.Grammar.Reads

/-!
# Source for expressions and definitions

Statements can be written as source again.  A listing does that for definitions, but not for
instructions, which it shows by their own names and without the marks that tell one kind of
operand from another.  `Statement.source` writes an instruction by its mnemonic and gives
every operand the form in which the grammar expects it: a pointer behind `&`, an operator in
brackets where a value stands, and in an address also a literal, since the digits alone would
be the address of that number.

The operators of a tree lie in parentheses, two operands each.  The grammar reads these as
groups (`Expr.grouped`) and folds them when the bracket closes; with two operands in each
group there is nothing to decide, and the fold gives the tree back
(`Expr.disambiguate_grouped`).

* `Expr.IsTree`, `Operand.WellFormed`, `Statement.WellFormed`: what can be written.
* `Statement.source`, `Program.source`: how it is written.
* `Grammar.MemberText`: how an access to a member may be written besides, with blanks in it.
* `Grammar.reads_leaf`: a tree is read as its groups, however deep it is.
* `Grammar.reads_literalValue`, `Grammar.reads_addressValue`: the values of operands.
-/

namespace WordMachine

open Rule Lexeme

/-! ## What can be written -/

/-- The expression is a tree of operators on literals, references and members. -/
inductive Expr.IsTree : Expr → Prop where
  | hex {digits : String} (h : isDigits digits = true) : IsTree (.hex digits)
  | reference {name : String} (h : isName name = true) : IsTree (.reference name)
  | member {layout base field : String} (hlayout : isName layout = true)
    (hbase : isName base = true) (hfield : isName field = true) : IsTree (.member layout base field)
  | binary {op : Operator} {a b : Expr} (ha : IsTree a) (hb : IsTree b) : IsTree (.binary op a b)

/-- The operand can be written in a position of the given kind. -/
inductive Operand.WellFormed : Kind → Operand → Prop where
  | literal {e : Expr} (h : e.IsTree) : WellFormed .literal (.value e)
  | literal8 {e : Expr} (h : e.IsTree) : WellFormed .literal8 (.value e)
  | address {e : Expr} (h : e.IsTree) : WellFormed .address (.value e)
  | digits {digits : String} (h : isDigits digits = true) :
    WellFormed .address (.value (.address digits))
  | register {slot : Byte} (h : slot.toNat < registerCount) : WellFormed .register (.register slot)
  | pointer {slot : Byte} (h : slot.toNat < registerCount) : WellFormed .pointer (.register slot)

/-- The definition can be written. -/
def Definition.WellFormed : Definition → Prop
  | .label => True
  | .constant digits => isDigits digits = true
  | .data _ values => ∀ digits ∈ values, isDigits digits = true
  | .struct members => ∀ m ∈ members, isName m.1 = true ∧ isDigits m.2 = true

instance : DecidablePred Definition.WellFormed
  | .label => inferInstanceAs (Decidable True)
  | .constant digits => inferInstanceAs (Decidable (isDigits digits = true))
  | .data _ values => inferInstanceAs (Decidable (∀ digits ∈ values, isDigits digits = true))
  | .struct members =>
    inferInstanceAs (Decidable (∀ m ∈ members, isName m.1 = true ∧ isDigits m.2 = true))

/-- The statement can be written.  A move between a register and what `acc` points to cannot:
there `&acc` is the address `0xACC`. -/
def Statement.WellFormed : Statement → Prop
  | .instruction opcode operands =>
    List.Forall₂ Operand.WellFormed opcode.format.operands operands ∧
      (opcode.format = .regPtrReg → operands.head? ≠ some (.register Register.acc.slot)) ∧
      (opcode.format = .regRegPtr → operands.getLast? ≠ some (.register Register.acc.slot))
  | .define _ name definition => isName name = true ∧ definition.WellFormed

/-! ## How it is written -/

/-- The expression as the value of an operand. -/
def Expr.literalSource : Expr → String
  | .binary op a b => "[" ++ (Expr.binary op a b).text ++ "]"
  | e => e.text

/-- The expression as an address. -/
def Expr.addressSource : Expr → String
  | .address digits => "&" ++ digits
  | .hex digits => "&[" ++ (Expr.hex digits).text ++ "]"
  | .binary op a b => "&[" ++ (Expr.binary op a b).text ++ "]"
  | e => "&" ++ e.text

/-- The operand in a position of the given kind. -/
def Operand.source : Kind → Operand → String
  | .address, .value e => e.addressSource
  | _, .value e => e.literalSource
  | .pointer, operand => "&" ++ operand.text
  | _, operand => operand.text

/-- The statement as a line of source. -/
def Statement.source : Statement → String
  | .instruction opcode operands =>
    match List.zipWith Operand.source opcode.format.operands operands with
    | [] => opcode.mnemonic
    | first :: others => opcode.mnemonic ++ " " ++ ", ".intercalate (first :: others)
  | .define isExported name definition => (Statement.define isExported name definition).text

/-- The statements as source, one on a line. -/
def Program.source (statements : List Statement) : String :=
  "\n".intercalate (statements.map Statement.source)

/-- What stands between separators is what stands behind the first piece, each piece behind
its own separator. -/
theorem intercalate_cons_eq {α : Type} (separator x : List α) (xs : List (List α)) :
    separator.intercalate (x :: xs) = x ++ xs.flatMap (separator ++ ·) := by
  induction xs generalizing x with
  | nil => simp [List.intercalate]
  | cons y ys ih =>
    rw [List.intercalate_cons_cons, ih, List.flatMap_cons]
    simp only [List.append_assoc]

/-! ## Trees -/

namespace Expr

/-- The tree as it is read before it is folded: each operator with its operands is a group. -/
def grouped : Expr → Expr
  | .binary op a b => .group (.link a.grouped op (.single b.grouped))
  | e => e

/-- Folding the groups of a tree gives the tree. -/
theorem disambiguate_grouped {e : Expr} (h : e.IsTree) : e.grouped.disambiguate = e := by
  induction h with
  | hex | reference | member => simp only [grouped, disambiguate]
  | @binary op a b ha hb iha ihb =>
    rw [grouped, disambiguate_group, Chain.fold, Chain.foldFrom, Chain.foldFrom, iha, ihb]
    cases op <;> rfl

theorem toList_text_hex (digits : String) : (hex digits).text.toList = '$' :: digits.toList := by
  simp [text]

theorem toList_text_reference (name : String) :
    (reference name).text.toList = '!' :: name.toList := by
  simp [text]

theorem toList_text_member (layout base field : String) :
    (member layout base field).text.toList =
      '<' :: (layout.toList ++ '>' :: ' ' :: (base.toList ++ '.' :: field.toList)) := by
  simp [text]

theorem toList_text_binary (op : Operator) (a b : Expr) :
    (binary op a b).text.toList =
      '(' :: (a.text.toList ++ ' ' :: (op.sign.toList ++ ' ' :: (b.text.toList ++ [')']))) := by
  simp [text]

/-- The text of a tree begins with a sign, and with no blank. -/
theorem IsTree.stops {e : Expr} (h : e.IsTree) {p : Char → Bool}
    (hp : p '$' = false ∧ p '!' = false ∧ p '<' = false ∧ p '(' = false) (rest : List Char) :
    Stops p (e.text.toList ++ rest) := by
  obtain ⟨hhex, hreference, hmember, hgroup⟩ := hp
  cases h with
  | hex => rwa [toList_text_hex]
  | reference => rwa [toList_text_reference]
  | member => rwa [toList_text_member]
  | binary => rwa [toList_text_binary]

end Expr

namespace Grammar

variable {rest : List Char}

/-! ## Leaves -/

theorem reads_literalExpr {digits : String} (h : isDigits digits = true)
    (hrest : Stops isNameRest rest) :
    literalExpr.Reads (Expr.hex digits).text.toList (.hex digits) rest := by
  rw [Expr.toList_text_hex]
  exact (reads_hexLiteral h (stops_isHexDigit hrest)).bind_nil (reads_pure _ _)

theorem reads_referenceExpr {name : String} (h : isName name = true)
    (hrest : Stops isNameRest rest) :
    referenceExpr.Reads (Expr.reference name).text.toList (.reference name) rest := by
  rw [Expr.toList_text_reference]
  exact .cons_bind (reads_char _ _) ((reads_identifier h hrest).bind_nil (reads_pure _ _))

/-- The text is an access to a member, with blanks of the line where they may stand. -/
inductive MemberText (layout base field : String) : List Char → Prop where
  | intro {s t u : List Char} (hs : s.all isSpace = true) (ht : t.all isSpace = true)
    (hu : u.all isSpace = true) :
    MemberText layout base field
      ('<' :: (s ++ (layout.toList ++ (t ++ '>' :: (u ++ (base.toList ++ '.' :: field.toList))))))

section Members

variable {layout base field : String} {s : List Char}

theorem memberText_text (layout base field : String) :
    MemberText layout base field (Expr.member layout base field).text.toList := by
  rw [Expr.toList_text_member]
  exact .intro (s := []) (t := []) (u := [' ']) rfl rfl rfl

theorem MemberText.exists_cons (h : MemberText layout base field s) :
    ∃ tail, s = '<' :: tail := by
  cases h
  exact ⟨_, rfl⟩

theorem reads_memberExpr (h : MemberText layout base field s) (hlayout : isName layout = true)
    (hbase : isName base = true) (hfield : isName field = true) (hrest : Stops isNameRest rest) :
    memberExpr.Reads s (.member layout base field) rest := by
  obtain @⟨s, t, u, hs, ht, hu⟩ := h
  refine .cons_bind (reads_char _ _) ((reads_spaces0 hs ?_).bind ?_)
  · rw [List.append_assoc]
    exact stops_isSpace_of_isName hlayout _
  refine (reads_identifier hlayout ?_).bind ((reads_spaces0 ht ?_).bind ?_)
  · rw [List.append_assoc]
    exact stops_append (fun _ => isNameRest_of_isSpace) ht rfl
  · rfl
  refine .cons_bind (reads_char _ _) ((reads_spaces0 hu ?_).bind ?_)
  · rw [List.append_assoc]
    exact stops_isSpace_of_isName hbase _
  refine (reads_identifier hbase ?_).bind (.cons_bind (reads_char _ _) ?_)
  · rfl
  exact (reads_identifier hfield hrest).bind_nil (reads_pure _ _)

end Members

theorem reads_operator (op : Operator) (rest : List Char) :
    operator.Reads op.sign.toList op rest := by
  cases op <;> rfl

/-! ## Chains -/

section Chains

variable {leaf : Rule Expr} {x y : Expr} {s t : List Char}

/-- An operator and the leaf behind it. -/
def linkOf (leaf : Rule Expr) : Rule (Operator × Expr) := do
  let op ← wide operator
  let e ← wide leaf
  pure (op, e)

/-- Here a chain ends, at a parenthesis or a bracket that closes. -/
def ClosesChain (rest : List Char) : Prop := ∃ tail, rest = ')' :: tail ∨ rest = ']' :: tail

theorem ClosesChain.linkOf_eq_none (h : ClosesChain rest) : linkOf leaf rest = none := by
  obtain ⟨tail, rfl | rfl⟩ := h <;> exact bind_eq_none rfl

theorem ClosesChain.stops (h : ClosesChain rest) : Stops isGap rest := by
  obtain ⟨tail, rfl | rfl⟩ := h <;> rfl

/-- The last leaf of a chain has nothing behind it. -/
theorem reads_wide_leaf (hx : leaf.Reads s x rest) (hs : Stops isGap (s ++ rest))
    (hrest : ClosesChain rest) : (wide leaf).Reads s x rest :=
  (reads_wide (s := []) (u := []) hx rfl hs rfl hrest.stops).congr (List.append_nil s).symm

/-- One leaf is a chain. -/
theorem reads_chainOf_single {u : List Char} (hx : leaf.Reads t x (u ++ rest))
    (hs : s.all isGap = true) (ht : Stops isGap (t ++ (u ++ rest))) (hu : u.all isGap = true)
    (hrest : ClosesChain rest) : (chainOf leaf).Reads (s ++ (t ++ u)) (.single x) rest :=
  (reads_wide hx hs ht hu hrest.stops).bind_nil
    ((reads_many_nil hrest.linkOf_eq_none).bind_nil (reads_pure _ _))

/-- Two leaves with an operator between them are a chain. -/
theorem reads_chainOf_link (op : Operator)
    (hx : leaf.Reads s x (' ' :: (op.sign.toList ++ ' ' :: (t ++ rest))))
    (hs : Stops isGap (s ++ ' ' :: (op.sign.toList ++ ' ' :: (t ++ rest))))
    (hy : leaf.Reads t y rest) (ht : Stops isGap (t ++ rest)) (hrest : ClosesChain rest) :
    (chainOf leaf).Reads (s ++ ' ' :: (op.sign.toList ++ ' ' :: t)) (.link x op (.single y))
      rest := by
  have hsign (tail : List Char) : Stops isGap (op.sign.toList ++ tail) := by
    cases op <;> rfl
  have hop : (wide operator).Reads (op.sign.toList ++ [' ']) op (t ++ rest) :=
    reads_wide (s := []) (reads_operator op _) rfl (hsign _) (by decide) ht
  have hlink : (linkOf leaf).Reads (op.sign.toList ++ [' '] ++ t) (op, y) rest :=
    hop.bind ((reads_wide_leaf hy ht hrest).bind_nil (reads_pure _ _))
  have hmany : (many (linkOf leaf)).Reads (op.sign.toList ++ [' '] ++ t) [(op, y)] rest := by
    refine (Reads.many_cons (t := []) hlink ?_ (reads_many_nil hrest.linkOf_eq_none)).congr ?_
    · cases op <;> exact List.cons_ne_nil _ _
    · exact (List.append_nil _).symm
  have hhead : (wide leaf).Reads (s ++ [' ']) x (op.sign.toList ++ [' '] ++ t ++ rest) := by
    have htext : op.sign.toList ++ [' '] ++ t ++ rest =
        op.sign.toList ++ ' ' :: (t ++ rest) := by
      simp only [List.append_assoc, List.cons_append, List.nil_append]
    rw [htext]
    exact reads_wide (s := []) hx rfl hs (by decide) (hsign _)
  show (wide leaf >>= fun head => many (linkOf leaf) >>= fun tail =>
    pure (Chain.ofPairs head tail)).Reads _ (Chain.ofPairs x [(op, y)]) rest
  refine (hhead.bind (hmany.bind_nil ?_)).congr ?_
  · exact reads_pure _ _
  · simp only [List.append_assoc, List.cons_append, List.nil_append]

end Chains

/-! ## Trees -/

/-- What is no group can be read whether there is room for groups or not. -/
theorem reads_leafWithin_of_simple {e : Expr} {s : List Char} (h : simpleLeaf.Reads s e rest)
    (hgroup : char '(' (s ++ rest) = none) (room : List Char) :
    (leafWithin room).Reads s e rest := by
  cases room with
  | nil => exact h
  | cons c room =>
    refine Reads.firstOf [_] (fun q hq => ?_) h
    rw [List.mem_singleton.mp hq]
    exact bind_eq_none hgroup

theorem reads_leafWithin_member {layout base field : String} {s : List Char}
    (h : MemberText layout base field s) (hlayout : isName layout = true)
    (hbase : isName base = true) (hfield : isName field = true) (hrest : Stops isNameRest rest)
    (room : List Char) : (leafWithin room).Reads s (.member layout base field) rest := by
  have hread := reads_memberExpr h hlayout hbase hfield hrest
  obtain ⟨tail, rfl⟩ := h.exists_cons
  refine reads_leafWithin_of_simple ?_ rfl room
  refine Reads.firstOf [_, _] (fun q hq => ?_) hread
  rcases List.mem_pair.mp hq with rfl | rfl <;> exact bind_eq_none rfl

/-- A tree is read as its groups if there is as much room as its text is long. -/
theorem reads_leafWithin {e : Expr} (h : e.IsTree) {room : List Char}
    (hroom : e.text.toList.length ≤ room.length) (hrest : Stops isNameRest rest) :
    (leafWithin room).Reads e.text.toList e.grouped rest := by
  induction h generalizing room rest with
  | hex hd =>
    refine reads_leafWithin_of_simple ?_ ?_ room
    · exact Reads.firstOf [] nofun (reads_literalExpr hd hrest)
    · rw [Expr.toList_text_hex]
      rfl
  | reference hn =>
    refine reads_leafWithin_of_simple ?_ ?_ room
    · refine Reads.firstOf [_] (fun q hq => ?_) (reads_referenceExpr hn hrest)
      rw [List.mem_singleton.mp hq, Expr.toList_text_reference]
      exact bind_eq_none rfl
    · rw [Expr.toList_text_reference]
      rfl
  | member hl hb hf => exact reads_leafWithin_member (memberText_text _ _ _) hl hb hf hrest room
  | @binary op a b ha hb iha ihb =>
    rw [Expr.toList_text_binary] at hroom ⊢
    rw [Expr.grouped]
    simp only [List.length_cons, List.length_append] at hroom
    cases room with
    | nil => exact absurd hroom (Nat.not_succ_le_zero _)
    | cons c room =>
      rw [List.length_cons] at hroom
      refine Reads.firstOf [] nofun (.cons_bind (reads_char _ _) ?_)
      have hcloses : ClosesChain ([')'] ++ rest) := ⟨rest, .inl rfl⟩
      have haroom : a.text.toList.length ≤ room.length := by omega
      have hbroom : b.text.toList.length ≤ room.length := by omega
      have hb' := ihb hbroom (show Stops isNameRest ([')'] ++ rest) from rfl)
      have hchain := reads_chainOf_link op (iha haroom rfl) (ha.stops (by decide) _) hb'
        (hb.stops (by decide) _) hcloses
      refine (hchain.bind ((reads_char _ _).bind_nil ?_)).congr ?_
      · exact reads_pure _ _
      · simp only [List.append_assoc, List.cons_append]

/-- A tree is read as its groups. -/
theorem reads_leaf {e : Expr} (h : e.IsTree) (hrest : Stops isNameRest rest) :
    leaf.Reads e.text.toList e.grouped rest := by
  have hroom : e.text.toList.length ≤ (e.text.toList ++ rest).length := by
    rw [List.length_append]
    exact Nat.le_add_right _ _
  exact reads_leafWithin h hroom hrest

/-- One leaf in brackets, with any blanks around it, is read as its fold. -/
theorem reads_bracketExpr_single {x : Expr} {s t u : List Char}
    (hx : leaf.Reads t x (u ++ ']' :: rest)) (hs : s.all isGap = true)
    (ht : Stops isGap (t ++ (u ++ ']' :: rest))) (hu : u.all isGap = true) :
    bracketExpr.Reads ('[' :: (s ++ (t ++ u) ++ [']'])) x.disambiguate rest := by
  have hcloses : ClosesChain ([']'] ++ rest) := ⟨rest, .inr rfl⟩
  have hchain : chain.Reads (s ++ (t ++ u)) (.single x) ([']'] ++ rest) :=
    reads_chainOf_single hx hs ht hu hcloses
  refine .cons_bind (reads_char _ _) (hchain.bind ((reads_char _ _).bind_nil ?_))
  rw [Expr.disambiguate_bracket, Chain.fold_single]
  exact reads_pure _ _

/-- A tree in brackets is read as itself. -/
theorem reads_bracketExpr {e : Expr} (h : e.IsTree) (rest : List Char) :
    bracketExpr.Reads ('[' :: (e.text.toList ++ [']'])) e rest := by
  have hleaf : leaf.Reads e.text.toList e.grouped ([] ++ ']' :: rest) := reads_leaf h rfl
  have hread := reads_bracketExpr_single (s := []) hleaf rfl (h.stops (by decide) _) rfl
  rwa [Expr.disambiguate_grouped h, List.nil_append, List.append_nil] at hread

/-! ## The values of operands -/

section Values

variable {first : Rule Expr}

/-- The values that operands of both kinds can have, behind what is theirs alone. -/
def valueOf (first : Rule Expr) : Rule Expr :=
  firstOf [first, bracketExpr, referenceExpr, memberExpr]

theorem reads_valueOf_bracket (hfirst : ∀ s, first ('[' :: s) = none) {e : Expr} {s : List Char}
    (h : bracketExpr.Reads ('[' :: s) e rest) : (valueOf first).Reads ('[' :: s) e rest := by
  refine Reads.firstOf [_] (fun q hq => ?_) h
  rw [List.mem_singleton.mp hq]
  exact hfirst _

theorem reads_valueOf_reference (hfirst : ∀ s, first ('!' :: s) = none) {name : String}
    (h : isName name = true) (hrest : Stops isNameRest rest) :
    (valueOf first).Reads (Expr.reference name).text.toList (.reference name) rest := by
  refine Reads.firstOf [_, _] (fun q hq => ?_) (reads_referenceExpr h hrest)
  rw [Expr.toList_text_reference]
  rcases List.mem_pair.mp hq with rfl | rfl
  · exact hfirst _
  · exact bind_eq_none rfl

theorem reads_valueOf_member (hfirst : ∀ s, first ('<' :: s) = none) {layout base field : String}
    {s : List Char} (h : MemberText layout base field s) (hlayout : isName layout = true)
    (hbase : isName base = true) (hfield : isName field = true) (hrest : Stops isNameRest rest) :
    (valueOf first).Reads s (.member layout base field) rest := by
  have hread := reads_memberExpr h hlayout hbase hfield hrest
  obtain ⟨tail, rfl⟩ := h.exists_cons
  refine Reads.firstOf [_, _, _] (fun q hq => ?_) hread
  simp only [List.mem_cons, List.not_mem_nil, or_false] at hq
  rcases hq with rfl | rfl | rfl
  · exact hfirst _
  · exact bind_eq_none rfl
  · exact bind_eq_none rfl

end Values

theorem reads_literalValue {e : Expr} (h : e.IsTree) (hrest : Stops isNameRest rest) :
    literalValue.Reads e.literalSource.toList e rest := by
  cases h with
  | hex hd => exact Reads.firstOf [] nofun (reads_literalExpr hd hrest)
  | reference hn => exact reads_valueOf_reference (fun _ => rfl) hn hrest
  | member hl hb hf =>
    exact reads_valueOf_member (fun _ => rfl) (memberText_text _ _ _) hl hb hf hrest
  | @binary op a b ha hb =>
    refine (reads_valueOf_bracket (fun _ => rfl) (reads_bracketExpr (.binary ha hb) rest)).congr ?_
    simp only [Expr.literalSource, String.toList_append]
    rfl

theorem reads_addressExpr {digits : String} (h : isDigits digits = true)
    (hrest : Stops isNameRest rest) :
    addressExpr.Reads digits.toList (.address digits) rest :=
  (reads_hexDigits h (stops_isHexDigit hrest)).bind_nil (reads_pure _ _)

/-- The address that a number is. -/
theorem reads_addressValue_digits {digits : String} (h : isDigits digits = true)
    (hrest : Stops isNameRest rest) :
    addressValue.Reads (Expr.address digits).addressSource.toList (.address digits) rest := by
  rw [Expr.addressSource, String.toList_append]
  exact .cons_bind (reads_char _ _)
    (Reads.firstOf [] nofun (reads_addressExpr h hrest))

theorem reads_addressValue {e : Expr} (h : e.IsTree) (hrest : Stops isNameRest rest) :
    addressValue.Reads e.addressSource.toList e rest := by
  have hbracket {e : Expr} (h : e.IsTree) :
      addressValue.Reads ("&[" ++ e.text ++ "]").toList e rest := by
    rw [String.toList_append, String.toList_append]
    exact .cons_bind (reads_char _ _)
      (reads_valueOf_bracket (fun _ => rfl) (reads_bracketExpr h rest))
  cases h with
  | hex hd => exact hbracket (.hex hd)
  | reference hn =>
    refine (Reads.cons_bind (reads_char _ _)
      (reads_valueOf_reference (fun _ => rfl) hn hrest)).congr ?_
    simp only [Expr.addressSource, String.toList_append]
    rfl
  | member hl hb hf =>
    refine (Reads.cons_bind (reads_char _ _)
      (reads_valueOf_member (fun _ => rfl) (memberText_text _ _ _) hl hb hf hrest)).congr ?_
    simp only [Expr.addressSource, String.toList_append]
    rfl
  | binary ha hb => exact hbracket (.binary ha hb)

end Grammar
end WordMachine
