import Mathlib.Data.List.Induction
import WordMachine.Proofs.Grammar.Composition
import WordMachine.Proofs.Grammar.Cut

/-!
# An error points at the first statement that is wrong

Where the loop over the statements ends with an error, everything in front of that place is a
program.  This is not quite what the loop does: it has read the statements in front with the wrong
one behind them.  That each of them is still read if the text ends there needs two things beside
`Rule.CutsTo`.

An instruction has to come to the end of its line.  Of what it looks at there it reads only the
blanks, so a cut could fall within a break of two characters or within the sign of a comment.  But
then the gap behind the instruction would reach beyond the cut, and an error is always behind a
gap.

And of the forms of a mnemonic, one that was refused may be accepted when there is less text,
before the one that is taken.  Two forms that read the same line are a pair which differs in the
operand `&acc` alone; what the second reads there, the first reads too, whatever follows
(`Grammar.form_ne_none_of_aliased`).  So it was not refused.

* `Grammar.statement_of_append`: a statement in front of less text.
* `Program.exists_of_error`: what is in front of an error, and what is behind it.
* `Position.IsBehind`: lines and columns, said without the loop.
* `Program.failure_cases`: which of the two errors of reading it is.
* `Program.ErrorAt`, `Program.exists_errorAt`: what an error says of the text.
-/

namespace WordMachine

open Rule Lexeme

/-! ## Instructions -/

namespace Lexeme

/-- The ends of a line that are not the end of the text. -/
theorem endsLine_cons_cons {c d : Char} {s : List Char} :
    endsLine (c :: d :: s) = true ↔ c = '\n' ∨ (c = '\r' ∧ d = '\n') ∨ (c = ';' ∧ d = ';') := by
  unfold endsLine
  grind

/-- A line ends in front of a cut if the gap that follows does not reach beyond it. -/
theorem endsLine_of_append {u v : List Char} (h : endsLine (u ++ v) = true)
    (hgap : gapLength (u ++ v) ≤ u.length) : endsLine u = true := by
  match u with
  | [] => rfl
  | c :: d :: u =>
    rw [List.cons_append, List.cons_append, endsLine_cons_cons] at h
    rwa [endsLine_cons_cons]
  | [c] =>
    cases v with
    | nil => exact h
    | cons d v =>
      -- a break of two characters and the sign of a comment both belong to the gap
      have hshort (b : Bool) : ¬ gapFrom b 2 v ≤ 1 :=
        fun hle => absurd (Nat.le_trans (le_gapFrom b 2 v) hle) (by decide)
      rw [List.singleton_append, endsLine_cons_cons] at h
      rcases h with rfl | ⟨rfl, rfl⟩ | ⟨rfl, rfl⟩
      · rfl
      · exact absurd hgap (hshort false)
      · exact absurd hgap (hshort true)

end Lexeme

namespace Grammar

variable {u v : List Char} {k n : Nat}

theorem cutsTo_moreOperands (k : Nat) (kinds : List Kind) :
    CutsTo k (moreOperands kinds) (moreOperands kinds) := by
  induction kinds with
  | nil => exact cutsTo_pure k _
  | cons kind kinds ih =>
    exact (cutsTo_sign k ',').bind fun _ => (cutsTo_operand k kind).bind fun _ => ih.bind fun _ =>
      cutsTo_pure k _

theorem cutsTo_operands (k : Nat) (kinds : List Kind) :
    CutsTo k (operands kinds) (operands kinds) := by
  cases kinds with
  | nil => exact cutsTo_pure k _
  | cons kind kinds =>
    exact (cutsTo_spaces1 k).bind fun _ => (cutsTo_operand k kind).bind fun _ =>
      (cutsTo_moreOperands k kinds).bind fun _ => cutsTo_pure k _

/-- A form in front of less text, if its line still ends. -/
theorem form_of_append {o : Opcode} {st : Statement} (h : form o (u ++ v) = some (st, n))
    (hn : n ≤ u.length) (hgap : gapLength (u.drop n ++ v) ≤ (u.drop n).length) :
    form o u = some (st, n) := by
  obtain ⟨xs, i, _, hxs, hrest, rfl⟩ := exists_of_bind_eq_some h
  obtain ⟨_, j, _, hline, hpure, rfl⟩ := exists_of_bind_eq_some hrest
  obtain ⟨rfl, rfl⟩ := Prod.mk.inj (Option.some.inj hpure)
  obtain ⟨_, b, _, hblank, hahead, rfl⟩ := exists_of_bind_eq_some hline
  rw [ahead] at hahead
  split at hahead
  · rename_i hends
    obtain ⟨-, rfl⟩ := Prod.mk.inj (Option.some.inj hahead)
    rw [List.drop_append_of_le_length (by omega)] at hblank hends
    rw [List.drop_append_of_le_length (by rw [List.length_drop]; omega)] at hends
    have hblank' := cutsTo_spaces0 b _ v _ b hblank (by rw [List.length_drop]; omega)
      (Nat.le_refl b)
    have hends' := endsLine_of_append hends (List.drop_drop ▸ hgap)
    have hline' : lineEnd (u.drop i) = some ((), b + 0) := bind_eq_some hblank' (if_pos hends')
    exact bind_eq_some (cutsTo_operands i _ u v xs i hxs (by omega) (Nat.le_refl i))
      (bind_eq_some hline' rfl)
  · exact absurd hahead.symm (Option.some_ne_none _)

/-! ## Forms that are tried before -/

theorem Aliased.refl {kinds : List Kind} {xs : List Operand} (h : kinds.length = xs.length) :
    Aliased kinds kinds xs := by
  induction kinds generalizing xs with
  | nil =>
    obtain rfl := List.length_eq_zero_iff.mp h.symm
    exact .nil
  | cons kind kinds ih =>
    cases xs with
    | nil => exact nomatch h
    | cons x xs => exact .same (ih (Nat.succ.inj h))

/-- If two rules that read the same line take an address and a pointer behind operands of the same
kinds, then what the second reads can be read by the first. -/
theorem aliased_of_operandsBehind {separator : Rule Unit} {before after : List Kind}
    {s : List Char} {xs : List Operand}
    (h : operandsBehind separator (before ++ .pointer :: after) s = some (xs, n))
    (h' : (operandsBehind separator (before ++ .address :: after)).ReadsLine s) :
    Aliased (before ++ .address :: after) (before ++ .pointer :: after) xs := by
  induction before generalizing separator s xs n with
  | nil =>
    obtain ⟨_, i, _, hi, hrest, -⟩ := exists_of_bind_eq_some h
    obtain ⟨y, j, _, hy, hrest, -⟩ := exists_of_bind_eq_some hrest
    obtain ⟨ys, m, _, hys, hpure, -⟩ := exists_of_bind_eq_some hrest
    obtain ⟨rfl, -⟩ := Prod.mk.inj (Option.some.inj hpure)
    obtain ⟨_, i', hi', hline⟩ := h'.exists_of_bind
    obtain ⟨-, rfl⟩ := Prod.mk.inj (Option.some.inj (hi.symm.trans hi'))
    obtain ⟨x, l, hx, -, hstops⟩ := exists_of_readsLine_operandThen hline
    obtain ⟨r, name, rest, rfl, hofName, hdigits, -, -, -, -⟩ :=
      exists_of_address_of_pointer hx hy hstops
    obtain rfl : r = .acc := by
      have hall : ∀ r : Register, r.name = "acc" → r = .acc := by decide
      exact hall r ((name_eq_of_ofName? hofName).trans (eq_acc_of_isDigits hofName hdigits))
    exact .acc (.refl (yields_moreOperands yields_operand after _ _ _ hys).length_eq)
  | cons kind before ih =>
    obtain ⟨_, i, _, hi, hrest, -⟩ := exists_of_bind_eq_some h
    obtain ⟨y, j, _, hy, hrest, -⟩ := exists_of_bind_eq_some hrest
    obtain ⟨ys, m, _, hys, hpure, -⟩ := exists_of_bind_eq_some hrest
    obtain ⟨rfl, -⟩ := Prod.mk.inj (Option.some.inj hpure)
    obtain ⟨_, i', hi', hline⟩ := h'.exists_of_bind
    obtain ⟨-, rfl⟩ := Prod.mk.inj (Option.some.inj (hi.symm.trans hi'))
    obtain ⟨x, l, hx, hmore⟩ := hline.exists_of_bind
    obtain ⟨rfl, rfl⟩ := Prod.mk.inj (Option.some.inj (hx.symm.trans hy))
    have hnext := hmore.of_map
    rw [← operandsBehind_comma] at hnext hys
    exact .same (ih hys hnext)

/-- Of a pair that reads the same line, the first form reads what the second reads. -/
theorem aliased_of_mem_accPairs {p o : Opcode} {s : List Char} {xs : List Operand}
    (hpair : (p, o) ∈ accPairs) (hp : form p s ≠ none)
    (ho : form o s = some (.instruction o xs, n)) :
    Aliased p.format.operands o.format.operands xs := by
  obtain ⟨before, after, hpkinds, hokinds⟩ := exists_operands_of_mem_accPairs hpair
  obtain ⟨ys, i, _, hys, hrest, -⟩ := exists_of_bind_eq_some ho
  obtain ⟨_, _, _, -, hpure, -⟩ := exists_of_bind_eq_some hrest
  obtain ⟨hst, -⟩ := Prod.mk.inj (Option.some.inj hpure)
  obtain rfl := (Statement.instruction.inj hst).2
  have hline := readsLine_of_form hp
  rw [hpkinds, ← operandsBehind_spaces1] at hline
  rw [hokinds, ← operandsBehind_spaces1] at hys
  rw [hpkinds, hokinds]
  exact aliased_of_operandsBehind hys hline

/-- An instruction in front of less text: the same form is taken. -/
theorem instruction_of_append {st : Statement} (h : instruction (u ++ v) = some (st, n))
    (hn : n ≤ u.length) (hgap : gapLength (u.drop n ++ v) ≤ (u.drop n).length) :
    instruction u = some (st, n) := by
  obtain ⟨mnemonic, i, m, hname, hfirst, rfl⟩ := exists_of_bind_eq_some h
  rw [List.drop_append_of_le_length (by omega)] at hfirst
  rw [← List.drop_drop] at hgap
  obtain ⟨before, o, after, hforms, ho, hbefore⟩ := exists_of_firstOf_map hfirst
  have hcut : form o (u.drop i) = some (st, m) :=
    form_of_append ho (by rw [List.length_drop]; omega) hgap
  obtain ⟨xs, l, hread⟩ := exists_of_form (hcut ▸ Option.some_ne_none _)
  obtain ⟨rfl, rfl⟩ := Prod.mk.inj (Option.some.inj (hcut.symm.trans hread))
  have hrefused : ∀ p ∈ before.map form, p (u.drop i) = none := by
    intro p hp
    obtain ⟨o', ho', rfl⟩ := List.mem_map.mp hp
    by_contra haccepted
    have hpair := mem_accPairs_of_precedes hforms ho' haccepted (hcut ▸ Option.some_ne_none _)
    have haliased := aliased_of_mem_accPairs hpair haccepted hcut
    exact form_ne_none_of_aliased haliased ho (hbefore o' ho')
  refine bind_eq_some (cutsTo_identifier i u v mnemonic i hname (by omega) (Nat.le_refl i)) ?_
  show firstOf ((Opcode.forms mnemonic).map form) (u.drop i) = _
  rw [hforms, List.map_append, firstOf_append_of_none hrefused, List.map_cons, firstOf_cons, hcut]

/-- **A statement is read the same in front of less text**, if what follows is cut behind the gap
that follows. -/
theorem statement_of_append {st : Statement} (h : statement (u ++ v) = some (st, n))
    (hn : n ≤ u.length) (hgap : gapLength (u.drop n ++ v) ≤ (u.drop n).length) :
    statement u = some (st, n) := by
  obtain ⟨rule, hmem, hrule⟩ := (firstOf_eq_some_iff (pairwise_excludes (u ++ v))).mp h
  refine (firstOf_eq_some_iff (pairwise_excludes u)).mpr ⟨rule, hmem, ?_⟩
  simp only [statementRules, List.mem_cons, List.not_mem_nil, or_false] at hmem
  rcases hmem with rfl | rfl | rfl | rfl | rfl
  · exact cutsTo_constant n u v st n hrule hn (Nat.le_refl n)
  · exact cutsTo_data n u v st n hrule hn (Nat.le_refl n)
  · exact cutsTo_struct n u v st n hrule hn (Nat.le_refl n)
  · exact cutsTo_label n u v st n hrule hn (Nat.le_refl n)
  · exact instruction_of_append hrule hn hgap

end Grammar

/-! ## The loop -/

namespace Program

variable {acc : List Placed} {p : Position} {s : List Char}

/-- The text is not at its end, does not begin with a gap and does not begin with a statement. -/
structure IsStuck (s : List Char) : Prop where
  ne_nil : s ≠ []
  startsNoGap : StartsNoGap s
  refused : Grammar.statement s = none

/-- One turn of the loop on a text that is given in pieces: a gap, a statement and the rest. -/
theorem statementsFrom_append_append {a w t : List Char} {st : Statement}
    (hgap : gapLength (a ++ (w ++ t)) = a.length)
    (h : Grammar.statement (w ++ t) = some (st, w.length)) (acc : List Placed) (p : Position) :
    statementsFrom acc p (a ++ (w ++ t)) =
      statementsFrom (⟨(p.advance a).line, st⟩ :: acc) ((p.advance a).advance w) t := by
  have hrest : (a ++ (w ++ t)).drop (gapLength (a ++ (w ++ t))) = w ++ t := by
    rw [hgap, List.drop_left]
  rw [statementsFrom_of_some acc p (hrest ▸ h), hrest, List.drop_left, List.take_left, hgap,
    List.take_left]

/-- Where the loop ends with an error, it stands behind a program. -/
theorem exists_of_error {e : AssemblyError} (h : statementsFrom acc p s = .error e) :
    ∃ u v, s = u ++ v ∧ gapLength (u ++ v) ≤ u.length ∧
      (∃ placed, statementsFrom acc p u = .ok placed) ∧ IsStuck v ∧
      e = failure (p.advance u) v := by
  induction s using turn_induction generalizing acc p with
  | blank s hs =>
    rw [statementsFrom_of_blank _ _ hs] at h
    exact nomatch h
  | none s hne hs =>
    rw [statementsFrom_of_none _ _ hne hs] at h
    have hsplit := List.take_append_drop (gapLength s) s
    have hgap := Nat.le_of_eq ((congrArg gapLength hsplit).trans (length_take_gapLength s).symm)
    exact ⟨_, _, hsplit.symm, hgap,
      ⟨acc.reverse, statementsFrom_of_blank _ _ (isBlank_iff.mp (isBlank_take_gapLength s))⟩,
      ⟨hne, startsNoGap_drop s, hs⟩, (Except.error.inj h).symm⟩
  | some s st n hs ih =>
    have hlength := length_take_gapLength s
    have hn := (Grammar.steady_statement (hs ▸ Option.some_ne_none _)).le_length st n hs
    have hsplit := List.take_append_drop (gapLength s) s
    -- the text in pieces: the gap `a`, the statement `w`, and the rest
    generalize s.take (gapLength s) = a at *
    generalize s.drop (gapLength s) = b at *
    obtain ⟨w, t, rfl, rfl⟩ : ∃ w t, b = w ++ t ∧ n = w.length :=
      ⟨b.take n, b.drop n, (List.take_append_drop n b).symm, (List.length_take_of_le hn).symm⟩
    rw [List.drop_left] at ih
    rw [← hsplit] at h hlength
    rw [statementsFrom_append_append hlength.symm hs] at h
    obtain ⟨u, v, rfl, hgap, ⟨placed, hplaced⟩, hstuck, rfl⟩ := ih h
    have hcut : Grammar.statement (w ++ u) = some (st, w.length) := by
      refine Grammar.statement_of_append (v := v) (by rwa [List.append_assoc]) ?_ ?_
      · rw [List.length_append]
        exact Nat.le_add_right _ _
      · rwa [List.drop_left]
    have hfront : gapLength ((a ++ (w ++ u)) ++ v) = a.length := by
      rw [List.append_assoc, List.append_assoc]
      exact hlength.symm
    have hfront_le : gapLength ((a ++ (w ++ u)) ++ v) ≤ (a ++ (w ++ u)).length := by
      rw [hfront, List.length_append]
      exact Nat.le_add_right _ _
    refine ⟨a ++ (w ++ u), v, ?_, hfront_le, ⟨placed, ?_⟩, hstuck, ?_⟩
    · rw [← hsplit, List.append_assoc, List.append_assoc]
    · rw [statementsFrom_append_append ((gapLength_of_append hfront_le).trans hfront) hcut,
        hplaced]
    · rw [Position.advance_append, Position.advance_append]

end Program

/-! ## Places in texts -/

namespace Position

/-- Within a line only the column moves. -/
theorem advance_of_not_mem {s : List Char} (h : '\n' ∉ s) (p : Position) :
    p.advance s = ⟨p.line, p.column + (String.ofList s).utf8ByteSize⟩ := by
  induction s generalizing p with
  | nil => rfl
  | cons c s ih =>
    obtain ⟨hc, hs⟩ := not_or.mp (List.mem_cons.not.mp h)
    show (p.step c).advance s = _
    rw [ih hs, step, if_neg (Ne.symm hc), String.ofList_cons, String.utf8ByteSize_append,
      String.utf8ByteSize_singleton, Nat.add_assoc]

/-- The place is the one behind the text: its line is one more than there are breaks of line in
the text, and its column is one more than there are bytes behind the last of these. -/
structure IsBehind (p : Position) (text : String) : Prop where
  line : p.line = text.toList.count '\n' + 1
  column : ∃ head tail, text = head ++ tail ∧ (head = "" ∨ ∃ front, head = front ++ "\n") ∧
    '\n' ∉ tail.toList ∧ p.column = text.utf8ByteSize - head.utf8ByteSize + 1

/-- A text is lines, and behind these a piece of a line. -/
theorem exists_lines (s : List Char) :
    ∃ head tail, s = head ++ tail ∧ (head = [] ∨ ∃ front, head = front ++ ['\n']) ∧
      '\n' ∉ tail := by
  induction s using List.reverseRecOn with
  | nil => exact ⟨[], [], rfl, .inl rfl, List.not_mem_nil⟩
  | append_singleton s c ih =>
    by_cases hc : c = '\n'
    · exact ⟨s ++ [c], [], (List.append_nil _).symm, .inr ⟨s, hc ▸ rfl⟩, List.not_mem_nil⟩
    · obtain ⟨head, tail, rfl, hhead, htail⟩ := ih
      refine ⟨head, tail ++ [c], List.append_assoc _ _ _, hhead, ?_⟩
      rw [List.mem_append, List.mem_singleton]
      exact not_or.mpr ⟨htail, Ne.symm hc⟩

theorem isBehind_advance (text : List Char) :
    (start.advance text).IsBehind (String.ofList text) := by
  obtain ⟨head, tail, rfl, hhead, htail⟩ := exists_lines text
  have hplace : start.advance head = ⟨head.count '\n' + 1, 1⟩ := by
    rcases hhead with rfl | ⟨front, rfl⟩
    · rfl
    · rw [advance_break, List.count_append, List.count_singleton_self, Nat.add_comm start.line]
      rfl
  rw [advance_append, hplace, advance_of_not_mem htail]
  constructor
  · rw [String.toList_ofList, List.count_append, List.count_eq_zero.mpr htail, Nat.add_zero]
  · refine ⟨.ofList head, .ofList tail, String.ofList_append .., ?_, ?_, ?_⟩
    · rcases hhead with rfl | ⟨front, rfl⟩
      · exact .inl rfl
      · exact .inr ⟨.ofList front, String.ofList_append ..⟩
    · rwa [String.toList_ofList]
    · rw [String.ofList_append, String.utf8ByteSize_append, Nat.add_sub_cancel_left]
      exact Nat.add_comm 1 _

end Position

namespace Program

/-! ## The error -/

/-- The text begins with the name, and the name ends there. -/
def BeginsWithName (name : String) (text : List Char) : Prop :=
  isName name = true ∧ ∃ rest, text = name.toList ++ rest ∧ Stops isNameRest rest

theorem beginsWithName_iff {name : String} {text : List Char} :
    BeginsWithName name text ↔ ∃ n, identifier text = some (name, n) := by
  constructor
  · rintro ⟨hname, rest, rfl, hrest⟩
    exact ⟨_, reads_identifier hname hrest⟩
  · rintro ⟨n, h⟩
    obtain ⟨rest, htext, -, hrest⟩ := Grammar.exists_of_identifier h
    exact ⟨Grammar.yields_identifier _ _ _ h, rest, htext, hrest⟩

theorem BeginsWithName.unique {name name' : String} {text : List Char}
    (h : BeginsWithName name text) (h' : BeginsWithName name' text) : name = name' := by
  obtain ⟨n, hn⟩ := beginsWithName_iff.mp h
  obtain ⟨n', hn'⟩ := beginsWithName_iff.mp h'
  exact (Prod.mk.inj (Option.some.inj (hn.symm.trans hn'))).1

/-- The name is that of an instruction, if its letters are made small. -/
def IsMnemonic (name : String) : Prop := ∃ o : Opcode, o.mnemonic = name.map Char.toLower

theorem isMnemonic_iff {name : String} : IsMnemonic name ↔ (Opcode.forms name).isEmpty = false := by
  rw [List.isEmpty_eq_false_iff_exists_mem]
  exact exists_congr fun o => Opcode.mem_forms.symm

/-- How the text is quoted: its first line without the blanks at the end. -/
def quoted (text : List Char) : String := String.ofList (Text.trimEnd (Text.firstLine text))

theorem failure_cases (p : Position) (s : List Char) :
    (∃ name, BeginsWithName name s ∧ IsMnemonic name ∧
      failure p s = .unknownInstruction p.line name) ∨
    ((∀ name, BeginsWithName name s → ¬ IsMnemonic name) ∧
      failure p s = .unexpected p.line p.column (quoted s)) := by
  rw [failure]
  cases hname : identifier s with
  | none =>
    refine .inr ⟨fun name hbegins => ?_, rfl⟩
    obtain ⟨n, hn⟩ := beginsWithName_iff.mp hbegins
    exact absurd (hname.symm.trans hn).symm (Option.some_ne_none _)
  | some r =>
    obtain ⟨name, n⟩ := r
    have hbegins : BeginsWithName name s := beginsWithName_iff.mpr ⟨n, hname⟩
    dsimp only
    split
    · rename_i hforms
      refine .inr ⟨fun name' hbegins' hknown => ?_, rfl⟩
      obtain rfl := hbegins'.unique hbegins
      rw [isMnemonic_iff.mp hknown] at hforms
      exact Bool.false_ne_true hforms
    · rename_i hforms
      exact .inl ⟨name, hbegins, isMnemonic_iff.mpr (Bool.eq_false_iff.mpr hforms), rfl⟩

/-- What an error says of the text, which is cut in two where the error is found.  The offset of
the error in bytes is the size of the first piece. -/
structure ErrorAt (before after : String) (e : AssemblyError) : Prop where
  parses : ∃ placed, parse before = .ok placed
  ne_empty : after ≠ ""
  noBlank : ∀ c rest, after.toList = c :: rest → c ∉ [' ', '\t', '\r', '\n']
  noComment : ¬ [';', ';'] <+: after.toList
  refused : ∀ rule ∈ Grammar.statementRules, rule after.toList = none
  /-- Of an instruction that exists, its operands are at fault. -/
  unknown_iff : ∀ line name, e = .unknownInstruction line name ↔
    line = linesOf before ∧ BeginsWithName name after.toList ∧ IsMnemonic name
  unexpected : (∀ name, BeginsWithName name after.toList → ¬ IsMnemonic name) →
    ∃ p : Position, p.IsBehind before ∧ e = .unexpected p.line p.column (quoted after.toList)

theorem errorAt_of_isStuck {u v : List Char} {placed : List Placed}
    (hparses : statementsFrom [] .start u = .ok placed) (hstuck : IsStuck v) :
    ErrorAt (.ofList u) (.ofList v) (failure (Position.start.advance u) v) := by
  have hu : (String.ofList u).toList = u := String.toList_ofList
  have hv : (String.ofList v).toList = v := String.toList_ofList
  have hplace := Position.isBehind_advance u
  have hcases := failure_cases (Position.start.advance u) v
  constructor
  case parses => exact ⟨placed, by rwa [parse, hu]⟩
  case ne_empty =>
    intro hempty
    rw [hempty] at hv
    exact hstuck.ne_nil hv.symm
  case noBlank =>
    intro c rest hcons
    have hgap : isGap c = false := hstuck.startsNoGap.1 c (by rw [← hv, hcons]; rfl)
    simpa [isGap, isSpace, isBreak, and_assoc] using hgap
  case noComment =>
    rw [hv]
    exact hstuck.startsNoGap.2
  case refused =>
    intro rule hrule
    rw [hv]
    cases hread : rule v with
    | none => rfl
    | some r =>
      have hsome := (firstOf_eq_some_iff (Grammar.pairwise_excludes v)).mpr ⟨rule, hrule, hread⟩
      exact absurd (hstuck.refused.symm.trans hsome).symm (Option.some_ne_none _)
  case unknown_iff =>
    intro line name
    rw [hv, linesOf, ← hplace.line]
    rcases hcases with ⟨known, hbegins, hknown, he⟩ | ⟨hnone, he⟩
    · rw [he, AssemblyError.unknownInstruction.injEq]
      constructor
      · rintro ⟨rfl, rfl⟩
        exact ⟨rfl, hbegins, hknown⟩
      · rintro ⟨rfl, hbegins', -⟩
        exact ⟨rfl, hbegins.unique hbegins'⟩
    · rw [he]
      refine iff_of_false AssemblyError.noConfusion ?_
      rintro ⟨-, hbegins, hknown⟩
      exact hnone name hbegins hknown
  case unexpected =>
    intro hnone
    rw [hv] at hnone ⊢
    rcases hcases with ⟨known, hbegins, hknown, -⟩ | ⟨-, he⟩
    · exact absurd hknown (hnone known hbegins)
    · exact ⟨_, hplace, he⟩

/-- **An error points at the first statement that is wrong.**  Where a text is no program, it can
be cut in two, such that the first piece is a program and the second begins with no statement,
and with no blank or comment either; and the error gives the place of the cut.  Reading ends
because each statement takes at least one character. -/
theorem exists_errorAt :
    (∀ source e, parse source = .error e →
      ∃ before after, source = before ++ after ∧
        before.utf8ByteSize < source.utf8ByteSize ∧ ErrorAt before after e) ∧
    ∀ s st n, Grammar.statement s = some (st, n) → 0 < n ∧ n ≤ s.length := by
  refine ⟨fun source e h => ?_, fun s st n h => ⟨Grammar.statement_pos h,
    (Grammar.steady_statement (h ▸ Option.some_ne_none _)).le_length st n h⟩⟩
  obtain ⟨u, v, hsplit, -, ⟨placed, hplaced⟩, hstuck, rfl⟩ := exists_of_error h
  have hsource : source = .ofList u ++ .ofList v := by
    rw [← String.ofList_append, ← hsplit, String.ofList_toList]
  have herror := errorAt_of_isStuck hplaced hstuck
  refine ⟨.ofList u, .ofList v, hsource, ?_, herror⟩
  rw [hsource, String.utf8ByteSize_append]
  exact Nat.lt_add_of_pos_right (Nat.pos_of_ne_zero (String.utf8ByteSize_eq_zero_iff.not.mpr
    herror.ne_empty))

/-- Two texts with an error.  In both it stands behind a comment that holds a character of two bytes
and that a return ends, where for columns no line ends; in the first the error is no statement, in
the second it is an instruction without its operands. -/
def faultyTexts : String × String :=
  ("struct p \x7b\nx: $1 \x7d ;; é\r ? x \nhlt", "psh $1\n\r;; é\rMOV ?\nhlt")

/-- The column counts the bytes from the last break of line on. -/
theorem exists_errorAt_faulty :
    (parse faultyTexts.1 = .error (.unexpected 2 16 "? x") ∧
      ∃ before after, faultyTexts.1 = before ++ after ∧
        before.utf8ByteSize < faultyTexts.1.utf8ByteSize ∧
        ErrorAt before after (.unexpected 2 16 "? x")) ∧
    parse faultyTexts.2 = .error (.unknownInstruction 2 "MOV") ∧
      ∃ before after, faultyTexts.2 = before ++ after ∧
        before.utf8ByteSize < faultyTexts.2.utf8ByteSize ∧
        ErrorAt before after (.unknownInstruction 2 "MOV") := by
  have hunexpected : parse faultyTexts.1 = .error (.unexpected 2 16 "? x") := by decide +kernel
  have hunknown : parse faultyTexts.2 = .error (.unknownInstruction 2 "MOV") := by decide +kernel
  exact ⟨⟨hunexpected, exists_errorAt.1 _ _ hunexpected⟩, hunknown,
    exists_errorAt.1 _ _ hunknown⟩

end Program
end WordMachine
