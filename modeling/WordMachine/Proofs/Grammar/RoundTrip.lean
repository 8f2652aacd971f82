import WordMachine.Proofs.Grammar.Answers

/-!
# Parsing undoes printing

Statements that can be written, written one on a line, are read back as themselves and on
these lines.  Each statement is read in front of the end of its line, whatever the other lines
hold; no statement has a break within it, since names, digits, operators and the words of the
language have none, and so the count of the lines is the count of the statements.

In the other direction, what is read from any text whatever can be written.  The two together
say that a program that was read is read again from its own print.

* `Grammar.reads_statement`: a statement is read in front of the end of its line.
* `Statement.oneLine_source`: a statement is one line.
* `Program.statementsFrom_of_reads`, `Program.statementsFrom_lines`: one turn of the loop over
  the statements, and all of them.
* `Program.parse_undoes_printing`: both directions.
-/

namespace WordMachine

open Rule Lexeme

/-! ## Texts of one line -/

/-- There is no break of lines in the text. -/
def OneLine (s : List Char) : Prop := ∀ c ∈ s, c ≠ '\n'

instance (s : List Char) : Decidable (OneLine s) :=
  List.decidableBAll (· ≠ '\n') s

namespace OneLine

variable {s t : List Char} {c : Char}

theorem append_iff : OneLine (s ++ t) ↔ OneLine s ∧ OneLine t := List.forall_mem_append

theorem cons_iff : OneLine (c :: s) ↔ c ≠ '\n' ∧ OneLine s := List.forall_mem_cons

theorem nil : OneLine [] := List.forall_mem_nil _

/-- A text of characters of a kind to which breaks do not belong. -/
theorem of_all {p : Char → Bool} (hp : p '\n' = false) (h : s.all p = true) :
    OneLine s := by
  rintro c hc rfl
  rw [List.all_eq_true.mp h _ hc] at hp
  exact nomatch hp

theorem of_isName {name : String} (h : isName name = true) : OneLine name.toList :=
  of_all rfl (all_isNameRest_of_isName h)

theorem of_isDigits {digits : String} (h : isDigits digits = true) : OneLine digits.toList := by
  rw [isDigits, Bool.and_eq_true] at h
  exact of_all rfl h.2

theorem flatMap {α : Type} {xs : List α} {f : α → List Char} (h : ∀ x ∈ xs, OneLine (f x)) :
    OneLine (xs.flatMap f) := by
  intro c hc
  obtain ⟨x, hx, hcx⟩ := List.mem_flatMap.mp hc
  exact h x hx c hcx

theorem bracedText {items : List String} (h : ∀ item ∈ items, OneLine item.toList) :
    OneLine (bracedText items).toList := by
  rw [WordMachine.bracedText, String.toList_append, String.toList_append, append_iff, append_iff,
    String.toList_intercalate]
  refine ⟨⟨by decide, ?_⟩, by decide⟩
  cases items with
  | nil => exact nil
  | cons item items =>
    rw [List.forall_mem_cons] at h
    rw [List.map_cons, intercalate_cons_eq, append_iff, List.flatMap_map]
    exact ⟨h.1, .flatMap fun x hx => append_iff.mpr ⟨by decide, h.2 x hx⟩⟩

end OneLine

theorem Expr.IsTree.oneLine_text {e : Expr} (h : e.IsTree) : OneLine e.text.toList := by
  induction h with
  | hex h =>
    rw [toList_text_hex]
    exact OneLine.cons_iff.mpr ⟨by decide, .of_isDigits h⟩
  | reference h =>
    rw [toList_text_reference]
    exact OneLine.cons_iff.mpr ⟨by decide, .of_isName h⟩
  | member hl hb hf =>
    rw [toList_text_member]
    simp only [OneLine.cons_iff, OneLine.append_iff]
    exact ⟨by decide, .of_isName hl, by decide, by decide, .of_isName hb, by decide, .of_isName hf⟩
  | @binary op a b ha hb iha ihb =>
    have hsign : OneLine op.sign.toList := by
      cases op <;> decide
    rw [toList_text_binary]
    simp only [OneLine.cons_iff, OneLine.append_iff]
    exact ⟨by decide, iha, by decide, hsign, by decide, ihb, by decide, .nil⟩

theorem Expr.IsTree.oneLine_literalSource {e : Expr} (h : e.IsTree) :
    OneLine e.literalSource.toList := by
  cases h with
  | hex h => exact (hex h).oneLine_text
  | reference h => exact (reference h).oneLine_text
  | member hl hb hf => exact (member hl hb hf).oneLine_text
  | binary ha hb =>
    rw [literalSource, String.toList_append, String.toList_append, OneLine.append_iff,
      OneLine.append_iff]
    exact ⟨⟨by decide, (binary ha hb).oneLine_text⟩, by decide⟩

theorem Expr.IsTree.oneLine_addressSource {e : Expr} (h : e.IsTree) :
    OneLine e.addressSource.toList := by
  have htext := h.oneLine_text
  cases h <;>
    simp only [addressSource, String.toList_append, OneLine.append_iff, htext] <;> decide

theorem Register.oneLine_name (r : Register) : OneLine r.name.toList :=
  .of_isName r.isName_name

theorem Operand.WellFormed.oneLine_source {kind : Kind} {x : Operand} (h : x.WellFormed kind) :
    OneLine (x.source kind).toList := by
  cases h with
  | literal h => exact h.oneLine_literalSource
  | literal8 h => exact h.oneLine_literalSource
  | address h => exact h.oneLine_addressSource
  | digits h =>
    show OneLine (Expr.address _).addressSource.toList
    rw [Expr.addressSource, String.toList_append, OneLine.append_iff]
    exact ⟨by decide, .of_isDigits h⟩
  | @register slot h =>
    show OneLine (Operand.register slot).text.toList
    rw [Operand.text_register h]
    exact Register.oneLine_name _
  | pointer h =>
    rw [Operand.source_pointer, Operand.text_register h, OneLine.cons_iff]
    exact ⟨by decide, Register.oneLine_name _⟩

theorem Grammar.oneLine_moreText {kinds : List Kind} {xs : List Operand}
    (h : List.Forall₂ Operand.WellFormed kinds xs) : OneLine (moreText kinds xs) := by
  induction h with
  | nil => exact .nil
  | cons hx _ ih =>
    rw [moreText, OneLine.cons_iff, OneLine.cons_iff, OneLine.append_iff]
    exact ⟨by decide, by decide, hx.oneLine_source, ih⟩

theorem Grammar.oneLine_operandsText {kinds : List Kind} {xs : List Operand}
    (h : List.Forall₂ Operand.WellFormed kinds xs) : OneLine (operandsText kinds xs) := by
  cases h with
  | nil => exact .nil
  | cons hx hxs =>
    rw [operandsText, OneLine.cons_iff, OneLine.append_iff]
    exact ⟨by decide, hx.oneLine_source, oneLine_moreText hxs⟩

theorem Definition.WellFormed.oneLine_text {definition : Definition} (h : definition.WellFormed)
    {name : String} (hname : isName name = true) : OneLine (definition.text name).toList := by
  have hname := OneLine.of_isName hname
  cases definition with
  | label =>
    rw [text, String.toList_append, OneLine.append_iff]
    exact ⟨hname, by decide⟩
  | constant digits =>
    simp only [text, String.toList_append, OneLine.append_iff]
    exact ⟨⟨⟨by decide, hname⟩, by decide⟩, .of_isDigits h⟩
  | data width values =>
    simp only [text, String.toList_append, OneLine.append_iff]
    refine ⟨⟨⟨⟨by cases width <;> decide, by decide⟩, hname⟩, by decide⟩, .bracedText ?_⟩
    refine List.forall_mem_map.mpr fun digits hdigits => ?_
    rw [String.toList_append, OneLine.append_iff]
    exact ⟨by decide, .of_isDigits (h digits hdigits)⟩
  | struct members =>
    simp only [text, String.toList_append, OneLine.append_iff]
    refine ⟨⟨⟨by decide, hname⟩, by decide⟩, .bracedText ?_⟩
    refine List.forall_mem_map.mpr fun m hm => ?_
    rw [String.toList_append, String.toList_append, OneLine.append_iff, OneLine.append_iff]
    exact ⟨⟨.of_isName (h m hm).1, by decide⟩, .of_isDigits (h m hm).2⟩

theorem Statement.WellFormed.oneLine_source {st : Statement} (h : st.WellFormed) :
    OneLine st.source.toList := by
  cases st with
  | instruction opcode operands =>
    rw [Grammar.toList_source_instruction, OneLine.append_iff]
    exact ⟨.of_isName (Grammar.isName_mnemonic opcode), Grammar.oneLine_operandsText h.1⟩
  | define isExported name definition =>
    rw [source, Grammar.toList_text_define, OneLine.append_iff]
    exact ⟨by cases isExported <;> decide, h.2.oneLine_text h.1⟩

namespace Position

/-- Text without breaks does not lead to another line. -/
theorem line_advance {s : List Char} (h : OneLine s) (p : Position) :
    (p.advance s).line = p.line := by
  induction s generalizing p with
  | nil => rfl
  | cons c s ih =>
    obtain ⟨hc, hs⟩ := OneLine.cons_iff.mp h
    have hstep : (p.step c).line = p.line := by
      rw [step, if_neg hc]
    exact (ih hs _).trans hstep

end Position

/-! ## Statements -/

/-- A definition begins with a name, be it its own or a word of the language. -/
theorem Definition.exists_text_eq (definition : Definition) {name : String}
    (hname : isName name = true) :
    ∃ word s, isName word = true ∧ (definition.text name).toList = word.toList ++ s := by
  cases definition with
  | label => exact ⟨name, _, hname, String.toList_append⟩
  | constant digits =>
    refine ⟨"constant", ' ' :: (name ++ " = $" ++ digits).toList, by decide, ?_⟩
    simp [text]
  | data width values =>
    refine ⟨width.keyword, (" " ++ name ++ " = " ++ bracedText (values.map ("$" ++ ·))).toList,
      by cases width <;> decide, ?_⟩
    simp [text]
  | struct members =>
    refine ⟨"struct", (" " ++ name ++ " " ++
      bracedText (members.map fun m => m.1 ++ ": $" ++ m.2)).toList, by decide, ?_⟩
    simp [text]

/-- A statement begins with a name or with the export mark, and with no blank. -/
theorem Statement.WellFormed.stops_source {st : Statement} (h : st.WellFormed)
    (rest : List Char) : Stops isGapStart (st.source.toList ++ rest) := by
  cases st with
  | instruction opcode operands =>
    rw [Grammar.toList_source_instruction, List.append_assoc]
    exact stops_of_isName (Grammar.isName_mnemonic opcode) (fun _ => isGapStart_of_isNameStart) _
  | define isExported name definition =>
    rw [source, Grammar.toList_text_define]
    cases isExported with
    | true => rfl
    | false =>
      obtain ⟨word, s, hword, hs⟩ := definition.exists_text_eq h.1
      rw [hs, List.append_assoc, List.append_assoc]
      exact stops_of_isName hword (fun _ => isGapStart_of_isNameStart) _

/-- A statement is read in front of the end of its line. -/
theorem Grammar.reads_statement {st : Statement} (h : st.WellFormed) {rest : List Char}
    (hrest : endsLine rest = true) : Grammar.statement.Reads st.source.toList st rest := by
  cases st with
  | instruction opcode operands => exact reads_statement_instruction h hrest
  | define isExported name definition =>
    exact reads_statement_define h.1 h.2 (stops_of_endsLine (by decide) hrest)

namespace Program

/-! ## The loop -/

/-- One turn of the loop: blanks, and a statement behind them. -/
theorem statementsFrom_of_reads (blank : List Char) {text rest : List Char} {st : Statement}
    (hblank : blank.all isGap = true) (hstops : Stops isGapStart (text ++ rest))
    (hread : Grammar.statement.Reads text st rest) (acc : List Placed) (p : Position) :
    statementsFrom acc p (blank ++ (text ++ rest)) =
      statementsFrom (⟨(p.advance blank).line, st⟩ :: acc) ((p.advance blank).advance text)
        rest := by
  have hgap : gapLength (blank ++ (text ++ rest)) = blank.length := by
    rw [gapLength, gapFrom_append hblank hstops, Nat.zero_add]
  have hdrop : (blank ++ (text ++ rest)).drop (gapLength (blank ++ (text ++ rest))) =
      text ++ rest := by
    rw [hgap, List.drop_left]
  have htake : (blank ++ (text ++ rest)).take (gapLength (blank ++ (text ++ rest))) = blank := by
    rw [hgap, List.take_left]
  rw [statementsFrom]
  split
  · rename_i hnil
    rw [hdrop, List.append_eq_nil_iff] at hnil
    have hpos := Grammar.statement_pos hread
    rw [hnil.1] at hpos
    exact absurd hpos (Nat.lt_irrefl 0)
  · rename_i c tail hcons
    rw [hdrop] at hcons
    rw [Reads, hcons] at hread
    split
    · rename_i hnone
      rw [hread] at hnone
      exact absurd hnone (Option.some_ne_none _)
    · rename_i st' n hsome
      rw [hread] at hsome
      obtain ⟨rfl, rfl⟩ := Prod.mk.inj (Option.some.inj hsome)
      rw [htake, ← hcons, List.take_left, List.drop_left]

/-- Behind the last statement there is nothing but blanks. -/
theorem statementsFrom_blank {blank : List Char} (hblank : blank.all isGap = true)
    (acc : List Placed) (p : Position) : statementsFrom acc p blank = .ok acc.reverse := by
  have hgap : gapLength blank = blank.length := by
    have happend := gapFrom_append hblank (show Stops isGapStart [] from trivial) 0
    rwa [List.append_nil, Nat.zero_add] at happend
  rw [statementsFrom]
  split
  · rfl
  · rename_i c tail hcons
    rw [hgap, List.drop_length] at hcons
    exact nomatch hcons

/-! ## Round trips -/

/-- The statements, each on a line of its own. -/
def onLines (line : Nat) (statements : List Statement) : List Placed :=
  (statements.zipIdx line).map fun x => ⟨x.2, x.1⟩

/-- Statements behind breaks. -/
def laterLines (statements : List Statement) : List Char :=
  statements.flatMap fun st => '\n' :: st.source.toList

theorem toList_source_cons (st : Statement) (statements : List Statement) :
    (source (st :: statements)).toList = st.source.toList ++ laterLines statements := by
  rw [source, String.toList_intercalate, List.map_cons, List.map_cons, intercalate_cons_eq,
    List.flatMap_map, List.flatMap_map]
  rfl

section Lines

variable {statements : List Statement} {ending : List Char}

theorem all_isGap_of_breaks (hending : ∀ c ∈ ending, c = '\n') : ending.all isGap = true := by
  refine List.all_eq_true.mpr fun c hc => ?_
  rw [hending c hc]
  rfl

/-- A line ends in front of the next. -/
theorem endsLine_laterLines (statements : List Statement) (hending : ∀ c ∈ ending, c = '\n') :
    endsLine (laterLines statements ++ ending) = true := by
  cases statements with
  | cons st statements => rfl
  | nil =>
    cases ending with
    | nil => rfl
    | cons c ending =>
      rw [hending c List.mem_cons_self]
      rfl

/-- The statements behind the first are read, each on its line. -/
theorem statementsFrom_lines (h : ∀ st ∈ statements, st.WellFormed)
    (hending : ∀ c ∈ ending, c = '\n') (acc : List Placed) (p : Position) :
    statementsFrom acc p (laterLines statements ++ ending) =
      .ok (acc.reverse ++ onLines (p.line + 1) statements) := by
  induction statements generalizing acc p with
  | nil =>
    refine (statementsFrom_blank (all_isGap_of_breaks hending) acc p).trans ?_
    rw [show onLines (p.line + 1) [] = [] from rfl, List.append_nil]
  | cons st statements ih =>
    obtain ⟨hst, hstatements⟩ := List.forall_mem_cons.mp h
    have htext : laterLines (st :: statements) ++ ending =
        ['\n'] ++ (st.source.toList ++ (laterLines statements ++ ending)) := by
      rw [laterLines, List.flatMap_cons, List.append_assoc]
      rfl
    rw [htext, statementsFrom_of_reads _ (by decide) (hst.stops_source _)
      (Grammar.reads_statement hst (endsLine_laterLines _ hending)), ih hstatements,
      Position.line_advance hst.oneLine_source, List.reverse_cons, List.append_assoc]
    rfl

end Lines

/-- Statements that can be written, written one on a line, are read back, whatever breaks there
are at the end. -/
theorem parse_source {statements : List Statement} (ending : String)
    (h : ∀ st ∈ statements, st.WellFormed) (hending : ∀ c ∈ ending.toList, c = '\n') :
    parse (source statements ++ ending) = .ok (onLines 1 statements) := by
  rw [parse, String.toList_append]
  cases statements with
  | nil => exact statementsFrom_blank (all_isGap_of_breaks hending) [] .start
  | cons st statements =>
    obtain ⟨hst, hstatements⟩ := List.forall_mem_cons.mp h
    have hread := Grammar.reads_statement hst (endsLine_laterLines statements hending)
    have hfirst := statementsFrom_of_reads [] rfl (hst.stops_source _) hread [] .start
    rw [toList_source_cons, List.append_assoc]
    refine hfirst.trans ?_
    rw [statementsFrom_lines hstatements hending, Position.line_advance hst.oneLine_source]
    rfl

/-- **Parsing undoes printing.**  Any statements that can be written, written one on a line, are
read back as themselves and on these lines.  And whatever was read, from any text, can be
written, and is read again from its print. -/
theorem parse_undoes_printing :
    (∀ (statements : List Statement) (ending : String),
      (∀ st ∈ statements, st.WellFormed) → (∀ c ∈ ending.toList, c = '\n') →
        parse (source statements ++ ending) = .ok (onLines 1 statements)) ∧
    ∀ (text : String) (placed : List Placed), parse text = .ok placed →
      (∀ x ∈ placed, x.statement.WellFormed) ∧
        parse (source (placed.map (·.statement))) =
          .ok (onLines 1 (placed.map (·.statement))) := by
  refine ⟨fun statements ending => parse_source ending, fun text placed h => ?_⟩
  have hplaced : ∀ x ∈ placed, x.statement.WellFormed :=
    forall_of_statementsFrom Grammar.yields_wellFormed h nofun
  refine ⟨hplaced, ?_⟩
  have hprint := parse_source "" (List.forall_mem_map.mpr hplaced) nofun
  rwa [String.append_empty] at hprint

/-- Statements in which one thing could be taken for another: names that are words of the
language, an address and pointers written with the letters of both, and an expression. -/
def ambiguous : List Statement :=
  [.define true "constant" .label,
   .define false "struct" (.data .byte ["0A", "ff"]),
   .define false "data8" (.struct [("data16", "2")]),
   .instruction .movMemReg [.value (.address "acc"), .register Register.r1.slot],
   .instruction .movRegPtrReg [.register Register.fp.slot, .register Register.r1.slot],
   .instruction .movLitOffReg
     [.value (.hex "4"), .register Register.acc.slot, .register Register.r1.slot],
   .instruction .jmpAddr
     [.value (.binary .times (.hex "2")
       (.binary .minus (.reference "constant") (.member "data8" "struct" "data16")))]]

theorem parse_undoes_printing_of_ambiguous :
    (∀ st ∈ ambiguous, st.WellFormed) ∧
    parse (source ambiguous ++ "\n") = .ok (onLines 1 ambiguous) ∧
    ∀ x ∈ onLines 1 ambiguous, x.statement.WellFormed := by
  have h : ∀ st ∈ ambiguous, st.WellFormed := by
    have hslot (r : Register) := Register.slot_lt r
    simp only [ambiguous, List.forall_mem_cons, List.not_mem_nil, false_implies, implies_true,
      and_true]
    refine ⟨⟨by decide, trivial⟩, ⟨by decide, by decide⟩, ⟨by decide, by decide⟩, ?_, ?_, ?_, ?_⟩
    · exact ⟨.cons (.digits (by decide)) (.cons (.register (hslot _)) .nil), nofun, nofun⟩
    · exact ⟨.cons (.pointer (hslot _)) (.cons (.register (hslot _)) .nil),
        fun _ => by decide, nofun⟩
    · exact ⟨.cons (.literal (.hex (by decide)))
        (.cons (.pointer (hslot _)) (.cons (.register (hslot _)) .nil)), nofun, nofun⟩
    · refine ⟨.cons (.address (.binary (.hex (by decide)) (.binary (.reference (by decide)) ?_)))
        .nil, nofun, nofun⟩
      exact .member (by decide) (by decide) (by decide)
  have hparse := parse_undoes_printing.1 ambiguous "\n" h fun _ => List.mem_singleton.mp
  exact ⟨h, hparse, (parse_undoes_printing.2 _ _ hparse).1⟩

end Program
end WordMachine
