import WordMachine.Proofs.Grammar.BraceList
import WordMachine.Proofs.Grammar.Loop

/-!
# Statements that hold a list

Blocks of data and structs are definitions of one form: the mark, a word and a blank, the name, a
sign, and a list between braces.  Their texts are known piece by piece, and the laws of sequences
put them together (`Grammar.spelledBy_definition`).  As the rules for statements exclude each
other, a statement is read as a block of data, or as a struct, if and only if its text is of that
form.

A program is cut into the texts of its statements, with blanks and comments between them
(`Program.Divides`).  So all lists of a program are of the form that is known, and nothing else
comes in with the loop.

* `Grammar.spelledBy_data`, `Grammar.spelledBy_struct`: the texts of definitions that hold a list.
* `Grammar.reads_statement_iff`: a statement is read by the rule of its kind.
* `Program.accepted_lists`: the lists of a program.
-/

namespace WordMachine

open Rule Lexeme

namespace Grammar

/-! ## Definitions that hold a list -/

theorem isItemRule_hexLiteral : IsItemRule hexLiteral IsLiteral where
  spelledBy := spelledBy_hexLiteral
  starts := (starts_char_bind '$' _).mono fun c hc => by
    subst hc
    decide

/-- The text is a member of a struct: its name, a colon and its size. -/
def IsMember (s : List Char) (member : String × String) : Prop :=
  ∃ sign size, s = member.1.toList ++ (sign ++ size) ∧ isName member.1 = true ∧
    IsSpacedChar ':' sign ∧ IsLiteral size member.2

theorem isItemRule_structMember : IsItemRule structMember IsMember where
  spelledBy := by
    have hbehind (name : String) := (spelledBy_spaced_char (c := ':') rfl).bind
      (fun _ => spelledBy_hexLiteral.map fun digits => (name, digits)) (by
        rintro _ _ _ ⟨_, -, rfl, -⟩ rest -
        rfl)
    refine (spelledBy_identifier.bind hbehind ?_).congr fun s m => ⟨?_, ?_⟩
    · rintro _ _ _ ⟨_, t, u, rfl, ht, -⟩ rest -
      rw [List.append_assoc]
      exact ht.stops rfl _
    · rintro ⟨name, _, _, rfl, ⟨rfl, hname⟩, _, t, u, rfl, ht, digits, rfl, hu⟩
      exact ⟨t, u, rfl, hname, ht, hu⟩
    · rintro ⟨t, u, rfl, hname, ht, hu⟩
      exact ⟨m.1, _, _, rfl, ⟨rfl, hname⟩, (), t, u, rfl, ht, m.2, rfl, hu⟩
  starts := (starts_identifier.bind _).mono fun c hc => by
    refine ⟨isGapStart_of_isNameStart hc, ?_, ?_⟩
    all_goals
      rintro rfl
      exact absurd hc (by decide)

theorem spelledBy_exportMark :
    exportMark.SpelledBy (fun s isExported => s = mark isExported) (· == '+') where
  text hs := by
    obtain ⟨o, rfl, ho⟩ := reads_map_iff.mp hs
    rcases reads_optional_iff.mp ho with ⟨_, rfl, hplus⟩ | ⟨rfl, rfl, -⟩
    · exact hplus.of_char
    · rfl
  reads := by
    rintro _ isExported rest rfl hrest
    exact reads_exportMark isExported (char_eq_none_of_stops hrest)

/-- The text is a word of the language with blanks behind it. -/
def IsWord (word : String) (s : List Char) : Prop :=
  ∃ blanks, s = word.toList ++ blanks ∧ blanks ≠ [] ∧ blanks.all isSpace = true

theorem spelledBy_keyword (word : String) :
    (keyword word).SpelledBy (fun s _ => IsWord word s) isSpace := by
  have hsequence := (spelledBy_literal word.toList).bind (fun _ => spelledBy_spaces1)
    fun _ _ _ _ _ _ => stops_false _
  refine hsequence.congr fun s _ => ⟨?_, ?_⟩
  · rintro ⟨_, _, blanks, rfl, rfl, hblanks⟩
    exact ⟨blanks, rfl, hblanks⟩
  · rintro ⟨blanks, rfl, hblanks⟩
    exact ⟨(), word.toList, blanks, rfl, rfl, hblanks⟩

theorem spelledBy_dataWidth :
    dataWidth.SpelledBy (fun s width => IsWord width.keyword s) isSpace where
  text {s width rest} hs := by
    obtain ⟨p, hp, hread⟩ := exists_of_firstOf hs
    have hword (w : Width) (h : (keyword w.keyword >>= fun _ => pure w).Reads s width rest) :
        IsWord width.keyword s := by
      obtain ⟨_, rfl, hkeyword⟩ := reads_map_iff.mp h
      exact (spelledBy_keyword _).text hkeyword
    rcases List.mem_pair.mp hp with rfl | rfl
    · exact hword .word hread
    · exact hword .byte hread
  reads {s width rest} hs hrest := by
    have hread : (keyword width.keyword >>= fun _ => pure width).Reads s width rest :=
      reads_map_iff.mpr ⟨(), rfl, (spelledBy_keyword _).reads hs hrest⟩
    cases width with
    | word => exact Reads.firstOf [] nofun hread
    | byte =>
      -- the word of the other width is longer
      obtain ⟨blanks, rfl, -⟩ := hs
      refine Reads.firstOf [_] (fun q hq => ?_) hread
      rw [List.mem_singleton.mp hq]
      exact bind_eq_none (bind_eq_none rfl)

/-- What stands in front of the braces of a definition: the mark, a word, the name and a sign. -/
def IsOpening (isExported : Bool) (word name : String) (Sign : List Char → Prop)
    (opening : List Char) : Prop :=
  ∃ w sign, opening = mark isExported ++ (w ++ (name.toList ++ sign)) ∧ IsWord word w ∧
    isName name = true ∧ Sign sign

/-- The text of a definition that holds a list: the opening, and the list between braces. -/
def IsDefinitionText (Opening : List Char → Prop) {α : Type} (Item : List Char → α → Prop)
    (xs : List α) (text : List Char) : Prop :=
  ∃ opening body, text = opening ++ '\x7b' :: (body ++ ['\x7d']) ∧ Opening opening ∧
    IsList Item body xs

/-- Blocks of data and structs are read alike. -/
theorem spelledBy_definition {α ω β : Type} {item : Rule α} {Item : List Char → α → Prop}
    (hitem : IsItemRule item Item) {word : Rule ω} (wordOf : ω → String)
    (hword : word.SpelledBy (fun s w => IsWord (wordOf w) s) isSpace)
    (hplus : ∀ w t, Stops (· == '+') ((wordOf w).toList ++ t))
    {sign : Rule Unit} {Sign : List Char → Prop}
    (hsign : sign.SpelledBy (fun s _ => Sign s) isSpace)
    (hname : ∀ s, Sign s → ∀ t, Stops isNameRest (s ++ '\x7b' :: t))
    (g : Bool → ω → String → List α → β) :
    (do
      let isExported ← exportMark
      let w ← word
      let name ← identifier
      sign
      let xs ← braced item
      pure (g isExported w name xs)).SpelledBy
      (fun s b => ∃ isExported w name xs, b = g isExported w name xs ∧
        IsDefinitionText (IsOpening isExported (wordOf w) name Sign) Item xs s)
      fun _ => false := by
  have hlist (f : List α → β) := (spelledBy_braced hitem).map f
  have hbehindName (f : List α → β) := hsign.bind (fun _ => hlist f) (by
    rintro _ _ _ ⟨_, -, _, rfl, -⟩ rest -
    rfl)
  have hbehindWord (f : String → List α → β) :=
    spelledBy_identifier.bind (fun name => hbehindName (f name)) (by
      rintro _ _ _ ⟨_, t, _, rfl, ht, _, -, _, rfl, -⟩ rest -
      rw [List.append_assoc]
      exact hname t ht _)
  have hbehindMark (f : ω → String → List α → β) :=
    hword.bind (fun w => hbehindWord (f w)) (by
      rintro _ _ _ ⟨_, _, _, rfl, ⟨rfl, hn⟩, -⟩ rest -
      rw [List.append_assoc]
      exact stops_isSpace_of_isName hn _)
  refine (spelledBy_exportMark.bind (fun isExported => hbehindMark (g isExported)) ?_).congr
    fun s b => ⟨?_, ?_⟩
  · rintro _ _ _ ⟨w, _, _, rfl, ⟨_, rfl, -⟩, -⟩ rest -
    rw [List.append_assoc, List.append_assoc]
    exact hplus w _
  · rintro ⟨isExported, _, _, rfl, rfl, w, t, _, rfl, ht, name, _, _, rfl, ⟨rfl, hn⟩, _, u, _, rfl,
      hu, xs, rfl, body, rfl, hbody⟩
    refine ⟨isExported, w, name, xs, rfl, _, body, ?_, ⟨t, u, rfl, ht, hn, hu⟩, hbody⟩
    simp only [List.append_assoc]
  · rintro ⟨isExported, w, name, xs, rfl, _, body, rfl, ⟨t, u, rfl, ht, hn, hu⟩, hbody⟩
    refine ⟨isExported, _, _, ?_, rfl, w, t, _, rfl, ht, name, _, _, rfl, ⟨rfl, hn⟩, (), u, _, rfl,
      hu, xs, rfl, body, rfl, hbody⟩
    simp only [List.append_assoc]

/-- What stands in front of the values of a block of data. -/
def IsDataOpening (isExported : Bool) (width : Width) (name : String) : List Char → Prop :=
  IsOpening isExported width.keyword name (IsSpacedChar '=')

/-- What stands in front of the members of a struct. -/
def IsStructOpening (isExported : Bool) (name : String) : List Char → Prop :=
  IsOpening isExported "struct" name fun sign => sign.all isSpace = true

theorem spelledBy_data :
    data.SpelledBy (fun s st => ∃ isExported width name values,
      st = .define isExported name (.data width values) ∧
        IsDefinitionText (IsDataOpening isExported width name) IsLiteral values s)
      fun _ => false := by
  refine spelledBy_definition isItemRule_hexLiteral Width.keyword spelledBy_dataWidth
    (fun width t => ?_) (spelledBy_spaced_char (c := '=') rfl)
    (fun s hs t => IsSpacedChar.stops hs (by decide) _)
    fun isExported width name values => Statement.define isExported name (.data width values)
  cases width <;> rfl

theorem spelledBy_struct :
    struct.SpelledBy (fun s st => ∃ isExported, ∃ _ : Unit, ∃ name members,
      st = .define isExported name (.struct members) ∧
        IsDefinitionText (IsStructOpening isExported name) IsMember members s) fun _ => false :=
  spelledBy_definition isItemRule_structMember (fun _ => "struct") (spelledBy_keyword "struct")
    (fun _ _ => rfl) spelledBy_spaces0
    (fun _ hs _ => stops_append (fun _ => isNameRest_of_isSpace) hs rfl)
    fun isExported _ name members => Statement.define isExported name (.struct members)

/-! ## Statements -/

/-- The rule that reads statements of the kind. -/
def ruleOf : Statement → Rule Statement
  | .define _ _ (.constant _) => constant
  | .define _ _ (.data _ _) => data
  | .define _ _ (.struct _) => struct
  | .define _ _ .label => label
  | .instruction _ _ => instruction

/-- Each rule for statements reads those of its own kind. -/
theorem yields_ruleOf {p : Rule Statement} (hp : p ∈ statementRules) :
    p.Yields fun st => ruleOf st = p := by
  simp only [statementRules, List.mem_cons, List.not_mem_nil, or_false] at hp
  rcases hp with rfl | rfl | rfl | rfl | rfl
  -- constants, blocks of data and structs all have five pieces
  iterate 3
    exact .bind_right _ fun _ => .bind_right _ fun _ => .bind_right _ fun _ =>
      .bind_right _ fun _ => .bind_right _ fun _ => yields_pure rfl
  · exact .bind_right _ fun _ => .bind_right _ fun _ => .bind_right _ fun _ => yields_pure rfl
  · refine .bind_right _ fun mnemonic => yields_firstOf fun p hp => ?_
    obtain ⟨o, -, rfl⟩ := List.mem_map.mp hp
    exact .bind_right _ fun _ => .bind_right _ fun _ => yields_pure rfl

variable {text rest : List Char}

theorem reads_statement_iff (st : Statement) :
    statement.Reads text st rest ↔ (ruleOf st).Reads text st rest := by
  have hfirst := firstOf_eq_some_iff (pairwise_excludes (text ++ rest)) (r := (st, text.length))
  refine hfirst.trans ⟨?_, fun h => ⟨ruleOf st, ?_, h⟩⟩
  · rintro ⟨p, hp, hread⟩
    rw [Reads, yields_ruleOf hp _ _ _ hread, hread]
  · cases st with
    | define isExported name definition => cases definition <;> simp [ruleOf, statementRules]
    | instruction opcode operands => simp [ruleOf, statementRules]

/-- The texts that are read as a block of data. -/
theorem reads_statement_data_iff {isExported : Bool} {width : Width} {name : String}
    {values : List String} :
    statement.Reads text (.define isExported name (.data width values)) rest ↔
      IsDefinitionText (IsDataOpening isExported width name) IsLiteral values text := by
  rw [reads_statement_iff]
  constructor
  · intro h
    obtain ⟨_, _, _, _, hst, htext⟩ := spelledBy_data.text h
    cases hst
    exact htext
  · exact fun h => spelledBy_data.reads ⟨_, _, _, _, rfl, h⟩ (stops_false rest)

/-- The texts that are read as a struct. -/
theorem reads_statement_struct_iff {isExported : Bool} {name : String}
    {members : List (String × String)} :
    statement.Reads text (.define isExported name (.struct members)) rest ↔
      IsDefinitionText (IsStructOpening isExported name) IsMember members text := by
  rw [reads_statement_iff]
  constructor
  · intro h
    obtain ⟨_, _, _, _, hst, htext⟩ := spelledBy_struct.text h
    cases hst
    exact htext
  · exact fun h => spelledBy_struct.reads ⟨_, (), _, _, rfl, h⟩ (stops_false rest)

end Grammar

namespace Program

open Grammar

/-! ## Programs -/

/-- The text is cut into the texts of statements, with blanks and comments between them. -/
inductive Divides : List Char → List (List Char × Statement) → Prop where
  | blank {s : List Char} (hs : IsBlank s) : Divides s []
  | statement {g text rest : List Char} {st : Statement} {pieces : List (List Char × Statement)}
    (hg : IsClosedBlank g) (hst : Grammar.statement.Reads text st rest)
    (hrest : Divides rest pieces) : Divides (g ++ (text ++ rest)) ((text, st) :: pieces)

/-- What the loop answers are the statements of the pieces, behind those it began with. -/
theorem exists_divides {acc placed : List Placed} {p : Position} {s : List Char}
    (h : statementsFrom acc p s = .ok placed) :
    ∃ pieces, Divides s pieces ∧
      placed.map Placed.statement = acc.reverse.map Placed.statement ++ pieces.map Prod.snd := by
  induction s using turn_induction generalizing acc p with
  | blank s hs =>
    rw [statementsFrom_of_blank _ _ hs] at h
    obtain rfl := Except.ok.inj h
    exact ⟨[], .blank (isBlank_iff.mpr hs), (List.append_nil _).symm⟩
  | none s hne hs =>
    rw [statementsFrom_of_none _ _ hne hs] at h
    exact nomatch h
  | some s st n hs ih =>
    rw [statementsFrom_of_some _ _ hs] at h
    obtain ⟨pieces, hpieces, hplaced⟩ := ih h
    generalize hv : s.drop (gapLength s) = v at hs hpieces hplaced
    have hne : v ≠ [] := by
      rintro rfl
      exact nomatch hs
    have hle := (steady_statement (hs ▸ Option.some_ne_none _)).le_length st n hs
    have hsplit : s = s.take (gapLength s) ++ v := by
      rw [← hv, List.take_append_drop]
    have hgap : gap.Reads (s.take (gapLength s)) () v := by
      rw [Reads, ← hsplit, gap, length_take_gapLength]
    have hst : Grammar.statement.Reads (v.take n) st (v.drop n) := by
      rw [Reads, List.take_append_drop, List.length_take_of_le hle, hs]
    refine ⟨(v.take n, st) :: pieces, ?_, ?_⟩
    · have hdivides := Divides.statement (isClosedBlank_of_gap hgap hne) hst hpieces
      rwa [List.take_append_drop, ← hsplit] at hdivides
    · rw [hplaced, List.reverse_cons, List.map_append, List.append_assoc]
      rfl

/-- Each piece was read as its statement, in front of what is behind it. -/
theorem Divides.reads {s : List Char} {pieces : List (List Char × Statement)}
    (h : Divides s pieces) {text : List Char} {st : Statement} (hmem : (text, st) ∈ pieces) :
    ∃ rest, Grammar.statement.Reads text st rest := by
  induction h with
  | blank => exact nomatch hmem
  | statement hg hst hrest ih =>
    rcases List.mem_cons.mp hmem with heq | hmem
    · cases heq
      exact ⟨_, hst⟩
    · exact ih hmem

/-- **What is accepted between braces.**  A program is cut into the texts of its statements, and of
these a block of data, or a struct, has its items between its braces, in order, with one comma
between two of them and perhaps one comma more.  This is a word of `(item ','?)*`, where each comma
follows an item, unless a comma stands there alone.  And each text of that form is accepted. -/
theorem accepted_lists {source : String} {placed : List Placed} (h : parse source = .ok placed) :
    (∃ pieces, Divides source.toList pieces ∧ pieces.map Prod.snd = placed.map Placed.statement ∧
      (∀ text isExported name width values,
        (text, .define isExported name (.data width values)) ∈ pieces →
          ∃ opening body, text = opening ++ '\x7b' :: (body ++ ['\x7d']) ∧
            IsDataOpening isExported width name opening ∧ IsList IsLiteral body values ∧
            (IsWritten IsLiteral body ↔ ¬ Spells IsLiteral body [.comma])) ∧
      ∀ text isExported name members,
        (text, .define isExported name (.struct members)) ∈ pieces →
          ∃ opening body, text = opening ++ '\x7b' :: (body ++ ['\x7d']) ∧
            IsStructOpening isExported name opening ∧ IsList IsMember body members ∧
            (IsWritten IsMember body ↔ ¬ Spells IsMember body [.comma])) ∧
    ∀ text rest isExported name,
      (∀ width values,
        IsDefinitionText (IsDataOpening isExported width name) IsLiteral values text →
          Grammar.statement.Reads text (.define isExported name (.data width values)) rest) ∧
      ∀ members,
        IsDefinitionText (IsStructOpening isExported name) IsMember members text →
          Grammar.statement.Reads text (.define isExported name (.struct members)) rest := by
  refine ⟨?_, fun text rest isExported name =>
    ⟨fun _ _ => reads_statement_data_iff.mpr, fun _ => reads_statement_struct_iff.mpr⟩⟩
  obtain ⟨pieces, hpieces, hplaced⟩ := exists_divides h
  refine ⟨pieces, hpieces, hplaced.symm, ?_, ?_⟩
  · intro text isExported name width values hmem
    obtain ⟨rest, hread⟩ := hpieces.reads hmem
    obtain ⟨opening, body, htext, hopening, hlist⟩ := reads_statement_data_iff.mp hread
    exact ⟨opening, body, htext, hopening, hlist,
      isWritten_iff_of_isList isItemRule_hexLiteral hlist⟩
  · intro text isExported name members hmem
    obtain ⟨rest, hread⟩ := hpieces.reads hmem
    obtain ⟨opening, body, htext, hopening, hlist⟩ := reads_statement_struct_iff.mp hread
    exact ⟨opening, body, htext, hopening, hlist,
      isWritten_iff_of_isList isItemRule_structMember hlist⟩

/-- A block of data with a comma and no items, and a struct with a comma behind its last member and
a brace in a comment. -/
def loneComma : String := "data8 x = \x7b , \x7d\n+struct p \x7b a : $2, ;; \x7d\n b:$A ,\x7d"

/-- Both are accepted.  In the first, a comma alone is read as the list without items, and it is no
word of the grammar. -/
theorem accepted_lists_loneComma :
    parse loneComma = .ok [⟨1, .define false "x" (.data .byte [])⟩,
        ⟨2, .define true "p" (.struct [("a", "2"), ("b", "A")])⟩] ∧
      (∃ text text', Divides loneComma.toList
        [(text, .define false "x" (.data .byte [])),
          (text', .define true "p" (.struct [("a", "2"), ("b", "A")]))] ∧
        IsDefinitionText (IsDataOpening false .byte "x") IsLiteral [] text ∧
        IsDefinitionText (IsStructOpening true "p") IsMember [("a", "2"), ("b", "A")] text') ∧
      IsList IsLiteral [' ', ',', ' '] [] ∧ ¬ IsWritten IsLiteral [' ', ',', ' '] := by
  have hparse : parse loneComma = .ok [⟨1, .define false "x" (.data .byte [])⟩,
      ⟨2, .define true "p" (.struct [("a", "2"), ("b", "A")])⟩] := by decide +kernel
  obtain ⟨⟨pieces, hpieces, hplaced, hdata, hstruct⟩, -⟩ := accepted_lists hparse
  obtain ⟨⟨text, _⟩, _, rfl, rfl, hbehind⟩ := List.map_eq_cons_iff.mp hplaced
  obtain ⟨⟨text', _⟩, _, rfl, rfl, hnil⟩ := List.map_eq_cons_iff.mp hbehind
  obtain rfl := List.map_eq_nil_iff.mp hnil
  obtain ⟨opening, body, htext, hopening, hlist, -⟩ := hdata _ _ _ _ _ List.mem_cons_self
  obtain ⟨opening', body', htext', hopening', hlist', -⟩ :=
    hstruct _ _ _ _ (List.mem_cons_of_mem _ List.mem_cons_self)
  have hblank : IsClosedBlank [' '] := .blank rfl .nil
  have hcomma : Spells IsLiteral [' ', ',', ' '] [.comma] := .comma hblank (.nil hblank)
  exact ⟨hparse, ⟨text, text', hpieces, ⟨opening, body, htext, hopening, hlist⟩,
    ⟨opening', body', htext', hopening', hlist'⟩⟩, ⟨true, hcomma⟩,
    not_isWritten_of_spells_comma isItemRule_hexLiteral hcomma⟩

end Program
end WordMachine
