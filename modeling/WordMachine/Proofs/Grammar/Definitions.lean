import WordMachine.Proofs.Grammar.Source

/-!
# Definitions are read as they are written

A constant, a block of data, a struct and a label are read back from their text.  The words
that introduce the first three are no reserved words: they may be names as well, and a label
may begin with one of them.  What keeps a label from being taken for another definition is
that a word of the language is followed by a blank, and a name by anything but that
(`Grammar.keyword_eq_none_of_name`).

* `Grammar.reads_braced`: a list between braces, whatever its items are.
* `Grammar.reads_constant`, `reads_data`, `reads_struct`, `reads_label`: the definitions.
* `Grammar.reads_statement_define`: the rule for statements takes each for what it is.
-/

namespace WordMachine
namespace Grammar

open Rule Lexeme

variable {rest : List Char}

/-! ## Words and marks -/

/-- The export mark, or nothing. -/
def mark (isExported : Bool) : List Char := if isExported then ['+'] else []

theorem reads_exportMark (isExported : Bool) (h : char '+' rest = none) :
    exportMark.Reads (mark isExported) isExported rest := by
  cases isExported with
  | true => exact (reads_optional_some (reads_char '+' rest)).bind_nil (reads_pure _ _)
  | false => exact (reads_optional_none h).bind_nil (reads_pure _ _)

theorem reads_keyword (word : String) (hrest : Stops isSpace rest) :
    (keyword word).Reads (word.toList ++ [' ']) () rest :=
  (reads_literal _ _).bind (reads_spaces1 (List.cons_ne_nil _ _) (by decide) hrest)

/-- What continues a name is no blank. -/
theorem isSpace_of_isNameRest {c : Char} (h : isNameRest c = true) : isSpace c = false :=
  isSpace_of_isGapStart (isGapStart_of_isNameRest h)

/-- No word of the language is read off a name that a colon follows, not even off its own
letters: there is no blank. -/
theorem keyword_eq_none_of_name {word : String} (hword : word.toList.all isNameRest = true)
    {name : List Char} (hname : name.all isNameRest = true) (tail : List Char) :
    keyword word (name ++ ':' :: tail) = none := by
  by_cases hprefix : word.toList <+: name ++ ':' :: tail
  · obtain ⟨t, ht⟩ := hprefix
    have hstops : Stops isSpace t := by
      rcases List.append_eq_append_iff.mp ht with ⟨u, hu, rfl⟩ | ⟨u, hu, htail⟩
      · cases u with
        | nil => rfl
        | cons c u =>
          refine isSpace_of_isNameRest (List.all_eq_true.mp hname c ?_)
          rw [hu]
          exact List.mem_append_right _ List.mem_cons_self
      · cases u with
        | nil =>
          rw [List.nil_append] at htail
          rw [← htail]
          rfl
        | cons c u =>
          -- the word would contain the colon
          obtain ⟨rfl, -⟩ := List.cons_eq_cons.mp htail
          refine absurd (List.all_eq_true.mp hword ':' ?_) (by decide)
          rw [hu]
          exact List.mem_append_right _ List.mem_cons_self
    rw [← ht]
    exact (reads_literal word.toList t).bind_eq_none (spaces1_eq_none hstops)
  · refine bind_eq_none ?_
    rw [literal, if_neg]
    rwa [List.isPrefixOf_iff_prefix]

/-! ## Lists between braces -/

/-- A comma with blanks and comments around it. -/
def comma : Rule Unit := do
  gap
  char ','
  gap

theorem reads_comma (hrest : Stops isGapStart rest) : comma.Reads [',', ' '] () rest :=
  .nil_bind (reads_gap rfl rfl) (.cons_bind (reads_char _ _) (reads_gap (by decide) hrest))

/-- Behind the last item there is no comma. -/
theorem comma_eq_none (tail : List Char) : comma (' ' :: '\x7d' :: tail) = none :=
  Reads.bind_eq_none (s := [' ']) (reads_gap (by decide) rfl) (bind_eq_none rfl)

section Braced

variable {α : Type} {item : Rule α} {f : α → String}

/-- The items behind the first. -/
theorem reads_many_items {xs : List α}
    (hitem : ∀ x ∈ xs, ∀ rest, Stops isNameRest rest → item.Reads (f x).toList x rest)
    (hstops : ∀ x ∈ xs, ∀ rest, Stops isGapStart ((f x).toList ++ rest)) (tail : List Char) :
    (many (comma >>= fun _ => item)).Reads (xs.flatMap fun x => ',' :: ' ' :: (f x).toList) xs
      (' ' :: '\x7d' :: tail) := by
  induction xs with
  | nil => exact reads_many_nil (bind_eq_none (comma_eq_none tail))
  | cons x xs ih =>
    rw [List.flatMap_cons]
    refine Reads.many_cons (s := [',', ' '] ++ (f x).toList) ?_ (List.cons_ne_nil _ _)
      (ih (fun y hy => hitem y (List.mem_cons_of_mem x hy))
        fun y hy => hstops y (List.mem_cons_of_mem x hy))
    refine (reads_comma (hstops x List.mem_cons_self _)).bind
      (hitem x List.mem_cons_self _ ?_)
    cases xs <;> rfl

/-- Behind the items of a list, nothing but its brace is read. -/
theorem reads_endOfList (xs : List α) {s : List Char} (hs : s.all isGap = true)
    (rest : List Char) :
    (do
      let _ ← optional (do gap; char ',')
      gap
      char '\x7d'
      pure xs : Rule (List α)).Reads (s ++ ['\x7d']) xs rest := by
  have hgap : gap.Reads s () ('\x7d' :: rest) := reads_gap hs rfl
  have hcomma : (gap >>= fun _ => char ',') (s ++ ['\x7d'] ++ rest) = none := by
    rw [List.append_assoc]
    exact hgap.bind_eq_none rfl
  exact .nil_bind (reads_optional_none hcomma)
    (Reads.bind (t := ['\x7d']) hgap ((reads_char _ _).bind_nil (reads_pure _ _)))

/-- A list between braces is read as its items. -/
theorem reads_braced {xs : List α}
    (hitem : ∀ x ∈ xs, ∀ rest, Stops isNameRest rest → item.Reads (f x).toList x rest)
    (hstops : ∀ x ∈ xs, ∀ rest, Stops isGapStart ((f x).toList ++ rest))
    (hnone : ∀ tail, item ('\x7d' :: tail) = none) (rest : List Char) :
    (braced item).Reads (bracedText (xs.map f)).toList xs rest := by
  cases xs with
  | nil =>
    have htext : (bracedText (([] : List α).map f)).toList = ['\x7b', ' ', ' ', '\x7d'] := by
      simp [bracedText]
    rw [htext]
    refine .cons_bind (reads_char _ _) ?_
    refine Reads.bind (s := [' ', ' ']) (t := ['\x7d']) (reads_gap (by decide) rfl) ?_
    exact .nil_bind (reads_sepBy_nil (hnone rest)) (reads_endOfList (s := []) [] rfl rest)
  | cons x xs =>
    have htext : (bracedText ((x :: xs).map f)).toList =
        '\x7b' :: ([' '] ++ ((f x).toList ++ (xs.flatMap fun y => ',' :: ' ' :: (f y).toList) ++
          ([' '] ++ ['\x7d']))) := by
      simp only [bracedText, List.map_cons, String.toList_append, String.toList_intercalate,
        intercalate_cons_eq, List.flatMap_map, List.append_assoc]
      rfl
    rw [htext]
    refine .cons_bind (reads_char _ _) ((reads_gap (by decide) ?_).bind
      (Reads.bind (a := x :: xs) ?_ ?_))
    · rw [List.append_assoc, List.append_assoc]
      exact hstops x List.mem_cons_self _
    · refine Reads.sepBy (hitem x List.mem_cons_self _ ?_) (reads_many_items ?_ ?_ rest)
      · cases xs <;> rfl
      · exact fun y hy => hitem y (List.mem_cons_of_mem x hy)
      · exact fun y hy => hstops y (List.mem_cons_of_mem x hy)
    · exact reads_endOfList (x :: xs) (by decide) rest

end Braced

/-! ## The four definitions -/

variable {isExported : Bool} {name digits : String}

theorem toList_text_define (isExported : Bool) (name : String) (definition : Definition) :
    (Statement.define isExported name definition).text.toList =
      mark isExported ++ (definition.text name).toList := by
  cases isExported <;> simp [Statement.text, mark]

/-- The sign of equality or the colon, with the blanks that are written around it. -/
theorem reads_spaced_char {c : Char} (hc : isSpace c = false) {s : List Char}
    (hs : s.all isSpace = true) (hrest : Stops isSpace rest) :
    (spaced (char c)).Reads (s ++ [c, ' ']) () rest :=
  reads_spaced (reads_char c _) hs hc (by decide) hrest

theorem reads_constant (hname : isName name = true) (hdigits : isDigits digits = true)
    (hrest : Stops isNameRest rest) :
    constant.Reads (Statement.define isExported name (.constant digits)).text.toList
      (.define isExported name (.constant digits)) rest := by
  rw [toList_text_define]
  refine Reads.congr (s := mark isExported ++ ("constant".toList ++ [' '] ++ (name.toList ++
    ([' '] ++ ['=', ' '] ++ ('$' :: digits.toList))))) ?_ ?_
  · refine (reads_exportMark isExported rfl).bind ((reads_keyword _ ?_).bind
      ((reads_identifier hname ?_).bind ((reads_spaced_char rfl (by decide) ?_).bind
        ((reads_hexLiteral hdigits (stops_isHexDigit hrest)).bind_nil (reads_pure _ _)))))
    · rw [List.append_assoc]
      exact stops_isSpace_of_isName hname _
    · rfl
    · rfl
  · simp [Definition.text]

theorem reads_dataWidth (width : Width) (hrest : Stops isSpace rest) :
    dataWidth.Reads (width.keyword.toList ++ [' ']) width rest := by
  cases width with
  | word =>
    exact Reads.firstOf [] nofun ((reads_keyword _ hrest).bind_nil (reads_pure _ _))
  | byte =>
    refine Reads.firstOf [_] (fun q hq => ?_)
      ((reads_keyword _ hrest).bind_nil (reads_pure _ _))
    rw [List.mem_singleton.mp hq]
    exact bind_eq_none (bind_eq_none rfl)

theorem reads_data {width : Width} {values : List String} (hname : isName name = true)
    (hvalues : ∀ digits ∈ values, isDigits digits = true) (rest : List Char) :
    data.Reads (Statement.define isExported name (.data width values)).text.toList
      (.define isExported name (.data width values)) rest := by
  have hlist : (braced hexLiteral).Reads (bracedText (values.map ("$" ++ ·))).toList values
      rest := by
    refine reads_braced (fun digits hmem rest hrest => ?_) (fun _ _ _ => ?_) (fun _ => ?_) rest
    · rw [String.toList_append]
      exact reads_hexLiteral (hvalues digits hmem) (stops_isHexDigit hrest)
    · rw [String.toList_append]
      rfl
    · rfl
  have hopens : ∃ tail, (bracedText (values.map ("$" ++ ·))).toList ++ rest = '\x7b' :: tail := by
    simp [bracedText]
  obtain ⟨tail, htail⟩ := hopens
  rw [toList_text_define]
  refine Reads.congr (s := mark isExported ++ (width.keyword.toList ++ [' '] ++ (name.toList ++
    ([' '] ++ ['=', ' '] ++ (bracedText (values.map ("$" ++ ·))).toList)))) ?_ ?_
  · refine (reads_exportMark isExported ?_).bind ((reads_dataWidth _ ?_).bind
      ((reads_identifier hname ?_).bind ((reads_spaced_char rfl (by decide) ?_).bind
        (hlist.bind_nil (reads_pure _ _)))))
    · cases width <;> rfl
    · rw [List.append_assoc]
      exact stops_isSpace_of_isName hname _
    · rfl
    · rw [htail]
      rfl
  · simp [Definition.text]

theorem reads_structMember {member : String × String} (hname : isName member.1 = true)
    (hdigits : isDigits member.2 = true) (hrest : Stops isNameRest rest) :
    structMember.Reads (member.1 ++ ": $" ++ member.2).toList member rest := by
  refine Reads.congr (s := member.1.toList ++ ([] ++ [':', ' '] ++ ('$' :: member.2.toList)))
    ?_ ?_
  · refine (reads_identifier hname ?_).bind ((reads_spaced_char (s := []) rfl rfl ?_).bind
      ((reads_hexLiteral hdigits (stops_isHexDigit hrest)).bind_nil (reads_pure _ _)))
    · rfl
    · rfl
  · simp

theorem reads_struct {members : List (String × String)} (hname : isName name = true)
    (hmembers : ∀ m ∈ members, isName m.1 = true ∧ isDigits m.2 = true) (rest : List Char) :
    struct.Reads (Statement.define isExported name (.struct members)).text.toList
      (.define isExported name (.struct members)) rest := by
  have hlist : (braced structMember).Reads
      (bracedText (members.map fun m => m.1 ++ ": $" ++ m.2)).toList members rest := by
    refine reads_braced (fun m hm rest hrest => ?_) (fun m hm rest => ?_) (fun _ => ?_) rest
    · exact reads_structMember (hmembers m hm).1 (hmembers m hm).2 hrest
    · rw [String.toList_append, String.toList_append, List.append_assoc, List.append_assoc]
      exact stops_of_isName (hmembers m hm).1 (fun _ => isGapStart_of_isNameStart) _
    · rfl
  have hopens : ∃ tail, (bracedText (members.map fun m => m.1 ++ ": $" ++ m.2)).toList ++ rest =
      '\x7b' :: tail := by
    simp [bracedText]
  obtain ⟨tail, htail⟩ := hopens
  rw [toList_text_define]
  refine Reads.congr (s := mark isExported ++ ("struct".toList ++ [' '] ++ (name.toList ++
    ([' '] ++ (bracedText (members.map fun m => m.1 ++ ": $" ++ m.2)).toList)))) ?_ ?_
  · refine (reads_exportMark isExported rfl).bind ((reads_keyword _ ?_).bind
      ((reads_identifier hname ?_).bind ((reads_spaces0 (by decide) ?_).bind
        (hlist.bind_nil (reads_pure _ _)))))
    · rw [List.append_assoc]
      exact stops_isSpace_of_isName hname _
    · rfl
    · rw [htail]
      rfl
  · simp [Definition.text]

/-- A name begins with no export mark. -/
theorem char_plus_eq_none_of_name (hname : isName name = true) (s : List Char) :
    char '+' (name.toList ++ s) = none := by
  obtain ⟨c, cs, hcs, hc, -⟩ := exists_of_isName hname
  rw [hcs]
  refine char_eq_none ?_ _
  rintro rfl
  exact absurd hc (by decide)

theorem reads_label (hname : isName name = true) (rest : List Char) :
    label.Reads (Statement.define isExported name .label).text.toList
      (.define isExported name .label) rest := by
  rw [toList_text_define]
  refine Reads.congr (s := mark isExported ++ (name.toList ++ [':'])) ?_ ?_
  · refine (reads_exportMark isExported ?_).bind ((reads_identifier hname ?_).bind
      ((reads_char _ _).bind_nil (reads_pure _ _)))
    · rw [List.append_assoc]
      exact char_plus_eq_none_of_name hname _
    · rfl
  · simp [Definition.text]

/-! ## Which definition it is -/

variable {s : List Char}

/-- Where no `constant` stands, no constant is defined. -/
theorem constant_eq_none (isExported : Bool) (hplus : char '+' s = none)
    (hword : keyword "constant" s = none) :
    constant (mark isExported ++ s) = none :=
  (reads_exportMark isExported hplus).bind_eq_none (bind_eq_none hword)

theorem dataWidth_eq_none (hword : ∀ width : Width, keyword width.keyword s = none) :
    dataWidth s = none := by
  refine firstOf_eq_none fun p hp => ?_
  rcases List.mem_pair.mp hp with rfl | rfl
  · exact bind_eq_none (hword .word)
  · exact bind_eq_none (hword .byte)

theorem data_eq_none (isExported : Bool) (hplus : char '+' s = none)
    (hword : ∀ width : Width, keyword width.keyword s = none) :
    data (mark isExported ++ s) = none :=
  (reads_exportMark isExported hplus).bind_eq_none (bind_eq_none (dataWidth_eq_none hword))

theorem struct_eq_none (isExported : Bool) (hplus : char '+' s = none)
    (hword : keyword "struct" s = none) :
    struct (mark isExported ++ s) = none :=
  (reads_exportMark isExported hplus).bind_eq_none (bind_eq_none hword)

/-- A definition that can be written is read as itself. -/
theorem reads_statement_define {definition : Definition} (hname : isName name = true)
    (hdefinition : definition.WellFormed) (hrest : Stops isNameRest rest) :
    statement.Reads (Statement.define isExported name definition).text.toList
      (.define isExported name definition) rest := by
  cases definition with
  | constant digits => exact Reads.firstOf [] nofun (reads_constant hname hdefinition hrest)
  | data width values =>
    refine Reads.firstOf [_] (fun q hq => ?_) (reads_data hname hdefinition rest)
    obtain ⟨t, ht⟩ : ∃ t, ((Definition.data width values).text name).toList =
        width.keyword.toList ++ t := by
      simp only [Definition.text, String.toList_append, List.append_assoc]
      exact ⟨_, rfl⟩
    rw [List.mem_singleton.mp hq, toList_text_define, ht, List.append_assoc, List.append_assoc]
    exact constant_eq_none _ (by cases width <;> rfl) (bind_eq_none (by cases width <;> rfl))
  | struct members =>
    refine Reads.firstOf [_, _] (fun q hq => ?_) (reads_struct hname hdefinition rest)
    obtain ⟨t, ht⟩ : ∃ t, ((Definition.struct members).text name).toList =
        "struct ".toList ++ t := by
      simp only [Definition.text, String.toList_append, List.append_assoc]
      exact ⟨_, rfl⟩
    rw [toList_text_define, ht, List.append_assoc, List.append_assoc]
    rcases List.mem_pair.mp hq with rfl | rfl
    · exact constant_eq_none _ rfl (bind_eq_none rfl)
    · exact data_eq_none _ rfl fun width => bind_eq_none (by cases width <;> rfl)
  | label =>
    refine Reads.firstOf [_, _, _] (fun q hq => ?_) (reads_label hname rest)
    have htext : (Definition.label.text name).toList ++ rest = name.toList ++ ':' :: rest := by
      simp [Definition.text]
    have hplus := char_plus_eq_none_of_name hname (':' :: rest)
    have hword {word : String} (h : word.toList.all isNameRest = true) :
        keyword word (name.toList ++ ':' :: rest) = none :=
      keyword_eq_none_of_name h (all_isNameRest_of_isName hname) rest
    rw [toList_text_define, List.append_assoc, htext]
    simp only [List.mem_cons, List.not_mem_nil, or_false] at hq
    rcases hq with rfl | rfl | rfl
    · exact constant_eq_none _ hplus (hword (by decide))
    · exact data_eq_none _ hplus fun width => hword (by cases width <;> decide)
    · exact struct_eq_none _ hplus (hword (by decide))

end Grammar
end WordMachine
