import Mathlib.Data.List.Pairwise
import WordMachine.Proofs.Grammar.SteadyStatement

/-!
# Where the order of the rules decides

Choice is ordered, and so a text could be read in several ways of which the order of the rules
picks one.  Statements are of five kinds, and there the order decides nothing.  A definition
begins with its word and a blank; a label has its colon right behind a name, where an instruction
has a blank or the end of the line; and the words of the definitions are no mnemonics.  So at most
one of the five rules succeeds, whatever the text.

Among the forms of a mnemonic the order does decide, but only over the operand `&acc`.  Two forms
that read the same line to its end have read the same pieces of it: one operand begins where the
other does, with the same character, and ends where the other does, since what follows a shorter
one would go on with a name.  Operands that begin with the same character are read by the same
rule, or they are an address and a pointer.  Then the text is the name of a register and has digits
only, and `acc` is the only register whose name has.  Three pairs of instructions differ in nothing
but this, and of each the one with the address is tried first.

* `Rule.firstOf_perm`: rules that exclude each other can be tried in any order.
* `Grammar.pairwise_excludes`: so it is with the rules for statements.
* `Grammar.map_lead_eq_of_operands`: the operands of two forms that read a line begin alike.
* `Grammar.acc_of_operands`: an operand that is an address and a pointer is `&acc`.
* `Grammar.unambiguous`: all of it about the grammar as a whole.
-/

namespace WordMachine

open Rule Lexeme

/-! ## Rules that exclude each other -/

namespace Rule

variable {α β : Type} {s : List Char}

/-- At most one of two rules succeeds on the text. -/
def Excludes (s : List Char) (p q : Rule α) : Prop := p s = none ∨ q s = none

theorem Excludes.symm {p q : Rule α} (h : Excludes s p q) : Excludes s q p := Or.symm h

theorem excludes_of_imp {p q : Rule α} (h : p s ≠ none → q s = none) : Excludes s p q :=
  Classical.or_iff_not_imp_left.mpr h

/-- Of rules that exclude each other, the one that succeeds gives the answer, wherever it
stands. -/
theorem firstOf_eq_some_iff {ps : List (Rule α)} (h : ps.Pairwise (Excludes s)) {r : α × Nat} :
    firstOf ps s = some r ↔ ∃ p ∈ ps, p s = some r := by
  induction ps with
  | nil => simp [firstOf, fail]
  | cons p ps ih =>
    obtain ⟨hp, hps⟩ := List.pairwise_cons.mp h
    rw [firstOf_cons, List.exists_mem_cons_iff]
    cases hs : p s with
    | none => simpa using ih hps
    | some r' =>
      refine ⟨.inl, fun hr => hr.resolve_right ?_⟩
      rintro ⟨q, hq, hqr⟩
      rcases hp q hq with hnone | hnone
      · cases hs.symm.trans hnone
      · cases hqr.symm.trans hnone

theorem firstOf_append_of_none {ps : List (Rule α)} (h : ∀ p ∈ ps, p s = none)
    (qs : List (Rule α)) : firstOf (ps ++ qs) s = firstOf qs s := by
  induction ps with
  | nil => rfl
  | cons p ps ih =>
    rw [List.cons_append, firstOf_cons, h p List.mem_cons_self]
    exact ih fun q hq => h q (List.mem_cons_of_mem p hq)

/-- Rules that exclude each other can be tried in any order. -/
theorem firstOf_perm {ps qs : List (Rule α)} (hperm : ps.Perm qs)
    (h : qs.Pairwise (Excludes s)) : firstOf ps s = firstOf qs s := by
  refine Option.ext fun r => ?_
  rw [firstOf_eq_some_iff h, firstOf_eq_some_iff ((hperm.pairwise_iff Excludes.symm).mpr h)]
  exact exists_congr fun p => and_congr_left' hperm.mem_iff

end Rule

namespace Grammar

variable {s : List Char}

/-! ## The kinds of statements -/

/-- The rules for statements, in the order in which they are tried. -/
def statementRules : List (Rule Statement) := [constant, data, struct, label, instruction]

/-- The words that introduce definitions. -/
def words : List String := ["constant", "data16", "data8", "struct"]

theorem isName_of_mem_words {word : String} (h : word ∈ words) : isName word = true := by
  have hall : ∀ word ∈ words, isName word = true := by decide
  exact hall word h

/-- No word that introduces a definition is a mnemonic. -/
theorem forms_of_mem_words {word : String} (h : word ∈ words) : Opcode.forms word = [] := by
  have hall : ∀ word ∈ words, Opcode.forms word = [] := by decide +kernel
  exact hall word h

/-- The text begins with a word of the language and a blank, behind the mark if there is one. -/
structure Introduces (word : String) (s : List Char) : Prop where
  mem_words : word ∈ words
  exists_keyword : ∃ isExported k r, exportMark s = some (isExported, k) ∧
    keyword word (s.drop k) = some r

theorem introduces_of_constant (h : constant s ≠ none) : Introduces "constant" s := by
  obtain ⟨isExported, k, hmark, hrest⟩ := exists_of_bind_ne_none h
  obtain ⟨_, _, hword, -⟩ := exists_of_bind_ne_none hrest
  exact ⟨by decide, isExported, k, _, hmark, hword⟩

theorem introduces_of_data (h : data s ≠ none) :
    ∃ width : Width, Introduces width.keyword s := by
  obtain ⟨isExported, k, hmark, hrest⟩ := exists_of_bind_ne_none h
  obtain ⟨_, _, hwidth, -⟩ := exists_of_bind_ne_none hrest
  obtain ⟨width, r, hword⟩ := exists_of_dataWidth hwidth
  exact ⟨width, by cases width <;> decide, isExported, k, r, hmark, hword⟩

theorem introduces_of_struct (h : struct s ≠ none) : Introduces "struct" s := by
  obtain ⟨isExported, k, hmark, hrest⟩ := exists_of_bind_ne_none h
  obtain ⟨_, _, hword, -⟩ := exists_of_bind_ne_none hrest
  exact ⟨by decide, isExported, k, _, hmark, hword⟩

namespace Introduces

variable {word word' : String}

/-- A text begins with one word only. -/
theorem unique (h : Introduces word s) (h' : Introduces word' s) : word = word' := by
  obtain ⟨isExported, k, r, hmark, hword⟩ := h.exists_keyword
  obtain ⟨_, _, r', hmark', hword'⟩ := h'.exists_keyword
  obtain ⟨rfl, rfl⟩ := Prod.mk.inj (Option.some.inj (hmark.symm.trans hmark'))
  by_contra hne
  have hnone := keyword_eq_none_of_ne (isName_of_mem_words h'.mem_words)
    (isName_of_mem_words h.mem_words) hne hword'
  exact nomatch hword.symm.trans hnone

theorem data_eq_none (h : Introduces word s) (hne : ∀ width : Width, word ≠ width.keyword) :
    data s = none := by
  by_contra hdata
  obtain ⟨width, hwidth⟩ := introduces_of_data hdata
  exact hne width (h.unique hwidth)

theorem struct_eq_none (h : Introduces word s) (hne : word ≠ "struct") : struct s = none := by
  by_contra hstruct
  exact hne (h.unique (introduces_of_struct hstruct))

theorem label_eq_none (h : Introduces word s) : label s = none := by
  obtain ⟨isExported, k, r, hmark, hword⟩ := h.exists_keyword
  exact label_eq_none_of_keyword hmark (isName_of_mem_words h.mem_words) hword

theorem instruction_eq_none (h : Introduces word s) : instruction s = none := by
  obtain ⟨isExported, k, r, hmark, hword⟩ := h.exists_keyword
  exact instruction_eq_none_of_keyword hmark (isName_of_mem_words h.mem_words)
    (forms_of_mem_words h.mem_words) hword

end Introduces

/-- Behind a mnemonic stands a blank, or the line ends. -/
theorem form_eq_none_of_isGapStart {c : Char} (h : isGapStart c = false) (o : Opcode)
    (s : List Char) : form o (c :: s) = none := by
  refine FallsShort.bind_lineEnd_eq_none ?_ _
  cases o.format.operands with
  | nil => exact fallsShort_pure _ (lineEnd_eq_none_of_isGapStart h s)
  | cons kind kinds =>
    have hblank : Stops isSpace (c :: s) := isSpace_of_isGapStart h
    exact fallsShort_of_eq_none (bind_eq_none (spaces1_eq_none hblank))

/-- No label is an instruction: its colon is right behind the name. -/
theorem instruction_eq_none_of_label (h : label s ≠ none) : instruction s = none := by
  obtain ⟨_, k, hmark, hrest⟩ := exists_of_bind_ne_none h
  obtain ⟨name, n, hname, hrest⟩ := exists_of_bind_ne_none hrest
  obtain ⟨_, _, hcolon, -⟩ := exists_of_bind_ne_none hrest
  obtain ⟨t, ht, -⟩ := exists_of_char hcolon
  rcases exists_of_exportMark hmark with ⟨u, rfl⟩ | rfl
  · exact bind_eq_none rfl
  · refine bind_eq_none_of_some hname ?_
    show firstOf _ (s.drop n) = none
    refine firstOf_eq_none fun p hp => ?_
    obtain ⟨o, -, rfl⟩ := List.mem_map.mp hp
    rw [show s.drop n = ':' :: t from ht]
    exact form_eq_none_of_isGapStart (by decide) o t

/-- At most one of the rules for statements succeeds. -/
theorem pairwise_excludes (s : List Char) : statementRules.Pairwise (Excludes s) := by
  have hconstant (h : constant s ≠ none) : Introduces "constant" s := introduces_of_constant h
  have hwidth (width : Width) : "constant" ≠ width.keyword ∧ width.keyword ≠ "struct" := by
    cases width <;> decide
  simp only [statementRules, List.pairwise_cons, List.forall_mem_cons, List.not_mem_nil,
    false_imp_iff, implies_true, List.Pairwise.nil, and_true]
  refine ⟨⟨?_, ?_, ?_, ?_⟩, ⟨?_, ?_, ?_⟩, ⟨?_, ?_⟩, ?_⟩
  · exact excludes_of_imp fun h => (hconstant h).data_eq_none fun width => (hwidth width).1
  · exact excludes_of_imp fun h => (hconstant h).struct_eq_none (by decide)
  · exact excludes_of_imp fun h => (hconstant h).label_eq_none
  · exact excludes_of_imp fun h => (hconstant h).instruction_eq_none
  · refine excludes_of_imp fun h => ?_
    obtain ⟨width, hdata⟩ := introduces_of_data h
    exact hdata.struct_eq_none (hwidth width).2
  · refine excludes_of_imp fun h => ?_
    obtain ⟨width, hdata⟩ := introduces_of_data h
    exact hdata.label_eq_none
  · refine excludes_of_imp fun h => ?_
    obtain ⟨width, hdata⟩ := introduces_of_data h
    exact hdata.instruction_eq_none
  · exact excludes_of_imp fun h => (introduces_of_struct h).label_eq_none
  · exact excludes_of_imp fun h => (introduces_of_struct h).instruction_eq_none
  · exact excludes_of_imp instruction_eq_none_of_label

end Grammar

/-! ## Rules that read a line -/

namespace Rule

variable {α β : Type} {s : List Char}

/-- The rule reads up to where the line ends. -/
def ReadsLine (p : Rule α) (s : List Char) : Prop :=
  ∃ a n, p s = some (a, n) ∧ lineEnd (s.drop n) ≠ none

theorem ReadsLine.lineEnd_ne_none {a : α} (h : (pure a : Rule α).ReadsLine s) :
    lineEnd s ≠ none := by
  obtain ⟨_, n, hn, hend⟩ := h
  obtain ⟨-, rfl⟩ := Prod.mk.inj (Option.some.inj hn)
  exact hend

/-- Of a sequence that reads a line, the second rule reads what is left of it. -/
theorem ReadsLine.exists_of_bind {p : Rule α} {f : α → Rule β} (h : (p >>= f).ReadsLine s) :
    ∃ a k, p s = some (a, k) ∧ (f a).ReadsLine (s.drop k) := by
  obtain ⟨b, n, hn, hend⟩ := h
  obtain ⟨a, k, m, hk, hm, rfl⟩ := exists_of_bind_eq_some hn
  rw [← List.drop_drop] at hend
  exact ⟨a, k, hk, b, m, hm, hend⟩

/-- Two sequences that begin with the same rule and read the same line. -/
theorem ReadsLine.exists_of_bind_both {p : Rule α} {f g : α → Rule β}
    (hf : (p >>= f).ReadsLine s) (hg : (p >>= g).ReadsLine s) :
    ∃ a k, p s = some (a, k) ∧ (f a).ReadsLine (s.drop k) ∧ (g a).ReadsLine (s.drop k) := by
  obtain ⟨a, k, hk, ha⟩ := hf.exists_of_bind
  obtain ⟨b, m, hm, hb⟩ := hg.exists_of_bind
  obtain ⟨rfl, rfl⟩ := Prod.mk.inj (Option.some.inj (hk.symm.trans hm))
  exact ⟨a, k, hk, ha, hb⟩

theorem ReadsLine.of_map {p : Rule α} {g : α → β}
    (h : (p >>= fun a => pure (g a)).ReadsLine s) : p.ReadsLine s := by
  obtain ⟨a, k, hk, hpure⟩ := h.exists_of_bind
  exact ⟨a, k, hk, hpure.lineEnd_ne_none⟩

end Rule

namespace Grammar

variable {s : List Char} {kind kind' : Kind} {kinds kinds' : List Kind}

/-- A form is taken if its operands are the whole line. -/
theorem readsLine_of_form {o : Opcode} (h : form o s ≠ none) :
    (operands o.format.operands).ReadsLine s := by
  obtain ⟨xs, n, hn, hrest⟩ := exists_of_bind_ne_none h
  exact ⟨xs, n, hn, fun hnone => hrest (bind_eq_none hnone)⟩

/-- Behind an operand, the other operands are the rest of the line, and no name goes on. -/
theorem exists_of_readsLine_operandThen (h : (operandThen kind kinds).ReadsLine s) :
    ∃ x k, operand kind s = some (x, k) ∧ (moreOperands kinds).ReadsLine (s.drop k) ∧
      Stops isNameRest (s.drop k) := by
  obtain ⟨x, k, hk, hrest⟩ := h.exists_of_bind
  obtain ⟨xs, n, hn, hend⟩ := hrest.of_map
  exact ⟨x, k, hk, ⟨xs, n, hn, hend⟩, stops_of_moreOperands hn hend⟩

/-! ## Two forms that read the same line -/

/-- Operands of given kinds, the first behind the given separator and the others behind commas. -/
def operandsBehind (separator : Rule Unit) : List Kind → Rule (List Operand)
  | [] => pure []
  | kind :: kinds => do
    separator
    operandThen kind kinds

theorem operandsBehind_spaces1 (kinds : List Kind) :
    operandsBehind spaces1 kinds = operands kinds := by
  cases kinds <;> rfl

theorem operandsBehind_comma (kinds : List Kind) :
    operandsBehind (spaced (char ',')) kinds = moreOperands kinds := by
  cases kinds <;> rfl

/-- Where a line ends, no operand stands behind the separator. -/
def Separates (separator : Rule Unit) : Prop :=
  ∀ s kind kinds, lineEnd s ≠ none → ¬ (operandsBehind separator (kind :: kinds)).ReadsLine s

/-- There may be blanks where a line ends, but no operand behind them. -/
theorem separates_spaces1 : Separates spaces1 := by
  intro s kind kinds hend h
  obtain ⟨_, k, hblank, hrest⟩ := h.exists_of_bind
  obtain ⟨x, _, hx, -⟩ := exists_of_readsLine_operandThen hrest
  obtain ⟨i, hi, hends⟩ := exists_of_lineEnd hend
  rw [spaces0_eq_some_of_spaces1 hblank] at hi
  obtain ⟨-, rfl⟩ := Prod.mk.inj (Option.some.inj hi)
  exact nomatch (operand_eq_none_of_endsLine hends kind).symm.trans hx

theorem separates_comma : Separates (spaced (char ',')) := by
  intro s kind kinds hend h
  obtain ⟨_, k, hcomma, -⟩ := h.exists_of_bind
  exact nomatch (spaced_comma_eq_none_of_lineEnd hend).symm.trans hcomma

/-- Two rules for a first operand and others that read the same line: the first operands begin
alike, and the others read the same rest. -/
theorem exists_of_readsLine_both (h : (operandThen kind kinds).ReadsLine s)
    (h' : (operandThen kind' kinds').ReadsLine s) :
    kind.lead = kind'.lead ∧ ∃ k, (moreOperands kinds).ReadsLine (s.drop k) ∧
      (moreOperands kinds').ReadsLine (s.drop k) := by
  obtain ⟨x, k, hx, hrest, hstops⟩ := exists_of_readsLine_operandThen h
  obtain ⟨y, m, hy, hrest', hstops'⟩ := exists_of_readsLine_operandThen h'
  obtain rfl := length_eq_of_operand hx hy hstops hstops'
  obtain ⟨c, t, rfl, hc⟩ := exists_begins_of_operand hx
  obtain ⟨d, u, hd, hd'⟩ := exists_begins_of_operand hy
  obtain ⟨rfl, -⟩ := List.cons_eq_cons.mp hd
  exact ⟨hc.eq_lead hd', k, hrest, hrest'⟩

/-- Operands that read the same line begin alike, one by one. -/
theorem map_lead_eq_of_operandsBehind {separator : Rule Unit} (hseparates : Separates separator)
    (h : (operandsBehind separator kinds).ReadsLine s)
    (h' : (operandsBehind separator kinds').ReadsLine s) :
    kinds.map Kind.lead = kinds'.map Kind.lead := by
  induction kinds generalizing separator kinds' s with
  | nil =>
    cases kinds' with
    | nil => rfl
    | cons kind' kinds' => exact absurd h' (hseparates _ _ _ h.lineEnd_ne_none)
  | cons kind kinds ih =>
    cases kinds' with
    | nil => exact absurd h (hseparates _ _ _ h'.lineEnd_ne_none)
    | cons kind' kinds' =>
      obtain ⟨_, _, -, hrest, hrest'⟩ := h.exists_of_bind_both h'
      obtain ⟨hlead, i, hi, hi'⟩ := exists_of_readsLine_both hrest hrest'
      rw [← operandsBehind_comma] at hi hi'
      rw [List.map_cons, List.map_cons, hlead, ih separates_comma hi hi']

/-- Two forms that read the same line take operands that begin alike. -/
theorem map_lead_eq_of_operands (h : (operands kinds).ReadsLine s)
    (h' : (operands kinds').ReadsLine s) : kinds.map Kind.lead = kinds'.map Kind.lead := by
  rw [← operandsBehind_spaces1] at h h'
  exact map_lead_eq_of_operandsBehind separates_spaces1 h h'

/-! ## The operand `&acc` -/

/-- The text begins with the operand `&acc`, in whatever letters, and the name ends there. -/
def BeginsAcc (s : List Char) : Prop :=
  ∃ (name : String) (rest : List Char), s = '&' :: (name.toList ++ rest) ∧
    name.map Char.toLower = "acc" ∧ Stops isNameRest rest

/-- The only register whose name has digits only is `acc`. -/
theorem eq_acc_of_isDigits {name : String} {r : Register} (h : Register.ofName? name = some r)
    (hdigits : isDigits name = true) : name.map Char.toLower = "acc" := by
  have hall : ∀ r : Register, isDigits r.name = true → r.name = "acc" := by decide
  rw [← isDigits_map_toLower, ← name_eq_of_ofName? h] at hdigits
  rw [← name_eq_of_ofName? h]
  exact hall r hdigits

/-- An operand that can be read as an address and as a pointer is `&acc`. -/
theorem beginsAcc_of_readsLine (h : (operandThen .address kinds).ReadsLine s)
    (h' : (operandThen .pointer kinds').ReadsLine s) : BeginsAcc s := by
  obtain ⟨x, n, hx, -, hstops⟩ := exists_of_readsLine_operandThen h
  obtain ⟨y, m, hy, -⟩ := exists_of_readsLine_operandThen h'
  obtain ⟨r, name, rest, -, hofName, hdigits, hs, -, -, hrest⟩ :=
    exists_of_address_of_pointer hx hy hstops
  exact ⟨name, rest, hs, eq_acc_of_isDigits hofName hdigits, hrest⟩

/-- Reads everything in front of an operand: the operands before it, which are of the given kinds,
and the separator that it stands behind itself. -/
def upToOperand (separator : Rule Unit) : List Kind → Rule Unit
  | [] => separator
  | kind :: kinds => do
    separator
    let _ ← operand kind
    upToOperand (spaced (char ',')) kinds

/-- If two rules that read the same line take an address and a pointer behind operands of the same
kinds, then that operand is `&acc`. -/
theorem acc_of_operandsBehind {separator : Rule Unit} {before : List Kind}
    (h : (operandsBehind separator (before ++ .address :: kinds)).ReadsLine s)
    (h' : (operandsBehind separator (before ++ .pointer :: kinds')).ReadsLine s) :
    ∃ n, upToOperand separator before s = some ((), n) ∧ BeginsAcc (s.drop n) := by
  induction before generalizing separator s with
  | nil =>
    obtain ⟨_, k, hk, hrest, hrest'⟩ := h.exists_of_bind_both h'
    exact ⟨k, hk, beginsAcc_of_readsLine hrest hrest'⟩
  | cons kind before ih =>
    obtain ⟨_, k, hk, hrest, hrest'⟩ := h.exists_of_bind_both h'
    obtain ⟨x, i, hx, hmore, hmore'⟩ := hrest.exists_of_bind_both hrest'
    have hnext := hmore.of_map
    have hnext' := hmore'.of_map
    rw [← operandsBehind_comma] at hnext hnext'
    obtain ⟨n, hn, hacc⟩ := ih hnext hnext'
    refine ⟨k + (i + n), bind_eq_some hk (bind_eq_some hx hn), ?_⟩
    rwa [← List.drop_drop, ← List.drop_drop]

/-- What two forms that read the same line take for an address and for a pointer, behind operands
of the same kinds, is `&acc`. -/
theorem acc_of_operands {before : List Kind}
    (h : (operands (before ++ .address :: kinds)).ReadsLine s)
    (h' : (operands (before ++ .pointer :: kinds')).ReadsLine s) :
    ∃ n, upToOperand spaces1 before s = some ((), n) ∧ BeginsAcc (s.drop n) := by
  rw [← operandsBehind_spaces1] at h h'
  exact acc_of_operandsBehind h h'

/-! ## The forms of a mnemonic -/

/-- The instructions that can both be read where `&acc` stands, first the one that takes it for an
address. -/
def accPairs : List (Opcode × Opcode) :=
  [(.movRegMem, .movRegRegPtr), (.movMemReg, .movRegPtrReg), (.mov8MemReg, .mov8RegPtrReg)]

/-- Three pairs apart, the operands of two instructions with the same mnemonic begin
differently. -/
theorem pairwise_lead : Opcode.all.Pairwise fun p o => p.mnemonic = o.mnemonic →
    p.format.operands.map Kind.lead ≠ o.format.operands.map Kind.lead ∨ (p, o) ∈ accPairs := by
  decide +kernel

/-- The instructions of a pair differ in one operand. -/
theorem exists_operands_of_mem_accPairs {p o : Opcode} (h : (p, o) ∈ accPairs) :
    ∃ before after, p.format.operands = before ++ .address :: after ∧
      o.format.operands = before ++ .pointer :: after := by
  simp only [accPairs, List.mem_cons, Prod.mk.injEq, List.not_mem_nil, or_false] at h
  rcases h with ⟨rfl, rfl⟩ | ⟨rfl, rfl⟩ | ⟨rfl, rfl⟩
  · exact ⟨[.register], [], rfl, rfl⟩
  · exact ⟨[], [.register], rfl, rfl⟩
  · exact ⟨[], [.register], rfl, rfl⟩

/-- No instruction is the first of one pair and the second of another. -/
theorem not_mem_accPairs {p o q : Opcode} (h : (p, o) ∈ accPairs) : (o, q) ∉ accPairs := by
  intro h'
  simp only [accPairs, List.mem_cons, Prod.mk.injEq, List.not_mem_nil, or_false] at h h'
  rcases h with ⟨-, rfl⟩ | ⟨-, rfl⟩ | ⟨-, rfl⟩ <;> simp at h'

/-- The two forms are a pair, and the operand in which they differ is `&acc`: an address for the
first, a pointer for the second. -/
structure AmbiguousAtAcc (first second : Opcode) (s : List Char) : Prop where
  pair : (first, second) ∈ accPairs
  operand : ∃ before after n, first.format.operands = before ++ .address :: after ∧
    second.format.operands = before ++ .pointer :: after ∧
    upToOperand spaces1 before s = some ((), n) ∧ BeginsAcc (s.drop n)

section Forms

variable {mnemonic : String} {p o : Opcode} {before after : List Opcode}

theorem ambiguousAtAcc_of_mem_accPairs (hpair : (p, o) ∈ accPairs) (hp : form p s ≠ none)
    (ho : form o s ≠ none) : AmbiguousAtAcc p o s := by
  obtain ⟨before, after, hpkinds, hokinds⟩ := exists_operands_of_mem_accPairs hpair
  have hpline := readsLine_of_form hp
  have holine := readsLine_of_form ho
  rw [hpkinds] at hpline
  rw [hokinds] at holine
  obtain ⟨n, hn, hacc⟩ := acc_of_operands hpline holine
  exact ⟨hpair, before, after, n, hpkinds, hokinds, hn, hacc⟩

/-- Two forms of a mnemonic that read the same line are a pair, in the order in which they are
tried. -/
theorem mem_accPairs_of_precedes (hforms : Opcode.forms mnemonic = before ++ o :: after)
    (hmem : p ∈ before) (hp : form p s ≠ none) (ho : form o s ≠ none) : (p, o) ∈ accPairs := by
  have hlead := map_lead_eq_of_operands (readsLine_of_form hp) (readsLine_of_form ho)
  have hmnemonic := mnemonic_eq_of_precedes hforms hmem
  exact ((pairwise_forms pairwise_lead hforms).1 p hmem hmnemonic).resolve_left fun h => h hlead

/-- Of two forms of a mnemonic that read the same line, one is tried before the other. -/
theorem mem_accPairs_of_ne (hpmem : p ∈ Opcode.forms mnemonic) (homem : o ∈ Opcode.forms mnemonic)
    (hne : p ≠ o) (hp : form p s ≠ none) (ho : form o s ≠ none) :
    (p, o) ∈ accPairs ∨ (o, p) ∈ accPairs := by
  obtain ⟨before, after, hforms⟩ := List.append_of_mem homem
  rw [hforms, List.mem_append, List.mem_cons] at hpmem
  rcases hpmem with hbefore | rfl | hafter
  · exact .inl (mem_accPairs_of_precedes hforms hbefore hp ho)
  · exact absurd rfl hne
  · obtain ⟨middle, last, rfl⟩ := List.append_of_mem hafter
    have hforms' : Opcode.forms mnemonic = (before ++ o :: middle) ++ p :: last := by
      rw [hforms, List.append_assoc, List.cons_append]
    have hmem : o ∈ before ++ o :: middle := List.mem_append_right _ List.mem_cons_self
    exact .inr (mem_accPairs_of_precedes hforms' hmem ho hp)

/-- The first of a pair is taken: no form before it reads the line. -/
theorem firstOf_forms_of_mem_accPairs (hpair : (p, o) ∈ accPairs)
    (hmem : p ∈ Opcode.forms mnemonic) (hp : form p s ≠ none) :
    firstOf ((Opcode.forms mnemonic).map form) s = form p s := by
  obtain ⟨before, after, hforms⟩ := List.append_of_mem hmem
  have hbefore : ∀ q ∈ before.map form, q s = none := by
    intro q hq
    obtain ⟨o', ho', rfl⟩ := List.mem_map.mp hq
    by_contra hne
    exact not_mem_accPairs (mem_accPairs_of_precedes hforms ho' hne hp) hpair
  obtain ⟨r, hr⟩ := Option.ne_none_iff_exists'.mp hp
  rw [hforms, List.map_append, firstOf_append_of_none hbefore, List.map_cons, firstOf_cons, hr]

theorem exists_of_form {o : Opcode} (h : form o s ≠ none) :
    ∃ xs n, form o s = some (.instruction o xs, n) := by
  obtain ⟨⟨st, n⟩, hr⟩ := Option.ne_none_iff_exists'.mp h
  obtain ⟨xs, k, m, -, hrest, rfl⟩ := exists_of_bind_eq_some hr
  obtain ⟨_, i, j, -, hpure, rfl⟩ := exists_of_bind_eq_some hrest
  obtain ⟨rfl, rfl⟩ := Prod.mk.inj (Option.some.inj hpure)
  exact ⟨xs, _, hr⟩

/-- What the forms of a mnemonic read is read as a statement behind it. -/
theorem statement_eq_of_firstOf_forms {t : List Char} {k n : Nat} {st : Statement}
    (hname : identifier t = some (mnemonic, k))
    (hforms : firstOf ((Opcode.forms mnemonic).map form) (t.drop k) = some (st, n)) :
    statement t = some (st, k + n) := by
  have hinstruction : instruction t = some (st, k + n) := bind_eq_some hname hforms
  refine (firstOf_eq_some_iff (pairwise_excludes t)).mpr ⟨instruction, ?_, hinstruction⟩
  exact List.mem_append_right [constant, data, struct, label] List.mem_cons_self

end Forms

/-- The grammar is unambiguous but for `&acc`.  Of the rules for statements at most one succeeds,
so that they could be tried in any order.  If two forms of a mnemonic, which may be written in any
letters, read the same text to the end of a line, then they are one of three pairs and differ in
the operand `&acc`, and the statement that is read is the one with the address. -/
theorem unambiguous :
    (∀ t, statementRules.Pairwise (Excludes t)) ∧
    (∀ t rules, rules.Perm statementRules → firstOf rules t = statement t) ∧
    ∀ mnemonic s, ∀ f ∈ Opcode.forms mnemonic, ∀ g ∈ Opcode.forms mnemonic, f ≠ g →
      form f s ≠ none → form g s ≠ none →
      ∃ first second, (f = first ∧ g = second ∨ f = second ∧ g = first) ∧
        AmbiguousAtAcc first second s ∧
        ∃ xs n, form first s = some (.instruction first xs, n) ∧
          ∀ t k, identifier t = some (mnemonic, k) → t.drop k = s →
            statement t = some (.instruction first xs, k + n) := by
  refine ⟨pairwise_excludes, fun t rules hperm => firstOf_perm hperm (pairwise_excludes t), ?_⟩
  intro mnemonic s f hf g hg hne hfs hgs
  have htaken {first second : Opcode} (hpair : (first, second) ∈ accPairs)
      (hmem : first ∈ Opcode.forms mnemonic) (hfirst : form first s ≠ none)
      (hsecond : form second s ≠ none) :
      AmbiguousAtAcc first second s ∧
        ∃ xs n, form first s = some (.instruction first xs, n) ∧
          ∀ t k, identifier t = some (mnemonic, k) → t.drop k = s →
            statement t = some (.instruction first xs, k + n) := by
    obtain ⟨xs, n, hread⟩ := exists_of_form hfirst
    refine ⟨ambiguousAtAcc_of_mem_accPairs hpair hfirst hsecond, xs, n, hread, ?_⟩
    rintro t k hname rfl
    refine statement_eq_of_firstOf_forms hname ?_
    rw [firstOf_forms_of_mem_accPairs hpair hmem hfirst, hread]
  rcases mem_accPairs_of_ne hf hg hne hfs hgs with hpair | hpair
  · exact ⟨f, g, .inl ⟨rfl, rfl⟩, htaken hpair hf hfs hgs⟩
  · exact ⟨g, f, .inr ⟨rfl, rfl⟩, htaken hpair hg hgs hfs⟩

/-- Both forms read `r1, &AcC`, and the one with the address is taken. -/
theorem unambiguous_on_acc :
    form .movRegMem " r1, &AcC".toList ≠ none ∧ form .movRegRegPtr " r1, &AcC".toList ≠ none ∧
      ∃ xs n, statement "MoV r1, &AcC".toList = some (.instruction .movRegMem xs, 3 + n) := by
  have haddress : form .movRegMem " r1, &AcC".toList ≠ none := by decide +kernel
  have hpointer : form .movRegRegPtr " r1, &AcC".toList ≠ none := by decide +kernel
  obtain ⟨first, second, horder, hacc, xs, n, -, htaken⟩ :=
    unambiguous.2.2 "MoV" " r1, &AcC".toList .movRegRegPtr (by decide +kernel) .movRegMem
      (by decide +kernel) (by decide) hpointer haddress
  refine ⟨haddress, hpointer, xs, n, ?_⟩
  rcases horder with ⟨rfl, rfl⟩ | ⟨rfl, rfl⟩
  · exact absurd hacc.pair (by decide)
  · exact htaken "MoV r1, &AcC".toList 3 (by decide +kernel) (by decide +kernel)

end Grammar
end WordMachine
