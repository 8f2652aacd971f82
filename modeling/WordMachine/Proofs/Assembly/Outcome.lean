import WordMachine.Proofs.Assembly.Fields
import WordMachine.Proofs.Assembly.Names
import WordMachine.Proofs.Grammar.Answers
import WordMachine.Proofs.Grammar.Loop

/-!
# What assembling a program comes to

Three things can end assembly, and they are tried in turn: the text is no program, a name is
bound twice, a leaf of an operand has no value.  Each of them is a question about the source
alone.  It does not matter where the program is to be loaded, nor how far layout or encoding
have got, and only the first cause there is gets reported.

For names the first cause is the first statement that repeats a name (`Statement.Repeats`).
For leaves it is the first leaf in the source without a value, and whether a leaf has a value is
seen from the definitions of the program: its symbols, its structs and their members
(`Leaf.Unresolved`).  The evaluator works on trees that have been folded, but folding keeps the
leaves in their order, so its first is the first in the source.

* `Leaf.Unresolved`, `Leaf.fault?_eq_some_iff`: which leaves have no value, and why.
* `Statement.FirstFault`: the first of them.
* `Module.Outcome`, `Module.outcome_of_assemble`: all outcomes of assembling.
-/

namespace WordMachine

/-! ## What names stand for -/

namespace StructLayout

theorem map_name_place (offset : Word) (sizes : List (String × Word)) :
    (place offset sizes).map Member.name = sizes.map Prod.fst := by
  induction sizes generalizing offset with
  | nil => rfl
  | cons member sizes ih => exact congrArg _ (ih _)

/-- A struct has the members that are listed, and no others. -/
theorem member?_ofSizes_eq_none_iff {name field : String} {sizes : List (String × Word)} :
    (ofSizes name sizes).member? field = none ↔ field ∉ sizes.map Prod.fst := by
  rw [← map_name_place 0 sizes, member?, List.find?_eq_none]
  simp [ofSizes]

end StructLayout

namespace Scope

variable {s : Scope} {name : String}

/-- A symbol stands for what it was bound to. -/
theorem symbol?_eq_some_iff (h : s.names.Nodup) {b : Binding} :
    s.symbol? name = some b ↔ .symbol name b ∈ s.entries := by
  constructor
  · intro hsymbol
    rw [symbol?] at hsymbol
    split at hsymbol
    · rename_i n binding hfind
      obtain rfl := Option.some.inj hsymbol
      obtain ⟨hmem, rfl⟩ := (find?_eq_some_iff h).mp hfind
      exact hmem
    · cases hsymbol
  · intro hmem
    have hfind : s.find? name = some (.symbol name b) := (find?_eq_some_iff h).mpr ⟨hmem, rfl⟩
    rw [symbol?, hfind]

theorem struct?_eq_some_iff (h : s.names.Nodup) {layout : StructLayout} :
    s.struct? name = some layout ↔ .struct layout ∈ s.entries ∧ layout.name = name := by
  constructor
  · intro hstruct
    rw [struct?] at hstruct
    split at hstruct
    · rename_i found hfind
      obtain rfl := Option.some.inj hstruct
      exact (find?_eq_some_iff h).mp hfind
    · exact nomatch hstruct
  · intro hmem
    rw [struct?, (find?_eq_some_iff h).mpr hmem]

/-- A name has a value if it is the name of a symbol. -/
theorem value?_eq_none_iff (h : s.names.Nodup) :
    s.value? name = none ↔ name ∉ s.symbols.map Prod.fst := by
  rw [value?, Option.map_eq_none_iff, Option.eq_none_iff_forall_ne_some]
  simp only [ne_eq, symbol?_eq_some_iff h, symbols, List.map_filterMap, List.mem_filterMap]
  constructor
  · rintro hnone ⟨e, he, hname⟩
    cases e with
    | symbol n b =>
      obtain rfl := Option.some.inj hname
      exact hnone b he
    | struct layout => exact nomatch hname
  · exact fun hnot b hmem => hnot ⟨_, hmem, rfl⟩

end Scope

namespace Statement

/-- The symbol that a statement defines, if it does. -/
def symbolName? : Statement → Option String
  | .define _ _ (.struct _) => none
  | st => st.binds?

/-- The struct that a statement defines, if it does. -/
def struct? : Statement → Option StructLayout
  | .define _ name (.struct members) =>
    some (StructLayout.ofSizes name (members.map fun m => (m.1, hexWord m.2)))
  | _ => none

/-- The names of labels, constants and data blocks, in source order. -/
def symbolNames (sts : List Statement) : List String := sts.filterMap symbolName?

/-- The names of structs, in source order. -/
def structNames (sts : List Statement) : List String :=
  (sts.filterMap struct?).map StructLayout.name

variable {sts : List Statement} (cursor : Word)

/-- The symbols of the scope are the symbols that statements define. -/
theorem map_fst_symbols (sts : List Statement) :
    (Scope.mk (entriesFrom cursor sts)).symbols.map Prod.fst = symbolNames sts := by
  rw [Scope.symbols]
  induction sts generalizing cursor with
  | nil => rfl
  | cons st sts ih =>
    rw [entriesFrom, List.filterMap_append, List.map_append, ih]
    cases st with
    | instruction opcode operands => rfl
    | define exported name d => cases d <;> rfl

theorem structs_eq (sts : List Statement) :
    (Scope.mk (entriesFrom cursor sts)).structs = sts.filterMap struct? := by
  rw [Scope.structs]
  induction sts generalizing cursor with
  | nil => rfl
  | cons st sts ih =>
    rw [entriesFrom, List.filterMap_append, ih]
    cases st with
    | instruction opcode operands => rfl
    | define exported name d => cases d <;> rfl

theorem value?_eq_none_iff (h : (boundNames sts).Nodup) {name : String} :
    (Scope.mk (entriesFrom cursor sts)).value? name = none ↔ name ∉ symbolNames sts := by
  rw [← map_fst_symbols cursor sts]
  refine Scope.value?_eq_none_iff ?_
  rwa [names_entriesFrom]

/-- A name is that of a struct if a statement defines it to be. -/
theorem struct?_eq_some_iff (h : (boundNames sts).Nodup) {name : String}
    {layout : StructLayout} :
    (Scope.mk (entriesFrom cursor sts)).struct? name = some layout ↔
      ∃ exported members, .define exported name (.struct members) ∈ sts ∧
        layout = StructLayout.ofSizes name (members.map fun m => (m.1, hexWord m.2)) := by
  have hmem : .struct layout ∈ entriesFrom cursor sts ↔ layout ∈ sts.filterMap struct? := by
    rw [← structs_eq cursor sts, Scope.structs, List.mem_filterMap]
    constructor
    · exact fun hentry => ⟨_, hentry, rfl⟩
    · rintro ⟨e, he, hstruct⟩
      cases e with
      | symbol n b => exact nomatch hstruct
      | struct found =>
        obtain rfl := Option.some.inj hstruct
        exact he
  rw [Scope.struct?_eq_some_iff (by rwa [names_entriesFrom]), hmem, List.mem_filterMap]
  constructor
  · rintro ⟨⟨st, hst, hstruct⟩, rfl⟩
    unfold struct? at hstruct
    split at hstruct
    · obtain rfl := Option.some.inj hstruct
      exact ⟨_, _, hst, rfl⟩
    · exact nomatch hstruct
  · rintro ⟨exported, members, hst, rfl⟩
    exact ⟨⟨_, hst, rfl⟩, rfl⟩

end Statement

/-! ## Leaves without a value -/

/-- Among the definitions of a program, the leaf has no value, for the reason given. -/
inductive Leaf.Unresolved (sts : List Statement) : Leaf → AssemblyError → Prop where
  /-- The name is that of no label, constant or data block. -/
  | label {name : String} (h : name ∉ Statement.symbolNames sts) :
    Unresolved sts (.reference name) (.unresolvedLabel name)
  /-- There is no struct of that name. -/
  | struct {layout base field : String}
    (h : ∀ exported members, .define exported layout (.struct members) ∉ sts) :
    Unresolved sts (.member layout base field) (.unresolvedStruct layout)
  /-- There is one, but it has no such member. -/
  | member {exported : Bool} {members : List (String × String)} {layout base field : String}
    (h : .define exported layout (.struct members) ∈ sts) (hfield : field ∉ members.map Prod.fst) :
    Unresolved sts (.member layout base field) (.unknownMember layout field)
  /-- It has the member, but the base is no symbol. -/
  | symbol {exported : Bool} {members : List (String × String)} {layout base field : String}
    (h : .define exported layout (.struct members) ∈ sts) (hfield : field ∈ members.map Prod.fst)
    (hbase : base ∉ Statement.symbolNames sts) :
    Unresolved sts (.member layout base field) (.unresolvedSymbol base)

namespace Leaf

variable {sts : List Statement}

/-- **Whether a leaf has a value is seen from the definitions.** -/
theorem fault?_eq_some_iff (h : (Statement.boundNames sts).Nodup) (cursor : Word) {leaf : Leaf}
    {e : AssemblyError} :
    leaf.fault? ⟨Statement.entriesFrom cursor sts⟩ = some e ↔ leaf.Unresolved sts e := by
  rw [fault?, failure?_eq_some_iff]
  cases leaf with
  | literal digits => exact ⟨nofun, nofun⟩
  | reference name =>
    rw [value, Scope.resolve_eq_error_iff, Statement.value?_eq_none_iff cursor h]
    constructor
    · rintro ⟨hname, rfl⟩
      exact .label hname
    · rintro ⟨hname⟩
      exact ⟨hname, rfl⟩
  | member layout base field =>
    have hfield (members : List (String × String)) :
        (StructLayout.ofSizes layout (members.map fun m => (m.1, hexWord m.2))).member? field =
          none ↔ field ∉ members.map Prod.fst := by
      rw [StructLayout.member?_ofSizes_eq_none_iff, List.map_map]
      rfl
    rw [value, Scope.resolveMember_eq_error_iff, Statement.value?_eq_none_iff cursor h,
      Option.eq_none_iff_forall_ne_some]
    simp only [ne_eq, Statement.struct?_eq_some_iff cursor h]
    constructor
    · rintro (⟨hnone, rfl⟩ | ⟨_, ⟨exported, members, hmem, rfl⟩, hfault⟩)
      · exact .struct fun exported members hmem => hnone _ ⟨exported, members, hmem, rfl⟩
      · rw [hfield, not_not] at hfault
        rcases hfault with ⟨hnot, rfl⟩ | ⟨hin, hbase, rfl⟩
        · exact .member hmem hnot
        · exact .symbol hmem hin hbase
    · rintro (_ | hnone | ⟨hmem, hnot⟩ | ⟨hmem, hin, hbase⟩)
      · refine .inl ⟨?_, rfl⟩
        rintro _ ⟨exported, members, hmem, -⟩
        exact hnone exported members hmem
      · exact .inr ⟨_, ⟨_, _, hmem, rfl⟩, .inl ⟨(hfield _).mpr hnot, rfl⟩⟩
      · refine .inr ⟨_, ⟨_, _, hmem, rfl⟩, .inr ⟨fun hnone => ?_, hbase, rfl⟩⟩
        exact (hfield _).mp hnone hin

end Leaf

/-- The reason why the first leaf without a value, in source order, has none. -/
def Statement.FirstFault (sts : List Statement) (e : AssemblyError) : Prop :=
  ∃ before leaf after, sts.flatMap leaves = before ++ leaf :: after ∧ leaf.Unresolved sts e ∧
    ∀ x ∈ before, ∀ e', ¬ x.Unresolved sts e'

/-- **Why encoding fails**, told from the source. -/
theorem Statement.encodeAll_eq_error_iff {sts : List Statement} (hfit : ∀ st ∈ sts, st.Fits)
    (h : (boundNames sts).Nodup) (cursor : Word) {e : AssemblyError} :
    encodeAll ⟨entriesFrom cursor sts⟩ sts = .error e ↔ FirstFault sts e := by
  rw [← failure?_eq_some_iff, failure?_encodeAll hfit, List.findSome?_eq_some_iff]
  simp only [FirstFault, Leaf.fault?_eq_some_iff h, Option.eq_none_iff_forall_ne_some, ne_eq]

/-- Folding keeps the leaves of a bracket in the order in which they are read. -/
theorem Grammar.leaves_of_bracketExpr {s : List Char} {e : Expr} {n : Nat}
    (h : bracketExpr s = some (e, n)) :
    ∃ c k, chain (s.drop 1) = some (c, k) ∧ e = c.fold ∧ e.leaves = c.leaves := by
  obtain ⟨_, i, j, hopen, hrest, -⟩ := Rule.exists_of_bind_eq_some h
  obtain ⟨c, k, m, hchain, hclose, -⟩ := Rule.exists_of_bind_eq_some hrest
  obtain ⟨_, _, _, -, hpure, -⟩ := Rule.exists_of_bind_eq_some hclose
  obtain ⟨rfl, -⟩ := Prod.mk.inj (Option.some.inj hpure)
  obtain ⟨t, rfl, rfl⟩ := Rule.exists_of_char hopen
  rw [Expr.disambiguate_bracket]
  exact ⟨c, k, hchain, rfl, c.leaves_fold⟩

/-! ## All outcomes -/

namespace Module

/-- What the program becomes whose statements are given: an error for the first repeated name,
else an error for the first leaf without a value, else a module. -/
structure Outcome (sts : List Statement) (result : Except AssemblyError Module) : Prop where
  /-- Some name is the first to be repeated, unless there is none. -/
  repeats_iff : (∃ name, Statement.Repeats sts name) ↔ ¬ (Statement.boundNames sts).Nodup
  /-- That name is reported. -/
  duplicate : ∀ name, result = .error (.duplicateBinding name) ↔ Statement.Repeats sts name
  /-- If no name is repeated, the first leaf without a value is reported, and nothing else. -/
  unresolved : (Statement.boundNames sts).Nodup →
    ∀ e, result = .error e ↔ Statement.FirstFault sts e
  /-- If all leaves have values, there is a module, and it has the names of the source. -/
  assembled : (Statement.boundNames sts).Nodup →
    (∀ leaf ∈ sts.flatMap Statement.leaves, ∀ e, ¬ leaf.Unresolved sts e) →
    ∃ module, result = .ok module ∧
      module.scope.symbols.map Prod.fst = Statement.symbolNames sts ∧
      module.scope.structs.map StructLayout.name = Statement.structNames sts ∧
      module.exports = (sts.filter Statement.isExported).filterMap Statement.binds? ∧
      module.exports.Nodup

variable {origin : Word} {sts : List Statement}

theorem ofStatements_of_nodup (h : (Statement.boundNames sts).Nodup) :
    ofStatements origin sts =
      (Statement.encodeAll ⟨Statement.entriesFrom origin sts⟩ sts).map
        fun code => ⟨code, ⟨Statement.entriesFrom origin sts⟩, Statement.exports sts, origin⟩ := by
  rw [ofStatements, Statement.layout_of_nodup h]
  show (Statement.encodeAll _ sts >>= _) = _
  cases Statement.encodeAll ⟨Statement.entriesFrom origin sts⟩ sts <;> rfl

theorem ofStatements_of_repeats {name : String} (h : Statement.Repeats sts name) :
    ofStatements origin sts = .error (.duplicateBinding name) := by
  rw [ofStatements, Statement.layout_of_repeats h]
  rfl

/-- A module is made if no name is repeated and the bytes can be made among the names. -/
theorem ofStatements_eq_ok_iff {module : Module} :
    ofStatements origin sts = .ok module ↔ (Statement.boundNames sts).Nodup ∧
      ∃ code, Statement.encodeAll ⟨Statement.entriesFrom origin sts⟩ sts = .ok code ∧
        module = ⟨code, ⟨Statement.entriesFrom origin sts⟩, Statement.exports sts, origin⟩ := by
  constructor
  · intro h
    rw [ofStatements] at h
    obtain ⟨scope, hlayout, h⟩ := exists_of_bind_eq_ok h
    obtain ⟨code, hcode, h⟩ := exists_of_bind_eq_ok h
    obtain ⟨hnodup, rfl⟩ := Statement.layout_eq_ok_iff.mp hlayout
    exact ⟨hnodup, code, hcode, (Except.ok.inj h).symm⟩
  · rintro ⟨hnodup, code, hcode, rfl⟩
    rw [ofStatements_of_nodup hnodup, hcode]
    rfl

/-- No name is exported twice if none is bound twice. -/
theorem nodup_exports (h : (Statement.boundNames sts).Nodup) : (Statement.exports sts).Nodup :=
  h.sublist (List.filter_sublist.filterMap _)

theorem ofStatements_eq_error_iff (hfit : ∀ st ∈ sts, st.Fits)
    (h : (Statement.boundNames sts).Nodup) {e : AssemblyError} :
    ofStatements origin sts = .error e ↔ Statement.FirstFault sts e := by
  rw [ofStatements_of_nodup h, ← failure?_eq_some_iff, failure?_map, failure?_eq_some_iff,
    Statement.encodeAll_eq_error_iff hfit h]

/-- What is wrong with statements is not wrong with the text. -/
theorem not_isSyntactic_of_ofStatements (hfit : ∀ st ∈ sts, st.Fits) {e : AssemblyError}
    (herror : ofStatements origin sts = .error e) : ¬ e.IsSyntactic := by
  by_cases h : (Statement.boundNames sts).Nodup
  · obtain ⟨-, leaf, -, -, hleaf, -⟩ := (ofStatements_eq_error_iff hfit h).mp herror
    cases hleaf <;> exact id
  · obtain ⟨name, hname⟩ := Statement.exists_repeats h
    rw [ofStatements_of_repeats hname] at herror
    obtain rfl := Except.error.inj herror
    exact id

theorem outcome_ofStatements (hfit : ∀ st ∈ sts, st.Fits) :
    Outcome sts (ofStatements origin sts) where
  repeats_iff := ⟨fun ⟨_, h⟩ => Statement.not_nodup_of_repeats h, Statement.exists_repeats⟩
  duplicate name := by
    constructor
    · intro herror
      by_cases h : (Statement.boundNames sts).Nodup
      · obtain ⟨-, leaf, -, -, hleaf, -⟩ := (ofStatements_eq_error_iff hfit h).mp herror
        exact nomatch hleaf
      · obtain ⟨first, hfirst⟩ := Statement.exists_repeats h
        rw [ofStatements_of_repeats hfirst] at herror
        obtain rfl := AssemblyError.duplicateBinding.inj (Except.error.inj herror)
        exact hfirst
    · exact ofStatements_of_repeats
  unresolved h e := ofStatements_eq_error_iff hfit h
  assembled h hleaves := by
    have hnone : failure? (Statement.encodeAll ⟨Statement.entriesFrom origin sts⟩ sts) = none := by
      rw [Statement.failure?_encodeAll hfit, List.findSome?_eq_none_iff]
      intro leaf hleaf
      refine Option.eq_none_iff_forall_ne_some.mpr fun e he => ?_
      exact hleaves leaf hleaf e ((Leaf.fault?_eq_some_iff h origin).mp he)
    obtain ⟨code, hcode⟩ := failure?_eq_none_iff.mp hnone
    rw [ofStatements_of_nodup h, hcode]
    refine ⟨_, rfl, Statement.map_fst_symbols origin sts, ?_, rfl, nodup_exports h⟩
    exact congrArg _ (Statement.structs_eq origin sts)

/-- **All outcomes of assembling.**  The errors of the grammar are those that parsing has, and
when parsing succeeds the statements alone decide what comes out: a name that is repeated, a
leaf that has no value, each the first of its kind in the source, or a module with the names of
the source.  Leaves are counted in the order of the source also where the evaluator works on
folded trees. -/
theorem outcome_of_assemble (source : String) (origin : Word) :
    (∀ e, Program.parse source = .error e ↔ assemble source origin = .error e ∧ e.IsSyntactic) ∧
    (∀ placed, Program.parse source = .ok placed →
      Outcome (placed.map Placed.statement) (assemble source origin)) ∧
    ∀ s e n, Grammar.bracketExpr s = some (e, n) →
      ∃ c k, Grammar.chain (s.drop 1) = some (c, k) ∧ e = c.fold ∧ e.leaves = c.leaves := by
  have hfit {placed : List Placed} (h : Program.parse source = .ok placed) :
      ∀ st ∈ placed.map Placed.statement, st.Fits :=
    List.forall_mem_map.mpr (Program.fits_of_parse h)
  have hassemble : assemble source origin =
      (Program.parse source >>= fun placed => ofStatements origin (placed.map Placed.statement)) :=
    rfl
  refine ⟨fun e => ⟨fun hparse => ?_, fun ⟨herror, he⟩ => ?_⟩, fun placed hparse => ?_,
    fun s e n => Grammar.leaves_of_bracketExpr⟩
  · rw [hassemble, hparse]
    exact ⟨rfl, Program.isSyntactic_of_statementsFrom hparse⟩
  · rw [hassemble] at herror
    cases hparse : Program.parse source with
    | error e' =>
      rw [hparse] at herror
      exact congrArg _ (Except.error.inj herror)
    | ok placed =>
      rw [hparse] at herror
      exact absurd he (not_isSyntactic_of_ofStatements (hfit hparse) herror)
  · rw [hassemble, hparse]
    exact outcome_ofStatements (hfit hparse)

/-- Two leaves without a value, of which folding puts the first as deep as the other. -/
def twoFaults : String := "mov [$1 + !one * <s> two.x], r1\nstruct s \x7b y: $2 \x7d\n"

/-- The first of them is reported. -/
theorem outcome_of_twoFaults :
    ∃ placed, Program.parse twoFaults = .ok placed ∧
      Outcome (placed.map Placed.statement) (assemble twoFaults 0x8000) ∧
      (Statement.boundNames (placed.map Placed.statement)).Nodup ∧
      assemble twoFaults 0x8000 = .error (.unresolvedLabel "one") := by
  obtain ⟨-, hparsed, -⟩ := outcome_of_assemble twoFaults 0x8000
  have hparse : Program.parse twoFaults =
      .ok [⟨1, .instruction .movLitReg [.value (.binary .plus (.hex "1")
          (.binary .times (.reference "one") (.member "s" "two" "x"))), .register 2]⟩,
        ⟨2, .define false "s" (.struct [("y", "2")])⟩] :=
    eq_ok_of_toOption (by decide +kernel)
  have houtcome := hparsed _ hparse
  refine ⟨_, hparse, houtcome, by decide, (houtcome.unresolved (by decide) _).mpr ?_⟩
  refine ⟨[.literal "1"], .reference "one", [.member "s" "two" "x"], rfl, .label (by decide), ?_⟩
  exact List.forall_mem_singleton.mpr nofun

end Module
end WordMachine
