import Mathlib.Data.List.Chain
import WordMachine.Proofs.Assembly.Encodable
import WordMachine.Proofs.Expr.Denotation
import WordMachine.Proofs.Machine.Fetch

/-!
# Members of structs

A struct lists its members with their sizes.  Layout turns the list into offsets: it keeps a
running offset, which wraps, and the size of the struct is added up a second time, by another
function.  Evaluation looks a member up by its name and takes the first that has it; a name may be
listed more than once.  And the grammar reads an access to a member in more than one form.  What
a program is written for is that these fit together: the members lie one behind the other without
gaps, and an access comes to the base plus the sizes that were listed before the member.

Both walks over the list are the same fold (`StructLayout.endOf`).  It passes through the append
of two lists, and so a list cut in front of a member says where the member lies
(`StructLayout.member?_ofSizes_append`), and a list cut in front of its last member says where the
struct ends (`StructLayout.isTiled_ofSizes`).  The sizes may have any number of digits and are
added up without wrapping; that words wrap is said once, of the sum
(`StructLayout.endOf_hexWord`).

In a bracket an access is one leaf among others, and it may be a summand as well as a factor.
There the number that the leaf stands for matters modulo `2 ^ 16` only, and `Leaf.Means`, which
names one number for each leaf, would be too narrow; the bracket is evaluated by
`Expr.value_of_hasResidue`.

* `StructLayout.IsTiled`: the members lie one behind the other, up to the end of the struct.
* `Grammar.AccessText`: the texts of an access as an operand.
* `Scope.AccessesAt`: what an access comes to, alone and in brackets.
* `Module.struct_members`: in a module that was assembled, each listed member is accessed there.
-/

namespace WordMachine

/-! ## Layouts -/

namespace StructLayout

/-- Where members of the given sizes end if the first of them lies at the given offset. -/
def endOf (offset : Word) (sizes : List (String × Word)) : Word :=
  sizes.foldl (fun offset m => offset + m.2) offset

theorem endOf_append (offset : Word) (xs ys : List (String × Word)) :
    endOf offset (xs ++ ys) = endOf (endOf offset xs) ys := List.foldl_append

theorem place_append (offset : Word) (xs ys : List (String × Word)) :
    place offset (xs ++ ys) = place offset xs ++ place (endOf offset xs) ys := by
  induction xs generalizing offset with
  | nil => rfl
  | cons m xs ih => exact congrArg _ (ih _)

/-- Members keep their names and their sizes when they are placed. -/
theorem map_name_size_place (offset : Word) (sizes : List (String × Word)) :
    (place offset sizes).map (fun m => (m.name, m.size)) = sizes := by
  induction sizes generalizing offset with
  | nil => rfl
  | cons m sizes ih => exact congrArg _ (ih _)

/-- The size of a struct, which is added up on its own, is where its members end. -/
theorem size_ofSizes (name : String) (sizes : List (String × Word)) :
    (ofSizes name sizes).size = endOf 0 sizes := by
  have hfoldl (total offset : Word) :
      (place offset sizes).foldl (fun total m => total + m.size) total = endOf total sizes := by
    induction sizes generalizing total offset with
    | nil => rfl
    | cons m sizes ih => exact ih _ _
  exact hfoldl 0 0

/-- The first member of a name lies behind all that are listed before it. -/
theorem member?_ofSizes_append {before : List (String × Word)} {field : String}
    (h : field ∉ before.map Prod.fst) (name : String) (size : Word)
    (after : List (String × Word)) :
    (ofSizes name (before ++ (field, size) :: after)).member? field =
      some ⟨field, endOf 0 before, size⟩ := by
  have hbefore : (ofSizes name before).member? field = none := member?_ofSizes_eq_none_iff.mpr h
  rw [member?, ofSizes] at hbefore
  rw [member?, ofSizes, place_append, List.find?_append, hbefore, Option.none_or]
  exact List.find?_cons_of_pos (beq_self_eq_true field)

/-- The members lie one behind the other, from zero to the end of the struct. -/
structure IsTiled (layout : StructLayout) : Prop where
  first : ∀ a ∈ layout.members.head?, a.offset = 0
  next : layout.members.IsChain fun a b => a.offset + a.size = b.offset
  last : ∀ a ∈ layout.members.getLast?, a.offset + a.size = layout.size

theorem offset_of_head?_place {offset : Word} {sizes : List (String × Word)} {a : Member}
    (h : a ∈ (place offset sizes).head?) : a.offset = offset := by
  cases sizes with
  | nil => exact nomatch h
  | cons m sizes =>
    obtain rfl := Option.some.inj h
    rfl

theorem isChain_place (offset : Word) (sizes : List (String × Word)) :
    (place offset sizes).IsChain fun a b => a.offset + a.size = b.offset := by
  induction sizes generalizing offset with
  | nil => exact .nil
  | cons m sizes ih =>
    exact List.isChain_cons.mpr ⟨fun b hb => (offset_of_head?_place hb).symm, ih _⟩

theorem isTiled_ofSizes (name : String) (sizes : List (String × Word)) :
    (ofSizes name sizes).IsTiled where
  first _ := offset_of_head?_place
  next := isChain_place 0 sizes
  last a ha := by
    -- the last member is placed where the members before it end
    obtain rfl | ⟨before, m, rfl⟩ := sizes.eq_nil_or_concat'
    · exact nomatch ha
    · rw [size_ofSizes, endOf_append]
      rw [ofSizes, place_append] at ha
      obtain rfl := Option.some.inj (List.getLast?_concat.symm.trans ha)
      rfl

end StructLayout

/-- Sizes of any number of digits are added up modulo `2 ^ 16`. -/
theorem StructLayout.endOf_hexWord (n : Nat) (members : List (String × String)) :
    endOf (UInt16.ofNat n) (members.map fun m => (m.1, hexWord m.2)) =
      UInt16.ofNat (n + (members.map fun m => hexNumber m.2).sum) := by
  induction members generalizing n with
  | nil => rfl
  | cons m members ih =>
    rw [List.map_cons, List.map_cons, List.sum_cons, ← Nat.add_assoc, ← ih, UInt16.ofNat_add,
      ← hexWord_eq]
    rfl

/-! ## Texts -/

namespace Grammar

open Rule Lexeme

/-- The texts of an access to a member as a value: alone, or in a bracket with any blanks around
it. -/
inductive AccessValueText (layout base field : String) : List Char → Prop where
  | alone {s : List Char} (h : MemberText layout base field s) :
    AccessValueText layout base field s
  | bracket {s t u : List Char} (hs : s.all isGap = true) (h : MemberText layout base field t)
    (hu : u.all isGap = true) :
    AccessValueText layout base field ('[' :: (s ++ (t ++ u) ++ [']']))

/-- The texts of an access to a member as an operand of the given kind. -/
inductive AccessText (layout base field : String) : Kind → List Char → Prop where
  | literal {s : List Char} (h : AccessValueText layout base field s) :
    AccessText layout base field .literal s
  | literal8 {s : List Char} (h : AccessValueText layout base field s) :
    AccessText layout base field .literal8 s
  | address {s : List Char} (h : AccessValueText layout base field s) :
    AccessText layout base field .address ('&' :: s)

variable {layout base field : String} {rest : List Char}

theorem reads_valueOf_access {first : Rule Expr}
    (hbracket : ∀ s, first ('[' :: s) = none) (hmember : ∀ s, first ('<' :: s) = none)
    {s : List Char} (h : AccessValueText layout base field s) (hlayout : isName layout = true)
    (hbase : isName base = true) (hfield : isName field = true) (hrest : Stops isNameRest rest) :
    (valueOf first).Reads s (.member layout base field) rest := by
  cases h with
  | alone h => exact reads_valueOf_member hmember h hlayout hbase hfield hrest
  | @bracket s t u hs h hu =>
    have hbehind : Stops isNameRest (u ++ ']' :: rest) :=
      stops_append (fun _ => isNameRest_of_isGap) hu rfl
    have hstops : Stops isGap (t ++ (u ++ ']' :: rest)) := by
      obtain ⟨tail, rfl⟩ := h.exists_cons
      rfl
    have hleaf : leaf.Reads t (.member layout base field) (u ++ ']' :: rest) :=
      reads_leafWithin_member h hlayout hbase hfield hbehind _
    have hread := reads_bracketExpr_single hleaf hs hstops hu
    rw [Expr.IsTree.disambiguate_eq (.member hlayout hbase hfield)] at hread
    exact reads_valueOf_bracket hbracket hread

/-- As an operand the text is read as the access. -/
theorem reads_operand_access {kind : Kind} {text : List Char}
    (h : AccessText layout base field kind text) (hlayout : isName layout = true)
    (hbase : isName base = true) (hfield : isName field = true) (hrest : Stops isNameRest rest) :
    (operand kind).Reads text (.value (.member layout base field)) rest := by
  cases h with
  | literal h | literal8 h =>
    have hread : literalValue.Reads text (.member layout base field) rest :=
      reads_valueOf_access (fun _ => rfl) (fun _ => rfl) h hlayout hbase hfield hrest
    exact hread.bind_nil (reads_pure _ _)
  | @address s h =>
    have hread : addressValue.Reads ('&' :: s) (.member layout base field) rest :=
      .cons_bind (reads_char _ _)
        (reads_valueOf_access (fun _ => rfl) (fun _ => rfl) h hlayout hbase hfield hrest)
    exact hread.bind_nil (reads_pure _ _)

end Grammar

/-! ## Accesses -/

/-- An access to a member comes to the given number modulo `2 ^ 16`, in whatever way it stands in
an operand. -/
structure Scope.AccessesAt (scope : Scope) (layout base field : String) (n : Nat) : Prop where
  /-- Alone or in a bracket, its text is read as an operand that is the access. -/
  reads : ∀ kind text rest, Grammar.AccessText layout base field kind text →
    Rule.Stops Lexeme.isNameRest rest →
      (Grammar.operand kind).Reads text (.value (.member layout base field)) rest
  /-- In a longer chain, and within parentheses of any depth, it is read as a leaf that is the
  access. -/
  readsLeaf : ∀ room text rest, Grammar.MemberText layout base field text →
    Rule.Stops Lexeme.isNameRest rest →
      (Grammar.leafWithin room).Reads text (.member layout base field) rest
  /-- The value of the access is the number. -/
  value : (Expr.member layout base field).value scope = .ok (UInt16.ofNat n)
  /-- That is what is emitted for the operand. -/
  encode : ∀ kind ∈ [Kind.literal, .literal8, .address],
    Operand.encode scope kind (.value (.member layout base field)) =
      .ok (kind.unit.emit (UInt16.ofNat n))
  /-- Among other leaves the access counts as the number. -/
  within : ∀ (e : Expr) (v : Leaf → Int), v (.member layout base field) = n →
    (∀ leaf ∈ e.leaves, leaf ≠ .member layout base field → leaf.Means scope (v leaf)) →
      e.value scope = .ok (UInt16.ofInt (e.exact v))

/-- An access is made of three names and a value. -/
theorem Scope.accessesAt_of_value {scope : Scope} {layout base field : String} {n : Nat}
    (hlayout : Lexeme.isName layout = true) (hbase : Lexeme.isName base = true)
    (hfield : Lexeme.isName field = true)
    (hvalue : scope.resolveMember layout base field = .ok (UInt16.ofNat n)) :
    scope.AccessesAt layout base field n where
  reads _ _ _ h hrest := Grammar.reads_operand_access h hlayout hbase hfield hrest
  readsLeaf room _ _ h hrest := Grammar.reads_leafWithin_member h hlayout hbase hfield hrest room
  value := by rw [Expr.value, hvalue]
  encode kind hkind := by
    have hemit : Operand.encode scope kind (.value (.member layout base field)) =
        (scope.resolveMember layout base field).map kind.unit.emit := by
      simp only [List.mem_cons, List.not_mem_nil, or_false] at hkind
      rcases hkind with rfl | rfl | rfl <;> rfl
    rw [hemit, hvalue]
    rfl
  within e v hv hothers := by
    refine e.value_of_hasResidue fun leaf hleaf => ?_
    by_cases h : leaf = .member layout base field
    · rw [h, Leaf.HasResidue, hv, Word.ofInt_natCast]
      exact hvalue
    · exact (hothers leaf hleaf h).value_eq

/-- The first member of a name lies at the base and behind the sizes that are listed before it. -/
theorem Scope.resolveMember_of_first {scope : Scope} {before after : List (String × String)}
    {layout base field digits : String} {w : Word}
    (hstruct : scope.struct? layout = some (StructLayout.ofSizes layout
      ((before ++ (field, digits) :: after).map fun m => (m.1, hexWord m.2))))
    (hfirst : field ∉ before.map Prod.fst) (hbase : scope.value? base = some w) :
    scope.resolveMember layout base field =
      .ok (UInt16.ofNat (w.toNat + (before.map fun m => hexNumber m.2).sum)) := by
  have hnames : field ∉ (before.map fun m => (m.1, hexWord m.2)).map Prod.fst := by
    rwa [List.map_map]
  have hoffset : StructLayout.endOf 0 (before.map fun m => (m.1, hexWord m.2)) =
      UInt16.ofNat (before.map fun m => hexNumber m.2).sum := by
    rw [← Nat.zero_add (List.sum _)]
    exact StructLayout.endOf_hexWord 0 before
  have hmember := StructLayout.member?_ofSizes_append hnames layout (hexWord digits)
    (after.map fun m => (m.1, hexWord m.2))
  rw [List.map_append, List.map_cons] at hstruct
  refine resolveMember_eq_ok_iff.mpr ⟨_, _, w, hstruct, hmember, hbase, ?_⟩
  rw [hoffset, UInt16.ofNat_add, UInt16.ofNat_toNat]

/-! ## Programs -/

namespace Statement

variable {sts : List Statement} {origin : Word} {scope : Scope}

/-- What has a value was defined by a statement, and so it can be written as a name. -/
theorem isName_of_value? (hlayout : layout origin sts = .ok scope)
    (hwell : ∀ st ∈ sts, st.WellFormed) {name : String} {w : Word}
    (h : scope.value? name = some w) : Lexeme.isName name = true := by
  obtain ⟨hnodup, rfl⟩ := layout_eq_ok_iff.mp hlayout
  have hmem : name ∈ symbolNames sts := by
    by_contra hnot
    rw [(value?_eq_none_iff origin hnodup).mpr hnot] at h
    exact nomatch h
  obtain ⟨st, hst, hname⟩ := List.mem_filterMap.mp hmem
  cases st with
  | instruction opcode operands => exact nomatch hname
  | define exported defined d =>
    obtain rfl : defined = name := by
      cases d with
      | struct members => exact nomatch hname
      | label | constant | data => exact Option.some.inj hname
    exact (hwell _ hst).1

end Statement

namespace Module

variable {source : String} {origin : Word} {module : Module} {placed : List Placed}

/-- **Members of structs address consecutive bytes.**  If a text that assembles declares a struct,
an access to one of its members comes to what the base is bound to plus the sizes that are listed
before the first member of that name, modulo `2 ^ 16`, whether it stands alone, alone in a bracket
or among other leaves of a bracket.  In the layout of the struct the members are those that are
listed, in their order, with sizes modulo `2 ^ 16`; the first lies at zero, each of the others
where the one before it ends, and the struct ends where the last one does. -/
theorem struct_members {exported : Bool} {name : String} {members : List (String × String)}
    (hmodule : assemble source origin = .ok module) (hparse : Program.parse source = .ok placed)
    (hstruct : .define exported name (.struct members) ∈ placed.map Placed.statement) :
    (∀ before field digits after, members = before ++ (field, digits) :: after →
      field ∉ before.map Prod.fst → ∀ base w, module.scope.value? base = some w →
        module.scope.AccessesAt name base field
          (w.toNat + (before.map fun m => hexNumber m.2).sum)) ∧
      ∃ layout, module.scope.struct? name = some layout ∧
        layout.members.map (fun m => (m.name, m.size)) =
          members.map (fun m => (m.1, UInt16.ofNat (hexNumber m.2))) ∧
        layout.IsTiled := by
  obtain ⟨_, hparse', -, hlayout, -⟩ := exists_of_assemble hmodule
  obtain rfl := Except.ok.inj (hparse.symm.trans hparse')
  have hwell := List.forall_mem_map.mpr (Program.wellFormed_of_parse hparse)
  obtain ⟨hnodup, hscope⟩ := Statement.layout_eq_ok_iff.mp hlayout
  have hfound : module.scope.struct? name =
      some (StructLayout.ofSizes name (members.map fun m => (m.1, hexWord m.2))) := by
    rw [hscope]
    exact (Statement.struct?_eq_some_iff origin hnodup).mpr ⟨exported, members, hstruct, rfl⟩
  obtain ⟨hname, hmembers⟩ := hwell _ hstruct
  refine ⟨?_, _, hfound, ?_, StructLayout.isTiled_ofSizes _ _⟩
  · rintro before field digits after rfl hfirst base w hbase
    have hfield : Lexeme.isName field = true :=
      (hmembers _ (List.mem_append_right _ List.mem_cons_self)).1
    exact Scope.accessesAt_of_value hname (Statement.isName_of_value? hlayout hwell hbase) hfield
      (Scope.resolveMember_of_first hfound hfirst hbase)
  · rw [StructLayout.ofSizes, StructLayout.map_name_size_place]
    simp only [hexWord_eq]

/-- A struct that lists a name twice, with sizes that run past the last address, and two accesses
to members behind that: alone, and in the bracket of an address as a factor. -/
def repeatedMember : String :=
  "mov <rec> base.b, &[ < rec >base.c * $2 ]\n" ++
    "struct rec \x7b a: $10002, b: $FFFF, a: $3, c: $1 \x7d\nconstant base = $8\n"

/-- The second `a` cannot be accessed, but it takes up its bytes. -/
theorem struct_members_of_repeatedMember :
    ∃ module, assemble repeatedMember 0x100 = .ok module ∧
      module.scope.AccessesAt "rec" "base" "a" 0x8 ∧
      module.scope.AccessesAt "rec" "base" "b" (0x8 + 0x10002) ∧
      module.scope.AccessesAt "rec" "base" "c" (0x8 + 0x10002 + 0xFFFF + 0x3) ∧
      module.code = [0x14, 0x00, 0x0A, 0x00, 0x18] ∧
      ∃ layout, module.scope.struct? "rec" = some layout ∧ layout.IsTiled := by
  have hmodule : assemble repeatedMember 0x100 = .ok
      ⟨[0x14, 0x00, 0x0A, 0x00, 0x18],
        ⟨[.struct ⟨"rec", [⟨"a", 0, 2⟩, ⟨"b", 2, 0xFFFF⟩, ⟨"a", 1, 3⟩, ⟨"c", 4, 1⟩]⟩,
          .symbol "base" (.value 8)]⟩, [], 0x100⟩ := eq_ok_of_toOption (by decide +kernel)
  have hparse : Program.parse repeatedMember = .ok
      [⟨1, .instruction .movLitMem [.value (.member "rec" "base" "b"),
          .value (.binary .times (.member "rec" "base" "c") (.hex "2"))]⟩,
       ⟨2, .define false "rec" (.struct [("a", "10002"), ("b", "FFFF"), ("a", "3"), ("c", "1")])⟩,
       ⟨3, .define false "base" (.constant "8")⟩] := eq_ok_of_toOption (by decide +kernel)
  obtain ⟨haccess, layout, hlayout, -, htiled⟩ :=
    struct_members hmodule hparse (.tail _ (.head _))
  have hbase : Scope.value? ⟨[.struct ⟨"rec", [⟨"a", 0, 2⟩, ⟨"b", 2, 0xFFFF⟩, ⟨"a", 1, 3⟩,
      ⟨"c", 4, 1⟩]⟩, .symbol "base" (.value 8)]⟩ "base" = some 8 := by decide +kernel
  have ha := haccess [] "a" "10002" _ rfl (by decide) "base" 8 hbase
  have hb := haccess [("a", "10002")] "b" "FFFF" _ rfl (by decide) "base" 8 hbase
  have hc := haccess [("a", "10002"), ("b", "FFFF"), ("a", "3")] "c" "1" _ rfl (by decide) "base" 8
    hbase
  exact ⟨_, hmodule, ha, hb, hc, rfl, layout, hlayout, htiled⟩

end Module

end WordMachine
