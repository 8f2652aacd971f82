import WordMachine.Proofs.Assembly.Outcome

/-!
# Assembling a program for another place

The load offset goes into one thing only, the cursor of layout.  Assembled for a place that is
`d` further, a program has the same names, and labels and data blocks are bound `d` further
while constants and structs stay (`Statement.entriesFrom_moved`).  Everything else follows from
that: no name is gained or lost, so the same leaves have values, and the same program fails with
the same error.

A leaf has a value that stays, unless its name is that of a label or a data block, and then the
value is moved by `d`.  What an expression makes of moved values can be anything, so about bytes
only two things can be said.  The bytes of a field stay if none of its leaves is moved, and a
word that is nothing but a moved leaf is moved by `d`.

* `Binding.moved`, `Scope.moved`: names, moved to another place.
* `Leaf.fault?_moved`, `Leaf.value_moved_of_isAddress`: leaves among moved names.
* `Piece`: a field with its bytes at both places.
* `Module.Relocated`, `Module.relocation`: the two modules compared.
-/

namespace WordMachine

/-! ## Moved names -/

theorem Word.add_right_comm (a b c : Word) : a + b + c = a + c + b := by
  rw [UInt16.add_assoc, UInt16.add_comm b c, ← UInt16.add_assoc]

/-- What a symbol stands for, moved to another place. -/
def Binding.moved (d : Word) : Binding → Binding
  | .address a => .address (a + d)
  | .value v => .value v

/-- The binding of a name, moved to another place. -/
def Entry.moved (d : Word) : Entry → Entry
  | .symbol name binding => .symbol name (binding.moved d)
  | .struct layout => .struct layout

@[simp] theorem Entry.name_moved (d : Word) (e : Entry) : (e.moved d).name = e.name := by
  cases e <;> rfl

namespace Scope

/-- The names, moved to another place. -/
def moved (d : Word) (s : Scope) : Scope := ⟨s.entries.map (Entry.moved d)⟩

/-- The name is that of a label or a data block. -/
def IsAddress (s : Scope) (name : String) : Prop := ∃ a, s.symbol? name = some (.address a)

section Moved

variable (d : Word) (s : Scope) (name : String)

theorem find?_moved : (s.moved d).find? name = (s.find? name).map (Entry.moved d) := by
  rw [find?, find?, moved, List.find?_map]
  congr
  funext e
  rw [Function.comp_apply, Entry.name_moved]

theorem symbol?_moved : (s.moved d).symbol? name = (s.symbol? name).map (Binding.moved d) := by
  rw [symbol?, symbol?, find?_moved]
  cases s.find? name with
  | none => rfl
  | some e => cases e <;> rfl

theorem struct?_moved : (s.moved d).struct? name = s.struct? name := by
  rw [struct?, struct?, find?_moved]
  cases s.find? name with
  | none => rfl
  | some e => cases e <;> rfl

theorem names_moved : (s.moved d).names = s.names := by
  rw [names, names, moved, List.map_map]
  exact List.map_congr_left fun e _ => e.name_moved d

theorem structs_moved : (s.moved d).structs = s.structs := by
  rw [structs, structs, moved, List.filterMap_map]
  congr
  funext e
  cases e <;> rfl

theorem symbols_moved :
    (s.moved d).symbols = s.symbols.map fun x => (x.1, x.2.moved d) := by
  rw [symbols, symbols, moved, List.filterMap_map, List.map_filterMap]
  congr
  funext e
  cases e <;> rfl

end Moved

variable {d : Word} {s : Scope} {name : String}

/-- A value that is no address stays. -/
theorem value?_moved (h : ¬ s.IsAddress name) : (s.moved d).value? name = s.value? name := by
  rw [value?, value?, symbol?_moved]
  cases hsymbol : s.symbol? name with
  | none => rfl
  | some b =>
    cases b with
    | address a => exact absurd ⟨a, hsymbol⟩ h
    | value v => rfl

/-- An address is moved. -/
theorem value?_moved_of_isAddress (h : s.IsAddress name) :
    (s.moved d).value? name = (s.value? name).map (· + d) := by
  obtain ⟨a, ha⟩ := h
  rw [value?, value?, symbol?_moved, ha]
  rfl

theorem value?_moved_eq_none_iff : (s.moved d).value? name = none ↔ s.value? name = none := by
  rw [value?, value?, symbol?_moved, Option.map_eq_none_iff, Option.map_eq_none_iff,
    Option.map_eq_none_iff]

end Scope

namespace Leaf

/-- The name that the leaf takes a value from, if it takes one. -/
def base? : Leaf → Option String
  | .literal _ => none
  | .reference name => some name
  | .member _ base _ => some base

variable {d : Word} {s : Scope} {leaf : Leaf}

/-- A leaf has a value at one place if it has one at the other, and else it has none for the
same reason. -/
theorem fault?_moved : leaf.fault? (s.moved d) = leaf.fault? s := by
  refine Option.ext fun e => ?_
  rw [fault?, fault?, failure?_eq_some_iff, failure?_eq_some_iff]
  cases leaf with
  | literal digits => rfl
  | reference name =>
    rw [value, value, Scope.resolve_eq_error_iff, Scope.resolve_eq_error_iff,
      Scope.value?_moved_eq_none_iff]
  | member layout base field =>
    rw [value, value, Scope.resolveMember_eq_error_iff, Scope.resolveMember_eq_error_iff,
      Scope.struct?_moved, Scope.value?_moved_eq_none_iff]

/-- The value of a leaf stays if its name is not bound to an address. -/
theorem value_moved (h : ∀ name ∈ leaf.base?, ¬ s.IsAddress name) :
    leaf.value (s.moved d) = leaf.value s := by
  cases leaf with
  | literal digits => rfl
  | reference name =>
    rw [value, value, Scope.resolve, Scope.resolve, Scope.value?_moved (h name rfl)]
  | member layout base field =>
    rw [value, value, Scope.resolveMember, Scope.resolveMember, Scope.struct?_moved,
      Scope.value?_moved (h base rfl)]

/-- It is moved with its name if that is bound to an address, also in an access to a member. -/
theorem value_moved_of_isAddress {name : String} {w : Word} (hbase : leaf.base? = some name)
    (hname : s.IsAddress name) (h : leaf.value s = .ok w) :
    leaf.value (s.moved d) = .ok (w + d) := by
  have hmoved {v : Word} (hv : s.value? name = some v) :
      (s.moved d).value? name = some (v + d) := by
    rw [Scope.value?_moved_of_isAddress hname, hv]
    rfl
  cases leaf with
  | literal digits => exact nomatch hbase
  | reference n =>
    obtain rfl := Option.some.inj hbase
    rw [value, Scope.resolve_eq_ok_iff] at h ⊢
    exact hmoved h
  | member layout base field =>
    obtain rfl := Option.some.inj hbase
    rw [value, Scope.resolveMember_eq_ok_iff] at h ⊢
    obtain ⟨found, m, v, hstruct, hm, hv, rfl⟩ := h
    refine ⟨found, m, v + d, ?_, hm, hmoved hv, Word.add_right_comm v m.offset d⟩
    rw [Scope.struct?_moved, hstruct]

end Leaf

/-! ## Moved fields -/

/-- The expression is nothing but a reference to the name, or an access to a member there. -/
inductive Expr.RefersTo (name : String) : Expr → Prop where
  | reference : RefersTo name (.reference name)
  | member {layout field : String} : RefersTo name (.member layout name field)

/-- An expression that is nothing but a reference is a leaf. -/
theorem Expr.RefersTo.exists_leaf {name : String} {e : Expr} (h : e.RefersTo name) :
    ∃ leaf : Leaf, leaf.base? = some name ∧ ∀ s, e.value s = leaf.value s := by
  cases h with
  | reference => exact ⟨.reference name, rfl, fun _ => by rw [Expr.value]; rfl⟩
  | @member layout field =>
    exact ⟨.member layout name field, rfl, fun _ => by rw [Expr.value]; rfl⟩

/-- A field of machine code, with its bytes at two places. -/
structure Piece where
  field : Field
  here : MachineCode
  there : MachineCode

namespace Piece

/-- The bytes are those of the field among the names of the two places. -/
structure Encodes (s s' : Scope) (x : Piece) : Prop where
  here : x.field.encode s = .ok x.here
  there : x.field.encode s' = .ok x.there

/-- How the bytes at the two places compare, if the second place is `d` further. -/
structure Compares (s : Scope) (d : Word) (x : Piece) : Prop where
  /-- They are as many. -/
  length_eq : x.there.length = x.here.length
  /-- They are the same, unless the field refers to an address. -/
  fixed : (∀ leaf ∈ x.field.leaves, ∀ name ∈ leaf.base?, ¬ s.IsAddress name) → x.there = x.here
  /-- A word that is nothing but a reference to an address is moved. -/
  moved : ∀ kind e name, x.field = .operand kind (.value e) → kind.width = 2 →
    e.RefersTo name → s.IsAddress name →
    ∃ w, x.here = Word.toBytes w ∧ x.there = Word.toBytes (w + d)

variable {s : Scope} {d : Word} {x : Piece}

/-- A word is encoded by its two bytes. -/
theorem exists_word_of_encode {kind : Kind} {e : Expr} {code : MachineCode}
    (hkind : kind.width = 2) (h : (Field.operand kind (.value e)).encode s = .ok code) :
    ∃ w, e.value s = .ok w ∧ code = Word.toBytes w := by
  cases kind with
  | literal | address =>
    cases hvalue : e.value s with
    | error e' =>
      rw [Field.encode, Operand.encode, hvalue] at h
      cases h
    | ok w =>
      rw [Field.encode, Operand.encode, hvalue] at h
      exact ⟨w, rfl, (Except.ok.inj h).symm⟩
  | literal8 | register | pointer => exact absurd hkind (by decide)

theorem Encodes.compares (h : x.Encodes s (s.moved d)) : x.Compares s d where
  length_eq := by rw [Field.length_of_encode h.there, Field.length_of_encode h.here]
  fixed hfixed := by
    have hsame : x.field.encode (s.moved d) = x.field.encode s :=
      Field.encode_congr fun leaf hleaf => Leaf.value_moved (hfixed leaf hleaf)
    have hthere := h.there
    rw [hsame, h.here] at hthere
    exact (Except.ok.inj hthere).symm
  moved := by
    intro kind e name hfield hkind he hname
    have hhere := h.here
    have hthere := h.there
    rw [hfield] at hhere hthere
    obtain ⟨w, hw, hcode⟩ := exists_word_of_encode hkind hhere
    obtain ⟨w', hw', hcode'⟩ := exists_word_of_encode hkind hthere
    obtain ⟨leaf, hbase, hleaf⟩ := he.exists_leaf
    rw [hleaf] at hw hw'
    rw [Leaf.value_moved_of_isAddress hbase hname hw] at hw'
    obtain rfl := Except.ok.inj hw'
    exact ⟨w, hcode, hcode'⟩

/-- Fields that have bytes at both places are pieces. -/
theorem exists_of_encodes {s s' : Scope} {fields : List Field} {parts parts' : List MachineCode}
    (h : List.Forall₂ (fun f part => Field.encode s f = .ok part) fields parts)
    (h' : List.Forall₂ (fun f part => Field.encode s' f = .ok part) fields parts') :
    ∃ pieces : List Piece, pieces.map field = fields ∧ parts.flatten = pieces.flatMap Piece.here ∧
      parts'.flatten = pieces.flatMap Piece.there ∧ ∀ x ∈ pieces, x.Encodes s s' := by
  induction h generalizing parts' with
  | nil =>
    cases h'
    exact ⟨[], rfl, rfl, rfl, nofun⟩
  | @cons f part _ _ hpart _ ih =>
    cases h' with
    | @cons _ part' _ _ hpart' h' =>
      obtain ⟨pieces, rfl, hhere, hthere, hencodes⟩ := ih h'
      refine ⟨⟨f, part, part'⟩ :: pieces, rfl, ?_, ?_, ?_⟩
      · rw [List.flatten_cons, List.flatMap_cons, hhere]
      · rw [List.flatten_cons, List.flatMap_cons, hthere]
      · exact List.forall_mem_cons.mpr ⟨⟨hpart, hpart'⟩, hencodes⟩

/-- Pieces that are as long at both places are so all together. -/
theorem length_flatMap_there {pieces : List Piece}
    (h : ∀ x ∈ pieces, x.there.length = x.here.length) :
    (pieces.flatMap Piece.there).length = (pieces.flatMap Piece.here).length := by
  rw [List.length_flatMap, List.length_flatMap, List.map_congr_left h]

end Piece

/-! ## Moved programs -/

/-- From a place that is `d` further, layout binds the same names, moved by `d`. -/
theorem Statement.entriesFrom_moved (d cursor : Word) (sts : List Statement) :
    entriesFrom (cursor + d) sts = (entriesFrom cursor sts).map (Entry.moved d) := by
  induction sts generalizing cursor with
  | nil => rfl
  | cons st sts ih =>
    have hentry : st.entry? (cursor + d) = (st.entry? cursor).map (Entry.moved d) := by
      cases st with
      | instruction opcode operands => rfl
      | define exported name definition => cases definition <;> rfl
    rw [entriesFrom, entriesFrom, List.map_append, ← ih, Word.add_right_comm, hentry]
    cases st.entry? cursor <;> rfl

namespace Module

/-- The second module is the first one, assembled for a place that is `d` further. -/
structure Relocated (sts : List Statement) (d : Word) (m m' : Module) : Prop where
  size_eq : m'.size = m.size
  exports_eq : m'.exports = m.exports
  /-- The names are the same, and in the same order. -/
  names_eq : m'.scope.names = m.scope.names
  /-- Addresses are moved, and constants stay. -/
  symbols_eq : m'.scope.symbols = m.scope.symbols.map fun x => (x.1, x.2.moved d)
  structs_eq : m'.scope.structs = m.scope.structs
  /-- Both codes are cut into the fields of the source, and field by field they compare. -/
  code : ∃ pieces : List Piece, pieces.map Piece.field = sts.flatMap Statement.fields ∧
    m.code = pieces.flatMap Piece.here ∧ m'.code = pieces.flatMap Piece.there ∧
    ∀ x ∈ pieces, x.Encodes m.scope m'.scope ∧ x.Compares m.scope d

variable {origin d : Word} {sts : List Statement}

/-- Among moved names, encoding fails in the same way. -/
theorem failure?_encodeAll_moved (hfit : ∀ st ∈ sts, st.Fits) (s : Scope) (d : Word) :
    failure? (Statement.encodeAll (s.moved d) sts) = failure? (Statement.encodeAll s sts) := by
  have hfault : Leaf.fault? (s.moved d) = Leaf.fault? s := funext fun _ => Leaf.fault?_moved
  rw [Statement.failure?_encodeAll hfit, Statement.failure?_encodeAll hfit, hfault]

/-- The codes of statements among names and among moved names compare. -/
theorem exists_pieces {s : Scope} {code code' : MachineCode}
    (h : Statement.encodeAll s sts = .ok code)
    (h' : Statement.encodeAll (s.moved d) sts = .ok code') :
    ∃ pieces : List Piece, pieces.map Piece.field = sts.flatMap Statement.fields ∧
      code = pieces.flatMap Piece.here ∧ code' = pieces.flatMap Piece.there ∧
      ∀ x ∈ pieces, x.Encodes s (s.moved d) ∧ x.Compares s d := by
  obtain ⟨parts, hparts, rfl⟩ := Statement.exists_fields_of_encodeAll h
  obtain ⟨parts', hparts', rfl⟩ := Statement.exists_fields_of_encodeAll h'
  obtain ⟨pieces, hfields, hhere, hthere, hencodes⟩ := Piece.exists_of_encodes hparts hparts'
  exact ⟨pieces, hfields, hhere, hthere, fun x hx => ⟨hencodes x hx, (hencodes x hx).compares⟩⟩

/-- Statements fail at both places in the same way, or become modules that compare. -/
theorem relocation_ofStatements (hfit : ∀ st ∈ sts, st.Fits) (origin d : Word) :
    (∃ e, ofStatements origin sts = .error e ∧ ofStatements (origin + d) sts = .error e) ∨
    ∃ m m', ofStatements origin sts = .ok m ∧ ofStatements (origin + d) sts = .ok m' ∧
      m.Relocated sts d m' := by
  by_cases h : (Statement.boundNames sts).Nodup
  · have hscope : Scope.mk (Statement.entriesFrom (origin + d) sts) =
        (Scope.mk (Statement.entriesFrom origin sts)).moved d :=
      congrArg _ (Statement.entriesFrom_moved d origin sts)
    rw [ofStatements_of_nodup h, ofStatements_of_nodup h, hscope]
    have hfailure := failure?_encodeAll_moved hfit ⟨Statement.entriesFrom origin sts⟩ d
    cases hcode : Statement.encodeAll ⟨Statement.entriesFrom origin sts⟩ sts with
    | error e =>
      rw [hcode] at hfailure
      rw [failure?_eq_some_iff.mp hfailure]
      exact .inl ⟨e, rfl, rfl⟩
    | ok code =>
      rw [hcode] at hfailure
      obtain ⟨code', hcode'⟩ := failure?_eq_none_iff.mp hfailure
      rw [hcode']
      obtain ⟨pieces, hfields, rfl, rfl, hpieces⟩ := exists_pieces hcode hcode'
      refine .inr ⟨_, _, rfl, rfl, ?_, rfl, Scope.names_moved d _, Scope.symbols_moved d _,
        Scope.structs_moved d _, pieces, hfields, rfl, rfl, hpieces⟩
      exact Piece.length_flatMap_there fun x hx => (hpieces x hx).2.length_eq
  · obtain ⟨name, hname⟩ := Statement.exists_repeats h
    exact .inl ⟨_, ofStatements_of_repeats hname, ofStatements_of_repeats hname⟩

/-- **A program can be assembled for any place.**  At two places it fails with the same error,
or it becomes two modules that have the same size, exports, structs and constants and the same
names in the same order, while addresses differ by the distance of the places.  The codes are
cut into the same fields.  A field has the same bytes in both unless it refers to an address,
and a word that is nothing but a reference to an address, or an access to a member there,
differs by the distance. -/
theorem relocation (source : String) (origin origin' : Word) :
    (∃ e, assemble source origin = .error e ∧ assemble source origin' = .error e) ∨
    ∃ placed m m', Program.parse source = .ok placed ∧ assemble source origin = .ok m ∧
      assemble source origin' = .ok m' ∧
      m.Relocated (placed.map Placed.statement) (origin' - origin) m' := by
  have hassemble (o : Word) : assemble source o =
      (Program.parse source >>= fun placed => ofStatements o (placed.map Placed.statement)) := rfl
  have horigin : origin + (origin' - origin) = origin' := by
    rw [UInt16.add_comm, UInt16.sub_add_cancel]
  rw [hassemble, hassemble]
  cases hparse : Program.parse source with
  | error e => exact .inl ⟨e, rfl, rfl⟩
  | ok placed =>
    have hfit : ∀ st ∈ placed.map Placed.statement, st.Fits :=
      List.forall_mem_map.mpr (Program.fits_of_parse hparse)
    rcases relocation_ofStatements hfit origin (origin' - origin) with
      ⟨e, herror, herror'⟩ | ⟨m, m', hm, hm', hrelocated⟩
    · rw [horigin] at herror'
      exact .inl ⟨e, herror, herror'⟩
    · rw [horigin] at hm'
      exact .inr ⟨placed, m, m', rfl, hm, hm', hrelocated⟩

/-- A jump over a data block, assembled for the first addresses and for the last ones.  Its
target, which is past the end there, wraps. -/
theorem relocation_across_the_end :
    ∃ placed m m', Program.parse Program.acrossTheEnd = .ok placed ∧
      assemble Program.acrossTheEnd 0 = .ok m ∧ assemble Program.acrossTheEnd 0xFFFD = .ok m' ∧
      m.Relocated (placed.map Placed.statement) (0xFFFD - 0) m' ∧
      m.code = [0x3D, 0, 5, 1, 2, 0xFF] ∧ m'.code = [0x3D, 0, 2, 1, 2, 0xFF] := by
  have hcode : (assemble Program.acrossTheEnd 0).toOption.map Module.code =
      some [0x3D, 0, 5, 1, 2, 0xFF] := by decide +kernel
  have hcode' : (assemble Program.acrossTheEnd 0xFFFD).toOption.map Module.code =
      some [0x3D, 0, 2, 1, 2, 0xFF] := by decide +kernel
  rcases relocation Program.acrossTheEnd 0 0xFFFD with
    ⟨e, herror, -⟩ | ⟨placed, m, m', hparse, hm, hm', hrelocated⟩
  · rw [herror] at hcode
    exact nomatch hcode
  · rw [hm] at hcode
    rw [hm'] at hcode'
    exact ⟨placed, m, m', hparse, hm, hm', hrelocated, Option.some.inj hcode,
      Option.some.inj hcode'⟩

end Module
end WordMachine
