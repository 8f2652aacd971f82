import WordMachine.Assembly.Module
import WordMachine.Proofs.Grammar.Operands

/-!
# Layout and encoding agree on every address

Layout moves a cursor by tabulated sizes and by wrapping products; encoding emits whatever
bytes come out of the operands.  Nothing in either of them refers to the other.  That a
label is bound to the address at which the next byte is emitted rests on one fact about a
single statement: its `extent` is the length of its bytes, modulo `2 ^ 16`
(`Statement.extent_eq`).  The fact holds for statements whose operands fit their format,
which is what the grammar answers, and needs no bound on the length of anything.

* `Statement.cursorAfter`: where the cursor of layout stands behind some statements, and
  `Statement.layoutFrom_append`, which says that layout goes on from there.
* `startOf`: where a piece of code starts among pieces that are emitted one after the
  other.
* `Statement.cursorAfter_take_eq_startOf`: the two are the same address.
* `Statement.symbol?_of_layout`: labels and data blocks are bound to the cursor.
* `Program.layout_agrees_with_encoding`: all of this for a program.
-/

namespace WordMachine

/-! ## Results -/

/-- If a sequence succeeds, so do both of its parts. -/
theorem exists_of_bind_eq_ok {ε α β : Type} {x : Except ε α} {f : α → Except ε β} {b : β}
    (h : (x >>= f) = .ok b) : ∃ a, x = .ok a ∧ f a = .ok b := by
  cases x with
  | error e => exact absurd h (by simp [bind, Except.bind])
  | ok a => exact ⟨a, rfl, h⟩

/-- A result that has a value is that value. -/
theorem eq_ok_of_toOption {ε α : Type} {x : Except ε α} {a : α} (h : x.toOption = some a) :
    x = .ok a := by
  cases x with
  | error e => exact absurd h (by simp [Except.toOption])
  | ok b =>
    obtain rfl : b = a := Option.some.inj h
    rfl

/-- A walk over a list succeeds if it succeeds at each element, and answers their answers. -/
theorem forall₂_of_mapM_eq_ok {ε α β : Type} {f : α → Except ε β} {xs : List α} {ys : List β}
    (h : xs.mapM f = .ok ys) : List.Forall₂ (fun x y => f x = .ok y) xs ys := by
  induction xs generalizing ys with
  | nil =>
    obtain rfl : [] = ys := Except.ok.inj h
    exact List.Forall₂.nil
  | cons x xs ih =>
    rw [List.mapM_cons] at h
    obtain ⟨y, hy, h⟩ := exists_of_bind_eq_ok h
    obtain ⟨rest, hrest, h⟩ := exists_of_bind_eq_ok h
    obtain rfl : y :: rest = ys := Except.ok.inj h
    exact List.Forall₂.cons hy (ih hrest)

/-! ## The length of what is emitted -/

/-- An operand takes as many bytes as its kind is wide. -/
theorem Operand.length_of_encode {scope : Scope} {kind : Kind} {o : Operand} {code : MachineCode}
    (h : o.encode scope kind = .ok code) : code.length = kind.width := by
  have hword : ∀ {k : Width} {r : Except AssemblyError Word},
      r.map (Width.emit k) = .ok code → code.length = k.size := by
    intro k r hr
    cases r with
    | error e => exact absurd hr (by simp [Except.map])
    | ok w =>
      obtain rfl : k.emit w = code := Except.ok.inj hr
      exact Width.length_emit k w
  cases o with
  | register slot =>
    cases kind with
    | register | pointer =>
      obtain rfl : [slot] = code := Except.ok.inj h
      rfl
    | literal | literal8 | address => exact absurd h (by simp [Operand.encode])
  | value e =>
    cases kind with
    | literal | address => exact hword (k := .word) h
    | literal8 => exact hword (k := .byte) h
    | register | pointer => exact absurd h (by simp [Operand.encode])

/-- Operands that are as many as their kinds take as many bytes as the kinds together. -/
theorem Operand.length_flatten_of_encode {scope : Scope} {kinds : List Kind}
    {operands : List Operand} {parts : List MachineCode}
    (hfit : List.Forall₂ Operand.Fits kinds operands)
    (hparts : List.Forall₂ (fun p part => p.2.encode scope p.1 = .ok part)
      (kinds.zip operands) parts) :
    parts.flatten.length = Kind.totalWidth kinds := by
  induction hfit generalizing parts with
  | nil =>
    cases hparts
    rfl
  | cons _ _ ih =>
    cases hparts with
    | cons hpart hparts =>
      rw [List.flatten_cons, List.length_append, Kind.totalWidth, ih hparts,
        Operand.length_of_encode hpart]

/-- The definition stands for the address at which it is met. -/
def Definition.BindsAddress : Definition → Prop
  | .label | .data _ _ => True
  | .constant _ | .struct _ => False

/-- A data block takes its width for every value. -/
theorem Definition.length_encode_data (width : Width) (values : List String) :
    (Definition.encode (.data width values)).length = width.size * values.length := by
  induction values with
  | nil => rfl
  | cons digits values ih =>
    rw [Definition.encode] at ih
    rw [Definition.encode, List.flatMap_cons, List.length_append, Width.length_emit, ih,
      List.length_cons, Nat.mul_add, Nat.mul_one, Nat.add_comm]

namespace Statement

/-- The bytes of an instruction are its own byte and the bytes of its operands. -/
theorem exists_parts_of_encode {scope : Scope} {opcode : Opcode} {operands : List Operand}
    {code : MachineCode} (h : (instruction opcode operands).encode scope = .ok code) :
    ∃ parts, List.Forall₂ (fun p part => p.2.encode scope p.1 = .ok part)
      (opcode.format.operands.zip operands) parts ∧ code = opcode.byte :: parts.flatten := by
  rw [encode] at h
  obtain ⟨parts, hparts, h⟩ := exists_of_bind_eq_ok h
  exact ⟨parts, forall₂_of_mapM_eq_ok hparts, (Except.ok.inj h).symm⟩

/-- **Sizes and bytes agree.**  Layout reserves for a statement as many bytes as encoding
emits, modulo `2 ^ 16`. -/
theorem extent_eq {scope : Scope} {st : Statement} {code : MachineCode} (hfit : st.Fits)
    (h : st.encode scope = .ok code) : st.extent = UInt16.ofNat code.length := by
  cases st with
  | instruction opcode operands =>
    obtain ⟨parts, hparts, rfl⟩ := exists_parts_of_encode h
    rw [extent, Opcode.size, Format.size_eq, List.length_cons,
      Operand.length_flatten_of_encode hfit hparts, Nat.add_comm]
  | define exported name d =>
    obtain rfl : d.encode = code := Except.ok.inj h
    cases d with
    | data width values =>
      -- a product of wrapped numbers is the wrapped product
      rw [Definition.length_encode_data, UInt16.ofNat_mul]
      rfl
    | label | constant _ | struct _ => rfl

/-! ## The cursor -/

/-- Where the cursor of layout stands behind statements of which the first stands at
`cursor`. -/
def cursorAfter (cursor : Word) (sts : List Statement) : Word :=
  sts.foldl (fun c st => c + st.extent) cursor

/-- Layout of statements and more statements goes on where the cursor stands behind the
first ones. -/
theorem layoutFrom_append (cursor : Word) (scope : Scope) (xs ys : List Statement) :
    layoutFrom cursor scope (xs ++ ys) =
      (layoutFrom cursor scope xs >>= fun named =>
        layoutFrom (cursorAfter cursor xs) named ys) := by
  induction xs generalizing cursor scope with
  | nil => rfl
  | cons st xs ih =>
    rw [List.cons_append, layoutFrom, layoutFrom]
    cases hb : st.bind cursor scope with
    | error e => rfl
    | ok named => exact ih (cursor + st.extent) named

end Statement

/-- Where the piece of number `i` starts, of pieces of code that stand one after the other
from `origin` on. -/
def startOf (origin : Word) (parts : List MachineCode) (i : Nat) : Word :=
  origin + UInt16.ofNat (parts.take i).flatten.length

theorem startOf_zero (origin : Word) (parts : List MachineCode) :
    startOf origin parts 0 = origin := UInt16.add_zero origin

theorem startOf_cons_succ (origin : Word) (part : MachineCode) (parts : List MachineCode)
    (i : Nat) :
    startOf origin (part :: parts) (i + 1) =
      startOf (origin + UInt16.ofNat part.length) parts i := by
  rw [startOf, startOf, List.take_succ_cons, List.flatten_cons, List.length_append,
    UInt16.ofNat_add, UInt16.add_assoc]

namespace Statement

/-- The cursor of layout stands where encoding has got to, behind any number of
statements. -/
theorem cursorAfter_take_eq_startOf {scope : Scope} {sts : List Statement}
    {parts : List MachineCode} (hfit : ∀ st ∈ sts, st.Fits)
    (hparts : List.Forall₂ (fun st part => st.encode scope = .ok part) sts parts)
    (cursor : Word) (i : Nat) : cursorAfter cursor (sts.take i) = startOf cursor parts i := by
  induction hparts generalizing cursor i with
  | nil =>
    rw [List.take_nil, startOf, List.take_nil]
    exact (UInt16.add_zero cursor).symm
  | cons hpart _ ih =>
    cases i with
    | zero => exact (startOf_zero cursor _).symm
    | succ i =>
      rw [startOf_cons_succ, ← extent_eq (hfit _ List.mem_cons_self) hpart]
      exact ih (fun st hst => hfit st (List.mem_cons_of_mem _ hst)) _ i

end Statement

/-! ## What layout binds -/

namespace Scope

/-- A name that is bound keeps its entry when another name is bound. -/
theorem find?_of_insert {s s' : Scope} {e found : Entry} {name : String}
    (h : s.insert e = .ok s') (hfound : s.find? name = some found) :
    s'.find? name = some found := by
  rw [insert] at h
  split at h
  · exact absurd h (by simp)
  · obtain rfl := Except.ok.inj h
    rw [find?] at hfound
    rw [find?, List.find?_append, hfound, Option.some_or]

/-- A name that is bound has its own entry. -/
theorem find?_name_of_insert {s s' : Scope} {e : Entry} (h : s.insert e = .ok s') :
    s'.find? e.name = some e := by
  rw [insert] at h
  split at h
  · exact absurd h (by simp)
  · rename_i hfree
    obtain rfl := Except.ok.inj h
    have hnone : s.entries.find? (·.name == e.name) = none := by
      rw [List.find?_eq_none]
      intro x hx hname
      exact hfree (isBound_iff.mpr ⟨x, hx, by simpa using hname⟩)
    rw [find?, List.find?_append, hnone, Option.none_or]
    simp

end Scope

namespace Statement

/-- Layout takes no entry away. -/
theorem find?_of_layoutFrom {cursor : Word} {scope scope' : Scope} {sts : List Statement}
    {name : String} {found : Entry} (h : layoutFrom cursor scope sts = .ok scope')
    (hfound : scope.find? name = some found) : scope'.find? name = some found := by
  induction sts generalizing cursor scope with
  | nil =>
    obtain rfl : scope = scope' := Except.ok.inj h
    exact hfound
  | cons st sts ih =>
    rw [layoutFrom] at h
    obtain ⟨named, hbind, h⟩ := exists_of_bind_eq_ok h
    refine ih h ?_
    cases st with
    | instruction opcode operands =>
      obtain rfl : scope = named := Except.ok.inj hbind
      exact hfound
    | define exported n d => exact Scope.find?_of_insert hbind hfound

/-- A definition binds its name to what it is at the cursor. -/
theorem find?_of_layout {origin : Word} {scope : Scope} {sts : List Statement}
    (h : layout origin sts = .ok scope) {i : Nat} {exported : Bool} {name : String}
    {d : Definition} (hst : sts[i]? = some (.define exported name d)) :
    scope.find? name = some (d.entry name (cursorAfter origin (sts.take i))) := by
  obtain ⟨hi, hget⟩ := List.getElem?_eq_some_iff.mp hst
  have hsplit : sts = sts.take i ++ .define exported name d :: sts.drop (i + 1) := by
    rw [← hget, ← List.drop_eq_getElem_cons hi, List.take_append_drop]
  rw [layout, hsplit, layoutFrom_append] at h
  obtain ⟨before, -, h⟩ := exists_of_bind_eq_ok h
  rw [layoutFrom] at h
  obtain ⟨named, hbind, h⟩ := exists_of_bind_eq_ok h
  have hname := Scope.find?_name_of_insert hbind
  rw [Definition.name_entry] at hname
  exact find?_of_layoutFrom h hname

/-- The bytes of statements are the bytes of each of them. -/
theorem exists_parts_of_encodeAll {scope : Scope} {sts : List Statement} {code : MachineCode}
    (h : encodeAll scope sts = .ok code) :
    ∃ parts, List.Forall₂ (fun st part => st.encode scope = .ok part) sts parts ∧
      code = parts.flatten := by
  rw [encodeAll] at h
  obtain ⟨parts, hparts, h⟩ := exists_of_bind_eq_ok h
  exact ⟨parts, forall₂_of_mapM_eq_ok hparts, (Except.ok.inj h).symm⟩

/-- A label or data block is bound to the cursor. -/
theorem symbol?_of_layout {origin : Word} {scope : Scope} {sts : List Statement}
    (h : layout origin sts = .ok scope) {i : Nat} {exported : Bool} {name : String}
    {d : Definition} (hst : sts[i]? = some (.define exported name d)) (hd : d.BindsAddress) :
    scope.symbol? name = some (.address (cursorAfter origin (sts.take i))) := by
  rw [Scope.symbol?, find?_of_layout h hst]
  cases d with
  | label | data _ _ => rfl
  | constant _ | struct _ => exact absurd hd id

/-- Layout goes through the first statements of those it goes through. -/
theorem exists_layout_take {origin : Word} {scope : Scope} {sts : List Statement}
    (h : layout origin sts = .ok scope) (i : Nat) :
    ∃ named, layout origin (sts.take i) = .ok named ∧
      layoutFrom (cursorAfter origin (sts.take i)) named (sts.drop i) = .ok scope := by
  rw [layout, ← List.take_append_drop i sts, layoutFrom_append] at h
  exact exists_of_bind_eq_ok h

end Statement

namespace Program

/-- **The two walks agree on every address.**  When layout and encoding of a program succeed,
the code is one piece for each statement, and in front of every statement the cursor of
layout stands where the pieces of the statements before it end: whatever comes next is laid
out from there.  So every label and every data block is bound to the address of the first
byte that is emitted after it is met.  Addresses are modulo `2 ^ 16`; lengths are not
bounded. -/
theorem layout_agrees_with_encoding {source : String} {placed : List Placed} {origin : Word}
    {scope : Scope} {code : MachineCode} (hparse : parse source = .ok placed)
    (hlayout : Statement.layout origin (placed.map Placed.statement) = .ok scope)
    (hencode : Statement.encodeAll scope (placed.map Placed.statement) = .ok code) :
    ∃ parts, code = parts.flatten ∧
      List.Forall₂ (fun st part => Statement.encode scope st = .ok part)
        (placed.map Placed.statement) parts ∧
      ∀ i,
        Statement.cursorAfter origin ((placed.map Placed.statement).take i) =
            startOf origin parts i ∧
        (∃ named, Statement.layout origin ((placed.map Placed.statement).take i) = .ok named ∧
          Statement.layoutFrom (startOf origin parts i) named
            ((placed.map Placed.statement).drop i) = .ok scope) ∧
        ∀ exported name (d : Definition),
          (placed.map Placed.statement)[i]? = some (.define exported name d) →
          d.BindsAddress →
          scope.symbol? name = some (.address (startOf origin parts i)) := by
  have hfit : ∀ st ∈ placed.map Placed.statement, st.Fits := by
    intro st hst
    obtain ⟨x, hx, rfl⟩ := List.mem_map.mp hst
    exact fits_of_parse hparse x hx
  obtain ⟨parts, hparts, hcode⟩ := Statement.exists_parts_of_encodeAll hencode
  refine ⟨parts, hcode, hparts, fun i => ?_⟩
  have hcursor := Statement.cursorAfter_take_eq_startOf hfit hparts origin i
  rw [← hcursor]
  refine ⟨rfl, Statement.exists_layout_take hlayout i, fun exported name d hst hd => ?_⟩
  exact Statement.symbol?_of_layout hlayout hst hd

/-- A program with a reference forward across a data block.  Loaded at `FFFD` it has the
jump at the last three addresses and the rest at the first ones. -/
def acrossTheEnd : String := "jmp &[!end]\ndata8 d = \x7b $1, $102 \x7d\nend: hlt\n"

/-- In that program the label stands behind five bytes, at address `2`. -/
theorem layout_agrees_across_the_end :
    ∃ placed scope code, parse acrossTheEnd = .ok placed ∧
      Statement.layout 0xFFFD (placed.map Placed.statement) = .ok scope ∧
      Statement.encodeAll scope (placed.map Placed.statement) = .ok code ∧
      ∃ parts, code = parts.flatten ∧ scope.symbol? "end" = some (.address (startOf 0xFFFD parts 2))
        ∧ startOf 0xFFFD parts 2 = 2 := by
  have hparse : parse acrossTheEnd = .ok
      [⟨1, .instruction .jmpAddr [.value (.reference "end")]⟩,
       ⟨2, .define false "d" (.data .byte ["1", "102"])⟩,
       ⟨3, .define false "end" .label⟩,
       ⟨3, .instruction .hlt []⟩] := eq_ok_of_toOption (by decide +kernel)
  have hlayout : Statement.layout 0xFFFD
      [.instruction .jmpAddr [.value (.reference "end")],
       .define false "d" (.data .byte ["1", "102"]), .define false "end" .label,
       .instruction .hlt []] = .ok ⟨[.symbol "d" (.address 0), .symbol "end" (.address 2)]⟩ :=
    eq_ok_of_toOption (by decide +kernel)
  have hencode : Statement.encodeAll ⟨[.symbol "d" (.address 0), .symbol "end" (.address 2)]⟩
      [.instruction .jmpAddr [.value (.reference "end")],
       .define false "d" (.data .byte ["1", "102"]), .define false "end" .label,
       .instruction .hlt []] = .ok [0x3D, 0, 2, 1, 2, 0xFF] :=
    eq_ok_of_toOption (by decide +kernel)
  obtain ⟨parts, hcode, -, hall⟩ := layout_agrees_with_encoding hparse hlayout hencode
  have hend := (hall 2).2.2 false "end" .label rfl trivial
  refine ⟨_, _, _, hparse, hlayout, hencode, parts, hcode, hend, ?_⟩
  have hbound : Scope.symbol? ⟨[.symbol "d" (.address 0), .symbol "end" (.address 2)]⟩ "end" =
      some (.address 2) := by decide +kernel
  rw [hbound] at hend
  exact (Binding.address.inj (Option.some.inj hend)).symm

end Program
end WordMachine
