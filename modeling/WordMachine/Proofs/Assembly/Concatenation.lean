import WordMachine.Proofs.Assembly.Outcome
import WordMachine.Proofs.Grammar.Composition

/-!
# Modules behind one another

A program can be cut in two at a break of line, and each part assembled for its own place, the
second for the place where the first ends.  If the two bind no name in common, then what comes
out is the module of the whole, cut in two (`Module.concatenation`).

Three things have to be seen.  The text of the second part is read behind the first as it is
alone; that is a matter of the grammar (`Program.parse_append_break`).  The cursor of layout
stands behind the first part where the code of that ends, so the second part is laid out for the
place for which it was assembled.  And there are more names now than either part had.  No leaf
resolves otherwise for that: a leaf that has a value among some names has the same value among
more of them (`Leaf.value_of_within`), since each name still stands for what it did.  That a
leaf without a value might have one now does not matter, as there is none in either part.

* `Scope.Within`: the names of one scope, among those of another.
* `Statement.cursorAfter_of_encodeAll`: the cursor behind the code.
* `Statement.encodeAll_append_of_nodup`: the bytes of two parts.
* `Module.Joined`, `Module.concatenation`: the module of two programs.
-/

namespace WordMachine

/-! ## Among more names -/

namespace Scope

/-- What is bound in the first scope is bound in the second, to the same thing. -/
def Within (s s' : Scope) : Prop := ∀ name e, s.find? name = some e → s'.find? name = some e

variable {s s' : Scope} {name : String}

/-- Where no name is bound twice, it is enough that there are the same entries and others. -/
theorem within_of_subset (hs : s.names.Nodup) (hs' : s'.names.Nodup)
    (h : s.entries ⊆ s'.entries) : s.Within s' := by
  intro name e he
  obtain ⟨hmem, hname⟩ := (find?_eq_some_iff hs).mp he
  exact (find?_eq_some_iff hs').mpr ⟨h hmem, hname⟩

theorem Within.value? (h : s.Within s') {w : Word} (hw : s.value? name = some w) :
    s'.value? name = some w := by
  rw [Scope.value?, symbol?] at hw ⊢
  cases hfind : s.find? name with
  | none =>
    rw [hfind] at hw
    cases hw
  | some e => rwa [h name e hfind, ← hfind]

theorem Within.struct? (h : s.Within s') {layout : StructLayout}
    (hlayout : s.struct? name = some layout) : s'.struct? name = some layout := by
  rw [Scope.struct?] at hlayout ⊢
  cases hfind : s.find? name with
  | none =>
    rw [hfind] at hlayout
    cases hlayout
  | some e => rwa [h name e hfind, ← hfind]

end Scope

/-- A leaf that has a value keeps it among more names. -/
theorem Leaf.value_of_within {s s' : Scope} (h : s.Within s') {leaf : Leaf} {w : Word}
    (hw : leaf.value s = .ok w) : leaf.value s' = .ok w := by
  cases leaf with
  | literal digits => exact hw
  | reference name =>
    rw [value, Scope.resolve_eq_ok_iff] at hw ⊢
    exact h.value? hw
  | member layout base field =>
    rw [value, Scope.resolveMember_eq_ok_iff] at hw ⊢
    obtain ⟨found, m, v, hstruct, hm, hv, rfl⟩ := hw
    exact ⟨found, m, v, h.struct? hstruct, hm, h.value? hv, rfl⟩

namespace Statement

variable {s s' : Scope} {sts : List Statement} {code : MachineCode}

/-- Statements that have bytes keep them among more names. -/
theorem encodeAll_of_within (h : s.Within s') (hfit : ∀ st ∈ sts, st.Fits)
    (hcode : encodeAll s sts = .ok code) : encodeAll s' sts = .ok code := by
  have hnone : (sts.flatMap leaves).findSome? (Leaf.fault? s) = none := by
    rw [← failure?_encodeAll hfit, hcode]
    rfl
  rw [← hcode]
  refine encodeAll_congr hfit fun leaf hleaf => ?_
  obtain ⟨w, hw⟩ := failure?_eq_none_iff.mp (List.findSome?_eq_none_iff.mp hnone leaf hleaf)
  rw [hw, Leaf.value_of_within h hw]

/-- Behind statements, the cursor of layout stands behind their code. -/
theorem cursorAfter_of_encodeAll (hfit : ∀ st ∈ sts, st.Fits)
    (hcode : encodeAll s sts = .ok code) (cursor : Word) :
    cursorAfter cursor sts = cursor + UInt16.ofNat code.length := by
  obtain ⟨parts, hparts, rfl⟩ := exists_parts_of_encodeAll hcode
  have hcursor := cursorAfter_take_eq_startOf hfit hparts cursor sts.length
  rwa [List.take_length, startOf, hparts.length_eq, List.take_length] at hcursor

/-- Statements behind others are laid out for the place behind the code of the others. -/
theorem entriesFrom_append_of_encodeAll {xs : List Statement} (hfit : ∀ st ∈ xs, st.Fits)
    (hcode : encodeAll s xs = .ok code) (origin : Word) (ys : List Statement) :
    entriesFrom origin (xs ++ ys) =
      entriesFrom origin xs ++ entriesFrom (origin + UInt16.ofNat code.length) ys := by
  rw [entriesFrom_append, cursorAfter_of_encodeAll hfit hcode]

/-- **Two parts of a program have the bytes among the names of both that each has among its
own.** -/
theorem encodeAll_append_of_nodup {xs ys : List Statement} {origin : Word}
    {code code' : MachineCode} (hxs : ∀ st ∈ xs, st.Fits) (hys : ∀ st ∈ ys, st.Fits)
    (hnodup : (boundNames (xs ++ ys)).Nodup)
    (hcode : encodeAll ⟨entriesFrom origin xs⟩ xs = .ok code)
    (hcode' : encodeAll ⟨entriesFrom (origin + UInt16.ofNat code.length) ys⟩ ys = .ok code') :
    encodeAll ⟨entriesFrom origin (xs ++ ys)⟩ (xs ++ ys) = .ok (code ++ code') := by
  have hentries := entriesFrom_append_of_encodeAll hxs hcode origin ys
  have hwithin {o : Word} {sts : List Statement} (hsts : (boundNames sts).Nodup)
      (h : entriesFrom o sts ⊆ entriesFrom origin (xs ++ ys)) :
      (Scope.mk (entriesFrom o sts)).Within ⟨entriesFrom origin (xs ++ ys)⟩ := by
    refine Scope.within_of_subset ?_ ?_ h
    · rwa [names_entriesFrom]
    · rwa [names_entriesFrom]
  obtain ⟨hnodup₁, hnodup₂, -⟩ := List.nodup_append.mp (boundNames_append xs ys ▸ hnodup)
  have hfirst := encodeAll_of_within
    (hwithin hnodup₁ (hentries ▸ List.subset_append_left _ _)) hxs hcode
  have hsecond := encodeAll_of_within
    (hwithin hnodup₂ (hentries ▸ List.subset_append_right _ _)) hys hcode'
  rw [encodeAll_append, hfirst, hsecond]
  rfl

theorem exports_append (xs ys : List Statement) :
    exports (xs ++ ys) = exports xs ++ exports ys := by
  rw [exports, List.filter_append, List.filterMap_append]
  rfl

end Statement

/-! ## Two modules -/

namespace Module

/-- The module is the first of two modules and behind it the second. -/
structure Joined (m₁ m₂ m : Module) : Prop where
  code_eq : m.code = m₁.code ++ m₂.code
  /-- The symbols with what they are bound to, in the order in which they were bound. -/
  symbols_eq : m.scope.symbols = m₁.scope.symbols ++ m₂.scope.symbols
  structs_eq : m.scope.structs = m₁.scope.structs ++ m₂.scope.structs
  /-- Also when it is looked up, a name stands for what it does in the module that binds it. -/
  find?_eq : ∀ name, m.scope.find? name = (m₁.scope.find? name).or (m₂.scope.find? name)
  exports_eq : m.exports = m₁.exports ++ m₂.exports
  loadOffset_eq : m.loadOffset = m₁.loadOffset

variable {origin : Word} {m₁ m₂ : Module}

/-- Statements behind others become the module behind that of the others. -/
theorem exists_joined_of_append {xs ys : List Statement} (hxs : ∀ st ∈ xs, st.Fits)
    (hys : ∀ st ∈ ys, st.Fits) (h₁ : ofStatements origin xs = .ok m₁)
    (h₂ : ofStatements (origin + UInt16.ofNat m₁.size) ys = .ok m₂)
    (hnames : ∀ name ∈ m₁.scope.names, name ∉ m₂.scope.names) :
    ∃ m, ofStatements origin (xs ++ ys) = .ok m ∧ m₁.Joined m₂ m := by
  obtain ⟨hnodup₁, code₁, hcode₁, rfl⟩ := ofStatements_eq_ok_iff.mp h₁
  obtain ⟨hnodup₂, code₂, hcode₂, rfl⟩ := ofStatements_eq_ok_iff.mp h₂
  simp only [Statement.names_entriesFrom] at hnames
  have hnodup : (Statement.boundNames (xs ++ ys)).Nodup := by
    rw [Statement.boundNames_append]
    refine List.nodup_append.mpr ⟨hnodup₁, hnodup₂, fun name hname other hother heq => ?_⟩
    exact hnames name hname (heq ▸ hother)
  have hcode := Statement.encodeAll_append_of_nodup hxs hys hnodup hcode₁ hcode₂
  have hentries := Statement.entriesFrom_append_of_encodeAll hxs hcode₁ origin ys
  refine ⟨_, ofStatements_eq_ok_iff.mpr ⟨hnodup, _, hcode, rfl⟩, rfl, ?_, ?_, fun name => ?_,
    Statement.exports_append xs ys, rfl⟩
  · rw [hentries]
    exact List.filterMap_append
  · rw [hentries]
    exact List.filterMap_append
  · rw [hentries]
    exact List.find?_append

/-- **Programs can be assembled in parts.**  If a program is assembled for some place, and another
for the place where the code of the first ends, and no name is bound by both, then the two texts
with a break of line between them assemble to the first module with the second behind it: the
code, the symbols and structs with all they are bound to, and the exports.  The first text may
end in whatever way, also in a comment, and the code may run past the last address. -/
theorem concatenation {a b : String} (h₁ : assemble a origin = .ok m₁)
    (h₂ : assemble b (origin + UInt16.ofNat m₁.size) = .ok m₂)
    (hnames : ∀ name ∈ m₁.scope.names, name ∉ m₂.scope.names) :
    ∃ m, assemble (a ++ "\n" ++ b) origin = .ok m ∧ m₁.Joined m₂ m := by
  obtain ⟨placed, ha, h₁⟩ := exists_of_bind_eq_ok h₁
  obtain ⟨placed', hb, h₂⟩ := exists_of_bind_eq_ok h₂
  have hparse := Program.parse_append_break ha b
  rw [hb] at hparse
  have hstatements (d : Nat) : (placed ++ placed'.map (Placed.down d)).map Placed.statement =
      placed.map Placed.statement ++ placed'.map Placed.statement := by
    rw [List.map_append, List.map_map]
    rfl
  obtain ⟨m, hm, hjoined⟩ := exists_joined_of_append
    (List.forall_mem_map.mpr (Program.fits_of_parse ha))
    (List.forall_mem_map.mpr (Program.fits_of_parse hb)) h₁ h₂ hnames
  refine ⟨m, ?_, hjoined⟩
  rw [assemble, hparse]
  show ofStatements origin (List.map _ _) = _
  rw [hstatements, hm]

/-- A jump past the end of its own program, with its target broken over two lines, and a comment
at the end of the text. -/
def jumpBehind : String := "+start: jmp &[!end\n + $1]\nconstant n = $2\nend: hlt ;; [ \x7b"

/-- A loop over a byte of a struct, with the byte in a list that is broken over two lines. -/
def readLoop : String :=
  "+data8 d = \x7b $1,\n $102 \x7d\nstruct s \x7b x: $1 \x7d\nloop: mov &<s> d.x, r1\njmp &[!loop]"

/-- The one behind the other, from three bytes below the last address on. -/
theorem concatenation_across_the_end :
    ∃ m₁ m₂ m, assemble jumpBehind 0xFFFD = .ok m₁ ∧
      assemble readLoop (0xFFFD + UInt16.ofNat m₁.size) = .ok m₂ ∧
      (∀ name ∈ m₁.scope.names, name ∉ m₂.scope.names) ∧
      assemble (jumpBehind ++ "\n" ++ readLoop) 0xFFFD = .ok m ∧ m₁.Joined m₂ m ∧
      m.code = [0x3D, 0, 1, 0xFF] ++ [1, 2, 0x13, 0, 1, 2, 0x3D, 0, 3] ∧
      m.exports = ["start"] ++ ["d"] := by
  have h₁ : assemble jumpBehind 0xFFFD = .ok ⟨[0x3D, 0, 1, 0xFF],
      ⟨[.symbol "start" (.address 0xFFFD), .symbol "n" (.value 2), .symbol "end" (.address 0)]⟩,
      ["start"], 0xFFFD⟩ := eq_ok_of_toOption (by decide +kernel)
  have h₂ : assemble readLoop (0xFFFD + 4) = .ok ⟨[1, 2, 0x13, 0, 1, 2, 0x3D, 0, 3],
      ⟨[.symbol "d" (.address 1), .struct ⟨"s", [⟨"x", 0, 1⟩]⟩, .symbol "loop" (.address 3)]⟩,
      ["d"], 1⟩ := eq_ok_of_toOption (by decide +kernel)
  have hnames : ∀ name ∈ ["start", "n", "end"], name ∉ ["d", "s", "loop"] := by decide
  obtain ⟨m, hm, hjoined⟩ := concatenation h₁ h₂ hnames
  exact ⟨_, _, m, h₁, h₂, hnames, hm, hjoined, hjoined.code_eq, hjoined.exports_eq⟩

end Module
end WordMachine
