import WordMachine.Proofs.Assembly.Loaded
import WordMachine.Proofs.Assembly.Outcome
import WordMachine.Proofs.Expr.Reduction
import WordMachine.Proofs.Grammar.Answers

/-!
# What is read can be encoded

Encoding pairs the kinds of a format with the operands of an instruction and stops at the
shorter list.  An operand too many would be dropped without a word, an operand too few would put
everything behind it at a wrong address, and an operand of another kind has no encoding at all.
None of this is excluded by the types.  It is excluded by the grammar, which answers only
statements that are `WellFormed`: each kind of the format has its operand and the operand fits.

For such statements encoding is described without the cases that do not occur.  An operand is
emitted in one of five ways (`Operand.EmitsAs`), all of them with as many bytes as its kind takes,
and a register is emitted as a byte below twelve.  An instruction is its own byte and one piece
for each of its operands.

The folding of brackets has a case that does not occur as well, a chain without an operand.  Here
the type of chains excludes it; `Chain.reduceAll_eq_fold` excludes it also where a chain is two
lists.

* `Statement.EmitsAs`: the bytes of a statement all of whose operands fit.
* `Module.assemble_ne_misplacedOperand`: no operand of a source text is refused for its kind.
* `Module.encodable`: what is read can be encoded.
-/

namespace WordMachine

/-! ## Operands -/

/-- In a position of the given kind the operand is emitted as the given bytes. -/
inductive Operand.EmitsAs (scope : Scope) : Kind → Operand → MachineCode → Prop where
  | register {slot : Byte} (h : slot.toNat < registerCount) :
    EmitsAs scope .register (.register slot) [slot]
  | pointer {slot : Byte} (h : slot.toNat < registerCount) :
    EmitsAs scope .pointer (.register slot) [slot]
  | literal {e : Expr} {w : Word} (h : e.value scope = .ok w) :
    EmitsAs scope .literal (.value e) (Width.word.emit w)
  | literal8 {e : Expr} {w : Word} (h : e.value scope = .ok w) :
    EmitsAs scope .literal8 (.value e) (Width.byte.emit w)
  | address {e : Expr} {w : Word} (h : e.value scope = .ok w) :
    EmitsAs scope .address (.value e) (Width.word.emit w)

namespace Operand

variable {scope : Scope} {kind : Kind} {x : Operand} {code : MachineCode}

/-- An operand that can be written is emitted as its kind wants it. -/
theorem emitsAs_of_encode (hx : WellFormed kind x) (h : x.encode scope kind = .ok code) :
    EmitsAs scope kind x code := by
  cases hx with
  | literal =>
    obtain ⟨w, hw, rfl⟩ := exists_value_of_map_emit h
    exact .literal hw
  | literal8 =>
    obtain ⟨w, hw, rfl⟩ := exists_value_of_map_emit h
    exact .literal8 hw
  | address =>
    obtain ⟨w, hw, rfl⟩ := exists_value_of_map_emit h
    exact .address hw
  | @digits digits =>
    have hmap : ((Expr.address digits).value scope).map Width.word.emit = .ok code := h
    obtain ⟨w, hw, rfl⟩ := exists_value_of_map_emit hmap
    exact .address hw
  | register hslot =>
    obtain rfl := Except.ok.inj h
    exact .register hslot
  | pointer hslot =>
    obtain rfl := Except.ok.inj h
    exact .pointer hslot

/-- Operands that can be written have a piece of code each. -/
theorem forall₂_emitsAs {kinds : List Kind} {operands : List Operand} {parts : List MachineCode}
    (hoperands : List.Forall₂ WellFormed kinds operands)
    (hparts : List.Forall₂ (fun p part => p.2.encode scope p.1 = .ok part)
      (kinds.zip operands) parts) :
    parts.length = operands.length ∧
      List.Forall₂ (fun p part => EmitsAs scope p.1 p.2 part) (kinds.zip operands) parts := by
  induction hoperands generalizing parts with
  | nil =>
    cases hparts
    exact ⟨rfl, .nil⟩
  | cons hx _ ih =>
    cases hparts with
    | cons hpart hparts =>
      obtain ⟨hlength, hemits⟩ := ih hparts
      exact ⟨congrArg (· + 1) hlength, .cons (emitsAs_of_encode hx hpart) hemits⟩

end Operand

/-! ## Statements -/

/-- The statement is emitted as the given bytes: an instruction as its own byte and one piece for
each operand, in the position of its kind. -/
def Statement.EmitsAs (scope : Scope) : Statement → MachineCode → Prop
  | .instruction opcode operands, code =>
    ∃ parts : List MachineCode, code = opcode.byte :: parts.flatten ∧
      parts.length = operands.length ∧
      List.Forall₂ (fun p part => Operand.EmitsAs scope p.1 p.2 part)
        (opcode.format.operands.zip operands) parts
  | .define _ _ definition, code => code = definition.encode

namespace Statement

variable {scope : Scope}

theorem emitsAs_of_encode {st : Statement} {code : MachineCode} (hst : st.WellFormed)
    (h : st.encode scope = .ok code) : st.EmitsAs scope code := by
  cases st with
  | define exported name d => exact (Except.ok.inj h).symm
  | instruction opcode operands =>
    obtain ⟨parts, hparts, rfl⟩ := exists_parts_of_encode h
    exact ⟨parts, rfl, Operand.forall₂_emitsAs hst.1 hparts⟩

theorem forall₂_emitsAs {sts : List Statement} {parts : List MachineCode}
    (hsts : ∀ st ∈ sts, st.WellFormed)
    (hparts : List.Forall₂ (fun st part => st.encode scope = .ok part) sts parts) :
    List.Forall₂ (EmitsAs scope) sts parts := by
  induction hparts with
  | nil => exact .nil
  | cons hpart _ ih =>
    obtain ⟨hst, hsts⟩ := List.forall_mem_cons.mp hsts
    exact .cons (emitsAs_of_encode hst hpart) (ih hsts)

end Statement

/-! ## Programs -/

/-- No error of assembling statements that fit is about the kind of an operand: a name is
repeated or a leaf has no value. -/
theorem Module.ofStatements_ne_misplacedOperand {sts : List Statement}
    (hfit : ∀ st ∈ sts, st.Fits) (origin : Word) (kind : Kind) :
    ofStatements origin sts ≠ .error (.misplacedOperand kind) := by
  intro herror
  by_cases h : (Statement.boundNames sts).Nodup
  · obtain ⟨-, leaf, -, -, hleaf, -⟩ := (ofStatements_eq_error_iff hfit h).mp herror
    exact nomatch hleaf
  · obtain ⟨name, hname⟩ := Statement.exists_repeats h
    rw [ofStatements_of_repeats hname] at herror
    exact nomatch herror

theorem Program.wellFormed_of_parse {source : String} {placed : List Placed}
    (h : parse source = .ok placed) : ∀ x ∈ placed, x.statement.WellFormed :=
  forall_of_statementsFrom Grammar.yields_wellFormed h nofun

namespace Module

/-- No error of a source text is about the kind of an operand. -/
theorem assemble_ne_misplacedOperand (source : String) (origin : Word) (kind : Kind) :
    assemble source origin ≠ .error (.misplacedOperand kind) := by
  intro herror
  rw [assemble] at herror
  cases hparse : Program.parse source with
  | error e =>
    rw [hparse] at herror
    obtain rfl : e = .misplacedOperand kind := Except.error.inj herror
    exact Program.isSyntactic_of_statementsFrom hparse
  | ok placed =>
    rw [hparse] at herror
    have hfit : ∀ st ∈ placed.map Placed.statement, st.Fits :=
      List.forall_mem_map.mpr (Program.fits_of_parse hparse)
    exact ofStatements_ne_misplacedOperand hfit origin kind herror

/-- **What is read can be encoded.**  Every statement that parsing answers is well formed: the
operands of an instruction are as many as the kinds of its format and fit them one by one,
registers are below twelve, values are trees without parentheses or brackets, and the digits of
an address stand alone in the position of an address; a move through a pointer never points with
`acc`; names and digits are such.  So no operand is ever refused for its kind; the code of a
module has a piece for each operand of each instruction, in its position, and none is dropped;
and no chain, folded by reduction, ever lacks an operator or an operand. -/
theorem encodable (source : String) :
    (∀ placed, Program.parse source = .ok placed →
      ∀ x ∈ placed, x.statement.WellFormed ∧
        ∀ opcode operands, x.statement = .instruction opcode operands →
          operands.length = opcode.format.operands.length) ∧
    (∀ (origin : Word) (kind : Kind), assemble source origin ≠ .error (.misplacedOperand kind)) ∧
    (∀ (origin : Word) (module : Module), assemble source origin = .ok module →
      ∃ placed parts, Program.parse source = .ok placed ∧ module.code = parts.flatten ∧
        List.Forall₂ (Statement.EmitsAs module.scope) (placed.map Placed.statement) parts) ∧
    ∀ c : Chain, Expr.reduceAll c.operands c.operators = some c.fold := by
  refine ⟨fun placed hparse x hx => ?_, assemble_ne_misplacedOperand source,
    fun origin module hmodule => ?_, Chain.reduceAll_eq_fold⟩
  · have hwell := Program.wellFormed_of_parse hparse x hx
    refine ⟨hwell, fun opcode operands hst => ?_⟩
    rw [hst] at hwell
    exact hwell.1.length_eq.symm
  · obtain ⟨placed, hparse, -, -, hencode⟩ := exists_of_assemble hmodule
    obtain ⟨parts, hparts, hcode⟩ := Statement.exists_parts_of_encodeAll hencode
    have hwell := List.forall_mem_map.mpr (Program.wellFormed_of_parse hparse)
    exact ⟨placed, parts, hparse, hcode, Statement.forall₂_emitsAs hwell hparts⟩

/-- One operand of each kind: a bracket with a parenthesis for a byte, an address by its digits,
and `&acc`, which is the address `0ACC` where a pointer could stand. -/
def eachKind : String :=
  "mov8 [($2 + !k) * $3], &FACE\nmov $1, &R3, acc\nmov &acc, r1\nconstant k = $5\n"

/-- All of them are encoded, in as many bytes as their kinds take. -/
theorem encodable_eachKind :
    ∃ placed module, Program.parse eachKind = .ok placed ∧
      assemble eachKind 0x8000 = .ok module ∧
      (∀ x ∈ placed, x.statement.WellFormed) ∧
      module.code = [0x19, 21, 0xFA, 0xCE, 0x16, 0, 1, 4, 1, 0x13, 0x0A, 0xCC, 2] ∧
      ∃ parts, module.code = parts.flatten ∧
        List.Forall₂ (Statement.EmitsAs module.scope) (placed.map Placed.statement) parts := by
  obtain ⟨hwell, -, hcode, -⟩ := encodable eachKind
  have hmodule : assemble eachKind 0x8000 =
      .ok ⟨[0x19, 21, 0xFA, 0xCE, 0x16, 0, 1, 4, 1, 0x13, 0x0A, 0xCC, 2],
        ⟨[.symbol "k" (.value 5)]⟩, [], 0x8000⟩ := eq_ok_of_toOption (by decide +kernel)
  obtain ⟨placed, parts, hparse, hparts, hemits⟩ := hcode _ _ hmodule
  exact ⟨placed, _, hparse, hmodule, fun x hx => (hwell _ hparse x hx).1, rfl, parts, hparts,
    hemits⟩

end Module
end WordMachine
