import Mathlib.Data.List.Forall2
import WordMachine.Grammar.Program

/-!
# The grammar answers operands that fit

Encoding takes the operands of an instruction together with the kinds of its format, one
by one.  That every kind has its operand, and every operand its kind, is not seen from the
type of a statement: an instruction can be built by hand with any operands.  The grammar
builds only instructions whose operands fit, and this is where that is proved.

* `Rule.Yields`: everything a rule answers has a property, with the laws of the
  combinators.
* `Operand.Fits`, `Statement.Fits`: an operand fits its position, the operands of a
  statement fit the format of its instruction.
* `Grammar.yields_statement`: the rule for statements answers statements that fit.
* `Program.fits_of_parse`: so do whole programs.
-/

namespace WordMachine

namespace Rule

variable {α β : Type}

/-- Everything that the rule answers satisfies `Q`, whatever the text ahead. -/
def Yields (p : Rule α) (Q : α → Prop) : Prop := ∀ s a n, p s = some (a, n) → Q a

theorem yields_pure {Q : α → Prop} {a : α} (h : Q a) : (pure a : Rule α).Yields Q := by
  intro s b n hb
  rw [pure_apply, Option.some.injEq, Prod.mk.injEq] at hb
  rw [← hb.1]
  exact h

/-- If a sequence succeeds, so do both of its rules, the second behind what the first has
read. -/
theorem exists_of_bind_eq_some {p : Rule α} {f : α → Rule β} {s : List Char} {b : β} {n : Nat}
    (h : (p >>= f) s = some (b, n)) :
    ∃ a k m, p s = some (a, k) ∧ f a (s.drop k) = some (b, m) ∧ n = k + m := by
  change Rule.bind p f s = some (b, n) at h
  unfold Rule.bind at h
  split at h
  · exact absurd h (by simp)
  · rename_i a k hp
    split at h
    · exact absurd h (by simp)
    · rename_i c m hf
      rw [Option.some.injEq, Prod.mk.injEq] at h
      obtain ⟨rfl, rfl⟩ := h
      exact ⟨a, k, m, hp, hf, rfl⟩

/-- What a sequence answers is answered by its second rule, behind an answer of the first. -/
theorem Yields.bind {p : Rule α} {f : α → Rule β} {P : α → Prop} {Q : β → Prop}
    (hp : p.Yields P) (hf : ∀ a, P a → (f a).Yields Q) : (p >>= f).Yields Q := by
  intro s b n h
  obtain ⟨a, k, m, hps, hfs, -⟩ := exists_of_bind_eq_some h
  exact hf a (hp s a k hps) _ b m hfs

/-- Of the first rule of a sequence nothing need be known. -/
theorem Yields.bind_right (p : Rule α) {f : α → Rule β} {Q : β → Prop}
    (hf : ∀ a, (f a).Yields Q) : (p >>= f).Yields Q :=
  Yields.bind (P := fun _ => True) (fun _ _ _ _ => trivial) fun a _ => hf a

theorem yields_firstOf {ps : List (Rule α)} {Q : α → Prop} (h : ∀ p ∈ ps, p.Yields Q) :
    (firstOf ps).Yields Q := by
  induction ps with
  | nil =>
    intro s a n hs
    exact absurd hs (by simp [firstOf, fail])
  | cons p ps ih =>
    intro s a n hs
    unfold firstOf at hs
    split at hs
    · rename_i r hp
      obtain rfl : r = (a, n) := Option.some.inj hs
      exact h p List.mem_cons_self s a n hp
    · exact ih (fun q hq => h q (List.mem_cons_of_mem p hq)) s a n hs

end Rule

/-- The operand fits a position of the given kind: a register's slot where the kind names a
register, a value elsewhere. -/
def Operand.Fits : Kind → Operand → Prop
  | .register, .register slot | .pointer, .register slot => slot.toNat < registerCount
  | .literal, .value _ | .literal8, .value _ | .address, .value _ => True
  | _, _ => False

/-- The operands of the statement fit the format of its instruction, one to one. -/
def Statement.Fits : Statement → Prop
  | .instruction opcode operands => List.Forall₂ Operand.Fits opcode.format.operands operands
  | .define _ _ _ => True

namespace Grammar

open Rule Lexeme

theorem yields_operand (kind : Kind) : (operand kind).Yields (Operand.Fits kind) := by
  cases kind with
  | literal => exact .bind_right _ fun e => yields_pure trivial
  | literal8 => exact .bind_right _ fun e => yields_pure trivial
  | address => exact .bind_right _ fun e => yields_pure trivial
  | register => exact .bind_right _ fun r => yields_pure (Register.slot_lt r)
  | pointer =>
    exact .bind_right _ fun _ => .bind_right _ fun r => yields_pure (Register.slot_lt r)

section Positions

variable {R : Kind → Operand → Prop}

/-- What is true of each operand is true of the operands behind commas, one by one. -/
theorem yields_moreOperands (hR : ∀ kind, (operand kind).Yields (R kind)) (kinds : List Kind) :
    (moreOperands kinds).Yields (List.Forall₂ R kinds) := by
  induction kinds with
  | nil => exact yields_pure List.Forall₂.nil
  | cons kind kinds ih =>
    refine .bind_right _ fun _ => (hR kind).bind fun a ha => ?_
    exact ih.bind fun rest hrest => yields_pure (List.Forall₂.cons ha hrest)

theorem yields_operands (hR : ∀ kind, (operand kind).Yields (R kind)) (kinds : List Kind) :
    (operands kinds).Yields (List.Forall₂ R kinds) := by
  cases kinds with
  | nil => exact yields_pure List.Forall₂.nil
  | cons kind kinds =>
    refine .bind_right _ fun _ => (hR kind).bind fun a ha => ?_
    exact (yields_moreOperands hR kinds).bind fun rest hrest =>
      yields_pure (List.Forall₂.cons ha hrest)

end Positions

theorem yields_form (opcode : Opcode) : (form opcode).Yields Statement.Fits :=
  (yields_operands yields_operand _).bind fun _ hargs => .bind_right _ fun _ => yields_pure hargs

theorem yields_instruction : instruction.Yields Statement.Fits := by
  refine .bind_right _ fun mnemonic => yields_firstOf fun p hp => ?_
  obtain ⟨opcode, -, rfl⟩ := List.mem_map.mp hp
  exact yields_form opcode

/-- Whatever statement is read, its operands fit. -/
theorem yields_statement : statement.Yields Statement.Fits := by
  apply yields_firstOf
  intro p hp
  simp only [List.mem_cons, List.not_mem_nil, or_false] at hp
  rcases hp with rfl | rfl | rfl | rfl | rfl
  -- constant, data, struct and label define a name, and a definition has no operands
  · exact .bind_right _ fun _ => .bind_right _ fun _ => .bind_right _ fun _ =>
      .bind_right _ fun _ => .bind_right _ fun _ => yields_pure trivial
  · exact .bind_right _ fun _ => .bind_right _ fun _ => .bind_right _ fun _ =>
      .bind_right _ fun _ => .bind_right _ fun _ => yields_pure trivial
  · exact .bind_right _ fun _ => .bind_right _ fun _ => .bind_right _ fun _ =>
      .bind_right _ fun _ => .bind_right _ fun _ => yields_pure trivial
  · exact .bind_right _ fun _ => .bind_right _ fun _ => .bind_right _ fun _ =>
      yields_pure trivial
  · exact yields_instruction

end Grammar

namespace Program

/-- What every statement that is read satisfies, every statement of a program satisfies. -/
theorem forall_of_statementsFrom {Q : Statement → Prop} (hQ : Grammar.statement.Yields Q)
    {acc placed : List Placed} {p : Position} {s : List Char}
    (h : statementsFrom acc p s = .ok placed) (hacc : ∀ x ∈ acc, Q x.statement) :
    ∀ x ∈ placed, Q x.statement := by
  induction hn : s.length using Nat.strongRecOn generalizing acc p s with
  | ind n ih =>
    subst hn
    rw [statementsFrom] at h
    split at h
    · obtain rfl := Except.ok.inj h
      intro x hx
      exact hacc x (List.mem_reverse.mp hx)
    · rename_i c rest hdrop
      split at h
      · exact absurd h (by simp)
      · rename_i st k hst
        have hk : 0 < k := Grammar.statement_pos hst
        have hlen : rest.length + 1 ≤ s.length := by
          have := List.length_drop (i := Lexeme.gapLength s) (l := s)
          rw [hdrop, List.length_cons] at this
          omega
        refine ih _ ?_ h ?_ rfl
        · rw [List.length_drop, List.length_cons]
          omega
        · intro x hx
          rcases List.mem_cons.mp hx with rfl | hx
          · exact hQ _ st k hst
          · exact hacc x hx

/-- The operands of every instruction of a program fit its format. -/
theorem fits_of_parse {source : String} {placed : List Placed}
    (h : parse source = .ok placed) : ∀ x ∈ placed, x.statement.Fits :=
  forall_of_statementsFrom Grammar.yields_statement h fun _ hx => absurd hx List.not_mem_nil

end Program
end WordMachine
