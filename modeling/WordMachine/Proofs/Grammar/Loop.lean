import WordMachine.Grammar.Program

/-!
# The loop over statements

Reading a program is a loop that carries along the statements it has read and the place it has
come to.  It looks at neither.  The statements in front of those it reads are statements in
front of those it answers (`Program.statementsFrom_append`), and if the place is some lines
further down, so are the lines that are answered, be it with the statements or with the error
(`Program.statementsFrom_down`).

* `Program.statementsFrom_of_blank`, `Program.statementsFrom_of_none`,
  `Program.statementsFrom_of_some`: one turn of the loop.
* `AssemblyError.IsSyntactic`: all errors of the loop are of one sort, and no other part of
  assembling has errors of that sort.
-/

namespace WordMachine

open Lexeme

/-- The error is one of reading, and not of what has been read. -/
def AssemblyError.IsSyntactic : AssemblyError → Prop
  | .unexpected _ _ _ | .unknownInstruction _ _ => True
  | _ => False

/-! ## Further down -/

/-- The place some lines further down. -/
def Position.down (d : Nat) (p : Position) : Position := ⟨p.line + d, p.column⟩

/-- The statement, some lines further down. -/
def Placed.down (d : Nat) (x : Placed) : Placed := ⟨x.line + d, x.statement⟩

/-- The error for the same text some lines further down. -/
def AssemblyError.down (d : Nat) : AssemblyError → AssemblyError
  | .unexpected line column found => .unexpected (line + d) column found
  | .unknownInstruction line mnemonic => .unknownInstruction (line + d) mnemonic
  | e => e

theorem Placed.down_down (d k : Nat) (x : Placed) : (x.down k).down d = x.down (k + d) :=
  congrArg (Placed.mk · x.statement) (Nat.add_assoc x.line k d)

theorem AssemblyError.down_down (d k : Nat) (e : AssemblyError) :
    (e.down k).down d = e.down (k + d) := by
  cases e with
  | unexpected line column found =>
    exact congrArg (AssemblyError.unexpected · column found) (Nat.add_assoc line k d)
  | unknownInstruction line name =>
    exact congrArg (AssemblyError.unknownInstruction · name) (Nat.add_assoc line k d)
  | _ => rfl

namespace Position

theorem step_down (d : Nat) (p : Position) (c : Char) :
    (p.down d).step c = (p.step c).down d := by
  simp only [step, down]
  split
  · rw [Nat.add_right_comm]
  · rfl

theorem advance_down (d : Nat) (p : Position) (s : List Char) :
    (p.down d).advance s = (p.advance s).down d := by
  induction s generalizing p with
  | nil => rfl
  | cons c s ih =>
    show ((p.down d).step c).advance s = ((p.step c).advance s).down d
    rw [step_down, ih]

end Position

namespace Program

/-- What the loop answers for the same text some lines further down. -/
def answerDown (d : Nat) : Except AssemblyError (List Placed) → Except AssemblyError (List Placed)
  | .ok placed => .ok (placed.map (Placed.down d))
  | .error e => .error (e.down d)

theorem failure_down (d : Nat) (p : Position) (s : List Char) :
    failure (p.down d) s = (failure p s).down d := by
  simp only [failure]
  split
  · split <;> rfl
  · rfl

theorem isSyntactic_failure (p : Position) (s : List Char) : (failure p s).IsSyntactic := by
  simp only [failure]
  split
  · split <;> trivial
  · trivial

/-! ## One turn -/

section Turn

variable (acc : List Placed) (p : Position) {s : List Char}

/-- Behind the last statement there is nothing but blanks and comments. -/
theorem statementsFrom_of_blank (h : s.drop (gapLength s) = []) :
    statementsFrom acc p s = .ok acc.reverse := by
  rw [statementsFrom]
  split
  · rfl
  · rename_i hcons
    rw [h] at hcons
    cases hcons

/-- Where no statement can be read, the loop ends. -/
theorem statementsFrom_of_none (hne : s.drop (gapLength s) ≠ [])
    (h : Grammar.statement (s.drop (gapLength s)) = none) :
    statementsFrom acc p s =
      .error (failure (p.advance (s.take (gapLength s))) (s.drop (gapLength s))) := by
  rw [statementsFrom]
  split
  · rename_i hnil
    exact absurd hnil hne
  · rename_i c rest hcons
    split
    · rw [hcons]
    · rename_i st n hsome
      rw [← hcons, h] at hsome
      cases hsome

/-- Behind a statement, the loop goes on. -/
theorem statementsFrom_of_some {st : Statement} {n : Nat}
    (h : Grammar.statement (s.drop (gapLength s)) = some (st, n)) :
    statementsFrom acc p s =
      statementsFrom (⟨(p.advance (s.take (gapLength s))).line, st⟩ :: acc)
        ((p.advance (s.take (gapLength s))).advance ((s.drop (gapLength s)).take n))
        ((s.drop (gapLength s)).drop n) := by
  have hne : s.drop (gapLength s) ≠ [] := by
    intro hnil
    rw [hnil] at h
    cases h
  rw [statementsFrom]
  split
  · rename_i hnil
    exact absurd hnil hne
  · rename_i c rest hcons
    split
    · rename_i hnone
      rw [← hcons, h] at hnone
      cases hnone
    · rename_i st' n' hsome
      rw [← hcons, h] at hsome
      obtain ⟨rfl, rfl⟩ := Prod.mk.inj (Option.some.inj hsome)
      rw [hcons]

/-- What holds of a text that is blank, of one where no statement can be read, and of one with a
statement if it holds behind that statement, holds of every text. -/
theorem turn_induction {motive : List Char → Prop}
    (blank : ∀ s, s.drop (gapLength s) = [] → motive s)
    (none : ∀ s, s.drop (gapLength s) ≠ [] →
      Grammar.statement (s.drop (gapLength s)) = none → motive s)
    (some : ∀ s st n, Grammar.statement (s.drop (gapLength s)) = some (st, n) →
      motive ((s.drop (gapLength s)).drop n) → motive s) (s : List Char) : motive s := by
  induction hlen : s.length using Nat.strongRecOn generalizing s with
  | ind k ih =>
    subst hlen
    by_cases hnil : s.drop (gapLength s) = []
    · exact blank s hnil
    · cases hst : Grammar.statement (s.drop (gapLength s)) with
      | none => exact none s hnil hst
      | some r =>
        refine some s r.1 r.2 hst (ih _ ?_ _ rfl)
        have hpos : 0 < r.2 := Grammar.statement_pos hst
        have hlt := Rule.length_drop_lt ⟨hpos, hnil⟩
        have hle : (s.drop (gapLength s)).length ≤ s.length := by
          rw [List.length_drop]
          exact Nat.sub_le _ _
        exact Nat.lt_of_lt_of_le hlt hle

end Turn

/-! ## What the loop does not look at -/

/-- Statements in front of those that are read are in front of those that are answered. -/
theorem statementsFrom_append (xs ys : List Placed) (p : Position) (s : List Char) :
    statementsFrom (xs ++ ys) p s = (statementsFrom xs p s).map (ys.reverse ++ ·) := by
  induction s using turn_induction generalizing xs p with
  | blank s h =>
    rw [statementsFrom_of_blank _ _ h, statementsFrom_of_blank _ _ h, List.reverse_append]
    rfl
  | none s hne h =>
    rw [statementsFrom_of_none _ _ hne h, statementsFrom_of_none _ _ hne h]
    rfl
  | some s st n h ih =>
    rw [statementsFrom_of_some _ _ h, statementsFrom_of_some _ _ h, ← List.cons_append, ih]

/-- From further down, the loop answers the same, further down. -/
theorem statementsFrom_down (d : Nat) (acc : List Placed) (p : Position) (s : List Char) :
    statementsFrom (acc.map (Placed.down d)) (p.down d) s =
      answerDown d (statementsFrom acc p s) := by
  induction s using turn_induction generalizing acc p with
  | blank s h =>
    rw [statementsFrom_of_blank _ _ h, statementsFrom_of_blank _ _ h, answerDown,
      List.map_reverse]
  | none s hne h =>
    rw [statementsFrom_of_none _ _ hne h, statementsFrom_of_none _ _ hne h,
      Position.advance_down, failure_down, answerDown]
  | some s st n h ih =>
    rw [statementsFrom_of_some _ _ h, statementsFrom_of_some _ _ h, ← ih,
      Position.advance_down, Position.advance_down]
    rfl

theorem isSyntactic_of_statementsFrom {acc : List Placed} {p : Position} {s : List Char}
    {e : AssemblyError} (h : statementsFrom acc p s = .error e) : e.IsSyntactic := by
  induction s using turn_induction generalizing acc p with
  | blank s hblank =>
    rw [statementsFrom_of_blank _ _ hblank] at h
    exact nomatch h
  | none s hne hnone =>
    rw [statementsFrom_of_none _ _ hne hnone] at h
    obtain rfl := Except.error.inj h
    exact isSyntactic_failure _ _
  | some s st n hst ih =>
    rw [statementsFrom_of_some _ _ hst] at h
    exact ih h

end Program
end WordMachine
