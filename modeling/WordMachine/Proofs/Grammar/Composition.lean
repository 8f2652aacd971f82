import WordMachine.Proofs.Grammar.Gap
import WordMachine.Proofs.Grammar.Loop
import WordMachine.Proofs.Grammar.SteadyStatement

/-!
# Programs behind one another

If a text is a program, then with a break of line and another text behind it, the loop over the
statements comes to the other text.  It has then the statements of the program, and it stands on
the first column of the line behind the program, whatever the program ends with
(`Program.statementsFrom_append_break`): behind the last statement there are only blanks, and
perhaps a comment that the break ends.  What is answered from there is what is answered for the
other text alone, further down.

* `Program.statementsFrom_append_break`: the loop in front of a break and more text.
* `Program.parse_append_break`: the statements, or the error, of two texts with a break between.
* `Program.Continues`: what is answered behind other statements and further down.
* `Program.composes`: so is what follows a program, with blank text between or without.
-/

namespace WordMachine

open Lexeme

namespace Position

theorem advance_take_drop (p : Position) (n : Nat) (s : List Char) :
    (p.advance (s.take n)).advance (s.drop n) = p.advance s := by
  rw [← advance_append, List.take_append_drop]

/-- Behind a break of line, the place is the first column of some line. -/
theorem advance_break (p : Position) (s : List Char) :
    p.advance (s ++ ['\n']) = ⟨p.line + (s.count '\n' + 1), 1⟩ := by
  induction s generalizing p with
  | nil => rfl
  | cons c s ih =>
    rw [List.cons_append]
    show (p.step c).advance (s ++ ['\n']) = _
    rw [ih, List.count_cons, step]
    by_cases hc : c = '\n'
    · rw [if_pos hc, if_pos (beq_iff_eq.mpr hc)]
      dsimp only
      rw [Nat.add_assoc, Nat.add_comm 1]
    · rw [if_neg hc, if_neg (by rwa [beq_iff_eq])]

end Position

namespace Program

variable {acc : List Placed} {p p' : Position} {s s' : List Char}

/-- The loop looks at what is behind the blanks and comments, and at the place of that. -/
theorem statementsFrom_congr (acc : List Placed)
    (hs : s.drop (gapLength s) = s'.drop (gapLength s'))
    (hp : p.advance (s.take (gapLength s)) = p'.advance (s'.take (gapLength s'))) :
    statementsFrom acc p s = statementsFrom acc p' s' := by
  by_cases hnil : s.drop (gapLength s) = []
  · rw [statementsFrom_of_blank _ _ hnil, statementsFrom_of_blank _ _ (hs ▸ hnil)]
  · cases hst : Grammar.statement (s.drop (gapLength s)) with
    | none =>
      rw [statementsFrom_of_none _ _ hnil hst,
        statementsFrom_of_none _ _ (hs ▸ hnil) (hs ▸ hst), hs, hp]
    | some r =>
      have hst' : Grammar.statement (s'.drop (gapLength s')) = some (r.1, r.2) := hs ▸ hst
      rw [statementsFrom_of_some acc p hst, statementsFrom_of_some acc p' hst', hs, hp]

/-- Blanks and comments in front of a break move the place, and nothing else. -/
theorem statementsFrom_append_of_blank (acc : List Placed) (p : Position)
    (h : s.drop (gapLength s) = []) (t : List Char) :
    statementsFrom acc p (s ++ '\n' :: t) = statementsFrom acc (p.advance (s ++ ['\n'])) t := by
  have hgap := gapLength_append_of_le (List.drop_eq_nil_iff.mp h) t
  have hsplit : s ++ '\n' :: t = (s ++ ['\n']) ++ t := List.append_cons s '\n' t
  have hlength : s.length + 1 = (s ++ ['\n']).length := by
    rw [List.length_append, List.length_singleton]
  refine statementsFrom_congr acc ?_ ?_
  · rw [hgap, hsplit, hlength, ← List.drop_drop, List.drop_left]
  · rw [hgap, hsplit, hlength, List.take_length_add_append, Position.advance_append]

/-- Behind a program and a break, the loop goes on with what follows. -/
theorem statementsFrom_append_break {placed : List Placed}
    (h : statementsFrom acc p s = .ok placed) (t : List Char) :
    statementsFrom acc p (s ++ '\n' :: t) =
      statementsFrom placed.reverse (p.advance (s ++ ['\n'])) t := by
  induction s using turn_induction generalizing acc p with
  | blank s hs =>
    rw [statementsFrom_of_blank _ _ hs] at h
    obtain rfl := Except.ok.inj h
    rw [List.reverse_reverse, statementsFrom_append_of_blank acc p hs]
  | none s hne hs =>
    rw [statementsFrom_of_none _ _ hne hs] at h
    exact nomatch h
  | some s st n hs ih =>
    rw [statementsFrom_of_some _ _ hs] at h
    have hne : s.drop (gapLength s) ≠ [] := by
      intro hnil
      rw [hnil] at hs
      exact nomatch hs
    have hlt := Rule.lt_length_of_drop_ne_nil hne
    have hsteady := Grammar.steady_statement (hs ▸ Option.some_ne_none _)
    have hrest : (s ++ '\n' :: t).drop (gapLength (s ++ '\n' :: t)) =
        s.drop (gapLength s) ++ '\n' :: t := by
      rw [gapLength_append_of_lt hlt, List.drop_append_of_le_length (Nat.le_of_lt hlt)]
    rw [statementsFrom_of_some _ _ (hrest ▸ (hsteady.same t).trans hs), hrest,
      gapLength_append_of_lt hlt, List.take_append_of_le_length (Nat.le_of_lt hlt),
      List.take_append_of_le_length (hsteady.le_length st n hs),
      List.drop_append_of_le_length (hsteady.le_length st n hs), ih h]
    rw [Position.advance_append, Position.advance_take_drop, Position.advance_take_drop,
      ← Position.advance_append]

/-- Of two texts with a break between them, if the first is a program, the statements are those of
both, and the error is that of the second, further down. -/
theorem parse_append_break {a : String} {placed : List Placed} (h : parse a = .ok placed)
    (b : String) :
    parse (a ++ "\n" ++ b) =
      (answerDown (a.toList.count '\n' + 1) (parse b)).map (placed ++ ·) := by
  have hbreak : (a ++ "\n" ++ b).toList = a.toList ++ '\n' :: b.toList := by
    simp
  have hplace : Position.start.advance (a.toList ++ ['\n']) =
      Position.start.down (a.toList.count '\n' + 1) :=
    Position.advance_break _ _
  have happend := statementsFrom_append [] placed.reverse
  rw [parse, hbreak, statementsFrom_append_break h, hplace, ← List.nil_append placed.reverse,
    happend, List.reverse_reverse]
  exact congrArg (Except.map _) (statementsFrom_down _ [] .start b.toList)

/-! ## Texts that follow one another -/

/-- The number of lines that the text takes if a break ends the last of them. -/
def linesOf (text : String) : Nat := text.toList.count '\n' + 1

/-- What is answered behind some statements and some lines further down: behind the statements
the same ones, with their lines moved, or the same error, with its line moved. -/
structure Continues (before : List Placed) (d : Nat)
    (alone joined : Except AssemblyError (List Placed)) : Prop where
  statements : ∀ placed, alone = .ok placed → joined = .ok (before ++ placed.map (Placed.down d))
  /-- Errors of reading have a line, and nothing else of them is moved. -/
  error : ∀ e, alone = .error e → joined = .error (e.down d) ∧ e.IsSyntactic

theorem continues_answerDown (before : List Placed) (d : Nat) (b : String) :
    Continues before d (parse b) ((answerDown d (parse b)).map (before ++ ·)) where
  statements placed h := by
    rw [h]
    rfl
  error e h := by
    refine ⟨?_, isSyntactic_of_statementsFrom h⟩
    rw [h]
    rfl

theorem Continues.trans {before between : List Placed} {d k : Nat}
    {alone joined all : Except AssemblyError (List Placed)} (h : Continues between k alone joined)
    (h' : Continues before d joined all) :
    Continues (before ++ between.map (Placed.down d)) (k + d) alone all where
  statements placed hplaced := by
    have hmoved : Placed.down d ∘ Placed.down k = Placed.down (k + d) :=
      funext (Placed.down_down d k)
    rw [h'.statements _ (h.statements placed hplaced), List.map_append, List.map_map, hmoved,
      List.append_assoc]
  error e he := by
    obtain ⟨hjoined, hsyntactic⟩ := h.error e he
    refine ⟨?_, hsyntactic⟩
    rw [(h'.error _ hjoined).1, AssemblyError.down_down]

/-- A program is continued by what is behind it and a break. -/
theorem continues_of_parse {a : String} {before : List Placed} (h : parse a = .ok before)
    (b : String) : Continues before (linesOf a) (parse b) (parse (a ++ "\n" ++ b)) := by
  rw [parse_append_break h b]
  exact continues_answerDown before (linesOf a) b

/-- A blank text is a program without statements. -/
theorem parse_of_isBlank {text : String} (h : IsBlank text.toList) : parse text = .ok [] :=
  statementsFrom_of_blank [] .start (isBlank_iff.mp h)

/-- **Parsing is compositional.**  Behind a program and a break a text is read as it is read
alone: its statements follow those of the program, or its error is the error, and all lines are
moved by as many as the program takes.  No statement of the program is read in another way because
more follows.  A blank text between the two, of comments and blanks, counts with its lines only. -/
theorem composes {a : String} {before : List Placed} (h : parse a = .ok before) (b : String) :
    Continues before (linesOf a) (parse b) (parse (a ++ "\n" ++ b)) ∧
    ∀ between : String, IsBlank between.toList →
      Continues before (linesOf between + linesOf a) (parse b)
        (parse (a ++ "\n" ++ (between ++ "\n" ++ b))) := by
  refine ⟨continues_of_parse h b, fun between hblank => ?_⟩
  have hjoined := (continues_of_parse (parse_of_isBlank hblank) b).trans
    (continues_of_parse h (between ++ "\n" ++ b))
  rwa [List.map_nil, List.append_nil] at hjoined

/-- A program that ends in an open comment, and a text with an error. -/
def openEnded : String × String := ("psh $1 ;; no break", "x:\n  [é] ? \nhlt")

/-- Behind the program, and behind a comment and blanks, the error is on line 4 instead of 2, in
the same column and with the same text. -/
theorem composes_openEnded :
    parse openEnded.1 = .ok [⟨1, .instruction .pshLit [.value (.hex "1")]⟩] ∧
      parse openEnded.2 = .error (.unexpected 2 3 "[é] ?") ∧
      parse (openEnded.1 ++ "\n" ++ openEnded.2) = .error (.unexpected 3 3 "[é] ?") ∧
      IsBlank ";; more\t".toList ∧
      parse (openEnded.1 ++ "\n" ++ (";; more\t" ++ "\n" ++ openEnded.2)) =
        .error (.unexpected 4 3 "[é] ?") := by
  have hparse : parse openEnded.1 = .ok [⟨1, .instruction .pshLit [.value (.hex "1")]⟩] :=
    by decide +kernel
  have herror : parse openEnded.2 = .error (.unexpected 2 3 "[é] ?") := by decide +kernel
  have hblank : IsBlank ";; more\t".toList := isBlank_iff.mpr (by decide)
  obtain ⟨hjoined, hbetween⟩ := composes hparse openEnded.2
  exact ⟨hparse, herror, (hjoined.error _ herror).1, hblank,
    ((hbetween _ hblank).error _ herror).1⟩

end Program
end WordMachine
