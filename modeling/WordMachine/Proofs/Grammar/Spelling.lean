import WordMachine.Proofs.Grammar.Gap
import WordMachine.Proofs.Grammar.SteadyStatement

/-!
# How a text that was read is spelled

That a rule reads a piece of text is known so far where the piece is: a name, or digits, or what a
printer writes.  Here it is the piece that is unknown.  If a rule has read it, how is it spelled?
The laws of the combinators answer that, the other way round and without conditions: of a sequence,
each rule has read a piece of its own, and of a repetition, the first turn has read the front piece
and the repetition what is behind it.

Both directions together say which texts a rule reads (`Rule.SpelledBy`).  As before, a rule that
reads as far as it can asks for a condition on what follows, and it is always that no character of
some kind goes on; in a sequence, the text of the second rule has to meet the condition of the
first.

Gaps are not of this form.  A blank text may end within a comment, and as a gap it does so only at
the end of the text, since in front of more text the comment would go on.  The gaps in front of
more text are the blank texts in which each comment has its end of line (`Lexeme.IsClosedBlank`),
and each of these is a gap where no gap goes on.

* `Rule.reads_bind_iff`, `Rule.Reads.of_many`, `Rule.Reads.of_sepBy`: pieces of a sequence and of
  a repetition.
* `Rule.SpelledBy`, with the laws of sequences: which texts a rule reads.
* `Lexeme.spelledBy_identifier`, `Lexeme.spelledBy_hexLiteral`: names and literals.
* `Lexeme.IsClosedBlank`, `Lexeme.isClosedBlank_of_gap`, `Lexeme.reads_gap_of_isClosedBlank`: gaps.
-/

namespace WordMachine

namespace Rule

variable {α β : Type} {s rest : List Char}

/-! ## Sequences and alternatives -/

theorem reads_pure_iff {a b : α} : (pure a : Rule α).Reads s b rest ↔ s = [] ∧ b = a := by
  rw [Reads, pure_apply, Option.some.injEq, Prod.mk.injEq, eq_comm, and_comm, eq_comm,
    List.length_eq_zero_iff]

/-- What a rule reads within a piece of text is the front of that piece. -/
theorem reads_take {p : Rule α} {a : α} {n : Nat} (h : p (s ++ rest) = some (a, n))
    (hn : n ≤ s.length) : p.Reads (s.take n) a (s.drop n ++ rest) := by
  rw [Reads, ← List.append_assoc, List.take_append_drop, List.length_take_of_le hn, h]

/-- Of a sequence, each rule has read a piece. -/
theorem reads_bind_iff {p : Rule α} {f : α → Rule β} {b : β} :
    (p >>= f).Reads s b rest ↔
      ∃ a t u, s = t ++ u ∧ p.Reads t a (u ++ rest) ∧ (f a).Reads u b rest := by
  constructor
  · intro h
    obtain ⟨a, k, m, hp, hf, hlength⟩ := exists_of_bind_eq_some h
    have hle : k ≤ s.length := by omega
    refine ⟨a, s.take k, s.drop k, (List.take_append_drop k s).symm, reads_take hp hle, ?_⟩
    rw [Reads, ← List.drop_append_of_le_length hle, hf, List.length_drop, hlength,
      Nat.add_sub_cancel_left]
  · rintro ⟨a, t, u, rfl, hp, hf⟩
    exact hp.bind hf

/-- A rule of which only the value is changed has read the whole piece. -/
theorem reads_map_iff {p : Rule α} {g : α → β} {b : β} :
    (p >>= fun a => pure (g a)).Reads s b rest ↔ ∃ a, b = g a ∧ p.Reads s a rest := by
  rw [reads_bind_iff]
  constructor
  · rintro ⟨a, t, u, rfl, hp, hpure⟩
    obtain ⟨rfl, rfl⟩ := reads_pure_iff.mp hpure
    rw [List.nil_append] at hp
    exact ⟨a, rfl, hp.congr (List.append_nil t)⟩
  · rintro ⟨a, rfl, hp⟩
    exact ⟨a, s, [], (List.append_nil s).symm, hp, reads_pure (g a) rest⟩

theorem Reads.of_char {c : Char} {u : Unit} (h : (char c).Reads s u rest) : s = [c] := by
  obtain ⟨t, hcons, hlength⟩ := exists_of_char h
  obtain ⟨d, rfl⟩ := List.length_eq_one_iff.mp hlength
  rw [(List.cons_eq_cons.mp hcons).1]

theorem Reads.of_literal {cs : List Char} {u : Unit} (h : (literal cs).Reads s u rest) :
    s = cs := by
  rw [Reads, literal] at h
  split at h
  · rename_i hprefix
    obtain ⟨t, ht⟩ := List.isPrefixOf_iff_prefix.mp hprefix
    exact (List.append_inj_left ht (Prod.mk.inj (Option.some.inj h)).2).symm
  · exact absurd h.symm (Option.some_ne_none _)

theorem reads_optional_iff {p : Rule α} {o : Option α} :
    (optional p).Reads s o rest ↔
      (∃ a, o = some a ∧ p.Reads s a rest) ∨ o = none ∧ s = [] ∧ p rest = none := by
  constructor
  · intro h
    rw [Reads, optional] at h
    split at h
    · rename_i a n hp
      obtain ⟨rfl, rfl⟩ := Prod.mk.inj (Option.some.inj h)
      exact .inl ⟨a, rfl, hp⟩
    · rename_i hp
      obtain ⟨rfl, hlength⟩ := Prod.mk.inj (Option.some.inj h)
      obtain rfl := List.length_eq_zero_iff.mp hlength.symm
      exact .inr ⟨rfl, rfl, hp⟩
  · rintro (⟨a, rfl, hp⟩ | ⟨rfl, rfl, hp⟩)
    · exact reads_optional_some hp
    · exact reads_optional_none hp

/-! ## Characters of a kind -/

variable {p : Char → Bool} {read : List Char}

/-- All that a rule takes while it finds characters of one kind is what was found. -/
theorem eq_of_takeWhile (h : ((s ++ rest).takeWhile p).length = s.length) :
    (s ++ rest).takeWhile p = s := by
  rw [List.prefix_iff_eq_take.mp (List.takeWhile_prefix p), h, List.take_left]

theorem Reads.of_while0 (h : (while0 p).Reads s read rest) : s.all p = true := by
  obtain ⟨-, hlength⟩ := Prod.mk.inj (Option.some.inj h)
  rw [← eq_of_takeWhile hlength]
  exact List.all_takeWhile

theorem Reads.of_while1 (h : (while1 p).Reads s read rest) : s ≠ [] ∧ s.all p = true := by
  rw [Reads, while1] at h
  split at h
  · exact absurd h.symm (Option.some_ne_none _)
  · rename_i hne
    obtain ⟨-, hlength⟩ := Prod.mk.inj (Option.some.inj h)
    have htaken := eq_of_takeWhile hlength
    rw [htaken, List.isEmpty_iff] at hne
    exact ⟨hne, htaken ▸ List.all_takeWhile⟩

/-! ## Repetition -/

/-- Behind a front piece that was read, a repetition reads the rest of the piece. -/
theorem reads_many_drop {p : Rule α} {n : Nat}
    (h : n + (manyFrom p [] 0 ((s ++ rest).drop n)).2 = s.length) :
    (many p).Reads (s.drop n) (manyFrom p [] 0 ((s ++ rest).drop n)).1 rest := by
  have hdrop : (s ++ rest).drop n = s.drop n ++ rest :=
    List.drop_append_of_le_length (by omega)
  rw [hdrop] at h ⊢
  rw [Reads, many, List.length_drop, ← h, Nat.add_sub_cancel_left]

/-- A repetition has read nothing, or one turn and a repetition. -/
theorem Reads.of_many {p : Rule α} {as : List α} (h : (many p).Reads s as rest) :
    s = [] ∧ as = [] ∨ ∃ a bs t u, as = a :: bs ∧ s = t ++ u ∧ p.Reads t a (u ++ rest) ∧
      (many p).Reads u bs rest := by
  have hmany : manyFrom p [] 0 (s ++ rest) = (as, s.length) := Option.some.inj h
  have hstop (hnil : manyFrom p [] 0 (s ++ rest) = ([], 0)) : s = [] ∧ as = [] := by
    obtain ⟨has, hlength⟩ := Prod.mk.inj (hmany.symm.trans hnil)
    exact ⟨List.length_eq_zero_iff.mp hlength, has⟩
  cases hs : p (s ++ rest) with
  | none => exact .inl (hstop (manyFrom_of_none hs))
  | some r =>
    by_cases hgo : 0 < r.2 ∧ s ++ rest ≠ []
    · rw [manyFrom_of_some hs hgo, Prod.mk.injEq] at hmany
      obtain ⟨rfl, hlength⟩ := hmany
      exact .inr ⟨r.1, _, s.take r.2, s.drop r.2, rfl, (List.take_append_drop _ s).symm,
        reads_take hs (by omega), reads_many_drop hlength⟩
    · refine .inl (hstop ?_)
      rw [manyFrom, hs]
      dsimp only
      rw [dif_neg hgo]
      rfl

/-- A list with separators is empty, or it begins with an item. -/
theorem Reads.of_sepBy {separator : Rule β} {item : Rule α} {as : List α}
    (h : (Rule.sepBy separator item).Reads s as rest) :
    s = [] ∧ as = [] ∨ ∃ a bs t u, as = a :: bs ∧ s = t ++ u ∧ item.Reads t a (u ++ rest) ∧
      (many (separator >>= fun _ => item)).Reads u bs rest := by
  cases hs : item (s ++ rest) with
  | none =>
    obtain ⟨rfl, hlength⟩ := Prod.mk.inj (Option.some.inj ((sepBy_of_none hs).symm.trans h))
    exact .inl ⟨List.length_eq_zero_iff.mp hlength.symm, rfl⟩
  | some r =>
    obtain ⟨rfl, hlength⟩ := Prod.mk.inj (Option.some.inj ((sepBy_of_some hs).symm.trans h))
    exact .inr ⟨r.1, _, s.take r.2, s.drop r.2, rfl, (List.take_append_drop _ s).symm,
      reads_take hs (by omega), reads_many_drop hlength⟩

/-! ## Spelling -/

/-- The texts of a value are what the rule reads in front of anything that does not go on with a
character of the given kind, and the rule reads nothing else. -/
structure SpelledBy (p : Rule α) (Text : List Char → α → Prop) (kind : Char → Bool) : Prop where
  text {s : List Char} {a : α} {rest : List Char} : p.Reads s a rest → Text s a
  reads {s : List Char} {a : α} {rest : List Char} :
    Text s a → Stops kind rest → p.Reads s a rest

/-- No text goes on with a character of no kind. -/
theorem stops_false (s : List Char) : Stops (fun _ => false) s := by
  cases s with
  | nil => trivial
  | cons c s => rfl

namespace SpelledBy

variable {q : Rule α} {P Q : List Char → α → Prop} {kind : Char → Bool}

theorem congr (h : q.SpelledBy P kind) (hPQ : ∀ s a, P s a ↔ Q s a) : q.SpelledBy Q kind where
  text hs := (hPQ _ _).mp (h.text hs)
  reads hs hrest := h.reads ((hPQ _ _).mpr hs) hrest

/-- The condition on what follows may be a stronger one. -/
theorem mono {kind' : Char → Bool} (h : q.SpelledBy P kind)
    (hkind : ∀ rest, Stops kind' rest → Stops kind rest) : q.SpelledBy P kind' where
  text hs := h.text hs
  reads hs hrest := h.reads hs (hkind _ hrest)

theorem map (h : q.SpelledBy P kind) (g : α → β) :
    (q >>= fun a => pure (g a)).SpelledBy (fun s b => ∃ a, b = g a ∧ P s a) kind where
  text hs := by
    obtain ⟨a, hb, ha⟩ := reads_map_iff.mp hs
    exact ⟨a, hb, h.text ha⟩
  reads := by
    rintro s b rest ⟨a, hb, ha⟩ hrest
    exact reads_map_iff.mpr ⟨a, hb, h.reads ha hrest⟩

/-- In a sequence, what the second rule reads has to stop the first. -/
theorem bind {f : α → Rule β} {R : α → List Char → β → Prop} {kind' : Char → Bool}
    (h : q.SpelledBy P kind) (hf : ∀ a, (f a).SpelledBy (R a) kind')
    (hstops : ∀ a u b, R a u b → ∀ rest, Stops kind' rest → Stops kind (u ++ rest)) :
    (q >>= f).SpelledBy (fun s b => ∃ a t u, s = t ++ u ∧ P t a ∧ R a u b) kind' where
  text hs := by
    obtain ⟨a, t, u, hsplit, ht, hu⟩ := reads_bind_iff.mp hs
    exact ⟨a, t, u, hsplit, h.text ht, (hf a).text hu⟩
  reads := by
    rintro s b rest ⟨a, t, u, rfl, ht, hu⟩ hrest
    exact (h.reads ht (hstops a u b hu rest hrest)).bind ((hf a).reads hu hrest)

end SpelledBy

theorem spelledBy_char (c : Char) : (char c).SpelledBy (fun s _ => s = [c]) fun _ => false where
  text hs := hs.of_char
  reads := by
    rintro _ _ rest rfl -
    exact reads_char c rest

theorem spelledBy_literal (cs : List Char) :
    (literal cs).SpelledBy (fun s _ => s = cs) fun _ => false where
  text hs := hs.of_literal
  reads := by
    rintro _ _ rest rfl -
    exact reads_literal _ rest

end Rule

namespace Lexeme

open Rule

variable {s rest : List Char}

/-! ## Names, literals and blanks -/

theorem spelledBy_identifier :
    identifier.SpelledBy (fun s name => s = name.toList ∧ isName name = true) isNameRest where
  text hs := by
    obtain ⟨t, ht, hlength, -⟩ := Grammar.exists_of_identifier hs
    exact ⟨List.append_inj_left ht hlength, Grammar.yields_identifier _ _ _ hs⟩
  reads := by
    rintro _ name rest ⟨rfl, hname⟩ hrest
    exact reads_identifier hname hrest

theorem spelledBy_hexDigits :
    hexDigits.SpelledBy (fun s digits => s = digits.toList ∧ isDigits digits = true)
      Text.isHexDigit where
  text hs := by
    obtain ⟨t, ht, hlength⟩ := Grammar.exists_of_hexDigits hs
    exact ⟨List.append_inj_left ht hlength, Grammar.yields_hexDigits _ _ _ hs⟩
  reads := by
    rintro _ digits rest ⟨rfl, hdigits⟩ hrest
    exact reads_hexDigits hdigits hrest

/-- The text is a literal with the given digits. -/
def IsLiteral (s : List Char) (digits : String) : Prop :=
  s = '$' :: digits.toList ∧ isDigits digits = true

theorem spelledBy_hexLiteral : hexLiteral.SpelledBy IsLiteral isNameRest := by
  have hsequence := (spelledBy_char '$').bind (fun _ => spelledBy_hexDigits)
    fun _ _ _ _ _ _ => stops_false _
  refine (hsequence.congr fun s digits => ⟨?_, ?_⟩).mono fun _ => stops_isHexDigit
  · rintro ⟨_, _, _, rfl, rfl, rfl, hdigits⟩
    exact ⟨rfl, hdigits⟩
  · rintro ⟨rfl, hdigits⟩
    exact ⟨(), ['$'], _, rfl, rfl, rfl, hdigits⟩

theorem spelledBy_spaces0 : spaces0.SpelledBy (fun s _ => s.all isSpace = true) isSpace where
  text hs := by
    obtain ⟨_, -, hread⟩ := reads_map_iff.mp hs
    exact hread.of_while0
  reads hs hrest := reads_spaces0 hs hrest

theorem spelledBy_spaces1 :
    spaces1.SpelledBy (fun s _ => s ≠ [] ∧ s.all isSpace = true) isSpace where
  text hs := by
    obtain ⟨_, -, hread⟩ := reads_map_iff.mp hs
    exact hread.of_while1
  reads hs hrest := reads_spaces1 hs.1 hs.2 hrest

/-- The text is the character, with blanks of the line on both sides. -/
def IsSpacedChar (c : Char) (s : List Char) : Prop :=
  ∃ t u, s = t ++ c :: u ∧ t.all isSpace = true ∧ u.all isSpace = true

theorem spelledBy_spaced_char {c : Char} (hc : isSpace c = false) :
    (spaced (char c)).SpelledBy (fun s _ => IsSpacedChar c s) isSpace := by
  have hbehind := (spelledBy_char c).bind (fun _ => spelledBy_spaces0.map fun _ => ())
    fun _ _ _ _ _ _ => stops_false _
  refine (spelledBy_spaces0.bind (fun _ => hbehind) ?_).congr fun s _ => ⟨?_, ?_⟩
  · rintro _ _ _ ⟨_, _, u, rfl, rfl, -⟩ rest -
    exact hc
  · rintro ⟨_, t, _, rfl, ht, _, _, u, rfl, rfl, _, -, hu⟩
    exact ⟨t, u, rfl, ht, hu⟩
  · rintro ⟨t, u, rfl, ht, hu⟩
    exact ⟨(), t, c :: u, rfl, ht, (), [c], u, rfl, rfl, (), rfl, hu⟩

/-- No name goes on with the character, nor with the blanks around it. -/
theorem IsSpacedChar.stops {c : Char} (h : IsSpacedChar c s) (hc : isNameRest c = false)
    (rest : List Char) : Stops isNameRest (s ++ rest) := by
  obtain ⟨t, u, rfl, ht, -⟩ := h
  rw [List.append_assoc]
  exact stops_append (fun _ => isNameRest_of_isSpace) ht hc

/-! ## Gaps in front of more text -/

/-- The text is made of blanks and of comments, and each comment has its end of line. -/
inductive IsClosedBlank : List Char → Prop where
  | nil : IsClosedBlank []
  | blank {c : Char} {s : List Char} (hc : isGap c = true) (hs : IsClosedBlank s) :
    IsClosedBlank (c :: s)
  | comment {text s : List Char} (htext : ∀ c ∈ text, isBreak c = false)
    (hend : ∃ c t, s = c :: t ∧ isBreak c = true) (hs : IsClosedBlank s) :
    IsClosedBlank (';' :: ';' :: (text ++ s))

theorem IsClosedBlank.append {t : List Char} (hs : IsClosedBlank s) (ht : IsClosedBlank t) :
    IsClosedBlank (s ++ t) := by
  induction hs with
  | nil => exact ht
  | blank hc _ ih => exact .blank hc ih
  | comment htext hend _ ih =>
    obtain ⟨c, u, rfl, hc⟩ := hend
    rw [List.cons_append, List.cons_append, List.append_assoc]
    exact .comment htext ⟨c, u ++ t, rfl, hc⟩ ih

/-- A gap begins with a blank, or with the sign of a comment. -/
theorem IsClosedBlank.stops_append (h : IsClosedBlank s) {p : Char → Bool}
    (hp : ∀ c, isGapStart c = true → p c = false) (hrest : Stops p rest) :
    Stops p (s ++ rest) := by
  cases h with
  | nil => exact hrest
  | blank hc _ => exact hp _ (by rw [isGapStart, hc, Bool.true_or])
  | comment _ _ _ => exact hp ';' rfl

/-- Behind its sign, a comment takes the rest of the line. -/
theorem gapFrom_comment {text : List Char} (htext : ∀ c ∈ text, isBreak c = false) (count : Nat)
    (s : List Char) :
    gapFrom false count (';' :: ';' :: (text ++ s)) =
      gapFrom true (count + (text.length + 2)) s := by
  rw [gapFrom, if_neg (by decide), if_neg Bool.false_ne_true, if_pos (by simp), gapFrom,
    if_neg (by decide), if_pos rfl, gapFrom_comment_append htext]
  congr 1
  omega

/-- A comment that has its end of line is over there. -/
theorem IsClosedBlank.gapFrom_append (h : IsClosedBlank s) (count : Nat) (rest : List Char) :
    gapFrom false count (s ++ rest) = gapFrom false (count + s.length) rest := by
  induction h generalizing count with
  | nil => rfl
  | blank hc _ ih =>
    rw [List.cons_append, gapFrom, if_pos hc, Bool.false_and, ih, List.length_cons]
    congr 1
    omega
  | comment htext hend _ ih =>
    obtain ⟨c, t, rfl, hc⟩ := hend
    rw [List.cons_append, List.cons_append, List.append_assoc, gapFrom_comment htext,
      gapFrom_comment_of_ends (s := c :: t ++ rest) (.inr ⟨c, t ++ rest, rfl, hc⟩), ih]
    congr 1
    simp only [List.length_cons, List.length_append]
    omega

theorem reads_gap_of_isClosedBlank (h : IsClosedBlank s) (hrest : Stops isGapStart rest) :
    gap.Reads s () rest := by
  rw [Reads, gap, gapLength, h.gapFrom_append, gapFrom_of_stops hrest, Nat.zero_add]

/-- What is left behind a gap. -/
theorem drop_gapLength_of_isClosedBlank (h : IsClosedBlank s) (hrest : Stops isGapStart rest) :
    (s ++ rest).drop (gapLength (s ++ rest)) = rest := by
  rw [gapLength, h.gapFrom_append, gapFrom_of_stops hrest, Nat.zero_add, List.drop_left]

/-- A blank text that is all of a gap in front of more text has no comment open. -/
theorem IsBlank.isClosedBlank (h : IsBlank s) (hne : rest ≠ []) (count : Nat)
    (hgap : gapFrom false count (s ++ rest) = count + s.length) : IsClosedBlank s := by
  induction h generalizing count with
  | nil => exact .nil
  | @blank c s hc _ ih =>
    rw [List.cons_append, gapFrom, if_pos hc, Bool.false_and, List.length_cons] at hgap
    exact .blank hc (ih (count + 1) (by omega))
  | @comment text s htext hend _ ih =>
    rw [List.cons_append, List.cons_append, List.append_assoc, gapFrom_comment htext] at hgap
    simp only [List.length_cons, List.length_append] at hgap
    rcases hend with rfl | ⟨c, t, rfl, hc⟩
    · -- an open comment goes on with the next character
      obtain ⟨d, rest, rfl⟩ := List.exists_cons_of_ne_nil hne
      have hlonger (b : Bool) (k : Nat) : k < gapFrom b (k + 1) rest := le_gapFrom b (k + 1) rest
      rw [List.nil_append, List.length_nil, gapFrom] at hgap
      split at hgap
      · have := hlonger (true && !isBreak d) (count + (text.length + 2))
        omega
      · rw [if_pos rfl] at hgap
        have := hlonger true (count + (text.length + 2))
        omega
    · rw [gapFrom_comment_of_ends (s := c :: t ++ rest) (.inr ⟨c, t ++ rest, rfl, hc⟩)] at hgap
      exact .comment htext ⟨c, t, rfl, hc⟩ (ih (count + (text.length + 2)) (by omega))

/-- In front of more text, a gap is a blank text with no comment open. -/
theorem isClosedBlank_of_gap {u : Unit} (h : gap.Reads s u rest) (hne : rest ≠ []) :
    IsClosedBlank s := by
  have hlength : gapLength (s ++ rest) = s.length := (Prod.mk.inj (Option.some.inj h)).2
  have hblank := isBlank_take_gapLength (s ++ rest)
  rw [hlength, List.take_left] at hblank
  exact hblank.isClosedBlank hne 0 (hlength.trans (Nat.zero_add _).symm)

end Lexeme
end WordMachine
