import WordMachine.Grammar.Lexeme

/-!
# What rules read

That a rule reads a piece of text means: if the text ahead begins with the piece, the rule
answers a certain value and has read the piece and no more.  A rule that reads as far as it
can does so only in front of the right character, and what follows therefore belongs to the
statement.  It is a third text here (`Rule.Reads`), and not a condition that would have to be
carried through every combinator: a sequence reads its two pieces if the first rule reads its
own in front of the second piece and of what follows that.

Rules that try alternatives have to be refused by some.  A refusal is an equation, `p s =
none`, and it is nearly always decided by the first character.

* `Rule.Reads`, with the laws of the combinators.
* `Lexeme.reads_identifier`, `Lexeme.reads_hexLiteral`: names and literals.
* `Lexeme.reads_spaced`, `Lexeme.reads_wide`, `Lexeme.reads_gap`: blanks around and between.
-/

namespace WordMachine
namespace Rule

variable {α β : Type}

/-- The text does not go on with a character of the given kind. -/
def Stops (p : Char → Bool) : List Char → Prop
  | [] => True
  | c :: _ => p c = false

/-- In front of `rest`, the rule reads exactly `text` and answers `a`. -/
def Reads (p : Rule α) (text : List Char) (a : α) (rest : List Char) : Prop :=
  p (text ++ rest) = some (a, text.length)

theorem Reads.congr {p : Rule α} {s t : List Char} {a : α} {rest : List Char}
    (h : p.Reads s a rest) (ht : t = s) : p.Reads t a rest := by
  rw [ht]
  exact h

/-- Where characters of one kind stand, or nothing does, one of another kind does not go on. -/
theorem stops_append {p q : Char → Bool} (hpq : ∀ c, p c = true → q c = false)
    {s rest : List Char} (hs : s.all p = true) (hrest : Stops q rest) : Stops q (s ++ rest) := by
  cases s with
  | nil => exact hrest
  | cons c s => exact hpq c (List.all_eq_true.mp hs c List.mem_cons_self)

/-! ## Sequences -/

theorem reads_pure (a : α) (rest : List Char) : (pure a : Rule α).Reads [] a rest := rfl

theorem Reads.bind {p : Rule α} {f : α → Rule β} {s t : List Char} {a : α} {b : β}
    {rest : List Char} (hp : p.Reads s a (t ++ rest)) (hf : (f a).Reads t b rest) :
    (p >>= f).Reads (s ++ t) b rest := by
  rw [Reads] at hp hf ⊢
  rw [bind_apply, List.append_assoc, hp]
  dsimp only
  rw [List.drop_left, hf, List.length_append]

/-- A sequence that starts with a rule that reads nothing. -/
theorem Reads.nil_bind {p : Rule α} {f : α → Rule β} {t : List Char} {a : α} {b : β}
    {rest : List Char} (hp : p.Reads [] a (t ++ rest)) (hf : (f a).Reads t b rest) :
    (p >>= f).Reads t b rest :=
  Reads.bind (s := []) hp hf

/-- A sequence that starts with a rule for one character. -/
theorem Reads.cons_bind {p : Rule α} {f : α → Rule β} {c : Char} {t : List Char} {a : α} {b : β}
    {rest : List Char} (hp : p.Reads [c] a (t ++ rest)) (hf : (f a).Reads t b rest) :
    (p >>= f).Reads (c :: t) b rest :=
  Reads.bind (s := [c]) hp hf

/-- A sequence that ends with a rule that reads nothing. -/
theorem Reads.bind_nil {p : Rule α} {f : α → Rule β} {s : List Char} {a : α} {b : β}
    {rest : List Char} (hp : p.Reads s a rest) (hf : (f a).Reads [] b rest) :
    (p >>= f).Reads s b rest :=
  (Reads.bind (t := []) hp hf).congr (List.append_nil s).symm

theorem bind_eq_none {p : Rule α} {f : α → Rule β} {s : List Char} (h : p s = none) :
    (p >>= f) s = none := by
  rw [bind_apply, h]

theorem Reads.bind_eq_none {p : Rule α} {f : α → Rule β} {s : List Char} {a : α}
    {rest : List Char} (hp : p.Reads s a rest) (hf : f a rest = none) :
    (p >>= f) (s ++ rest) = none := by
  rw [bind_apply, hp]
  dsimp only
  rw [List.drop_left, hf]

/-! ## Choice -/

theorem firstOf_cons (p : Rule α) (ps : List (Rule α)) (s : List Char) :
    firstOf (p :: ps) s =
      match p s with
      | some r => some r
      | none => firstOf ps s := rfl

theorem Reads.firstOf (ps : List (Rule α)) {p : Rule α} {qs : List (Rule α)} {s : List Char}
    {a : α} {rest : List Char} (hps : ∀ q ∈ ps, q (s ++ rest) = none) (hp : p.Reads s a rest) :
    (firstOf (ps ++ p :: qs)).Reads s a rest := by
  induction ps with
  | nil => rw [Reads, List.nil_append, firstOf_cons, hp]
  | cons q ps ih =>
    rw [Reads, List.cons_append, firstOf_cons, hps q List.mem_cons_self]
    exact ih fun q' hq' => hps q' (List.mem_cons_of_mem q hq')

theorem firstOf_eq_none {ps : List (Rule α)} {s : List Char} (h : ∀ p ∈ ps, p s = none) :
    firstOf ps s = none := by
  induction ps with
  | nil => rfl
  | cons p ps ih =>
    rw [firstOf_cons, h p List.mem_cons_self]
    exact ih fun q hq => h q (List.mem_cons_of_mem p hq)

theorem reads_optional_some {p : Rule α} {s : List Char} {a : α} {rest : List Char}
    (h : p.Reads s a rest) : (optional p).Reads s (some a) rest := by
  rw [Reads, optional, h]

theorem reads_optional_none {p : Rule α} {rest : List Char} (h : p rest = none) :
    (optional p).Reads [] none rest := by
  rw [Reads, optional, List.nil_append, h]
  rfl

theorem Reads.mapSome {p : Rule α} {f : α → Option β} {s : List Char} {a : α} {b : β}
    {rest : List Char} (h : p.Reads s a rest) (hf : f a = some b) :
    (p.mapSome f).Reads s b rest := by
  rw [Reads, Rule.mapSome, h]
  dsimp only
  rw [hf]
  rfl

theorem reads_ahead {p : List Char → Bool} {rest : List Char} (h : p rest = true) :
    (ahead p).Reads [] () rest := by
  rw [Reads, ahead, List.nil_append, if_pos h]
  rfl

/-! ## Characters -/

theorem reads_char (c : Char) (rest : List Char) : (char c).Reads [c] () rest := by
  rw [Reads, List.singleton_append, char, if_pos rfl]
  rfl

theorem char_eq_none {c d : Char} (h : d ≠ c) (s : List Char) : char c (d :: s) = none := by
  rw [char, if_neg h]

theorem char_eq_none_of_stops {c : Char} {s : List Char} (h : Stops (· == c) s) :
    char c s = none := by
  cases s with
  | nil => rfl
  | cons d s => exact char_eq_none (beq_eq_false_iff_ne.mp h) s

theorem reads_literal (cs rest : List Char) : (literal cs).Reads cs () rest := by
  rw [Reads, literal, if_pos (List.isPrefixOf_iff_prefix.mpr (List.prefix_append cs rest))]

theorem takeWhile_append_of_stops {p : Char → Bool} {s rest : List Char} (hs : s.all p = true)
    (hrest : Stops p rest) : (s ++ rest).takeWhile p = s := by
  rw [List.takeWhile_append_of_pos (List.all_eq_true.mp hs)]
  cases rest with
  | nil => exact List.append_nil s
  | cons c rest => rw [List.takeWhile_cons_of_neg (by rw [hrest]; decide), List.append_nil]

theorem reads_while0 {p : Char → Bool} {s rest : List Char} (hs : s.all p = true)
    (hrest : Stops p rest) : (while0 p).Reads s s rest := by
  rw [Reads, while0, takeWhile_append_of_stops hs hrest]

theorem reads_while1 {p : Char → Bool} {s rest : List Char} (hne : s ≠ [])
    (hs : s.all p = true) (hrest : Stops p rest) : (while1 p).Reads s s rest := by
  rw [Reads, while1, takeWhile_append_of_stops hs hrest]
  exact if_neg fun h => hne (List.isEmpty_iff.mp h)

/-! ## Repetition -/

theorem manyFrom_of_none {p : Rule α} {s : List Char} (h : p s = none) :
    manyFrom p [] 0 s = ([], 0) := by
  rw [manyFrom, h]
  rfl

/-- A repetition goes on behind what was read, if anything was. -/
theorem manyFrom_of_some {p : Rule α} {s : List Char} {a : α} {n : Nat} (h : p s = some (a, n))
    (hgo : 0 < n ∧ s ≠ []) :
    manyFrom p [] 0 s =
      (a :: (manyFrom p [] 0 (s.drop n)).1, n + (manyFrom p [] 0 (s.drop n)).2) := by
  rw [manyFrom, h]
  dsimp only
  rw [dif_pos hgo, manyFrom_eq, Nat.zero_add]
  rfl

theorem reads_many_nil {p : Rule α} {rest : List Char} (h : p rest = none) :
    (many p).Reads [] [] rest := by
  rw [Reads, many, List.nil_append, manyFrom_of_none h]
  rfl

theorem Reads.many_cons {p : Rule α} {s t : List Char} {a : α} {as : List α} {rest : List Char}
    (hp : p.Reads s a (t ++ rest)) (hpos : s ≠ []) (hrest : (many p).Reads t as rest) :
    (many p).Reads (s ++ t) (a :: as) rest := by
  have hmany : manyFrom p [] 0 (t ++ rest) = (as, t.length) := Option.some.inj hrest
  have hgo : 0 < s.length ∧ s ++ (t ++ rest) ≠ [] :=
    ⟨List.length_pos_iff.mpr hpos, List.append_ne_nil_of_left_ne_nil hpos _⟩
  rw [Reads, many, List.append_assoc, manyFrom_of_some hp hgo, List.drop_left, hmany,
    List.length_append]

theorem sepBy_of_none {separator : Rule β} {item : Rule α} {s : List Char} (h : item s = none) :
    sepBy separator item s = some ([], 0) := by
  rw [sepBy, h]

/-- Behind the first item of a list, an item behind a separator is repeated. -/
theorem sepBy_of_some {separator : Rule β} {item : Rule α} {s : List Char} {a : α} {n : Nat}
    (h : item s = some (a, n)) :
    sepBy separator item s =
      some (a :: (manyFrom (separator >>= fun _ => item) [] 0 (s.drop n)).1,
        n + (manyFrom (separator >>= fun _ => item) [] 0 (s.drop n)).2) := by
  rw [sepBy, h]
  exact congrArg some (manyFrom_eq _ [a] n _)

/-- A list with separators reads its first item and, behind separators, the others. -/
theorem Reads.sepBy {separator : Rule β} {item : Rule α} {s t : List Char} {a : α} {as : List α}
    {rest : List Char} (hitem : item.Reads s a (t ++ rest))
    (hrest : (many (separator >>= fun _ => item)).Reads t as rest) :
    (sepBy separator item).Reads (s ++ t) (a :: as) rest := by
  have hmany : manyFrom (separator >>= fun _ => item) [] 0 (t ++ rest) = (as, t.length) :=
    Option.some.inj hrest
  rw [Reads, List.append_assoc, sepBy_of_some hitem, List.drop_left, hmany, List.length_append]

theorem reads_sepBy_nil {separator : Rule β} {item : Rule α} {rest : List Char}
    (h : item rest = none) : (sepBy separator item).Reads [] [] rest :=
  sepBy_of_none h

end Rule

namespace Lexeme

open Rule

/-! ## Names and literals -/

/-- The text can stand as an identifier. -/
def isName (s : String) : Bool :=
  match s.toList with
  | [] => false
  | c :: cs => isNameStart c && cs.all isNameRest

/-- The text can stand as the digits of a literal. -/
def isDigits (s : String) : Bool := !s.toList.isEmpty && s.toList.all Text.isHexDigit

theorem isNameRest_of_isNameStart {c : Char} (h : isNameStart c = true) : isNameRest c = true := by
  rw [isNameStart, Bool.or_eq_true] at h
  rw [isNameRest, Bool.or_eq_true, Char.isAlphanum, Bool.or_eq_true]
  exact h.imp_left Or.inl

/-- The hexadecimal digits are three ranges of ASCII. -/
theorem isHexDigit_iff {c : Char} :
    Text.isHexDigit c = true ↔ '0' ≤ c ∧ c ≤ '9' ∨ 'a' ≤ c ∧ c ≤ 'f' ∨ 'A' ≤ c ∧ c ≤ 'F' := by
  have hdigit : c.isDigit = true ↔ '0' ≤ c ∧ c ≤ '9' := by
    rw [Char.isDigit, Bool.and_eq_true, decide_eq_true_eq, decide_eq_true_eq]
    rfl
  simp only [Text.isHexDigit, Text.hexValue?, hdigit]
  grind

/-- A digit continues a name. -/
theorem isNameRest_of_isHexDigit {c : Char} (h : Text.isHexDigit c = true) :
    isNameRest c = true := by
  rw [isHexDigit_iff] at h
  show (decide (c.val ≥ 'A'.val ∧ c.val ≤ 'Z'.val) || (c.val ≥ 'a'.val && c.val ≤ 'z'.val) ||
    (c.val ≥ '0'.val && c.val ≤ '9'.val) || c == '_') = true
  simp only [Bool.or_eq_true, Bool.and_eq_true, decide_eq_true_eq, ge_iff_le]
  simp only [Char.le_def, UInt32.le_iff_toNat_le, Char.reduceVal, UInt32.reduceToNat] at h ⊢
  omega

/-- Where no name goes on, no digits do. -/
theorem stops_isHexDigit {rest : List Char} (h : Stops isNameRest rest) :
    Stops Text.isHexDigit rest := by
  cases rest with
  | nil => trivial
  | cons c rest =>
    refine Bool.eq_false_iff.mpr fun hc => ?_
    rw [Stops, isNameRest_of_isHexDigit hc] at h
    exact nomatch h

/-- The characters with which a gap goes on: blanks, and the sign of a comment. -/
def isGapStart (c : Char) : Bool := isGap c || c == ';'

/-- No name goes on with a blank, nor with the sign of a comment. -/
theorem isGapStart_of_isNameRest {c : Char} (h : isNameRest c = true) : isGapStart c = false := by
  refine Bool.eq_false_iff.mpr fun hc => ?_
  simp only [isGapStart, isGap, isSpace, isBreak, Bool.or_eq_true, beq_iff_eq] at hc
  rcases hc with ((rfl | rfl) | rfl | rfl) | rfl <;> exact absurd h (by decide)

theorem isNameRest_of_isGap {c : Char} (h : isGap c = true) : isNameRest c = false := by
  refine Bool.eq_false_iff.mpr fun hc => ?_
  have hgap := isGapStart_of_isNameRest hc
  rw [isGapStart, h] at hgap
  exact nomatch hgap

theorem isNameRest_of_isSpace {c : Char} (h : isSpace c = true) : isNameRest c = false :=
  isNameRest_of_isGap (by rw [isGap, h, Bool.true_or])

/-- No name starts with a blank, nor with the sign of a comment. -/
theorem isGapStart_of_isNameStart {c : Char} (h : isNameStart c = true) :
    isGapStart c = false :=
  isGapStart_of_isNameRest (isNameRest_of_isNameStart h)

theorem isSpace_of_isGapStart {c : Char} (h : isGapStart c = false) : isSpace c = false := by
  rw [isGapStart, isGap, Bool.or_eq_false_iff, Bool.or_eq_false_iff] at h
  exact h.1.1

/-- A name is made of a character that starts names, and others that continue them. -/
theorem exists_of_isName {name : String} (h : isName name = true) :
    ∃ c cs, name.toList = c :: cs ∧ isNameStart c = true ∧ cs.all isNameRest = true := by
  rw [isName] at h
  split at h
  · exact nomatch h
  · rename_i c cs hname
    rw [Bool.and_eq_true] at h
    exact ⟨c, cs, hname, h⟩

theorem all_isNameRest_of_isName {name : String} (h : isName name = true) :
    name.toList.all isNameRest = true := by
  obtain ⟨c, cs, hname, hc, hcs⟩ := exists_of_isName h
  rw [hname, List.all_cons, isNameRest_of_isNameStart hc, hcs]
  rfl

/-- A name does not begin with a character of a kind that starts no name. -/
theorem stops_of_isName {name : String} (h : isName name = true) {p : Char → Bool}
    (hp : ∀ c, isNameStart c = true → p c = false) (s : List Char) :
    Stops p (name.toList ++ s) := by
  obtain ⟨c, cs, hname, hc, -⟩ := exists_of_isName h
  rw [hname]
  exact hp c hc

/-- Blanks are not read in front of a name. -/
theorem stops_isSpace_of_isName {name : String} (h : isName name = true) (s : List Char) :
    Stops isSpace (name.toList ++ s) :=
  stops_of_isName h (fun _ hc => isSpace_of_isGapStart (isGapStart_of_isNameStart hc)) s

theorem reads_identifier {name : String} (h : isName name = true) {rest : List Char}
    (hrest : Stops isNameRest rest) : identifier.Reads name.toList name rest := by
  obtain ⟨c, cs, hname, hc, hcs⟩ := exists_of_isName h
  rw [Reads, hname, List.cons_append, identifier, if_pos hc]
  dsimp only
  rw [takeWhile_append_of_stops hcs hrest, ← hname, String.ofList_toList]
  rw [hname]
  rfl

/-- No identifier begins with a character that starts none. -/
theorem identifier_eq_none {c : Char} (h : isNameStart c = false) (s : List Char) :
    identifier (c :: s) = none := by
  rw [identifier, if_neg (by rw [h]; decide)]

theorem reads_hexDigits {digits : String} (h : isDigits digits = true) {rest : List Char}
    (hrest : Stops Text.isHexDigit rest) : hexDigits.Reads digits.toList digits rest := by
  rw [isDigits, Bool.and_eq_true, Bool.not_eq_true'] at h
  have hne : digits.toList ≠ [] := fun e => by
    rw [e] at h
    exact nomatch h.1
  refine (reads_while1 hne h.2 hrest).bind_nil ?_
  rw [String.ofList_toList]
  exact reads_pure _ _

theorem reads_hexLiteral {digits : String} (h : isDigits digits = true) {rest : List Char}
    (hrest : Stops Text.isHexDigit rest) : hexLiteral.Reads ('$' :: digits.toList) digits rest :=
  .cons_bind (reads_char _ _) (reads_hexDigits h hrest)

/-! ## Blanks -/

theorem reads_spaces0 {s rest : List Char} (hs : s.all isSpace = true)
    (hrest : Stops isSpace rest) : spaces0.Reads s () rest :=
  (reads_while0 hs hrest).bind_nil (reads_pure _ _)

theorem reads_spaces1 {s rest : List Char} (hne : s ≠ []) (hs : s.all isSpace = true)
    (hrest : Stops isSpace rest) : spaces1.Reads s () rest :=
  (reads_while1 hne hs hrest).bind_nil (reads_pure _ _)

/-- Where no blank is ahead, no blank is read. -/
theorem spaces1_eq_none {s : List Char} (h : Stops isSpace s) : spaces1 s = none := by
  refine bind_eq_none ?_
  have hread : s.takeWhile isSpace = [] := takeWhile_append_of_stops (s := []) rfl h
  rw [while1, hread]
  rfl

theorem reads_gaps0 {s rest : List Char} (hs : s.all isGap = true)
    (hrest : Stops isGap rest) : gaps0.Reads s () rest :=
  (reads_while0 hs hrest).bind_nil (reads_pure _ _)

/-- A rule with blanks of the line around what it reads. -/
theorem reads_spaced {α : Type} {p : Rule α} {s t u rest : List Char} {a : α}
    (hp : p.Reads t a (u ++ rest)) (hs : s.all isSpace = true)
    (ht : Stops isSpace (t ++ (u ++ rest))) (hu : u.all isSpace = true)
    (hrest : Stops isSpace rest) : (spaced p).Reads (s ++ (t ++ u)) a rest := by
  refine Reads.bind (reads_spaces0 hs ?_) (hp.bind ?_)
  · rw [List.append_assoc]
    exact ht
  · exact (reads_spaces0 hu hrest).bind_nil (reads_pure _ _)

/-- A rule with any blanks around what it reads. -/
theorem reads_wide {α : Type} {p : Rule α} {s t u rest : List Char} {a : α}
    (hp : p.Reads t a (u ++ rest)) (hs : s.all isGap = true)
    (ht : Stops isGap (t ++ (u ++ rest))) (hu : u.all isGap = true)
    (hrest : Stops isGap rest) : (wide p).Reads (s ++ (t ++ u)) a rest := by
  refine Reads.bind (reads_gaps0 hs ?_) (hp.bind ?_)
  · rw [List.append_assoc]
    exact ht
  · exact (reads_gaps0 hu hrest).bind_nil (reads_pure _ _)

theorem gapFrom_of_stops {rest : List Char} (h : Stops isGapStart rest) (count : Nat) :
    gapFrom false count rest = count := by
  cases rest with
  | nil => rfl
  | cons c rest =>
    obtain ⟨hgap, hsemicolon⟩ := Bool.or_eq_false_iff.mp (show (isGap c || c == ';') = false from h)
    rw [gapFrom, hgap, hsemicolon]
    rfl

theorem gapFrom_append {s rest : List Char} (hs : s.all isGap = true)
    (hrest : Stops isGapStart rest) (count : Nat) :
    gapFrom false count (s ++ rest) = count + s.length := by
  induction s generalizing count with
  | nil => exact gapFrom_of_stops hrest count
  | cons c s ih =>
    rw [List.all_cons, Bool.and_eq_true] at hs
    rw [List.cons_append, gapFrom, if_pos hs.1, Bool.false_and, ih hs.2, List.length_cons]
    exact Nat.add_right_comm count 1 s.length

theorem reads_gap {s rest : List Char} (hs : s.all isGap = true)
    (hrest : Stops isGapStart rest) : gap.Reads s () rest := by
  rw [Reads, gap, gapLength, gapFrom_append hs hrest, Nat.zero_add]

/-- Where a line ends, nothing goes on but a break or a comment. -/
theorem stops_of_endsLine {p : Char → Bool}
    (hp : p '\n' = false ∧ p '\r' = false ∧ p ';' = false) {rest : List Char}
    (h : endsLine rest = true) : Stops p rest := by
  unfold endsLine at h
  split at h
  · trivial
  · exact hp.1
  · exact hp.2.1
  · exact hp.2.2
  · exact nomatch h

/-- A line that ends here ends without blanks. -/
theorem reads_lineEnd {rest : List Char} (h : endsLine rest = true) :
    lineEnd.Reads [] () rest :=
  Reads.nil_bind (reads_spaces0 rfl (stops_of_endsLine (by decide) h)) (reads_ahead h)

end Lexeme
end WordMachine
