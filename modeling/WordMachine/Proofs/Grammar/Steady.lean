import WordMachine.Proofs.Grammar.Answers

/-!
# Rules in front of more text

What does a rule answer if a break of line and any other text are put behind the text ahead?
Most rules never read a break, and for them nothing changes, whether they succeed or fail
(`Rule.Local`).  The others read breaks as blanks.  Such a rule may go on into the new text
where it used to come to the end, and it may even succeed where it used to fail, if a bracket or
a brace that was left open is closed there.

But then it has come to the end.  If something is left behind what a rule of blanks has read, it
has stopped there for good, and brackets and braces are never left behind open if the rule for
them succeeds.  So a rule is steady on a text (`Rule.Steady`) if it is local, or if it reads
breaks and ends with a character of its own.

Leaves that nest in parentheses are read by rules that have as much room as there is text ahead,
so with more text it is another rule that reads them.  Hence a relation between two rules
(`Rule.Keeps`): what the first reads in front of something, the second still reads.

* `Rule.Steady`, `Rule.Local`, `Rule.Keeps`, with the laws of the combinators.
* `Lexeme.gapLength_append_of_lt`, `Lexeme.gapLength_append_of_le`: gaps in front of more text.
* `Grammar.steady_bracketExpr`, `Grammar.steady_braced`: brackets and braces.
-/

namespace WordMachine

open Lexeme

namespace Rule

variable {α β : Type} {p q : Rule α} {s : List Char}

/-- A break of line and more text behind `s` do not change what the rule answers. -/
structure Steady (p : Rule α) (s : List Char) : Prop where
  same : ∀ t, p (s ++ '\n' :: t) = p s
  le_length : ∀ a n, p s = some (a, n) → n ≤ s.length

/-- The rule does not look past a break of line. -/
def Local (p : Rule α) : Prop := ∀ s, p.Steady s

/-! ## Steady rules -/

theorem steady_of_eq_none (h : p s = none) (ht : ∀ t, p (s ++ '\n' :: t) = none) : p.Steady s where
  same t := (ht t).trans h.symm
  le_length a n ha := by
    rw [h] at ha
    exact nomatch ha

theorem steady_of_eq_some {a : α} {n : Nat} (h : p s = some (a, n)) (hn : n ≤ s.length)
    (ht : ∀ t, p (s ++ '\n' :: t) = some (a, n)) : p.Steady s where
  same t := (ht t).trans h.symm
  le_length b m hb := by
    rw [h] at hb
    obtain ⟨-, rfl⟩ := Prod.mk.inj (Option.some.inj hb)
    exact hn

theorem local_pure (a : α) : Local (pure a : Rule α) :=
  fun _ => ⟨fun _ => rfl, fun _ n h => by
    obtain ⟨-, rfl⟩ := Prod.mk.inj (Option.some.inj h)
    exact Nat.zero_le _⟩

/-- The second rule of a sequence has to be steady only behind what the first has read. -/
theorem Steady.bind {f : α → Rule β} (hp : p.Steady s)
    (hf : ∀ a n, p s = some (a, n) → (f a).Steady (s.drop n)) : (p >>= f).Steady s := by
  constructor
  · intro t
    rw [bind_apply, bind_apply, hp.same]
    cases hs : p s with
    | none => rfl
    | some r =>
      dsimp only
      rw [List.drop_append_of_le_length (hp.le_length _ _ hs), (hf _ _ hs).same]
  · intro b n h
    obtain ⟨a, k, m, hk, hm, rfl⟩ := exists_of_bind_eq_some h
    have hle := hp.le_length a k hk
    have hle' := (hf a k hk).le_length b m hm
    rw [List.length_drop] at hle'
    omega

theorem Local.bind {f : α → Rule β} (hp : p.Local) (hf : ∀ a, (f a).Local) : (p >>= f).Local :=
  fun s => (hp s).bind fun a _ _ => hf a _

/-- If the sequence succeeds, the second rule does, where it is asked to be steady. -/
theorem Steady.bind_of_ne_none {f : α → Rule β} (hp : p.Steady s) (h : (p >>= f) s ≠ none)
    (hf : ∀ a n, p s = some (a, n) → f a (s.drop n) ≠ none → (f a).Steady (s.drop n)) :
    (p >>= f).Steady s := by
  refine hp.bind fun a n ha => hf a n ha fun hnone => h ?_
  rw [bind_apply, ha]
  dsimp only
  rw [hnone]

/-- Of several rules, those behind one that succeeds are not tried. -/
theorem Steady.firstOf_cons {ps : List (Rule α)} (hp : p.Steady s)
    (hps : p s = none → (firstOf ps).Steady s) : (firstOf (p :: ps)).Steady s := by
  cases hs : p s with
  | none =>
    have hrest (u : List Char) (hu : p u = none) : firstOf (p :: ps) u = firstOf ps u := by
      rw [Rule.firstOf_cons, hu]
    constructor
    · intro t
      rw [hrest _ ((hp.same t).trans hs), hrest s hs, (hps hs).same]
    · intro a n h
      rw [hrest s hs] at h
      exact (hps hs).le_length a n h
  | some r =>
    refine steady_of_eq_some (a := r.1) (n := r.2) ?_ (hp.le_length _ _ hs) fun t => ?_
    · rw [Rule.firstOf_cons, hs]
    · rw [Rule.firstOf_cons, hp.same, hs]

theorem steady_firstOf {ps : List (Rule α)} (h : ∀ p ∈ ps, p.Steady s) : (firstOf ps).Steady s := by
  induction ps with
  | nil => exact steady_of_eq_none rfl fun _ => rfl
  | cons p ps ih =>
    rw [List.forall_mem_cons] at h
    exact h.1.firstOf_cons fun _ => ih h.2

/-- What may fail reads something, or nothing if it fails. -/
theorem exists_of_optional {o : Option α} {n : Nat} (h : optional p s = some (o, n)) :
    (∃ a, p s = some (a, n)) ∨ p s = none ∧ n = 0 := by
  rw [optional] at h
  split at h
  · rename_i a k hs
    obtain ⟨-, rfl⟩ := Prod.mk.inj (Option.some.inj h)
    exact .inl ⟨a, hs⟩
  · rename_i hs
    exact .inr ⟨hs, (Prod.mk.inj (Option.some.inj h)).2.symm⟩

theorem Steady.optional (hp : p.Steady s) : (optional p).Steady s := by
  constructor
  · intro t
    rw [Rule.optional, Rule.optional, hp.same]
  · intro a n h
    rcases exists_of_optional h with ⟨b, hb⟩ | ⟨-, rfl⟩
    · exact hp.le_length b n hb
    · exact Nat.zero_le _

theorem Local.mapSome (hp : p.Local) (f : α → Option β) : (p.mapSome f).Local := by
  intro s
  constructor
  · intro t
    rw [Rule.mapSome, Rule.mapSome, (hp s).same]
  · intro b n h
    obtain ⟨a, ha, -⟩ := exists_of_mapSome h
    exact (hp s).le_length a n ha

/-! ## Characters -/

theorem local_char {c : Char} (hc : c ≠ '\n') : (char c).Local := by
  intro s
  cases s with
  | nil => exact steady_of_eq_none rfl fun t => char_eq_none hc.symm t
  | cons d s =>
    constructor
    · exact fun t => rfl
    · intro a n h
      obtain ⟨t, hs, rfl⟩ := exists_of_char h
      rw [hs, List.length_cons]
      exact Nat.le_add_left 1 _

theorem local_literal {cs : List Char} (hcs : '\n' ∉ cs) : (literal cs).Local := by
  intro s
  have hprefix (t : List Char) : cs <+: s ++ '\n' :: t ↔ cs <+: s := by
    constructor
    · rintro ⟨u, hu⟩
      rcases List.append_eq_append_iff.mp hu with ⟨v, rfl, -⟩ | ⟨v, rfl, hv⟩
      · exact List.prefix_append cs v
      · cases v with
        | nil => exact ⟨[], by simp⟩
        | cons c v =>
          obtain ⟨rfl, -⟩ := List.cons_eq_cons.mp hv
          exact absurd (List.mem_append_right s List.mem_cons_self) hcs
    · exact fun h => h.trans (List.prefix_append _ _)
  constructor
  · intro t
    simp only [literal, List.isPrefixOf_iff_prefix, hprefix]
  · intro a n h
    rw [literal] at h
    split at h
    · rename_i hs
      obtain ⟨-, rfl⟩ := Prod.mk.inj (Option.some.inj h)
      exact (List.isPrefixOf_iff_prefix.mp hs).length_le
    · cases h

/-- Characters of a kind to which breaks do not belong are read up to the break. -/
theorem takeWhile_append_break {p : Char → Bool} (hp : p '\n' = false) (s t : List Char) :
    (s ++ '\n' :: t).takeWhile p = s.takeWhile p := by
  induction s with
  | nil => exact List.takeWhile_cons_of_neg (by rw [hp]; decide)
  | cons c s ih => rw [List.cons_append, List.takeWhile_cons, List.takeWhile_cons, ih]

theorem local_while0 {p : Char → Bool} (hp : p '\n' = false) : (while0 p).Local := by
  intro s
  refine steady_of_eq_some (a := s.takeWhile p) rfl (List.takeWhile_prefix p).length_le fun t => ?_
  rw [while0, takeWhile_append_break hp]

theorem local_while1 {p : Char → Bool} (hp : p '\n' = false) : (while1 p).Local := by
  intro s
  constructor
  · intro t
    rw [while1, while1, takeWhile_append_break hp]
  · intro a n h
    rw [while1] at h
    split at h
    · cases h
    · obtain ⟨-, rfl⟩ := Prod.mk.inj (Option.some.inj h)
      exact (List.takeWhile_prefix p).length_le

/-! ## What is read in front of something -/

/-- What the first rule reads in front of something, the second reads in front of that, a break
of line and more text. -/
def Keeps (p q : Rule α) : Prop :=
  ∀ s t a n, p s = some (a, n) → n < s.length → q (s ++ '\n' :: t) = some (a, n)

theorem Local.keeps (h : p.Local) : p.Keeps p :=
  fun s t _ _ ha _ => ((h s).same t).trans ha

theorem Keeps.bind {f g : α → Rule β} (hp : p.Keeps q) (hf : ∀ a, (f a).Keeps (g a)) :
    (p >>= f).Keeps (q >>= g) := by
  intro s t b n h hn
  obtain ⟨a, k, m, hk, hm, rfl⟩ := exists_of_bind_eq_some h
  refine bind_eq_some (hp s t a k hk (by omega)) ?_
  rw [List.drop_append_of_le_length (by omega)]
  refine hf a _ t b m hm ?_
  rw [List.length_drop]
  omega

theorem lt_length_of_drop_ne_nil {n : Nat} (h : s.drop n ≠ []) : n < s.length :=
  Nat.lt_of_not_le fun hle => h (List.drop_eq_nil_of_le hle)

/-- A repetition in front of something reads as much, if it cannot go on there. -/
theorem Keeps.manyFrom (hp : p.Keeps q) {s t : List Char}
    (hlt : (manyFrom p [] 0 s).2 < s.length)
    (hstop : q (s.drop (manyFrom p [] 0 s).2 ++ '\n' :: t) = none) :
    Rule.manyFrom q [] 0 (s ++ '\n' :: t) = Rule.manyFrom p [] 0 s := by
  induction hlen : s.length using Nat.strongRecOn generalizing s with
  | ind l ih =>
    subst hlen
    -- where the repetition stops, the second rule is refused
    have hend (h : Rule.manyFrom p [] 0 s = ([], 0)) :
        Rule.manyFrom q [] 0 (s ++ '\n' :: t) = Rule.manyFrom p [] 0 s := by
      rw [h, List.drop_zero] at hstop
      rw [h, manyFrom_of_none hstop]
    cases hs : p s with
    | none => exact hend (manyFrom_of_none hs)
    | some r =>
      by_cases hgo : 0 < r.2 ∧ s ≠ []
      · rw [manyFrom_of_some hs hgo] at hlt hstop ⊢
        dsimp only at hlt hstop
        have hq : q (s ++ '\n' :: t) = some (r.1, r.2) := hp s t _ _ hs (by omega)
        have hne : s ++ '\n' :: t ≠ [] :=
          List.append_ne_nil_of_right_ne_nil _ (List.cons_ne_nil _ _)
        rw [← List.drop_drop] at hstop
        have hrest := ih _ (length_drop_lt hgo) (by rw [List.length_drop]; omega) hstop rfl
        rw [manyFrom_of_some hq ⟨hgo.1, hne⟩, List.drop_append_of_le_length (by omega), hrest]
      · refine hend ?_
        rw [Rule.manyFrom, hs]
        dsimp only
        rw [dif_neg hgo]
        rfl

/-- A list with separators is steady if it ends in front of something, and cannot go on there. -/
theorem steady_sepBy {separator : Rule β} {item : Rule α} (hitem : item.Local)
    (hkeeps : (separator >>= fun _ => item).Keeps (separator >>= fun _ => item)) {as : List α}
    {n : Nat} (h : sepBy separator item s = some (as, n)) (hn : n < s.length)
    (hstop : ∀ t, (separator >>= fun _ => item) (s.drop n ++ '\n' :: t) = none) :
    (sepBy separator item).Steady s := by
  refine steady_of_eq_some h (Nat.le_of_lt hn) fun t => ?_
  cases hs : item s with
  | none => rw [sepBy_of_none ((hitem s).same t ▸ hs), ← h, sepBy_of_none hs]
  | some r =>
    rw [sepBy_of_some hs] at h
    obtain ⟨-, rfl⟩ := Prod.mk.inj (Option.some.inj h)
    rw [← List.drop_drop] at hstop
    have hkept := hkeeps.manyFrom (s := s.drop r.2) (by rw [List.length_drop]; omega) (hstop t)
    rw [sepBy_of_some (((hitem s).same t).trans hs), List.drop_append_of_le_length (by omega),
      hkept, ← h]

end Rule

namespace Lexeme

open Rule

/-! ## Names, literals and blanks of a line -/

theorem local_spaces0 : spaces0.Local := (local_while0 rfl).bind fun _ => local_pure _

theorem local_spaces1 : spaces1.Local := (local_while1 rfl).bind fun _ => local_pure _

theorem local_spaced {α : Type} {p : Rule α} (hp : p.Local) : (spaced p).Local :=
  local_spaces0.bind fun _ => hp.bind fun _ => local_spaces0.bind fun _ => local_pure _

theorem local_identifier : identifier.Local := by
  intro s
  cases s with
  | nil => exact steady_of_eq_none rfl fun _ => rfl
  | cons c s =>
    constructor
    · intro t
      rw [List.cons_append, identifier, identifier, takeWhile_append_break rfl]
    · intro name n h
      rw [identifier] at h
      split at h
      · obtain ⟨-, rfl⟩ := Prod.mk.inj (Option.some.inj h)
        exact Nat.succ_le_succ (List.takeWhile_prefix _).length_le
      · cases h

theorem local_hexDigits : hexDigits.Local := (local_while1 rfl).bind fun _ => local_pure _

theorem local_hexLiteral : hexLiteral.Local :=
  (local_char (by decide)).bind fun _ => local_hexDigits

/-! ## Blanks across lines -/

/-- Blanks that something stands behind end there. -/
theorem keeps_gaps0 : gaps0.Keeps gaps0 := by
  refine Keeps.bind ?_ fun _ => (local_pure _).keeps
  intro s t read n h hn
  obtain ⟨rfl, rfl⟩ := Prod.mk.inj (Option.some.inj h)
  rw [while0, List.takeWhile_append, if_neg (Nat.ne_of_lt hn)]

theorem keeps_wide {α : Type} {p q : Rule α} (h : p.Keeps q) : (wide p).Keeps (wide q) :=
  keeps_gaps0.bind fun _ => h.bind fun _ => keeps_gaps0.bind fun _ => (local_pure _).keeps

/-- What has been counted before changes nothing in how far a gap reaches. -/
theorem gapFrom_eq_add (inComment : Bool) (count : Nat) (s : List Char) :
    gapFrom inComment count s = count + gapFrom inComment 0 s := by
  induction s generalizing inComment count with
  | nil => rfl
  | cons c s ih =>
    rw [gapFrom, gapFrom]
    split
    · rw [ih _ (count + 1), ih _ (0 + 1)]
      omega
    · split
      · rw [ih _ (count + 1), ih _ (0 + 1)]
        omega
      · split
        · rw [ih _ (count + 1), ih _ (0 + 1)]
          omega
        · rfl

/-- In front of a break, a gap reaches as far as without it, if something stands behind it.  If
nothing does, it goes on behind the break, be it in a comment or not. -/
theorem gapFrom_append_break (inComment : Bool) (s t : List Char) :
    gapFrom inComment 0 (s ++ '\n' :: t) =
      if gapFrom inComment 0 s < s.length then gapFrom inComment 0 s
      else s.length + 1 + gapLength t := by
  induction s generalizing inComment with
  | nil =>
    have hbreak : gapFrom inComment 0 ('\n' :: t) = gapFrom (inComment && false) (0 + 1) t := by
      rw [gapFrom, if_pos (by decide)]
      rfl
    rw [List.nil_append, hbreak, Bool.and_false, gapFrom_eq_add]
    rfl
  | cons c s ih =>
    have hstep (b : Bool) : gapFrom b (0 + 1) (s ++ '\n' :: t) =
        if gapFrom b (0 + 1) s < (c :: s).length then gapFrom b (0 + 1) s
        else (c :: s).length + 1 + gapLength t := by
      rw [gapFrom_eq_add b (0 + 1), gapFrom_eq_add b (0 + 1), ih, List.length_cons]
      split <;> split <;> omega
    have hhead : ((s ++ '\n' :: t).head? == some ';') = (s.head? == some ';') := by
      cases s <;> rfl
    rw [List.cons_append, gapFrom, gapFrom, hhead]
    split
    · exact hstep _
    · split
      · exact hstep _
      · split
        · exact hstep _
        · exact (if_pos (Nat.succ_pos _)).symm

theorem gapLength_append_of_lt {s : List Char} (h : gapLength s < s.length) (t : List Char) :
    gapLength (s ++ '\n' :: t) = gapLength s :=
  (gapFrom_append_break false s t).trans (if_pos h)

theorem gapLength_append_of_le {s : List Char} (h : s.length ≤ gapLength s) (t : List Char) :
    gapLength (s ++ '\n' :: t) = s.length + 1 + gapLength t :=
  (gapFrom_append_break false s t).trans (if_neg (Nat.not_lt.mpr h))

theorem steady_gap {s : List Char} (h : gapLength s < s.length) : gap.Steady s :=
  steady_of_eq_some rfl (Nat.le_of_lt h) fun t => by rw [gap, gapLength_append_of_lt h]

theorem keeps_gap : gap.Keeps gap := by
  intro s t a n h hn
  obtain ⟨-, rfl⟩ := Prod.mk.inj (Option.some.inj h)
  exact ((steady_gap hn).same t).trans h

end Lexeme

namespace Grammar

open Rule

/-! ## Expressions -/

theorem local_literalExpr : literalExpr.Local := local_hexLiteral.bind fun _ => local_pure _

theorem local_referenceExpr : referenceExpr.Local :=
  (local_char (by decide)).bind fun _ => local_identifier.bind fun _ => local_pure _

theorem local_memberExpr : memberExpr.Local :=
  (local_char (by decide)).bind fun _ => local_spaces0.bind fun _ => local_identifier.bind fun _ =>
    local_spaces0.bind fun _ => (local_char (by decide)).bind fun _ => local_spaces0.bind fun _ =>
      local_identifier.bind fun _ => (local_char (by decide)).bind fun _ =>
        local_identifier.bind fun _ => local_pure _

theorem local_simpleLeaf : simpleLeaf.Local := by
  intro s
  refine steady_firstOf fun p hp => ?_
  simp only [List.mem_cons, List.not_mem_nil, or_false] at hp
  rcases hp with rfl | rfl | rfl
  · exact local_literalExpr s
  · exact local_referenceExpr s
  · exact local_memberExpr s

theorem local_operator : operator.Local := by
  intro s
  refine steady_firstOf fun p hp => ?_
  simp only [List.mem_cons, List.not_mem_nil, or_false] at hp
  rcases hp with rfl | rfl | rfl <;>
    exact (local_char (by decide)).bind (fun _ => local_pure _) s

theorem keeps_linkOf {leaf leaf' : Rule Expr} (h : leaf.Keeps leaf') :
    (linkOf leaf).Keeps (linkOf leaf') :=
  (keeps_wide local_operator.keeps).bind fun _ => (keeps_wide h).bind fun _ => (local_pure _).keeps

theorem ClosesChain.lt_length {s : List Char} {n : Nat} (h : ClosesChain (s.drop n)) :
    n < s.length := by
  have hlen := List.length_drop (i := n) (l := s)
  obtain ⟨tail, hs | hs⟩ := h <;> rw [hs, List.length_cons] at hlen <;> omega

theorem ClosesChain.append {s : List Char} (h : ClosesChain s) (t : List Char) :
    ClosesChain (s ++ t) := by
  obtain ⟨tail, rfl | rfl⟩ := h
  · exact ⟨tail ++ t, .inl rfl⟩
  · exact ⟨tail ++ t, .inr rfl⟩

/-- A chain that closes is read as it is. -/
theorem chainOf_append_break {leaf leaf' : Rule Expr} (h : leaf.Keeps leaf') {s : List Char}
    {c : Chain} {n : Nat} (hc : chainOf leaf s = some (c, n)) (hclose : ClosesChain (s.drop n))
    (t : List Char) : chainOf leaf' (s ++ '\n' :: t) = some (c, n) := by
  have hlt := hclose.lt_length
  obtain ⟨head, k, _, hhead, hrest, rfl⟩ := exists_of_bind_eq_some hc
  obtain ⟨tail, m, _, htail, hpure, rfl⟩ := exists_of_bind_eq_some hrest
  obtain ⟨rfl, rfl⟩ := Prod.mk.inj (Option.some.inj hpure)
  have hmany : manyFrom (linkOf leaf) [] 0 (s.drop k) = (tail, m) := Option.some.inj htail
  rw [Nat.add_zero, ← List.drop_drop] at hclose
  have hkept := (keeps_linkOf h).manyFrom (s := s.drop k) (t := t)
    (by rw [hmany, List.length_drop]; omega)
    (by rw [hmany]; exact (hclose.append _).linkOf_eq_none)
  rw [hmany] at hkept
  refine bind_eq_some (keeps_wide h s t head k hhead (by omega)) (bind_eq_some ?_ rfl)
  rw [List.drop_append_of_le_length (by omega)]
  exact congrArg some hkept

/-- A chain between two characters. -/
def enclosed (opening closing : Char) (inner : Rule Chain) (f : Chain → Expr) : Rule Expr := do
  char opening
  let c ← inner
  char closing
  pure (f c)

theorem leafWithin_cons (c : Char) (room : List Char) :
    leafWithin (c :: room) =
      firstOf [enclosed '(' ')' (chainOf (leafWithin room)) .group, simpleLeaf] := rfl

section Enclosed

variable {opening closing : Char} {inner inner' : Rule Chain} {f : Chain → Expr}

/-- A chain that is enclosed is read as it is, whatever follows. -/
theorem enclosed_append_break (hclosing : closing = ')' ∨ closing = ']')
    (h : ∀ s t c n, inner s = some (c, n) → ClosesChain (s.drop n) →
      inner' (s ++ '\n' :: t) = some (c, n))
    {s : List Char} {e : Expr} {n : Nat}
    (he : enclosed opening closing inner f s = some (e, n)) :
    n ≤ s.length ∧ ∀ t, enclosed opening closing inner' f (s ++ '\n' :: t) = some (e, n) := by
  obtain ⟨_, i, _, hopen, hrest, rfl⟩ := exists_of_bind_eq_some he
  obtain ⟨c, k, _, hinner, hclose, rfl⟩ := exists_of_bind_eq_some hrest
  obtain ⟨_, j, _, hchar, hpure, rfl⟩ := exists_of_bind_eq_some hclose
  obtain ⟨rfl, rfl⟩ := Prod.mk.inj (Option.some.inj hpure)
  obtain ⟨u, rfl, rfl⟩ := exists_of_char hopen
  obtain ⟨v, hv, rfl⟩ := exists_of_char hchar
  rw [List.drop_one, List.tail_cons] at hinner hv
  have hcloses : ClosesChain (u.drop k) := by
    rw [hv]
    exact ⟨v, hclosing.imp (fun e => by rw [e]) fun e => by rw [e]⟩
  have hlt := hcloses.lt_length
  refine ⟨?_, fun t => ?_⟩
  · rw [List.length_cons]
    omega
  · refine bind_eq_some (if_pos rfl) (bind_eq_some (h u t c k hinner hcloses) ?_)
    have hrest : (u ++ '\n' :: t).drop k = closing :: (v ++ '\n' :: t) := by
      rw [List.drop_append_of_le_length (Nat.le_of_lt hlt), hv]
      rfl
    rw [List.drop_one, List.cons_append, List.tail_cons, hrest]
    exact bind_eq_some (a := ()) (if_pos rfl) rfl

end Enclosed

/-- A leaf that is no group begins otherwise. -/
theorem char_eq_none_of_simpleLeaf {s : List Char} {e : Expr} {n : Nat}
    (h : simpleLeaf s = some (e, n)) (t : List Char) : char '(' (s ++ t) = none := by
  cases s with
  | nil => exact nomatch h
  | cons c s =>
    refine char_eq_none ?_ _
    rintro rfl
    exact nomatch h

/-- With more room, a leaf is still read as it is. -/
theorem keeps_leafWithin {room room' : List Char} (h : room.length ≤ room'.length) :
    (leafWithin room).Keeps (leafWithin room') := by
  have hsimple (room' : List Char) : simpleLeaf.Keeps (leafWithin room') := by
    intro s t e n he hn
    have hkept := local_simpleLeaf.keeps s t e n he hn
    cases room' with
    | nil => exact hkept
    | cons c room' =>
      have hgroup : enclosed '(' ')' (chainOf (leafWithin room')) .group (s ++ '\n' :: t) = none :=
        bind_eq_none (char_eq_none_of_simpleLeaf he _)
      rw [leafWithin_cons, firstOf_cons, hgroup]
      dsimp only
      rw [firstOf_cons, hkept]
  induction room generalizing room' with
  | nil => exact hsimple room'
  | cons c room ih =>
    cases room' with
    | nil => exact absurd h (Nat.not_succ_le_zero _)
    | cons c' room' =>
      have hroom : room.length ≤ room'.length := Nat.le_of_succ_le_succ h
      intro s t e n he hn
      rw [leafWithin_cons, firstOf_cons] at he
      split at he
      · rename_i r hgroup
        obtain rfl := Option.some.inj he
        obtain ⟨-, hkept⟩ := enclosed_append_break (.inl rfl)
          (fun s t c n hc hclose => chainOf_append_break (ih hroom) hc hclose t) hgroup
        rw [leafWithin_cons, firstOf_cons, hkept t]
      · refine hsimple (c' :: room') s t e n ?_ hn
        rw [firstOf_cons] at he
        split at he
        · rename_i r hsimple'
          rw [hsimple', he]
        · exact nomatch he

theorem keeps_leaf : leaf.Keeps leaf := by
  intro s t e n he hn
  refine keeps_leafWithin ?_ s t e n he hn
  rw [List.length_append]
  exact Nat.le_add_right _ _

/-- A bracket is steady if it closes, and where there is none. -/
theorem steady_bracketExpr {s : List Char} (h : char '[' s = none ∨ bracketExpr s ≠ none) :
    bracketExpr.Steady s := by
  cases hs : bracketExpr s with
  | none =>
    have hchar : char '[' s = none := h.resolve_right fun hne => hne hs
    refine steady_of_eq_none hs fun t => bind_eq_none ?_
    rw [(local_char (by decide) s).same, hchar]
  | some r =>
    obtain ⟨hle, hkept⟩ := enclosed_append_break (.inr rfl)
      (fun s t c n hc hclose => chainOf_append_break keeps_leaf hc hclose t) hs
    exact steady_of_eq_some hs hle hkept

/-! ## Lists between braces -/

/-- Behind the items of a list: perhaps a comma, and the brace that closes. -/
def endOfList {α : Type} (xs : List α) : Rule (List α) := do
  let _ ← optional (do gap; char ',')
  gap
  char '\x7d'
  pure xs

section Braced

variable {α : Type} {item : Rule α}

/-- The end of a list stands ahead: `m` characters are read for the comma, or none, and behind a
gap there is the brace. -/
structure EndsList (s : List Char) (o : Option Unit) (m : Nat) (tail : List Char) : Prop where
  comma? : optional (gap >>= fun _ => char ',') s = some (o, m)
  brace : (s.drop m).drop (gapLength (s.drop m)) = '\x7d' :: tail

theorem exists_endsList {xs : List α} {s : List Char} (h : endOfList xs s ≠ none) :
    ∃ o m tail, EndsList s o m tail := by
  obtain ⟨o, m, ho, hrest⟩ := exists_of_bind_ne_none h
  obtain ⟨_, g, hg, hbrace⟩ := exists_of_bind_ne_none hrest
  obtain ⟨_, _, hchar, -⟩ := exists_of_bind_ne_none hbrace
  obtain ⟨tail, htail, -⟩ := exists_of_char hchar
  obtain ⟨-, rfl⟩ := Prod.mk.inj (Option.some.inj hg)
  exact ⟨o, m, tail, ho, htail⟩

namespace EndsList

variable {s : List Char} {o : Option Unit} {m : Nat} {tail : List Char}

/-- The gap in front of the brace ends there. -/
theorem steady_gap_brace (h : EndsList s o m tail) : gap.Steady (s.drop m) :=
  steady_gap (lt_length_of_drop_ne_nil (h.brace ▸ List.cons_ne_nil _ _))

/-- The gap in front of the comma ends there, or else at the brace. -/
theorem steady_gap_comma (h : EndsList s o m tail) : gap.Steady s := by
  refine steady_gap (lt_length_of_drop_ne_nil fun hend => ?_)
  rcases exists_of_optional h.comma? with ⟨_, hcomma⟩ | ⟨-, rfl⟩
  · obtain ⟨_, k, j, hk, hj, -⟩ := exists_of_bind_eq_some hcomma
    obtain ⟨-, rfl⟩ := Prod.mk.inj (Option.some.inj hk)
    rw [hend] at hj
    exact nomatch hj
  · have hbrace := h.brace
    rw [List.drop_zero, hend] at hbrace
    exact nomatch hbrace

/-- A comma that can be read is the one that the end of the list reads. -/
theorem drop_of_comma (h : EndsList s o m tail) {k j : Nat} {u v : Unit}
    (hk : gap s = some (u, k)) (hj : char ',' (s.drop k) = some (v, j)) :
    (s.drop k).drop j = s.drop m := by
  have hread : (gap >>= fun _ => char ',') s = some (v, k + j) := bind_eq_some hk hj
  rcases exists_of_optional h.comma? with ⟨_, hcomma⟩ | ⟨hnone, -⟩
  · rw [hread] at hcomma
    obtain ⟨-, rfl⟩ := Prod.mk.inj (Option.some.inj hcomma)
    exact List.drop_drop
  · rw [hread] at hnone
    exact nomatch hnone

/-- Behind a comma stands the brace, which begins no item. -/
theorem comma_item_eq_none (h : EndsList s o m tail)
    (hnone : ∀ tail, item ('\x7d' :: tail) = none) :
    (comma >>= fun _ => item) s = none := by
  cases hs : comma s with
  | none => exact bind_eq_none hs
  | some u =>
    obtain ⟨_, k, _, hk, hmore, hu⟩ := exists_of_bind_eq_some (b := u.1) (n := u.2) hs
    obtain ⟨_, j, g, hj, hg, rfl⟩ := exists_of_bind_eq_some hmore
    obtain ⟨-, rfl⟩ := Prod.mk.inj (Option.some.inj hg)
    refine bind_eq_none_of_some hs ?_
    rw [hu, ← List.drop_drop, ← List.drop_drop, h.drop_of_comma hk hj, h.brace, hnone]

/-- Neither does one begin there if more text follows. -/
theorem item_eq_none (h : EndsList s o m tail) (hitem : item.Local)
    (hnone : ∀ tail, item ('\x7d' :: tail) = none) (t : List Char) :
    (comma >>= fun _ => item) (s ++ '\n' :: t) = none := by
  have hsteady : comma.Steady s := by
    refine h.steady_gap_comma.bind fun _ k hk => (local_char (by decide) _).bind fun _ j hj => ?_
    rw [h.drop_of_comma hk hj]
    exact h.steady_gap_brace
  rw [(hsteady.bind fun _ _ _ => hitem _).same]
  exact h.comma_item_eq_none hnone

theorem steady (h : EndsList s o m tail) (xs : List α) : (endOfList xs).Steady s := by
  refine Steady.bind (Steady.optional ?_) fun _ k hk => ?_
  · exact h.steady_gap_comma.bind fun _ _ _ => local_char (by decide) _
  · rw [h.comma?] at hk
    obtain ⟨-, rfl⟩ := Prod.mk.inj (Option.some.inj hk)
    exact h.steady_gap_brace.bind fun _ _ _ =>
      (local_char (by decide) _).bind fun _ _ _ => local_pure _ _

end EndsList

theorem keeps_comma (hitem : item.Local) :
    (comma >>= fun _ => item).Keeps (comma >>= fun _ => item) :=
  (keeps_gap.bind fun _ => (local_char (by decide)).keeps.bind fun _ => keeps_gap).bind fun _ =>
    hitem.keeps

/-- A list between braces is steady if it closes. -/
theorem steady_braced (hitem : item.Local) (hnone : ∀ tail, item ('\x7d' :: tail) = none)
    {s : List Char} (h : braced item s ≠ none) : (braced item).Steady s := by
  refine (local_char (by decide) s).bind_of_ne_none h fun _ i _ h => ?_
  obtain ⟨_, g, hg, hlist⟩ := exists_of_bind_ne_none h
  obtain ⟨items, k, hitems, hclose⟩ := exists_of_bind_ne_none hlist
  have hend : endOfList items (((s.drop i).drop g).drop k) ≠ none := hclose
  have hrest : ((s.drop i).drop g).drop k ≠ [] := fun hnil => by
    rw [hnil] at hend
    exact hend rfl
  have hne : (s.drop i).drop g ≠ [] := fun hnil => by
    rw [hnil, List.drop_nil] at hrest
    exact hrest rfl
  obtain ⟨o, m, tail, hends⟩ := exists_endsList hend
  obtain ⟨-, rfl⟩ := Prod.mk.inj (Option.some.inj hg)
  refine (steady_gap (lt_length_of_drop_ne_nil hne)).bind fun _ g' hg' => ?_
  obtain ⟨-, rfl⟩ := Prod.mk.inj (Option.some.inj hg')
  have hsep := steady_sepBy hitem (keeps_comma hitem) hitems (lt_length_of_drop_ne_nil hrest)
    (hends.item_eq_none hitem hnone)
  refine hsep.bind fun xs k' hk' => ?_
  obtain ⟨rfl, rfl⟩ := Prod.mk.inj (Option.some.inj (hitems.symm.trans hk'))
  exact hends.steady items

end Braced

end Grammar
end WordMachine
